import OscDataProcess.World

/-!
# factory.cc

Every function runs on the factory thread. `none` is a dereference of a NULL or
dangling pointer. Calls that run observers push the frames that go on with the
observer loop and with the rest of the caller.
-/
namespace OscDataProcess

open Function (update)

/-- `Factory::Factory`: speed 1000 a second, data id -1. -/
def newFactory : Factory := ⟨false, 1000, 0, ⟨-1, []⟩, .empty⟩

/-- FOR_EACH_OBSERVER up to its first `GetNext`: an empty list makes no iterator. -/
def startNotify (k : Notice) (f : FactoryId) (fac : Factory) : Factory × List Frame :=
  if fac.observerList.mightHaveObservers then
    ({ fac with observerList := fac.observerList.beginNotify }, [.notify k f 0])
  else (fac, [])

/-- The FactoryData that `Produce` makes from its static `id`. -/
def FactoryData.make (id : BitVec 32) : FactoryData :=
  ⟨id, ("Data id:" ++ toString id.toInt ++ ".").toList⟩

/-- `static_cast<int64>(1e6 / speed_)`. -/
def Factory.period (fac : Factory) : Nat := 1000000 / fac.speed

namespace World

/-- `new Factory(factory_thread)`. -/
def createFactory (w : World) : World :=
  { w with
    factory := update w.factory w.freshFactory (some newFactory)
    gFactory := some w.freshFactory
    freshFactory := w.freshFactory + 1
    trace := w.trace ++ [.created w.freshFactory newFactory.data] }

/-- `Factory::Start`. -/
def factoryStart (w : World) (f : FactoryId) : Option World := do
  let fac ← w.factory f
  if fac.start then some w
  else some { w with
    factory := update w.factory f (some { fac with start := true })
    tasks := w.tasks ++ [.schedule f] }

/-- `Factory::Stop`. -/
def factoryStop (w : World) (f : FactoryId) : Option World := do
  let fac ← w.factory f
  if fac.start then some { w with factory := update w.factory f (some { fac with start := false }) }
  else some w

/-- `Factory::Schedule`; Produce comes next on the stack. -/
def factorySchedule (w : World) (f : FactoryId) (rest : List Frame) : Option World := do
  let fac ← w.factory f
  let fac := { fac with lastTicks := w.now }
  let w := { w with factory := update w.factory f (some fac), frames := rest }
  if fac.start then
    -- PostDelayedTask: a zero delay is an ordinary task
    if fac.period = 0 then
      some { w with tasks := w.tasks ++ [.schedule f], frames := .produce f :: rest }
    else
      some { w with delayed := w.delayed ++ [(w.now + fac.period, f)], frames := .produce f :: rest }
  else some w

/-- `Factory::Produce` up to the observer loop of NotifyProduced; `++id` comes after it. -/
def factoryProduce (w : World) (f : FactoryId) (rest : List Frame) : Option World := do
  let fac ← w.factory f
  let data := FactoryData.make w.dataId
  let (fac, loop) := startNotify .produced f { fac with data := data }
  some { w with
    factory := update w.factory f (some fac)
    frames := loop ++ .produced :: rest
    trace := w.trace ++ [.produced f w.now data] }

/-- `Factory::Destroy` up to the observer loop of NotifyDestroy. -/
def factoryDestroy (w : World) (f : FactoryId) (rest : List Frame) : Option World := do
  let fac ← w.factory f
  let (fac, loop) := startNotify .destroyed f fac
  some { w with
    factory := update w.factory f (some fac)
    frames := loop ++ .destroyed f :: rest
    trace := w.trace ++ [.destroyBegun f] }

/-- The rest of `Factory::Destroy`: InvalidateWeakPtrs, then the destructor. From here on
every weak pointer to the Factory or to its observer list reads NULL. -/
def factoryDelete (w : World) (f : FactoryId) (rest : List Frame) : Option World := do
  let _ ← w.factory f
  some { w with
    factory := update w.factory f none
    gFactory := none
    frames := rest
    trace := w.trace ++ [.deleted f] }

/-- Replace the observer list of a live Factory. -/
def setObservers (w : World) (f : FactoryId) (fac : Factory) (l : ObserverList Observer) : World :=
  { w with factory := update w.factory f (some { fac with observerList := l }) }

@[simp] theorem setObservers_gFactory (w : World) (f : FactoryId) (fac : Factory)
    (l : ObserverList Observer) :
    (w.setObservers f fac l).gFactory = w.gFactory := rfl
@[simp] theorem setObservers_tasks (w : World) (f : FactoryId) (fac : Factory)
    (l : ObserverList Observer) :
    (w.setObservers f fac l).tasks = w.tasks := rfl
@[simp] theorem setObservers_pc (w : World) (f : FactoryId) (fac : Factory)
    (l : ObserverList Observer) :
    (w.setObservers f fac l).pc = w.pc := rfl
@[simp] theorem setObservers_frames (w : World) (f : FactoryId) (fac : Factory)
    (l : ObserverList Observer) :
    (w.setObservers f fac l).frames = w.frames := rfl
@[simp] theorem setObservers_trace (w : World) (f : FactoryId) (fac : Factory)
    (l : ObserverList Observer) :
    (w.setObservers f fac l).trace = w.trace := rfl

/-- One call of `Factory::GetFactory()->...` by code on the factory thread. The caller
creates a Factory only when there is none, and calls nothing on a NULL Factory. -/
def call (w : World) (rest : List Frame) : Call → Option World
  | .create => match w.gFactory with
    | some _ => some { w with frames := rest }
    | none => some { w.createFactory with frames := rest }
  | .start => match w.gFactory with
    | some f => { w with frames := rest }.factoryStart f
    | none => some { w with frames := rest }
  | .stop => match w.gFactory with
    | some f => { w with frames := rest }.factoryStop f
    | none => some { w with frames := rest }
  | .destroy => match w.gFactory with
    | some f => w.factoryDestroy f rest
    | none => some { w with frames := rest }
  | .addObserver p => match w.gFactory with
    | some f => do
      let fac ← w.factory f
      some ({ w with frames := rest }.setObservers f fac (fac.observerList.addObserver (.plain p)))
    | none => some { w with frames := rest }
  | .removeObserver p => match w.gFactory with
    | some f => do
      let fac ← w.factory f
      some ({ w with frames := rest }.setObservers f fac (fac.observerList.removeObserver (.plain p)))
    | none => some { w with frames := rest }

/-- One turn of a FOR_EACH_OBSERVER loop. A plain observer makes the calls of `script`;
a stub goes on with its own code, `data_` being read for each observer anew. -/
def notifyNext (w : World) (script : List Call) (k : Notice) (f : FactoryId) (index : Nat)
    (rest : List Frame) : Option World :=
  match w.factory f with
  -- the iterator's weak pointer to the list reads NULL
  | none => some { w with frames := rest }
  | some fac => match fac.observerList.getNext index with
    | none => some ({ w with frames := rest }.setObservers f fac fac.observerList.endNotify)
    | some (.plain p, index) => some { w with
        frames := .calls script :: .notify k f index :: rest
        trace := w.trace ++ [.notified k f (.plain p)] }
    | some (.stub s, index) => some { w with
        frames := .notify k f index :: rest
        pc := match k with
          | .produced => .stubData s fac.data
          | .destroyed => .leave s
        trace := w.trace ++ [.notified k f (.stub s)] }

/-- The top frame of the factory thread takes one step. -/
def runFrame (w : World) (script : List Call) (rest : List Frame) : Frame → Option World
  | .calls [] => some { w with frames := rest }
  | .calls (c :: cs) => w.call (.calls cs :: rest) c
  | .schedule f => w.factorySchedule f rest
  | .produce f => w.factoryProduce f rest
  | .notify k f index => w.notifyNext script k f index rest
  | .produced => some { w with dataId := w.dataId + 1, frames := rest }
  | .destroyed f => w.factoryDelete f rest

end World
end OscDataProcess
