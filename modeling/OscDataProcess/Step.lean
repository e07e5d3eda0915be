import OscDataProcess.GuardedRun
import OscDataProcess.Host

/-!
# Events of the deployment

The factory thread takes its tasks one after another; every host thread does the
same with its own queue; between any two steps of one thread any other thread may
move, a caller may post calls to the factory thread, and time may pass.
-/
namespace OscDataProcess

open Function (update)

/-- `time` is what `base::Time::Now()` returns in this step, `script` what a plain
observer does if this step calls one back. -/
inductive Event where
  | post (cs : List Call)
  | begin
  | beginDelayed (i : Nat)
  | run (time : Nat) (script : List Call)
  | beginHost (t : ThreadId)
  | runHost (t : ThreadId)
  | init (h : HostId)
  | destroy (h : HostId)
  | addRef (h : HostId)
  | dropRef (h : HostId)
  | tick (us : Nat)
  deriving DecidableEq, Repr

/-- A host thread takes a task from its queue. -/
def HostTask.start : HostTask → HostPc
  | .reply r => .resetTask r
  | .call h m => .run h m

namespace World

/-- The factory thread takes a task from its queue. A Schedule task whose weak pointer
reads NULL does nothing. -/
def beginTask (w : World) : FactoryTask → World
  | .relay r => { w with pc := .relayTask r }
  | .calls cs => { w with frames := [.calls cs] }
  | .schedule f =>
    { w with
      frames := if (w.factory f).isSome then [.schedule f] else []
      trace := w.trace ++ [.taken f] }

def step (c : Config) (w : World) : Event → Option World
  | .post cs => some { w with tasks := w.tasks ++ [.calls cs] }
  | .begin =>
    if w.Idle then match w.tasks with
      | [] => none
      | t :: ts => some ({ w with tasks := ts }.beginTask t)
    else none
  | .beginDelayed i =>
    if w.Idle then match w.delayed[i]? with
      | none => none
      | some (time, f) =>
        if time ≤ w.now then some ({ w with delayed := w.delayed.eraseIdx i }.beginTask (.schedule f))
        else none
    else none
  | .run time script =>
    match w.pc with
    | .idle => match w.frames with
      | [] => none
      | fr :: rest => w.runFrame script rest fr
    | pc => w.runPc c time pc
  | .beginHost t =>
    if (w.loop t).pc = .idle then match (w.loop t).queue with
      | [] => none
      | task :: q => some { w with loop := update w.loop t ⟨q, task.start⟩ }
    else none
  | .runHost t => w.runHost t (w.loop t).pc
  | .init h => w.postRelay ⟨.init, h⟩
  | .destroy h => w.postRelay ⟨.destroy, h⟩
  | .addRef h =>
    if w.external h = 0 then none
    else ({ w with external := update w.external h (w.external h + 1) }).addRef h
  | .dropRef h =>
    if w.external h = 0 then none
    else ({ w with external := update w.external h (w.external h - 1) }).release h
  | .tick us => some { w with now := w.now + us }

end World
end OscDataProcess
