import OscDataProcess.Factory

/-!
# observer_cross_thread.cc, factory_host.cc, freq_factory_host.cc

The stub's side runs on the factory thread, the host's side on its host thread.
References are counted as scoped_refptr and Bind count them; the release that
reaches zero deletes the host.
-/
namespace OscDataProcess

open Function (update)

/-- `FreqFactoryHostStub::OnDataProduced` at clock reading `time`: the new limiter and
whether the datum is forwarded. -/
def FreqLimiter.onDataProduced (l : FreqLimiter) (time : Nat) : FreqLimiter × Bool :=
  if l.lastNotifyTime = 0 then ({ l with lastNotifyTime := time }, true)
  else
    let delta := 1000000 / l.freq
    if l.lastNotifyTime + delta ≤ time then
      ({ l with lastNotifyTime := l.lastNotifyTime + delta }, true)
    else (l, false)

/-- `OnDataProduced` of a stub; a plain FactoryStub forwards everything. -/
def FactoryStub.onDataProduced (st : FactoryStub) (time : Nat) : FactoryStub × Bool :=
  match st.limiter with
  | none => (st, true)
  | some l => ({ st with limiter := some (l.onDataProduced time).1 }, (l.onDataProduced time).2)

/-- The host after `Release`: deleted when the count reaches zero. -/
def FactoryHost.released (o : FactoryHost) : Option FactoryHost :=
  if o.refs = 1 then none else some { o with refs := o.refs - 1 }

def FactoryHost.deletion (h : HostId) (o : FactoryHost) : List Entry :=
  if o.refs = 1 then [.hostDeleted h o] else []

/-- The condition `~ObserverCrossThread` asserts. -/
def FactoryHost.DestructorCheck (o : FactoryHost) : Prop :=
  (o.init = true ∧ o.destroy = true) ∨ (o.init = false ∧ o.destroy = false)

/-- `ReplyInit`, `FactoryHost::OnDataProduced`, `OnFactoryDestory`, `ReplyDestroy`. -/
def FactoryHost.handle (o : FactoryHost) : Callback → FactoryHost
  | .replyInit => { o with init := true }
  | .onDataProduced data => { o with data := some data, receive := o.receive + 1 }
  | .onFactoryDestory => { o with factoryDestroy := o.factoryDestroy + 1 }
  | .replyDestroy => { o with destroy := true, destroyTime := o.destroyTime + 1 }

namespace World

/-- `AddRef`. -/
def addRef (w : World) (h : HostId) : Option World := do
  let o ← w.host h
  some { w with host := update w.host h (some { o with refs := o.refs + 1 }) }

/-- `Release`. -/
def release (w : World) (h : HostId) : Option World := do
  let o ← w.host h
  some { w with host := update w.host h o.released, trace := w.trace ++ o.deletion h }

/-- `PostTask` on the thread of host `h`. -/
def enqueue (w : World) (c : Config) (h : HostId) (t : HostTask) : World :=
  let l := w.loop (c.hostThread h)
  { w with loop := update w.loop (c.hostThread h) { l with queue := l.queue ++ [t] } }

/-- `host_thread()->PostTask(Bind(&FactoryHost::m, host))`: the task holds a reference. -/
def postCallback (w : World) (c : Config) (h : HostId) (m : Callback) : Option World := do
  let w ← w.addRef h
  some { w.enqueue c h (.call h m) with trace := w.trace ++ [.posted h m] }

/-- `PostInit`: CreateStub runs the constructor of FactoryStub, which hands the last datum
to the host and registers the stub. -/
def postInit (w : World) (c : Config) (h : HostId) : Option World := do
  let f ← w.gFactory
  let fac ← w.factory f
  let w ← w.addRef h
  let o ← w.host h
  let s := w.freshStub
  some { w with
    host := update w.host h (some { o with data := some fac.data, stub := some s })
    stub := update w.stub s (some ⟨h, some f, (c.freq h).map (⟨·, 0⟩)⟩)
    freshStub := s + 1
    factory := update w.factory f
      (some { fac with observerList := fac.observerList.addObserver (.stub s) })
    trace := w.trace ++ [.attached h s f] }

/-- `~FactoryStub` on the observer list of `factory_`. -/
def unregister (w : World) (s : StubId) (st : FactoryStub) : Option World :=
  match st.factory with
  | none => some w
  | some f => do
    let fac ← w.factory f
    if fac.observerList.hasObserver (.stub s) then
      some (w.setObservers f fac (fac.observerList.removeObserver (.stub s)))
    else some w

/-- `delete stub_`: the destructor of FactoryStub, then that of Stub drops `observer_`. -/
def deleteStub (w : World) (s : StubId) : Option World := do
  let st ← w.stub s
  let w ← w.unregister s st
  let w : World := { w with
    stub := update w.stub s none
    trace := w.trace ++ [.detached st.observer s] }
  w.release st.observer

/-- `PostDestroy`; deleting a NULL `stub_` does nothing. -/
def postDestroy (w : World) (h : HostId) : Option World := do
  let o ← w.host h
  match o.stub with
  | none => some w
  | some s =>
    let w ← w.deleteStub s
    let o ← w.host h
    some { w with host := update w.host h (some { o with stub := none }) }

/-- `PostTaskAndReplyRelay::Run` up to the end of `task_`. -/
def relayTask (w : World) (c : Config) (r : Relay) : Option World :=
  match r.kind with
  | .init => w.postInit c r.host
  | .destroy =>
    let w : World := { w with trace := w.trace ++ [.postDestroy r.host] }
    w.postDestroy r.host

/-- `OnDataProduced` of the stub: post the datum unless the limiter holds it back. -/
def stubOnDataProduced (w : World) (c : Config) (s : StubId) (data : FactoryData) (time : Nat) :
    Option World := do
  let st ← w.stub s
  let w := { w with
    stub := update w.stub s (some (st.onDataProduced time).1)
    trace := w.trace ++ [.offered st.observer time data] }
  if (st.onDataProduced time).2 then w.postCallback c st.observer (.onDataProduced data)
  else some w

/-- `FactoryStub::OnFactoryDestroy` up to `factory_ = NULL`. -/
def stubLeave (w : World) (s : StubId) : Option World := do
  let st ← w.stub s
  let f ← st.factory
  let fac ← w.factory f
  some { w.setObservers f fac (fac.observerList.removeObserver (.stub s)) with
    stub := update w.stub s (some { st with factory := none }) }

/-- The straight-line code of hosts and stubs takes one step on the factory thread. -/
def runPc (w : World) (c : Config) (time : Nat) : Pc → Option World
  | .idle => none
  | .relayTask r => do
    let w ← w.relayTask c r
    some { w with pc := .relayReply r }
  | .relayReply r => some { w.enqueue c r.host (.reply r) with
      pc := .idle, trace := w.trace ++ [.posted r.host r.kind.callback] }
  | .stubData s data => do
    let w ← w.stubOnDataProduced c s data time
    some { w with pc := .idle }
  | .leave s => do
    let w ← w.stubLeave s
    some { w with pc := .leavePost s }
  | .leavePost s => do
    let st ← w.stub s
    let w ← w.postCallback c st.observer .onFactoryDestory
    some { w with pc := .leaveDestroy s }
  | .leaveDestroy s => do
    let st ← w.stub s
    let w ← w.addRef st.observer
    some { w with pc := .selfDestroy st.observer }
  | .selfDestroy h => do
    let w ← w.postDestroy h
    some { w with pc := .selfReply h }
  | .selfReply h => do
    let w ← w.postCallback c h .replyDestroy
    some { w with pc := .selfDrop h }
  | .selfDrop h => do
    let w ← w.release h
    some { w with pc := .idle }

/-- A host runs one of its callbacks on its own thread. -/
def handle (w : World) (h : HostId) (m : Callback) : Option World := do
  let o ← w.host h
  some { w with host := update w.host h (some (o.handle m)), trace := w.trace ++ [.handled h m] }

@[simp] theorem enqueue_gFactory (w : World) (c : Config) (h : HostId) (t : HostTask) :
    (w.enqueue c h t).gFactory = w.gFactory := rfl
@[simp] theorem enqueue_factory (w : World) (c : Config) (h : HostId) (t : HostTask) :
    (w.enqueue c h t).factory = w.factory := rfl
@[simp] theorem enqueue_stub (w : World) (c : Config) (h : HostId) (t : HostTask) :
    (w.enqueue c h t).stub = w.stub := rfl
@[simp] theorem enqueue_freshStub (w : World) (c : Config) (h : HostId) (t : HostTask) :
    (w.enqueue c h t).freshStub = w.freshStub := rfl
@[simp] theorem enqueue_host (w : World) (c : Config) (h : HostId) (t : HostTask) :
    (w.enqueue c h t).host = w.host := rfl
@[simp] theorem enqueue_external (w : World) (c : Config) (h : HostId) (t : HostTask) :
    (w.enqueue c h t).external = w.external := rfl
@[simp] theorem enqueue_tasks (w : World) (c : Config) (h : HostId) (t : HostTask) :
    (w.enqueue c h t).tasks = w.tasks := rfl
@[simp] theorem enqueue_pc (w : World) (c : Config) (h : HostId) (t : HostTask) :
    (w.enqueue c h t).pc = w.pc := rfl
@[simp] theorem enqueue_frames (w : World) (c : Config) (h : HostId) (t : HostTask) :
    (w.enqueue c h t).frames = w.frames := rfl
@[simp] theorem enqueue_trace (w : World) (c : Config) (h : HostId) (t : HostTask) :
    (w.enqueue c h t).trace = w.trace := rfl

theorem addRef_eq_some {w w' : World} {h : HostId} :
    w.addRef h = some w' ↔ ∃ o, w.host h = some o ∧
      { w with host := update w.host h (some { o with refs := o.refs + 1 }) } = w' := by
  simp [addRef, Option.bind_eq_some_iff]

theorem release_eq_some {w w' : World} {h : HostId} :
    w.release h = some w' ↔ ∃ o, w.host h = some o ∧
      { w with host := update w.host h o.released, trace := w.trace ++ o.deletion h } = w' := by
  simp [release, Option.bind_eq_some_iff]

theorem postCallback_eq_some {w w' : World} {c : Config} {h : HostId} {m : Callback} :
    w.postCallback c h m = some w' ↔ ∃ o, w.host h = some o ∧
      { w.enqueue c h (.call h m) with
        host := update w.host h (some { o with refs := o.refs + 1 })
        trace := w.trace ++ [.posted h m] } = w' := by
  simp [postCallback, addRef, Option.bind_eq_some_iff, enqueue]

theorem handle_eq_some {w w' : World} {h : HostId} {m : Callback} :
    w.handle h m = some w' ↔ ∃ o, w.host h = some o ∧
      { w with host := update w.host h (some (o.handle m)), trace := w.trace ++ [.handled h m] } = w' := by
  simp [handle, Option.bind_eq_some_iff]

theorem postInit_eq_some {w w' : World} {c : Config} {h : HostId} :
    w.postInit c h = some w' ↔ ∃ f fac o, w.gFactory = some f ∧ w.factory f = some fac ∧
      w.host h = some o ∧ { w with
        host := update w.host h
          (some { o with refs := o.refs + 1, data := some fac.data, stub := some w.freshStub })
        stub := update w.stub w.freshStub (some ⟨h, some f, (c.freq h).map (⟨·, 0⟩)⟩)
        freshStub := w.freshStub + 1
        factory := update w.factory f
          (some { fac with observerList := fac.observerList.addObserver (.stub w.freshStub) })
        trace := w.trace ++ [.attached h w.freshStub f] } = w' := by
  simp only [postInit, addRef, Option.bind_eq_bind, Option.bind_eq_some_iff, Option.some.injEq]
  constructor
  · rintro ⟨f, hf, fac, hfac, _, ⟨o, ho, rfl⟩, _, ho', rfl⟩
    obtain rfl := (Function.update_self h _ w.host).symm.trans ho' |> Option.some.inj
    exact ⟨f, fac, o, hf, hfac, ho, by simp⟩
  · rintro ⟨f, fac, o, hf, hfac, ho, rfl⟩
    exact ⟨f, hf, fac, hfac, _, ⟨o, ho, rfl⟩, _, Function.update_self .., by simp⟩

/-- Move a host thread to another position. -/
def setHostPc (w : World) (t : ThreadId) (pc : HostPc) : World :=
  { w with loop := update w.loop t { w.loop t with pc := pc } }

@[simp] theorem setHostPc_gFactory (w : World) (t : ThreadId) (pc : HostPc) :
    (w.setHostPc t pc).gFactory = w.gFactory := rfl
@[simp] theorem setHostPc_factory (w : World) (t : ThreadId) (pc : HostPc) :
    (w.setHostPc t pc).factory = w.factory := rfl
@[simp] theorem setHostPc_stub (w : World) (t : ThreadId) (pc : HostPc) :
    (w.setHostPc t pc).stub = w.stub := rfl
@[simp] theorem setHostPc_freshStub (w : World) (t : ThreadId) (pc : HostPc) :
    (w.setHostPc t pc).freshStub = w.freshStub := rfl
@[simp] theorem setHostPc_host (w : World) (t : ThreadId) (pc : HostPc) :
    (w.setHostPc t pc).host = w.host := rfl
@[simp] theorem setHostPc_external (w : World) (t : ThreadId) (pc : HostPc) :
    (w.setHostPc t pc).external = w.external := rfl
@[simp] theorem setHostPc_tasks (w : World) (t : ThreadId) (pc : HostPc) :
    (w.setHostPc t pc).tasks = w.tasks := rfl
@[simp] theorem setHostPc_pc (w : World) (t : ThreadId) (pc : HostPc) :
    (w.setHostPc t pc).pc = w.pc := rfl
@[simp] theorem setHostPc_frames (w : World) (t : ThreadId) (pc : HostPc) :
    (w.setHostPc t pc).frames = w.frames := rfl
@[simp] theorem setHostPc_trace (w : World) (t : ThreadId) (pc : HostPc) :
    (w.setHostPc t pc).trace = w.trace := rfl

/-- The running task of host thread `t` takes one step. -/
def runHost (w : World) (t : ThreadId) : HostPc → Option World
  | .idle => none
  | .resetTask r => do
    let w ← w.release r.host
    some (w.setHostPc t (.runReply r))
  | .runReply r => do
    let w ← w.handle r.host r.kind.callback
    some (w.setHostPc t (.deleteRelay r))
  | .deleteRelay r => do
    let w ← w.release r.host
    some (w.setHostPc t .idle)
  | .run h m => do
    let w ← w.handle h m
    some (w.setHostPc t (.unbind h))
  | .unbind h => do
    let w ← w.release h
    some (w.setHostPc t .idle)

/-- `Init` or `Destroy` on the host thread: a relay with two bound references. -/
def postRelay (w : World) (r : Relay) : Option World := do
  let o ← w.host r.host
  some { w with
    host := update w.host r.host (some { o with refs := o.refs + 2 })
    tasks := w.tasks ++ [.relay r]
    trace := w.trace ++ [match r.kind with
      | .init => .initCall r.host
      | .destroy => .destroyCall r.host] }

theorem stubOnDataProduced_eq_some {w w' : World} {c : Config} {s : StubId} {data : FactoryData}
    {time : Nat} : w.stubOnDataProduced c s data time = some w' ↔ ∃ st, w.stub s = some st ∧
      (((st.onDataProduced time).2 = true ∧ ∃ o, w.host st.observer = some o ∧
        { w.enqueue c st.observer (.call st.observer (.onDataProduced data)) with
          stub := update w.stub s (some (st.onDataProduced time).1)
          host := update w.host st.observer (some { o with refs := o.refs + 1 })
          trace := w.trace ++ [.offered st.observer time data,
            .posted st.observer (.onDataProduced data)] } = w') ∨
      ((st.onDataProduced time).2 = false ∧
        { w with
          stub := update w.stub s (some (st.onDataProduced time).1)
          trace := w.trace ++ [.offered st.observer time data] } = w')) := by
  simp only [stubOnDataProduced, Option.bind_eq_bind, Option.bind_eq_some_iff]
  refine exists_congr fun st => and_congr_right fun _ => ?_
  cases (st.onDataProduced time).2 <;>
    simp [postCallback_eq_some, enqueue, List.append_assoc]

theorem stubLeave_eq_some {w w' : World} {s : StubId} :
    w.stubLeave s = some w' ↔ ∃ st f fac, w.stub s = some st ∧ st.factory = some f ∧
      w.factory f = some fac ∧
      { w.setObservers f fac (fac.observerList.removeObserver (.stub s)) with
        stub := update w.stub s (some { st with factory := none }) } = w' := by
  simp [stubLeave, Option.bind_eq_some_iff]

/-- The factories after `~FactoryStub` of stub `s`. -/
def dropped (w : World) (s : StubId) (st : FactoryStub) : FactoryId → Option Factory :=
  match st.factory with
  | none => w.factory
  | some f => update w.factory f ((w.factory f).map fun fac =>
      { fac with observerList := fac.observerList.removeObserver (.stub s) })

theorem unregister_eq_some {w w' : World} {s : StubId} {st : FactoryStub} :
    w.unregister s st = some w' ↔ (∀ f, st.factory = some f → (w.factory f).isSome) ∧
      { w with factory := w.dropped s st } = w' := by
  cases hf : st.factory with
  | none => simp [unregister, dropped, hf]
  | some f =>
    cases hfac : w.factory f with
    | none => simp [unregister, hf, hfac]
    | some fac =>
      by_cases hs : some (Observer.stub s) ∈ fac.observerList.observers
      · simp [unregister, dropped, hf, hfac, setObservers, ObserverList.hasObserver, hs]
      · have hsame : update w.factory f (some fac) = w.factory := by
          rw [← hfac, Function.update_eq_self]
        simp [unregister, dropped, hf, hfac, ObserverList.hasObserver,
          ObserverList.removeObserver, hs, hsame]

theorem deleteStub_eq_some {w w' : World} {s : StubId} :
    w.deleteStub s = some w' ↔ ∃ st o, w.stub s = some st ∧
      (∀ f, st.factory = some f → (w.factory f).isSome) ∧ w.host st.observer = some o ∧
      { w with
        factory := w.dropped s st
        stub := update w.stub s none
        host := update w.host st.observer o.released
        trace := w.trace ++ .detached st.observer s :: o.deletion st.observer } = w' := by
  simp [deleteStub, unregister_eq_some, release_eq_some, Option.bind_eq_some_iff]

theorem postRelay_eq_some {w w' : World} {r : Relay} :
    w.postRelay r = some w' ↔ ∃ o, w.host r.host = some o ∧ { w with
      host := update w.host r.host (some { o with refs := o.refs + 2 })
      tasks := w.tasks ++ [.relay r]
      trace := w.trace ++ [match r.kind with
        | .init => .initCall r.host
        | .destroy => .destroyCall r.host] } = w' := by
  simp [postRelay, Option.bind_eq_some_iff]

end World
end OscDataProcess
