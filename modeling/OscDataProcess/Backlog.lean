import OscDataProcess.Step

/-!
# Code does not look into the queues

What a step of the code does, a task apart that a thread takes from its queue, does not
depend on the tasks that wait there: they stay in front of those that the step posts.
-/
namespace OscDataProcess

open Function (update)

/-- Tasks that were posted earlier. -/
structure Backlog where
  tasks : List FactoryTask
  delayed : List (Nat × FactoryId)
  queue : ThreadId → List HostTask

/-- An event of the code, and not of a message loop or the clock. -/
def Event.isCode : Event → Bool
  | .begin | .beginDelayed _ | .beginHost _ | .tick _ => false
  | _ => true

namespace World

/-- The world with the tasks of `b` in front of its own. -/
def behind (b : Backlog) (w : World) : World :=
  { w with
    tasks := b.tasks ++ w.tasks
    delayed := b.delayed ++ w.delayed
    loop := fun t => ⟨b.queue t ++ (w.loop t).queue, (w.loop t).pc⟩ }

variable {b : Backlog} {c : Config} {w w' : World}

@[simp] theorem behind_now : (w.behind b).now = w.now := rfl
@[simp] theorem behind_gFactory : (w.behind b).gFactory = w.gFactory := rfl
@[simp] theorem behind_factory : (w.behind b).factory = w.factory := rfl
@[simp] theorem behind_stub : (w.behind b).stub = w.stub := rfl
@[simp] theorem behind_freshStub : (w.behind b).freshStub = w.freshStub := rfl
@[simp] theorem behind_host : (w.behind b).host = w.host := rfl
@[simp] theorem behind_external : (w.behind b).external = w.external := rfl
@[simp] theorem behind_pc : (w.behind b).pc = w.pc := rfl
@[simp] theorem behind_frames : (w.behind b).frames = w.frames := rfl
@[simp] theorem behind_trace : (w.behind b).trace = w.trace := rfl
@[simp] theorem behind_loop_pc (t : ThreadId) : ((w.behind b).loop t).pc = (w.loop t).pc := rfl

theorem factoryStart_behind (f : FactoryId) :
    (w.behind b).factoryStart f = (w.factoryStart f).map (behind b) := by
  unfold factoryStart
  cases hf : w.factory f with
  | none => simp [hf]
  | some fac => cases hs : fac.start <;> simp [hf, hs, behind]

theorem factoryStop_behind (f : FactoryId) :
    (w.behind b).factoryStop f = (w.factoryStop f).map (behind b) := by
  unfold factoryStop
  cases hf : w.factory f with
  | none => simp [hf]
  | some fac => cases hs : fac.start <;> simp [hf, hs, behind]

theorem factorySchedule_behind (f : FactoryId) (rest : List Frame) :
    (w.behind b).factorySchedule f rest = (w.factorySchedule f rest).map (behind b) := by
  unfold factorySchedule
  cases hf : w.factory f with
  | none => simp [hf]
  | some fac =>
    cases hs : fac.start
    · simp [hf, hs, behind]
    · by_cases hp : fac.speed = 0 ∨ 1000000 < fac.speed <;> simp [hf, hs, Factory.period, hp, behind]

theorem factoryProduce_behind (f : FactoryId) (rest : List Frame) :
    (w.behind b).factoryProduce f rest = (w.factoryProduce f rest).map (behind b) := by
  unfold factoryProduce
  cases hf : w.factory f <;> simp [hf, behind]

theorem factoryDestroy_behind (f : FactoryId) (rest : List Frame) :
    (w.behind b).factoryDestroy f rest = (w.factoryDestroy f rest).map (behind b) := by
  unfold factoryDestroy
  cases hf : w.factory f <;> simp [hf, behind]

theorem factoryDelete_behind (f : FactoryId) (rest : List Frame) :
    (w.behind b).factoryDelete f rest = (w.factoryDelete f rest).map (behind b) := by
  unfold factoryDelete
  cases hf : w.factory f <;> simp [hf, behind]

theorem call_behind (rest : List Frame) (cl : Call) : (w.behind b).call rest cl = (w.call rest cl).map (behind b) := by
  cases cl with
  | create => cases hg : w.gFactory <;> simp [call, hg, createFactory, behind]
  | start =>
    cases hg : w.gFactory with
    | none => simp [call, hg, behind]
    | some f =>
      simp only [call, behind_gFactory, hg]
      exact factoryStart_behind (w := { w with gFactory := some f, frames := rest }) f
  | stop =>
    cases hg : w.gFactory with
    | none => simp [call, hg, behind]
    | some f =>
      simp only [call, behind_gFactory, hg]
      exact factoryStop_behind (w := { w with gFactory := some f, frames := rest }) f
  | destroy =>
    cases hg : w.gFactory with
    | none => simp [call, hg, behind]
    | some f =>
      simp only [call, behind_gFactory, hg]
      exact factoryDestroy_behind f rest
  | addObserver p | removeObserver p =>
    cases hg : w.gFactory with
    | none => simp [call, hg, behind]
    | some f => cases hf : w.factory f <;> simp [call, hg, hf, setObservers, behind]

theorem notifyNext_behind (script : List Call) (k : Notice) (f : FactoryId) (index : Nat) (rest : List Frame) :
    (w.behind b).notifyNext script k f index rest = (w.notifyNext script k f index rest).map (behind b) := by
  unfold notifyNext
  cases hf : w.factory f with
  | none => simp [hf, behind]
  | some fac =>
    cases hg : fac.observerList.getNext index with
    | none => simp [hf, hg, setObservers, behind]
    | some o =>
      obtain ⟨o, i⟩ := o
      cases o <;> cases k <;> simp [hf, hg, behind]

theorem runFrame_behind (script : List Call) (rest : List Frame) (fr : Frame) :
    (w.behind b).runFrame script rest fr = (w.runFrame script rest fr).map (behind b) := by
  cases fr with
  | calls cs =>
    cases cs with
    | nil => simp [runFrame, behind]
    | cons cl cs => exact call_behind ..
  | schedule f => exact factorySchedule_behind ..
  | produce f => exact factoryProduce_behind ..
  | notify k f index => exact notifyNext_behind ..
  | produced => simp [runFrame, behind]
  | destroyed f => exact factoryDelete_behind ..

theorem addRef_behind (h : HostId) : (w.behind b).addRef h = (w.addRef h).map (behind b) := by
  unfold addRef
  cases ho : w.host h <;> simp [ho, behind]

theorem release_behind (h : HostId) : (w.behind b).release h = (w.release h).map (behind b) := by
  unfold release
  cases ho : w.host h <;> simp [ho, behind]

theorem enqueue_behind (h : HostId) (t : HostTask) : (w.behind b).enqueue c h t = (w.enqueue c h t).behind b := by
  have hloop : ((w.behind b).enqueue c h t).loop = ((w.enqueue c h t).behind b).loop := by
    funext t'
    by_cases ht : t' = c.hostThread h
    · subst ht
      simp [enqueue, behind]
    · simp [enqueue, behind, Function.update_of_ne ht]
  simpa [enqueue, behind] using hloop

theorem postCallback_behind (h : HostId) (m : Callback) :
    (w.behind b).postCallback c h m = (w.postCallback c h m).map (behind b) := by
  simp only [postCallback, addRef_behind]
  cases ha : w.addRef h with
  | none => rfl
  | some v =>
    simp only [Option.map_some, Option.bind_eq_bind, Option.bind_some, enqueue_behind]
    rfl

theorem postInit_behind (h : HostId) : (w.behind b).postInit c h = (w.postInit c h).map (behind b) := by
  simp only [postInit, addRef_behind, behind_gFactory, behind_factory]
  cases hg : w.gFactory with
  | none => rfl
  | some f =>
    cases hf : w.factory f with
    | none => simp [hf]
    | some fac =>
      cases ha : w.addRef h with
      | none => simp
      | some v => cases ho : v.host h <;> simp [hf, ho, behind]

theorem unregister_behind (s : StubId) (st : FactoryStub) :
    (w.behind b).unregister s st = (w.unregister s st).map (behind b) := by
  unfold unregister
  cases st.factory with
  | none => rfl
  | some f =>
    cases hf : w.factory f with
    | none => simp [hf]
    | some fac => by_cases hs : fac.observerList.hasObserver (.stub s) <;> simp [hf, hs, setObservers, behind]

theorem deleteStub_behind (s : StubId) : (w.behind b).deleteStub s = (w.deleteStub s).map (behind b) := by
  simp only [deleteStub, behind_stub]
  cases hs : w.stub s with
  | none => rfl
  | some st =>
    simp only [unregister_behind, Option.bind_eq_bind, Option.bind_some]
    cases hu : w.unregister s st with
    | none => rfl
    | some v =>
      exact release_behind (w := { v with
        stub := update v.stub s none
        trace := v.trace ++ [.detached st.observer s] }) _

theorem postDestroy_behind (h : HostId) : (w.behind b).postDestroy h = (w.postDestroy h).map (behind b) := by
  simp only [postDestroy, behind_host]
  cases ho : w.host h with
  | none => rfl
  | some o =>
    cases hs : o.stub with
    | none => simp [hs]
    | some s =>
      simp only [hs, deleteStub_behind, Option.bind_eq_bind, Option.bind_some]
      cases hd : w.deleteStub s with
      | none => rfl
      | some v => cases ho' : v.host h <;> simp [ho', behind]

theorem relayTask_behind (r : Relay) : (w.behind b).relayTask c r = (w.relayTask c r).map (behind b) := by
  unfold relayTask
  cases r.kind with
  | init => exact postInit_behind _
  | destroy => exact postDestroy_behind (w := { w with trace := w.trace ++ [.postDestroy r.host] }) _

theorem stubOnDataProduced_behind (s : StubId) (data : FactoryData) (time : Nat) :
    (w.behind b).stubOnDataProduced c s data time = (w.stubOnDataProduced c s data time).map (behind b) := by
  simp only [stubOnDataProduced, behind_stub]
  cases hs : w.stub s with
  | none => rfl
  | some st =>
    simp only [Option.bind_eq_bind, Option.bind_some]
    split
    · exact postCallback_behind (w := { w with
        stub := update w.stub s (some (st.onDataProduced time).1)
        trace := w.trace ++ [.offered st.observer time data] }) _ _
    · rfl

theorem stubLeave_behind (s : StubId) : (w.behind b).stubLeave s = (w.stubLeave s).map (behind b) := by
  simp only [stubLeave, behind_stub, behind_factory]
  cases hs : w.stub s with
  | none => rfl
  | some st =>
    cases hf : st.factory with
    | none => simp [hf]
    | some f => cases hfac : w.factory f <;> simp [hf, hfac, setObservers, behind]

theorem runPc_behind (time : Nat) (pc : Pc) : (w.behind b).runPc c time pc = (w.runPc c time pc).map (behind b) := by
  cases pc with
  | idle => rfl
  | relayTask r =>
    simp only [runPc, relayTask_behind]
    cases w.relayTask c r <;> rfl
  | relayReply r =>
    simp only [runPc, enqueue_behind]
    rfl
  | stubData s data =>
    simp only [runPc, stubOnDataProduced_behind]
    cases w.stubOnDataProduced c s data time <;> rfl
  | leave s =>
    simp only [runPc, stubLeave_behind]
    cases w.stubLeave s <;> rfl
  | leavePost s =>
    simp only [runPc, postCallback_behind, behind_stub]
    cases hs : w.stub s with
    | none => rfl
    | some st => cases hp : w.postCallback c st.observer .onFactoryDestory <;> simp [hp, behind]
  | leaveDestroy s =>
    simp only [runPc, addRef_behind, behind_stub]
    cases hs : w.stub s with
    | none => rfl
    | some st => cases hp : w.addRef st.observer <;> simp [hp, behind]
  | selfDestroy h =>
    simp only [runPc, postDestroy_behind]
    cases w.postDestroy h <;> rfl
  | selfReply h =>
    simp only [runPc, postCallback_behind]
    cases w.postCallback c h .replyDestroy <;> rfl
  | selfDrop h =>
    simp only [runPc, release_behind]
    cases w.release h <;> rfl

theorem handle_behind (h : HostId) (m : Callback) : (w.behind b).handle h m = (w.handle h m).map (behind b) := by
  unfold handle
  cases ho : w.host h <;> simp [ho, behind]

theorem setHostPc_behind (t : ThreadId) (pc : HostPc) : (w.behind b).setHostPc t pc = (w.setHostPc t pc).behind b := by
  have hloop : ((w.behind b).setHostPc t pc).loop = ((w.setHostPc t pc).behind b).loop := by
    funext t'
    by_cases ht : t' = t
    · subst ht
      simp [setHostPc, behind]
    · simp [setHostPc, behind, Function.update_of_ne ht]
  simpa [setHostPc, behind] using hloop

theorem runHost_behind (t : ThreadId) (pc : HostPc) : (w.behind b).runHost t pc = (w.runHost t pc).map (behind b) := by
  cases pc with
  | idle => rfl
  | resetTask r =>
    simp only [runHost, release_behind]
    cases w.release r.host <;> simp [setHostPc_behind]
  | runReply r =>
    simp only [runHost, handle_behind]
    cases w.handle r.host r.kind.callback <;> simp [setHostPc_behind]
  | deleteRelay r =>
    simp only [runHost, release_behind]
    cases w.release r.host <;> simp [setHostPc_behind]
  | run h m =>
    simp only [runHost, handle_behind]
    cases w.handle h m <;> simp [setHostPc_behind]
  | unbind h =>
    simp only [runHost, release_behind]
    cases w.release h <;> simp [setHostPc_behind]

theorem postRelay_behind (r : Relay) : (w.behind b).postRelay r = (w.postRelay r).map (behind b) := by
  unfold postRelay
  cases ho : w.host r.host <;> simp [ho, behind]

/-- A step of the code is the same step with more tasks waiting. -/
theorem step_behind {e : Event} (he : e.isCode) : step c (w.behind b) e = (step c w e).map (behind b) := by
  cases e with
  | begin | beginDelayed | beginHost | tick => cases he
  | post cs => simp [step, behind]
  | run time script =>
    simp only [step, behind_pc, behind_frames]
    cases hpc : w.pc
    case idle =>
      cases hf : w.frames with
      | nil => rfl
      | cons fr rest => exact runFrame_behind ..
    all_goals exact runPc_behind ..
  | runHost t => exact runHost_behind ..
  | init h | destroy h => exact postRelay_behind _
  | addRef h =>
    by_cases hx : w.external h = 0
    · simp [step, hx]
    · rw [step, step, if_neg hx, if_neg (show ¬ (w.behind b).external h = 0 from hx)]
      exact addRef_behind (w := { w with external := update w.external h (w.external h + 1) }) h
  | dropRef h =>
    by_cases hx : w.external h = 0
    · simp [step, hx]
    · rw [step, step, if_neg hx, if_neg (show ¬ (w.behind b).external h = 0 from hx)]
      exact release_behind (w := { w with external := update w.external h (w.external h - 1) }) h

end World
end OscDataProcess
