import OscDataProcess.Backlog
import OscDataProcess.Mailbox
import OscDataProcess.References

/-!
# The deployment on message loops

The factory thread and every host thread run a MessageLoop each. What code posts goes
through `PostTask` and `PostDelayedTask`, and a task is begun when the pump of its thread
runs it. Every run is one of the deployment with plain queues.
-/
namespace OscDataProcess

open Function (update)
open GuardedRun (Reaches)

/-- A closure made by Bind, which is equal to no other. -/
structure Closure (τ : Type) where
  serial : Nat
  task : τ
  deriving DecidableEq, Repr

namespace MessageLoop

variable {τ : Type}

/-- Post closures in order, each with its delay. -/
def postAll (l : MessageLoop (Closure τ)) : List (Nat × τ) → MessageLoop (Closure τ)
  | [] => l
  | (delay, task) :: rest => postAll (l.postDelayedTask ⟨l.posted.length, task⟩ l.now delay true) rest

end MessageLoop

/-- `code` keeps no tasks: they are in the message loops. -/
structure Deployment where
  code : World
  factoryLoop : MessageLoop (Closure FactoryTask)
  hostLoop : ThreadId → MessageLoop (Closure HostTask)

namespace Deployment

def initial : Deployment := ⟨.initial, .initial, fun _ => .initial⟩

/-- The code has taken a step to `w`, and what it posted goes to the loops. -/
def deliver (d : Deployment) (w : World) : Deployment where
  code := { w with tasks := [], delayed := [], loop := fun t => { w.loop t with queue := [] } }
  factoryLoop := d.factoryLoop.postAll
    (w.tasks.map (0, ·) ++ w.delayed.map fun x => (x.1 - w.now, .schedule x.2))
  hostLoop t := (d.hostLoop t).postAll ((w.loop t).queue.map (0, ·))

/-- `code` is an event of the code; the loops take steps of their own. -/
inductive Event where
  | code (e : OscDataProcess.Event)
  | factory (e : MessageLoop.Event (Closure FactoryTask))
  | host (t : ThreadId) (e : MessageLoop.Event (Closure HostTask))
  | tick (us : Nat)

/-- A task returns to its loop only when its code has come to an end, and a task that the
loop starts is begun by its code. -/
def step (c : Config) (d : Deployment) : Event → Option Deployment
  | .code e => if e.isCode then (World.step c d.code e).map d.deliver else none
  | .factory e =>
    if MessageLoop.Inner d.factoryLoop e ∧ (e.isTaskDone → d.code.Idle) then
      (d.factoryLoop.step e).map fun l => { d with
        code := match MessageLoop.started d.factoryLoop l with
          | some x => d.code.beginTask x.task
          | none => d.code
        factoryLoop := l }
    else none
  | .host t e =>
    if MessageLoop.Inner (d.hostLoop t) e ∧ (e.isTaskDone → (d.code.loop t).pc = .idle) then
      ((d.hostLoop t).step e).map fun l => { d with
        code := match MessageLoop.started (d.hostLoop t) l with
          | some x => d.code.setHostPc t x.task.start
          | none => d.code
        hostLoop := update d.hostLoop t l }
    else none
  | .tick us => some {
      code := { d.code with now := d.code.now + us }
      factoryLoop := { d.factoryLoop with now := d.factoryLoop.now + us }
      hostLoop := fun t => { d.hostLoop t with now := (d.hostLoop t).now + us } }

end Deployment

/-! ## What a step of the code leaves alone -/

/-- A step of the code takes no time and starts no task; what it delays is due within a second. -/
structure CodeStep (w w' : World) : Prop where
  now : w'.now = w.now
  delayed : ∀ x ∈ w'.delayed, x ∈ w.delayed ∨ (w.now < x.1 ∧ x.1 ≤ w.now + 1000000)
  idle : w.Idle → w'.Idle
  hostIdle : ∀ t, (w.loop t).pc = .idle → (w'.loop t).pc = .idle

variable {c : Config} {w w' : World}

theorem CodeStep.of_busy (hidle : ¬ w.Idle) (hnow : w'.now = w.now) (hdelayed : w'.delayed = w.delayed)
    (hpc : ∀ t, (w'.loop t).pc = (w.loop t).pc) : CodeStep w w' :=
  ⟨hnow, fun _ hx => .inl (hdelayed ▸ hx), fun h => absurd h hidle, fun t h => (hpc t).trans h⟩

theorem CodeStep.of_host (hnow : w'.now = w.now) (hdelayed : w'.delayed = w.delayed) (hpc : w'.pc = w.pc)
    (hframes : w'.frames = w.frames) (hhost : ∀ t, (w.loop t).pc = .idle → (w'.loop t).pc = .idle) : CodeStep w w' :=
  ⟨hnow, fun _ hx => .inl (hdelayed ▸ hx), fun h => ⟨hpc.trans h.1, hframes.trans h.2⟩, hhost⟩

theorem enqueue_loop_pc (h : HostId) (task : HostTask) (t : ThreadId) :
    ((w.enqueue c h task).loop t).pc = (w.loop t).pc := by
  obtain rfl | ht := eq_or_ne t (c.hostThread h)
  · simp [World.enqueue]
  · simp [World.enqueue, Function.update_of_ne ht]

theorem not_idle_of_pc {pc : Pc} (hpc : w.pc = pc) (h : pc ≠ .idle) : ¬ w.Idle := fun hi => h (hpc.symm.trans hi.1)

theorem not_idle_of_frames {fr : Frame} {rest : List Frame} (hf : w.frames = fr :: rest) : ¬ w.Idle := fun hi =>
  List.cons_ne_nil _ _ (hf.symm.trans hi.2)

/-- A thread whose code goes on was not idle. -/
theorem setHostPc_idle {t : ThreadId} {pc pc' : HostPc} (hpc : (w.loop t).pc = pc) (h : pc ≠ .idle) (b : ThreadId)
    (hb : (w.loop b).pc = .idle) : ((w.setHostPc t pc').loop b).pc = .idle := by
  obtain rfl | hne := eq_or_ne b t
  · exact absurd (hpc.symm.trans hb) h
  · simpa [World.setHostPc, Function.update_of_ne hne] using hb

theorem HostMove.codeStep {e : Event} (hm : HostMove c w e w') (he : e.isCode) : CodeStep w w' := by
  cases hm with
  | beginRelay | beginHost => cases he
  | init | destroy | addRef | dropRef => exact .of_host rfl rfl rfl rfl fun _ => id
  | resetTask hpc | runReply hpc | deleteRelay hpc | runCall hpc | unbind hpc =>
    exact .of_host rfl rfl rfl rfl (setHostPc_idle hpc (by simp))
  | relayReply hpc | forward hpc | leavePost hpc | selfReply hpc =>
    exact .of_busy (not_idle_of_pc hpc (by simp)) rfl rfl (enqueue_loop_pc _ _)
  | postInit hpc | relayDestroyNull hpc | relayDestroyStub hpc | hold hpc | leave hpc | leaveDestroy hpc
  | selfDestroyNull hpc | selfDestroyStub hpc | selfDrop hpc =>
    exact .of_busy (not_idle_of_pc hpc (by simp)) rfl rfl fun _ => rfl

theorem FactoryMove.codeStep {e : Event} (hm : FactoryMove w e w') (he : e.isCode) : CodeStep w w' := by
  cases hm with
  | tick | beginCalls | beginSchedule | beginDelayed => cases he
  | post => exact .of_host rfl rfl rfl rfl fun _ => id
  | @scheduleLater f fac rest time script _ hf _ _ hp =>
    refine ⟨rfl, fun x hx => ?_, fun h => absurd h (not_idle_of_frames hf), fun _ => id⟩
    obtain hx | rfl := List.mem_append.mp hx |>.imp_right List.mem_singleton.mp
    · exact .inl hx
    · exact .inr ⟨Nat.lt_add_of_pos_right (Nat.pos_of_ne_zero hp), Nat.add_le_add_left (Nat.div_le_self ..) _⟩
  | _ _ hf => exact .of_busy (not_idle_of_frames hf) rfl rfl fun _ => rfl

theorem codeStep_of_step {e : Event} (hw : w.Owned) (he : e.isCode) (h : World.step c w e = some w') :
    CodeStep w w' := by
  obtain hm | hm := step_cases hw h
  · exact hm.codeStep he
  · exact hm.codeStep he

end OscDataProcess
