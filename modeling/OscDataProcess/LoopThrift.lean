import OscDataProcess.LoopProgress
import OscDataProcess.LoopTimer

/-!
# The pump does not spin

A loop that is not nested takes a bounded number of steps for every task that is posted
and every time the clock moves; in between it sleeps.
-/
namespace OscDataProcess

/-- How many steps the pump takes at most from here until it sleeps, if it finds nothing to do. -/
def PumpPc.cost : PumpPc → Nat
  | .take => 0
  | .wait _ => 0
  | .sleep => 1
  | .doIdleWork => 2
  | .doDelayedWork false => 3
  | .reload => 4
  | .doWork => 5
  | .doDelayedWork true => 6
  | .task .doWork => 7
  | .task _ => 6

/-- What a wait that is over makes up for. -/
def PumpPc.expired (now : Nat) : PumpPc → Nat
  | .wait (some t) => if t ≤ now then 8 else 0
  | _ => 0

theorem PumpPc.expired_le (now : Nat) (pc : PumpPc) : pc.expired now ≤ 8 := by
  unfold PumpPc.expired
  split
  · split <;> omega
  · exact Nat.zero_le 8

namespace MessageLoop

open GuardedRun (Along Reaches)

variable {α : Type} {l l' : MessageLoop α}

/-- The longest delay that does not wrap around in the DWORD of TimedWait. -/
def maxDelay : Nat := (2 ^ 32 - 1) * 1000

def cost (l : MessageLoop α) : Nat := l.pc.elim 0 fun pc => pc.cost + pc.expired l.now

/-- What a `delayed_work_time_` that has come makes up for. -/
def stale (l : MessageLoop α) : Nat := if l.delayedWorkTime ≠ 0 ∧ l.delayedWorkTime ≤ l.now then 8 else 0

/-- What there is still to do makes up for. -/
def reserve (l : MessageLoop α) : Nat :=
  l.stale + 8 * l.event.toNat + 8 * l.signallers + 32 * (l.workQueue.length + l.incomingQueue.length) +
    16 * l.delayedWorkQueue.length

/-- How many more steps the loop may take by itself. -/
def budget (l : MessageLoop α) : Nat := l.cost + l.reserve

/-- What an event adds to that. -/
def Event.grant : Event α → Nat
  | .post .. => 40
  | .tick _ => 16
  | .run _ _ => 5
  | _ => 0

/-- A loop that is not nested, with delays of less than 2^32 milliseconds. -/
def Thrifty (l : MessageLoop α) (e : Event α) : Prop := NeverNested (fun _ _ => True) l e ∧ Short maxDelay l e

instance (l : MessageLoop α) (e : Event α) : Decidable (Thrifty l e) := inferInstanceAs (Decidable (_ ∧ _))

theorem stale_le : l.stale ≤ 8 := by
  unfold stale
  split <;> omega

theorem cost_of_pc {pc : PumpPc} (hpc : l.pc = some pc) : l.cost = pc.cost + pc.expired l.now := by
  rw [cost, hpc]
  rfl

theorem cost_setPc {m : MessageLoop α} {pc : PumpPc} (hpc : l.pc = some pc) (hm : m.runLoops = l.runLoops)
    (pc' : PumpPc) : (m.setPc pc').cost = pc'.cost + pc'.expired m.now := by
  apply cost_of_pc
  rw [setPc_pc, if_neg]
  intro hnil
  rw [MessageLoop.pc, ← hm, hnil] at hpc
  cases hpc

/-- A loop that leaves Run costs nothing. -/
theorem cost_returned {m : MessageLoop α} {pc : PumpPc} (hpc : l.pc = some pc) (ht : l.runLoops.tail = [])
    (hm : m.runLoops = l.runLoops) (caller : Caller) (b : Bool) :
    (m.returned caller b).cost ≤ (caller.next b).cost := by
  have hawake : (caller.next b).expired m.now = 0 := by
    cases caller with
    | doWork => rfl
    | doDelayedWork d => cases d <;> cases b <;> rfl
    | doIdleWork => cases b <;> rfl
  unfold returned
  split
  · rw [cost_setPc hpc hm, hawake, Nat.add_zero]
  · simp [cost, MessageLoop.pc, hm, ht]

@[simp] theorem reserve_setPc (pc : PumpPc) : (l.setPc pc).reserve = l.reserve := rfl

@[simp] theorem reserve_returned (caller : Caller) (b : Bool) : (l.returned caller b).reserve = l.reserve := by
  unfold returned
  split <;> rfl

theorem thrift_setPc {m : MessageLoop α} {pc pc' : PumpPc} (hpc : l.pc = some pc) (hm : m.runLoops = l.runLoops)
    (h : 1 + (pc'.cost + pc'.expired m.now + m.reserve) ≤ pc.cost + pc.expired l.now + l.reserve) :
    1 + budget (m.setPc pc') ≤ budget l := by
  rwa [budget, budget, cost_setPc hpc hm, cost_of_pc hpc]

theorem thrift_returned {m : MessageLoop α} {pc : PumpPc} (hpc : l.pc = some pc) (ht : l.runLoops.tail = [])
    (hm : m.runLoops = l.runLoops) {caller : Caller} {b : Bool}
    (h : 1 + ((caller.next b).cost + m.reserve) ≤ pc.cost + pc.expired l.now + l.reserve) :
    1 + budget (m.returned caller b) ≤ budget l := by
  have := cost_returned hpc ht hm caller b
  rw [budget, budget, reserve_returned, cost_of_pc hpc]
  omega

/-- The sleep ends later than now, if ever. -/
theorem expired_timedWait (hn : Near maxDelay l) (h : l.now < l.delayedWorkTime) :
    (PumpPc.wait (timedWait l.now (l.delayedWorkTime - l.now))).expired l.now = 0 := by
  have halarm := hn.alarm
  rw [maxDelay] at halarm
  rw [timedWait, Nat.mod_eq_of_lt (by omega)]
  split
  · rfl
  · rw [PumpPc.expired, if_neg (by omega)]

/-- A task was taken out of its queue. -/
theorem reserve_takeDelayed {p : PendingTask α} {rest : List (PendingTask α)}
    (hp : DelayQueue.pop PendingTask.before l.delayedWorkQueue = some (p, rest)) :
    8 + (l.takeDelayed p rest).reserve ≤ l.reserve := by
  have hlen : l.delayedWorkQueue.length = rest.length + 1 := (DelayQueue.pop_perm hp).length_eq
  have := stale_le (l := l.takeDelayed p rest)
  simp only [reserve, takeDelayed, look, hlen] at this ⊢
  omega

theorem cost_tick (us : Nat) : cost { l with now := l.now + us } ≤ l.cost + 8 := by
  cases hpc : l.pc with
  | none =>
    have hnone : MessageLoop.pc { l with now := l.now + us } = none := hpc
    simp [cost, hnone]
  | some pc =>
    have hsome : MessageLoop.pc { l with now := l.now + us } = some pc := hpc
    have hle := pc.expired_le (l.now + us)
    rw [cost_of_pc hpc, cost_of_pc hsome, Nat.add_assoc]
    exact Nat.add_le_add_left (hle.trans (Nat.le_add_left ..)) _

theorem cost_of_map (hpcs : l'.runLoops.map RunLoop.pc = l.runLoops.map RunLoop.pc) (hnow : l'.now = l.now) :
    l'.cost = l.cost := by
  rw [cost, cost, pc_of_map hpcs, hnow]

variable [BEq α]

theorem reserve_delay {p : PendingTask α} {ps : List (PendingTask α)} (hw : l.workQueue = p :: ps) :
    8 + (addToDelayedWorkQueue { l with workQueue := ps } p).reserve ≤ l.reserve := by
  have := stale_le (l := addToDelayedWorkQueue { l with workQueue := ps } p)
  simp only [reserve, addToDelayedWorkQueue, hw, List.length_cons, List.length_append, List.length_nil] at this ⊢
  omega

theorem PumpMove.thrift {may : α → Bool → Prop} (hm : PumpMove l l') (hf : Flat may l) (hn : Near maxDelay l) :
    1 + budget l' ≤ budget l := by
  have hnest := hf.nestable hm.inTask
  cases hm with
  | enter hpc | loaded hpc | sleep hpc =>
    refine thrift_setPc hpc rfl ?_
    simp only [PumpPc.cost, PumpPc.expired]
    omega
  | sleepUntil hpc ht =>
    refine thrift_setPc hpc rfl ?_
    simp only [PumpPc.cost, expired_timedWait hn ht]
    simp only [PumpPc.expired]
    omega
  | barred hpc hn => exact absurd hnest (by simp [hn])
  | noWork hpc =>
    refine thrift_returned hpc hf.depth rfl ?_
    simp only [Caller.next, PumpPc.cost, PumpPc.expired]
    omega
  | reload hpc hwork =>
    refine thrift_setPc hpc ?_ ?_
    · rfl
    · simp only [PumpPc.cost, PumpPc.expired, reserve, stale, hwork, List.length_nil]
      omega
  | @delay p ps hpc hwork =>
    have hpaid := reserve_delay hwork
    unfold takeNext
    split <;> refine thrift_setPc hpc ?_ ?_
    · rfl
    · simp only [PumpPc.cost, PumpPc.expired]
      omega
    · rfl
    · simp only [PumpPc.cost, PumpPc.expired]
      omega
  | @runWork p ps hpc hwork =>
    have hpaid : 1 + budget (setPc { l with workQueue := ps } (.task .doWork)) ≤ budget l := by
      refine thrift_setPc hpc ?_ ?_
      · rfl
      · simp only [PumpPc.cost, PumpPc.expired, reserve, stale, hwork, List.length_cons]
        omega
    exact hpaid
  | deferWork hpc _ _ _ hnested => exact absurd (runDepth_eq_one hpc hf.depth) hnested
  | @noDelayed b hpc =>
    refine thrift_returned hpc hf.depth ?_ ?_
    · rfl
    · cases b <;> simp only [Caller.next, PumpPc.cost, PumpPc.expired, reserve, stale] <;> simp <;> omega
  | @notDue b p rest hpc _ _ hdue =>
    have hlater : l.now < p.delayedRunTime := by
      simp only [look] at hdue
      split at hdue
      · exact hdue
      · exact absurd hdue ‹_›
    refine thrift_returned hpc hf.depth ?_ ?_
    · rfl
    · cases b <;> simp only [Caller.next, PumpPc.cost, PumpPc.expired, reserve, stale, look, Nat.not_le.mpr hlater] <;>
        simp <;> omega
  | @runDelayed b p rest hpc _ hp =>
    have hpaid : 1 + budget (setPc (l.takeDelayed p rest) (.task (.doDelayedWork b))) ≤ budget l := by
      have := reserve_takeDelayed hp
      refine thrift_setPc hpc ?_ ?_
      · rfl
      · cases b <;> simp only [PumpPc.cost, PumpPc.expired] <;> omega
    exact hpaid
  | deferDelayed hpc _ _ _ _ hnested => exact absurd (runDepth_eq_one hpc hf.depth) hnested
  | runDeferred hpc hp =>
    rw [hf.deferred] at hp
    cases hp
  | idle ha hpc =>
    refine thrift_returned hpc hf.depth ?_ ?_
    · rfl
    · simp only [Caller.next, PumpPc.cost, PumpPc.expired, reserve, stale]
      simp
      omega
  | overdue hpc ht hne =>
    refine thrift_setPc hpc ?_ ?_
    · rfl
    · simp only [PumpPc.cost, PumpPc.expired, reserve, stale]
      simp [ht, hne]
      omega
  | signaled hpc he =>
    refine thrift_setPc hpc ?_ ?_
    · rfl
    · simp only [PumpPc.cost, PumpPc.expired, reserve, stale]
      simp [he]
      omega
  | timedOut hpc he ht =>
    refine thrift_setPc hpc ?_ ?_
    · rfl
    · simp only [PumpPc.cost, PumpPc.expired, ht, if_true]
      omega

theorem step_thrift {may : α → Bool → Prop} {e : Event α} (hp : Thrifty l e) (he : l.step e = some l')
    (hf : Flat may l) (hn : Near maxDelay l) : (if e.isOwn then 1 else 0) + budget l' ≤ budget l + e.grant := by
  cases e with
  | pump => exact (pump_move he).thrift hf hn
  | taskDone =>
    obtain ⟨caller, hin, rfl⟩ := Option.map_eq_some_iff.mp he
    refine thrift_returned (pc_of_inTask hin) hf.depth ?_ ?_
    · rfl
    · have hreserve : reserve { l with nestableTasksAllowed := true } = l.reserve := rfl
      rw [hreserve]
      cases caller <;> simp [Caller.next, PumpPc.cost, PumpPc.expired] <;> omega
  | setNestableTasksAllowed => exact hp.1.elim
  | tick us =>
    obtain rfl := Option.some.inj he
    have hcost : cost { l with now := l.now + us } ≤ l.cost + 8 := cost_tick us
    have hstale : stale { l with now := l.now + us } ≤ 8 := stale_le
    simp only [Event.isOwn, Event.grant, Bool.false_eq_true, if_false, budget, reserve]
    omega
  | post task time delay nestable =>
    simp only [step, Option.ite_none_right_eq_some, Option.some.injEq] at he
    obtain ⟨-, rfl⟩ := he
    have hcost : cost (l.postDelayedTask task time delay nestable) = l.cost := rfl
    have hstale : stale (l.postDelayedTask task time delay nestable) = l.stale := rfl
    have hsig : (l.postDelayedTask task time delay nestable).signallers ≤ l.signallers + 1 := by
      simp only [postDelayedTask]
      split <;> omega
    simp only [Event.isOwn, Event.grant, Bool.false_eq_true, if_false, budget, reserve, hcost, hstale]
    simp only [postDelayedTask, List.length_append, List.length_singleton] at hsig ⊢
    omega
  | scheduleWork =>
    simp only [step, Option.ite_none_left_eq_some, Option.some.injEq] at he
    obtain ⟨hs, rfl⟩ := he
    have hcost : cost { l with signallers := l.signallers - 1, event := true } = l.cost := rfl
    have hstale : stale { l with signallers := l.signallers - 1, event := true } = l.stale := rfl
    simp only [Event.isOwn, Event.grant, Bool.false_eq_true, if_false, budget, reserve, hcost, hstale, Bool.toNat_true]
    omega
  | run quitCalled quitWhenIdle =>
    simp only [step, Option.ite_none_right_eq_some, Option.some.injEq] at he
    obtain ⟨-, rfl⟩ := he
    have hold : l.cost = 0 := by rw [cost, MessageLoop.pc, show l.runLoops = [] from hp.1]; rfl
    cases quitCalled with
    | true => exact (Nat.zero_add _).le.trans (Nat.le_add_right ..)
    | false =>
      have hcost : cost { l with runLoops := ⟨.doWork, false, quitWhenIdle⟩ :: l.runLoops } = 5 := rfl
      have hrest : reserve { l with runLoops := ⟨.doWork, false, quitWhenIdle⟩ :: l.runLoops } = l.reserve := rfl
      simp only [Event.isOwn, Event.grant, Bool.false_eq_true, if_false, budget, hold, hcost, hrest]
      omega
  | quitNow =>
    simp only [step, Option.ite_none_right_eq_some, Option.some.injEq] at he
    obtain ⟨-, rfl⟩ := he
    exact (Nat.zero_add _).le
  | quit | quitWhenIdle =>
    simp only [step, Option.ite_none_right_eq_some, Option.some.injEq] at he
    obtain ⟨-, rfl⟩ := he
    simp only [Event.isOwn, Event.grant, Bool.false_eq_true, if_false, Nat.zero_add, Nat.add_zero]
    refine Nat.add_le_add (cost_of_map ?_ ?_).le (Nat.le_refl _)
    · exact map_pc_modify _ _ fun _ => rfl
    · rfl

end MessageLoop
end OscDataProcess
