import OscDataProcess.LoopWakeup

/-!
# The pump's timed wait

A pump that goes to sleep while tasks wait for their time sets `delayed_work_time_` to when
the first of them is due. TimedWait counts in milliseconds of a DWORD, of which the largest
means to wait for ever, so the alarm is good for delays up to some length only.
-/
namespace OscDataProcess
namespace MessageLoop

open GuardedRun (Reaches)

variable {α : Type} {l l' : MessageLoop α} {longest : Nat}

/-- The longest delay that TimedWait can wait for. -/
def maxWait : Nat := (2 ^ 32 - 2) * 1000

theorem timedWait_of_le {now delay : Nat} (h : delay ≤ maxWait) :
    timedWait now delay = some (now + (delay + 999) / 1000 * 1000) := by
  rw [maxWait] at h
  rw [timedWait, Nat.mod_eq_of_lt (by omega), if_neg (by omega)]

/-- No task is posted with a delay longer than `longest`. -/
def Short (longest : Nat) (_ : MessageLoop α) : Event α → Prop
  | .post _ _ delay _ => delay ≤ longest
  | _ => True

instance (longest : Nat) (l : MessageLoop α) : ∀ e, Decidable (Short longest l e)
  | .post .. => inferInstanceAs (Decidable (_ ≤ _))
  | .scheduleWork | .pump | .taskDone | .run _ _ | .quit _ | .quitNow | .quitWhenIdle | .setNestableTasksAllowed _
  | .tick _ => isTrue trivial

/-- No delayed task is further away than the longest delay. -/
structure Near (longest : Nat) (l : MessageLoop α) : Prop where
  posted : ∀ p ∈ l.posted, p.delayedRunTime ≤ l.now + longest
  alarm : l.delayedWorkTime ≤ l.now + longest

theorem near_of_queued (hn : Near longest l) (ha : Queues.Accounted l.queues) {p : PendingTask α}
    (hp : p ∈ l.workQueue ∨ p ∈ l.delayedWorkQueue) : p.delayedRunTime ≤ l.now + longest := by
  obtain hp | hp := hp
  · refine hn.posted p ?_
    rw [show l.posted = l.queues.moved ++ (l.workQueue ++ l.incomingQueue) from ha.split]
    exact List.mem_append_right _ (List.mem_append_left _ hp)
  · exact hn.posted p.unnumbered (List.mem_of_getElem? (ha.of_places (Queues.mem_places_delayed hp)).2)

theorem Near.of_queues (hn : Near longest l) (hq : l'.queues = l.queues) (ht : l'.delayedWorkTime = l.delayedWorkTime) :
    Near longest l' := by
  have hposted : l'.posted = l.posted := congrArg Queues.posted hq
  have hnow : l'.now = l.now := congrArg Queues.now hq
  exact ⟨by rw [hposted, hnow]; exact hn.posted, by rw [ht, hnow]; exact hn.alarm⟩

@[simp] theorem setPc_delayedWorkTime (pc : PumpPc) : (l.setPc pc).delayedWorkTime = l.delayedWorkTime := rfl

@[simp] theorem returned_delayedWorkTime (caller : Caller) (b : Bool) :
    (l.returned caller b).delayedWorkTime = l.delayedWorkTime := by
  unfold returned
  split <;> rfl

@[simp] theorem takeNext_delayedWorkTime : l.takeNext.delayedWorkTime = l.delayedWorkTime := by
  unfold takeNext
  split <;> rfl

/-- A delayed task is taken: the alarm is for the next one, or stays. -/
theorem takeDelayed_delayedWorkTime (p : PendingTask α) (rest : List (PendingTask α)) :
    (l.takeDelayed p rest).delayedWorkTime = l.delayedWorkTime ∨
      ∃ x ∈ rest, (l.takeDelayed p rest).delayedWorkTime = x.delayedRunTime := by
  cases h : DelayQueue.pop PendingTask.before rest with
  | none => exact .inl (by simp [takeDelayed, h])
  | some top => exact .inr ⟨top.1, DelayQueue.pop_mem h, by simp [takeDelayed, h]⟩

theorem addToDelayedWorkQueue_delayedWorkTime [BEq α] (p : PendingTask α) :
    (l.addToDelayedWorkQueue p).delayedWorkTime = l.delayedWorkTime ∨
      (l.addToDelayedWorkQueue p).delayedWorkTime = p.delayedRunTime := by
  simp only [addToDelayedWorkQueue]
  split
  · split
    · exact .inr rfl
    · exact .inl rfl
  · exact .inl rfl

/-! ## Where the pump waits -/

theorem pc_of_setPc {pc pc' : PumpPc} (h : (l.setPc pc).pc = some pc') : pc = pc' := by
  rw [setPc_pc] at h
  split at h
  · cases h
  · exact Option.some.inj h

/-- A method of the delegate returns to a pump that goes on, or to a task. -/
theorem returned_ne_wait (ho : ∀ a ∈ l.runLoops.tail, PumpPc.isTask a.pc) (caller : Caller) (b : Bool)
    (deadline : Option Nat) : (l.returned caller b).pc ≠ some (.wait deadline) := by
  intro h
  unfold returned at h
  split at h
  · have hnext := pc_of_setPc h
    cases caller with
    | doWork => cases hnext
    | doDelayedWork d => cases d <;> cases b <;> cases hnext
    | doIdleWork => cases b <;> cases hnext
  · obtain ⟨a, ha, hpc⟩ := Option.map_eq_some_iff.mp h
    have htask := ho a (List.mem_of_mem_head? ha)
    rw [hpc] at htask
    cases htask

theorem takeNext_ne_wait (deadline : Option Nat) : l.takeNext.pc ≠ some (.wait deadline) := by
  intro h
  unfold takeNext at h
  split at h <;> cases pc_of_setPc h

theorem runTask_ne_wait (p : PendingTask α) (caller : Caller) (deadline : Option Nat) :
    (l.runTask p caller).pc ≠ some (.wait deadline) := by
  intro h
  have h : (l.setPc (.task caller)).pc = some (.wait deadline) := h
  cases pc_of_setPc h

/-- A pump that waits while tasks wait for their time wakes up for the first of them. -/
def Alarmed (l : MessageLoop α) : Prop :=
  ∀ deadline, l.pc = some (.wait deadline) → l.nestableTasksAllowed → ∀ p rest,
    DelayQueue.pop PendingTask.before l.delayedWorkQueue = some (p, rest) →
      ∃ t, deadline = some t ∧ t < p.delayedRunTime + 1000

theorem Alarmed.of_free (hf : l.Free) (hpcs : l'.runLoops.map RunLoop.pc = l.runLoops.map RunLoop.pc) : Alarmed l' := by
  intro deadline hwait
  have ht := isTask_of_free hf ((pc_of_map hpcs).symm.trans hwait)
  cases ht

variable [BEq α]

/-- What the pump may set its alarm to. -/
theorem PumpMove.alarm (hm : PumpMove l l') : l'.delayedWorkTime = l.delayedWorkTime ∨ l'.delayedWorkTime = 0 ∨
    ∃ p, (p ∈ l.workQueue ∨ p ∈ l.delayedWorkQueue) ∧ l'.delayedWorkTime = p.delayedRunTime := by
  have htaken : ∀ {p : PendingTask α} {rest : List (PendingTask α)},
      DelayQueue.pop PendingTask.before l.delayedWorkQueue = some (p, rest) →
      (l.takeDelayed p rest).delayedWorkTime = l.delayedWorkTime ∨ (l.takeDelayed p rest).delayedWorkTime = 0 ∨
        ∃ x, (x ∈ l.workQueue ∨ x ∈ l.delayedWorkQueue) ∧ (l.takeDelayed p rest).delayedWorkTime = x.delayedRunTime := by
    intro p rest hp
    obtain h | ⟨x, hx, h⟩ := takeDelayed_delayedWorkTime (l := l) p rest
    · exact .inl h
    · exact .inr (.inr ⟨x, .inr ((DelayQueue.pop_perm hp).mem_iff.mpr (List.mem_cons_of_mem _ hx)), h⟩)
  cases hm with
  | enter | reload | loaded | sleep | sleepUntil | signaled | timedOut | runWork | runDeferred => exact .inl rfl
  | overdue => exact .inr (.inl rfl)
  | barred | noWork | idle => exact .inl (returned_delayedWorkTime ..)
  | deferWork => exact .inl takeNext_delayedWorkTime
  | noDelayed => exact .inr (.inl (returned_delayedWorkTime ..))
  | notDue _ _ hp => exact .inr (.inr ⟨_, .inr (DelayQueue.pop_mem hp), returned_delayedWorkTime ..⟩)
  | @delay p ps hpc hw =>
    rw [takeNext_delayedWorkTime]
    obtain h | h := addToDelayedWorkQueue_delayedWorkTime (l := { l with workQueue := ps }) p
    · exact .inl h
    · exact .inr (.inr ⟨p, .inl (by simp [hw]), h⟩)
  | runDelayed _ _ hp => exact htaken hp
  | deferDelayed _ _ hp =>
    rw [returned_delayedWorkTime]
    exact htaken hp

theorem Near.pump (hn : Near longest l) (ha : Queues.Accounted l.queues) (hm : PumpMove l l') : Near longest l' := by
  refine ⟨fun p hp => ?_, ?_⟩ <;> rw [hm.now]
  · exact hn.posted p (hm.posted ▸ hp)
  · obtain h | h | ⟨p, hp, h⟩ := hm.alarm
    · exact h ▸ hn.alarm
    · exact h ▸ Nat.zero_le _
    · exact h ▸ near_of_queued hn ha hp

theorem Near.step {e : Event α} (hn : Near longest l) (ha : Queues.Accounted l.queues) (hp : Short longest l e)
    (he : l.step e = some l') : Near longest l' := by
  cases e with
  | pump => exact hn.pump ha (pump_move he)
  | taskDone =>
    obtain ⟨caller, -, rfl⟩ := Option.map_eq_some_iff.mp he
    exact hn.of_queues (returned_queues ..) (returned_delayedWorkTime ..)
  | tick us =>
    obtain rfl := Option.some.inj he
    exact ⟨fun p hp => (hn.posted p hp).trans (by simp only; omega), hn.alarm.trans (by simp only; omega)⟩
  | post task time delay nestable =>
    simp only [MessageLoop.step, Option.ite_none_right_eq_some, Option.some.injEq] at he
    obtain ⟨htime, rfl⟩ := he
    refine ⟨fun p hp' => ?_, hn.alarm⟩
    obtain hp' | rfl := List.mem_append.mp hp' |>.imp_right List.mem_singleton.mp
    · exact hn.posted p hp'
    · have hdelay : delay ≤ longest := hp
      simp only [postDelayedTask, calculateDelayedRuntime]
      split <;> omega
  | scheduleWork =>
    simp only [MessageLoop.step, Option.ite_none_left_eq_some, Option.some.injEq] at he
    obtain ⟨-, rfl⟩ := he
    exact ⟨hn.posted, hn.alarm⟩
  | run quitCalled quitWhenIdle =>
    simp only [MessageLoop.step, Option.ite_none_right_eq_some, Option.some.injEq] at he
    obtain ⟨-, rfl⟩ := he
    split <;> exact ⟨hn.posted, hn.alarm⟩
  | quit | quitNow | quitWhenIdle | setNestableTasksAllowed =>
    simp only [MessageLoop.step, Option.ite_none_right_eq_some, Option.some.injEq] at he
    obtain ⟨-, rfl⟩ := he
    exact ⟨hn.posted, hn.alarm⟩

theorem near_of_reaches (hr : Reaches step (Short longest) .initial l) : Near longest l :=
  hr.invariant_of (K := fun l => Queues.Accounted l.queues) (fun t ht => (kept_of_reaches ht).2.accounted)
    (fun _ _ _ ha hn hp he _ => hn.step ha hp he) ⟨by simp [initial], Nat.zero_le _⟩

/-- Only from its place before the wait does the pump go to sleep. -/
theorem Alarmed.pump (ha : Awake l) (ht : Queues.Timely l.queues) (hn : Near maxWait l) (hm : PumpMove l l') :
    Alarmed l' := by
  intro deadline hwait hnest p rest hp
  cases hm with
  | enter | reload | loaded | overdue | signaled | timedOut => cases pc_of_setPc hwait
  | barred | noWork | noDelayed | notDue | deferDelayed | idle =>
    refine absurd hwait (returned_ne_wait ?_ _ _ _)
    exact ha.outer
  | delay | deferWork => exact absurd hwait (takeNext_ne_wait _)
  | runWork | runDelayed | runDeferred => exact absurd hwait (runTask_ne_wait _ _ _)
  | sleep hpc hzero =>
    obtain ⟨-, -, hscheduled, -⟩ := ha.rested hnest _ hpc
    have hdelayed := ht.delayed p (DelayQueue.pop_mem hp)
    rw [PendingTask.delayed, ← hscheduled p rest hp, hzero] at hdelayed
    cases hdelayed
  | sleepUntil hpc hlt =>
    obtain ⟨-, -, hscheduled, -⟩ := ha.rested hnest _ hpc
    have halarm := hn.alarm
    have hdeadline := pc_of_setPc hwait
    rw [timedWait_of_le (by omega), PumpPc.wait.injEq] at hdeadline
    refine ⟨_, hdeadline.symm, ?_⟩
    rw [← hscheduled p rest hp]
    omega

theorem Alarmed.step {e : Event α} (h : Alarmed l) (ha : Awake l) (ht : Queues.Timely l.queues)
    (hn : Near maxWait l) (he : l.step e = some l') : Alarmed l' := by
  cases e with
  | pump => exact .pump ha ht hn (pump_move he)
  | taskDone =>
    obtain ⟨caller, -, rfl⟩ := Option.map_eq_some_iff.mp he
    exact fun deadline hwait => absurd hwait (returned_ne_wait (l := { l with nestableTasksAllowed := true })
      ha.outer caller true deadline)
  | tick us =>
    obtain rfl := Option.some.inj he
    exact h
  | scheduleWork =>
    simp only [MessageLoop.step, Option.ite_none_left_eq_some, Option.some.injEq] at he
    obtain ⟨-, rfl⟩ := he
    exact h
  | post =>
    simp only [MessageLoop.step, Option.ite_none_right_eq_some, Option.some.injEq] at he
    obtain ⟨-, rfl⟩ := he
    exact h
  | run quitCalled quitWhenIdle =>
    simp only [MessageLoop.step, Option.ite_none_right_eq_some, Option.some.injEq] at he
    obtain ⟨-, rfl⟩ := he
    split
    · exact h
    · intro deadline hwait
      cases hwait
  | quit | quitWhenIdle =>
    simp only [MessageLoop.step, Option.ite_none_right_eq_some, Option.some.injEq] at he
    obtain ⟨hin, rfl⟩ := he
    refine .of_free (.inr hin) ?_
    exact map_pc_modify _ _ fun _ => rfl
  | quitNow =>
    simp only [MessageLoop.step, Option.ite_none_right_eq_some, Option.some.injEq] at he
    obtain ⟨hin, rfl⟩ := he
    exact .of_free (.inr hin) rfl
  | setNestableTasksAllowed =>
    simp only [MessageLoop.step, Option.ite_none_right_eq_some, Option.some.injEq] at he
    obtain ⟨hf, rfl⟩ := he
    exact .of_free hf rfl

theorem alarmed_of_reaches (hr : Reaches step (Short maxWait) .initial l) : Alarmed l := by
  refine hr.invariant_of (K := fun l => Awake l ∧ Queues.Timely l.queues ∧ Near maxWait l)
    (fun t ht => ⟨awake_of_reaches ht, timely_of_reaches ht, near_of_reaches ht⟩)
    (fun _ _ _ ⟨ha, ht, hn⟩ h _ he _ => h.step ha ht hn he) ?_
  intro deadline hwait
  cases hwait

/-- A loop's thread sleeps only when there is nothing to run: if nobody is about to wake
it, every task posted has been run, or is delayed and the wait ends less than a millisecond
after it is due, or has to wait for the end of a nested loop. -/
theorem nothingToRun_of_reaches (hr : Reaches step (Short maxWait) .initial l)
    {deadline : Option Nat} (hpc : l.pc = some (.wait deadline)) (hn : l.nestableTasksAllowed)
    (he : l.event = false) (hs : l.signallers = 0) {p : PendingTask α} (hp : p ∈ l.posted) :
    (∃ r ∈ l.ran, r.task.unnumbered = p) ∨
      (p.delayed ∧ ∃ t, deadline = some t ∧ t < p.delayedRunTime + 1000) ∨ (¬ p.nestable ∧ 1 < l.runDepth) := by
  obtain ⟨hw, hsig, hdf⟩ := (awake_of_reaches hr).rested hn _ hpc
  have hk := (kept_of_reaches hr).2
  have hi : l.incomingQueue = [] := by
    by_contra hne
    obtain h | h := hsig hne
    · rw [he] at h
      cases h
    · exact absurd h (by omega)
  obtain h | ⟨x, hx, rfl⟩ | ⟨x, hx, rfl⟩ | h | h := hk.accounted.found hp
  · exact .inl h
  · cases htop : DelayQueue.pop PendingTask.before l.delayedWorkQueue with
    | none =>
      have hx : x ∈ l.delayedWorkQueue := hx
      rw [DelayQueue.pop_eq_none.mp htop] at hx
      cases hx
    | some top =>
      obtain ⟨t, ht, hlt⟩ := alarmed_of_reaches hr deadline hpc hn top.1 top.2 htop
      have := PendingTask.le_of_pop htop x hx
      exact .inr (.inl ⟨hk.timely.delayed x hx, t, ht, by simp only [PendingTask.unnumbered]; omega⟩)
  · exact .inr (.inr ⟨(hk.timely.deferred x hx).2, one_lt_runDepth hpc (hdf.resolve_left (List.ne_nil_of_mem hx))⟩)
  · exact absurd h (by simp [queues, hw])
  · exact absurd h (by simp [queues, hi])

/-- A loop has run one task and sleeps until the other is due. -/
theorem nothingToRun_of_reaches_delayed : ∃ (l : MessageLoop Nat) (p : PendingTask Nat),
    Reaches step (Short maxWait) .initial l ∧ l.posted = [p, ⟨8, 1, 0, 0, true⟩] ∧
      ((∃ r ∈ l.ran, r.task.unnumbered = p) ∨
        (p.delayed ∧ ∃ t, some 5000 = some t ∧ t < p.delayedRunTime + 1000) ∨ (¬ p.nestable ∧ 1 < l.runDepth)) := by
  obtain ⟨l, hr, hl⟩ := GuardedRun.exists_of_execute step (Short maxWait) initial
    [.run false false, .post 7 0 5000 true, .post 8 0 0 true, .pump, .pump, .pump, .pump, .taskDone, .scheduleWork,
      .pump, .pump, .pump, .pump, .pump, .pump, .pump, .pump, .pump, .pump, .pump, .pump]
    (fun l : MessageLoop Nat => decide (l.pc = some (.wait (some 5000)) ∧ l.nestableTasksAllowed ∧ l.event = false ∧
      l.signallers = 0 ∧ l.posted = [⟨7, 0, 5000, 0, true⟩, ⟨8, 1, 0, 0, true⟩])) (by decide)
  obtain ⟨hpc, hn, he, hs, hp⟩ := of_decide_eq_true hl
  exact ⟨l, _, hr, hp, nothingToRun_of_reaches hr hpc hn he hs (hp ▸ .head _)⟩

end MessageLoop
end OscDataProcess
