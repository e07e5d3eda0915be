import OscDataProcess.LoopWakeup

/-!
# Leaving a run loop

RunLoop::Quit and MessageLoop::QuitWhenIdle, under nested run loops that share one pump
and its `keep_running_`; and Thread::Stop, which posts a task that quits.
-/
namespace OscDataProcess
namespace MessageLoop

open GuardedRun (Reaches)

variable {α : Type} {l l' : MessageLoop α}

@[simp] theorem leaveRun_runLoops (l : MessageLoop α) : l.leaveRun.runLoops = l.runLoops.tail := rfl

/-- The innermost RunLoop was not told to quit. -/
def Calm (l : MessageLoop α) : Prop := ∀ a, l.runLoops.head? = some a → a.quitCalled = false

/-- A RunLoop that was told to quit is still in a task, and its pump knows. -/
def QuitKept (l : MessageLoop α) : Prop :=
  ∀ a, l.runLoops.head? = some a → a.quitCalled → PumpPc.isTask a.pc ∧ l.keepRunning = false

theorem Calm.quitKept (h : Calm l) : QuitKept l := fun a ha hq => absurd hq (by simp [h a ha])

theorem Calm.setPc (h : Calm l) (pc : PumpPc) : Calm (l.setPc pc) := by
  intro a ha
  cases hr : l.runLoops with
  | nil => simp [MessageLoop.setPc, hr] at ha
  | cons b rest =>
    obtain rfl : { b with pc := pc } = a := by simpa [MessageLoop.setPc, hr] using ha
    exact h b (by simp [hr])

/-- AfterRun passes the quit of the RunLoop below on to the pump. -/
theorem QuitKept.leaveRun (ho : ∀ a ∈ l.runLoops.tail, PumpPc.isTask a.pc) : QuitKept l.leaveRun := by
  intro a ha hq
  have ha : l.runLoops.tail.head? = some a := ha
  refine ⟨ho a (List.mem_of_mem_head? ha), ?_⟩
  cases ht : l.runLoops.tail with
  | nil => rw [ht] at ha; cases ha
  | cons b rest =>
    obtain rfl : b = a := by simpa [ht] using ha
    simp [MessageLoop.leaveRun, ht, hq]

theorem QuitKept.returned (h : l.keepRunning → Calm l) (ho : ∀ a ∈ l.runLoops.tail, PumpPc.isTask a.pc) (caller : Caller)
    (b : Bool) : QuitKept (l.returned caller b) := by
  unfold MessageLoop.returned
  split
  · exact ((h ‹_›).setPc _).quitKept
  · exact .leaveRun ho

theorem Calm.takeNext (h : Calm l) : Calm l.takeNext := by
  unfold MessageLoop.takeNext
  split <;> exact h.setPc _

theorem QuitKept.runTask (h : Calm l) (p : PendingTask α) (caller : Caller) : QuitKept (l.runTask p caller) :=
  Calm.quitKept (h.setPc (.task caller))

theorem QuitKept.calm (h : QuitKept l) {pc : PumpPc} (hpc : l.pc = some pc) (ht : ¬ PumpPc.isTask pc) : Calm l := by
  intro a ha
  by_contra hq
  have hpc' : l.pc = some a.pc := by rw [MessageLoop.pc, ha]; rfl
  obtain rfl := Option.some.inj (hpc.symm.trans hpc')
  exact ht (h a ha (by simpa using hq)).1

theorem keepRunning_of_leaves {caller : Caller} {b : Bool} {d : Nat} (h : (l.returned caller b).runDepth < d)
    (hd : l.runDepth = d) : l.keepRunning = false := by
  unfold returned at h
  split at h
  · rw [setPc_runDepth] at h
    exact absurd hd (Nat.ne_of_lt h)
  · simpa using ‹¬ l.keepRunning = true›

theorem takeNext_runDepth (l : MessageLoop α) : l.takeNext.runDepth = l.runDepth := by
  unfold takeNext
  split <;> exact setPc_runDepth ..

theorem eq_task_of_isTask {pc : PumpPc} (h : PumpPc.isTask pc) : ∃ caller, pc = .task caller := by
  cases pc with
  | task caller => exact ⟨caller, rfl⟩
  | _ => cases h

theorem inTask_of_isTask {pc : PumpPc} (hpc : l.pc = some pc) (ht : PumpPc.isTask pc) :
    ∃ caller, l.inTask = some caller := by
  obtain ⟨a, ha, rfl⟩ := Option.map_eq_some_iff.mp hpc
  obtain ⟨caller, hcaller⟩ := eq_task_of_isTask ht
  refine ⟨caller, ?_⟩
  rw [inTask, List.eq_cons_of_mem_head? ha]
  simp only [hcaller]

section Quit

variable [BEq α]

/-- Only the pump's own places have steps of the pump. -/
theorem PumpMove.not_isTask (hm : PumpMove l l') : ∃ pc, l.pc = some pc ∧ ¬ PumpPc.isTask pc := by
  cases hm <;> exact ⟨_, ‹_ = some _›, by simp [PumpPc.isTask]⟩

theorem QuitKept.pump (h : QuitKept l) (ha : Awake l) (hm : PumpMove l l') : QuitKept l' := by
  obtain ⟨pc, hpc, ht⟩ := hm.not_isTask
  have hcalm := h.calm hpc ht
  have ho := ha.outer
  cases hm with
  | enter | reload | loaded | sleep | sleepUntil | overdue | signaled | timedOut =>
    refine (Calm.setPc ?_ _).quitKept
    exact hcalm
  | barred | noWork | noDelayed | notDue | deferDelayed | idle =>
    refine .returned (fun _ => ?_) ?_ _ _
    · exact hcalm
    · exact ho
  | delay | deferWork =>
    refine (Calm.takeNext ?_).quitKept
    exact hcalm
  | runWork | runDelayed | runDeferred =>
    refine .runTask ?_ _ _
    exact hcalm

theorem QuitKept.step {e : Event α} (h : QuitKept l) (ha : Awake l) (he : l.step e = some l') : QuitKept l' := by
  cases e with
  | pump => exact h.pump ha (pump_move he)
  | tick us =>
    obtain rfl := Option.some.inj he
    exact h
  | scheduleWork =>
    simp only [MessageLoop.step, Option.ite_none_left_eq_some, Option.some.injEq] at he
    obtain ⟨-, rfl⟩ := he
    exact h
  | post | setNestableTasksAllowed =>
    simp only [MessageLoop.step, Option.ite_none_right_eq_some, Option.some.injEq] at he
    obtain ⟨-, rfl⟩ := he
    exact h
  | taskDone =>
    obtain ⟨caller, -, rfl⟩ := Option.map_eq_some_iff.mp he
    refine QuitKept.returned (fun hk a ha' => ?_) ?_ _ _
    · by_contra hq
      exact absurd ((h a ha' (by simpa using hq)).2.symm.trans hk) Bool.false_ne_true
    · exact ha.outer
  | run quitCalled quitWhenIdle =>
    simp only [MessageLoop.step, Option.ite_none_right_eq_some, Option.some.injEq] at he
    obtain ⟨-, rfl⟩ := he
    split
    · exact h
    · intro a ha' hq
      obtain rfl := Option.some.inj ha'
      cases hq
  | quitNow =>
    simp only [MessageLoop.step, Option.ite_none_right_eq_some, Option.some.injEq] at he
    obtain ⟨-, rfl⟩ := he
    exact fun a ha' hq => ⟨(h a ha' hq).1, rfl⟩
  | quit i =>
    simp only [MessageLoop.step, Option.ite_none_right_eq_some, Option.some.injEq] at he
    obtain ⟨hin, rfl⟩ := he
    intro a ha' hq
    cases hr : l.runLoops with
    | nil => simp [hr] at ha'
    | cons b rest =>
      have hb : l.pc = some b.pc := by rw [MessageLoop.pc, hr]; rfl
      cases i with
      | zero =>
        obtain rfl : { b with quitCalled := true } = a := by simpa [hr] using ha'
        exact ⟨isTask_of_free (.inr hin) hb, by simp⟩
      | succ i =>
        obtain rfl : b = a := by simpa [hr] using ha'
        obtain ⟨ht, hk⟩ := h b (by simp [hr]) hq
        exact ⟨ht, by simp [hk]⟩
  | quitWhenIdle =>
    simp only [MessageLoop.step, Option.ite_none_right_eq_some, Option.some.injEq] at he
    obtain ⟨-, rfl⟩ := he
    intro a ha' hq
    cases hr : l.runLoops with
    | nil => simp [hr] at ha'
    | cons b rest =>
      obtain rfl : { b with quitWhenIdleReceived := true } = a := by simpa [hr] using ha'
      exact h b (by simp [hr]) hq

theorem quitKept_of_reaches {P : MessageLoop α → Event α → Prop} (hr : Reaches step P .initial l) : QuitKept l := by
  refine hr.invariant_of (K := Awake) (fun l hl => awake_of_reaches hl) (fun l e l' ha hq _ he _ => hq.step ha he) ?_
  intro a ha
  cases ha

/-- How the innermost RunLoop ends that was told to quit. -/
structure Quits (l : MessageLoop α) : Prop where
  /-- It runs no more tasks. -/
  blocked : l.pump = none
  /-- When the task it is in returns, so does its Run, and nothing else happens. The pump is told
  to go on, unless the RunLoop below was told to quit. -/
  returns : l.step .taskDone = some { l with
    nestableTasksAllowed := true
    keepRunning := l.runLoops.tail.head?.all fun b => !b.quitCalled
    runLoops := l.runLoops.tail
    returns := l.returns + 1 }
  /-- The task that ran it goes on; when that returns, the RunLoop below takes its next task. -/
  below : ∀ b rest, l.runLoops.tail = b :: rest → ∃ caller, b.pc = .task caller ∧
    (b.quitCalled = false → ∀ l', l.step .taskDone = some l' →
      ∃ l'', l'.step .taskDone = some l'' ∧ l''.runLoops = { b with pc := caller.next true } :: rest)

/-- A RunLoop whose Quit was called runs no more tasks, its Run returns as soon as the
task it is in returns, whatever nested RunLoops do with the pump in between, and the
RunLoop below it goes on. -/
theorem quit_of_reaches {P : MessageLoop α → Event α → Prop} (hr : Reaches step P .initial l) {a : RunLoop}
    (ha : l.runLoops.head? = some a) (hq : a.quitCalled) : Quits l := by
  obtain ⟨ht, hk⟩ := quitKept_of_reaches hr a ha hq
  have hpc : l.pc = some a.pc := by rw [MessageLoop.pc, ha]; rfl
  have hreturns : l.step .taskDone = some { l with
      nestableTasksAllowed := true
      keepRunning := l.runLoops.tail.head?.all fun b => !b.quitCalled
      runLoops := l.runLoops.tail
      returns := l.returns + 1 } := by
    obtain ⟨caller, hcaller⟩ := inTask_of_isTask hpc ht
    rw [step, hcaller, Option.map_some, returned, if_neg (by simp [hk]), leaveRun]
    cases l.runLoops.tail <;> rfl
  refine ⟨?_, hreturns, fun b rest htail => ?_⟩
  · cases hp : l.pump with
    | none => rfl
    | some l' =>
      obtain ⟨pc, hpc', hnt⟩ := (pump_move hp).not_isTask
      obtain rfl := Option.some.inj (hpc'.symm.trans hpc)
      exact absurd ht hnt
  · obtain ⟨caller, hcaller⟩ := eq_task_of_isTask ((awake_of_reaches hr).outer b (htail ▸ .head _))
    refine ⟨caller, hcaller, fun hcalm l' he => ?_⟩
    obtain rfl := Option.some.inj (hreturns.symm.trans he)
    have hin : inTask { l with
        nestableTasksAllowed := true
        keepRunning := l.runLoops.tail.head?.all fun b => !b.quitCalled
        runLoops := l.runLoops.tail
        returns := l.returns + 1 } = some caller := by
      simp [inTask, htail, hcaller]
    refine ⟨_, by rw [step, hin, Option.map_some], ?_⟩
    simp [returned, setPc, htail, hcalm]

/-- Quit of a nested RunLoop, called in its task; the outer one goes on. -/
theorem quit_of_reaches_nested : ∃ (l : MessageLoop Nat) (a b : RunLoop), Reaches step (fun _ _ => True) .initial l ∧
    l.runLoops = [a, b] ∧ b.quitCalled = false ∧ Quits l := by
  obtain ⟨l, hr, hl⟩ := GuardedRun.exists_of_execute step (fun _ _ => True) initial
    [.run false false, .post 7 0 0 true, .pump, .pump, .pump, .setNestableTasksAllowed true, .post 8 0 0 true,
      .run false false, .pump, .pump, .pump, .quit 0]
    (fun l : MessageLoop Nat => decide (l.runLoops = [⟨.task .doWork, true, false⟩, ⟨.task .doWork, false, false⟩]))
    (by decide)
  have hl := of_decide_eq_true hl
  exact ⟨l, _, _, hr, hl, rfl, quit_of_reaches hr (by rw [hl]; rfl) rfl⟩

/-- A pump that was not told to stop stops by itself only when it is idle. -/
theorem PumpMove.leaves (hm : PumpMove l l') (hk : l.keepRunning) (hl : l'.runDepth < l.runDepth) :
    l.pc = some .doIdleWork ∧ (l.deferredNonNestableWorkQueue = [] ∨ l.runDepth ≠ 1) ∧ l'.queues = l.queues ∧
      l'.event = l.event ∧ l'.signallers = l.signallers ∧ l'.recentTime = l.recentTime ∧
      ∃ a, l.runLoops.head? = some a ∧ a.quitWhenIdleReceived := by
  cases hm with
  | enter | reload | loaded | sleep | sleepUntil | overdue | signaled | timedOut =>
    exact absurd hl (by rw [setPc_runDepth]; exact Nat.lt_irrefl _)
  | barred | noWork | noDelayed | notDue | deferDelayed =>
    have hf := keepRunning_of_leaves hl rfl
    exact absurd (hk.symm.trans hf) (by simp)
  | delay | deferWork => exact absurd hl (by rw [takeNext_runDepth]; exact Nat.lt_irrefl _)
  | runWork | runDelayed | runDeferred =>
    exact absurd hl (by rw [show runDepth (runTask _ _ _) = _ from setPc_runDepth ..]; exact Nat.lt_irrefl _)
  | @idle a ha hpc hd =>
    have hq := keepRunning_of_leaves hl rfl
    have hq : a.quitWhenIdleReceived := by simpa [hk] using hq
    refine ⟨hpc, hd, returned_queues .., ?_, ?_, returned_recentTime .., a, ha, hq⟩ <;>
    · unfold returned
      split <;> rfl

/-- A nested loop leaves the task to the loops below it: it is not nestable, or it is
delayed and due no earlier than such a task, with which DoDelayedWork came to an end. -/
def LeftBehind (l : MessageLoop α) (p : PendingTask α) : Prop :=
  1 < l.runDepth ∧
    ((¬ p.nestable ∧ ∃ x ∈ l.deferredNonNestableWorkQueue, x.unnumbered = p) ∨
      ((∃ x ∈ l.delayedWorkQueue, x.unnumbered = p) ∧ ∃ x, l.deferredNonNestableWorkQueue.getLast? = some x ∧
        ¬ x.nestable ∧ x.delayed ∧ x.delayedRunTime ≤ p.delayedRunTime))

end Quit

/-! ## Thread::Stop -/

/-- A loop as a Thread uses it: `Thread::Run` runs it once, and nothing quits it but
ThreadQuitHelper (the tasks that `helper` holds of), which StopSoon posts. -/
def OwnedByThread (helper : α → Bool) (l : MessageLoop α) : Event α → Prop
  | .run quitCalled quitWhenIdle => l.runLoops = [] ∧ l.ran = [] ∧ ¬ quitCalled ∧ ¬ quitWhenIdle
  | .quit _ | .quitNow => False
  | .quitWhenIdle => l.ran.getLast?.any fun r => helper r.task.task
  | .setNestableTasksAllowed _ => l.runLoops ≠ []
  | _ => True

instance (helper : α → Bool) (l : MessageLoop α) : ∀ e, Decidable (OwnedByThread helper l e)
  | .run _ _ => inferInstanceAs (Decidable (_ ∧ _ ∧ _ ∧ _))
  | .quit _ | .quitNow => isFalse id
  | .quitWhenIdle => inferInstanceAs (Decidable (_ = true))
  | .setNestableTasksAllowed _ => inferInstanceAs (Decidable (_ ≠ _))
  | .post .. | .scheduleWork | .pump | .taskDone | .tick _ => isTrue trivial

/-- What a Thread's loop keeps: it is not nested, and leaves Run only after the helper has run. -/
structure ThreadKept (helper : α → Bool) (l : MessageLoop α) : Prop where
  depth : l.runLoops.tail = []
  keepRunning : l.keepRunning
  nestable : l.inTask = none → l.nestableTasksAllowed
  quit : ∀ a, l.runLoops.head? = some a → a.quitWhenIdleReceived → ∃ r ∈ l.ran, helper r.task.task
  left : 0 < l.returns → l.runLoops = [] ∧ (∃ r ∈ l.ran, helper r.task.task) ∧ l.workQueue = [] ∧
    l.deferredNonNestableWorkQueue = []
  unused : l.returns = 0 → l.runLoops = [] → l.ran = []

theorem inTask_setPc {pc : PumpPc} (hr : l.runLoops ≠ []) (h : (l.setPc pc).inTask = none) : ¬ PumpPc.isTask pc := by
  cases hl : l.runLoops with
  | nil => exact absurd hl hr
  | cons a rest => cases pc <;> simp [MessageLoop.setPc, inTask, hl, PumpPc.isTask] at h ⊢

/-- The pump goes on, and more tasks may have been run. -/
theorem ThreadKept.setPc {helper : α → Bool} (h : ThreadKept helper l) (hr : l.runLoops ≠ []) {m : MessageLoop α}
    {pc : PumpPc} (hm : m.runLoops = l.runLoops) (hk : m.keepRunning = l.keepRunning) (hret : m.returns = l.returns)
    (hran : ∀ r ∈ l.ran, r ∈ m.ran) (hn : ¬ PumpPc.isTask pc → m.nestableTasksAllowed) :
    ThreadKept helper (m.setPc pc) := by
  cases hl : l.runLoops with
  | nil => exact absurd hl hr
  | cons a rest =>
    rw [hl] at hm
    refine ⟨?_, hk ▸ h.keepRunning, fun hin => ?_, fun b hb hq => ?_, fun hpos => ?_, fun _ hnil => ?_⟩
    · rw [setPc_tail, hm, ← hl, h.depth]
    · exact hn (inTask_setPc (by simp [hm]) hin)
    · obtain rfl : { a with pc := pc } = b := by simpa [MessageLoop.setPc, hm] using hb
      obtain ⟨r, hr, hh⟩ := h.quit a (by simp [hl]) hq
      exact ⟨r, hran r hr, hh⟩
    · exact absurd (h.left (hret ▸ hpos)).1 hr
    · simp [MessageLoop.setPc, hm] at hnil

/-- The pump was not told to stop, so it goes on when a method of the delegate returns. -/
theorem ThreadKept.returned {helper : α → Bool} (h : ThreadKept helper l) (hr : l.runLoops ≠ [])
    {m : MessageLoop α} {caller : Caller} {b : Bool} (hm : m.runLoops = l.runLoops)
    (hk : m.keepRunning = l.keepRunning) (hret : m.returns = l.returns) (hran : ∀ r ∈ l.ran, r ∈ m.ran)
    (hn : m.nestableTasksAllowed) : ThreadKept helper (m.returned caller b) := by
  rw [MessageLoop.returned, if_pos (hk ▸ h.keepRunning)]
  exact h.setPc hr hm hk hret hran fun _ => hn

theorem ThreadKept.takeNext {helper : α → Bool} (h : ThreadKept helper l) (hr : l.runLoops ≠ [])
    {m : MessageLoop α} (hm : m.runLoops = l.runLoops) (hk : m.keepRunning = l.keepRunning)
    (hret : m.returns = l.returns) (hran : ∀ r ∈ l.ran, r ∈ m.ran) (hn : m.nestableTasksAllowed) :
    ThreadKept helper m.takeNext := by
  unfold MessageLoop.takeNext
  split <;> exact h.setPc hr hm hk hret hran fun _ => hn

theorem ThreadKept.runTask {helper : α → Bool} (h : ThreadKept helper l) (hr : l.runLoops ≠ [])
    {m : MessageLoop α} (p : PendingTask α) (caller : Caller) (hm : m.runLoops = l.runLoops)
    (hk : m.keepRunning = l.keepRunning) (hret : m.returns = l.returns) (hran : m.ran = l.ran) :
    ThreadKept helper (m.runTask p caller) :=
  have hm' : ∀ r ∈ l.ran, r ∈ m.ran ++ [⟨p, m.runDepth, m.now⟩] := fun _ h => List.mem_append_left _ (hran ▸ h)
  h.setPc (m := { m with nestableTasksAllowed := false, ran := m.ran ++ [⟨p, m.runDepth, m.now⟩] })
    hr hm hk hret hm' (fun ht => absurd rfl ht)

variable [BEq α]

theorem ThreadKept.pump {helper : α → Bool} (h : ThreadKept helper l) (ha : Awake l) (hm : PumpMove l l') :
    ThreadKept helper l' := by
  obtain ⟨pc, hpc, ht⟩ := hm.not_isTask
  have hr : l.runLoops ≠ [] := fun hnil => by
    rw [MessageLoop.pc, hnil] at hpc
    cases hpc
  have hn : l.nestableTasksAllowed := h.nestable (by
    by_contra hin
    exact ht (isTask_of_free (.inr (Option.isSome_iff_ne_none.mpr hin)) hpc))
  cases hm with
  | enter | reload | loaded | sleep | sleepUntil | overdue | signaled | timedOut =>
    exact h.setPc hr rfl rfl rfl (fun _ => id) fun _ => hn
  | barred | noWork | noDelayed | notDue | deferDelayed => exact h.returned hr rfl rfl rfl (fun _ => id) hn
  | delay | deferWork => exact h.takeNext hr rfl rfl rfl (fun _ => id) hn
  | runWork | runDelayed | runDeferred => exact h.runTask hr _ _ rfl rfl rfl rfl
  | @idle a ha' hpc' hd =>
    by_cases hq : a.quitWhenIdleReceived
    · rw [MessageLoop.returned, if_neg (by simp [hq])]
      refine ⟨?_, ?_, fun _ => hn, fun b hb => ?_, fun _ => ⟨h.depth, h.quit a ha' hq, ?_, ?_⟩,
        fun hzero => absurd hzero (Nat.succ_ne_zero _)⟩
      · simp [h.depth]
      · simp [leaveRun, h.depth]
      · simp [h.depth] at hb
      · exact (ha.rested hn _ hpc').1
      · refine hd.resolve_right fun hne => hne ?_
        rw [runDepth, List.length_eq_one_iff]
        exact ⟨a, List.eq_cons_of_mem_head? ha' |>.trans (by rw [h.depth])⟩
    · exact h.returned hr rfl (by simp [hq]) rfl (fun _ => id) hn

theorem ThreadKept.step {helper : α → Bool} {e : Event α} (h : ThreadKept helper l) (ha : Awake l)
    (hp : OwnedByThread helper l e) (he : l.step e = some l') : ThreadKept helper l' := by
  cases e with
  | pump => exact h.pump ha (pump_move he)
  | tick us =>
    obtain rfl := Option.some.inj he
    exact ⟨h.depth, h.keepRunning, h.nestable, h.quit, h.left, h.unused⟩
  | scheduleWork =>
    simp only [MessageLoop.step, Option.ite_none_left_eq_some, Option.some.injEq] at he
    obtain ⟨-, rfl⟩ := he
    exact ⟨h.depth, h.keepRunning, h.nestable, h.quit, h.left, h.unused⟩
  | post =>
    simp only [MessageLoop.step, Option.ite_none_right_eq_some, Option.some.injEq] at he
    obtain ⟨-, rfl⟩ := he
    exact ⟨h.depth, h.keepRunning, h.nestable, h.quit, h.left, h.unused⟩
  | taskDone =>
    obtain ⟨caller, hin, rfl⟩ := Option.map_eq_some_iff.mp he
    refine h.returned (fun hnil => ?_) rfl rfl rfl (fun _ => id) rfl
    simp [inTask, hnil] at hin
  | run quitCalled quitWhenIdle =>
    simp only [MessageLoop.step, Option.ite_none_right_eq_some, Option.some.injEq] at he
    obtain ⟨-, rfl⟩ := he
    obtain ⟨hnil, hran, hq, hw⟩ := hp
    rw [if_neg hq, hnil]
    refine ⟨rfl, h.keepRunning, fun _ => h.nestable (by rw [inTask, hnil]), fun a ha' hq' => ?_, fun hpos => ?_,
      fun _ hne => ?_⟩
    · obtain rfl := Option.some.inj ha'
      exact absurd hq' hw
    · obtain ⟨-, ⟨r, hmem, -⟩, -⟩ := h.left hpos
      exact absurd hran (List.ne_nil_of_mem hmem)
    · cases hne
  | quit | quitNow => exact hp.elim
  | quitWhenIdle =>
    simp only [MessageLoop.step, Option.ite_none_right_eq_some, Option.some.injEq] at he
    obtain ⟨hin, rfl⟩ := he
    obtain ⟨r, hr, hh⟩ := (Option.any_eq_true ..).mp hp
    cases hl : l.runLoops with
    | nil => simp [inTask, hl] at hin
    | cons a rest =>
      refine ⟨?_, h.keepRunning, fun hin' => ?_, fun _ _ _ => ⟨r, List.mem_of_getLast? hr, hh⟩, fun hpos => ?_,
        fun _ hne => ?_⟩
      · simpa [hl] using h.depth
      · apply h.nestable
        simpa [inTask, hl] using hin'
      · exact absurd (h.left hpos).1 (by simp [hl])
      · simp at hne
  | setNestableTasksAllowed allowed =>
    simp only [MessageLoop.step, Option.ite_none_right_eq_some, Option.some.injEq] at he
    obtain ⟨hf, rfl⟩ := he
    have hin := hf.resolve_left hp
    refine ⟨h.depth, h.keepRunning, fun hin' => ?_, h.quit, h.left, h.unused⟩
    exact absurd hin (by simp [show l.inTask = none from hin'])

theorem threadKept_of_reaches {helper : α → Bool} (hr : Reaches step (OwnedByThread helper) .initial l) :
    ThreadKept helper l :=
  hr.invariant_of (K := Awake) (fun _ hl => awake_of_reaches hl) (fun _ _ _ ha h hp he _ => h.step ha hp he)
    ⟨rfl, rfl, fun _ => rfl, by simp [initial], nofun, fun _ _ => rfl⟩

/-- A Thread's loop has returned from Run when it is outside Run and has run tasks. Then
Thread::Stop has run everything that was posted before its ThreadQuitHelper and could be
run at once; what else is left is delayed, or was posted too late. -/
theorem stop_of_reaches {helper : α → Bool} (hr : Reaches step (OwnedByThread helper) .initial l) :
    (0 < l.returns ↔ l.runLoops = [] ∧ l.ran ≠ []) ∧
      (0 < l.returns → ∃ r ∈ l.ran, helper r.task.task ∧
        (∀ p ∈ l.posted, p.prompt → p.id ≤ r.task.id → ∃ r' ∈ l.ran, r'.task.unnumbered = p) ∧
        ∀ p ∈ l.posted, (∃ r' ∈ l.ran, r'.task.unnumbered = p) ∨ p.delayed ∨ p ∈ l.incomingQueue) := by
  have ht := threadKept_of_reaches hr
  refine ⟨⟨fun hpos => ?_, fun ⟨hruns, hran⟩ => ?_⟩, fun hpos => ?_⟩
  · obtain ⟨hruns, ⟨r, hmem, -⟩, -⟩ := ht.left hpos
    exact ⟨hruns, List.ne_nil_of_mem hmem⟩
  · exact Nat.pos_of_ne_zero fun hzero => hran (ht.unused hzero hruns)
  · obtain ⟨-, ⟨r, hmem, hh⟩, hwork, hdef⟩ := ht.left hpos
    have hk := (kept_of_reaches hr).2
    have hdelayed : ∀ x ∈ l.delayedWorkQueue, x.delayed := hk.timely.delayed
    refine ⟨r, hmem, hh, fun p hp hprompt hid => ?_, fun p hp => ?_⟩
    · have hlt : r.task.id < l.queues.moved.length :=
        (hk.accounted.of_places (List.mem_append_left _ (List.mem_append_left _ (List.mem_map_of_mem hmem)))).1
      obtain ⟨x, hx, rfl⟩ := hk.accounted.mem_places hp (Nat.lt_of_le_of_lt hid hlt)
      simp only [Queues.places, List.mem_append, List.mem_map, queues, hdef, List.not_mem_nil, or_false] at hx
      obtain ⟨r', hr', rfl⟩ | hx := hx
      · exact ⟨r', hr', rfl⟩
      · exact absurd hprompt (by simp [PendingTask.prompt, hdelayed x hx])
    · obtain h | ⟨x, hx, rfl⟩ | ⟨x, hx, -⟩ | h | h := hk.accounted.found hp
      · exact .inl h
      · exact .inr (.inl (hdelayed x hx))
      · exact absurd hx (by simp [queues, hdef])
      · exact absurd h (by simp [queues, hwork])
      · exact .inr (.inr h)

/-- A task and then the helper are posted and run, and Run returns. -/
theorem stop_of_reaches_two_tasks : ∃ l : MessageLoop Nat,
    Reaches step (OwnedByThread (· == 0)) .initial l ∧ (l.returns = 1 ∧ l.ran.map (·.task.task) = [7, 0]) ∧
      ∃ r ∈ l.ran, r.task.task == 0 ∧
        (∀ p ∈ l.posted, p.prompt → p.id ≤ r.task.id → ∃ r' ∈ l.ran, r'.task.unnumbered = p) ∧
        ∀ p ∈ l.posted, (∃ r' ∈ l.ran, r'.task.unnumbered = p) ∨ p.delayed ∨ p ∈ l.incomingQueue := by
  obtain ⟨l, hr, hl⟩ := GuardedRun.exists_of_execute step (OwnedByThread (· == 0)) initial
    [.run false false, .post 7 0 0 true, .post 0 0 0 true, .pump, .pump, .pump, .taskDone, .pump, .pump, .pump, .pump,
      .quitWhenIdle, .taskDone, .pump, .pump, .pump, .pump, .pump]
    (fun l : MessageLoop Nat => decide (l.returns = 1 ∧ l.ran.map (·.task.task) = [7, 0])) (by decide)
  have hl := of_decide_eq_true hl
  exact ⟨l, hr, hl, (stop_of_reaches hr).2 (by rw [hl.1]; decide)⟩

end MessageLoop
end OscDataProcess
