import OscDataProcess.LoopQuit

/-!
# A message loop as a mailbox

To code that never nests its loop, a MessageLoop is a list of tasks that are run in order
and a list of tasks that wait for their time, whatever its pump is doing.
-/
namespace OscDataProcess
namespace MessageLoop

open GuardedRun (Reaches)

variable {α : Type} {l l' : MessageLoop α}

/-- Run is not called in a task, nor SetNestableTasksAllowed at all; `may` says which tasks are
posted with a delay and which without. -/
def NeverNested (may : α → Bool → Prop) (l : MessageLoop α) : Event α → Prop
  | .post task _ delay _ => may task (0 < delay)
  | .run _ _ => l.runLoops = []
  | .setNestableTasksAllowed _ => False
  | _ => True

instance (may : α → Bool → Prop) [∀ x b, Decidable (may x b)] (l : MessageLoop α) : ∀ e, Decidable (NeverNested may l e)
  | .post task _ delay _ => inferInstanceAs (Decidable (may task (0 < delay)))
  | .run _ _ => inferInstanceAs (Decidable (_ = _))
  | .setNestableTasksAllowed _ => isFalse id
  | .scheduleWork | .pump | .taskDone | .quit _ | .quitNow | .quitWhenIdle | .tick _ => isTrue trivial

/-- A step that the loop takes by itself, or that the code it runs asks for without nesting it. -/
def Inner (l : MessageLoop α) : Event α → Bool
  | .post .. | .tick _ | .setNestableTasksAllowed _ => false
  | .run _ _ => l.runLoops.isEmpty
  | _ => true

theorem neverNested_of_inner {may : α → Bool → Prop} {e : Event α} (h : Inner l e) : NeverNested may l e := by
  cases e with
  | post | tick | setNestableTasksAllowed => cases h
  | run => exact List.isEmpty_iff.mp h
  | _ => trivial

def Event.isTaskDone : Event α → Bool
  | .taskDone => true
  | _ => false

/-- The tasks that wait for their turn, in order. -/
def promptTasks (l : MessageLoop α) : List α :=
  ((l.workQueue ++ l.incomingQueue).filter fun p => !p.delayed).map PendingTask.task

/-- The tasks that wait for their time. -/
def delayedTasks (l : MessageLoop α) : List (Nat × α) :=
  (l.delayedWorkQueue ++ (l.workQueue ++ l.incomingQueue).filter PendingTask.delayed).map
    fun p => (p.delayedRunTime, p.task)

/-- The task that a step from `l` to `l'` starts. -/
def started (l l' : MessageLoop α) : Option α := l'.ran[l.ran.length]?.map fun r => r.task.task

/-- What a step of a loop is to its mailbox. -/
inductive Serves (l l' : MessageLoop α) : Option α → Prop
  | still (hp : l'.promptTasks = l.promptTasks) (hd : l'.delayedTasks = l.delayedTasks) : Serves l l' none
  | prompt {x : α} (hp : l.promptTasks = x :: l'.promptTasks) (hd : l'.delayedTasks = l.delayedTasks) :
    Serves l l' (some x)
  | due {i t : Nat} {x : α} (hi : l.delayedTasks[i]? = some (t, x)) (ht : t ≤ l.now)
      (hp : l'.promptTasks = l.promptTasks) (hd : l'.delayedTasks = l.delayedTasks.eraseIdx i) :
    Serves l l' (some x)

/-- What is known of such a loop. -/
structure Flat (may : α → Bool → Prop) (l : MessageLoop α) : Prop where
  depth : l.runLoops.tail = []
  nestable : l.inTask = none → l.nestableTasksAllowed
  recent : l.recentTime ≤ l.now
  waiting : ∀ p ∈ l.workQueue ++ l.incomingQueue ++ l.delayedWorkQueue, may p.task p.delayed
  delayed : ∀ p ∈ l.delayedWorkQueue, p.delayed
  deferred : l.deferredNonNestableWorkQueue = []

theorem delayed_calculateDelayedRuntime (task : α) (id time delay : Nat) (n : BitVec 32) (nestable : Bool) :
    PendingTask.delayed ⟨task, id, calculateDelayedRuntime time delay, n, nestable⟩ = decide (0 < delay) := by
  apply decide_eq_decide.mpr
  simp only [calculateDelayedRuntime]
  split <;> omega

/-- In a loop that is not nested every task may be run. -/
theorem runDepth_eq_one {pc : PumpPc} (hpc : l.pc = some pc) (ht : l.runLoops.tail = []) : l.runDepth = 1 := by
  by_contra hne
  have hlt := one_lt_runDepth hpc hne
  have hlen : l.runLoops.tail.length = 0 := by rw [ht]; rfl
  rw [List.length_tail] at hlen
  rw [runDepth] at hlt
  omega

theorem started_of_eq (h : l'.ran = l.ran) : started l l' = none := by
  simp [started, h]

theorem started_of_append {r : Ran α} (h : l'.ran = l.ran ++ [r]) : started l l' = some r.task.task := by
  simp [started, h]

theorem Serves.of_tasks (hr : l'.ran = l.ran) (hp : l'.promptTasks = l.promptTasks)
    (hd : l'.delayedTasks = l.delayedTasks) : Serves l l' (started l l') :=
  started_of_eq hr ▸ .still hp hd

theorem promptTasks_of_queues (h : l'.queues = l.queues) : l'.promptTasks = l.promptTasks := by
  have hw : l'.workQueue = l.workQueue := congrArg Queues.work h
  have hi : l'.incomingQueue = l.incomingQueue := congrArg Queues.incoming h
  simp [promptTasks, hw, hi]

theorem delayedTasks_of_queues (h : l'.queues = l.queues) : l'.delayedTasks = l.delayedTasks := by
  have hw : l'.workQueue = l.workQueue := congrArg Queues.work h
  have hi : l'.incomingQueue = l.incomingQueue := congrArg Queues.incoming h
  have hd : l'.delayedWorkQueue = l.delayedWorkQueue := congrArg Queues.delayed h
  simp [delayedTasks, hw, hi, hd]

theorem Serves.of_queues (h : l'.queues = l.queues) : Serves l l' (started l l') :=
  .of_tasks (congrArg Queues.ran h) (promptTasks_of_queues h) (delayedTasks_of_queues h)

/-- The oldest task of the work queue, if it is not delayed, is the next in the mailbox. -/
theorem promptTasks_cons {p : PendingTask α} {ps : List (PendingTask α)} (hw : l.workQueue = p :: ps)
    (hd : p.delayedRunTime = 0) :
    l.promptTasks = p.task :: ((ps ++ l.incomingQueue).filter fun p => !p.delayed).map PendingTask.task := by
  simp [promptTasks, hw, PendingTask.delayed, hd]

theorem delayedTasks_of_prompt {p : PendingTask α} {ps : List (PendingTask α)} (hw : l.workQueue = p :: ps)
    (hd : p.delayedRunTime = 0) : delayedTasks { l with workQueue := ps } = l.delayedTasks := by
  simp [delayedTasks, hw, PendingTask.delayed, hd]

/-- The delayed task on top leaves its place in the mailbox. -/
theorem delayedTasks_of_pop {p : PendingTask α} {rest : List (PendingTask α)}
    (hp : DelayQueue.pop PendingTask.before l.delayedWorkQueue = some (p, rest)) :
    ∃ i : Nat, l.delayedTasks[i]? = some (p.delayedRunTime, p.task) ∧
      delayedTasks { l with delayedWorkQueue := rest } = l.delayedTasks.eraseIdx i := by
  obtain ⟨l₁, l₂, hq, rfl⟩ := DelayQueue.pop_split hp
  refine ⟨l₁.length, ?_, ?_⟩
  · simp [delayedTasks, hq]
  · simp [delayedTasks, hq, List.eraseIdx_append_of_length_le]

variable [BEq α] {may : α → Bool → Prop}

theorem PumpMove.serves (h : Flat may l) (hm : PumpMove l l') : Serves l l' (started l l') := by
  have hr := h.recent
  cases hm with
  | enter | loaded | sleep | sleepUntil | overdue | signaled | timedOut => exact .of_queues rfl
  | barred | noWork | noDelayed | notDue | idle => exact .of_queues (returned_queues ..)
  | reload hpc hw =>
    exact .of_tasks rfl (by simp [promptTasks, MessageLoop.setPc, hw]) (by simp [delayedTasks, MessageLoop.setPc, hw])
  | @delay p ps hpc hw hd =>
    refine .of_tasks (congrArg Queues.ran (takeNext_queues _)) ?_ ?_
    · rw [promptTasks_of_queues (takeNext_queues _)]
      simp [promptTasks, addToDelayedWorkQueue, hw, PendingTask.delayed, hd]
    · rw [delayedTasks_of_queues (takeNext_queues _)]
      simp [delayedTasks, addToDelayedWorkQueue, hw, PendingTask.delayed, hd]
  | runWork hpc hw hd hn =>
    rw [started_of_append rfl]
    exact .prompt (promptTasks_cons hw hd) (delayedTasks_of_prompt hw hd)
  | deferWork hpc _ _ _ hnested => exact absurd (runDepth_eq_one hpc h.depth) hnested
  | @runDelayed b p rest hpc hn hp hdue =>
    rw [started_of_append rfl]
    obtain ⟨i, hi, he⟩ := delayedTasks_of_pop hp
    exact .due hi (hdue.trans (look_recentTime_le hr p)) rfl he
  | deferDelayed hpc _ _ _ _ hnested => exact absurd (runDepth_eq_one hpc h.depth) hnested
  | runDeferred hpc hp =>
    rw [h.deferred] at hp
    cases hp

/-- Only the pump moves tasks. -/
theorem queues_of_inner {e : Event α} (hin : Inner l e) (he : l.step e = some l') :
    PumpMove l l' ∨ l'.queues = l.queues := by
  cases e with
  | post | tick | setNestableTasksAllowed => cases hin
  | pump => exact .inl (pump_move he)
  | taskDone =>
    obtain ⟨caller, -, rfl⟩ := Option.map_eq_some_iff.mp he
    exact .inr (returned_queues ..)
  | scheduleWork =>
    simp only [step, Option.ite_none_left_eq_some, Option.some.injEq] at he
    obtain ⟨-, rfl⟩ := he
    exact .inr rfl
  | run quitCalled quitWhenIdle =>
    simp only [step, Option.ite_none_right_eq_some, Option.some.injEq] at he
    obtain ⟨-, rfl⟩ := he
    split <;> exact .inr rfl
  | quit | quitNow | quitWhenIdle =>
    simp only [step, Option.ite_none_right_eq_some, Option.some.injEq] at he
    obtain ⟨-, rfl⟩ := he
    exact .inr rfl

theorem step_serves {e : Event α} (h : Flat may l) (hin : Inner l e) (he : l.step e = some l') :
    Serves l l' (started l l') := by
  obtain hm | hq := queues_of_inner hin he
  · exact hm.serves h
  · exact .of_queues hq

omit [BEq α] in
theorem inTask_runTask {pc : PumpPc} (hpc : l.pc = some pc) {m : MessageLoop α} (hm : m.runLoops = l.runLoops)
    (p : PendingTask α) (caller : Caller) : (m.runTask p caller).inTask.isSome := by
  cases hr : l.runLoops with
  | nil =>
    rw [MessageLoop.pc, hr] at hpc
    cases hpc
  | cons a rest => simp [runTask, MessageLoop.setPc, inTask, hm, hr]

theorem PumpMove.inTask (hm : PumpMove l l') : l.inTask = none := by
  obtain ⟨pc, hpc, ht⟩ := hm.not_isTask
  by_contra hin
  exact ht (isTask_of_free (.inr (Option.isSome_iff_ne_none.mpr hin)) hpc)

theorem PumpMove.ran (hm : PumpMove l l') : l'.ran = l.ran ∨ l'.inTask.isSome := by
  cases hm with
  | runWork hpc | runDelayed hpc | runDeferred hpc =>
    refine .inr (inTask_runTask hpc ?_ _ _)
    rfl
  | enter | loaded | sleep | sleepUntil | overdue | signaled | timedOut | reload => exact .inl rfl
  | barred | noWork | noDelayed | notDue | deferDelayed | idle =>
    exact .inl (congrArg Queues.ran (returned_queues ..))
  | delay | deferWork => exact .inl (congrArg Queues.ran (takeNext_queues _))

/-- A loop starts a task only where none is running. -/
theorem inTask_of_started {e : Event α} (hin : Inner l e) (he : l.step e = some l') {x : α}
    (hx : started l l' = some x) : l.inTask = none ∧ l'.inTask.isSome := by
  have hran : l'.ran ≠ l.ran := fun h => by
    rw [started_of_eq h] at hx
    cases hx
  obtain hm | hq := queues_of_inner hin he
  · exact ⟨hm.inTask, hm.ran.resolve_left hran⟩
  · exact absurd (congrArg Queues.ran hq) hran

omit [BEq α] in
theorem inTask_eq_none_iff : l.inTask = none ↔ ∀ pc, l.pc = some pc → ¬ PumpPc.isTask pc := by
  cases hr : l.runLoops with
  | nil => simp [MessageLoop.inTask, MessageLoop.pc, hr]
  | cons a rest => cases hp : a.pc <;> simp [MessageLoop.inTask, MessageLoop.pc, hr, hp, PumpPc.isTask]

omit [BEq α] in
theorem inTask_of_map (hpcs : l'.runLoops.map RunLoop.pc = l.runLoops.map RunLoop.pc) (hn : l'.inTask = none) :
    l.inTask = none := by
  rw [inTask_eq_none_iff] at hn ⊢
  rwa [← pc_of_map hpcs]

/-- A loop that is not in a task was in none before, unless the task has just returned. -/
theorem inTask_of_step {e : Event α} (hp : NeverNested may l e) (he : l.step e = some l') (hd : ¬ e.isTaskDone)
    (hn : l'.inTask = none) : l.inTask = none := by
  cases e with
  | pump => exact (pump_move he).inTask
  | taskDone => exact absurd rfl hd
  | run quitCalled quitWhenIdle => rw [MessageLoop.inTask, show l.runLoops = [] from hp]
  | setNestableTasksAllowed => exact hp.elim
  | tick us =>
    obtain rfl := Option.some.inj he
    exact hn
  | scheduleWork =>
    simp only [step, Option.ite_none_left_eq_some, Option.some.injEq] at he
    obtain ⟨-, rfl⟩ := he
    exact hn
  | post | quitNow =>
    simp only [step, Option.ite_none_right_eq_some, Option.some.injEq] at he
    obtain ⟨-, rfl⟩ := he
    exact hn
  | quit | quitWhenIdle =>
    simp only [step, Option.ite_none_right_eq_some, Option.some.injEq] at he
    obtain ⟨-, rfl⟩ := he
    refine inTask_of_map ?_ hn
    exact map_pc_modify _ _ fun _ => rfl

omit [BEq α] in
theorem returned_tail (h : l.runLoops.tail = []) (caller : Caller) (b : Bool) :
    (l.returned caller b).runLoops.tail = [] := by
  unfold returned
  split <;> simp [h]

theorem PumpMove.tail (hm : PumpMove l l') (h : l.runLoops.tail = []) : l'.runLoops.tail = [] := by
  cases hm with
  | enter | loaded | sleep | sleepUntil | overdue | signaled | timedOut | reload =>
    rw [setPc_tail]
    exact h
  | barred | noWork | noDelayed | notDue | deferDelayed | idle =>
    refine returned_tail ?_ _ _
    exact h
  | delay | deferWork =>
    unfold takeNext
    split <;> (rw [setPc_tail]; exact h)
  | runWork | runDelayed | runDeferred =>
    refine Eq.trans (setPc_tail _ _) ?_
    exact h

theorem tail_of_step {e : Event α} (hp : NeverNested may l e) (he : l.step e = some l') (h : l.runLoops.tail = []) :
    l'.runLoops.tail = [] := by
  cases e with
  | pump => exact (pump_move he).tail h
  | setNestableTasksAllowed => exact hp.elim
  | taskDone =>
    obtain ⟨caller, -, rfl⟩ := Option.map_eq_some_iff.mp he
    refine returned_tail ?_ _ _
    exact h
  | run quitCalled quitWhenIdle =>
    simp only [step, Option.ite_none_right_eq_some, Option.some.injEq] at he
    obtain ⟨-, rfl⟩ := he
    have hp : l.runLoops = [] := hp
    split <;> simp [hp]
  | tick us =>
    obtain rfl := Option.some.inj he
    exact h
  | scheduleWork =>
    simp only [step, Option.ite_none_left_eq_some, Option.some.injEq] at he
    obtain ⟨-, rfl⟩ := he
    exact h
  | post | quitNow =>
    simp only [step, Option.ite_none_right_eq_some, Option.some.injEq] at he
    obtain ⟨-, rfl⟩ := he
    exact h
  | quit | quitWhenIdle =>
    simp only [step, Option.ite_none_right_eq_some, Option.some.injEq] at he
    obtain ⟨-, rfl⟩ := he
    apply List.length_eq_zero_iff.mp
    simpa using congrArg List.length h

theorem now_of_inner {e : Event α} (hin : Inner l e) (he : l.step e = some l') : l'.now = l.now := by
  obtain hm | hq := queues_of_inner hin he
  · exact hm.now
  · exact congrArg Queues.now hq

theorem posted_of_step {e : Event α} (hp : NeverNested may l e) (he : l.step e = some l')
    (h : ∀ p ∈ l.posted, may p.task p.delayed) : ∀ p ∈ l'.posted, may p.task p.delayed := by
  have hinner : Inner l e → ∀ p ∈ l'.posted, may p.task p.delayed := fun hin => by
    obtain hm | hq := queues_of_inner hin he
    · rwa [hm.posted]
    · rwa [show l'.posted = l.posted from congrArg Queues.posted hq]
  cases e with
  | tick us =>
    obtain rfl := Option.some.inj he
    exact h
  | post task time delay nestable =>
    simp only [step, Option.ite_none_right_eq_some, Option.some.injEq] at he
    obtain ⟨-, rfl⟩ := he
    intro p hp'
    obtain hp' | rfl := List.mem_append.mp hp' |>.imp_right List.mem_singleton.mp
    · exact h p hp'
    · rwa [delayed_calculateDelayedRuntime]
  | setNestableTasksAllowed => exact hp.elim
  | run => exact hinner (List.isEmpty_iff.mpr hp)
  | _ => exact hinner rfl

/-- Nothing is put off where nothing is nested. -/
theorem PumpMove.deferred (hm : PumpMove l l') (ht : l.runLoops.tail = [])
    (h : l.deferredNonNestableWorkQueue = []) : l'.deferredNonNestableWorkQueue = [] := by
  cases hm with
  | deferWork hpc _ _ _ hnested | deferDelayed hpc _ _ _ _ hnested => exact absurd (runDepth_eq_one hpc ht) hnested
  | runDeferred hpc hp =>
    rw [h] at hp
    cases hp
  | runWork | runDelayed | enter | loaded | sleep | sleepUntil | overdue | signaled | timedOut | reload => exact h
  | barred | noWork | noDelayed | notDue | idle => exact (congrArg Queues.deferred (returned_queues ..)).trans h
  | delay => exact (congrArg Queues.deferred (takeNext_queues _)).trans h

theorem deferred_of_step {e : Event α} (hp : NeverNested may l e) (he : l.step e = some l')
    (ht : l.runLoops.tail = []) (h : l.deferredNonNestableWorkQueue = []) :
    l'.deferredNonNestableWorkQueue = [] := by
  have hinner : Inner l e → l'.deferredNonNestableWorkQueue = [] := fun hin => by
    obtain hm | hq := queues_of_inner hin he
    · exact hm.deferred ht h
    · exact (congrArg Queues.deferred hq).trans h
  cases e with
  | tick us =>
    obtain rfl := Option.some.inj he
    exact h
  | post =>
    simp only [step, Option.ite_none_right_eq_some, Option.some.injEq] at he
    obtain ⟨-, rfl⟩ := he
    exact h
  | setNestableTasksAllowed => exact hp.elim
  | run => exact hinner (List.isEmpty_iff.mpr hp)
  | _ => exact hinner rfl

omit [BEq α] in
@[simp] theorem returned_nestable (caller : Caller) (b : Bool) :
    (l.returned caller b).nestableTasksAllowed = l.nestableTasksAllowed := by
  unfold returned
  split <;> rfl

omit [BEq α] in
@[simp] theorem takeNext_nestable : l.takeNext.nestableTasksAllowed = l.nestableTasksAllowed := by
  unfold takeNext
  split <;> rfl

theorem PumpMove.nestable (hm : PumpMove l l') (hin : l'.inTask = none) :
    l'.nestableTasksAllowed = l.nestableTasksAllowed := by
  cases hm with
  | runWork hpc | runDelayed hpc | runDeferred hpc =>
    refine absurd hin (Option.isSome_iff_ne_none.mp (inTask_runTask hpc ?_ _ _))
    rfl
  | enter | loaded | sleep | sleepUntil | overdue | signaled | timedOut | reload => rfl
  | barred | noWork | noDelayed | notDue | deferDelayed | idle => exact returned_nestable ..
  | delay | deferWork => exact takeNext_nestable

/-- Nested tasks are disallowed only while a task runs. -/
theorem nestable_of_step {e : Event α} (hp : NeverNested may l e) (he : l.step e = some l')
    (h : l.inTask = none → l.nestableTasksAllowed) (hin : l'.inTask = none) : l'.nestableTasksAllowed := by
  have hold : ¬ e.isTaskDone → l.nestableTasksAllowed := fun hd => h (inTask_of_step hp he hd hin)
  cases e with
  | pump =>
    have hm := pump_move he
    rw [hm.nestable hin]
    exact h hm.inTask
  | taskDone =>
    obtain ⟨caller, -, rfl⟩ := Option.map_eq_some_iff.mp he
    rw [returned_nestable]
  | setNestableTasksAllowed => exact hp.elim
  | run quitCalled quitWhenIdle =>
    simp only [step, Option.ite_none_right_eq_some, Option.some.injEq] at he
    obtain ⟨-, rfl⟩ := he
    split <;> exact hold (by simp [Event.isTaskDone])
  | tick us =>
    obtain rfl := Option.some.inj he
    exact hold (by simp [Event.isTaskDone])
  | scheduleWork =>
    simp only [step, Option.ite_none_left_eq_some, Option.some.injEq] at he
    obtain ⟨-, rfl⟩ := he
    exact hold (by simp [Event.isTaskDone])
  | post | quitNow | quit | quitWhenIdle =>
    simp only [step, Option.ite_none_right_eq_some, Option.some.injEq] at he
    obtain ⟨-, rfl⟩ := he
    exact hold (by simp [Event.isTaskDone])

theorem tail_of_reaches (hr : Reaches step (NeverNested may) .initial l) : l.runLoops.tail = [] :=
  hr.invariant (I := fun l => l.runLoops.tail = []) (fun _ _ _ h hP he => tail_of_step hP he h) rfl

theorem flat_of_reaches (hr : Reaches step (NeverNested may) .initial l) : Flat may l := by
  have hnestable : l.inTask = none → l.nestableTasksAllowed :=
    hr.invariant (I := fun l => l.inTask = none → l.nestableTasksAllowed)
      (fun _ _ _ h hP he => nestable_of_step hP he h) fun _ => rfl
  have hposted : ∀ p ∈ l.posted, may p.task p.delayed :=
    hr.invariant (I := fun l => ∀ p ∈ l.posted, may p.task p.delayed)
      (fun _ _ _ h hP he => posted_of_step hP he h) (by simp [initial])
  have hdeferred : l.deferredNonNestableWorkQueue = [] :=
    hr.invariant_of (K := fun l => l.runLoops.tail = []) (I := fun l => l.deferredNonNestableWorkQueue = [])
      (fun _ ht => tail_of_reaches ht) (fun _ _ _ ht h hP he _ => deferred_of_step hP he ht h) rfl
  obtain ⟨hrec, hk⟩ := kept_of_reaches hr
  refine ⟨tail_of_reaches hr, hnestable, hrec, fun p hp => ?_, hk.timely.delayed, hdeferred⟩
  obtain hp | hp := List.mem_append.mp hp
  · refine hposted p ?_
    rw [show l.posted = l.queues.moved ++ (l.workQueue ++ l.incomingQueue) from hk.accounted.split]
    exact List.mem_append_right _ hp
  · exact hposted p.unnumbered
      (List.mem_of_getElem? (hk.accounted.of_places (Queues.mem_places_delayed hp)).2)

def PumpPc.isWait : PumpPc → Bool
  | .wait _ => true
  | _ => false

/-- The pump sleeps and nobody is about to wake it, or the loop was never used. -/
def AtRest (l : MessageLoop α) : Prop :=
  (l.pc.any PumpPc.isWait ∧ l.event = false ∧ l.signallers = 0) ∨ (l.runLoops = [] ∧ l.posted = [])

instance [DecidableEq α] (l : MessageLoop α) : Decidable l.AtRest := inferInstanceAs (Decidable (_ ∨ _))

/-- At rest no task runs and none waits for its turn. -/
theorem sleeps_of_atRest (hr : Reaches step (NeverNested may) .initial l) (h : AtRest l) :
    l.inTask = none ∧ l.workQueue = [] ∧ l.incomingQueue = [] ∧
      (l.posted = [] ∨ ∃ deadline, l.pc = some (.wait deadline)) := by
  obtain ⟨hwait, hev, hsig⟩ | ⟨hruns, hposted⟩ := h
  · obtain ⟨pc, hpc, hpw⟩ := (Option.any_eq_true ..).mp hwait
    obtain ⟨deadline, rfl⟩ : ∃ deadline, pc = .wait deadline := by
      cases pc with
      | wait deadline => exact ⟨deadline, rfl⟩
      | _ => cases hpw
    have hin : l.inTask = none := by
      rw [inTask_eq_none_iff]
      rintro pc hpc'
      obtain rfl := Option.some.inj (hpc.symm.trans hpc')
      exact Bool.false_ne_true
    obtain ⟨hw, hs, -⟩ := (awake_of_reaches hr).rested ((flat_of_reaches hr).nestable hin) _ hpc
    have hi : l.incomingQueue = [] := by
      by_contra hne
      obtain he | hlt := hs hne
      · exact absurd he (by simp [hev])
      · omega
    exact ⟨hin, hw, hi, .inr ⟨deadline, hpc⟩⟩
  · have hsplit := (kept_of_reaches hr).2.accounted.split
    rw [show l.queues.posted = [] from hposted] at hsplit
    have hnil : l.workQueue ++ l.incomingQueue = [] := (List.append_eq_nil_iff.mp hsplit.symm).2
    obtain ⟨hw, hi⟩ := List.append_eq_nil_iff.mp hnil
    exact ⟨by simp [MessageLoop.inTask, hruns], hw, hi, .inl hposted⟩

theorem promptTasks_of_atRest (hr : Reaches step (NeverNested may) .initial l) (h : AtRest l) :
    l.promptTasks = [] ∧ l.inTask = none := by
  obtain ⟨hin, hw, hi, -⟩ := sleeps_of_atRest hr h
  exact ⟨by simp [promptTasks, hw, hi], hin⟩

end MessageLoop
end OscDataProcess
