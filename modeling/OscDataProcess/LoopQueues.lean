import OscDataProcess.LoopMoves
import OscDataProcess.TaskQueues

/-!
# A message loop keeps the discipline of its queues

Every step of a MessageLoop moves its queues as `Queues.Move` allows, or leaves them alone;
what is known of the queues holds in every state of every run.
-/
namespace OscDataProcess
namespace MessageLoop

open GuardedRun (Reaches)

variable {α : Type} {l l' : MessageLoop α}

def queues (l : MessageLoop α) : Queues α where
  now := l.now
  incoming := l.incomingQueue
  work := l.workQueue
  delayed := l.delayedWorkQueue
  deferred := l.deferredNonNestableWorkQueue
  nextSequenceNum := l.nextSequenceNum
  posted := l.posted
  ran := l.ran

@[simp] theorem setPc_queues (l : MessageLoop α) (pc : PumpPc) : (l.setPc pc).queues = l.queues := rfl
@[simp] theorem leaveRun_queues (l : MessageLoop α) : l.leaveRun.queues = l.queues := rfl
@[simp] theorem returned_queues (l : MessageLoop α) (caller : Caller) (b : Bool) :
    (l.returned caller b).queues = l.queues := by
  unfold returned
  split <;> rfl
@[simp] theorem takeNext_queues (l : MessageLoop α) : l.takeNext.queues = l.queues := by
  unfold takeNext
  split <;> rfl
@[simp] theorem runTask_queues (l : MessageLoop α) (p : PendingTask α) (caller : Caller) :
    (l.runTask p caller).queues = { l.queues with ran := l.ran ++ [⟨p, l.runDepth, l.now⟩] } := rfl
@[simp] theorem setPc_recentTime (l : MessageLoop α) (pc : PumpPc) : (l.setPc pc).recentTime = l.recentTime := rfl
@[simp] theorem returned_recentTime (l : MessageLoop α) (caller : Caller) (b : Bool) :
    (l.returned caller b).recentTime = l.recentTime := by
  unfold returned
  split <;> rfl
@[simp] theorem returned_now (l : MessageLoop α) (caller : Caller) (b : Bool) :
    (l.returned caller b).now = l.now := by
  unfold returned
  split <;> rfl
@[simp] theorem takeNext_recentTime (l : MessageLoop α) : l.takeNext.recentTime = l.recentTime := by
  unfold takeNext
  split <;> rfl

theorem look_recentTime_le (hr : l.recentTime ≤ l.now) (p : PendingTask α) : (l.look p).recentTime ≤ l.now := by
  simp only [look]
  split <;> omega

variable [BEq α]

/-- A step of the pump, seen from the queues. -/
theorem PumpMove.queues (hr : l.recentTime ≤ l.now) (hm : PumpMove l l') :
    l'.queues = l.queues ∨ l.queues.Move l'.queues := by
  cases hm with
  | enter | loaded | sleep | sleepUntil | overdue | signaled | timedOut => exact .inl rfl
  | barred | noWork | noDelayed | notDue | idle => exact .inl (returned_queues ..)
  | reload hpc hw => exact .inr (.reload hw)
  | delay hpc hw hd =>
    rw [takeNext_queues]
    exact .inr (.delay hw (by simpa [PendingTask.delayed] using hd))
  | runWork hpc hw hd hn => exact .inr (.runWork _ hw (by simp [PendingTask.delayed, hd]) hn)
  | deferWork hpc hw hd hn =>
    rw [takeNext_queues]
    exact .inr (.deferWork hw (by simp [PendingTask.delayed, hd]) hn)
  | runDelayed hpc hn hp hdue hd => exact .inr (.runDelayed _ hp (hdue.trans (look_recentTime_le hr _)) hd)
  | deferDelayed hpc hn hp hdue hd =>
    rw [returned_queues]
    exact .inr (.deferDelayed hp (hdue.trans (look_recentTime_le hr _)) hd)
  | runDeferred hpc hp hd => exact .inr (.runDeferred hp hd)

theorem PumpMove.recentTime_le (hr : l.recentTime ≤ l.now) (hm : PumpMove l l') : l'.recentTime ≤ l.now := by
  cases hm with
  | enter | loaded | sleep | sleepUntil | overdue | signaled | timedOut | reload | runWork | runDeferred => exact hr
  | barred | noWork | idle =>
    rw [returned_recentTime]
    exact hr
  | delay | deferWork =>
    rw [takeNext_recentTime]
    exact hr
  | noDelayed =>
    rw [returned_recentTime]
    exact Nat.zero_le _
  | notDue | deferDelayed =>
    rw [returned_recentTime]
    exact look_recentTime_le hr _
  | runDelayed => exact look_recentTime_le hr _

theorem PumpMove.posted (hm : PumpMove l l') : l'.posted = l.posted := by
  cases hm with
  | runWork | runDelayed | runDeferred | enter | loaded | sleep | sleepUntil | overdue | signaled | timedOut | reload =>
    rfl
  | barred | noWork | noDelayed | notDue | deferDelayed | idle => exact congrArg Queues.posted (returned_queues ..)
  | delay | deferWork => exact congrArg Queues.posted (takeNext_queues _)

theorem PumpMove.now (hm : PumpMove l l') : l'.now = l.now := by
  cases hm with
  | runWork | runDelayed | runDeferred | enter | loaded | sleep | sleepUntil | overdue | signaled | timedOut | reload =>
    rfl
  | barred | noWork | noDelayed | notDue | deferDelayed | idle => exact congrArg Queues.now (returned_queues ..)
  | delay | deferWork => exact congrArg Queues.now (takeNext_queues _)

/-- A step of a loop, seen from its queues. -/
theorem step_queues {e : Event α} (hr : l.recentTime ≤ l.now) (he : l.step e = some l') :
    (l'.queues = l.queues ∨ l.queues.Move l'.queues) ∧ l'.recentTime ≤ l'.now := by
  cases e with
  | post task time delay nestable =>
    simp only [step, Option.ite_none_right_eq_some, Option.some.injEq] at he
    obtain ⟨-, rfl⟩ := he
    exact ⟨.inr (.post task (calculateDelayedRuntime time delay) nestable), hr⟩
  | tick us =>
    obtain rfl := Option.some.inj he
    exact ⟨.inr (.tick us), Nat.le_add_right_of_le hr⟩
  | pump =>
    have hm := pump_move he
    have hq := hm.queues hr
    refine ⟨hq, (hm.recentTime_le hr).trans ?_⟩
    obtain h | h := hq
    · exact Nat.le_of_eq (congrArg Queues.now h).symm
    · exact Queues.Move.now_le h
  | taskDone =>
    obtain ⟨caller, -, rfl⟩ := Option.map_eq_some_iff.mp he
    exact ⟨.inl (returned_queues ..), by simpa using hr⟩
  | scheduleWork =>
    simp only [step, Option.ite_none_left_eq_some, Option.some.injEq] at he
    obtain ⟨-, rfl⟩ := he
    exact ⟨.inl rfl, hr⟩
  | run quitCalled quitWhenIdle =>
    simp only [step, Option.ite_none_right_eq_some, Option.some.injEq] at he
    obtain ⟨-, rfl⟩ := he
    split <;> exact ⟨.inl rfl, hr⟩
  | quit | quitNow | quitWhenIdle | setNestableTasksAllowed =>
    simp only [step, Option.ite_none_right_eq_some, Option.some.injEq] at he
    obtain ⟨-, rfl⟩ := he
    exact ⟨.inl rfl, hr⟩

/-- What is known of the queues holds in every state of every run, and `recent_time_` was
read from the clock. -/
theorem kept_of_reaches {P : MessageLoop α → Event α → Prop} (hr : Reaches step P .initial l) :
    l.recentTime ≤ l.now ∧ Queues.Kept l.queues := by
  refine hr.invariant (I := fun l => l.recentTime ≤ l.now ∧ Queues.Kept l.queues)
    (fun l e l' ⟨ht, hk⟩ _ he => ?_) ⟨Nat.le_refl 0, Queues.kept_empty⟩
  obtain ⟨hq | hm, ht'⟩ := step_queues ht he
  · exact ⟨ht', hq ▸ hk⟩
  · exact ⟨ht', hk.move hm⟩

/-- What every step of the queues keeps holds in every state of every run. -/
theorem queues_of_reaches {I : Queues α → Prop} {P : MessageLoop α → Event α → Prop}
    (hI : ∀ l e q', P l e → Queues.Kept l.queues → I l.queues → l.queues.Move q' → I q')
    (hempty : I .empty) (hr : Reaches step P .initial l) : I l.queues := by
  refine hr.invariant_of (I := fun l => I l.queues) (K := fun l => l.recentTime ≤ l.now ∧ Queues.Kept l.queues)
    (fun l hl => kept_of_reaches hl) (fun l e l' ⟨ht, hk⟩ hi hp he _ => ?_) hempty
  obtain hq | hm := (step_queues ht he).1
  · exact hq ▸ hi
  · exact hI l e _ hp hk hi hm

/-- No task is lost or run twice, and those that can be run at once are run in the order of posting. -/
theorem firstInFirstOut_of_reaches {P : MessageLoop α → Event α → Prop} (hr : Reaches step P .initial l) :
    Queues.Accounted l.queues ∧ Queues.InOrder l.queues :=
  ⟨(kept_of_reaches hr).2.accounted,
    queues_of_reaches (fun _ _ _ _ hk hi hm => hi.move hk.timely hm) Queues.inOrder_empty hr⟩

/-- Two tasks are posted and run. -/
theorem firstInFirstOut_of_reaches_two_tasks : ∃ l : MessageLoop Nat, Reaches step (fun _ _ => True) .initial l ∧
    l.ran.map (·.task.task) = [7, 8] ∧ Queues.Accounted l.queues ∧ Queues.InOrder l.queues := by
  obtain ⟨l, hr, hl⟩ := GuardedRun.exists_of_execute step (fun _ _ => True) initial
    [.run false false, .post 7 0 0 true, .pump, .post 8 0 0 true, .pump, .pump, .taskDone, .pump, .pump, .pump, .pump]
    (fun l : MessageLoop Nat => decide (l.ran.map (·.task.task) = [7, 8])) (by decide)
  exact ⟨l, hr, of_decide_eq_true hl, firstInFirstOut_of_reaches hr⟩

/-- No task is run before its time, and none that is not nestable in a nested loop. -/
theorem timely_of_reaches {P : MessageLoop α → Event α → Prop} (hr : Reaches step P .initial l) :
    Queues.Timely l.queues :=
  (kept_of_reaches hr).2.timely

/-- One task waits for its time, and one for the end of the nested loop. -/
theorem timely_of_reaches_nested : ∃ l : MessageLoop Nat, Reaches step (fun _ _ => True) .initial l ∧
    l.ran.map (fun r => (r.task.task, r.depth, r.time)) = [(7, 1, 0), (9, 2, 5), (8, 1, 5)] ∧
      Queues.Timely l.queues := by
  obtain ⟨l, hr, hl⟩ := GuardedRun.exists_of_execute step (fun _ _ => True) initial
    [.run false false, .post 7 0 0 true, .post 8 0 0 false, .post 9 0 5 true, .pump, .pump, .pump,
      .setNestableTasksAllowed true, .run false true, .pump, .pump, .pump, .pump, .tick 5, .pump, .pump, .taskDone,
      .pump, .pump, .pump, .pump, .taskDone, .pump, .pump, .pump, .pump, .pump]
    (fun l : MessageLoop Nat =>
      decide (l.ran.map (fun r => (r.task.task, r.depth, r.time)) = [(7, 1, 0), (9, 2, 5), (8, 1, 5)])) (by decide)
  exact ⟨l, hr, of_decide_eq_true hl, timely_of_reaches hr⟩

/-- Delayed tasks are run in the order of their times, those of one time in the order of
posting: none comes too late behind one that was posted after it, and whenever one leaves
the delayed queue it is the first of all that are there. -/
theorem punctual_of_reaches (hr : Reaches step (fun l (_ : Event α) => Queues.Windowed l.queues) .initial l) :
    Queues.Punctual l.queues ∧
      ∀ e l', Queues.Windowed l.queues → l.step e = some l' → Queues.FirstDue l.queues l'.queues := by
  refine ⟨queues_of_reaches (fun _ _ _ hp hk hi hm => hi.move hk hp hm) Queues.punctual_empty hr, fun e l' hw he => ?_⟩
  obtain ⟨hrec, hk⟩ := kept_of_reaches hr
  obtain hq | hm := (step_queues hrec he).1
  · exact fun x hx hx' => absurd (hq ▸ hx) hx'
  · exact hk.firstDue hw hm

/-- Of three delayed tasks the last posted is due first, and the others at the same time. -/
theorem punctual_of_reaches_three_tasks : ∃ l : MessageLoop Nat,
    Reaches step (fun l (_ : Event Nat) => Queues.Windowed l.queues) .initial l ∧
      l.delayedWorkQueue.map (·.task) = [7, 8, 9] ∧ Queues.Punctual l.queues ∧
      ∃ e l', l.step e = some l' ∧ l'.ran.map (·.task.task) = [9] ∧ Queues.FirstDue l.queues l'.queues := by
  obtain ⟨l, hr, hl⟩ := GuardedRun.exists_of_execute step (fun l (_ : Event Nat) => Queues.Windowed l.queues) initial
    [.run false false, .post 7 0 5 true, .post 8 0 5 true, .post 9 0 3 true, .pump, .pump, .pump, .pump, .pump,
      .pump, .tick 5]
    (fun l : MessageLoop Nat => decide (l.delayedWorkQueue.map (·.task) = [7, 8, 9] ∧ Queues.Windowed l.queues ∧
      (l.step .pump).any fun (l' : MessageLoop Nat) => decide (l'.ran.map (·.task.task) = [9]))) (by decide)
  obtain ⟨hqueue, hw, hl⟩ := of_decide_eq_true hl
  obtain ⟨l', he, hran⟩ := (Option.any_eq_true ..).mp hl
  obtain ⟨hpunctual, hfirst⟩ := punctual_of_reaches hr
  exact ⟨l, hr, hqueue, hpunctual, .pump, l', he, of_decide_eq_true hran, hfirst .pump l' hw he⟩

end MessageLoop
end OscDataProcess
