import OscDataProcess.MessageLoop

/-!
# What a step of the pump does

Every step of the pump with its guard and the whole state it leads to.
-/
namespace OscDataProcess
namespace MessageLoop

variable {α : Type} {l l' : MessageLoop α}

/-- Where the innermost activation of the pump is. -/
def pc (l : MessageLoop α) : Option PumpPc := l.runLoops.head?.map RunLoop.pc

theorem deferOrRunPendingTask_run {p : PendingTask α} (h : p.nestable ∨ l.runDepth = 1) (caller : Caller)
    (deferred : MessageLoop α → MessageLoop α) :
    l.deferOrRunPendingTask p caller deferred = l.runTask p caller :=
  if_pos (by simpa using h)

theorem deferOrRunPendingTask_defer {p : PendingTask α} (h : ¬ (p.nestable ∨ l.runDepth = 1)) (caller : Caller)
    (deferred : MessageLoop α → MessageLoop α) : l.deferOrRunPendingTask p caller deferred =
      deferred { l with deferredNonNestableWorkQueue := l.deferredNonNestableWorkQueue ++ [p] } :=
  if_neg (by simpa using h)

variable [BEq α]

inductive PumpMove (l : MessageLoop α) : MessageLoop α → Prop
  | enter (hpc : l.pc = some .doWork) (hn : l.nestableTasksAllowed) : PumpMove l (l.setPc .reload)
  | barred (hpc : l.pc = some .doWork) (hn : l.nestableTasksAllowed = false) : PumpMove l (l.returned .doWork false)
  | noWork (hpc : l.pc = some .reload) (hw : l.workQueue = []) (hi : l.incomingQueue = []) :
    PumpMove l (l.returned .doWork false)
  | reload (hpc : l.pc = some .reload) (hw : l.workQueue = []) (hi : l.incomingQueue ≠ []) :
    PumpMove l ({ l with workQueue := l.incomingQueue, incomingQueue := [] }.setPc .take)
  | loaded (hpc : l.pc = some .reload) (hw : l.workQueue ≠ []) : PumpMove l (l.setPc .take)
  | delay {p : PendingTask α} {ps : List (PendingTask α)} (hpc : l.pc = some .take) (hw : l.workQueue = p :: ps)
      (hd : p.delayedRunTime ≠ 0) : PumpMove l ({ l with workQueue := ps }.addToDelayedWorkQueue p).takeNext
  | runWork {p : PendingTask α} {ps : List (PendingTask α)} (hpc : l.pc = some .take) (hw : l.workQueue = p :: ps)
      (hd : p.delayedRunTime = 0) (hn : p.nestable ∨ l.runDepth = 1) :
    PumpMove l ({ l with workQueue := ps }.runTask p .doWork)
  | deferWork {p : PendingTask α} {ps : List (PendingTask α)} (hpc : l.pc = some .take) (hw : l.workQueue = p :: ps)
      (hd : p.delayedRunTime = 0) (hn : ¬ p.nestable) (hr : l.runDepth ≠ 1) :
    PumpMove l { l with
      workQueue := ps
      deferredNonNestableWorkQueue := l.deferredNonNestableWorkQueue ++ [p] }.takeNext
  | noDelayed {b : Bool} (hpc : l.pc = some (.doDelayedWork b))
      (hn : l.nestableTasksAllowed = false ∨ l.delayedWorkQueue = []) :
    PumpMove l ({ l with recentTime := 0, delayedWorkTime := 0 }.returned (.doDelayedWork b) false)
  | notDue {b : Bool} {p : PendingTask α} {rest : List (PendingTask α)} (hpc : l.pc = some (.doDelayedWork b))
      (hn : l.nestableTasksAllowed) (hp : DelayQueue.pop PendingTask.before l.delayedWorkQueue = some (p, rest))
      (hdue : (l.look p).recentTime < p.delayedRunTime) :
    PumpMove l ({ l.look p with delayedWorkTime := p.delayedRunTime }.returned (.doDelayedWork b) false)
  | runDelayed {b : Bool} {p : PendingTask α} {rest : List (PendingTask α)} (hpc : l.pc = some (.doDelayedWork b))
      (hn : l.nestableTasksAllowed) (hp : DelayQueue.pop PendingTask.before l.delayedWorkQueue = some (p, rest))
      (hdue : p.delayedRunTime ≤ (l.look p).recentTime) (hr : p.nestable ∨ l.runDepth = 1) :
    PumpMove l ((l.takeDelayed p rest).runTask p (.doDelayedWork b))
  | deferDelayed {b : Bool} {p : PendingTask α} {rest : List (PendingTask α)} (hpc : l.pc = some (.doDelayedWork b))
      (hn : l.nestableTasksAllowed) (hp : DelayQueue.pop PendingTask.before l.delayedWorkQueue = some (p, rest))
      (hdue : p.delayedRunTime ≤ (l.look p).recentTime) (hr : ¬ p.nestable) (hd : l.runDepth ≠ 1) :
    PumpMove l ({ l.takeDelayed p rest with
      deferredNonNestableWorkQueue := l.deferredNonNestableWorkQueue ++ [p] }.returned (.doDelayedWork b) false)
  | runDeferred {p : PendingTask α} {ps : List (PendingTask α)} (hpc : l.pc = some .doIdleWork)
      (hp : l.deferredNonNestableWorkQueue = p :: ps) (hr : l.runDepth = 1) :
    PumpMove l ({ l with deferredNonNestableWorkQueue := ps }.runTask p .doIdleWork)
  | idle {a : RunLoop} (ha : l.runLoops.head? = some a) (hpc : l.pc = some .doIdleWork)
      (hp : l.deferredNonNestableWorkQueue = [] ∨ l.runDepth ≠ 1) :
    PumpMove l ({ l with keepRunning := l.keepRunning && !a.quitWhenIdleReceived }.returned .doIdleWork false)
  | sleep (hpc : l.pc = some .sleep) (ht : l.delayedWorkTime = 0) : PumpMove l (l.setPc (.wait none))
  | sleepUntil (hpc : l.pc = some .sleep) (ht : l.now < l.delayedWorkTime) :
    PumpMove l (l.setPc (.wait (timedWait l.now (l.delayedWorkTime - l.now))))
  | overdue (hpc : l.pc = some .sleep) (ht : l.delayedWorkTime ≤ l.now) (hne : l.delayedWorkTime ≠ 0) :
    PumpMove l ({ l with delayedWorkTime := 0 }.setPc .doWork)
  | signaled {deadline : Option Nat} (hpc : l.pc = some (.wait deadline)) (he : l.event) :
    PumpMove l ({ l with event := false }.setPc .doWork)
  | timedOut {t : Nat} (hpc : l.pc = some (.wait (some t))) (he : l.event = false) (ht : t ≤ l.now) :
    PumpMove l (l.setPc .doWork)

theorem takeTask_move {p : PendingTask α} {ps : List (PendingTask α)} (hpc : l.pc = some .take)
    (hw : l.workQueue = p :: ps) : PumpMove l (takeTask { l with workQueue := ps } p) := by
  unfold takeTask
  split
  · exact .delay hpc hw ‹_›
  · rename_i hd
    have hd : p.delayedRunTime = 0 := by simpa using hd
    by_cases hn : p.nestable ∨ l.runDepth = 1
    · rw [deferOrRunPendingTask_run (l := { l with workQueue := ps }) hn]
      exact .runWork hpc hw hd hn
    · rw [deferOrRunPendingTask_defer (l := { l with workQueue := ps }) hn]
      exact .deferWork hpc hw hd (fun h => hn (.inl h)) (fun h => hn (.inr h))

theorem doDelayedWork_move {b : Bool} (hpc : l.pc = some (.doDelayedWork b)) : PumpMove l (l.doDelayedWork b) := by
  unfold doDelayedWork
  split
  · exact .noDelayed hpc (.inl (by simpa using ‹(!l.nestableTasksAllowed) = true›))
  · rename_i hn
    have hn : l.nestableTasksAllowed := by simpa using hn
    split
    · exact .noDelayed hpc (.inr (DelayQueue.pop_eq_none.mp ‹_›))
    · rename_i p rest hp
      split
      · exact .notDue hpc hn hp ‹_›
      · rename_i hdue
        have hdue : p.delayedRunTime ≤ (l.look p).recentTime := Nat.le_of_not_lt hdue
        by_cases hr : p.nestable ∨ l.runDepth = 1
        · rw [deferOrRunPendingTask_run (l := l.takeDelayed p rest) hr]
          exact .runDelayed hpc hn hp hdue hr
        · rw [deferOrRunPendingTask_defer (l := l.takeDelayed p rest) hr]
          exact .deferDelayed hpc hn hp hdue (fun h => hr (.inl h)) (fun h => hr (.inr h))

theorem doIdleWork_move {a : RunLoop} (ha : l.runLoops.head? = some a) (hpc : l.pc = some .doIdleWork) :
    PumpMove l (l.doIdleWork a) := by
  unfold doIdleWork
  split
  · rename_i p ps hp
    split
    · exact .runDeferred hpc hp ‹_›
    · exact .idle ha hpc (.inr ‹_›)
  · exact .idle ha hpc (.inl ‹_›)

theorem pump_move (he : l.pump = some l') : PumpMove l l' := by
  unfold pump at he
  split at he
  · cases he
  · rename_i a rest hruns
    have ha : l.runLoops.head? = some a := by rw [hruns]; rfl
    have hpc : l.pc = some a.pc := by rw [pc, ha]; rfl
    cases hapc : a.pc <;> simp only [hapc, reduceCtorEq, Option.some.injEq] at he hpc
    case doWork =>
      rw [← he]
      split
      · exact .enter hpc ‹_›
      · exact .barred hpc (by simpa using ‹¬ l.nestableTasksAllowed = true›)
    case reload =>
      rw [← he]
      unfold reloadWorkQueue
      by_cases hw : l.workQueue = []
      · rw [if_neg (not_not.mpr hw)]
        by_cases hi : l.incomingQueue = []
        · rw [if_pos hi, if_pos hw]
          exact .noWork hpc hw hi
        · rw [if_neg hi, if_neg hi]
          exact .reload hpc hw hi
      · rw [if_pos hw, if_neg hw]
        exact .loaded hpc hw
    case take =>
      split at he
      · cases he
      · obtain rfl := Option.some.inj he
        exact takeTask_move hpc ‹_›
    case doDelayedWork b => exact he ▸ doDelayedWork_move hpc
    case doIdleWork => exact he ▸ doIdleWork_move ha hpc
    case sleep =>
      split at he
      · exact Option.some.inj he ▸ .sleep hpc ‹_›
      · split at he
        · exact Option.some.inj he ▸ .sleepUntil hpc ‹_›
        · exact Option.some.inj he ▸ .overdue hpc (by omega) ‹_›
    case wait deadline =>
      split at he
      · exact Option.some.inj he ▸ .signaled hpc ‹_›
      · rename_i hev
        split at he
        · cases he
        · split at he
          · exact Option.some.inj he ▸ .timedOut hpc (by simpa using hev) ‹_›
          · cases he

end MessageLoop
end OscDataProcess
