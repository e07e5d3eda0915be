import OscDataProcess.LoopQueues

/-!
# No wake-up is lost

Only the thread that finds `incoming_queue_` empty signals the pump, and the event is
auto-reset. A pump on its way to sleep therefore has to know that what was pushed since
it last looked will wake it.
-/
namespace OscDataProcess
namespace MessageLoop

open GuardedRun (Reaches)

variable {α : Type} {l l' : MessageLoop α}

/-- Whoever pushed first onto `incoming_queue_` has signalled the pump or is about to. -/
def Signalled (l : MessageLoop α) : Prop := l.incomingQueue ≠ [] → l.event ∨ 0 < l.signallers

/-- `delayed_work_time_` is when the task on top is due. -/
def Scheduled (l : MessageLoop α) : Prop :=
  ∀ p rest, DelayQueue.pop PendingTask.before l.delayedWorkQueue = some (p, rest) →
    l.delayedWorkTime = p.delayedRunTime

/-- No delayed task was due when the pump last looked at the clock. -/
def Early (l : MessageLoop α) : Prop := ∀ p ∈ l.delayedWorkQueue, l.recentTime < p.delayedRunTime

/-- In a nested loop DoDelayedWork has put off a task that is not nestable; those behind it
may be due. -/
def PutOff (l : MessageLoop α) : Prop :=
  l.runDepth ≠ 1 ∧ ∃ x, l.deferredNonNestableWorkQueue.getLast? = some x ∧ ¬ x.nestable ∧ x.delayed ∧
    ∀ p ∈ l.delayedWorkQueue, x.delayedRunTime ≤ p.delayedRunTime

/-- What holds when the pump has found no work and goes on to sleep. -/
def Rested (l : MessageLoop α) : PumpPc → Prop
  | .doDelayedWork false => l.workQueue = [] ∧ Signalled l
  | .doIdleWork => l.workQueue = [] ∧ Signalled l ∧ Scheduled l ∧ (Early l ∨ PutOff l)
  | .sleep => l.workQueue = [] ∧ Signalled l ∧ Scheduled l ∧
    (l.deferredNonNestableWorkQueue = [] ∨ l.runDepth ≠ 1)
  | .wait _ => l.workQueue = [] ∧ Signalled l ∧ (l.deferredNonNestableWorkQueue = [] ∨ l.runDepth ≠ 1)
  | _ => True

def PumpPc.isTask : PumpPc → Bool
  | .task _ => true
  | _ => false

/-- All activations but the innermost wait for a task, and the innermost sleeps only when it may. -/
structure Awake (l : MessageLoop α) : Prop where
  outer : ∀ a ∈ l.runLoops.tail, PumpPc.isTask a.pc
  rested : l.nestableTasksAllowed → ∀ pc, l.pc = some pc → Rested l pc

theorem one_lt_runDepth {pc : PumpPc} (hpc : l.pc = some pc) (h : l.runDepth ≠ 1) : 1 < l.runDepth := by
  have hpos : l.runDepth ≠ 0 := fun h0 => by
    rw [MessageLoop.pc, List.length_eq_zero_iff.mp h0] at hpc
    cases hpc
  omega

theorem rested_of_isTask {pc : PumpPc} (h : PumpPc.isTask pc) : Rested l pc := by
  cases pc <;> trivial

@[simp] theorem setPc_pc (l : MessageLoop α) (pc : PumpPc) :
    (l.setPc pc).pc = if l.runLoops = [] then none else some pc := by
  cases h : l.runLoops <;> simp [MessageLoop.pc, setPc, h]

@[simp] theorem setPc_tail (l : MessageLoop α) (pc : PumpPc) : (l.setPc pc).runLoops.tail = l.runLoops.tail := by
  cases h : l.runLoops <;> simp [setPc, h]

@[simp] theorem setPc_runDepth (l : MessageLoop α) (pc : PumpPc) : (l.setPc pc).runDepth = l.runDepth := by
  cases h : l.runLoops <;> simp [runDepth, setPc, h]

/-- `Rested` is about what the pump does not touch when it moves on. -/
theorem Rested.setPc {pc : PumpPc} (h : Rested l pc) (pc' : PumpPc) : Rested (l.setPc pc') pc := by
  unfold Rested PutOff at h ⊢
  rw [setPc_runDepth]
  exact h

theorem Awake.setPc {pc : PumpPc} (ho : ∀ a ∈ l.runLoops.tail, PumpPc.isTask a.pc)
    (h : l.nestableTasksAllowed → Rested l pc) : Awake (l.setPc pc) := by
  refine ⟨by rwa [setPc_tail], fun hn pc' hpc' => ?_⟩
  rw [setPc_pc] at hpc'
  split at hpc'
  · cases hpc'
  · obtain rfl := Option.some.inj hpc'
    exact (h hn).setPc pc

theorem Awake.leaveRun (ho : ∀ a ∈ l.runLoops.tail, PumpPc.isTask a.pc) : Awake l.leaveRun := by
  refine ⟨fun a ha => ho a (List.mem_of_mem_tail ha), fun _ pc hpc => ?_⟩
  obtain ⟨a, ha, rfl⟩ := Option.map_eq_some_iff.mp hpc
  exact rested_of_isTask (ho a (List.mem_of_mem_head? ha))

theorem Awake.returned {caller : Caller} {b : Bool} (ho : ∀ a ∈ l.runLoops.tail, PumpPc.isTask a.pc)
    (h : l.nestableTasksAllowed → Rested l (caller.next b)) : Awake (l.returned caller b) := by
  unfold MessageLoop.returned
  split
  · exact .setPc ho h
  · exact .leaveRun ho

theorem Awake.takeNext (ho : ∀ a ∈ l.runLoops.tail, PumpPc.isTask a.pc) : Awake l.takeNext := by
  unfold MessageLoop.takeNext
  split <;> exact .setPc ho fun _ => trivial

theorem Awake.runTask (p : PendingTask α) (caller : Caller) (ho : ∀ a ∈ l.runLoops.tail, PumpPc.isTask a.pc) :
    Awake (l.runTask p caller) := by
  have h : Awake (l.setPc (.task caller)) := .setPc ho fun _ => trivial
  exact ⟨h.outer, fun hn => absurd hn Bool.false_ne_true⟩

theorem isTask_of_free (hf : l.Free) {pc : PumpPc} (hpc : l.pc = some pc) : PumpPc.isTask pc := by
  obtain ⟨a, ha, rfl⟩ := Option.map_eq_some_iff.mp hpc
  obtain hnil | hin := hf
  · rw [hnil] at ha
    cases ha
  · cases hr : l.runLoops with
    | nil => rw [hr] at ha; cases ha
    | cons b rest =>
      obtain rfl : b = a := by simpa [hr] using ha
      cases hp : b.pc <;> simp [inTask, hr, hp] at hin
      rfl

theorem pc_of_map {l' : MessageLoop α} (hpcs : l'.runLoops.map RunLoop.pc = l.runLoops.map RunLoop.pc) : l'.pc = l.pc := by
  rw [MessageLoop.pc, MessageLoop.pc, ← List.head?_map, hpcs, List.head?_map]

/-- Code that runs on the loop's thread leaves every activation where it is. -/
theorem Awake.of_free (h : Awake l) (hf : l.Free) {l' : MessageLoop α}
    (hpcs : l'.runLoops.map RunLoop.pc = l.runLoops.map RunLoop.pc) : Awake l' := by
  have htail : l'.runLoops.tail.map RunLoop.pc = l.runLoops.tail.map RunLoop.pc := by
    rw [List.map_tail, hpcs, List.map_tail]
  have hpc := pc_of_map hpcs
  refine ⟨fun a ha => ?_, fun _ pc hp => ?_⟩
  · obtain ⟨b, hb, heq⟩ := List.mem_map.mp (htail ▸ List.mem_map_of_mem (f := RunLoop.pc) ha)
    exact heq ▸ h.outer b hb
  · exact rested_of_isTask (isTask_of_free hf (hpc ▸ hp))

/-- What other threads do is no obstacle as long as the pump is signalled. -/
theorem Rested.of_signalled {l' : MessageLoop α} {pc : PumpPc} (h : Rested l pc)
    (hs : Signalled l → Signalled l') (hw : l'.workQueue = l.workQueue)
    (hd : l'.delayedWorkQueue = l.delayedWorkQueue)
    (hf : l'.deferredNonNestableWorkQueue = l.deferredNonNestableWorkQueue)
    (ht : l'.delayedWorkTime = l.delayedWorkTime) (hr : l'.runLoops = l.runLoops)
    (hc : l'.recentTime = l.recentTime) : Rested l' pc := by
  unfold Rested Scheduled Early PutOff runDepth at h ⊢
  rw [hw, hd, hf, ht, hr, hc]
  split at h
  · exact h.imp_right hs
  · exact ⟨h.1, hs h.2.1, h.2.2⟩
  · exact ⟨h.1, hs h.2.1, h.2.2⟩
  · exact ⟨h.1, hs h.2.1, h.2.2⟩
  · trivial

theorem map_pc_modify (runLoops : List RunLoop) (i : Nat) {f : RunLoop → RunLoop} (hf : ∀ a, (f a).pc = a.pc) :
    (runLoops.modify i f).map RunLoop.pc = runLoops.map RunLoop.pc := by
  refine List.ext_getElem? fun j => ?_
  rw [List.getElem?_map, List.getElem?_map, List.getElem?_modify]
  cases runLoops[j]? with
  | none => rfl
  | some a => by_cases hij : i = j <;> simp [hij, hf]

variable [BEq α]

theorem Awake.pump (h : Awake l) (ht : Queues.Timely l.queues) (hm : PumpMove l l') : Awake l' := by
  have ho := h.outer
  cases hm with
  | enter | reload | loaded | overdue | signaled | timedOut => exact .setPc ho fun _ => trivial
  | barred hpc hn => exact .returned ho fun hn' => absurd hn' (by simp [hn])
  | noWork hpc hw hi => exact .returned ho fun _ => ⟨hw, fun hne => absurd hi hne⟩
  | delay | deferWork => exact .takeNext ho
  | runWork | runDelayed | runDeferred => exact .runTask _ _ ho
  | @noDelayed b hpc hd =>
    refine .returned ho fun hn => ?_
    cases b with
    | true => trivial
    | false =>
      obtain ⟨hw, hs⟩ := h.rested hn _ hpc
      obtain hn' | hd := hd
      · exact absurd hn (by simp [hn'])
      · exact ⟨hw, hs, by simp [Scheduled, hd], .inl (by simp [Early, hd])⟩
  | @notDue b p rest hpc hn hp hdue =>
    refine .returned ho fun hn => ?_
    cases b with
    | true => trivial
    | false =>
      obtain ⟨hw, hs⟩ := h.rested hn _ hpc
      refine ⟨hw, hs, fun p' rest' hp' => ?_, .inl fun x hx => ?_⟩
      · obtain ⟨rfl, -⟩ := Prod.mk.inj (Option.some.inj (hp.symm.trans hp'))
        rfl
      · exact Nat.lt_of_lt_of_le hdue (PendingTask.le_of_pop hp x hx)
  | @deferDelayed b p rest hpc hn hp hdue hr hd =>
    refine .returned ho fun hn => ?_
    cases b with
    | true => trivial
    | false =>
      obtain ⟨hw, hs⟩ := h.rested hn _ hpc
      have hdelayed : p.delayed := ht.delayed p (DelayQueue.pop_mem hp)
      refine ⟨hw, hs, fun p' rest' hp' => ?_, .inr ⟨hd, p, List.getLast?_concat .., hr, hdelayed, fun x hx => ?_⟩⟩
      · have hp' : DelayQueue.pop PendingTask.before rest = some (p', rest') := hp'
        simp [takeDelayed, hp']
      · exact PendingTask.le_of_pop hp x ((DelayQueue.pop_perm hp).mem_iff.mpr (.tail _ hx))
  | idle ha hpc hd =>
    refine .returned ho fun hn => ?_
    obtain ⟨hw, hs, hsch, -⟩ := h.rested hn _ hpc
    exact ⟨hw, hs, hsch, hd⟩
  | sleep hpc | sleepUntil hpc =>
    refine .setPc ho fun hn => ?_
    obtain ⟨hw, hs, -, hd⟩ := h.rested hn _ hpc
    exact ⟨hw, hs, hd⟩

theorem Awake.step {e : Event α} (h : Awake l) (ht : Queues.Timely l.queues) (he : l.step e = some l') : Awake l' := by
  cases e with
  | post task time delay nestable =>
    simp only [MessageLoop.step, Option.ite_none_right_eq_some, Option.some.injEq] at he
    obtain ⟨-, rfl⟩ := he
    refine ⟨h.outer, fun hn pc hpc => (h.rested hn pc hpc).of_signalled (fun hs _ => ?_) rfl rfl rfl rfl rfl rfl⟩
    by_cases hi : l.incomingQueue = []
    · exact .inr (by simp [postDelayedTask, hi])
    · simpa [postDelayedTask, hi] using hs hi
  | scheduleWork =>
    simp only [MessageLoop.step, Option.ite_none_left_eq_some, Option.some.injEq] at he
    obtain ⟨-, rfl⟩ := he
    exact ⟨h.outer, fun hn pc hpc => (h.rested hn pc hpc).of_signalled (fun _ _ => .inl rfl) rfl rfl rfl rfl rfl rfl⟩
  | tick us =>
    obtain rfl := Option.some.inj he
    exact ⟨h.outer, fun hn pc hpc => (h.rested hn pc hpc).of_signalled id rfl rfl rfl rfl rfl rfl⟩
  | pump => exact h.pump ht (pump_move he)
  | taskDone =>
    obtain ⟨caller, -, rfl⟩ := Option.map_eq_some_iff.mp he
    refine .returned h.outer fun _ => ?_
    cases caller with
    | doWork | doIdleWork => trivial
    | doDelayedWork b => simp [Caller.next, Rested]
  | run quitCalled quitWhenIdle =>
    simp only [MessageLoop.step, Option.ite_none_right_eq_some, Option.some.injEq] at he
    obtain ⟨hf, rfl⟩ := he
    split
    · exact h
    · refine ⟨fun a ha => ?_, fun _ pc hpc => ?_⟩
      · have ha : a ∈ l.runLoops := ha
        cases hr : l.runLoops with
        | nil => rw [hr] at ha; cases ha
        | cons b rest =>
          rw [hr] at ha
          obtain rfl | ha := List.mem_cons.mp ha
          · exact isTask_of_free hf (by rw [MessageLoop.pc, hr]; rfl)
          · exact h.outer a (by rw [hr]; exact ha)
      · obtain rfl := Option.some.inj hpc
        trivial
  | quit i =>
    simp only [MessageLoop.step, Option.ite_none_right_eq_some, Option.some.injEq] at he
    obtain ⟨hf, rfl⟩ := he
    exact h.of_free (.inr hf) (map_pc_modify _ _ fun _ => rfl)
  | quitWhenIdle =>
    simp only [MessageLoop.step, Option.ite_none_right_eq_some, Option.some.injEq] at he
    obtain ⟨hf, rfl⟩ := he
    exact h.of_free (.inr hf) (map_pc_modify _ _ fun _ => rfl)
  | quitNow =>
    simp only [MessageLoop.step, Option.ite_none_right_eq_some, Option.some.injEq] at he
    obtain ⟨hf, rfl⟩ := he
    exact h.of_free (.inr hf) rfl
  | setNestableTasksAllowed allowed =>
    simp only [MessageLoop.step, Option.ite_none_right_eq_some, Option.some.injEq] at he
    obtain ⟨hf, rfl⟩ := he
    exact h.of_free hf rfl

theorem awake_of_reaches {P : MessageLoop α → Event α → Prop} (hr : Reaches step P .initial l) : Awake l := by
  refine hr.invariant_of (K := fun l => Queues.Timely l.queues) (fun l hl => (kept_of_reaches hl).2.timely)
    (fun l e l' ht ha _ he _ => ha.step ht he) ⟨by simp [initial], ?_⟩
  intro _ pc hpc
  cases hpc

end MessageLoop
end OscDataProcess
