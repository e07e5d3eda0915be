import OscDataProcess.Mailbox

/-!
# No task waits for ever

A loop that is not nested takes a bounded number of steps for every task in front of a
task that waits; delayed tasks and other wake-ups cannot hold it up.
-/
namespace OscDataProcess

/-- How many steps the pump takes at most from here until it looks at the next task. -/
def PumpPc.rank : PumpPc → Nat
  | .take => 0
  | .reload => 1
  | .doWork => 2
  | .wait _ => 3
  | .sleep => 4
  | .doIdleWork => 5
  | .doDelayedWork true => 5
  | .doDelayedWork false => 6
  | .task .doWork => 6
  | .task _ => 4

theorem PumpPc.rank_le (pc : PumpPc) : pc.rank ≤ 6 := by
  unfold PumpPc.rank
  split <;> omega

namespace MessageLoop

open GuardedRun (Along Reaches)

variable {α : Type} {l l' : MessageLoop α} {x : PendingTask α}

def rank (l : MessageLoop α) : Nat := l.pc.elim 3 PumpPc.rank

/-- The task has not been looked at. -/
def Waits (l : MessageLoop α) (x : PendingTask α) : Prop := x ∈ l.workQueue ++ l.incomingQueue

/-- How many tasks were looked at. -/
def looked (l : MessageLoop α) : Nat := l.queues.moved.length

/-- Steps that the loop takes by itself, the return of its task among them. -/
def Event.isOwn : Event α → Bool
  | .pump | .taskDone => true
  | _ => false

def potential (x : PendingTask α) (l : MessageLoop α) : Nat := 7 * (x.id - l.looked) + l.rank

theorem rank_le (l : MessageLoop α) : l.rank ≤ 6 := by
  unfold rank
  cases l.pc with
  | none => decide
  | some pc => exact pc.rank_le

theorem rank_of_pc {pc : PumpPc} (hpc : l.pc = some pc) : l.rank = pc.rank := by
  rw [rank, hpc]
  rfl

theorem rank_setPc {m : MessageLoop α} {pc : PumpPc} (hpc : l.pc = some pc) (hm : m.runLoops = l.runLoops)
    (pc' : PumpPc) : (m.setPc pc').rank = pc'.rank := by
  apply rank_of_pc
  rw [setPc_pc, if_neg]
  intro hnil
  rw [MessageLoop.pc, ← hm, hnil] at hpc
  cases hpc

/-- A loop that is not nested goes on, or leaves Run. -/
theorem rank_returned {m : MessageLoop α} {pc : PumpPc} (hpc : l.pc = some pc) (ht : l.runLoops.tail = [])
    (hm : m.runLoops = l.runLoops) (caller : Caller) (b : Bool) :
    (m.returned caller b).rank ≤ max (caller.next b).rank 3 := by
  unfold returned
  split
  · exact (rank_setPc hpc hm _).le.trans (Nat.le_max_left ..)
  · refine le_trans ?_ (Nat.le_max_right ..)
    simp [rank, MessageLoop.pc, hm, ht]

theorem looked_add (h : Queues.Accounted l.queues) :
    l.looked + (l.workQueue.length + l.incomingQueue.length) = l.posted.length :=
  h.length.symm

theorem waits_iff (h : Queues.Accounted l.queues) (hx : x ∈ l.posted) : Waits l x ↔ l.looked ≤ x.id := by
  have hsplit : l.posted = l.queues.moved ++ (l.workQueue ++ l.incomingQueue) := h.split
  have hget : l.posted[x.id]? = some x := h.getElem?_id hx
  constructor
  · intro hw
    obtain ⟨i, hi⟩ := List.mem_iff_getElem?.mp hw
    have hi' : l.posted[l.looked + i]? = some x := by
      rw [hsplit, looked, List.getElem?_append_right (Nat.le_add_right ..), Nat.add_sub_cancel_left, hi]
    exact (h.ids _ _ hi').1 ▸ Nat.le_add_right ..
  · intro hle
    rw [hsplit, List.getElem?_append_right hle] at hget
    exact List.mem_of_getElem? hget

theorem pays_of_rank (hlook : l'.looked = l.looked) (hr : l'.rank < l.rank) : 1 + potential x l' ≤ potential x l := by
  rw [potential, potential, hlook]
  omega

theorem potential_le (hlook : l'.looked = l.looked) (hr : l'.rank ≤ l.rank) :
    0 + potential x l' ≤ potential x l := by
  rw [potential, potential, hlook]
  omega

theorem pc_of_inTask {caller : Caller} (h : l.inTask = some caller) : l.pc = some (.task caller) := by
  cases hr : l.runLoops with
  | nil => simp [inTask, hr] at h
  | cons a rest => cases hp : a.pc <;> simp_all [inTask, MessageLoop.pc]

theorem looked_of_queues (hq : l'.queues = l.queues) : l'.looked = l.looked :=
  congrArg (fun q => q.moved.length) hq

/-- The task in front of the one that waits was looked at. -/
theorem pays_of_looked (ha : Queues.Accounted l.queues) (ha' : Queues.Accounted l'.queues) {p : PendingTask α}
    (hw : l.workQueue = p :: l'.queues.work) (hi : l'.queues.incoming = l.incomingQueue)
    (hp : l'.queues.posted = l.posted) (hle : l'.looked ≤ x.id) : 1 + potential x l' ≤ potential x l := by
  have hlen := looked_add ha
  have hlen' : l'.looked + (l'.queues.work.length + l'.queues.incoming.length) = l'.queues.posted.length := looked_add ha'
  rw [hw, List.length_cons] at hlen
  rw [hi, hp] at hlen'
  have := l'.rank_le
  rw [potential, potential]
  omega

variable [BEq α] {may : α → Bool → Prop}

theorem PumpMove.pays (hm : PumpMove l l') (hf : Flat may l) (ha : Queues.Accounted l.queues)
    (ha' : Queues.Accounted l'.queues) (hx : x ∈ l.posted) (hw : Waits l x) (hw' : Waits l' x) :
    1 + potential x l' ≤ potential x l := by
  have hnest := hf.nestable hm.inTask
  have hx' : x ∈ l'.posted := hm.posted ▸ hx
  have hle := (waits_iff ha' hx').mp hw'
  cases hm with
  | enter hpc | loaded hpc | sleep hpc | sleepUntil hpc | overdue hpc | signaled hpc | timedOut hpc =>
    refine pays_of_rank rfl ?_
    rw [rank_of_pc hpc]
    refine (rank_setPc hpc ?_ _).trans_lt (by simp [PumpPc.rank])
    rfl
  | barred hpc hn => exact absurd hnest (by simp [hn])
  | noWork hpc hwork hinc => exact absurd hw (by simp [Waits, hwork, hinc])
  | reload hpc hwork =>
    have hlen := looked_add ha
    have hlen' := looked_add ha'
    have hrank : (setPc { l with workQueue := l.incomingQueue, incomingQueue := [] } .take).rank = 0 :=
      rank_setPc hpc rfl .take
    rw [hwork] at hlen
    simp only [setPc, List.length_nil, Nat.zero_add, Nat.add_zero] at hlen hlen' hrank ⊢
    rw [potential, potential, rank_of_pc hpc, hrank, PumpPc.rank]
    omega
  | @delay p ps hpc hwork =>
    refine pays_of_looked (p := p) ha ha' (hwork.trans ?_) ?_ ?_ hle <;> rw [takeNext_queues] <;> rfl
  | runWork hpc hwork => exact pays_of_looked ha ha' hwork rfl rfl hle
  | deferWork hpc _ _ _ hnested => exact absurd (runDepth_eq_one hpc hf.depth) hnested
  | @noDelayed b hpc | @notDue b _ _ hpc =>
    refine pays_of_rank (looked_of_queues (returned_queues ..)) ?_
    rw [rank_of_pc hpc]
    refine (rank_returned hpc hf.depth ?_ _ _).trans_lt ?_
    · rfl
    · cases b <;> decide
  | @runDelayed b p rest hpc =>
    have hrank : ((l.takeDelayed p rest).runTask p (.doDelayedWork b)).rank = 4 := rank_setPc hpc rfl _
    refine pays_of_rank rfl ?_
    rw [hrank, rank_of_pc hpc]
    cases b <;> decide
  | deferDelayed hpc _ _ _ _ hnested => exact absurd (runDepth_eq_one hpc hf.depth) hnested
  | runDeferred hpc hp =>
    rw [hf.deferred] at hp
    cases hp
  | idle ha hpc =>
    refine pays_of_rank (looked_of_queues (returned_queues ..)) ?_
    rw [rank_of_pc hpc]
    refine (rank_returned hpc hf.depth ?_ _ _).trans_lt ?_
    · rfl
    · decide

/-- Each step of the loop is paid for. -/
theorem step_pays {e : Event α} (hp : NeverNested may l e) (he : l.step e = some l') (hf : Flat may l)
    (ha : Queues.Accounted l.queues) (ha' : Queues.Accounted l'.queues) (hx : x ∈ l.posted) (hw : Waits l x)
    (hw' : Waits l' x) : (if e.isOwn then 1 else 0) + potential x l' ≤ potential x l := by
  cases e with
  | pump => exact (pump_move he).pays hf ha ha' hx hw hw'
  | taskDone =>
    obtain ⟨caller, hin, rfl⟩ := Option.map_eq_some_iff.mp he
    have hpc := pc_of_inTask hin
    refine pays_of_rank (looked_of_queues (returned_queues ..)) ?_
    rw [rank_of_pc hpc]
    refine (rank_returned hpc hf.depth ?_ _ _).trans_lt ?_
    · rfl
    · cases caller <;> simp [Caller.next, PumpPc.rank]
  | setNestableTasksAllowed => exact hp.elim
  | run quitCalled quitWhenIdle =>
    simp only [step, Option.ite_none_right_eq_some, Option.some.injEq] at he
    obtain ⟨-, rfl⟩ := he
    have hold : l.rank = 3 := by rw [rank, MessageLoop.pc, show l.runLoops = [] from hp]; rfl
    cases quitCalled with
    | true => exact (Nat.zero_add _).le
    | false =>
      refine potential_le rfl (hold ▸ ?_)
      exact Nat.le_succ 2
  | tick us =>
    obtain rfl := Option.some.inj he
    exact (Nat.zero_add _).le
  | scheduleWork =>
    simp only [step, Option.ite_none_left_eq_some, Option.some.injEq] at he
    obtain ⟨-, rfl⟩ := he
    exact (Nat.zero_add _).le
  | post =>
    simp only [step, Option.ite_none_right_eq_some, Option.some.injEq] at he
    obtain ⟨-, rfl⟩ := he
    have hlen := looked_add ha
    have hlen' := looked_add ha'
    simp only [postDelayedTask, List.length_append, List.length_singleton] at hlen'
    refine potential_le ?_ (Nat.le_refl _)
    simp only [postDelayedTask]
    omega
  | quitNow =>
    simp only [step, Option.ite_none_right_eq_some, Option.some.injEq] at he
    obtain ⟨-, rfl⟩ := he
    exact (Nat.zero_add _).le
  | quit | quitWhenIdle =>
    simp only [step, Option.ite_none_right_eq_some, Option.some.injEq] at he
    obtain ⟨-, rfl⟩ := he
    refine potential_le rfl (le_of_eq ?_)
    rw [rank, rank, pc_of_map]
    exact map_pc_modify _ _ fun _ => rfl

theorem posted_of_queues {e : Event α} (hrec : l.recentTime ≤ l.now) (he : l.step e = some l') (hx : x ∈ l.posted) :
    x ∈ l'.posted := by
  obtain hq | hm := (step_queues hrec he).1
  · have hq : l'.posted = l.posted := congrArg Queues.posted hq
    exact hq ▸ hx
  · exact hm.posted hx

/-- A task does not start to wait again. -/
theorem waits_of_step {e : Event α} (he : l.step e = some l') (hrec : l.recentTime ≤ l.now)
    (ha : Queues.Accounted l.queues) (hx : x ∈ l.posted) (hw : Waits l' x) : Waits l x := by
  have hx' := posted_of_queues hrec he hx
  obtain hq | hm := (step_queues hrec he).1
  · rw [waits_iff ha hx, ← looked_of_queues hq]
    exact (waits_iff (hq ▸ ha) hx').mp hw
  · rw [waits_iff ha hx]
    exact (ha.moved_le hm).trans ((waits_iff (ha.move hm) hx').mp hw)

/-- A task with `k` tasks in front of it is looked at within `7 * k + 7` steps of its loop,
whatever else is posted and however many delayed tasks are due: then it is run, unless it
has to wait for its time. -/
theorem served_of_along (hr : Reaches step (NeverNested may) .initial l) {es : List (Event α)}
    (ha : Along step (NeverNested may) l es l') {k : Nat} (hk : (l.workQueue ++ l.incomingQueue)[k]? = some x)
    (hlong : 7 * k + 6 < es.countP Event.isOwn) :
    (∃ r ∈ l'.ran, r.task.unnumbered = x) ∨ (x.delayed ∧ ∃ y ∈ l'.delayedWorkQueue, y.unnumbered = x) := by
  have hsplit : l.posted = l.queues.moved ++ (l.workQueue ++ l.incomingQueue) := (kept_of_reaches hr).2.accounted.split
  have hget : l.posted[l.looked + k]? = some x := by
    rw [hsplit, looked, List.getElem?_append_right (Nat.le_add_right ..), Nat.add_sub_cancel_left, hk]
  have hid : x.id = l.looked + k := ((kept_of_reaches hr).2.accounted.ids _ _ hget).1
  have hknown : ∀ t, Reaches step (NeverNested may) l t → Reaches step (NeverNested may) .initial t ∧ x ∈ t.posted := by
    intro t ht
    refine ⟨hr.trans ht, ?_⟩
    refine ht.invariant_of (I := fun t => x ∈ t.posted) (K := fun t => t.recentTime ≤ t.now)
      (fun u hu => (kept_of_reaches (hr.trans hu)).1) (fun _ _ _ hrec hx _ he _ => posted_of_queues hrec he hx)
      (List.mem_of_getElem? hget)
  have hx' := (hknown l' ha.reaches).2
  have hk' := (kept_of_reaches (hknown l' ha.reaches).1).2
  have hflat := flat_of_reaches (hknown l' ha.reaches).1
  by_cases hw : Waits l' x
  · have hpaid := ha.potential (fun t => Waits t x) (potential x) Event.isOwn hknown
      (fun t e u ⟨ht, hx⟩ _ he hw => waits_of_step he (kept_of_reaches ht).1 (kept_of_reaches ht).2.accounted hx hw)
      (fun t e u ⟨ht, hx⟩ ⟨hu, _⟩ hp he hw hw' => step_pays hp he (flat_of_reaches ht) (kept_of_reaches ht).2.accounted
        (kept_of_reaches hu).2.accounted hx hw hw') hw
    have := l.rank_le
    rw [potential, potential, hid] at hpaid
    omega
  · obtain h | ⟨y, hy, rfl⟩ | ⟨y, hy, -⟩ | h | h := hk'.accounted.found hx'
    · exact .inl h
    · exact .inr ⟨hflat.delayed y hy, y, hy, rfl⟩
    · exact absurd hy (by simp [MessageLoop.queues, hflat.deferred])
    · exact absurd (List.mem_append_left _ h) hw
    · exact absurd (List.mem_append_right _ h) hw

/-- A task behind another and a delayed one. -/
theorem served_of_along_two : ∃ (l l' : MessageLoop Nat) (es : List (Event Nat)) (x : PendingTask Nat),
    Along step (NeverNested fun _ _ => True) l es l' ∧ (l.workQueue ++ l.incomingQueue)[2]? = some x ∧
      ((∃ r ∈ l'.ran, r.task.unnumbered = x) ∨ (x.delayed ∧ ∃ y ∈ l'.delayedWorkQueue, y.unnumbered = x)) := by
  obtain ⟨l, hl, hl'⟩ := Option.map_eq_some_iff.mp (show
    (GuardedRun.execute step (NeverNested fun (_ : Nat) _ => True) initial
      [.run false false, .post 7 0 0 true, .post 8 0 5 true, .post 9 0 0 true]).map (fun l =>
        decide ((l.workQueue ++ l.incomingQueue)[2]? = some ⟨9, 2, 0, 0, true⟩ ∧
          (GuardedRun.execute step (NeverNested fun (_ : Nat) _ => True) l
            (.scheduleWork :: List.replicate 3 .pump ++ .taskDone :: List.replicate 5 .pump ++
              .taskDone :: List.replicate 11 .pump)).isSome)) = some true by decide)
  obtain ⟨hk, hl'⟩ := of_decide_eq_true hl'
  obtain ⟨l', hl'⟩ := Option.isSome_iff_exists.mp hl'
  have ha := GuardedRun.along_of_execute hl'
  exact ⟨l, l', _, _, ha, hk, served_of_along (GuardedRun.reaches_of_execute hl) ha hk (by decide)⟩

/-! ## The loop is never stuck -/

/-- Where the pump takes the oldest task there is one. -/
def Loaded (l : MessageLoop α) : Prop := l.pc = some .take → l.workQueue ≠ []

omit [BEq α] in
theorem Loaded.of_pc (h : l.pc ≠ some .take) : Loaded l := fun hpc => absurd hpc h

omit [BEq α] in
theorem Loaded.setPc {pc : PumpPc} (h : pc = .take → l.workQueue ≠ []) : Loaded (l.setPc pc) := by
  intro hpc
  rw [setPc_pc] at hpc
  split at hpc
  · cases hpc
  · exact h (Option.some.inj hpc)

omit [BEq α] in
theorem Loaded.returned (ht : l.runLoops.tail = []) (caller : Caller) (b : Bool) : Loaded (l.returned caller b) := by
  unfold MessageLoop.returned
  split
  · refine .setPc fun h => ?_
    cases caller with
    | doWork => cases h
    | doDelayedWork d => cases d <;> cases b <;> cases h
    | doIdleWork => cases b <;> cases h
  · exact .of_pc (by simp [MessageLoop.pc, ht])

omit [BEq α] in
theorem Loaded.takeNext : Loaded l.takeNext := by
  unfold MessageLoop.takeNext
  split
  · exact .setPc (by simp)
  · exact .setPc fun _ => ‹_›

theorem Loaded.pump (ht : l.runLoops.tail = []) (hm : PumpMove l l') : Loaded l' := by
  cases hm with
  | enter | sleep | sleepUntil | overdue | signaled | timedOut => exact .setPc (by simp)
  | reload hpc hw hi => exact .setPc fun _ => hi
  | loaded hpc hw => exact .setPc fun _ => hw
  | barred | noWork | noDelayed | notDue | deferDelayed | idle =>
    refine .returned ?_ _ _
    exact ht
  | delay | deferWork => exact .takeNext
  | runWork | runDelayed | runDeferred =>
    have h : ∀ (m : MessageLoop α) (p : PendingTask α) (caller : Caller), Loaded (m.runTask p caller) :=
      fun m p caller => .of_pc fun hpc => by
        have hpc : (m.setPc (.task caller)).pc = some .take := hpc
        rw [setPc_pc] at hpc
        split at hpc <;> cases hpc
    exact h _ _ _

theorem Loaded.step {e : Event α} (h : Loaded l) (ht : l.runLoops.tail = []) (hp : NeverNested may l e)
    (he : l.step e = some l') : Loaded l' := by
  cases e with
  | pump => exact .pump ht (pump_move he)
  | taskDone =>
    obtain ⟨caller, -, rfl⟩ := Option.map_eq_some_iff.mp he
    refine .returned ?_ _ _
    exact ht
  | setNestableTasksAllowed => exact hp.elim
  | run quitCalled quitWhenIdle =>
    simp only [MessageLoop.step, Option.ite_none_right_eq_some, Option.some.injEq] at he
    obtain ⟨-, rfl⟩ := he
    cases quitCalled with
    | true => exact h
    | false => exact .of_pc (by simp [MessageLoop.pc])
  | tick us =>
    obtain rfl := Option.some.inj he
    exact h
  | scheduleWork =>
    simp only [MessageLoop.step, Option.ite_none_left_eq_some, Option.some.injEq] at he
    obtain ⟨-, rfl⟩ := he
    exact h
  | post | quitNow =>
    simp only [MessageLoop.step, Option.ite_none_right_eq_some, Option.some.injEq] at he
    obtain ⟨-, rfl⟩ := he
    exact h
  | quit | quitWhenIdle =>
    simp only [MessageLoop.step, Option.ite_none_right_eq_some, Option.some.injEq] at he
    obtain ⟨-, rfl⟩ := he
    intro hpc
    apply h
    rw [← hpc]
    refine (pc_of_map ?_).symm
    exact map_pc_modify _ _ fun _ => rfl

/-- A task that waits finds its loop able to take a step, or in a task, or about to be
woken, unless the loop is outside Run. -/
theorem goesOn_of_reaches (hr : Reaches step (NeverNested may) .initial l) (hruns : l.runLoops ≠ []) (hw : Waits l x) :
    l.pump.isSome ∨ l.inTask.isSome ∨ 0 < l.signallers := by
  have hflat := flat_of_reaches hr
  have hloaded : Loaded l := hr.invariant_of (K := Flat may) (fun t ht => flat_of_reaches ht)
    (fun _ _ _ hf h hp he _ => h.step hf.depth hp he) (.of_pc (by simp [MessageLoop.pc, initial]))
  cases hl : l.runLoops with
  | nil => exact absurd hl hruns
  | cons a rest =>
    have hpc : l.pc = some a.pc := by rw [MessageLoop.pc, hl]; rfl
    cases ha : a.pc with
    | task caller => exact .inr (.inl (by simp [inTask, hl, ha]))
    | doWork | reload | doDelayedWork b | doIdleWork => exact .inl (by simp [pump, hl, ha])
    | take =>
      cases hwork : l.workQueue with
      | nil => exact absurd hwork (hloaded (ha ▸ hpc))
      | cons p ps => exact .inl (by simp [pump, hl, ha, hwork])
    | sleep =>
      left
      simp only [pump, hl, ha]
      split
      · rfl
      · split <;> rfl
    | wait deadline =>
      have hin : l.inTask = none := by simp [inTask, hl, ha]
      obtain ⟨hwork, hs, -⟩ := (awake_of_reaches hr).rested (hflat.nestable hin) _ (ha ▸ hpc)
      have hinc : l.incomingQueue ≠ [] := fun hnil => by simp [Waits, hwork, hnil] at hw
      obtain hev | hsig := hs hinc
      · exact .inl (by simp [pump, hl, ha, hev])
      · exact .inr (.inr hsig)

/-- A sleeping loop is posted a task. -/
theorem goesOn_of_reaches_asleep : ∃ l : MessageLoop Nat, Reaches step (NeverNested fun _ _ => True) .initial l ∧
    l.pc = some (.wait none) ∧ (l.pump.isSome ∨ l.inTask.isSome ∨ 0 < l.signallers) := by
  obtain ⟨l, hr, hl⟩ := GuardedRun.exists_of_execute step (NeverNested fun (_ : Nat) _ => True) initial
    [.run false false, .pump, .pump, .pump, .pump, .pump, .post 7 0 0 true]
    (fun l => decide (l.pc = some (.wait none) ∧ l.runLoops ≠ [] ∧ l.incomingQueue = [⟨7, 0, 0, 0, true⟩]))
    (by decide)
  obtain ⟨hpc, hruns, hinc⟩ := of_decide_eq_true hl
  exact ⟨l, hr, hpc, goesOn_of_reaches hr hruns (x := ⟨7, 0, 0, 0, true⟩) (by simp [Waits, hinc])⟩

end MessageLoop
end OscDataProcess
