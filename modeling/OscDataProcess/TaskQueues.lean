import OscDataProcess.MessageLoop
import Mathlib.Data.Prod.Lex

/-!
# The queues of a message loop

What a MessageLoop may do with its tasks, whatever its pump is doing: an abstract machine
over the four queues, with the history of the tasks posted and run.
-/
namespace OscDataProcess

variable {α : Type}

/-- `delayed_run_time.is_null()` is false. -/
def PendingTask.delayed (p : PendingTask α) : Bool := p.delayedRunTime ≠ 0

/-- A task that is run as soon as it is the oldest. -/
def PendingTask.prompt (p : PendingTask α) : Bool := !p.delayed && p.nestable

/-- The task as it was posted: AddToDelayedWorkQueue numbers a copy. -/
def PendingTask.unnumbered (p : PendingTask α) : PendingTask α := { p with sequenceNum := 0 }

@[simp] theorem PendingTask.unnumbered_id (p : PendingTask α) : p.unnumbered.id = p.id := rfl
@[simp] theorem PendingTask.unnumbered_delayed (p : PendingTask α) : p.unnumbered.delayed = p.delayed := rfl
@[simp] theorem PendingTask.unnumbered_prompt (p : PendingTask α) : p.unnumbered.prompt = p.prompt := rfl
@[simp] theorem PendingTask.unnumbered_sequenceNum (p : PendingTask α) (n : BitVec 32) :
    ({ p with sequenceNum := n } : PendingTask α).unnumbered = p.unnumbered := rfl

/-- The task on top is the first to be due. -/
theorem PendingTask.le_of_pop {queue rest : List (PendingTask α)} {p : PendingTask α}
    (hp : DelayQueue.pop PendingTask.before queue = some (p, rest)) :
    ∀ x ∈ queue, p.delayedRunTime ≤ x.delayedRunTime := by
  refine DelayQueue.pop_le PendingTask.delayedRunTime (fun a _ b _ hlt => ?_) (fun a _ b _ hb => ?_) hp
  · rw [PendingTask.before, if_neg (Nat.lt_asymm hlt), if_pos hlt]
  · by_contra hle
    rw [PendingTask.before, if_pos (Nat.lt_of_not_le hle)] at hb
    cases hb

/-- The queues of a message loop, the time and the history. -/
structure Queues (α : Type) where
  now : Nat
  incoming : List (PendingTask α)
  work : List (PendingTask α)
  delayed : List (PendingTask α)
  deferred : List (PendingTask α)
  nextSequenceNum : BitVec 32
  posted : List (PendingTask α)
  ran : List (Ran α)

namespace Queues

open List (Perm)
open scoped List

variable {q q' : Queues α} {p : PendingTask α}

def empty : Queues α := ⟨0, [], [], [], [], 0, [], []⟩

/-- One step of the queues. A task is run when it may be, else it is put off. -/
inductive Move (q : Queues α) : Queues α → Prop
  | tick (us : Nat) : Move q { q with now := q.now + us }
  | post (task : α) (time : Nat) (nestable : Bool) :
    Move q { q with
      incoming := q.incoming ++ [⟨task, q.posted.length, time, 0, nestable⟩]
      posted := q.posted ++ [⟨task, q.posted.length, time, 0, nestable⟩] }
  | reload (hw : q.work = []) : Move q { q with work := q.incoming, incoming := [] }
  | delay {p : PendingTask α} {ps : List (PendingTask α)} (hw : q.work = p :: ps) (hd : p.delayed) :
    Move q { q with
      work := ps
      delayed := q.delayed ++ [{ p with sequenceNum := q.nextSequenceNum }]
      nextSequenceNum := q.nextSequenceNum + 1 }
  | runWork {p : PendingTask α} {ps : List (PendingTask α)} (depth : Nat) (hw : q.work = p :: ps)
      (hd : ¬ p.delayed) (hn : p.nestable ∨ depth = 1) :
    Move q { q with work := ps, ran := q.ran ++ [⟨p, depth, q.now⟩] }
  | deferWork {p : PendingTask α} {ps : List (PendingTask α)} (hw : q.work = p :: ps)
      (hd : ¬ p.delayed) (hn : ¬ p.nestable) :
    Move q { q with work := ps, deferred := q.deferred ++ [p] }
  | runDelayed {p : PendingTask α} {rest : List (PendingTask α)} (depth : Nat)
      (hp : DelayQueue.pop PendingTask.before q.delayed = some (p, rest)) (hdue : p.delayedRunTime ≤ q.now)
      (hn : p.nestable ∨ depth = 1) :
    Move q { q with delayed := rest, ran := q.ran ++ [⟨p, depth, q.now⟩] }
  | deferDelayed {p : PendingTask α} {rest : List (PendingTask α)}
      (hp : DelayQueue.pop PendingTask.before q.delayed = some (p, rest)) (hdue : p.delayedRunTime ≤ q.now)
      (hn : ¬ p.nestable) :
    Move q { q with delayed := rest, deferred := q.deferred ++ [p] }
  | runDeferred {p : PendingTask α} {ps : List (PendingTask α)} {depth : Nat} (hp : q.deferred = p :: ps)
      (hd : depth = 1) : Move q { q with deferred := ps, ran := q.ran ++ [⟨p, depth, q.now⟩] }

theorem Move.now_le (hm : Move q q') : q.now ≤ q'.now := by
  cases hm <;> simp

/-- Tasks that were taken from the work queue. -/
def moved (q : Queues α) : List (PendingTask α) :=
  q.posted.take (q.posted.length - (q.work.length + q.incoming.length))

/-- Where a task taken from the work queue is now. -/
def held (q : Queues α) : List (PendingTask α) :=
  (q.ran.map Ran.task ++ q.delayed ++ q.deferred).map PendingTask.unnumbered

/-- Every task posted is in one place, and those not yet looked at are in the order of posting. -/
structure Accounted (q : Queues α) : Prop where
  split : q.posted = q.moved ++ (q.work ++ q.incoming)
  held : q.held.Perm q.moved
  ids : ∀ i (p : PendingTask α), q.posted[i]? = some p → p.id = i ∧ p.unnumbered = p

/-- Tasks that can be run at once are run in the order of posting. -/
def InOrder (q : Queues α) : Prop :=
  q.posted.filter PendingTask.prompt =
    (q.ran.map Ran.task ++ q.work ++ q.incoming).filter PendingTask.prompt

/-- No task is run before its time, and none that is not nestable in a nested loop. -/
structure Timely (q : Queues α) : Prop where
  ran : ∀ r ∈ q.ran, r.task.delayedRunTime ≤ r.time ∧ (r.task.nestable ∨ r.depth = 1)
  deferred : ∀ p ∈ q.deferred, p.delayedRunTime ≤ q.now ∧ ¬ p.nestable
  delayed : ∀ p ∈ q.delayed, p.delayed

theorem accounted_empty : Accounted (empty : Queues α) := ⟨rfl, by simp [Queues.held, moved, empty], by simp [empty]⟩

theorem moved_of_split {l : List (PendingTask α)} (h : q.posted = l ++ (q.work ++ q.incoming)) : q.moved = l := by
  simp [moved, h]

theorem Accounted.of_split {l : List (PendingTask α)} (hs : q.posted = l ++ (q.work ++ q.incoming))
    (hh : q.held.Perm l) (hi : ∀ i (p : PendingTask α), q.posted[i]? = some p → p.id = i ∧ p.unnumbered = p) :
    Accounted q :=
  ⟨by rw [moved_of_split hs, hs], by rwa [moved_of_split hs], hi⟩

/-- The oldest task leaves the work queue. -/
theorem Accounted.take {ps : List (PendingTask α)} (h : Accounted q) (hw : q.work = p :: ps)
    (hp : q'.posted = q.posted) (hinc : q'.incoming = q.incoming) (hw' : q'.work = ps)
    (hh : q'.held.Perm (p.unnumbered :: q.held)) : Accounted q' := by
  have hmem : q.posted[q.moved.length]? = some p := by
    rw [h.split, hw]
    simp
  have hun := (h.ids _ _ hmem).2
  refine .of_split (l := q.moved ++ [p]) ?_ ?_ (hp ▸ h.ids)
  · rw [hp, hinc, hw', h.split, hw, moved_of_split h.split]
    simp
  · rw [hun] at hh
    exact hh.trans ((h.held.cons p).trans (List.perm_append_singleton ..).symm)

/-- A task goes from one of the other places to another. -/
theorem Accounted.transfer (h : Accounted q) (hp : q'.posted = q.posted) (hinc : q'.incoming = q.incoming)
    (hw : q'.work = q.work) (hh : q'.held.Perm q.held) : Accounted q' := by
  have hm : q'.moved = q.moved := by simp [moved, hp, hinc, hw]
  exact ⟨by rw [hp, hm, hw, hinc, ← h.split], hm ▸ hh.trans h.held, hp ▸ h.ids⟩

theorem held_ran (q : Queues α) (r : Ran α) : Queues.held { q with ran := q.ran ++ [r] } ~ r.task.unnumbered :: q.held := by
  simp [held]

theorem held_delayed (q : Queues α) (p : PendingTask α) (n : BitVec 32) :
    Queues.held { q with delayed := q.delayed ++ [p], nextSequenceNum := n } ~ p.unnumbered :: q.held := by
  simpa [held] using @List.perm_middle _ _ ((q.ran.map Ran.task ++ q.delayed).map PendingTask.unnumbered) _

theorem held_deferred (q : Queues α) (p : PendingTask α) :
    Queues.held { q with deferred := q.deferred ++ [p] } ~ p.unnumbered :: q.held := by
  simpa [held] using List.perm_append_singleton p.unnumbered q.held

theorem held_of_pop {rest : List (PendingTask α)} (hp : DelayQueue.pop PendingTask.before q.delayed = some (p, rest)) :
    q.held ~ p.unnumbered :: Queues.held { q with delayed := rest } := by
  have h := ((DelayQueue.pop_perm hp).append_left (q.ran.map Ran.task)).append_right q.deferred
  simpa [held] using (h.trans (List.perm_middle.append_right _)).map PendingTask.unnumbered

theorem held_of_cons {ps : List (PendingTask α)} (hp : q.deferred = p :: ps) :
    q.held ~ p.unnumbered :: Queues.held { q with deferred := ps } := by
  simpa [held, hp] using @List.perm_middle _ _ ((q.ran.map Ran.task ++ q.delayed).map PendingTask.unnumbered) _

theorem Accounted.move (h : Accounted q) (hm : Move q q') : Accounted q' := by
  cases hm with
  | tick us => exact h.transfer rfl rfl rfl (List.Perm.refl _)
  | post task time nestable =>
    refine .of_split (l := q.moved) ?_ h.held ?_
    · rw [← List.append_assoc, ← List.append_assoc, List.append_assoc q.moved, ← h.split]
    · intro i p hp
      obtain hi | hi := Nat.lt_or_ge i q.posted.length
      · exact h.ids i p (by rwa [List.getElem?_append_left hi] at hp)
      · rw [List.getElem?_append_right hi, List.getElem?_singleton] at hp
        split at hp
        · obtain rfl := Option.some.inj hp
          exact ⟨by simp only; omega, rfl⟩
        · cases hp
  | reload hw =>
    refine .of_split (l := q.moved) ?_ h.held h.ids
    simpa [hw] using h.split
  | delay hw hd => exact h.take hw rfl rfl rfl (held_delayed q _ (q.nextSequenceNum + 1))
  | runWork depth hw hd hn => exact h.take hw rfl rfl rfl (held_ran q _)
  | deferWork hw hd hn => exact h.take hw rfl rfl rfl (held_deferred q _)
  | @runDelayed p rest depth hp =>
    exact h.transfer rfl rfl rfl
      ((held_ran { q with delayed := rest } ⟨p, depth, q.now⟩).trans (held_of_pop hp).symm)
  | @deferDelayed p rest hp =>
    exact h.transfer rfl rfl rfl ((held_deferred { q with delayed := rest } p).trans (held_of_pop hp).symm)
  | @runDeferred p ps depth hp =>
    exact h.transfer rfl rfl rfl
      ((held_ran { q with deferred := ps } ⟨p, depth, q.now⟩).trans (held_of_cons hp).symm)

theorem Move.posted (hm : Move q q') (hp : p ∈ q.posted) : p ∈ q'.posted := by
  cases hm with
  | post => exact List.mem_append_left _ hp
  | _ => exact hp

theorem Accounted.length (h : Accounted q) : q.posted.length = q.moved.length + (q.work.length + q.incoming.length) := by
  have := congrArg List.length h.split
  simpa using this

/-- Tasks do not go back to the work queue. -/
theorem Accounted.moved_le (h : Accounted q) (hm : Move q q') : q.moved.length ≤ q'.moved.length := by
  have hlen := h.length
  have hlen' := (h.move hm).length
  cases hm with
  | tick | runDelayed | deferDelayed | runDeferred => exact Nat.le_refl _
  | post =>
    simp only [List.length_append, List.length_singleton] at hlen'
    omega
  | reload hw =>
    simp only [hw, List.length_nil] at hlen hlen'
    omega
  | delay hw | runWork _ hw | deferWork hw =>
    simp only [hw, List.length_cons] at hlen hlen'
    omega

theorem timely_empty : Timely (empty : Queues α) := ⟨by simp [empty], by simp [empty], by simp [empty]⟩

theorem Timely.of_pop (h : Timely q) {rest : List (PendingTask α)}
    (hp : DelayQueue.pop PendingTask.before q.delayed = some (p, rest)) : ∀ p ∈ rest, p.delayed := fun p hp' =>
  h.delayed p ((DelayQueue.pop_perm hp).mem_iff.mpr (.tail _ hp'))

theorem Timely.move (h : Timely q) (hm : Move q q') : Timely q' := by
  cases hm with
  | tick us => exact ⟨h.ran, fun p hp => ⟨Nat.le_add_right_of_le (h.deferred p hp).1, (h.deferred p hp).2⟩, h.delayed⟩
  | post | reload => exact ⟨h.ran, h.deferred, h.delayed⟩
  | delay hw hd =>
    refine ⟨h.ran, h.deferred, fun p hp => ?_⟩
    obtain hp | rfl := by simpa using hp
    · exact h.delayed p hp
    · exact hd
  | @runWork p ps depth hw hd hn =>
    refine ⟨fun r hr => ?_, h.deferred, h.delayed⟩
    obtain hr | rfl := by simpa using hr
    · exact h.ran r hr
    · exact ⟨by simp [show p.delayedRunTime = 0 by simpa [PendingTask.delayed] using hd], hn⟩
  | @deferWork p ps hw hd hn =>
    refine ⟨h.ran, fun p hp => ?_, h.delayed⟩
    obtain hp | rfl := by simpa using hp
    · exact h.deferred p hp
    · exact ⟨by simp [show p.delayedRunTime = 0 by simpa [PendingTask.delayed] using hd], hn⟩
  | runDelayed depth hp hdue hn =>
    refine ⟨fun r hr => ?_, h.deferred, h.of_pop hp⟩
    obtain hr | rfl := by simpa using hr
    · exact h.ran r hr
    · exact ⟨hdue, hn⟩
  | deferDelayed hp hdue hn =>
    refine ⟨h.ran, fun p hp' => ?_, h.of_pop hp⟩
    obtain hp' | rfl := by simpa using hp'
    · exact h.deferred p hp'
    · exact ⟨hdue, hn⟩
  | runDeferred hp hd =>
    refine ⟨fun r hr => ?_, fun p hp' => h.deferred p (hp ▸ .tail _ hp'), h.delayed⟩
    obtain hr | rfl := by simpa using hr
    · exact h.ran r hr
    · exact ⟨(h.deferred _ (hp ▸ .head _)).1, .inr hd⟩

theorem inOrder_empty : InOrder (empty : Queues α) := rfl

theorem InOrder.move (h : InOrder q) (ht : Timely q) (hm : Move q q') : InOrder q' := by
  unfold InOrder at h ⊢
  cases hm with
  | tick us => exact h
  | post task time nestable => simp [h]
  | reload hw => simpa [hw] using h
  | delay hw hd => simpa [hw, PendingTask.prompt, hd] using h
  | runWork depth hw hd hn => simpa [hw] using h
  | deferWork hw hd hn => simpa [hw, PendingTask.prompt, hn] using h
  | runDelayed depth hp hdue hn =>
    simpa [PendingTask.prompt, ht.delayed _ (DelayQueue.pop_mem hp)] using h
  | deferDelayed hp hdue hn => exact h
  | runDeferred hp =>
    have hn := (ht.deferred _ (hp ▸ List.mem_cons_self ..)).2
    simpa [PendingTask.prompt, hn] using h

/-! ## The order of delayed tasks -/

/-- How many of the first `i` tasks posted are delayed. -/
def delayedBefore (q : Queues α) (i : Nat) : Nat := ((q.posted.take i).filter PendingTask.delayed).length

/-- Sequence numbers count the delayed tasks, modulo 2^32. -/
structure Numbered (q : Queues α) : Prop where
  next : q.nextSequenceNum = BitVec.ofNat 32 (q.delayedBefore q.moved.length)
  delayed : ∀ p ∈ q.delayed, p.sequenceNum = BitVec.ofNat 32 (q.delayedBefore p.id)

/-- While a delayed task waits for its time, fewer than 2^31 others are taken from the work queue. -/
def Windowed (q : Queues α) : Prop :=
  ∀ p ∈ q.delayed, q.delayedBefore q.moved.length ≤ q.delayedBefore p.id + 2 ^ 31

instance (q : Queues α) : Decidable q.Windowed := inferInstanceAs (Decidable (∀ p ∈ q.delayed, _))

/-- Of two delayed tasks the one posted first is not run after the other, unless its time
comes later or it had to wait for the end of a nested loop. -/
def Punctual (q : Queues α) : Prop :=
  ∀ x ∈ q.ran.map Ran.task ++ q.deferred, x.delayed → ∀ p ∈ q.posted, p.delayed → p.nestable →
    p.id < x.id → p.delayedRunTime ≤ x.delayedRunTime → ∃ r ∈ q.ran, r.task.id = p.id

/-- The task that leaves the delayed queue is the first to be due of those there, and of
those due at the same time the first posted. It is run, unless it has to wait for the end
of a nested loop. -/
def FirstDue (q q' : Queues α) : Prop :=
  ∀ x ∈ q.delayed, x ∉ q'.delayed →
    ((∃ r, q'.ran = q.ran ++ [r] ∧ r.task = x) ∨ (¬ x.nestable ∧ q'.deferred = q.deferred ++ [x])) ∧
      ∀ p ∈ q.delayed, x.delayedRunTime < p.delayedRunTime ∨ x.delayedRunTime = p.delayedRunTime ∧ x.id ≤ p.id

/-- Where a task taken from the work queue may be found. -/
def places (q : Queues α) : List (PendingTask α) := q.ran.map Ran.task ++ q.delayed ++ q.deferred

theorem mem_places_delayed (hp : p ∈ q.delayed) : p ∈ q.places := by simp [places, hp]

theorem Accounted.getElem?_id (h : Accounted q) (hp : p ∈ q.posted) : q.posted[p.id]? = some p := by
  obtain ⟨i, hi⟩ := List.mem_iff_getElem?.mp hp
  exact (h.ids i p hi).1 ▸ hi

theorem Accounted.mem_places (h : Accounted q) (hp : p ∈ q.posted) (hlt : p.id < q.moved.length) :
    ∃ x ∈ q.places, x.unnumbered = p := by
  have hget := h.getElem?_id hp
  rw [h.split, List.getElem?_append_left hlt] at hget
  exact List.mem_map.mp (h.held.mem_iff.mpr (List.mem_of_getElem? hget))

/-- Every task posted is found somewhere. -/
theorem Accounted.found (h : Accounted q) (hp : p ∈ q.posted) :
    (∃ r ∈ q.ran, r.task.unnumbered = p) ∨ (∃ x ∈ q.delayed, x.unnumbered = p) ∨
      (∃ x ∈ q.deferred, x.unnumbered = p) ∨ p ∈ q.work ∨ p ∈ q.incoming := by
  rw [h.split, List.mem_append, List.mem_append] at hp
  obtain hm | hp := hp
  · obtain ⟨x, hx, rfl⟩ := List.mem_map.mp (h.held.mem_iff.mpr hm)
    simp only [List.mem_append, List.mem_map] at hx
    obtain (⟨r, hr, rfl⟩ | hx) | hx := hx
    · exact .inl ⟨r, hr, rfl⟩
    · exact .inr (.inl ⟨x, hx, rfl⟩)
    · exact .inr (.inr (.inl ⟨x, hx, rfl⟩))
  · exact .inr (.inr (.inr hp))

theorem Accounted.of_places (h : Accounted q) (hp : p ∈ q.places) :
    p.id < q.moved.length ∧ q.posted[p.id]? = some p.unnumbered := by
  have hm : p.unnumbered ∈ q.moved := h.held.mem_iff.mp (List.mem_map_of_mem hp)
  obtain ⟨i, hi⟩ := List.mem_iff_getElem?.mp hm
  have hlt := (List.getElem?_eq_some_iff.mp hi).1
  have hget : q.posted[i]? = some p.unnumbered := by rw [h.split, List.getElem?_append_left hlt, hi]
  obtain rfl : p.id = i := (h.ids i _ hget).1
  exact ⟨hlt, hget⟩

theorem delayedBefore_succ {i : Nat} (hp : q.posted[i]? = some p) :
    q.delayedBefore (i + 1) = q.delayedBefore i + if p.delayed then 1 else 0 := by
  rw [delayedBefore, List.take_add_one, hp]
  cases hd : p.delayed <;> simp [delayedBefore, hd]

theorem Accounted.delayedBefore_lt (h : Accounted q) (hp : p ∈ q.places) (hd : p.delayed) {i : Nat}
    (hlt : p.id < i) : q.delayedBefore p.id < q.delayedBefore i := by
  have hsucc := delayedBefore_succ (h.of_places hp).2
  rw [PendingTask.unnumbered_delayed, if_pos hd] at hsucc
  have hsub := ((List.take_sublist_take_left (l := q.posted) hlt).filter PendingTask.delayed).length_le
  calc q.delayedBefore p.id < q.delayedBefore (p.id + 1) := hsucc ▸ Nat.lt_succ_self _
    _ ≤ q.delayedBefore i := hsub

/-- Two tasks that wait for their time are compared by their due times, then by the order of posting. -/
theorem Accounted.before_iff (h : Accounted q) (ht : Timely q) (hn : Numbered q) (hw : Windowed q)
    {p' : PendingTask α} (hp : p ∈ q.delayed) (hp' : p' ∈ q.delayed) :
    p.before p' = true ↔ toLex (p.delayedRunTime, p.id) < toLex (p'.delayedRunTime, p'.id) := by
  have hlt : ∀ {x : PendingTask α}, x ∈ q.delayed → q.delayedBefore x.id < q.delayedBefore q.moved.length :=
    fun hx => h.delayedBefore_lt (mem_places_delayed hx) (ht.delayed _ hx) (h.of_places (mem_places_delayed hx)).1
  have hlater : DelayQueue.later p'.sequenceNum p.sequenceNum =
      decide (q.delayedBefore p.id < q.delayedBefore p'.id) := by
    rw [hn.delayed p hp, hn.delayed p' hp']
    have := hlt hp
    have := hlt hp'
    have := hw p hp
    have := hw p' hp'
    exact DelayQueue.later_ofNat (w := 31) (by omega) (by omega)
  have hid : q.delayedBefore p.id < q.delayedBefore p'.id ↔ p.id < p'.id := by
    refine ⟨fun hr => ?_, h.delayedBefore_lt (mem_places_delayed hp) (ht.delayed _ hp)⟩
    by_contra hge
    obtain heq | hlt := Nat.eq_or_lt_of_le (Nat.le_of_not_lt hge)
    · exact absurd hr (heq ▸ Nat.lt_irrefl _)
    · exact Nat.lt_asymm hr (h.delayedBefore_lt (mem_places_delayed hp') (ht.delayed _ hp') hlt)
  rw [Prod.Lex.toLex_lt_toLex, ← hid, PendingTask.before, hlater]
  split
  · simp; omega
  · split <;> simp <;> omega

/-- The task on top is the first to be due, and of those due at the same time the first posted. -/
theorem Accounted.le_of_pop (h : Accounted q) (ht : Timely q) (hn : Numbered q) (hw : Windowed q)
    {rest : List (PendingTask α)} (hp : DelayQueue.pop PendingTask.before q.delayed = some (p, rest))
    {x : PendingTask α} (hx : x ∈ q.delayed) :
    p.delayedRunTime < x.delayedRunTime ∨ p.delayedRunTime = x.delayedRunTime ∧ p.id ≤ x.id := by
  have hle := DelayQueue.pop_le (fun p : PendingTask α => toLex (p.delayedRunTime, p.id))
    (fun a ha b hb hlt => (h.before_iff ht hn hw ha hb).mpr hlt)
    (fun a ha b hb hb' => ((h.before_iff ht hn hw ha hb).mp hb').le) hp x hx
  exact Prod.Lex.toLex_le_toLex.mp hle

theorem numbered_empty : Numbered (empty : Queues α) := ⟨rfl, by simp [empty]⟩

theorem Numbered.of_eq (h : Numbered q) (hp : q'.posted = q.posted) (hm : q'.moved.length = q.moved.length)
    (hs : q'.nextSequenceNum = q.nextSequenceNum) (hd : ∀ p ∈ q'.delayed, p ∈ q.delayed) : Numbered q' := by
  have hb : ∀ i, q'.delayedBefore i = q.delayedBefore i := fun i => by simp [delayedBefore, hp]
  exact ⟨by rw [hs, hm, hb, h.next], fun p hp' => by rw [hb, h.delayed p (hd p hp')]⟩

theorem delayedBefore_of_posted (h : q'.posted = q.posted) (i : Nat) : q'.delayedBefore i = q.delayedBefore i := by
  rw [delayedBefore, h, delayedBefore]

theorem delayedBefore_of_append {x : PendingTask α} (h : q'.posted = q.posted ++ [x]) {i : Nat}
    (hi : i ≤ q.posted.length) : q'.delayedBefore i = q.delayedBefore i := by
  rw [delayedBefore, h, List.take_append_of_le_length hi, delayedBefore]

/-- The oldest task of the work queue is the next to be moved. -/
theorem Accounted.getElem?_moved (h : Accounted q) {ps : List (PendingTask α)} (hw : q.work = p :: ps) :
    q.posted[q.moved.length]? = some p := by
  rw [h.split, hw]
  simp

/-- A task that is not delayed leaves the work queue. -/
theorem Numbered.take (h : Numbered q) (ha : Accounted q) (ha' : Accounted q') {ps : List (PendingTask α)}
    (hwork : q.work = p :: ps) (hd : ¬ p.delayed) (hp : q'.posted = q.posted) (hinc : q'.incoming = q.incoming)
    (hwork' : q'.work = ps) (hs : q'.nextSequenceNum = q.nextSequenceNum) (hq : q'.delayed = q.delayed) :
    Numbered q' := by
  have hlen := ha.length
  have hlen' := ha'.length
  rw [hp, hinc, hwork'] at hlen'
  rw [hwork, List.length_cons] at hlen
  have hm : q'.moved.length = q.moved.length + 1 := by omega
  have hsucc := delayedBefore_succ (ha.getElem?_moved hwork)
  rw [if_neg hd] at hsucc
  refine ⟨?_, fun x hx => ?_⟩
  · rw [hs, delayedBefore_of_posted hp, hm, hsucc, h.next, Nat.add_zero]
  · rw [delayedBefore_of_posted hp, h.delayed x (hq ▸ hx)]

theorem Numbered.move (h : Numbered q) (ha : Accounted q) (hm : Move q q') : Numbered q' := by
  have ha' := ha.move hm
  have hlen := ha.length
  have hlen' := ha'.length
  cases hm with
  | tick us => exact h.of_eq rfl rfl rfl fun _ => id
  | post task time nestable =>
    simp only [List.length_append, List.length_singleton] at hlen'
    refine ⟨?_, fun p hp => ?_⟩
    · rw [delayedBefore_of_append rfl (by omega), show (moved _).length = q.moved.length by omega]
      exact h.next
    · have hlt := (ha.of_places (mem_places_delayed hp)).1
      rw [delayedBefore_of_append rfl (by omega)]
      exact h.delayed p hp
  | reload hw => exact h.of_eq rfl (by simp [hw] at hlen hlen'; omega) rfl fun _ => id
  | @delay p ps hw hd =>
    have hsucc := delayedBefore_succ (ha.getElem?_moved hw)
    rw [if_pos hd] at hsucc
    simp only [hw, List.length_cons] at hlen
    dsimp only at hlen'
    refine ⟨?_, fun x hx => ?_⟩
    · change q.nextSequenceNum + 1 = BitVec.ofNat 32 (q.delayedBefore _)
      rw [show (moved _).length = q.moved.length + 1 by omega, hsucc, h.next, BitVec.ofNat_add]
      rfl
    · change x.sequenceNum = BitVec.ofNat 32 (q.delayedBefore x.id)
      obtain hx | rfl := by simpa using hx
      · exact h.delayed x hx
      · rw [show ({ p with sequenceNum := q.nextSequenceNum } : PendingTask α).id = q.moved.length from
          (ha.ids _ _ (ha.getElem?_moved hw)).1]
        exact h.next
  | runWork depth hw hd hn => exact h.take ha ha' hw hd rfl rfl rfl rfl rfl
  | deferWork hw hd hn => exact h.take ha ha' hw hd rfl rfl rfl rfl rfl
  | runDelayed depth hp => exact h.of_eq rfl rfl rfl fun p hp' => (DelayQueue.pop_perm hp).mem_iff.mpr (.tail _ hp')
  | deferDelayed hp => exact h.of_eq rfl rfl rfl fun p hp' => (DelayQueue.pop_perm hp).mem_iff.mpr (.tail _ hp')
  | runDeferred hp => exact h.of_eq rfl rfl rfl fun _ => id

theorem punctual_empty : Punctual (empty : Queues α) := by simp [Punctual, empty]

/-- What is known of the queues in every reachable state. -/
structure Kept (q : Queues α) : Prop where
  accounted : Accounted q
  timely : Timely q
  numbered : Numbered q

theorem kept_empty : Kept (empty : Queues α) := ⟨accounted_empty, timely_empty, numbered_empty⟩

theorem Kept.move (h : Kept q) (hm : Move q q') : Kept q' :=
  ⟨h.accounted.move hm, h.timely.move hm, h.numbered.move h.accounted hm⟩

/-- The task on top of the delayed queue leaves it. -/
theorem Kept.ran_of_pop (hk : Kept q) (hw : Windowed q) {rest : List (PendingTask α)}
    (hp : DelayQueue.pop PendingTask.before q.delayed = some (p, rest)) {x : PendingTask α} (hx : x ∈ q.posted)
    (hd : x.delayed) (hn : x.nestable) (hid : x.id < p.id) (hdue : x.delayedRunTime ≤ p.delayedRunTime) :
    ∃ r ∈ q.ran, r.task.id = x.id := by
  have hlt := (hk.accounted.of_places (mem_places_delayed (DelayQueue.pop_mem hp))).1
  obtain ⟨y, hy, rfl⟩ := hk.accounted.mem_places hx (Nat.lt_trans hid hlt)
  simp only [places, List.mem_append, List.mem_map] at hy
  obtain (⟨r, hr, rfl⟩ | hy) | hy := hy
  · exact ⟨r, hr, rfl⟩
  · obtain hlt' | ⟨heq, hle⟩ := hk.accounted.le_of_pop hk.timely hk.numbered hw hp hy
    · exact absurd hdue (Nat.not_le_of_lt hlt')
    · exact absurd hid (Nat.not_lt_of_le hle)
  · exact absurd hn (hk.timely.deferred y hy).2

/-- What a move takes from the delayed queue is on top of it. -/
theorem Kept.firstDue (hk : Kept q) (hw : Windowed q) (hm : Move q q') : FirstDue q q' := by
  have htop : ∀ {p : PendingTask α} {rest : List (PendingTask α)},
      DelayQueue.pop PendingTask.before q.delayed = some (p, rest) → ∀ x ∈ q.delayed, x ∉ rest → x = p :=
    fun hp x hx hrest => (List.mem_cons.mp ((DelayQueue.pop_perm hp).mem_iff.mp hx)).resolve_right hrest
  intro x hx hx'
  cases hm with
  | tick | post | reload | runWork | deferWork | runDeferred => exact absurd hx hx'
  | delay => exact absurd (List.mem_append_left _ hx) hx'
  | runDelayed _ hpop =>
    obtain rfl := htop hpop x hx hx'
    exact ⟨.inl ⟨_, rfl, rfl⟩, fun p => hk.accounted.le_of_pop hk.timely hk.numbered hw hpop⟩
  | deferDelayed hpop _ hn =>
    obtain rfl := htop hpop x hx hx'
    exact ⟨.inr ⟨hn, rfl⟩, fun p => hk.accounted.le_of_pop hk.timely hk.numbered hw hpop⟩

theorem Punctual.move (h : Punctual q) (hk : Kept q) (hw : Windowed q) (hm : Move q q') : Punctual q' := by
  -- a task more among those run changes nothing for the others
  have hmono : ∀ {r : Ran α} {i : Nat}, (∃ s ∈ q.ran, s.task.id = i) → ∃ s ∈ q.ran ++ [r], s.task.id = i :=
    fun ⟨s, hs, hid⟩ => ⟨s, List.mem_append_left _ hs, hid⟩
  cases hm with
  | tick | reload | delay => exact h
  | post task time nestable =>
    intro x hx hxd p hp hd hn hid hdue
    obtain hp | rfl := List.mem_append.mp hp |>.imp_right List.mem_singleton.mp
    · exact h x hx hxd p hp hd hn hid hdue
    · have hpl : x ∈ q.places := by
        simp only [places, List.mem_append] at hx ⊢
        exact hx.imp_left .inl
      have := (hk.accounted.of_places hpl).1
      have := hk.accounted.length
      exact absurd hid (by simp only; omega)
  | runWork depth hwk hd =>
    intro x hx hxd p hp hpd hn hid hdue
    simp only [List.map_append, List.map_cons, List.map_nil, List.mem_append, List.mem_singleton] at hx
    obtain (hx | rfl) | hx := hx
    · exact hmono (h x (List.mem_append_left _ hx) hxd p hp hpd hn hid hdue)
    · exact absurd hxd hd
    · exact hmono (h x (List.mem_append_right _ hx) hxd p hp hpd hn hid hdue)
  | deferWork hwk hd =>
    intro x hx hxd p hp hpd hn hid hdue
    rw [← List.append_assoc, List.mem_append, List.mem_singleton] at hx
    obtain hx | rfl := hx
    · exact h x hx hxd p hp hpd hn hid hdue
    · exact absurd hxd hd
  | runDelayed depth hp' =>
    intro x hx hxd p hp hpd hn hid hdue
    simp only [List.map_append, List.map_cons, List.map_nil, List.mem_append, List.mem_singleton] at hx
    obtain (hx | rfl) | hx := hx
    · exact hmono (h x (List.mem_append_left _ hx) hxd p hp hpd hn hid hdue)
    · exact hmono (hk.ran_of_pop hw hp' hp hpd hn hid hdue)
    · exact hmono (h x (List.mem_append_right _ hx) hxd p hp hpd hn hid hdue)
  | deferDelayed hp' =>
    intro x hx hxd p hp hpd hn hid hdue
    rw [← List.append_assoc, List.mem_append, List.mem_singleton] at hx
    obtain hx | rfl := hx
    · exact h x hx hxd p hp hpd hn hid hdue
    · exact hk.ran_of_pop hw hp' hp hpd hn hid hdue
  | runDeferred hp' =>
    intro x hx hxd p hp hpd hn hid hdue
    refine hmono (h x ?_ hxd p hp hpd hn hid hdue)
    rw [hp']
    simpa [or_assoc] using hx

end Queues
end OscDataProcess
