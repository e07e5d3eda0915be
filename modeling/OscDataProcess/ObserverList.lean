import Mathlib.Data.List.ReduceOption
import Mathlib.Data.List.Nodup

/-!
# The observer container

`ObserverListBase<ObserverType>` of base/observer_list.h with the default
notification type `NOTIFY_ALL`. A NULL slot is `none`; the iterator's weak
pointer to the list is kept by the caller, which knows whether the owner of
the list is still alive.
-/
namespace OscDataProcess

/-- No observer has two slots, and slots are NULL only while some iterator is alive. -/
structure ObserverList (α : Type) where
  observers : List (Option α)
  notifyDepth : Nat
  unique : observers.reduceOption.Nodup
  settled : notifyDepth = 0 → none ∉ observers
  deriving DecidableEq, Repr

namespace ObserverList

variable {α : Type}

def empty : ObserverList α := ⟨[], 0, List.nodup_nil, by simp⟩

/-- The registered observers in list order. -/
def members (l : ObserverList α) : List α := l.observers.reduceOption

/-- The members in slots before `index`, which an iterator at `index` has gone past. -/
def passed (l : ObserverList α) (index : Nat) : List α := (l.observers.take index).reduceOption

/-- The members in slots from `index` on, which an iterator at `index` has still to visit. -/
def remaining (l : ObserverList α) (index : Nat) : List α := (l.observers.drop index).reduceOption

theorem passed_append_remaining (l : ObserverList α) (index : Nat) :
    l.passed index ++ l.remaining index = l.members := by
  rw [passed, remaining, ← List.reduceOption_append, List.take_append_drop, members]

theorem nodup_members (l : ObserverList α) : l.members.Nodup := l.unique

theorem nodup_remaining (l : ObserverList α) (index : Nat) : (l.remaining index).Nodup := by
  have hnd := l.nodup_members
  rw [← l.passed_append_remaining index] at hnd
  exact (List.nodup_append.mp hnd).2.1

theorem mem_members {l : ObserverList α} {obs : α} : obs ∈ l.members ↔ some obs ∈ l.observers :=
  List.reduceOption_mem_iff

@[simp] theorem passed_zero (l : ObserverList α) : l.passed 0 = [] := rfl

@[simp] theorem remaining_zero (l : ObserverList α) : l.remaining 0 = l.members := rfl

@[simp] theorem members_empty : (empty : ObserverList α).members = [] := rfl

@[simp] theorem notifyDepth_empty : (empty : ObserverList α).notifyDepth = 0 := rfl

def mightHaveObservers (l : ObserverList α) : Bool := decide (l.observers.length ≠ 0)

theorem members_of_not_mightHaveObservers {l : ObserverList α} (h : l.mightHaveObservers = false) :
    l.members = [] := by
  have hl : l.observers = [] := by simpa [mightHaveObservers] using h
  simp [members, hl]

/-- `Iterator::Iterator`. -/
def beginNotify (l : ObserverList α) : ObserverList α :=
  ⟨l.observers, l.notifyDepth + 1, l.unique, by simp⟩

@[simp] theorem members_beginNotify (l : ObserverList α) : l.beginNotify.members = l.members := rfl

@[simp] theorem remaining_beginNotify (l : ObserverList α) (index : Nat) :
    l.beginNotify.remaining index = l.remaining index := rfl

@[simp] theorem passed_beginNotify (l : ObserverList α) (index : Nat) :
    l.beginNotify.passed index = l.passed index := rfl

@[simp] theorem notifyDepth_beginNotify (l : ObserverList α) :
    l.beginNotify.notifyDepth = l.notifyDepth + 1 := rfl

theorem reduceOption_filter_isSome (l : List (Option α)) :
    (l.filter Option.isSome).reduceOption = l.reduceOption := by
  induction l with
  | nil => rfl
  | cons x xs ih => cases x <;> simp [ih]

def compact (l : ObserverList α) : ObserverList α :=
  ⟨l.observers.filter Option.isSome, l.notifyDepth,
    by rw [reduceOption_filter_isSome]; exact l.unique, by simp⟩

/-- `Iterator::~Iterator` with the list still alive. -/
def endNotify (l : ObserverList α) : ObserverList α :=
  if h : l.notifyDepth - 1 = 0 then { l.compact with notifyDepth := 0, settled := by simp [compact] }
  else { l with notifyDepth := l.notifyDepth - 1, settled := fun h' => absurd h' h }

@[simp] theorem notifyDepth_endNotify (l : ObserverList α) :
    l.endNotify.notifyDepth = l.notifyDepth - 1 := by
  unfold endNotify
  split
  · rename_i h
    exact h.symm
  · rfl

@[simp] theorem members_endNotify (l : ObserverList α) : l.endNotify.members = l.members := by
  unfold endNotify
  split
  · exact reduceOption_filter_isSome l.observers
  · rfl

/-- Slots move only when the last iterator dies. -/
theorem observers_endNotify {l : ObserverList α} (h : 1 < l.notifyDepth) :
    l.endNotify.observers = l.observers := by
  unfold endNotify
  rw [dif_neg (by omega)]

/-- The first observer at or after slot `index` of the given tail, and the slot after it. -/
def scan : List (Option α) → Nat → Option (α × Nat)
  | [], _ => none
  | some obs :: _, index => some (obs, index + 1)
  | none :: rest, index => scan rest (index + 1)

/-- `Iterator::GetNext` at `index_`, with the new `index_`. -/
def getNext (l : ObserverList α) (index : Nat) : Option (α × Nat) :=
  scan (l.observers.drop index) index

theorem scan_eq_none {l : List (Option α)} {index : Nat} (h : scan l index = none) :
    l.reduceOption = [] := by
  induction l generalizing index with
  | nil => rfl
  | cons x xs ih =>
    cases x with
    | none => exact ih h
    | some obs => cases h

theorem scan_eq_some {l : List (Option α)} {index next : Nat} {obs : α}
    (h : scan l index = some (obs, next)) :
    ∃ k, next = index + k + 1 ∧ l = List.replicate k none ++ some obs :: l.drop (k + 1) := by
  induction l generalizing index with
  | nil => cases h
  | cons x xs ih =>
    cases x with
    | none =>
      obtain ⟨k, hk, hl⟩ := ih h
      refine ⟨k + 1, by omega, ?_⟩
      rw [List.replicate_succ, List.cons_append, List.drop_succ_cons, ← hl]
    | some o =>
      obtain ⟨rfl, rfl⟩ := Prod.mk.inj (Option.some.inj h)
      exact ⟨0, rfl, by simp⟩

/-- At the end of the loop every member has been gone past. -/
theorem getNext_eq_none {l : ObserverList α} {index : Nat} (h : l.getNext index = none) :
    l.remaining index = [] := scan_eq_none h

/-- The loop visits the members in order. -/
theorem getNext_eq_some {l : ObserverList α} {index next : Nat} {obs : α}
    (h : l.getNext index = some (obs, next)) :
    l.remaining index = obs :: l.remaining next ∧ l.passed next = l.passed index ++ [obs] := by
  obtain ⟨k, rfl, hl⟩ := scan_eq_some h
  have hdrop : (l.observers.drop index).drop (k + 1) = l.observers.drop (index + k + 1) := by
    rw [List.drop_drop, Nat.add_assoc]
  rw [hdrop] at hl
  have hrep : (List.replicate k (none : Option α)).reduceOption = [] := List.reduceOption_replicate_none
  constructor
  · rw [remaining, hl, List.reduceOption_append, hrep, List.nil_append,
      List.reduceOption_cons_of_some, remaining]
  · have htake : l.observers.take (index + k + 1) =
        l.observers.take index ++ (List.replicate k none ++ [some obs]) := by
      rw [Nat.add_assoc, List.take_add, hl, List.append_cons, List.take_left' (by simp)]
    rw [passed, htake, List.reduceOption_append, List.reduceOption_append, hrep, passed]
    rfl

theorem mem_of_getNext {l : ObserverList α} {index next : Nat} {obs : α}
    (h : l.getNext index = some (obs, next)) : obs ∈ l.members := by
  rw [← l.passed_append_remaining index, (getNext_eq_some h).1]
  exact List.mem_append_right _ (List.mem_cons_self ..)

theorem getNext_of_remaining_nil {l : ObserverList α} {index : Nat} (h : l.remaining index = []) :
    l.getNext index = none := by
  cases hn : l.getNext index with
  | none => rfl
  | some p =>
    rw [(getNext_eq_some hn).1] at h
    cases h

theorem getNext_of_remaining_cons {l : ObserverList α} {index : Nat} {obs : α} {rest : List α}
    (h : l.remaining index = obs :: rest) :
    ∃ next, l.getNext index = some (obs, next) ∧ l.remaining next = rest := by
  cases hn : l.getNext index with
  | none =>
    rw [getNext_eq_none hn] at h
    cases h
  | some p =>
    rw [(getNext_eq_some hn).1] at h
    obtain ⟨rfl, rfl⟩ := List.cons.inj h
    exact ⟨_, rfl, rfl⟩

variable [DecidableEq α]

def hasObserver (l : ObserverList α) (obs : α) : Bool := decide (some obs ∈ l.observers)

/-- A second `AddObserver` of the same observer only runs into NOTREACHED. -/
def addObserver (l : ObserverList α) (obs : α) : ObserverList α :=
  if h : some obs ∈ l.observers then l
  else ⟨l.observers ++ [some obs], l.notifyDepth, by
    rw [List.reduceOption_append]
    refine List.nodup_append.mpr ⟨l.unique, by simp, ?_⟩
    rintro a ha b hb rfl
    obtain rfl : a = obs := by simpa using hb
    exact h (List.reduceOption_mem_iff.mp ha), by simpa using l.settled⟩

theorem reduceOption_replace (l : List (Option α)) (obs : α) :
    (l.replace (some obs) none).reduceOption = l.reduceOption.erase obs := by
  induction l with
  | nil => rfl
  | cons x xs ih =>
    cases x with
    | none => simpa [List.replace_cons] using ih
    | some o =>
      by_cases ho : o = obs
      · subst ho
        simp
      · have hne : (obs == o) = false := by simpa using Ne.symm ho
        simp [List.replace_cons, hne, ho, ih]

theorem reduceOption_erase (l : List (Option α)) (obs : α) :
    (l.erase (some obs)).reduceOption = l.reduceOption.erase obs := by
  induction l with
  | nil => rfl
  | cons x xs ih =>
    cases x with
    | none => simpa [List.erase_cons] using ih
    | some o =>
      by_cases ho : o = obs
      · subst ho
        simp
      · simp [ho, ih]

/-- While some iterator is alive the slot is nulled, otherwise it is erased. -/
def removeObserver (l : ObserverList α) (obs : α) : ObserverList α :=
  if some obs ∈ l.observers then
    if h : l.notifyDepth ≠ 0 then
      ⟨l.observers.replace (some obs) none, l.notifyDepth,
        by rw [reduceOption_replace]; exact l.unique.erase obs, fun h' => absurd h' h⟩
    else
      ⟨l.observers.erase (some obs), l.notifyDepth,
        by rw [reduceOption_erase]; exact l.unique.erase obs,
        fun h' hm => l.settled h' (List.mem_of_mem_erase hm)⟩
  else l

@[simp] theorem notifyDepth_addObserver (l : ObserverList α) (obs : α) :
    (l.addObserver obs).notifyDepth = l.notifyDepth := by
  unfold addObserver
  split <;> rfl

@[simp] theorem notifyDepth_removeObserver (l : ObserverList α) (obs : α) :
    (l.removeObserver obs).notifyDepth = l.notifyDepth := by
  unfold removeObserver
  split
  · split <;> rfl
  · rfl

theorem members_addObserver (l : ObserverList α) (obs : α) :
    (l.addObserver obs).members = if obs ∈ l.members then l.members else l.members ++ [obs] := by
  unfold addObserver
  by_cases h : some obs ∈ l.observers
  · rw [dif_pos h, if_pos (mem_members.mpr h)]
  · rw [dif_neg h, if_neg (fun hm => h (mem_members.mp hm))]
    simp [members, List.reduceOption_append]

theorem mem_addObserver {l : ObserverList α} {obs x : α} :
    x ∈ (l.addObserver obs).members ↔ x = obs ∨ x ∈ l.members := by
  rw [members_addObserver]
  split
  · rename_i h
    exact ⟨.inr, fun hx => hx.elim (fun he => he ▸ h) id⟩
  · simp [or_comm]

theorem members_removeObserver (l : ObserverList α) (obs : α) :
    (l.removeObserver obs).members = l.members.erase obs := by
  unfold removeObserver
  split
  · split
    · exact reduceOption_replace l.observers obs
    · exact reduceOption_erase l.observers obs
  · rename_i h
    rw [List.erase_of_not_mem (fun hm => h (mem_members.mp hm))]

theorem mem_removeObserver {l : ObserverList α} {obs x : α} :
    x ∈ (l.removeObserver obs).members ↔ x ≠ obs ∧ x ∈ l.members := by
  rw [members_removeObserver]
  exact l.unique.mem_erase_iff

/-- A new observer comes last, also for an iterator that is already under way. -/
theorem passed_addObserver_subset {l : ObserverList α} {obs : α} {index : Nat} {x : α}
    (hx : x ∈ (l.addObserver obs).passed index) : x = obs ∨ x ∈ l.passed index := by
  unfold addObserver at hx
  split at hx
  · exact .inr hx
  · simp only [passed, List.take_append, List.reduceOption_append, List.mem_append] at hx
    obtain hx | hx := hx
    · exact .inr hx
    · have hm := List.mem_of_mem_take (List.reduceOption_mem_iff.mp hx)
      exact .inl (by simpa using hm)

theorem passed_subset_addObserver {l : ObserverList α} {obs : α} {index : Nat} {x : α}
    (hx : x ∈ l.passed index) : x ∈ (l.addObserver obs).passed index := by
  unfold addObserver
  split
  · exact hx
  · simp only [passed, List.take_append, List.reduceOption_append, List.mem_append]
    exact .inl hx

/-- `AddObserver` leaves every member on its side of an iterator. -/
theorem mem_passed_addObserver {l : ObserverList α} {obs : α} {index : Nat} {x : α}
    (hm : x ∈ l.members) : x ∈ (l.addObserver obs).passed index ↔ x ∈ l.passed index := by
  refine ⟨fun hx => ?_, passed_subset_addObserver⟩
  obtain rfl | hp := passed_addObserver_subset hx
  · rwa [addObserver, dif_pos (mem_members.mp hm)] at hx
  · exact hp

theorem length_remaining_addObserver_le (l : ObserverList α) (obs : α) (index : Nat) :
    ((l.addObserver obs).remaining index).length ≤ (l.remaining index).length + 1 := by
  unfold addObserver
  split
  · exact Nat.le_succ _
  · simp only [remaining, List.drop_append, List.reduceOption_append, List.length_append]
    have hone := List.reduceOption_length_le ([some obs].drop (index - l.observers.length))
    have hdrop : ([some obs].drop (index - l.observers.length)).length ≤ 1 := by simp
    omega

/-- Nulling a slot keeps every other observer on its side of an iterator. -/
theorem passed_removeObserver {l : ObserverList α} {obs : α} (h : l.notifyDepth ≠ 0) (index : Nat) :
    (l.removeObserver obs).passed index = (l.passed index).erase obs := by
  unfold removeObserver
  split
  · rw [passed, passed, ← reduceOption_replace]
    exact congrArg List.reduceOption List.replace_take.symm
  · rename_i hn
    refine (List.erase_of_not_mem fun hm => hn ?_).symm
    exact List.mem_of_mem_take (List.reduceOption_mem_iff.mp hm)

theorem remaining_removeObserver {l : ObserverList α} {obs : α} (h : l.notifyDepth ≠ 0) (index : Nat) :
    (l.removeObserver obs).remaining index = (l.remaining index).erase obs := by
  have hpr := (l.removeObserver obs).passed_append_remaining index
  rw [passed_removeObserver h, members_removeObserver, ← l.passed_append_remaining index] at hpr
  by_cases hm : obs ∈ l.passed index
  · rw [List.erase_append_left _ hm] at hpr
    have hnd := l.nodup_members
    rw [← l.passed_append_remaining index] at hnd
    have hnot : obs ∉ l.remaining index := fun hr => (List.nodup_append.mp hnd).2.2 obs hm obs hr rfl
    rw [List.erase_of_not_mem hnot]
    exact List.append_cancel_left hpr
  · rw [List.erase_append_right _ hm, List.erase_of_not_mem hm] at hpr
    exact List.append_cancel_left hpr

def removeObservers (l : ObserverList α) (obs : List α) : ObserverList α := obs.foldl removeObserver l

@[simp] theorem removeObservers_nil (l : ObserverList α) : l.removeObservers [] = l := rfl

@[simp] theorem removeObservers_cons (l : ObserverList α) (o : α) (obs : List α) :
    l.removeObservers (o :: obs) = (l.removeObserver o).removeObservers obs := rfl

@[simp] theorem notifyDepth_removeObservers (l : ObserverList α) (obs : List α) :
    (l.removeObservers obs).notifyDepth = l.notifyDepth := by
  induction obs generalizing l with
  | nil => rfl
  | cons o obs ih => rw [removeObservers_cons, ih, notifyDepth_removeObserver]

/-- What an iterator has still to visit after some observers were taken off. -/
theorem remaining_removeObservers {l : ObserverList α} (h : l.notifyDepth ≠ 0) (obs : List α)
    (index : Nat) : (l.removeObservers obs).remaining index = (l.remaining index).filter (· ∉ obs) := by
  induction obs generalizing l with
  | nil => simp
  | cons o obs ih =>
    rw [removeObservers_cons, ih (by simpa using h), remaining_removeObserver h,
      (l.nodup_remaining index).erase_eq_filter, List.filter_filter]
    refine List.filter_congr fun x _ => ?_
    simp [Bool.and_comm, not_or, bne, beq_eq_decide]

end ObserverList
end OscDataProcess
