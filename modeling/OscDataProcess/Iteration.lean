import Mathlib.Data.List.Forall2
import OscDataProcess.GuardedRun
import OscDataProcess.ObserverList

/-!
# Iterating over a list that changes

Any number of `ObserverListBase::Iterator`s under way on one list, nested or not, with
either notification type, while `AddObserver`, `RemoveObserver`, `Clear` and the
destructor of the list itself are called in between.
-/
namespace OscDataProcess

/-- `ObserverListBase::NotificationType`. -/
inductive NotificationType
  | notifyAll
  | notifyExistingOnly
  deriving DecidableEq, Repr

namespace ObserverList

variable {α : Type}

/-- `ObserverListBase::Iterator`; with NOTIFY_ALL there is no `max_index_`. -/
structure Iterator where
  index : Nat
  maxIndex : Option Nat
  deriving DecidableEq, Repr

/-- `Iterator::Iterator`, without its effect on the list. -/
def iterator (l : ObserverList α) : NotificationType → Iterator
  | .notifyAll => ⟨0, none⟩
  | .notifyExistingOnly => ⟨0, some l.observers.length⟩

/-- The `max_index` that `GetNext` works with. -/
def Iterator.bound (it : Iterator) (l : ObserverList α) : Nat :=
  it.maxIndex.elim l.observers.length (min · l.observers.length)

theorem Iterator.bound_le (it : Iterator) (l : ObserverList α) : it.bound l ≤ l.observers.length := by
  unfold Iterator.bound
  cases it.maxIndex with
  | none => exact Nat.le_refl _
  | some m => exact Nat.min_le_right ..

/-- `Iterator::GetNext`, and the iterator after it. -/
def Iterator.getNext (it : Iterator) (l : ObserverList α) : Option α × Iterator :=
  match scan ((l.observers.take (it.bound l)).drop it.index) it.index with
  | some (obs, next) => (some obs, { it with index := next })
  | none => (none, { it with index := max it.index (it.bound l) })

theorem Iterator.getNext_cases (it : Iterator) (l : ObserverList α) :
    (∃ obs next, scan ((l.observers.take (it.bound l)).drop it.index) it.index = some (obs, next) ∧
      it.getNext l = (some obs, { it with index := next })) ∨
    (scan ((l.observers.take (it.bound l)).drop it.index) it.index = none ∧
      it.getNext l = (none, { it with index := max it.index (it.bound l) })) := by
  unfold getNext
  split
  · rename_i obs next hscan
    exact .inl ⟨obs, next, hscan, rfl⟩
  · rename_i hscan
    exact .inr ⟨hscan, rfl⟩

def clear (l : ObserverList α) : ObserverList α :=
  if h : l.notifyDepth ≠ 0 then
    ⟨l.observers.map fun _ => none, l.notifyDepth,
      by rw [List.map_const', List.reduceOption_replicate_none]; exact List.nodup_nil, fun h' => absurd h' h⟩
  else ⟨[], l.notifyDepth, List.nodup_nil, by simp⟩

@[simp] theorem notifyDepth_clear (l : ObserverList α) : l.clear.notifyDepth = l.notifyDepth := by
  unfold clear
  split <;> rfl

/-- With NOTIFY_ALL an iterator finds what the list has at or after its index. -/
theorem getNext_notifyAll (l : ObserverList α) (index : Nat) :
    (Iterator.getNext ⟨index, none⟩ l).1 = (l.getNext index).map Prod.fst := by
  simp only [Iterator.getNext, Iterator.bound, Option.elim_none, List.take_length, getNext]
  split <;> simp [*]

/-- The slots that have been gone past when the scan finds an observer. -/
theorem take_of_scan {slots : List (Option α)} {index next : Nat} {obs : α}
    (h : scan (slots.drop index) index = some (obs, next)) :
    index < next ∧ next ≤ slots.length ∧ slots[next - 1]? = some (some obs) ∧
      (slots.take next).reduceOption = (slots.take index).reduceOption ++ [obs] := by
  obtain ⟨k, rfl, hl⟩ := scan_eq_some h
  have hat : (slots.drop index)[k]? = some (some obs) := by
    rw [hl, List.getElem?_append_right (by simp), List.length_replicate, Nat.sub_self, List.getElem?_cons_zero]
  rw [List.getElem?_drop] at hat
  have hlt := (List.getElem?_eq_some_iff.mp hat).1
  refine ⟨by omega, hlt, hat, ?_⟩
  rw [Nat.add_assoc, List.take_add, hl, List.append_cons, List.take_left' (by simp), List.reduceOption_append,
    List.reduceOption_append, List.reduceOption_replicate_none]
  rfl

end ObserverList

/-! ### Slots that fade -/

/-- A slot is as it was filled, or NULL by now. -/
def Faded {α : Type} (now once : Option α) : Prop := now = none ∨ now = once

section Faded

variable {α : Type} {now once : List (Option α)}

theorem forall₂_faded_refl (slots : List (Option α)) : List.Forall₂ Faded slots slots :=
  List.forall₂_same.mpr fun _ _ => .inr rfl

theorem forall₂_faded_append (h : List.Forall₂ Faded now once) (slot : Option α) :
    List.Forall₂ Faded (now ++ [slot]) (once ++ [slot]) :=
  List.rel_append h (.cons (.inr rfl) .nil)

theorem forall₂_faded_replace [DecidableEq α] (h : List.Forall₂ Faded now once) (obs : α) :
    List.Forall₂ Faded (now.replace (some obs) none) once := by
  induction h with
  | nil => exact .nil
  | @cons x y xs ys hxy ht ih =>
    rw [List.replace_cons]
    split
    · exact .cons (.inl rfl) ht
    · exact .cons hxy ih

theorem forall₂_faded_clear (h : List.Forall₂ Faded now once) :
    List.Forall₂ Faded (now.map fun _ => (none : Option α)) once := by
  induction h with
  | nil => exact .nil
  | cons _ _ ih => exact .cons (.inl rfl) ih

/-- What a slot holds now it was filled with. -/
theorem getElem?_faded (h : List.Forall₂ Faded now once) {i : Nat} {obs : α} (hi : now[i]? = some (some obs)) :
    once[i]? = some (some obs) := by
  induction h generalizing i with
  | nil => cases hi
  | @cons x y xs ys hxy _ ih =>
    cases i with
    | zero =>
      obtain rfl : x = some obs := by simpa using hi
      obtain hx | rfl := hxy
      · cases hx
      · rfl
    | succ i => exact ih hi

end Faded

/-! ### The machine -/

/-- What became of the list and what `GetNext` returned since an iterator was made. -/
structure IterationLog (α : Type) where
  /-- The observers there were then. -/
  existing : List α
  /-- Those of them that have not been removed since. -/
  stayed : List α
  /-- Those of them and the ones that were added since. -/
  entered : List α
  visited : List α
  deriving DecidableEq, Repr

/-- An observer list with the iterators made on it. -/
structure Iteration (α : Type) where
  type : NotificationType
  /-- None once it has been destroyed: the weak pointers of the iterators are NULL then. -/
  list : Option (ObserverList α)
  /-- In the order they were made; none once it has been destroyed. -/
  iterators : List (Option (ObserverList.Iterator × IterationLog α))
  deriving DecidableEq, Repr

namespace Iteration

open GuardedRun (Reaches)
open ObserverList (Iterator)

variable {α : Type}

inductive Event (α : Type)
  | makeIterator
  | getNext (i : Nat)
  | destroyIterator (i : Nat)
  | addObserver (obs : α)
  | removeObserver (obs : α)
  | clear
  | destroy
  deriving DecidableEq, Repr

def initial (type : NotificationType) : Iteration α := ⟨type, some .empty, []⟩

/-- The iterator that was made after `i` others, as long as it has not been destroyed. -/
def iterator (s : Iteration α) (i : Nat) : Option (Iterator × IterationLog α) := s.iterators[i]?.join

/-- How many iterators there are. -/
def alive (s : Iteration α) : Nat := s.iterators.countP Option.isSome

def mapLogs (s : Iteration α) (f : IterationLog α → IterationLog α) : List (Option (Iterator × IterationLog α)) :=
  s.iterators.map (Option.map (Prod.map id f))

def step [DecidableEq α] (s : Iteration α) : Event α → Option (Iteration α)
  | .makeIterator =>
    s.list.map fun l =>
      { s with
        list := some l.beginNotify
        iterators := s.iterators ++ [some (l.iterator s.type, ⟨l.members, l.members, l.members, []⟩)] }
  | .getNext i =>
    match s.iterator i with
    | none => none
    | some (it, log) =>
      match s.list with
      | none => some s
      | some l =>
        let (obs, next) := it.getNext l
        some { s with iterators := s.iterators.set i (some (next, { log with visited := log.visited ++ obs.toList })) }
  | .destroyIterator i =>
    (s.iterator i).map fun _ =>
      { s with list := s.list.map (·.endNotify), iterators := s.iterators.set i none }
  | .addObserver obs =>
    s.list.map fun l =>
      { s with
        list := some (l.addObserver obs)
        iterators := s.mapLogs fun log =>
          { log with entered := if l.hasObserver obs then log.entered else log.entered ++ [obs] } }
  | .removeObserver obs =>
    s.list.map fun l =>
      { s with
        list := some (l.removeObserver obs)
        iterators := s.mapLogs fun log => { log with stayed := log.stayed.erase obs } }
  | .clear =>
    s.list.map fun l =>
      { s with list := some l.clear, iterators := s.mapLogs fun log => { log with stayed := [] } }
  | .destroy => s.list.map fun _ => { s with list := none }

/-! ### Invariant -/

/-- What the log says about the visits whatever becomes of the list. -/
structure Sound [DecidableEq α] (type : NotificationType) (log : IterationLog α) : Prop where
  entered : log.visited.Sublist log.entered
  existing : type = .notifyExistingOnly → log.visited.Sublist log.existing
  unique : log.existing.Nodup
  once : ∀ obs ∈ log.stayed, log.entered.count obs = 1

/-- How the slots of the list stand to an iterator that was made when it had `size` of
them; `slots` are these and the ones added since, as they were filled. -/
structure Tracks (type : NotificationType) (l : ObserverList α) (it : Iterator) (log : IterationLog α)
    (slots : List (Option α)) (size : Nat) : Prop where
  faded : List.Forall₂ Faded l.observers slots
  size_le : size ≤ slots.length
  existing : (slots.take size).reduceOption = log.existing
  stayed : (l.observers.take size).reduceOption = log.stayed
  entered : slots.reduceOption = log.entered
  maxIndex : it.maxIndex = match type with
    | .notifyAll => none
    | .notifyExistingOnly => some size
  index_le : it.index ≤ it.bound l
  passed : (l.passed it.index).Sublist log.visited
  visited : log.visited.Sublist (slots.take it.index).reduceOption

variable {type : NotificationType} {l : ObserverList α} {it : Iterator} {log : IterationLog α}
  {slots : List (Option α)} {size : Nat}

namespace Tracks

theorem length_eq (h : Tracks type l it log slots size) : l.observers.length = slots.length := h.faded.length_eq

theorem bound_notifyExistingOnly (h : Tracks .notifyExistingOnly l it log slots size) : it.bound l = size := by
  rw [Iterator.bound, h.maxIndex, h.length_eq]
  exact Nat.min_eq_left h.size_le

theorem bound_notifyAll (h : Tracks .notifyAll l it log slots size) : it.bound l = l.observers.length := by
  rw [Iterator.bound, h.maxIndex]
  rfl

theorem size_le_bound (h : Tracks type l it log slots size) : size ≤ it.bound l := by
  cases type with
  | notifyAll =>
    rw [h.bound_notifyAll, h.length_eq]
    exact h.size_le
  | notifyExistingOnly => exact Nat.le_of_eq h.bound_notifyExistingOnly.symm

theorem visited_entered (h : Tracks type l it log slots size) : log.visited.Sublist log.entered := by
  rw [← h.entered]
  exact h.visited.trans (List.Sublist.filterMap _ (List.take_sublist ..))

theorem visited_existing (h : Tracks type l it log slots size) (ht : type = .notifyExistingOnly) :
    log.visited.Sublist log.existing := by
  subst ht
  rw [← h.existing]
  refine h.visited.trans (List.Sublist.filterMap _ (List.take_sublist_take_left ?_))
  exact Nat.le_trans h.index_le (Nat.le_of_eq h.bound_notifyExistingOnly)

/-- The slots of a new iterator. -/
theorem make (l : ObserverList α) :
    Tracks type l.beginNotify (l.iterator type) ⟨l.members, l.members, l.members, []⟩ l.observers
      l.observers.length := by
  refine ⟨forall₂_faded_refl _, Nat.le_refl _, ?_, ?_, rfl, ?_, ?_, ?_, List.nil_sublist _⟩
  · rw [List.take_length]; rfl
  · exact congrArg List.reduceOption List.take_length
  · cases type <;> rfl
  · cases type <;> exact Nat.zero_le _
  · cases type <;> exact List.Sublist.refl _

/-- Another iterator comes or goes. -/
theorem of_observers {l' : ObserverList α} (h : Tracks type l it log slots size)
    (ho : l'.observers = l.observers) : Tracks type l' it log slots size := by
  obtain ⟨hf, hsize, hex, hst, hen, hmax, hidx, hp, hv⟩ := h
  refine ⟨ho ▸ hf, hsize, hex, ?_, hen, hmax, ?_, ?_, hv⟩
  · rw [ho]; exact hst
  · rw [Iterator.bound, ho]; exact hidx
  · rw [ObserverList.passed, ho]; exact hp

/-- `GetNext` finds an observer. -/
theorem found (h : Tracks type l it log slots size) {obs : α} {next : Nat}
    (hs : ObserverList.scan ((l.observers.take (it.bound l)).drop it.index) it.index = some (obs, next)) :
    Tracks type l { it with index := next } { log with visited := log.visited ++ [obs] } slots size ∧
      obs ∈ (l.observers.take (it.bound l)).reduceOption := by
  obtain ⟨hlt, hle, hat, htake⟩ := ObserverList.take_of_scan hs
  have hle' : next ≤ it.bound l := by
    rw [List.length_take] at hle
    exact Nat.le_trans hle (Nat.min_le_left ..)
  rw [List.take_take, List.take_take, Nat.min_eq_left hle', Nat.min_eq_left h.index_le] at htake
  have hslot : slots[next - 1]? = some (some obs) := by
    refine getElem?_faded h.faded ?_
    rwa [List.getElem?_take_of_lt (by omega)] at hat
  refine ⟨⟨h.faded, h.size_le, h.existing, h.stayed, h.entered, h.maxIndex, hle', ?_, ?_⟩, ?_⟩
  · rw [ObserverList.passed, htake]
    exact h.passed.append (List.Sublist.refl _)
  · obtain ⟨k, rfl⟩ := Nat.exists_eq_add_of_lt hlt
    rw [Nat.add_sub_cancel] at hslot
    rw [List.take_add_one, hslot, Option.toList_some, List.reduceOption_append]
    refine List.Sublist.append ?_ (List.Sublist.refl _)
    exact h.visited.trans (List.Sublist.filterMap _ (List.take_sublist_take_left (by omega)))
  · exact List.reduceOption_mem_iff.mpr (List.mem_of_getElem? hat)

/-- `GetNext` finds nothing more. -/
theorem exhausted (h : Tracks type l it log slots size)
    (hs : ObserverList.scan ((l.observers.take (it.bound l)).drop it.index) it.index = none) :
    Tracks type l { it with index := max it.index (it.bound l) } log slots size ∧
      (l.observers.take (it.bound l)).reduceOption.Sublist log.visited := by
  have hrest := ObserverList.scan_eq_none hs
  have hall : (l.observers.take (it.bound l)).reduceOption = l.passed it.index := by
    rw [← List.take_append_drop it.index (l.observers.take (it.bound l)), List.reduceOption_append, hrest,
      List.append_nil, List.take_take, Nat.min_eq_left h.index_le]
    rfl
  rw [Nat.max_eq_right h.index_le]
  refine ⟨⟨h.faded, h.size_le, h.existing, h.stayed, h.entered, h.maxIndex, Nat.le_refl _, ?_, ?_⟩, hall ▸ h.passed⟩
  · rw [ObserverList.passed, hall]
    exact h.passed
  · exact h.visited.trans (List.Sublist.filterMap _ (List.take_sublist_take_left h.index_le))

theorem mem_stayed (h : Tracks type l it log slots size) {obs : α} (ho : obs ∈ log.stayed) : obs ∈ l.members := by
  rw [← h.stayed] at ho
  exact List.Sublist.mem ho (List.Sublist.filterMap _ (List.take_sublist ..))

/-- Slots fade, but none is moved. -/
theorem fade {l' : ObserverList α} {stayed : List α} (h : Tracks type l it log slots size)
    (hf : List.Forall₂ Faded l'.observers slots) (hst : (l'.observers.take size).reduceOption = stayed)
    (hp : (l'.passed it.index).Sublist (l.passed it.index)) :
    Tracks type l' it { log with stayed := stayed } slots size := by
  refine ⟨hf, h.size_le, h.existing, hst, h.entered, h.maxIndex, ?_, hp.trans h.passed, h.visited⟩
  rw [Iterator.bound, hf.length_eq, ← h.length_eq]
  exact h.index_le

/-- `Clear`. -/
theorem clear (h : Tracks type l it log slots size) (hd : l.notifyDepth ≠ 0) :
    Tracks type l.clear it { log with stayed := [] } slots size := by
  have hslots : l.clear.observers = l.observers.map fun _ => none := by rw [ObserverList.clear, dif_pos hd]
  have hnone : ∀ n, (l.clear.observers.take n).reduceOption = [] := by
    intro n
    rw [hslots, ← List.map_take, List.map_const', List.reduceOption_replicate_none]
  refine h.fade (hslots ▸ forall₂_faded_clear h.faded) (hnone size) ?_
  rw [ObserverList.passed, hnone]
  exact List.nil_sublist _

variable [DecidableEq α]

/-- `AddObserver`, of an observer that is not in the list. -/
theorem add (h : Tracks type l it log slots size) {obs : α} (ho : some obs ∉ l.observers) :
    Tracks type (l.addObserver obs) it { log with entered := log.entered ++ [obs] } (slots ++ [some obs]) size := by
  have hslots : (l.addObserver obs).observers = l.observers ++ [some obs] := by
    rw [ObserverList.addObserver, dif_neg ho]
  have hlen := h.length_eq
  have hsize := h.size_le
  have hbound : it.bound l ≤ it.bound (l.addObserver obs) := by
    rw [Iterator.bound, Iterator.bound, hslots, List.length_append, h.maxIndex]
    cases type with
    | notifyAll => exact Nat.le_add_right ..
    | notifyExistingOnly => rw [Option.elim_some, Option.elim_some]; omega
  have hindex := Nat.le_trans h.index_le (it.bound_le l)
  refine ⟨hslots ▸ forall₂_faded_append h.faded _, ?_, ?_, ?_, ?_, h.maxIndex, Nat.le_trans h.index_le hbound, ?_, ?_⟩
  · rw [List.length_append]; omega
  · rw [List.take_append_of_le_length hsize]; exact h.existing
  · rw [hslots, List.take_append_of_le_length (hlen ▸ hsize)]; exact h.stayed
  · rw [List.reduceOption_append, h.entered]; rfl
  · rw [ObserverList.passed, hslots, List.take_append_of_le_length hindex]; exact h.passed
  · rw [List.take_append_of_le_length (hlen ▸ hindex)]; exact h.visited

/-- `RemoveObserver`. -/
theorem remove (h : Tracks type l it log slots size) (hd : l.notifyDepth ≠ 0) (obs : α) :
    Tracks type (l.removeObserver obs) it { log with stayed := log.stayed.erase obs } slots size := by
  refine h.fade ?_ ?_ ?_
  · unfold ObserverList.removeObserver
    split
    · exact forall₂_faded_replace h.faded obs
    · exact h.faded
  · rw [← h.stayed]
    exact ObserverList.passed_removeObserver hd size
  · rw [ObserverList.passed_removeObserver hd]
    exact List.erase_sublist

end Tracks

variable {s s' : Iteration α}

theorem alive_pos {i : Nat} {x : Iterator × IterationLog α} (hi : s.iterator i = some x) : 0 < s.alive :=
  List.countP_pos_iff.mpr ⟨some x, List.mem_of_getElem? (Option.join_eq_some_iff.mp hi), rfl⟩

/-- Every log takes note of something. -/
theorem iterator_mapLogs {f : IterationLog α → IterationLog α} (hs : s'.iterators = s.mapLogs f) (i : Nat) :
    s'.iterator i = (s.iterator i).map (Prod.map id f) := by
  rw [iterator, iterator, hs, mapLogs, List.getElem?_map]
  cases s.iterators[i]? with
  | none => rfl
  | some o => rfl

theorem alive_mapLogs {f : IterationLog α → IterationLog α} (hs : s'.iterators = s.mapLogs f) : s'.alive = s.alive := by
  rw [alive, alive, hs, mapLogs, List.countP_map]
  exact List.countP_congr fun o _ => by simp

/-- One iterator goes on. -/
theorem iterator_set {i : Nat} {x y : Iterator × IterationLog α} (hi : s.iterator i = some x)
    (hs : s'.iterators = s.iterators.set i (some y)) (j : Nat) :
    s'.iterator j = if i = j then some y else s.iterator j := by
  have hlt := (List.getElem?_eq_some_iff.mp (Option.join_eq_some_iff.mp hi)).1
  rw [iterator, iterator, hs, List.getElem?_set, if_pos hlt]
  split <;> rfl

theorem alive_set {i : Nat} {x y : Iterator × IterationLog α} (hi : s.iterator i = some x)
    (hs : s'.iterators = s.iterators.set i (some y)) : s'.alive = s.alive := by
  have hpos := alive_pos hi
  obtain ⟨hlt, hat⟩ := List.getElem?_eq_some_iff.mp (Option.join_eq_some_iff.mp hi)
  rw [alive, hs, List.countP_set hlt, hat]
  simp only [Option.isSome_some, if_true]
  exact Nat.sub_add_cancel hpos

/-- One iterator is destroyed. -/
theorem iterator_unset {i : Nat} (hs : s'.iterators = s.iterators.set i none) (j : Nat) :
    s'.iterator j = if i = j then none else s.iterator j := by
  rw [iterator, iterator, hs, List.getElem?_set]
  split
  · split <;> rfl
  · rfl

theorem alive_unset {i : Nat} {x : Iterator × IterationLog α} (hi : s.iterator i = some x)
    (hs : s'.iterators = s.iterators.set i none) : s'.alive = s.alive - 1 := by
  obtain ⟨hlt, hat⟩ := List.getElem?_eq_some_iff.mp (Option.join_eq_some_iff.mp hi)
  rw [alive, hs, List.countP_set hlt, hat]
  rfl

variable [DecidableEq α]

/-- What holds of an iterator that has not been destroyed. -/
structure Follows (type : NotificationType) (list : Option (ObserverList α)) (it : Iterator)
    (log : IterationLog α) : Prop where
  sound : Sound type log
  tracks : ∀ l, list = some l → ∃ slots size, Tracks type l it log slots size

/-- Every iterator is counted in `notify_depth_` and keeps track of the list. -/
structure Kept (s : Iteration α) : Prop where
  depth : ∀ l, s.list = some l → l.notifyDepth = s.alive
  follows : ∀ i it log, s.iterator i = some (it, log) → Follows s.type s.list it log

/-- An iterator that moves on, or whose list changes, has to keep track only. -/
theorem Follows.of_tracks {log' : IterationLog α} (hs : Sound type log) (ht : Tracks type l it log' slots size)
    (hex : log'.existing = log.existing) (honce : ∀ obs ∈ log'.stayed, log'.entered.count obs = 1) :
    Follows type (some l) it log' :=
  ⟨⟨ht.visited_entered, ht.visited_existing, hex ▸ hs.unique, honce⟩, fun _ h => Option.some.inj h ▸ ⟨slots, size, ht⟩⟩

theorem follows_make (l : ObserverList α) :
    Follows type (some l.beginNotify) (l.iterator type) ⟨l.members, l.members, l.members, []⟩ := by
  refine ⟨⟨List.nil_sublist _, fun _ => List.nil_sublist _, l.nodup_members, fun obs ho => ?_⟩, fun _ h =>
    Option.some.inj h ▸ ⟨_, _, Tracks.make l⟩⟩
  exact List.count_eq_one_of_mem l.nodup_members ho

theorem Follows.getNext (h : Follows type (some l) it log) :
    Follows type (some l) (it.getNext l).2 { log with visited := log.visited ++ (it.getNext l).1.toList } := by
  obtain ⟨slots, size, ht⟩ := h.tracks l rfl
  obtain ⟨obs, next, hscan, hnext⟩ | ⟨hscan, hnext⟩ := it.getNext_cases l
  · rw [hnext]
    exact .of_tracks h.sound (ht.found hscan).1 rfl h.sound.once
  · rw [hnext, Option.toList_none, List.append_nil]
    exact .of_tracks h.sound (ht.exhausted hscan).1 rfl h.sound.once

theorem Follows.of_observers {l' : ObserverList α} (h : Follows type (some l) it log)
    (ho : l'.observers = l.observers) : Follows type (some l') it log := by
  obtain ⟨slots, size, ht⟩ := h.tracks l rfl
  exact .of_tracks h.sound (ht.of_observers ho) rfl h.sound.once

theorem Follows.add (h : Follows type (some l) it log) (obs : α) :
    Follows type (some (l.addObserver obs)) it
      { log with entered := if l.hasObserver obs then log.entered else log.entered ++ [obs] } := by
  obtain ⟨slots, size, ht⟩ := h.tracks l rfl
  by_cases ho : some obs ∈ l.observers
  · have hsame : l.addObserver obs = l := by rw [ObserverList.addObserver, dif_pos ho]
    rw [ObserverList.hasObserver, decide_eq_true ho, if_pos rfl, hsame]
    exact h
  · rw [ObserverList.hasObserver, decide_eq_false ho, if_neg Bool.false_ne_true]
    refine .of_tracks h.sound (ht.add ho) rfl fun x hx => ?_
    have hne : x ≠ obs := fun he => ho (ObserverList.mem_members.mp (he ▸ ht.mem_stayed hx))
    rw [List.count_append, h.sound.once x hx, List.count_singleton, if_neg (by simpa using Ne.symm hne)]

theorem Follows.remove (h : Follows type (some l) it log) (hd : l.notifyDepth ≠ 0) (obs : α) :
    Follows type (some (l.removeObserver obs)) it { log with stayed := log.stayed.erase obs } := by
  obtain ⟨slots, size, ht⟩ := h.tracks l rfl
  exact .of_tracks h.sound (ht.remove hd obs) rfl fun x hx => h.sound.once x (List.mem_of_mem_erase hx)

theorem Follows.clear (h : Follows type (some l) it log) (hd : l.notifyDepth ≠ 0) :
    Follows type (some l.clear) it { log with stayed := [] } := by
  obtain ⟨slots, size, ht⟩ := h.tracks l rfl
  exact .of_tracks h.sound (ht.clear hd) rfl nofun

/-- The list changes and every log takes note of it. -/
theorem Kept.of_mapLogs {l' : ObserverList α} {f : IterationLog α → IterationLog α} (hk : Kept s)
    (hl : s.list = some l) (hd : l'.notifyDepth = l.notifyDepth)
    (hf : ∀ it log, l.notifyDepth ≠ 0 → Follows s.type (some l) it log → Follows s.type (some l') it (f log)) :
    Kept { s with list := some l', iterators := s.mapLogs f } := by
  have hdepth := hk.depth l hl
  refine ⟨fun _ h => ?_, fun i it log hi => ?_⟩
  · rw [alive_mapLogs rfl, ← Option.some.inj h, hd, hdepth]
  · rw [iterator_mapLogs rfl] at hi
    obtain ⟨⟨it', log'⟩, hi', heq⟩ := Option.map_eq_some_iff.mp hi
    obtain ⟨rfl, rfl⟩ := Prod.mk.inj heq
    exact hf it' log' (hdepth ▸ Nat.pos_iff_ne_zero.mp (alive_pos hi')) (hl ▸ hk.follows i it' log' hi')

theorem Kept.step {e : Event α} (hk : Kept s) (he : step s e = some s') : Kept s' ∧ s'.type = s.type := by
  cases e with
  | makeIterator =>
    obtain ⟨l, hl, rfl⟩ := Option.map_eq_some_iff.mp he
    refine ⟨⟨fun _ h => ?_, fun j it log hj => ?_⟩, rfl⟩
    · rw [← Option.some.inj h, ObserverList.notifyDepth_beginNotify, hk.depth l hl, alive, alive, List.countP_append]
      rfl
    · rw [iterator, List.getElem?_append] at hj
      split at hj
      · exact (hl ▸ hk.follows j it log hj).of_observers rfl
      · obtain ⟨hone, hat⟩ := List.getElem?_eq_some_iff.mp (Option.join_eq_some_iff.mp hj)
        rw [List.getElem_singleton] at hat
        obtain ⟨rfl, rfl⟩ := Prod.mk.inj (Option.some.inj hat)
        exact follows_make l
  | getNext i =>
    simp only [Iteration.step] at he
    split at he
    · cases he
    · rename_i it log hi
      split at he
      · rw [Option.some.inj he] at hk ⊢
        exact ⟨hk, rfl⟩
      · rename_i l hl
        obtain rfl := Option.some.inj he
        refine ⟨⟨fun k h => ?_, fun j it' log' hj => ?_⟩, rfl⟩
        · rw [hk.depth k h]
          exact (alive_set hi rfl).symm
        · rw [iterator_set hi rfl] at hj
          split at hj
          · obtain ⟨rfl, rfl⟩ := Prod.mk.inj (Option.some.inj hj)
            have hnow := hk.follows i it log hi
            rw [hl] at hnow
            exact hl ▸ hnow.getNext
          · exact hk.follows j it' log' hj
  | destroyIterator i =>
    obtain ⟨x, hi, rfl⟩ := Option.map_eq_some_iff.mp he
    refine ⟨⟨fun k h => ?_, fun j it log hj => ?_⟩, rfl⟩
    · obtain ⟨l, hl, rfl⟩ := Option.map_eq_some_iff.mp h
      rw [ObserverList.notifyDepth_endNotify, hk.depth l hl]
      exact (alive_unset hi rfl).symm
    · -- `j` is left, so the list is not compacted
      have hleft := alive_pos hj
      rw [alive_unset hi rfl] at hleft
      rw [iterator_unset rfl] at hj
      split at hj
      · cases hj
      have hnow := hk.follows j it log hj
      cases hl : s.list with
      | none => exact ⟨hnow.sound, nofun⟩
      | some l =>
        rw [hl] at hnow
        have hd := hk.depth l hl
        exact hnow.of_observers (ObserverList.observers_endNotify (by omega))
  | addObserver obs =>
    obtain ⟨l, hl, rfl⟩ := Option.map_eq_some_iff.mp he
    exact ⟨hk.of_mapLogs hl (ObserverList.notifyDepth_addObserver l obs) fun _ _ _ h => h.add obs, rfl⟩
  | removeObserver obs =>
    obtain ⟨l, hl, rfl⟩ := Option.map_eq_some_iff.mp he
    exact ⟨hk.of_mapLogs hl (ObserverList.notifyDepth_removeObserver l obs) fun _ _ hd h => h.remove hd obs, rfl⟩
  | clear =>
    obtain ⟨l, hl, rfl⟩ := Option.map_eq_some_iff.mp he
    exact ⟨hk.of_mapLogs hl (ObserverList.notifyDepth_clear l) fun _ _ hd h => h.clear hd, rfl⟩
  | destroy =>
    obtain ⟨l, hl, rfl⟩ := Option.map_eq_some_iff.mp he
    exact ⟨⟨nofun, fun i it log hi => ⟨(hk.follows i it log hi).sound, nofun⟩⟩, rfl⟩

theorem kept_of_reaches (hr : Reaches step (fun _ _ => True) (initial type) s) : Kept s ∧ s.type = type := by
  refine hr.invariant (I := fun s => Kept s ∧ s.type = type) (fun s e t hk _ he => ?_) ⟨⟨?_, nofun⟩, rfl⟩
  · obtain ⟨hkept, htype⟩ := hk.1.step he
    exact ⟨hkept, htype.trans hk.2⟩
  · rintro l ⟨⟩
    rfl

/-- Whatever is done to the list and by other iterators, an iterator visits each observer at
most once unless it is removed and added again, in list order; when `GetNext` returns NULL it
has visited everyone who was there all along and, with NOTIFY_ALL, everyone who is there now.
With NOTIFY_EXISTING_ONLY it visits nobody who was added in the meantime. -/
theorem visits_of_reaches (hr : Reaches step (fun _ _ => True) (initial type) s) {i : Nat}
    (hi : s.iterator i = some (it, log)) :
    log.visited.Sublist log.entered ∧ (∀ obs ∈ log.stayed, log.visited.count obs ≤ 1) ∧
      (type = .notifyExistingOnly → log.visited.Sublist log.existing ∧ log.visited.Nodup) ∧
      ∀ l, s.list = some l → l.notifyDepth = s.alive ∧
        (∀ obs, (it.getNext l).1 = some obs → obs ∈ l.members ∧ (type = .notifyExistingOnly → obs ∈ log.stayed)) ∧
        ((it.getNext l).1 = none → log.stayed.Sublist log.visited ∧ (∀ obs ∈ log.stayed, log.visited.count obs = 1) ∧
          (type = .notifyAll → l.members.Sublist log.visited)) := by
  obtain ⟨hk, rfl⟩ := kept_of_reaches hr
  obtain ⟨hsound, htracks⟩ := hk.follows i it log hi
  have honce : ∀ obs ∈ log.stayed, log.visited.count obs ≤ 1 := fun obs ho =>
    hsound.once obs ho ▸ hsound.entered.count_le obs
  refine ⟨hsound.entered, honce, fun ht => ⟨hsound.existing ht, hsound.unique.sublist (hsound.existing ht)⟩,
    fun l hl => ⟨hk.depth l hl, ?_⟩⟩
  obtain ⟨slots, size, ht⟩ := htracks l hl
  obtain ⟨obs, next, hscan, hnext⟩ | ⟨hscan, hnext⟩ := it.getNext_cases l
  · rw [hnext]
    have hmem := (ht.found hscan).2
    refine ⟨fun _ h => Option.some.inj h ▸ ⟨?_, fun hexisting => ?_⟩, nofun⟩
    · exact List.Sublist.mem hmem (List.Sublist.filterMap _ (List.take_sublist ..))
    · rw [hexisting] at ht
      rwa [ht.bound_notifyExistingOnly, ht.stayed] at hmem
  · rw [hnext]
    have hall := (ht.exhausted hscan).2
    have hstayed : log.stayed.Sublist log.visited := by
      rw [← ht.stayed]
      exact (List.Sublist.filterMap _ (List.take_sublist_take_left ht.size_le_bound)).trans hall
    refine ⟨nofun, fun _ => ⟨hstayed, fun obs ho => ?_, fun hfull => ?_⟩⟩
    · have hpos := List.count_pos_iff.mpr (hstayed.mem ho)
      have hle := honce obs ho
      omega
    · rw [hfull] at ht
      rwa [ht.bound_notifyAll, List.take_length] at hall

/-- Observer 2 is removed and observer 4 added under the first iterator, a second one goes
through the list in between, and then everyone but observer 3 is removed. -/
theorem visits_of_reaches_nested : ∃ (s : Iteration Nat) (l : ObserverList Nat) (it : Iterator) (log : IterationLog Nat),
    s.list = some l ∧ (log.visited = [1, 3, 4] ∧ l.members = [3] ∧ (it.getNext l).1 = none) ∧
      log.stayed.Sublist log.visited ∧ (∀ obs ∈ log.stayed, log.visited.count obs = 1) ∧
        l.members.Sublist log.visited := by
  obtain ⟨s, hr, hs⟩ := GuardedRun.exists_of_execute step (fun _ _ => True) (initial .notifyAll)
    [.addObserver 1, .addObserver 2, .addObserver 3, .makeIterator, .getNext 0, .removeObserver 2, .addObserver 4,
      .makeIterator, .getNext 1, .getNext 1, .destroyIterator 1, .getNext 0, .getNext 0, .removeObserver 1,
      .removeObserver 4]
    (fun s : Iteration Nat => (s.iterator 0).any fun x : Iterator × IterationLog Nat =>
      s.list.any fun l : ObserverList Nat => decide (x.2.visited = [1, 3, 4] ∧ l.members = [3] ∧ (x.1.getNext l).1 = none)) (by decide)
  obtain ⟨⟨it, log⟩, hi, hs⟩ := (Option.any_eq_true ..).mp hs
  obtain ⟨l, hl, hs⟩ := (Option.any_eq_true ..).mp hs
  have hs := of_decide_eq_true hs
  obtain ⟨-, -, hend⟩ := (visits_of_reaches hr hi).2.2.2 l hl
  obtain ⟨hstayed, honce, hmembers⟩ := hend hs.2.2
  exact ⟨s, l, it, log, hl, hs, hstayed, honce, hmembers rfl⟩

end Iteration
end OscDataProcess
