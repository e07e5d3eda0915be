import Mathlib.Algebra.Order.Group.Nat
import Mathlib.Algebra.GroupWithZero.Nat
import Mathlib.Data.List.Perm.Basic

/-!
# Priority queues and serial numbers that wrap

A priority queue is the list of its entries in the order of insertion; the entry on top
is one that no other must come before. Entries that would tie are told apart by a serial
number of `w` bits, compared by the sign of the difference in two's complement, so that the
comparison goes on working when the counter rolls over.
-/
namespace DelayQueue

variable {α κ : Type} {before : α → α → Bool}

/-- The entry on top and the entries below it. -/
def pop (before : α → α → Bool) : List α → Option (α × List α)
  | [] => none
  | a :: q =>
    match pop before q with
    | none => some (a, [])
    | some (b, rest) => if before b a then some (b, a :: rest) else some (a, q)

@[simp] theorem pop_nil : pop before ([] : List α) = none := rfl

theorem pop_eq_none {q : List α} : pop before q = none ↔ q = [] := by
  cases q with
  | nil => simp
  | cons a q =>
    simp only [pop, reduceCtorEq, iff_false]
    split
    · simp
    · split <;> simp

/-- One entry is taken out and the order of the others is kept. -/
theorem pop_split {q rest : List α} {a : α} (h : pop before q = some (a, rest)) :
    ∃ l₁ l₂, q = l₁ ++ a :: l₂ ∧ rest = l₁ ++ l₂ := by
  induction q generalizing a rest with
  | nil => cases h
  | cons b q ih =>
    simp only [pop] at h
    split at h
    · rename_i hq
      obtain ⟨rfl, rfl⟩ := Prod.mk.inj (Option.some.inj h)
      exact ⟨[], [], by simp [pop_eq_none.mp hq], rfl⟩
    · rename_i c below hq
      split at h
      · obtain ⟨rfl, rfl⟩ := Prod.mk.inj (Option.some.inj h)
        obtain ⟨l₁, l₂, rfl, rfl⟩ := ih hq
        exact ⟨b :: l₁, l₂, rfl, rfl⟩
      · obtain ⟨rfl, rfl⟩ := Prod.mk.inj (Option.some.inj h)
        exact ⟨[], q, rfl, rfl⟩

theorem pop_perm {q rest : List α} {a : α} (h : pop before q = some (a, rest)) : q.Perm (a :: rest) := by
  obtain ⟨l₁, l₂, rfl, rfl⟩ := pop_split h
  exact List.perm_middle

theorem pop_mem {q rest : List α} {a : α} (h : pop before q = some (a, rest)) : a ∈ q :=
  (pop_perm h).mem_iff.mpr (List.mem_cons_self ..)

/-- Where the comparison follows a key, no entry has a smaller key than the one on top. -/
theorem pop_le [LinearOrder κ] (key : α → κ) {q rest : List α} {a : α}
    (hlt : ∀ a ∈ q, ∀ b ∈ q, key a < key b → before a b = true)
    (hle : ∀ a ∈ q, ∀ b ∈ q, before a b = true → key a ≤ key b)
    (h : pop before q = some (a, rest)) : ∀ b ∈ q, key a ≤ key b := by
  induction q generalizing a rest with
  | nil => cases h
  | cons c q ih =>
    have ih : ∀ {a rest}, pop before q = some (a, rest) → ∀ b ∈ q, key a ≤ key b := ih
      (fun a ha b hb => hlt a (.tail _ ha) b (.tail _ hb)) (fun a ha b hb => hle a (.tail _ ha) b (.tail _ hb))
    simp only [pop] at h
    split at h
    · rename_i hq
      obtain ⟨rfl, rfl⟩ := Prod.mk.inj (Option.some.inj h)
      simp [pop_eq_none.mp hq]
    · rename_i d below hq
      have hd := pop_mem hq
      split at h
      · rename_i hdc
        obtain ⟨rfl, rfl⟩ := Prod.mk.inj (Option.some.inj h)
        intro b hb
        obtain rfl | hb := List.mem_cons.mp hb
        · exact hle d (.tail _ hd) b (.head _) hdc
        · exact ih hq b hb
      · rename_i hdc
        obtain ⟨rfl, rfl⟩ := Prod.mk.inj (Option.some.inj h)
        have hcd : key c ≤ key d := not_lt.mp fun hlt' => hdc (hlt d (.tail _ hd) c (.head _) hlt')
        intro b hb
        obtain rfl | hb := List.mem_cons.mp hb
        · exact le_refl _
        · exact le_trans hcd (ih hq b hb)

/-! ## Serial numbers -/

variable {w : Nat}

/-- The difference of two serial numbers is positive as a signed number; where it overflows
it wraps around, as two's complement has it. -/
def later (a b : BitVec w) : Bool := 0 < (a - b).toInt

theorem toInt_sub_ofNat {i j : Nat} (hj : j < i + 2 ^ w) (hi : i < j + 2 ^ w) :
    (BitVec.ofNat (w + 1) i - BitVec.ofNat (w + 1) j).toInt = (i : Int) - j := by
  have hpow : (2 ^ (w + 1) : Nat) = 2 * 2 ^ w := by rw [Nat.pow_succ, Nat.mul_comm]
  rw [BitVec.toInt_sub, BitVec.toInt_ofNat', BitVec.toInt_ofNat', Int.bmod_sub_bmod, Int.sub_bmod_bmod]
  refine Int.bmod_eq_of_le ?_ ?_ <;> omega

/-- Numbers handed out one after another compare as their positions do while fewer than
half of all numbers lie between them. -/
theorem later_ofNat {i j : Nat} (hj : j < i + 2 ^ w) (hi : i < j + 2 ^ w) :
    later (BitVec.ofNat (w + 1) i) (BitVec.ofNat (w + 1) j) = decide (j < i) := by
  rw [later, toInt_sub_ofNat hj hi]
  exact decide_eq_decide.mpr (by omega)

end DelayQueue
