import Mathlib.Order.Bounds.Basic
import Mathlib.Algebra.Order.Monoid.Defs
import Mathlib.Algebra.Group.Defs

/-!
# Counters that rise by one step at a time under a cap

A counter may rise by `c` at each tick and must stay under the cap `a k` of that tick.
It remembers every earlier cap: its value is the least that any of them allows.
-/
namespace Capped

variable {α : Type*} [AddCommMonoid α]

/-- What the caps up to tick `k` allow at that tick. -/
def allowed (c : α) (a : ℕ → α) (k : ℕ) : Set α := {x | ∃ j ≤ k, x = a j + (k - j) • c}

theorem allowed_succ (c : α) (a : ℕ → α) (k : ℕ) (x : α) :
    x ∈ allowed c a (k + 1) ↔ (∃ y ∈ allowed c a k, x = y + c) ∨ x = a (k + 1) := by
  constructor
  · rintro ⟨j, hj, rfl⟩
    obtain hj | rfl := Nat.le_or_eq_of_le_succ hj
    · refine .inl ⟨a j + (k - j) • c, ⟨j, hj, rfl⟩, ?_⟩
      rw [Nat.succ_sub hj, succ_nsmul, add_assoc]
    · exact .inr (by simp)
  · rintro (⟨y, ⟨j, hj, rfl⟩, rfl⟩ | rfl)
    · refine ⟨j, Nat.le_succ_of_le hj, ?_⟩
      rw [Nat.succ_sub hj, succ_nsmul, add_assoc]
    · exact ⟨k + 1, le_refl _, by simp⟩

variable [LinearOrder α]

def capped (c : α) (a : ℕ → α) : ℕ → α
  | 0 => a 0
  | k + 1 => min (capped c a k + c) (a (k + 1))

@[simp] theorem capped_zero (c : α) (a : ℕ → α) : capped c a 0 = a 0 := rfl

theorem capped_succ (c : α) (a : ℕ → α) (k : ℕ) :
    capped c a (k + 1) = min (capped c a k + c) (a (k + 1)) := rfl

/-- The counter is the least value that some earlier cap allows. -/
theorem isLeast_capped [IsOrderedAddMonoid α] (c : α) (a : ℕ → α) (k : ℕ) :
    IsLeast (allowed c a k) (capped c a k) := by
  induction k with
  | zero =>
    refine ⟨⟨0, le_refl _, by simp⟩, ?_⟩
    rintro x ⟨j, hj, rfl⟩
    obtain rfl := Nat.le_zero.mp hj
    simp
  | succ k ih =>
    obtain ⟨hmem, hle⟩ := ih
    constructor
    · rw [allowed_succ, capped_succ]
      obtain h | h := min_choice (capped c a k + c) (a (k + 1))
      · exact .inl ⟨capped c a k, hmem, h⟩
      · exact .inr h
    · intro x hx
      obtain ⟨y, hy, rfl⟩ | rfl := (allowed_succ c a k x).mp hx
      · exact (min_le_left _ _).trans (add_le_add_left (hle hy) c)
      · exact min_le_right _ _

/-- A cap that never rises by more than one step is always reached. -/
theorem capped_eq [IsOrderedAddMonoid α] {c : α} {a : ℕ → α} {k : ℕ} (h : ∀ j < k, a (j + 1) ≤ a j + c) :
    capped c a k = a k := by
  induction k with
  | zero => rfl
  | succ k ih =>
    rw [capped_succ, ih fun j hj => h j (Nat.lt_succ_of_lt hj)]
    exact min_eq_right (h k (Nat.lt_succ_self k))

end Capped
