import OscDataProcess.SystemClock
import OscDataProcess.WallClock

/-!
# The frequency in real time

The rate limiter goes by `Time::Now()`. While the wall clock is left alone it keeps its
period in the time that really passes, as well as the clocks of the system tell it, although
the readings are put together from two clocks and may go back.
-/
namespace OscDataProcess

section
variable {freq d : Nat} {t : ℕ → Nat}

/-- On readings of any order there is one that allows for all that was forwarded. -/
theorem exists_reading_ge (data : ℕ → FactoryData) (hdelta : 1000000 / freq = d) (hfirst : t 1 ≠ 0) (n : ℕ) :
    ∃ j ≤ n, t 1 + (served freq t data (n + 1)).2.length * d ≤ t (j + 1) + d := by
  induction n with
  | zero => exact ⟨0, Nat.le_refl _, by simp [served_one]⟩
  | succ n ih =>
    rw [length_served_succ]
    by_cases hf : forwards freq t data (n + 1) = true
    · have hdue := (forwards_iff data hdelta hfirst (Nat.le_add_left 1 n)).mp hf
      refine ⟨n + 1, Nat.le_refl _, ?_⟩
      rw [if_pos hf, Nat.add_one_mul]
      omega
    · obtain ⟨j, hj, hle⟩ := ih
      rw [if_neg hf]
      exact ⟨j, Nat.le_succ_of_le hj, hle⟩

/-- And one that, were there a datum a period since, would not allow for one more. -/
theorem exists_reading_lt (data : ℕ → FactoryData) (hdelta : 1000000 / freq = d) (hd : 0 < d) (hfirst : t 1 ≠ 0)
    (n : ℕ) : ∃ j ≤ n, t (j + 1) + (n - j) * d < t 1 + (served freq t data (n + 1)).2.length * d := by
  induction n with
  | zero => exact ⟨0, Nat.le_refl _, by simp [served_one, hd]⟩
  | succ n ih =>
    rw [length_served_succ]
    by_cases hf : forwards freq t data (n + 1) = true
    · obtain ⟨j, hj, hlt⟩ := ih
      refine ⟨j, Nat.le_succ_of_le hj, ?_⟩
      rw [if_pos hf, Nat.succ_sub hj, Nat.add_one_mul, Nat.add_one_mul]
      omega
    · have hheld := mt (forwards_iff data hdelta hfirst (Nat.le_add_left 1 n)).mpr hf
      refine ⟨n + 1, Nat.le_refl _, ?_⟩
      rw [if_neg hf, Nat.sub_self, Nat.zero_mul]
      exact Nat.not_le.mp hheld

end

namespace SystemClock

open GuardedRun (Reaches)

/-- What `Time::Now()` tells the calls of OnDataProduced, the first of which is numbered 1. -/
def times (calls : List Reading) (j : ℕ) : Nat := (calls[j - 1]?).elim 1 (·.value.toNat)

theorem times_of_getElem? {calls : List Reading} {r : Reading} {j : ℕ} (h : calls[j]? = some r) :
    times calls (j + 1) = r.value.toNat := by
  rw [times, Nat.add_sub_cancel, h]
  rfl

/-- Calls that come no more than `d` apart. -/
theorem takenAt_le_of_isChain {calls : List Reading} {d : Nat}
    (hdense : calls.IsChain fun r r' => r'.takenAt ≤ r.takenAt + d) {i j : ℕ} (hij : i ≤ j) {r r' : Reading}
    (hr : calls[i]? = some r) (hr' : calls[j]? = some r') : r'.takenAt ≤ r.takenAt + (j - i) * d := by
  induction j, hij using Nat.le_induction generalizing r' with
  | base =>
    obtain rfl := Option.some.inj (hr.symm.trans hr')
    exact Nat.le_add_right ..
  | succ j hij ih =>
    obtain ⟨hlt, heq⟩ := List.getElem?_eq_some_iff.mp hr'
    have hlast := ih (List.getElem?_eq_getElem (Nat.lt_of_succ_lt hlt))
    have hgap := List.isChain_iff_getElem.mp hdense j hlt
    rw [heq] at hgap
    rw [Nat.succ_sub hij, Nat.add_one_mul]
    omega

variable {k : Clocks} {s : SystemClock} {us g w slack freq : Nat} {offset : Int}

/-- Of any two calls: what passes between them, and what `Time::Now()` makes of it. -/
theorem passed_of_reaches (hk : k.Accurate g w) (ho : 10 * (w + 1) ≤ 10 * us + offset)
    (hr : Reaches (step k) (Steady k) (initial us offset) s) (hslack : ∀ r ∈ s.readings, r.slack ≤ slack)
    {r r' : Reading} (h : r ∈ s.readings) (h' : r' ∈ s.readings) :
    r.value.toNat ≠ 0 ∧ r'.value.toNat + r.takenAt < r.value.toNat + r'.takenAt + (2 * g + w + slack) := by
  obtain ⟨hpos, hnonneg, hlow, -⟩ := bounded_of_reaches hk ho hr r h
  obtain ⟨hpos', -, -, hhigh'⟩ := bounded_of_reaches hk ho hr r' h'
  have hle' := hslack r' h'
  unfold Reading.ahead at hlow hhigh'
  omega

theorem takenAt_le_of_reaches (hk : k.Accurate g w) (ho : 10 * (w + 1) ≤ 10 * us + offset)
    (hr : Reaches (step k) (Steady k) (initial us offset) s) {calls : List Reading} (hcalls : calls.Sublist s.readings)
    {i j : ℕ} (hij : i ≤ j) {r r' : Reading} (h : calls[i]? = some r) (h' : calls[j]? = some r') :
    r.takenAt ≤ r'.takenAt := by
  obtain rfl | hlt := Nat.eq_or_lt_of_le hij
  · obtain rfl := Option.some.inj (h.symm.trans h')
    exact Nat.le_refl _
  obtain ⟨hi, rfl⟩ := List.getElem?_eq_some_iff.mp h
  obtain ⟨hj, rfl⟩ := List.getElem?_eq_some_iff.mp h'
  exact (List.pairwise_iff_getElem.mp ((sorted_of_reaches hk ho hr).sublist hcalls) i j hi hj hlt).1

end SystemClock
end OscDataProcess
