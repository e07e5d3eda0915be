import OscDataProcess.Capped
import OscDataProcess.Host
import Mathlib.Algebra.Order.Group.Nat

/-!
# The count law of the rate limiter

The limiter moves its reference by one period with every datum it forwards, never to
the present. So the number it has forwarded is a counter that rises by one at most with
each datum and is capped by the number of periods since the first.
-/
namespace OscDataProcess

/-- `static_cast<int64>(1.0 / freq_ * 1e6)`. -/
def FreqLimiter.delta (l : FreqLimiter) : Nat := 1000000 / l.freq

/-- What a limiter is, and has forwarded, after some data were offered to it. -/
def FreqLimiter.serve (l : FreqLimiter) (offers : List (Nat × FactoryData)) :
    FreqLimiter × List FactoryData :=
  offers.foldl (fun s o => ((s.1.onDataProduced o.1).1,
    s.2 ++ if (s.1.onDataProduced o.1).2 then [o.2] else [])) (l, [])

@[simp] theorem serve_nil (l : FreqLimiter) : l.serve [] = (l, []) := rfl

theorem serve_concat (l : FreqLimiter) (offers : List (Nat × FactoryData)) (o : Nat × FactoryData) :
    l.serve (offers ++ [o]) = (((l.serve offers).1.onDataProduced o.1).1,
      (l.serve offers).2 ++ if ((l.serve offers).1.onDataProduced o.1).2 then [o.2] else []) := by
  rw [FreqLimiter.serve, List.foldl_append]
  rfl

/-- The first `k` calls of OnDataProduced, at clock readings `t 1`, `t 2` and so on. -/
def offers (t : ℕ → Nat) (data : ℕ → FactoryData) : ℕ → List (Nat × FactoryData)
  | 0 => []
  | k + 1 => offers t data k ++ [(t (k + 1), data (k + 1))]

theorem onDataProduced_of_ne {l : FreqLimiter} (h : l.lastNotifyTime ≠ 0) (time : Nat) :
    l.onDataProduced time = if l.lastNotifyTime + l.delta ≤ time then
      (⟨l.freq, l.lastNotifyTime + l.delta⟩, true) else (l, false) := by
  rw [FreqLimiter.onDataProduced, if_neg h]
  rfl

/-- The cap on the count: one more than the periods that have passed since the first reading. -/
def periods (d : Nat) (t : ℕ → Nat) (k : ℕ) : ℕ := 1 + (t (k + 1) - t 1) / d

/-- The reference of a limiter that has forwarded `n` data is `n - 1` periods after the first reading. -/
structure Paced (d first now : Nat) (l : FreqLimiter) (n : ℕ) : Prop where
  period : l.delta = d
  forwarded : 1 ≤ n
  reference : l.lastNotifyTime = first + (n - 1) * d
  past : l.lastNotifyTime ≤ now

/-- One more datum at a later reading: the count rises by one, up to its cap. -/
theorem Paced.onDataProduced {d first now time : Nat} {l : FreqLimiter} {n : ℕ} (h : Paced d first now l n)
    (hd : 0 < d) (hfirst : first ≠ 0) (hle : now ≤ time) :
    Paced d first time (l.onDataProduced time).1 (min (n + 1) (1 + (time - first) / d)) ∧
      ((l.onDataProduced time).2 = true ↔ n + 1 ≤ 1 + (time - first) / d) ∧ n ≤ 1 + (time - first) / d := by
  obtain ⟨hdelta, hn, href, hpast⟩ := h
  have hcap : n ≤ 1 + (time - first) / d := by
    have : n - 1 ≤ (time - first) / d := by
      rw [Nat.le_div_iff_mul_le hd]
      omega
    omega
  have hnext : l.lastNotifyTime + l.delta = first + n * d := by
    obtain ⟨m, rfl⟩ := Nat.exists_eq_add_of_le' hn
    rw [href, hdelta, Nat.add_sub_cancel, Nat.add_one_mul, Nat.add_assoc]
  have hdue : l.lastNotifyTime + l.delta ≤ time ↔ n + 1 ≤ 1 + (time - first) / d := by
    rw [hnext, Nat.add_comm n 1, Nat.add_le_add_iff_left, Nat.le_div_iff_mul_le hd]
    omega
  rw [onDataProduced_of_ne (by omega)]
  by_cases hnow : l.lastNotifyTime + l.delta ≤ time
  · rw [if_pos hnow, min_eq_left (hdue.mp hnow)]
    refine ⟨⟨hdelta, Nat.le_add_left 1 n, ?_, hnow⟩, by simpa using hdue.mp hnow, hcap⟩
    simpa using hnext
  · have hfull : 1 + (time - first) / d = n := by
      have := mt hdue.mpr hnow
      omega
    rw [if_neg hnow, hfull, min_eq_right (Nat.le_succ n)]
    exact ⟨⟨hdelta, hn, href, hpast.trans hle⟩, by simp⟩

variable {t : ℕ → Nat} {data : ℕ → FactoryData}

/-- The limiter of a stub after its first `k` calls of OnDataProduced. -/
abbrev served (freq : Nat) (t : ℕ → Nat) (data : ℕ → FactoryData) (k : ℕ) : FreqLimiter × List FactoryData :=
  (FreqLimiter.mk freq 0).serve (offers t data k)

theorem served_one (freq : Nat) (t : ℕ → Nat) (data : ℕ → FactoryData) :
    served freq t data 1 = (⟨freq, t 1⟩, [data 1]) := rfl

theorem served_succ (freq : Nat) (t : ℕ → Nat) (data : ℕ → FactoryData) (k : ℕ) :
    served freq t data (k + 1) = (((served freq t data k).1.onDataProduced (t (k + 1))).1,
      (served freq t data k).2 ++
        if ((served freq t data k).1.onDataProduced (t (k + 1))).2 then [data (k + 1)] else []) :=
  serve_concat _ _ _

/-- The number of forwarded data is the capped counter. -/
theorem paced_served (data : ℕ → FactoryData) (freq : Nat) {d : Nat} (hdelta : 1000000 / freq = d) (hd : 0 < d)
    (hmono : ∀ j, 1 ≤ j → t j ≤ t (j + 1)) (hfirst : t 1 ≠ 0) (k : ℕ) :
    (served freq t data (k + 1)).2.length = Capped.capped 1 (periods d t) k ∧
      Paced d (t 1) (t (k + 1)) (served freq t data (k + 1)).1 (Capped.capped 1 (periods d t) k) := by
  induction k with
  | zero => exact ⟨by simp [served_one, periods], hdelta, by simp [periods], by simp [served_one, periods],
      Nat.le_refl _⟩
  | succ k ih =>
    obtain ⟨hlen, hp⟩ := ih
    obtain ⟨hp', hflag, hle⟩ := hp.onDataProduced hd hfirst (hmono (k + 1) (Nat.le_add_left 1 k))
    rw [Capped.capped_succ, served_succ]
    refine ⟨?_, hp'⟩
    rw [List.length_append, hlen]
    by_cases hcap : Capped.capped 1 (periods d t) k + 1 ≤ periods d t (k + 1)
    · rw [if_pos (hflag.mpr hcap), min_eq_left hcap, List.length_singleton]
    · rw [if_neg (mt hflag.mp hcap), List.length_nil, Nat.add_zero]
      unfold periods at hcap hle ⊢
      omega

theorem first_le (hmono : ∀ j, 1 ≤ j → t j ≤ t (j + 1)) (k : ℕ) : t 1 ≤ t (k + 1) := by
  induction k with
  | zero => exact Nat.le_refl _
  | succ k ih => exact ih.trans (hmono (k + 1) (Nat.le_add_left 1 k))

/-- Without a period nothing is held back. -/
theorem served_of_delta_eq_zero {freq : Nat} (hdelta : 1000000 / freq = 0)
    (hmono : ∀ j, 1 ≤ j → t j ≤ t (j + 1)) (hfirst : t 1 ≠ 0) (k : ℕ) :
    served freq t data (k + 1) = (⟨freq, t 1⟩, (offers t data (k + 1)).map Prod.snd) := by
  induction k with
  | zero => rfl
  | succ k ih =>
    have hd : (FreqLimiter.mk freq (t 1)).delta = 0 := hdelta
    have hdue : t 1 + 0 ≤ t (k + 1 + 1) := first_le hmono (k + 1)
    have hoffers : offers t data (k + 1 + 1) =
        offers t data (k + 1) ++ [(t (k + 1 + 1), data (k + 1 + 1))] := rfl
    rw [served_succ, ih, onDataProduced_of_ne hfirst, hd, if_pos hdue, hoffers, List.map_append]
    rfl

/-- The count law of a limiter after `k` calls, `d` being its truncated period. -/
structure CountLaw (freq : Nat) (t : ℕ → Nat) (data : ℕ → FactoryData) (d : Nat) (k : ℕ) : Prop where
  unlimited : d = 0 → (served freq t data k).2 = (offers t data k).map Prod.snd
  count : 0 < d → IsLeast {n | ∃ j, 1 ≤ j ∧ j ≤ k ∧ n = 1 + (t j - t 1) / d + (k - j)}
    (served freq t data k).2.length
  reference : 0 < d →
    (served freq t data k).1.lastNotifyTime = t 1 + ((served freq t data k).2.length - 1) * d
  past : 0 < d → (served freq t data k).1.lastNotifyTime ≤ t k
  dense : 0 < d → (∀ j, 1 ≤ j → j < k → t (j + 1) - t j ≤ d) →
    (served freq t data k).2.length = 1 + (t k - t 1) / d

/-- The caps of the counter, in the numbering of the calls. -/
theorem allowed_periods (d : Nat) (t : ℕ → Nat) (k : ℕ) : Capped.allowed 1 (periods d t) k =
    {n | ∃ j, 1 ≤ j ∧ j ≤ k + 1 ∧ n = 1 + (t j - t 1) / d + (k + 1 - j)} := by
  ext n
  constructor
  · rintro ⟨j, hj, rfl⟩
    exact ⟨j + 1, Nat.le_add_left 1 j, Nat.succ_le_succ hj, by simp [periods]⟩
  · rintro ⟨j, hj, hle, rfl⟩
    obtain ⟨i, rfl⟩ := Nat.exists_eq_add_of_le' hj
    exact ⟨i, Nat.le_of_succ_le_succ hle, by simp [periods]⟩

theorem periods_succ_le {d : Nat} (hd : 0 < d) (hmono : ∀ j, 1 ≤ j → t j ≤ t (j + 1)) {j : ℕ}
    (hgap : t (j + 1 + 1) - t (j + 1) ≤ d) : periods d t (j + 1) ≤ periods d t j + 1 := by
  have hfirst := first_le hmono j
  have hle : t (j + 1 + 1) - t 1 ≤ t (j + 1) - t 1 + d := by omega
  have hdiv : (t (j + 1 + 1) - t 1) / d ≤ (t (j + 1) - t 1) / d + 1 := by
    rw [← Nat.add_div_right _ hd]
    exact Nat.div_le_div_right hle
  unfold periods
  omega

/-- At a Factory at least as fast as the host, every whole period forwards one datum. -/
theorem length_served_of_dense {freq d : Nat} (data : ℕ → FactoryData) (hdelta : 1000000 / freq = d) (hd : 0 < d)
    (hmono : ∀ j, 1 ≤ j → t j ≤ t (j + 1)) (hfirst : t 1 ≠ 0) {k : ℕ}
    (hgap : ∀ j, 1 ≤ j → j < k + 1 → t (j + 1) - t j ≤ d) :
    (served freq t data (k + 1)).2.length = 1 + (t (k + 1) - t 1) / d := by
  rw [(paced_served data freq hdelta hd hmono hfirst k).1]
  exact Capped.capped_eq fun j hj =>
    periods_succ_le hd hmono (hgap (j + 1) (Nat.le_add_left 1 j) (Nat.succ_lt_succ hj))

/-- For every nondecreasing sequence of clock readings and after every call. -/
theorem countLaw_of_readings (freq : Nat) (t : ℕ → Nat) (data : ℕ → FactoryData)
    (hmono : ∀ j, 1 ≤ j → t j ≤ t (j + 1)) (hfirst : t 1 ≠ 0) (k : ℕ) (hk : 1 ≤ k) :
    CountLaw freq t data (1000000 / freq) k := by
  obtain ⟨k, rfl⟩ := Nat.exists_eq_add_of_le' hk
  have hserved := fun hd => paced_served data freq rfl hd hmono hfirst k
  refine ⟨fun hd => ?_, fun hd => ?_, fun hd => ?_, fun hd => ?_, fun hd hgap => ?_⟩
  · rw [served_of_delta_eq_zero hd hmono hfirst]
  · rw [(hserved hd).1, ← allowed_periods]
    exact Capped.isLeast_capped 1 _ k
  · rw [(hserved hd).1]
    exact (hserved hd).2.reference
  · exact (hserved hd).2.past
  · exact length_served_of_dense data rfl hd hmono hfirst hgap

/-- Five readings at 1000 Hz with a pause of three and a half periods: the backlog is made up. -/
theorem countLaw_of_readings_pause : CountLaw 1000 (fun j => if j ≤ 2 then 500 * j else 3000 + 500 * j)
    (fun _ => newFactory.data) 1000 5 :=
  countLaw_of_readings 1000 (fun j => if j ≤ 2 then 500 * j else 3000 + 500 * j) (fun _ => newFactory.data)
    (by intro j hj; split <;> split <;> omega) (by decide) 5 (by decide)

end OscDataProcess
