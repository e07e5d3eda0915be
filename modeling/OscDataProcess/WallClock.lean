import OscDataProcess.Frequency

/-!
# The rate limiter on an adjusted wall clock

`base::Time::Now()` is the elapsed time plus an offset that the system may change at
any moment, forwards or backwards. The limiter compares its readings as if the offset
stayed the same: what it forwards depends on how far the readings have moved on since
the first.
-/
namespace OscDataProcess

/-- `base::Time::Now()` at the `k`-th arrival. -/
def reading (e : ℕ → Nat) (o : ℕ → ℤ) (k : ℕ) : Nat := (e k + o k).toNat

/-- Elapsed time does not decrease, and no reading is the null time. -/
structure Readable (e : ℕ → Nat) (o : ℕ → ℤ) (K : ℕ) : Prop where
  mono : ∀ k, 1 ≤ k → e k ≤ e (k + 1)
  now : ∀ k, 1 ≤ k → k ≤ K → 0 < e k + o k

/-- Two runs forward exactly the same of the first `K` data. -/
def SameData (freq : Nat) (data : ℕ → FactoryData) (t t' : ℕ → Nat) (K : ℕ) : Prop :=
  ∀ k < K, forwards freq t data k = forwards freq t' data k

/-- The first arrival a period of elapsed time or more after the last forwarded one is forwarded. -/
def Prompt (freq : Nat) (data : ℕ → FactoryData) (e : ℕ → Nat) (o : ℕ → ℤ) (K : ℕ) : Prop :=
  ∀ l k, l < k → k < K → forwards freq (reading e o) data l = true →
    (∀ j, l < j → j < k → forwards freq (reading e o) data j = false) →
    e (l + 1) + 1000000 / freq ≤ e (k + 1) → forwards freq (reading e o) data k = true

/-- The clock is left alone after the first arrival. Without a period it is enough that
it is never set back behind its first offset. -/
def Unadjusted (freq : Nat) (o : ℕ → ℤ) (K : ℕ) : Prop :=
  ∀ k, 1 ≤ k → k ≤ K → if 1000000 / freq = 0 then o 1 ≤ o k else o k = o 1

theorem Readable.cast_reading {e : ℕ → Nat} {o : ℕ → ℤ} {K k : ℕ} (h : Readable e o K) (h1 : 1 ≤ k)
    (hk : k ≤ K) : (reading e o k : ℤ) = e k + o k :=
  Int.toNat_of_nonneg (h.now k h1 hk).le

theorem Readable.first_ne {e : ℕ → Nat} {o : ℕ → ℤ} {K : ℕ} (h : Readable e o K) (hK : 1 ≤ K) :
    reading e o 1 ≠ 0 := by
  have hpos := h.now 1 (Nat.le_refl _) hK
  have hcast := h.cast_reading (Nat.le_refl _) hK
  omega

variable {freq d : Nat} {t t' : ℕ → Nat} {data : ℕ → FactoryData}

theorem forwards_zero (freq : Nat) (t : ℕ → Nat) (data : ℕ → FactoryData) : forwards freq t data 0 = true := rfl

/-- On readings of any order the reference is a whole number of periods after the first. -/
theorem reference_served (data : ℕ → FactoryData) (hdelta : 1000000 / freq = d) (hfirst : t 1 ≠ 0) (k : ℕ) :
    1 ≤ (served freq t data (k + 1)).2.length ∧ (served freq t data (k + 1)).1.delta = d ∧
      (served freq t data (k + 1)).1.lastNotifyTime =
        t 1 + ((served freq t data (k + 1)).2.length - 1) * d := by
  induction k with
  | zero => exact ⟨Nat.le_refl _, hdelta, by simp [served_one]⟩
  | succ k ih =>
    obtain ⟨hn, hd, href⟩ := ih
    rw [served_succ, onDataProduced_of_ne (by omega)]
    split
    · refine ⟨by simp, hd, ?_⟩
      simp only [if_true, List.length_append, List.length_singleton, Nat.add_sub_cancel]
      obtain ⟨m, hm⟩ := Nat.exists_eq_add_of_le' hn
      rw [href, hd, hm, Nat.add_sub_cancel, Nat.add_one_mul, Nat.add_assoc]
    · simpa using ⟨hn, hd, href⟩

theorem reference_next (data : ℕ → FactoryData) (hdelta : 1000000 / freq = d) (hfirst : t 1 ≠ 0) {k : ℕ}
    (hk : 1 ≤ k) :
    (served freq t data k).1.lastNotifyTime + d = t 1 + (served freq t data k).2.length * d := by
  obtain ⟨k, rfl⟩ := Nat.exists_eq_add_of_le' hk
  obtain ⟨hn, -, href⟩ := reference_served data hdelta hfirst k
  obtain ⟨m, hm⟩ := Nat.exists_eq_add_of_le' hn
  rw [href, hm, Nat.add_sub_cancel, Nat.add_one_mul, Nat.add_assoc]

/-- A datum is forwarded when the clock has moved on by a period for each one before it. -/
theorem forwards_iff (data : ℕ → FactoryData) (hdelta : 1000000 / freq = d) (hfirst : t 1 ≠ 0) {k : ℕ}
    (hk : 1 ≤ k) :
    forwards freq t data k = true ↔ t 1 + (served freq t data k).2.length * d ≤ t (k + 1) := by
  have hnext := reference_next data hdelta hfirst hk
  obtain ⟨k, rfl⟩ := Nat.exists_eq_add_of_le' hk
  obtain ⟨-, hd, href⟩ := reference_served data hdelta hfirst k
  rw [forwards, onDataProduced_of_ne (by omega), hd, hnext]
  split <;> simp_all

theorem SameData.length_eq {K : ℕ} (h : SameData freq data t t' K) {k : ℕ} (hk : k ≤ K) :
    (served freq t data k).2.length = (served freq t' data k).2.length := by
  induction k with
  | zero => rfl
  | succ k ih => rw [length_served_succ, length_served_succ, ih (Nat.le_of_succ_le hk), h k hk]

/-- The runs agree as long as both clocks have moved on by the next period or neither has. -/
theorem sameData_iff (data : ℕ → FactoryData) (hdelta : 1000000 / freq = d) {K : ℕ}
    (hfirst : 1 ≤ K → t 1 ≠ 0) (hfirst' : 1 ≤ K → t' 1 ≠ 0) :
    SameData freq data t t' K ↔ ∀ k, 1 ≤ k → k < K →
      (t 1 + (served freq t data k).2.length * d ≤ t (k + 1) ↔
        t' 1 + (served freq t data k).2.length * d ≤ t' (k + 1)) := by
  constructor
  · intro h k h1 hk
    have hK : 1 ≤ K := by omega
    have hsame := h k hk
    have hlen := h.length_eq hk.le
    rw [← forwards_iff data hdelta (hfirst hK) h1, hlen, ← forwards_iff data hdelta (hfirst' hK) h1, hsame]
  · intro h k
    induction k using Nat.strong_induction_on with
    | _ k ih =>
      intro hk
      have hK : 1 ≤ K := by omega
      obtain rfl | h1 := Nat.eq_zero_or_pos k
      · rw [forwards_zero, forwards_zero]
      have hbefore : SameData freq data t t' k := fun j hj => ih j hj (hj.trans hk)
      have hdue := h k h1 hk
      rw [← forwards_iff data hdelta (hfirst hK) h1, hbefore.length_eq (Nat.le_refl k),
        ← forwards_iff data hdelta (hfirst' hK) h1] at hdue
      exact Bool.eq_iff_iff.mpr hdue

theorem length_served_of_held {l k : ℕ} (hk : l < k) (hf : forwards freq t data l = true)
    (hheld : ∀ j, l < j → j < k → forwards freq t data j = false) :
    (served freq t data k).2.length = (served freq t data l).2.length + 1 := by
  induction k, hk using Nat.le_induction with
  | base => rw [length_served_succ, if_pos hf]
  | succ k hk ih =>
    rw [length_served_succ, hheld k hk (Nat.lt_succ_self k), ih fun j hj hj' => hheld j hj (Nat.lt_succ_of_lt hj')]
    rfl

section
variable {e : ℕ → Nat} {o : ℕ → ℤ} {K : ℕ}

/-- A clock left alone shows the elapsed time since the first arrival. -/
theorem Unadjusted.due_iff (hu : Unadjusted freq o K) (he : Readable e o K) {k m : ℕ} (h1 : 1 ≤ k) (hk : k < K) :
    reading e o 1 + m * (1000000 / freq) ≤ reading e o (k + 1) ↔ e 1 + m * (1000000 / freq) ≤ e (k + 1) := by
  have hfirst := he.cast_reading (Nat.le_refl 1) (h1.trans hk.le)
  have hnow := he.cast_reading (Nat.le_add_left 1 k) hk
  have hsame := hu (k + 1) (Nat.le_add_left 1 k) hk
  have hmono := le_of_mono he.mono (Nat.le_refl 1) (Nat.le_add_left 1 k)
  split at hsame
  · rename_i hd
    rw [hd]
    omega
  · omega

theorem unadjusted_const (freq : Nat) (z : ℤ) (K : ℕ) : Unadjusted freq (fun _ => z) K := by
  intro k _ _
  split
  · exact le_refl z
  · rfl

/-- Two clocks left alone forward the same data. -/
theorem Unadjusted.sameData {o' : ℕ → ℤ} (hu : Unadjusted freq o K) (hu' : Unadjusted freq o' K)
    (he : Readable e o K) (he' : Readable e o' K) : SameData freq data (reading e o) (reading e o') K := by
  refine (sameData_iff data rfl he.first_ne he'.first_ne).mpr fun k h1 hk => ?_
  rw [hu.due_iff he h1 hk, hu'.due_iff he' h1 hk]

theorem Unadjusted.prompt (hu : Unadjusted freq o K) (he : Readable e o K) : Prompt freq data e o K := by
  intro l k hl hk hf hheld hlate
  have h1 : 1 ≤ k := by omega
  have hK : 1 ≤ K := by omega
  rw [forwards_iff data rfl (he.first_ne hK) h1, hu.due_iff he h1 hk, length_served_of_held hl hf hheld,
    Nat.add_one_mul]
  obtain rfl | hpos := Nat.eq_zero_or_pos l
  · have hnone : (served freq (reading e o) data 0).2.length = 0 := rfl
    rw [Nat.zero_add] at hlate
    rw [hnone]
    omega
  · have hbefore := (forwards_iff data rfl (he.first_ne hK) hpos).mp hf
    rw [hu.due_iff he hpos (hl.trans hk)] at hbefore
    omega

end

/-- A first arrival late enough for every reading to be positive. -/
theorem exists_start (o : ℕ → ℤ) (K : ℕ) : ∃ s : Nat, ∀ k ≤ K, 0 < s + o k := by
  induction K with
  | zero => exact ⟨(1 - o 0).toNat, fun k hk => by obtain rfl := Nat.le_zero.mp hk; omega⟩
  | succ K ih =>
    obtain ⟨s, hs⟩ := ih
    refine ⟨s + (1 - o (K + 1)).toNat, fun k hk => ?_⟩
    obtain hlt | heq := Nat.le_or_eq_of_le_succ hk
    · have := hs k hlt
      omega
    · rw [heq, Nat.succ_eq_add_one]
      omega

/-- Nothing arrives between the first datum and the `n`-th, which comes `x` microseconds later. -/
def oneGap (s n x : Nat) (k : ℕ) : Nat := if k < n then s else s + x

theorem oneGap_mono (s n x k : Nat) : oneGap s n x k ≤ oneGap s n x (k + 1) := by
  unfold oneGap
  split <;> split <;> omega

/-- As long as the clock stands at its first reading only the first datum is forwarded. -/
theorem length_served_eq_one (hdelta : 1000000 / freq = d) (hd : 0 < d) (hfirst : t 1 ≠ 0) {k : ℕ} (hk : 1 ≤ k)
    (hstill : ∀ j, 1 ≤ j → j ≤ k → t j = t 1) : (served freq t data k).2.length = 1 := by
  induction k, hk using Nat.le_induction with
  | base => rfl
  | succ k hk ih =>
    have hlen := ih fun j h1 hj => hstill j h1 (Nat.le_succ_of_le hj)
    have hheld : ¬ forwards freq t data k = true := by
      rw [forwards_iff data hdelta hfirst hk, hlen, hstill (k + 1) (Nat.le_add_left 1 k) (Nat.le_refl _)]
      omega
    rw [length_served_succ, hlen, if_neg hheld]

/-- Some arrivals tell a clock that is adjusted at the `n`-th from one that is not. -/
theorem not_sameData_of_adjusted {o : ℕ → ℤ} {n K : ℕ} (data : ℕ → FactoryData) (hn : 1 < n) (hnK : n ≤ K)
    (hd : 0 < 1000000 / freq) (hbefore : ∀ j, 1 ≤ j → j < n → o j = o 1) (hjump : o n ≠ o 1) :
    ∃ e, Readable e o K ∧ Readable e (fun _ => 0) K ∧ ¬ SameData freq data (reading e o) (reading e fun _ => 0) K := by
  obtain ⟨s, hs⟩ := exists_start (fun k => min (o k) 0) K
  have hpos : ∀ k ≤ K, 0 < s + o k ∧ 0 < (s : ℤ) := fun k hk => by
    have := hs k hk
    omega
  -- the elapsed time at which exactly one of the two clocks has moved on by a period
  obtain ⟨x, hx⟩ : ∃ x : Nat, ¬ (((1000000 / freq : Nat) : ℤ) ≤ x + (o n - o 1) ↔ 1000000 / freq ≤ x) := by
    obtain hback | hforth := lt_or_gt_of_ne hjump
    · exact ⟨1000000 / freq, by omega⟩
    · refine ⟨((1000000 / freq : Nat) - (o n - o 1)).toNat, ?_⟩
      omega
  have hread : ∀ u : ℕ → ℤ, (∀ k ≤ K, 0 < s + u k) → Readable (oneGap s n x) u K := by
    intro u hu
    refine ⟨fun k _ => oneGap_mono s n x k, fun k _ hk => ?_⟩
    have := hu k hk
    unfold oneGap
    split <;> omega
  have he := hread o fun k hk => (hpos k hk).1
  have hz := hread (fun _ => 0) fun k hk => by have := (hpos k hk).2; omega
  refine ⟨oneGap s n x, he, hz, fun hsame => hx ?_⟩
  have hfirst := he.first_ne (hn.le.trans hnK)
  have hstill : ∀ j, 1 ≤ j → j ≤ n - 1 → reading (oneGap s n x) o j = reading (oneGap s n x) o 1 := by
    intro j h1 hj
    have hlt : j < n := by omega
    simp only [reading, oneGap, if_pos hlt, if_pos hn, hbefore j h1 hlt]
  have hdue := (sameData_iff data rfl he.first_ne hz.first_ne).mp hsame (n - 1) (by omega) (by omega)
  rw [length_served_eq_one rfl hd hfirst (by omega) hstill, Nat.sub_add_cancel hn.le, Nat.one_mul] at hdue
  have h1 := he.cast_reading (Nat.le_refl 1) (hn.le.trans hnK)
  have h2 := he.cast_reading hn.le hnK
  have h3 := hz.cast_reading (Nat.le_refl 1) (hn.le.trans hnK)
  have h4 := hz.cast_reading hn.le hnK
  simp only [oneGap, if_pos hn, Nat.lt_irrefl, if_false] at h1 h2 h3 h4
  push_cast at h1 h2 h3 h4
  omega

/-- Without a period the clock has only to stay at or after its first reading. -/
theorem not_sameData_of_setBack {o : ℕ → ℤ} {n K : ℕ} (data : ℕ → FactoryData) (hn : 1 ≤ n) (hnK : n ≤ K)
    (hd : 1000000 / freq = 0) (hback : o n < o 1) :
    ∃ e, Readable e o K ∧ Readable e (fun _ => 0) K ∧ ¬ SameData freq data (reading e o) (reading e fun _ => 0) K := by
  obtain ⟨s, hs⟩ := exists_start (fun k => min (o k) 0) K
  have he : Readable (fun _ => s) o K := ⟨fun _ _ => Nat.le_refl s, fun k _ hk => by have := hs k hk; omega⟩
  have hz : Readable (fun _ => s) (fun _ => 0) K :=
    ⟨fun _ _ => Nat.le_refl s, fun k _ hk => by have := hs k hk; omega⟩
  have hne : n ≠ 1 := by
    rintro rfl
    exact lt_irrefl _ hback
  refine ⟨fun _ => s, he, hz, fun hsame => ?_⟩
  have hdue := (sameData_iff data hd he.first_ne hz.first_ne).mp hsame (n - 1) (by omega) (by omega)
  rw [Nat.sub_add_cancel hn, Nat.mul_zero, Nat.add_zero, Nat.add_zero] at hdue
  have h1 := he.cast_reading (Nat.le_refl 1) (hn.trans hnK)
  have h2 := he.cast_reading hn hnK
  have hback' : ¬ reading (fun _ => s) o 1 ≤ reading (fun _ => s) o n := by omega
  exact hback' (hdue.mpr (Nat.le_refl _))

/-- If every sequence of arrivals is treated as on a clock that is never adjusted, this one is not. -/
theorem unadjusted_of_sameData {o : ℕ → ℤ} {K : ℕ} (data : ℕ → FactoryData)
    (h : ∀ e, Readable e o K → Readable e (fun _ => 0) K →
      SameData freq data (reading e o) (reading e fun _ => 0) K) : Unadjusted freq o K := by
  intro k
  induction k using Nat.strong_induction_on with
  | _ k ih =>
    intro h1 hk
    split
    · rename_i hd
      by_contra hback
      obtain ⟨e, he, hz, hnot⟩ := not_sameData_of_setBack data h1 hk hd (not_le.mp hback)
      exact hnot (h e he hz)
    · rename_i hd
      obtain rfl | hlt := Nat.eq_or_lt_of_le h1
      · rfl
      have hbefore : ∀ j, 1 ≤ j → j < k → o j = o 1 := by
        intro j hj hjk
        have := ih j hjk hj (hjk.le.trans hk)
        rwa [if_neg hd] at this
      by_contra hjump
      obtain ⟨e, he, hz, hnot⟩ :=
        not_sameData_of_adjusted data hlt hk (Nat.pos_of_ne_zero hd) hbefore hjump
      exact hnot (h e he hz)

/-- A clock treats all arrivals like every other clock that is left alone, and holds none back too
long, exactly when it is left alone itself. -/
theorem clockLaw (freq : Nat) (o : ℕ → ℤ) (K : ℕ) :
    (∀ e o' data, Readable e o K → Readable e o' K → Unadjusted freq o' K →
      SameData freq data (reading e o) (reading e o') K ∧ Prompt freq data e o K ∧ Prompt freq data e o' K) ↔
    Unadjusted freq o K := by
  constructor
  · intro h
    exact unadjusted_of_sameData (fun _ => newFactory.data) fun e he hz =>
      (h e (fun _ => 0) _ he hz (unadjusted_const freq 0 K)).1
  · intro hu e o' data he he' hu'
    exact ⟨hu.sameData hu' he he', hu.prompt he, hu'.prompt he'⟩

/-- At 1000 Hz the second datum, a period after the first, is held back when the clock is set
back by half a millisecond between the two. -/
theorem not_sameData_setBack : ¬ ∀ (freq : Nat) (e : ℕ → Nat) (o o' : ℕ → ℤ) (data : ℕ → FactoryData) (K : ℕ),
    0 < freq → Readable e o K → Readable e o' K →
    SameData freq data (reading e o) (reading e o') K ∧ Prompt freq data e o' K := by
  intro h
  have he : ∀ o : ℕ → ℤ, (∀ k, -500 ≤ o k) → Readable (fun k => 1000 * k) o 2 := by
    intro o ho
    refine ⟨fun k _ => by omega, fun k h1 _ => ?_⟩
    have := ho k
    push_cast
    omega
  have hsame := (h 1000 (fun k => 1000 * k) (fun _ => 0) (fun k => if k ≤ 1 then 0 else -500)
    (fun _ => newFactory.data) 2 (by decide) (he _ fun _ => by decide)
    (he _ fun k => by split <;> decide)).1 1 (by decide)
  revert hsame
  decide

end OscDataProcess
