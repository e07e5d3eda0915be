import OscDataProcess.Limiter
import Mathlib.Algebra.Order.Ring.Abs
import Mathlib.Algebra.Order.Field.Basic
import Mathlib.Algebra.Order.Ring.Rat
import Mathlib.Tactic.LinearCombination
import Mathlib.Tactic.Linarith
import Mathlib.Tactic.FieldSimp

/-!
# How well the rate limiter keeps its frequency

The period is truncated to whole microseconds, so over a long run the host is sent
data a little too fast; and a limiter that has fallen behind makes up for it, so
after a pause a window may hold more data than its length allows.
-/
namespace OscDataProcess

variable {t : ℕ → Nat} {k : ℕ}

/-- Over `span` microseconds `n` data are the configured frequency, give or take three. -/
def KeepsFrequency (freq span n : Nat) : Prop := |(n : ℚ) - span * freq / 1000000| ≤ 3

/-- What truncation adds over the whole periods of the span is at most two data and
the part of a datum that is due for the rest of it. Without a period every datum
counts. -/
def DriftBounded (freq span k : Nat) : Prop :=
  if 1000000 / freq = 0 then k ≤ 3
  else span / (1000000 / freq) * (1000000 % freq) ≤ 2000000 + span % (1000000 / freq) * freq

instance (freq span k : Nat) : Decidable (DriftBounded freq span k) := by
  unfold DriftBounded
  infer_instance

/-- One datum for each whole period and one at the start. -/
theorem keepsFrequency_periods {freq d : Nat} (hdelta : 1000000 / freq = d) (hd : 0 < d) (span : Nat) :
    KeepsFrequency freq span (1 + span / d) ↔
      span / d * (1000000 % freq) ≤ 2000000 + span % d * freq := by
  have hperiod : (freq : ℚ) * d + (1000000 % freq : ℕ) = 1000000 := by
    have := Nat.div_add_mod 1000000 freq
    rw [hdelta] at this
    exact_mod_cast this
  have hspan : (d : ℚ) * (span / d : ℕ) + (span % d : ℕ) = span := by
    exact_mod_cast Nat.div_add_mod span d
  have hrest : ((span % d : ℕ) : ℚ) * freq ≤ 1000000 := by
    have hlt : span % d * freq ≤ d * freq := Nat.mul_le_mul_right freq (Nat.mod_lt span hd).le
    have hle : d * freq ≤ 1000000 := hdelta ▸ Nat.div_mul_le_self 1000000 freq
    exact_mod_cast hlt.trans hle
  have hcount : ((1 + span / d : ℕ) : ℚ) - span * freq / 1000000 =
      (1000000 + (span / d : ℕ) * (1000000 % freq : ℕ) - (span % d : ℕ) * freq) / 1000000 := by
    rw [← hspan]
    push_cast
    field_simp
    linear_combination -((span / d : ℕ) : ℚ) * hperiod
  rw [KeepsFrequency, hcount, abs_le, le_div_iff₀ (by norm_num), div_le_iff₀ (by norm_num)]
  constructor
  · rintro ⟨-, h⟩
    have : ((span / d : ℕ) : ℚ) * (1000000 % freq : ℕ) ≤ 2000000 + (span % d : ℕ) * freq := by linarith
    exact_mod_cast this
  · intro h
    have hup : ((span / d : ℕ) : ℚ) * (1000000 % freq : ℕ) ≤ 2000000 + (span % d : ℕ) * freq := by
      exact_mod_cast h
    have hlow : (0 : ℚ) ≤ (span / d : ℕ) * (1000000 % freq : ℕ) := by positivity
    constructor <;> linarith

theorem length_offers (t : ℕ → Nat) (data : ℕ → FactoryData) (k : ℕ) : (offers t data k).length = k := by
  induction k with
  | zero => rfl
  | succ k ih => simp [offers, ih]

/-- With gaps of zero the span is zero. -/
theorem span_eq_zero (hgap : ∀ j, 1 ≤ j → j < k + 1 → t (j + 1) - t j ≤ 0) : t (k + 1) - t 1 = 0 := by
  induction k with
  | zero => exact Nat.sub_self _
  | succ k ih =>
    have hlast := hgap (k + 1) (Nat.le_add_left 1 k) (Nat.lt_succ_self _)
    have := ih fun j h1 hj => hgap j h1 (Nat.lt_succ_of_lt hj)
    omega

/-- For every nondecreasing sequence of clock readings whose gaps are at most one period. -/
theorem keepsFrequency_iff (freq : Nat) (t : ℕ → Nat) (data : ℕ → FactoryData)
    (hmono : ∀ j, 1 ≤ j → t j ≤ t (j + 1)) (hfirst : t 1 ≠ 0) (k : ℕ) (hk : 1 ≤ k)
    (hgap : ∀ j, 1 ≤ j → j < k → t (j + 1) - t j ≤ 1000000 / freq) :
    KeepsFrequency freq (t k - t 1) (served freq t data k).2.length ↔ DriftBounded freq (t k - t 1) k := by
  obtain ⟨k, rfl⟩ := Nat.exists_eq_add_of_le' hk
  by_cases hd : 1000000 / freq = 0
  · have hspan : t (k + 1) - t 1 = 0 := span_eq_zero (hd ▸ hgap)
    have hcount : (served freq t data (k + 1)).2.length = k + 1 := by
      rw [served_of_delta_eq_zero hd hmono hfirst, List.length_map, length_offers]
    rw [hcount, hspan, DriftBounded, if_pos hd, KeepsFrequency]
    simp only [Nat.cast_zero, zero_mul, zero_div, sub_zero, Nat.abs_cast]
    exact_mod_cast Iff.rfl
  · have hpos := Nat.pos_of_ne_zero hd
    rw [length_served_of_dense data rfl hpos hmono hfirst hgap, keepsFrequency_periods rfl hpos,
      DriftBounded, if_neg hd]

/-- Two seconds at 351 Hz with a datum every millisecond. -/
theorem keepsFrequency_iff_two_seconds :
    KeepsFrequency 351 (1000 * 2001 - 1000 * 1) (served 351 (1000 * ·) (fun _ => newFactory.data) 2001).2.length ↔
      DriftBounded 351 (1000 * 2001 - 1000 * 1) 2001 :=
  keepsFrequency_iff 351 (1000 * ·) (fun _ => newFactory.data) (by intro j _; omega) (by decide)
    2001 (by decide) (by intro j _ _; omega)

/-- At 600 Hz the period is 1666 microseconds: after twelve and a half seconds the host has
four data too many. -/
theorem not_keepsFrequency_drift : ¬ ∀ (freq : Nat) (t : ℕ → Nat) (data : ℕ → FactoryData) (k : ℕ), 0 < freq →
    (∀ j, 1 ≤ j → t j ≤ t (j + 1)) → t 1 ≠ 0 → 1 ≤ k →
    (∀ j, 1 ≤ j → j < k → t (j + 1) - t j ≤ 1000000 / freq) →
    KeepsFrequency freq (t k - t 1) (served freq t data k).2.length := by
  intro h
  have hmono : ∀ j, 1 ≤ j → 1000 * j ≤ 1000 * (j + 1) := by intro j _; omega
  have hgap : ∀ j, 1 ≤ j → j < 12500 + 1 → 1000 * (j + 1) - 1000 * j ≤ 1666 := by intro j _ _; omega
  have hkeeps := h 600 (1000 * ·) (fun _ => newFactory.data) 12501 (by decide) hmono (by decide) (by decide) hgap
  rw [length_served_of_dense _ rfl (by decide) hmono (by decide) hgap] at hkeeps
  have hdrift := (keepsFrequency_periods rfl (by decide) _).mp hkeeps
  revert hdrift
  decide

/-- Whether the `k + 1`-st call of OnDataProduced forwards its datum. -/
def forwards (freq : Nat) (t : ℕ → Nat) (data : ℕ → FactoryData) (k : ℕ) : Bool :=
  ((served freq t data k).1.onDataProduced (t (k + 1))).2

/-- How many of the first `k` calls forward a datum at a reading in the window of `width`
microseconds from `start` on. -/
def windowCount (freq : Nat) (t : ℕ → Nat) (data : ℕ → FactoryData) (start width : Nat) (k : ℕ) : Nat :=
  (List.range k).countP fun j =>
    forwards freq t data j && decide (start ≤ t (j + 1) ∧ t (j + 1) < start + width)

/-- How many of the first `k` calls come before `start`. -/
def earlier (t : ℕ → Nat) (start : Nat) (k : ℕ) : ℕ := (List.range k).countP fun j => decide (t (j + 1) < start)

/-- How far `last_notify_time_` lags behind the window when it opens. -/
def lag (freq : Nat) (t : ℕ → Nat) (data : ℕ → FactoryData) (start : Nat) (k : ℕ) : Nat :=
  if earlier t start k = 0 then 0
  else start - (served freq t data (earlier t start k)).1.lastNotifyTime

theorem length_served_succ (freq : Nat) (t : ℕ → Nat) (data : ℕ → FactoryData) (k : ℕ) :
    (served freq t data (k + 1)).2.length =
      (served freq t data k).2.length + if forwards freq t data k then 1 else 0 := by
  rw [served_succ, List.length_append]
  unfold forwards
  split <;> rfl

theorem windowCount_succ (freq : Nat) (t : ℕ → Nat) (data : ℕ → FactoryData) (start width : Nat) (k : ℕ) :
    windowCount freq t data start width (k + 1) = windowCount freq t data start width k +
      if forwards freq t data k = true ∧ start ≤ t (k + 1) ∧ t (k + 1) < start + width then 1 else 0 := by
  simp only [windowCount, List.range_succ, List.countP_append, List.countP_singleton, Bool.and_eq_true,
    decide_eq_true_eq]

theorem earlier_succ (t : ℕ → Nat) (start : Nat) (k : ℕ) :
    earlier t start (k + 1) = earlier t start k + if t (k + 1) < start then 1 else 0 := by
  simp only [earlier, List.range_succ, List.countP_append, List.countP_singleton, decide_eq_true_eq]

theorem le_of_mono (hmono : ∀ j, 1 ≤ j → t j ≤ t (j + 1)) {i j : ℕ} (hi : 1 ≤ i) (hij : i ≤ j) : t i ≤ t j := by
  induction j, hij using Nat.le_induction with
  | base => exact Nat.le_refl _
  | succ j hij ih => exact ih.trans (hmono j (hi.trans hij))

/-- The calls before the window come first. -/
theorem earlier_eq (hmono : ∀ j, 1 ≤ j → t j ≤ t (j + 1)) {start : Nat} {k : ℕ} (hk : t (k + 1) < start) :
    earlier t start (k + 1) = k + 1 := by
  induction k with
  | zero => simp [earlier, hk]
  | succ k ih => rw [earlier_succ, ih ((hmono (k + 1) (Nat.le_add_left 1 k)).trans_lt hk), if_pos hk]

/-- Every datum forwarded by the time the window opens or in the window is one or the other. -/
theorem windowCount_add (data : ℕ → FactoryData) (freq : Nat) (hmono : ∀ j, 1 ≤ j → t j ≤ t (j + 1))
    {start width : Nat} {k : ℕ} (hk : t k < start + width ∨ k = 0) :
    windowCount freq t data start width k + (served freq t data (earlier t start k)).2.length =
      (served freq t data k).2.length := by
  induction k with
  | zero => rfl
  | succ k ih =>
    have hlast : t (k + 1) < start + width := hk.resolve_right (Nat.succ_ne_zero k)
    have hprev : t k < start + width ∨ k = 0 := by
      cases k with
      | zero => exact .inr rfl
      | succ k => exact .inl ((hmono (k + 1) (Nat.le_add_left 1 k)).trans_lt hlast)
    have hsum := ih hprev
    by_cases hs : t (k + 1) < start
    · have hall : earlier t start k = k := by
        have := earlier_eq hmono hs
        rw [earlier_succ, if_pos hs] at this
        exact Nat.succ.inj this
      rw [hall] at hsum
      rw [windowCount_succ, if_neg (by omega), earlier_eq hmono hs]
      omega
    · have hsame : earlier t start (k + 1) = earlier t start k := by simp [earlier_succ, hs]
      rw [windowCount_succ, hsame, length_served_succ, ← hsum]
      by_cases hf : forwards freq t data k = true
      · rw [if_pos ⟨hf, Nat.not_lt.mp hs, hlast⟩, if_pos hf]
        omega
      · rw [if_neg (fun h => hf h.1), if_neg hf]
        omega

theorem paced_length (data : ℕ → FactoryData) {freq d : Nat} (hdelta : 1000000 / freq = d) (hd : 0 < d)
    (hmono : ∀ j, 1 ≤ j → t j ≤ t (j + 1)) (hfirst : t 1 ≠ 0) {k : ℕ} (hk : 1 ≤ k) :
    Paced d (t 1) (t k) (served freq t data k).1 (served freq t data k).2.length := by
  obtain ⟨k, rfl⟩ := Nat.exists_eq_add_of_le' hk
  obtain ⟨hlen, hp⟩ := paced_served data freq hdelta hd hmono hfirst k
  rw [hlen]
  exact hp

theorem earlier_le (t : ℕ → Nat) (start : Nat) (k : ℕ) : earlier t start k ≤ k :=
  (List.countP_le_length).trans (List.length_range ..).le

/-- The readings before the window, and the first one that is not. -/
theorem earlier_spec (hmono : ∀ j, 1 ≤ j → t j ≤ t (j + 1)) (start : Nat) (k : ℕ) :
    (earlier t start k ≠ 0 → t (earlier t start k) < start) ∧
      (earlier t start k < k → start ≤ t (earlier t start k + 1)) := by
  induction k with
  | zero => simp [earlier]
  | succ k ih =>
    by_cases hs : t (k + 1) < start
    · rw [earlier_eq hmono hs]
      exact ⟨fun _ => hs, fun h => absurd h (Nat.lt_irrefl _)⟩
    · have hsame : earlier t start (k + 1) = earlier t start k := by simp [earlier_succ, hs]
      rw [hsame]
      refine ⟨ih.1, fun h => ?_⟩
      obtain hlt | heq := Nat.lt_or_eq_of_le (Nat.le_of_lt_succ h)
      · exact ih.2 hlt
      · rw [heq]
        exact Nat.not_lt.mp hs

/-- A window whose last call is the last one so far. -/
theorem windowCount_le_of_open (data : ℕ → FactoryData) {freq d : Nat} (hdelta : 1000000 / freq = d) (hd : 0 < d)
    (hmono : ∀ j, 1 ≤ j → t j ≤ t (j + 1)) (hfirst : t 1 ≠ 0) {start width : Nat} {k : ℕ}
    (hk : t k < start + width ∨ k = 0) :
    windowCount freq t data start width k ≤ width / d + 1 + lag freq t data start k / d := by
  have hsum := windowCount_add data freq hmono hk
  obtain rfl | hpos := Nat.eq_zero_or_pos k
  · exact Nat.zero_le _
  have hlast : t k < start + width := hk.resolve_right hpos.ne'
  obtain ⟨-, hn, href, hpast⟩ := paced_length data hdelta hd hmono hfirst hpos
  by_cases hzero : earlier t start k = 0
  · have hopen : start ≤ t 1 := by
      have := (earlier_spec hmono start k).2
      rw [hzero] at this
      exact this hpos
    rw [hzero] at hsum
    have hcount : windowCount freq t data start width k = (served freq t data k).2.length := hsum
    have hmul : ((served freq t data k).2.length - 1) * d ≤ width := by omega
    have hdiv := (Nat.le_div_iff_mul_le hd).mpr hmul
    rw [hcount]
    exact Nat.le_add_right_of_le (Nat.le_add_of_sub_le hdiv)
  · have hbefore := (earlier_spec hmono start k).1 hzero
    obtain ⟨-, hn', href', hpast'⟩ := paced_length data hdelta hd hmono hfirst (Nat.one_le_iff_ne_zero.mpr hzero)
    rw [lag, if_neg hzero]
    generalize (served freq t data (earlier t start k)).1.lastNotifyTime = reference at *
    have hmul : windowCount freq t data start width k * d ≤ width + (start - reference) := by
      have hsplit : (served freq t data k).2.length - 1 =
          windowCount freq t data start width k + ((served freq t data (earlier t start k)).2.length - 1) := by
        omega
      rw [hsplit, Nat.add_mul] at href
      omega
    have hdiv := (Nat.le_div_iff_mul_le hd).mpr hmul
    rw [Nat.add_div hd] at hdiv
    split at hdiv <;> omega

/-- At a Factory at least as fast as the host, the reference lags by less than two periods. -/
theorem lag_lt (data : ℕ → FactoryData) {freq d : Nat} (hdelta : 1000000 / freq = d) (hd : 0 < d)
    (hmono : ∀ j, 1 ≤ j → t j ≤ t (j + 1)) (hfirst : t 1 ≠ 0) {start : Nat} {k : ℕ}
    (hgap : ∀ j, 1 ≤ j → j < k → t (j + 1) - t j ≤ d) (hopen : earlier t start k < k) :
    lag freq t data start k < 2 * d := by
  rw [lag]
  split
  · omega
  · rename_i hzero
    have hstart := (earlier_spec hmono start k).2 hopen
    have hlast := hgap _ (Nat.one_le_iff_ne_zero.mpr hzero) hopen
    have hlen := length_served_of_dense (k := earlier t start k - 1) data hdelta hd hmono hfirst
      (fun j h1 hj => hgap j h1 (by omega))
    rw [Nat.sub_add_cancel (Nat.one_le_iff_ne_zero.mpr hzero)] at hlen
    obtain ⟨-, -, href, -⟩ := paced_length data hdelta hd hmono hfirst (Nat.one_le_iff_ne_zero.mpr hzero)
    have hmod := Nat.div_add_mod' (t (earlier t start k) - t 1) d
    have hlt := Nat.mod_lt (t (earlier t start k) - t 1) hd
    rw [href, hlen, Nat.add_sub_cancel_left]
    omega

/-- The cap on what a window holds. A limiter that lags behind makes up for its backlog. -/
structure RateCap (freq : Nat) (t : ℕ → Nat) (data : ℕ → FactoryData) (start width : Nat) (k : ℕ) : Prop where
  cap : windowCount freq t data start width k ≤
    width / (1000000 / freq) + 1 + lag freq t data start k / (1000000 / freq)
  steady : (∀ j, 1 ≤ j → j < k → t (j + 1) - t j ≤ 1000000 / freq) →
    windowCount freq t data start width k ≤ width / (1000000 / freq) + 2

/-- For every nondecreasing sequence of clock readings and every window. -/
theorem rateCap_of_readings (freq : Nat) (hd : 0 < 1000000 / freq) (t : ℕ → Nat) (data : ℕ → FactoryData)
    (hmono : ∀ j, 1 ≤ j → t j ≤ t (j + 1)) (hfirst : t 1 ≠ 0) (start width : Nat) (k : ℕ) :
    RateCap freq t data start width k := by
  induction k with
  | zero => exact ⟨Nat.zero_le _, fun _ => Nat.zero_le _⟩
  | succ k ih =>
    by_cases hk : t (k + 1) < start + width
    · have hcap := windowCount_le_of_open data rfl hd hmono hfirst (.inl hk)
      refine ⟨hcap, fun hgap => ?_⟩
      obtain hopen | hall := Nat.lt_or_eq_of_le (earlier_le t start (k + 1))
      · have hlag := lag_lt data rfl hd hmono hfirst hgap hopen
        have := Nat.le_of_lt_succ (Nat.div_lt_of_lt_mul (Nat.mul_comm 2 _ ▸ hlag))
        omega
      · have hsum := windowCount_add data freq hmono (.inl hk)
        rw [hall, Nat.add_eq_right] at hsum
        rw [hsum]
        exact Nat.zero_le _
    · have hsame : earlier t start (k + 1) = earlier t start k := by
        have : ¬ t (k + 1) < start := by omega
        simp [earlier_succ, this]
      have hcount : windowCount freq t data start width (k + 1) = windowCount freq t data start width k := by
        rw [windowCount_succ, if_neg fun h => hk h.2.2]
        rfl
      refine ⟨?_, fun hgap => ?_⟩
      · rw [hcount, lag, hsame]
        exact ih.cap
      · rw [hcount]
        exact ih.steady fun j h1 hj => hgap j h1 (Nat.lt_succ_of_lt hj)

/-- One datum, a pause of a hundred milliseconds, then a datum every millisecond. -/
def pausedReadings (j : ℕ) : Nat := if j ≤ 1 then 1000 else 99000 + 1000 * j

theorem pausedReadings_mono (j : ℕ) : pausedReadings j ≤ pausedReadings (j + 1) := by
  unfold pausedReadings
  split <;> split <;> omega

theorem rateCap_of_readings_pause : RateCap 100 pausedReadings (fun _ => newFactory.data) 101000 10000 11 :=
  rateCap_of_readings 100 (by decide) pausedReadings (fun _ => newFactory.data)
    (fun j _ => pausedReadings_mono j) (by decide) 101000 10000 11

/-- At 100 Hz, ten data reach the host within ten milliseconds after the pause. -/
theorem not_windowCount_le_pause : ¬ ∀ (freq : Nat) (t : ℕ → Nat) (data : ℕ → FactoryData) (start width : Nat)
    (k : ℕ), 0 < freq → 0 < 1000000 / freq → (∀ j, 1 ≤ j → t j ≤ t (j + 1)) → t 1 ≠ 0 →
    windowCount freq t data start width k ≤ width / (1000000 / freq) + 2 := by
  intro h
  have hcount := h 100 pausedReadings (fun _ => newFactory.data) 101000 10000 11 (by decide) (by decide)
    (fun j _ => pausedReadings_mono j) (by decide)
  revert hcount
  decide

end OscDataProcess
