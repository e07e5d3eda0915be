import Mathlib.Algebra.Order.Group.Nat
import Mathlib.Algebra.GroupWithZero.Nat
import Mathlib.Logic.Relation

/-!
# Runs of a partial transition function under a discipline

`step s e` is the state after event `e`, or `none` where `e` cannot happen.
A discipline says which events the environment allows itself in which state;
the runs that keep it are the reflexive transitive closure of its steps.
-/
namespace GuardedRun

variable {σ ε τ : Type}

/-- One step whose event keeps the discipline. -/
def Next (step : σ → ε → Option σ) (P : σ → ε → Prop) (s t : σ) : Prop :=
  ∃ e, P s e ∧ step s e = some t

/-- The states that runs keeping the discipline reach. -/
def Reaches (step : σ → ε → Option σ) (P : σ → ε → Prop) : σ → σ → Prop :=
  Relation.ReflTransGen (Next step P)

variable {step : σ → ε → Option σ} {P Q : σ → ε → Prop}

theorem Reaches.refl (s : σ) : Reaches step P s s := Relation.ReflTransGen.refl

theorem Reaches.tail {s t u : σ} {e : ε} (h : Reaches step P s t) (hp : P t e)
    (he : step t e = some u) : Reaches step P s u :=
  Relation.ReflTransGen.tail h ⟨e, hp, he⟩

theorem Reaches.trans {s t u : σ} (h : Reaches step P s t) (h' : Reaches step P t u) :
    Reaches step P s u :=
  Relation.ReflTransGen.trans h h'

/-- A weaker discipline allows more runs. -/
theorem Reaches.mono (hpq : ∀ s e, P s e → Q s e) {s t : σ} (h : Reaches step P s t) :
    Reaches step Q s t :=
  Relation.ReflTransGen.mono (fun _ _ ⟨e, hp, he⟩ => ⟨e, hpq _ _ hp, he⟩) _ _ h

/-- What holds at the start and survives every allowed step holds in every reached state. -/
theorem Reaches.invariant {I : σ → Prop}
    (hstep : ∀ s e t, I s → P s e → step s e = some t → I t)
    {s t : σ} (h : Reaches step P s t) (hs : I s) : I t := by
  induction h with
  | refl => exact hs
  | tail _ hn ih =>
    obtain ⟨e, hp, he⟩ := hn
    exact hstep _ e _ ih hp he

/-- An invariant may use what is already known of every reached state. -/
theorem Reaches.invariant_of {I K : σ → Prop} {s : σ}
    (hk : ∀ t, Reaches step P s t → K t)
    (hstep : ∀ t e u, K t → I t → P t e → step t e = some u → K u → I u)
    (hs : I s) {t : σ} (h : Reaches step P s t) : I t := by
  induction h with
  | refl => exact hs
  | tail hr hn ih =>
    obtain ⟨e, hp, he⟩ := hn
    exact hstep _ e _ (hk _ hr) ih hp he (hk _ (hr.tail ⟨e, hp, he⟩))

/-- What every step of a reached state satisfies may be added to the discipline. -/
theorem Reaches.strengthen {s : σ}
    (hq : ∀ t e u, Reaches step P s t → P t e → step t e = some u → Q t e)
    {t : σ} (h : Reaches step P s t) : Reaches step Q s t := by
  induction h with
  | refl => exact Reaches.refl s
  | tail hr hn ih =>
    obtain ⟨e, hp, he⟩ := hn
    exact ih.tail (hq _ e _ hr hp he) he

/-- A run maps to a run of an abstract system when each step maps to one of its steps or to none. -/
theorem Reaches.simulate {σ' ε' : Type} {step' : σ' → ε' → Option σ'} {P' : σ' → ε' → Prop}
    (abs : σ → σ') {I : σ → Prop}
    (hsim : ∀ s e t, I s → P s e → step s e = some t →
      I t ∧ (abs t = abs s ∨ Next step' P' (abs s) (abs t)))
    {s t : σ} (hs : I s) (h : Reaches step P s t) : Reaches step' P' (abs s) (abs t) := by
  have hboth : I t ∧ Reaches step' P' (abs s) (abs t) := by
    induction h with
    | refl => exact ⟨hs, Reaches.refl _⟩
    | tail _ hn ih =>
      obtain ⟨e, hp, he⟩ := hn
      obtain ⟨hi, hab⟩ := hsim _ e _ ih.1 hp he
      refine ⟨hi, ?_⟩
      obtain hsame | hnext := hab
      · rw [hsame]
        exact ih.2
      · exact Relation.ReflTransGen.tail ih.2 hnext
  exact hboth.2

/-- The runs that keep the discipline, with their events. -/
inductive Along (step : σ → ε → Option σ) (P : σ → ε → Prop) (s : σ) : List ε → σ → Prop
  | nil : Along step P s [] s
  | snoc {es : List ε} {e : ε} {t u : σ} (h : Along step P s es t) (hp : P t e) (he : step t e = some u) :
    Along step P s (es ++ [e]) u

theorem Along.reaches {s t : σ} {es : List ε} (h : Along step P s es t) : Reaches step P s t := by
  induction h with
  | nil => exact .refl s
  | snoc _ hp he ih => exact ih.tail hp he

theorem Along.trans {s t u : σ} {es es' : List ε} (h : Along step P s es t) (h' : Along step P t es' u) :
    Along step P s (es ++ es') u := by
  induction h' with
  | nil => rwa [List.append_nil]
  | snoc _ hp he ih => exact List.append_assoc .. ▸ ih.snoc hp he

/-- While `I` holds every step that counts is paid for out of the potential; what holds at
the end held all along. -/
theorem Along.potential {K : σ → Prop} (I : σ → Prop) (Φ : σ → Nat) (counts : ε → Bool) {s : σ}
    (hk : ∀ t, Reaches step P s t → K t)
    (hback : ∀ t e u, K t → P t e → step t e = some u → I u → I t)
    (hpay : ∀ t e u, K t → K u → P t e → step t e = some u → I t → I u → (if counts e then 1 else 0) + Φ u ≤ Φ t)
    {es : List ε} {t : σ} (h : Along step P s es t) (hi : I t) : es.countP counts + Φ t ≤ Φ s := by
  induction h with
  | nil => simp
  | @snoc es e t u ha hp he ih =>
    have ht := hk t ha.reaches
    have hit := hback t e u ht hp he hi
    have hcost := hpay t e u ht (hk u (ha.reaches.tail hp he)) hp he hit hi
    have := ih hit
    rw [List.countP_append, List.countP_singleton]
    omega

/-- The steps that count are paid for out of the budget, to which every event adds its `grant`. -/
theorem Along.budget {K : σ → Prop} (Φ : σ → Nat) (grant : ε → Nat) (counts : ε → Bool) {s : σ}
    (hk : ∀ t, Reaches step P s t → K t)
    (hpay : ∀ t e u, K t → P t e → step t e = some u → (if counts e then 1 else 0) + Φ u ≤ Φ t + grant e)
    {es : List ε} {t : σ} (h : Along step P s es t) : es.countP counts + Φ t ≤ Φ s + (es.map grant).sum := by
  induction h with
  | nil => simp
  | @snoc es e t u ha hp he ih =>
    have hcost := hpay t e u (hk t ha.reaches) hp he
    rw [List.countP_append, List.countP_singleton, List.map_append, List.sum_append, List.map_singleton,
      List.sum_singleton]
    omega

/-- Execute a list of events, checking the discipline at each. -/
def execute (step : σ → ε → Option σ) (P : σ → ε → Prop) [∀ s e, Decidable (P s e)] :
    σ → List ε → Option σ
  | s, [] => some s
  | s, e :: es => if P s e then (step s e).bind fun t => execute step P t es else none

/-- An executed list of events is a run. -/
theorem along_of_execute [∀ s e, Decidable (P s e)] {s t : σ} {es : List ε}
    (h : execute step P s es = some t) : Along step P s es t := by
  induction es generalizing s with
  | nil =>
    obtain rfl : s = t := by simpa [execute] using h
    exact .nil
  | cons e es ih =>
    simp only [execute] at h
    split at h
    · rename_i hp
      obtain ⟨u, hu, ht⟩ := Option.bind_eq_some_iff.mp h
      exact (Along.nil.snoc hp hu).trans (ih ht)
    · cases h

theorem reaches_of_execute [∀ s e, Decidable (P s e)] {s t : σ} {es : List ε}
    (h : execute step P s es = some t) : Reaches step P s t :=
  (along_of_execute h).reaches

/-- A run that executes to a state with property `p`. -/
theorem exists_of_execute (step : σ → ε → Option σ) (P : σ → ε → Prop) [∀ s e, Decidable (P s e)]
    (s : σ) (es : List ε) (p : σ → Bool) (h : (execute step P s es).map p = some true) :
    ∃ t, Reaches step P s t ∧ p t = true := by
  obtain ⟨t, ht, hp⟩ := Option.map_eq_some_iff.mp h
  exact ⟨t, reaches_of_execute ht, hp⟩

end GuardedRun
