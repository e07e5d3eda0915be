import OscDataProcess.GuardedRun

/-!
# Runs that cannot fail and must arrive

A block of code is described by where its runs arrive: `Eventually step P R Q s` says
that a run from `s` under the discipline `P` reaches `Q` after finitely many steps,
that no event it may take fails on the way, and that each step keeps the relation `R`.
-/
namespace GuardedRun

variable {σ ε : Type}

inductive Eventually (step : σ → ε → Option σ) (P : σ → ε → Prop) (R : σ → σ → Prop)
    (Q : σ → Prop) : σ → Prop
  | now {s : σ} : Q s → Eventually step P R Q s
  | later {s : σ} : (∀ e, P s e → (step s e).isSome) → (∀ e t, P s e → step s e = some t → R s t) →
      (∀ e t, P s e → step s e = some t → Eventually step P R Q t) → Eventually step P R Q s

variable {step : σ → ε → Option σ} {P P' : σ → ε → Prop} {R R' : σ → σ → Prop} {Q Q' I : σ → Prop}

/-- Every event that may be taken at `s` succeeds and leads on to `Q`. -/
def Advances (step : σ → ε → Option σ) (P : σ → ε → Prop) (R : σ → σ → Prop) (Q : σ → Prop)
    (s : σ) : Prop :=
  ∀ e, P s e → ∃ t, step s e = some t ∧ R s t ∧ Eventually step P R Q t

theorem Eventually.next {s : σ} (h : Advances step P R Q s) : Eventually step P R Q s := by
  refine .later (fun e he => ?_) (fun e t he ht => ?_) (fun e t he ht => ?_)
  · obtain ⟨t, ht, -⟩ := h e he
    rw [ht]
    rfl
  · obtain ⟨u, hu, hr, -⟩ := h e he
    exact Option.some.inj (hu.symm.trans ht) ▸ hr
  · obtain ⟨u, hu, -, hev⟩ := h e he
    exact Option.some.inj (hu.symm.trans ht) ▸ hev

/-- The sequence rule. -/
theorem Eventually.trans {s : σ} (h : Eventually step P R Q s)
    (hQ : ∀ t, Q t → Eventually step P R Q' t) : Eventually step P R Q' s := by
  induction h with
  | now hq => exact hQ _ hq
  | later hok hr _ ih => exact .later hok hr ih

/-- The rule of consequence. -/
theorem Eventually.mono {s : σ} (h : Eventually step P R Q s) (hR : ∀ t u, R t u → R' t u)
    (hQ : ∀ t, Q t → Q' t) : Eventually step P R' Q' s := by
  induction h with
  | now hq => exact .now (hQ _ hq)
  | later hok hr _ ih => exact .later hok (fun e t he ht => hR _ _ (hr e t he ht)) ih

theorem Advances.mono {s : σ} (h : Advances step P R Q s) (hR : ∀ t u, R t u → R' t u)
    (hQ : ∀ t, Q t → Q' t) : Advances step P R' Q' s := by
  intro e he
  obtain ⟨t, ht, hr, hev⟩ := h e he
  exact ⟨t, ht, hR s t hr, hev.mono hR hQ⟩

/-- Fewer events may be taken. -/
theorem Eventually.restrict {s : σ} (h : Eventually step P R Q s) (hP : ∀ t e, P' t e → P t e) :
    Eventually step P' R Q s := by
  induction h with
  | now hq => exact .now hq
  | later hok hr _ ih =>
    exact .later (fun e he => hok e (hP _ e he)) (fun e t he => hr e t (hP _ e he))
      (fun e t he => ih e t (hP _ e he))

/-- Where some event may always be taken, a run does arrive. -/
theorem Eventually.exists_reaches {s : σ} (h : Eventually step P R Q s) (hex : ∀ t, ∃ e, P t e) :
    ∃ t, Reaches step P s t ∧ Q t := by
  induction h with
  | now hq => exact ⟨_, Reaches.refl _, hq⟩
  | @later s hok _ _ ih =>
    obtain ⟨e, he⟩ := hex s
    obtain ⟨u, hu⟩ := Option.isSome_iff_exists.mp (hok e he)
    obtain ⟨t, hr, hq⟩ := ih e u he hu
    exact ⟨t, ((Reaches.refl s).tail he hu).trans hr, hq⟩

/-- From a state on the way to `I` any step stays on the way, if every block that starts in `I`
comes back to it. -/
theorem Eventually.advances {s : σ} (h : Eventually step P R I s)
    (hI : ∀ t, I t → Advances step P R I t) : Advances step P R I s := by
  cases h with
  | now hi => exact hI s hi
  | later hok hr hev =>
    intro e he
    obtain ⟨t, ht⟩ := Option.isSome_iff_exists.mp (hok e he)
    exact ⟨t, ht, hr e t he ht, hev e t he ht⟩

/-- The rule for a loop whose every turn is a block from `I` to `I`: all reached states are
inside some turn, and the last step kept `R`. -/
theorem Reaches.eventually {s t : σ} (hr : Reaches step P s t) (hs : Eventually step P R I s)
    (hI : ∀ t, I t → Advances step P R I t) : Eventually step P R I t ∧ (t = s ∨ ∃ u, R u t) := by
  refine hr.invariant (I := fun t => Eventually step P R I t ∧ (t = s ∨ ∃ u, R u t))
    (fun u e v hu he hv => ?_) ⟨hs, .inl rfl⟩
  obtain ⟨v', hv', hkeeps, hev⟩ := hu.1.advances hI e he
  obtain rfl := Option.some.inj (hv'.symm.trans hv)
  exact ⟨hev, .inr ⟨u, hkeeps⟩⟩

/-- The rule for a loop whose turns come closer to `Q`. -/
theorem Eventually.of_variant (μ : σ → Nat)
    (hI : ∀ t, I t → ¬ Q t → Advances step P R (fun u => I u ∧ μ u < μ t) t) {s : σ} (hs : I s) :
    Eventually step P R Q s := by
  induction hn : μ s using Nat.strongRecOn generalizing s with
  | ind n ih =>
    by_cases hq : Q s
    · exact .now hq
    · refine Eventually.trans (.next (hI s hs hq)) fun u ⟨hu, hlt⟩ => ?_
      exact ih (μ u) (hn ▸ hlt) hu rfl

end GuardedRun
