import OscDataProcess.GuardedRun
import Mathlib.Data.List.Basic

/-!
# A task that posts itself again

The abstract model of one production chain: a flag, the tasks that wait for their
turn or for their time, and what the running task is at. `p` is the delay with which
the task posts itself. Nobody else can see more of a chain than this.
-/
namespace OscDataProcess

/-- The running task has just begun, or has posted its successor and is about to produce. -/
inductive Stage where
  | idle | scheduling | producing
  deriving DecidableEq, Repr

/-- `start` is the flag, `none` while its owner is not alive; `taken` counts the tasks that were
run, `times` lists when data were produced. -/
@[ext] structure Chain where
  now : Nat
  start : Option Bool
  immediate : Nat
  delayed : List Nat
  stage : Stage
  times : List Nat
  taken : Nat
  deriving DecidableEq, Repr

inductive Beat where
  | tick (us : Nat)
  | create
  | delete
  | start
  | stop
  | take
  | takeDelayed (i : Nat)
  | schedule
  | produce
  deriving DecidableEq, Repr

namespace Chain

def initial : Chain := ⟨0, none, 0, [], .idle, [], 0⟩

/-- How many tasks are posted and not yet run. -/
def outstanding (s : Chain) : Nat := s.immediate + s.delayed.length

/-- A task is run: without an owner it does nothing. -/
def run (s : Chain) : Chain :=
  { s with stage := if s.start.isSome then .scheduling else .idle, taken := s.taken + 1 }

def step (p : Nat) (s : Chain) : Beat → Option Chain
  | .tick us => some { s with now := s.now + us }
  | .create => if s.stage = .idle ∧ s.start = none then some { s with start := some false } else none
  | .delete => if s.stage = .idle then some { s with start := none } else none
  | .start =>
    if s.stage = .idle ∧ s.start = some false then
      some { s with start := some true, immediate := s.immediate + 1 }
    else none
  | .stop => if s.stage = .idle ∧ s.start = some true then some { s with start := some false } else none
  | .take =>
    if s.stage = .idle ∧ s.immediate ≠ 0 then some { s with immediate := s.immediate - 1 }.run else none
  | .takeDelayed i => match s.delayed[i]? with
    | none => none
    | some time =>
      if s.stage = .idle ∧ time ≤ s.now then some { s with delayed := s.delayed.eraseIdx i }.run else none
  | .schedule =>
    if s.stage = .scheduling then
      if s.start = some true then
        if p = 0 then some { s with immediate := s.immediate + 1, stage := .producing }
        else some { s with delayed := s.delayed ++ [s.now + p], stage := .producing }
      else some { s with stage := .idle }
    else none
  | .produce =>
    if s.stage = .producing then some { s with times := s.times ++ [s.now], stage := .idle } else none

variable {p : Nat} {s t : Chain} {b : Beat}

/-- Everything a step can do. -/
inductive Move (p : Nat) (s : Chain) : Beat → Chain → Prop where
  | tick {us : Nat} : Move p s (.tick us) { s with now := s.now + us }
  | create : s.stage = .idle → s.start = none → Move p s .create { s with start := some false }
  | delete : s.stage = .idle → Move p s .delete { s with start := none }
  | start : s.stage = .idle → s.start = some false →
      Move p s .start { s with start := some true, immediate := s.immediate + 1 }
  | stop : s.stage = .idle → s.start = some true → Move p s .stop { s with start := some false }
  | take : s.stage = .idle → s.immediate ≠ 0 →
      Move p s .take { s with immediate := s.immediate - 1 }.run
  | takeDelayed {i time : Nat} : s.stage = .idle → s.delayed[i]? = some time → time ≤ s.now →
      Move p s (.takeDelayed i) { s with delayed := s.delayed.eraseIdx i }.run
  | rest : s.stage = .scheduling → s.start ≠ some true → Move p s .schedule { s with stage := .idle }
  | again : s.stage = .scheduling → s.start = some true → p = 0 →
      Move p s .schedule { s with immediate := s.immediate + 1, stage := .producing }
  | later : s.stage = .scheduling → s.start = some true → p ≠ 0 →
      Move p s .schedule { s with delayed := s.delayed ++ [s.now + p], stage := .producing }
  | produce : s.stage = .producing →
      Move p s .produce { s with times := s.times ++ [s.now], stage := .idle }

theorem step_cases (h : step p s b = some t) : Move p s b t := by
  cases b <;> simp only [step, Option.ite_none_right_eq_some] at h
  case tick => cases h; exact .tick
  case create => obtain ⟨⟨hi, hs⟩, ⟨⟩⟩ := h; exact .create hi hs
  case delete => obtain ⟨hi, ⟨⟩⟩ := h; exact .delete hi
  case start => obtain ⟨⟨hi, hs⟩, ⟨⟩⟩ := h; exact .start hi hs
  case stop => obtain ⟨⟨hi, hs⟩, ⟨⟩⟩ := h; exact .stop hi hs
  case take => obtain ⟨⟨hi, hn⟩, ⟨⟩⟩ := h; exact .take hi hn
  case takeDelayed i =>
    split at h
    · cases h
    · rename_i time htime
      obtain ⟨⟨hi, hle⟩, ⟨⟩⟩ := Option.ite_none_right_eq_some.mp h
      exact .takeDelayed hi htime hle
  case schedule =>
    obtain ⟨hi, h⟩ := h
    split at h
    · rename_i hs
      split at h
      · rename_i hp
        cases h
        exact .again hi hs hp
      · rename_i hp
        cases h
        exact .later hi hs hp
    · rename_i hs
      cases h
      exact .rest hi hs
  case produce => obtain ⟨hi, ⟨⟩⟩ := h; exact .produce hi

/-- The flag is up while data are produced, and a task is on its way while the flag is up. -/
structure Going (s : Chain) : Prop where
  producing : s.stage = .producing → s.start = some true
  alive : s.stage = .scheduling → s.start ≠ none
  goesOn : s.start = some true → 0 < s.outstanding ∨ s.stage = .scheduling

theorem going_initial : Going initial := ⟨nofun, nofun, nofun⟩

theorem Going.step (hg : Going s) (h : step p s b = some t) : Going t := by
  obtain ⟨hp, ha, ho⟩ := hg
  simp only [outstanding] at ho
  cases step_cases h with
  | tick => exact ⟨hp, ha, ho⟩
  | create hi | delete hi | stop hi => exact ⟨by simp [hi], by simp [hi], nofun⟩
  | start hi => exact ⟨by simp [hi], by simp [hi], fun _ => .inl (by simp only [outstanding]; omega)⟩
  | take | takeDelayed =>
    refine ⟨?_, ?_, fun hs => .inr ?_⟩
    · simp only [run]
      split <;> exact nofun
    · simp only [run]
      split
      · rename_i hs
        exact fun _ => Option.isSome_iff_ne_none.mp hs
      · exact nofun
    · simp only [run] at hs ⊢
      simp [hs]
  | rest hi hs => exact ⟨nofun, nofun, fun hs' => absurd hs' hs⟩
  | again hi hs | later hi hs =>
    refine ⟨fun _ => hs, nofun, fun _ => .inl ?_⟩
    simp only [outstanding, List.length_append, List.length_cons]
    omega
  | produce hi =>
    refine ⟨nofun, nofun, fun hs => (ho hs).imp_right fun hi' => ?_⟩
    rw [hi] at hi'
    cases hi'

/-- No owner comes to life. -/
def NoCreate (_ : Chain) (b : Beat) : Prop := b ≠ .create

/-- A chain without an owner gets none. -/
theorem start_eq_none_of_reaches (hs : s.start = none) (hr : GuardedRun.Reaches (step p) NoCreate s t) :
    t.start = none := by
  refine hr.invariant (I := fun t => t.start = none) ?_ hs
  intro t b u ht hb h
  cases step_cases h with
  | create => exact absurd rfl hb
  | delete => rfl
  | start hi hs | stop hi hs | again hi hs | later hi hs => rw [ht] at hs; cases hs
  | tick | take | takeDelayed | rest | produce => exact ht

/-- No one raises the flag. -/
def NoStart (_ : Chain) (b : Beat) : Prop := b ≠ .start

/-- A chain whose flag is down runs its tasks down, and produces nothing. -/
structure Drained (s t : Chain) : Prop where
  start : t.start ≠ some true
  balance : t.outstanding + t.taken = s.outstanding + s.taken
  times : t.times = s.times

theorem Drained.step {u : Chain} (hg : Going t) (hd : Drained s t) (hb : NoStart t b)
    (h : Chain.step p t b = some u) : Drained s u := by
  obtain ⟨hs, hbal, htimes⟩ := hd
  simp only [outstanding] at hbal
  cases step_cases h with
  | tick => exact ⟨hs, hbal, htimes⟩
  | create | delete | stop => exact ⟨nofun, hbal, htimes⟩
  | start => exact absurd rfl hb
  | take hi hn => exact ⟨hs, by simp only [outstanding, run]; omega, htimes⟩
  | @takeDelayed i time hi htime =>
    have hlt : i < t.delayed.length := (List.getElem?_eq_some_iff.mp htime).1
    refine ⟨hs, ?_, htimes⟩
    simp only [outstanding, run, List.length_eraseIdx, hlt, if_true]
    omega
  | rest => exact ⟨hs, hbal, htimes⟩
  | again hi hs' | later hi hs' => exact absurd hs' hs
  | produce hi => exact absurd (hg.producing hi) hs

/-- From the moment the flag is down every outstanding task runs once and leaves nothing. -/
theorem drained_of_reaches (hg : Going s) (hs : s.start ≠ some true)
    (hr : GuardedRun.Reaches (step p) NoStart s t) : Drained s t := by
  have hboth : Going t ∧ Drained s t :=
    hr.invariant (I := fun t => Going t ∧ Drained s t)
      (fun t b u ⟨hg, hd⟩ hb h => ⟨hg.step h, hd.step hg hb h⟩) ⟨hg, hs, rfl, rfl⟩
  exact hboth.2

/-- The flag is raised only when no task is left. -/
def NoneLeft (s : Chain) (b : Beat) : Prop := b = .start → s.outstanding = 0

/-- And posting and producing are one moment. -/
def Single (s : Chain) (b : Beat) : Prop := NoneLeft s b ∧ ∀ us, b = .tick us → s.stage ≠ .producing

/-- One task at most is on its way. -/
def AtMostOne (s : Chain) : Prop := s.outstanding + (if s.stage = .scheduling then 1 else 0) ≤ 1

theorem AtMostOne.outstanding_le (h : AtMostOne s) : s.outstanding ≤ 1 := Nat.le_trans (Nat.le_add_right _ _) h

theorem AtMostOne.delayed_eq_nil (h : AtMostOne s) (hn : s.immediate ≠ 0 ∨ s.stage = .scheduling) :
    s.delayed = [] := by
  unfold AtMostOne outstanding at h
  apply List.eq_nil_of_length_eq_zero
  obtain hn | hn := hn
  · split at h <;> omega
  · rw [if_pos hn] at h
    omega

/-- A task begins to run. -/
theorem AtMostOne.run (h : AtMostOne s) {n : Nat} {ds : List Nat} (hn : n + ds.length < s.outstanding) :
    AtMostOne { s with immediate := n, delayed := ds }.run := by
  have hone := h.outstanding_le
  simp only [AtMostOne, outstanding, Chain.run]
  split <;> simp only [if_true, reduceCtorEq, if_false] <;> omega

theorem length_eraseIdx_lt {i time : Nat} (h : s.delayed[i]? = some time) :
    (s.delayed.eraseIdx i).length + 1 = s.delayed.length := by
  have hlt := (List.getElem?_eq_some_iff.mp h).1
  rw [List.length_eraseIdx, if_pos hlt]
  omega

theorem AtMostOne.step (h : AtMostOne s) (hb : NoneLeft s b) (hm : Chain.step p s b = some t) : AtMostOne t := by
  cases step_cases hm with
  | tick | create | delete | stop => exact h
  | start hi =>
    have hzero := hb rfl
    simp only [outstanding] at hzero
    simp only [AtMostOne, outstanding, hi, reduceCtorEq, if_false]
    omega
  | take hi hn => exact h.run (by simp only [outstanding]; omega)
  | takeDelayed hi htime =>
    have hlen := length_eraseIdx_lt htime
    exact h.run (by simp only [outstanding]; omega)
  | rest hi | again hi | later hi =>
    simp only [AtMostOne, outstanding, if_pos hi] at h
    simp only [AtMostOne, outstanding, List.length_append, List.length_singleton, reduceCtorEq, if_false]
    omega
  | produce hi =>
    simp only [AtMostOne, hi, reduceCtorEq, if_false] at h
    exact h

/-- The task is not due before `p` has passed since the last production. -/
structure Spaced (p : Nat) (s : Chain) : Prop where
  spaced : s.times.Pairwise (· + p ≤ ·)
  due : ∀ d ∈ s.delayed, ∀ t ∈ s.times, t + p ≤ d
  rested : s.delayed = [] ∨ s.stage = .producing → ∀ t ∈ s.times, t + p ≤ s.now
  posted : s.stage = .producing → (∀ d ∈ s.delayed, s.now + p ≤ d) ∧ (s.delayed = [] → p = 0)

theorem Spaced.run (h : Spaced p s) {n : Nat} (hr : ∀ t ∈ s.times, t + p ≤ s.now) :
    Spaced p { s with immediate := n, delayed := [] }.run := by
  refine ⟨h.spaced, by simp [Chain.run], fun _ => hr, ?_⟩
  simp only [Chain.run]
  split <;> exact nofun

theorem Spaced.step (h : Spaced p s) (hone : AtMostOne s) (hb : Single s b) (hm : Chain.step p s b = some t) :
    Spaced p t := by
  obtain ⟨hsp, hdue, hrest, hposted⟩ := h
  cases step_cases hm with
  | tick =>
    have hne := hb.2 _ rfl
    refine ⟨hsp, hdue, fun hr t ht => ?_, fun hpr => absurd hpr hne⟩
    exact Nat.le_trans (hrest hr t ht) (Nat.le_add_right _ _)
  | create | delete | stop | start => exact ⟨hsp, hdue, hrest, hposted⟩
  | take hi hn =>
    have hnil := hone.delayed_eq_nil (.inl hn)
    have hrun := Spaced.run (n := s.immediate - 1) ⟨hsp, hdue, hrest, hposted⟩ (hrest (.inl hnil))
    rwa [← hnil] at hrun
  | @takeDelayed i time hi htime hle =>
    have hlen := length_eraseIdx_lt htime
    have hlen' := hone.outstanding_le
    simp only [outstanding] at hlen'
    have hnil : s.delayed.eraseIdx i = [] := List.eq_nil_of_length_eq_zero (by omega)
    rw [hnil]
    refine Spaced.run ⟨hsp, hdue, hrest, hposted⟩ fun t ht => ?_
    exact Nat.le_trans (hdue time (List.mem_of_getElem? htime) t ht) hle
  | rest hi =>
    have hnil := hone.delayed_eq_nil (.inr hi)
    exact ⟨hsp, hdue, fun _ => hrest (.inl hnil), nofun⟩
  | again hi hs hp =>
    have hnil := hone.delayed_eq_nil (.inr hi)
    refine ⟨hsp, hdue, fun _ => hrest (.inl hnil), ?_⟩
    exact fun _ => ⟨by simp [hnil], fun _ => hp⟩
  | later hi hs hp =>
    have hnil := hone.delayed_eq_nil (.inr hi)
    refine ⟨hsp, ?_, fun _ => hrest (.inl hnil), ?_⟩
    · intro d hd t ht
      have hd : d = s.now + p := by simpa [hnil] using hd
      have := hrest (.inl hnil) t ht
      omega
    · exact fun _ => ⟨by simp [hnil], by simp⟩
  | produce hi =>
    have hrest := hrest (.inr hi)
    obtain ⟨hlater, hzero⟩ := hposted hi
    refine ⟨?_, ?_, ?_, nofun⟩
    · simpa [List.pairwise_append, hsp] using hrest
    · intro d hd t ht
      obtain ht | rfl := by simpa using ht
      · exact hdue d hd t ht
      · exact hlater d hd
    · intro hd t ht
      have hp := hzero (by simpa using hd)
      obtain ht | rfl := by simpa using ht
      · exact hrest t ht
      · simp [hp]

theorem going_of_reaches {P : Chain → Beat → Prop} (hr : GuardedRun.Reaches (step p) P initial s) : Going s :=
  hr.invariant (fun _ _ _ hg _ h => hg.step h) going_initial

theorem atMostOne_of_reaches (hr : GuardedRun.Reaches (step p) NoneLeft initial s) : AtMostOne s :=
  hr.invariant (fun _ _ _ hone hb h => hone.step hb h) (Nat.zero_le 1)

theorem spaced_of_reaches (hr : GuardedRun.Reaches (step p) Single initial s) : Spaced p s :=
  hr.invariant_of (fun _ ht => atMostOne_of_reaches (ht.mono fun _ _ hb => hb.1))
    (fun _ _ _ hone hs hb h _ => hs.step hone hb h) ⟨.nil, nofun, fun _ _ hm => (nomatch hm), nofun⟩

end Chain
end OscDataProcess
