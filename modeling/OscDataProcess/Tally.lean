import OscDataProcess.InitRace
import OscDataProcess.Rest
import OscDataProcess.Stream

/-!
# What a host has counted in the end

The history says when a host was attached and which calls came first; at rest every
counter of a host follows from that.
-/
namespace OscDataProcess

open Function (update)
open GuardedRun (Reaches)
open World

variable {c : Config} {w : World}

/-- The Factory that host `h` is attached to, and whether the Destroy of one has begun meanwhile. -/
def outliveStep (h : HostId) (s : Option FactoryId × Bool) : Entry → Option FactoryId × Bool
  | .attached h' _ f => if h' = h then (some f, s.2) else s
  | .detached h' _ => if h' = h then (none, s.2) else s
  | .destroyBegun f => (s.1, s.2 || decide (s.1 = some f))
  | _ => s

def outlive (trace : List Entry) (h : HostId) : Option FactoryId × Bool :=
  trace.foldl (outliveStep h) (none, false)

/-- A Factory was destroyed while host `h` was attached to it. -/
def outlived (trace : List Entry) (h : HostId) : Bool := (outlive trace h).2

@[simp] theorem outlive_append (es es' : List Entry) (h : HostId) :
    outlive (es ++ es') h = es'.foldl (outliveStep h) (outlive es h) := List.foldl_append

theorem outliveStep_snd {s : Option FactoryId × Bool} (h : HostId) (e : Entry) (hs : s.2 = true) :
    (outliveStep h s e).2 = true := by
  cases e with
  | attached | detached =>
    simp only [outliveStep]
    split <;> exact hs
  | destroyBegun => simp [outliveStep, hs]
  | _ => exact hs

theorem outlived_append {trace : List Entry} {h : HostId} (es : List Entry) (ho : outlived trace h = true) :
    outlived (trace ++ es) h = true := by
  induction es using List.reverseRecOn with
  | nil => simpa using ho
  | append_singleton es e ih =>
    rw [← List.append_assoc, outlived, outlive_append]
    exact outliveStep_snd h e ih

@[simp] theorem outlive_deletion (o : FactoryHost) (b h : HostId) (s : Option FactoryId × Bool) :
    (o.deletion b).foldl (outliveStep h) s = s := by
  unfold FactoryHost.deletion
  split <;> rfl

/-! ## Destroy runs in one piece -/

/-- A live Factory whose Destroy has begun is being destroyed by a function on the stack. -/
structure Ending (w : World) : Prop where
  begun : ∀ f fac, w.factory f = some fac → .destroyBegun f ∈ w.trace → .destroyed f ∈ w.frames
  bound : ∀ f, .destroyBegun f ∈ w.trace → f < w.freshFactory

theorem isSome_of_bare {g g' : FactoryId → Option Factory} {f : FactoryId}
    (h : (g' f).map Factory.bare = (g f).map Factory.bare) {fac : Factory} (hf : g' f = some fac) :
    ∃ fac', g f = some fac' := by
  cases hg : g f with
  | none => simp [hf, hg] at h
  | some fac' => exact ⟨fac', rfl⟩

theorem HostMove.begun {w' : World} {e : Event} (hm : HostMove c w e w') (f : FactoryId) :
    .destroyBegun f ∈ w'.trace ↔ .destroyBegun f ∈ w.trace := by
  cases hm with
  | beginRelay | leave | leaveDestroy | selfDestroyNull | beginHost | addRef => rfl
  | postInit | relayDestroyNull | relayDestroyStub | relayReply | forward | hold | leavePost | selfDestroyStub
  | selfReply | selfDrop | resetTask | runReply | deleteRelay | runCall | unbind | init | destroy | dropRef => simp

theorem HostMove.freshFactory {w' : World} {e : Event} (hm : HostMove c w e w') :
    w'.freshFactory = w.freshFactory := by
  cases hm <;> rfl

theorem Ending.hostMove {w' : World} {e : Event} (he : Ending w) (hm : HostMove c w e w') : Ending w' := by
  refine ⟨fun f fac hf hb => ?_, fun f hb => ?_⟩
  · obtain ⟨fac', hf'⟩ := isSome_of_bare (hm.bare f) hf
    rw [(hm.chain f).2]
    exact he.begun f fac' hf' ((hm.begun f).mp hb)
  · rw [hm.freshFactory]
    exact he.bound f ((hm.begun f).mp hb)

theorem live_update {f : FactoryId} {fac fac' : Factory} (hf : w.factory f = some fac) (b : FactoryId) (x : Factory)
    (hx : update w.factory f (some fac') b = some x) : ∃ y, w.factory b = some y := by
  obtain rfl | hb := eq_or_ne b f
  · exact ⟨fac, hf⟩
  · exact ⟨x, by rwa [Function.update_of_ne hb] at hx⟩

theorem Ending.factoryMove {w' : World} {e : Event} (hl : Listed w) (he : Ending w) (hm : FactoryMove w e w') :
    Ending w' := by
  have hkeep : (∀ f, .destroyBegun f ∈ w'.trace → .destroyBegun f ∈ w.trace) →
      (∀ f, .destroyed f ∈ w.frames → .destroyed f ∈ w'.frames) → w'.freshFactory = w.freshFactory →
      (∀ f fac, w'.factory f = some fac → ∃ fac', w.factory f = some fac') → Ending w' := by
    intro htr hframes hfresh hlive
    refine ⟨fun f fac hf hb => ?_, fun f hb => hfresh ▸ he.bound f (htr f hb)⟩
    obtain ⟨fac', hf'⟩ := hlive f fac hf
    exact hframes f (he.begun f fac' hf' (htr f hb))
  have hsame : ∀ f fac, w.factory f = some fac → ∃ fac', w.factory f = some fac' := fun _ fac hf => ⟨fac, hf⟩
  cases hm with
  | post | tick => exact hkeep (fun _ => id) (fun _ => id) rfl hsame
  | beginCalls hidle => exact hkeep (fun _ => id) (by simp [hidle.2]) rfl hsame
  | beginSchedule hidle | beginDelayed hidle => exact hkeep (by simp) (by simp [hidle.2]) rfl hsame
  | callsDone _ hfr | skip _ hfr | notifyDead _ hfr => exact hkeep (fun _ => id) (by simp [hfr]) rfl hsame
  | start _ hfr _ hf | stop _ hfr _ hf | addObserver _ hfr _ hf | removeObserver _ hfr _ hf | scheduleStopped _ hfr hf
  | scheduleNow _ hfr hf | scheduleLater _ hfr hf | notifyEnd _ hfr hf =>
    exact hkeep (fun _ => id) (by simp [hfr]) rfl (live_update hf)
  | produce _ hfr hf => exact hkeep (by simp) (by simp +contextual [hfr]) rfl (live_update hf)
  | notifyPlain _ hfr | notifyProduced _ hfr | notifyDestroyed _ hfr | produced _ hfr =>
    exact hkeep (by simp) (by simp [hfr]) rfl hsame
  | create _ hfr =>
    refine ⟨fun f fac hf hb => ?_, fun f hb => ?_⟩
    · have hb : .destroyBegun f ∈ w.trace := by simpa [createFactory] using hb
      have hne : f ≠ w.freshFactory := Nat.ne_of_lt (he.bound f hb)
      have hf : w.factory f = some fac := by simpa [createFactory, Function.update_of_ne hne] using hf
      simpa [hfr] using he.begun f fac hf hb
    · exact Nat.lt_succ_of_lt (he.bound f (by simpa [createFactory] using hb))
  | @destroyBegin f fac ks rest time script _ hfr hg hf =>
    refine ⟨fun b x hx hb => ?_, fun b hb => ?_⟩
    · obtain rfl | hne := eq_or_ne b f
      · simp
      · obtain ⟨y, hy⟩ := live_update hf b x hx
        have hold := he.begun b y hy (by simpa [hne] using hb)
        simpa [hfr, hne] using Or.inr hold
    · obtain rfl | hne := eq_or_ne b f
      · exact hl.listBound b _ (list_of_some hf)
      · exact he.bound b (by simpa [hne] using hb)
  | @destroyed f fac rest time script _ hfr hf =>
    refine ⟨fun b x hx hb => ?_, fun b hb => he.bound b (by simpa using hb)⟩
    have hne : b ≠ f := by
      rintro rfl
      simp at hx
    have hold := he.begun b x (by simpa [Function.update_of_ne hne] using hx) (by simpa using hb)
    simpa [hfr, hne] using hold

/-! ## Who outlives a Factory -/

/-- The host and the Factory that a stub ties together. -/
def World.tie (w : World) (s : StubId) : Option (HostId × Option FactoryId) :=
  (w.stub s).map fun st => (st.observer, st.factory)

theorem tie_of_stub {s : StubId} {st : FactoryStub} (hs : w.stub s = some st) :
    w.tie s = some (st.observer, st.factory) := by
  simp [World.tie, hs]

theorem tie_update {w' : World} {s : StubId} {x : Option FactoryStub} (hs : w'.stub = update w.stub s x) :
    w'.tie = update w.tie s (x.map fun st => (st.observer, st.factory)) := by
  funext b
  obtain rfl | hb := eq_or_ne b s
  · simp [World.tie, hs]
  · simp [World.tie, hs, Function.update_of_ne hb]

theorem tie_onDataProduced {w' : World} {s : StubId} {st : FactoryStub} {time : Nat} (hst : w.stub s = some st)
    (hs : w'.stub = update w.stub s (some (st.onDataProduced time).1)) : w'.tie = w.tie := by
  rw [tie_update hs, Function.update_eq_self_iff]
  simp [tie_of_stub hst]

/-- What was begun while a host was attached has been announced to it or is about to be. -/
structure Outlives (w : World) : Prop where
  tied : ∀ s h f, w.tie s = some (h, some f) → (outlive w.trace h).1 = some f
  attached : ∀ h f, (outlive w.trace h).1 = some f → ∃ s k, w.tie s = some (h, k) ∧ ∀ g ∈ k, g = f
  left : ∀ s h, w.tie s = some (h, none) → outlived w.trace h = true
  begun : ∀ s h f, w.tie s = some (h, some f) → .destroyBegun f ∈ w.trace → outlived w.trace h = true
  announced : ∀ h, .onFactoryDestory ∈ posted w.trace h → outlived w.trace h = true
  owed : ∀ h, outlived w.trace h = true → .onFactoryDestory ∈ posted w.trace h ∨
    ∃ s k, w.tie s = some (h, k) ∧ (w.pc = .leavePost s ∨ ∃ f ∈ k, .destroyBegun f ∈ w.trace)

theorem outlives_initial : Outlives .initial where
  tied := nofun
  attached := nofun
  left := nofun
  begun := nofun
  announced := nofun
  owed := nofun

namespace Outlives

theorem keep {w' : World} (ho : Outlives w) (htie : w'.tie = w.tie) (hout : ∀ h, outlive w'.trace h = outlive w.trace h)
    (hbegun : ∀ f, .destroyBegun f ∈ w'.trace ↔ .destroyBegun f ∈ w.trace)
    (hposted : ∀ h, .onFactoryDestory ∈ posted w'.trace h ↔ .onFactoryDestory ∈ posted w.trace h)
    (hpc : ∀ s, w.pc = .leavePost s → w'.pc = .leavePost s) : Outlives w' := by
  obtain ⟨htied, hattached, hleft, hb, ha, howed⟩ := ho
  refine ⟨?_, ?_, ?_, ?_, ?_, ?_⟩
  · simpa only [htie, hout] using htied
  · simpa only [htie, hout] using hattached
  · simpa only [htie, outlived, hout] using hleft
  · simpa only [htie, outlived, hout, hbegun] using hb
  · simpa only [hposted, outlived, hout] using ha
  · intro h hh
    rw [outlived, hout] at hh
    simp only [htie, hposted, hbegun]
    exact (howed h hh).imp_right fun ⟨s, k, hs, hk⟩ => ⟨s, k, hs, hk.imp_left (hpc s)⟩

theorem factoryMove {w' : World} {e : Event} (ho : Outlives w) (hm : FactoryMove w e w') : Outlives w' := by
  have hq := hm.quiet
  have htie : w'.tie = w.tie := by
    funext s
    simp [World.tie, hq.stub]
  have hposted : ∀ h, .onFactoryDestory ∈ posted w'.trace h ↔ .onFactoryDestory ∈ posted w.trace h := fun h => by
    rw [hq.posted]
  cases hm with
  | post | tick | beginCalls | callsDone | skip | start | stop | addObserver | removeObserver | scheduleStopped
  | scheduleNow | scheduleLater | notifyDead | notifyEnd =>
    exact ho.keep htie (fun _ => rfl) (fun _ => .rfl) hposted fun _ => id
  | beginSchedule | beginDelayed | create | produce | notifyPlain | produced | destroyed =>
    exact ho.keep htie (fun _ => by simp [createFactory, outliveStep]) (fun _ => by simp [createFactory]) hposted
      fun _ => id
  | notifyProduced hpc | notifyDestroyed hpc =>
    exact ho.keep htie (fun _ => by simp [outliveStep]) (fun _ => by simp) hposted (by simp [hpc])
  | @destroyBegin f fac ks rest time script hpc hfr hg hf =>
    obtain ⟨htied, hattached, hleft, hb, ha, howed⟩ := ho
    have hout : ∀ h, outlive (w.trace ++ [.destroyBegun f]) h =
        ((outlive w.trace h).1, (outlive w.trace h).2 || decide ((outlive w.trace h).1 = some f)) := fun h => by
      simp [outliveStep]
    have hold : ∀ h, outlived w.trace h = true → .onFactoryDestory ∈ posted w.trace h ∨
        ∃ s k, w.tie s = some (h, k) ∧ (w.pc = .leavePost s ∨ ∃ g ∈ k, .destroyBegun g ∈ w.trace ++ [.destroyBegun f]) :=
      fun h hh => by
        obtain hp | ⟨s, k, hs, hpc | ⟨g, hg, hb⟩⟩ := howed h hh
        · exact .inl hp
        · exact .inr ⟨s, k, hs, .inl hpc⟩
        · exact .inr ⟨s, k, hs, .inr ⟨g, hg, List.mem_append_left _ hb⟩⟩
    simp only [World.tie] at htied hattached hleft hb howed hold
    refine ⟨?_, ?_, ?_, ?_, ?_, ?_⟩ <;> simp only [World.tie]
    · intro s h g hs
      rw [hout]
      exact htied s h g hs
    · intro h g hg
      rw [hout] at hg
      exact hattached h g hg
    · exact fun s h hs => outlived_append _ (hleft s h hs)
    · intro s h g hs hg
      obtain hg | hg := List.mem_append.mp hg
      · exact outlived_append _ (hb s h g hs hg)
      · obtain rfl : g = f := by simpa using hg
        simp [outlived, hout, htied s h g hs]
    · exact fun h hh => outlived_append _ (ha h ((hposted h).mp hh))
    · intro h hh
      rw [hposted]
      rw [outlived, hout, Bool.or_eq_true, decide_eq_true_eq] at hh
      obtain hh | hh := hh
      · exact hold h hh
      · obtain ⟨s, k, hs, hk⟩ := hattached h f hh
        cases k with
        | none => exact hold h (hleft s h hs)
        | some g => exact .inr ⟨s, _, hs, .inr ⟨g, rfl, by simp [hk g rfl]⟩⟩

/-- A stub is deleted. -/
theorem detach {w' : World} (ho : Outlives w) {s : StubId} {h : HostId} {k : Option FactoryId}
    (hs : w.tie s = some (h, k)) (hone : ∀ b j, w.tie b = some (h, j) → b = s)
    (hk : ∀ f ∈ k, .destroyBegun f ∉ w.trace) (hpc : ∀ s, w.pc ≠ .leavePost s)
    (htie : w'.tie = update w.tie s none)
    (hout : ∀ b, outlive w'.trace b = if h = b then (none, outlived w.trace b) else outlive w.trace b)
    (hbegun : ∀ f, .destroyBegun f ∈ w'.trace ↔ .destroyBegun f ∈ w.trace)
    (hposted : ∀ h, .onFactoryDestory ∈ posted w'.trace h ↔ .onFactoryDestory ∈ posted w.trace h) : Outlives w' := by
  obtain ⟨htied, hattached, hleft, hb, ha, howed⟩ := ho
  have hsnd : ∀ b, outlived w'.trace b = outlived w.trace b := fun b => by
    rw [outlived, hout]
    split <;> rfl
  have hother : ∀ {b x}, w'.tie b = some x → b ≠ s ∧ w.tie b = some x := fun {b x} hx => by
    have hne : b ≠ s := by
      rintro rfl
      simp [htie] at hx
    exact ⟨hne, by rwa [htie, Function.update_of_ne hne] at hx⟩
  have hback : ∀ {b x}, b ≠ s → w.tie b = some x → w'.tie b = some x := fun hne hx => by
    rwa [htie, Function.update_of_ne hne]
  refine ⟨fun a b g hx => ?_, fun b g hg => ?_, fun a b hx => ?_, fun a b g hx hg => ?_, fun b hb => ?_, fun b hh => ?_⟩
  · obtain ⟨hne, hx⟩ := hother hx
    rw [hout, if_neg fun he => hne (hone a _ (he ▸ hx))]
    exact htied a b g hx
  · rw [hout] at hg
    split at hg
    · cases hg
    · rename_i hne
      obtain ⟨a, j, hx, hj⟩ := hattached b g hg
      refine ⟨a, j, hback ?_ hx, hj⟩
      rintro rfl
      exact hne (congrArg Prod.fst (Option.some.inj (hs.symm.trans hx)))
  · rw [hsnd]
    exact hleft a b (hother hx).2
  · rw [hsnd]
    exact hb a b g (hother hx).2 ((hbegun g).mp hg)
  · rw [hsnd]
    exact ha b ((hposted b).mp hb)
  · rw [hsnd] at hh
    refine (howed b hh).imp (hposted b).mpr fun ⟨a, j, hx, hj⟩ => ?_
    obtain hj | ⟨g, hg, hgb⟩ := hj
    · exact absurd hj (hpc a)
    · refine ⟨a, j, hback ?_ hx, .inr ⟨g, hg, (hbegun g).mpr hgb⟩⟩
      rintro rfl
      obtain rfl := congrArg Prod.snd (Option.some.inj (hs.symm.trans hx))
      exact hk g hg hgb

/-- A stub is made and registered. -/
theorem attach {w' : World} (ho : Outlives w) {h : HostId} {f : FactoryId} (hfresh : w.tie w.freshStub = none)
    (hnone : ∀ b j, w.tie b ≠ some (h, j)) (hf : .destroyBegun f ∉ w.trace) (hpc : ∀ s, w.pc ≠ .leavePost s)
    (htie : w'.tie = update w.tie w.freshStub (some (h, some f)))
    (htrace : w'.trace = w.trace ++ [.attached h w.freshStub f]) : Outlives w' := by
  obtain ⟨htied, hattached, hleft, hb, ha, howed⟩ := ho
  have hout : ∀ b, outlive w'.trace b = if h = b then (some f, outlived w.trace b) else outlive w.trace b := fun b => by
    simp [htrace, outliveStep, outlived]
  have hsnd : ∀ b, outlived w'.trace b = outlived w.trace b := fun b => by
    rw [outlived, hout]
    split <;> rfl
  have hbegun : ∀ f, .destroyBegun f ∈ w'.trace ↔ .destroyBegun f ∈ w.trace := fun f => by simp [htrace]
  have hposted : ∀ h, posted w'.trace h = posted w.trace h := fun h => by simp [htrace, Entry.posted?]
  have hcases : ∀ {b x}, w'.tie b = some x → (b = w.freshStub ∧ x = (h, some f)) ∨ w.tie b = some x := fun {b x} hx => by
    obtain rfl | hne := eq_or_ne b w.freshStub
    · refine .inl ⟨rfl, ?_⟩
      rw [htie, Function.update_self] at hx
      exact (Option.some.inj hx).symm
    · rw [htie, Function.update_of_ne hne] at hx
      exact .inr hx
  have hback : ∀ {b x}, w.tie b = some x → w'.tie b = some x := fun {b x} hx => by
    have hne : b ≠ w.freshStub := by
      rintro rfl
      rw [hfresh] at hx
      cases hx
    rwa [htie, Function.update_of_ne hne]
  refine ⟨fun a b g hx => ?_, fun b g hg => ?_, fun a b hx => ?_, fun a b g hx hg => ?_, fun b hb => ?_, fun b hh => ?_⟩
  · rw [hout]
    obtain ⟨-, hx⟩ | hx := hcases hx
    · obtain ⟨rfl, hgf⟩ := Prod.mk.inj hx
      rw [if_pos rfl, Option.some.inj hgf]
    · rw [if_neg fun he => hnone a _ (he ▸ hx)]
      exact htied a b g hx
  · rw [hout] at hg
    split at hg
    · rename_i he
      refine ⟨w.freshStub, some f, by rw [htie, Function.update_self, he], fun x hx => ?_⟩
      rw [← Option.some.inj hg, ← Option.some.inj hx]
    · obtain ⟨a, j, hx, hj⟩ := hattached b g hg
      exact ⟨a, j, hback hx, hj⟩
  · rw [hsnd]
    obtain ⟨-, hx⟩ | hx := hcases hx
    · cases (Prod.mk.inj hx).2
    · exact hleft a b hx
  · rw [hsnd]
    rw [hbegun] at hg
    obtain ⟨-, hx⟩ | hx := hcases hx
    · obtain rfl := Option.some.inj (Prod.mk.inj hx).2
      exact absurd hg hf
    · exact hb a b g hx hg
  · rw [hsnd]
    exact ha b (hposted b ▸ hb)
  · rw [hsnd] at hh
    rw [hposted]
    obtain hp | ⟨a, j, hx, hj | ⟨g, hg, hgb⟩⟩ := howed b hh
    · exact .inl hp
    · exact absurd hj (hpc a)
    · exact .inr ⟨a, j, hback hx, .inr ⟨g, hg, (hbegun g).mpr hgb⟩⟩

/-- `factory_` is set to NULL. -/
theorem depart {w' : World} (ho : Outlives w) {s : StubId} {h : HostId} {f : FactoryId} (hs : w.tie s = some (h, some f))
    (hf : .destroyBegun f ∈ w.trace) (hpc : ∀ s, w.pc ≠ .leavePost s) (htie : w'.tie = update w.tie s (some (h, none)))
    (htrace : w'.trace = w.trace) (hpc' : w'.pc = .leavePost s) : Outlives w' := by
  obtain ⟨htied, hattached, hleft, hb, ha, howed⟩ := ho
  have hother : ∀ {b x}, w'.tie b = some x → (b = s ∧ x = (h, none)) ∨ w.tie b = some x := fun {b x} hx => by
    obtain rfl | hne := eq_or_ne b s
    · refine .inl ⟨rfl, ?_⟩
      rw [htie, Function.update_self] at hx
      exact (Option.some.inj hx).symm
    · rw [htie, Function.update_of_ne hne] at hx
      exact .inr hx
  have hback : ∀ {b x}, w.tie b = some x → b = s ∧ x = (h, some f) ∨ b ≠ s ∧ w'.tie b = some x := fun {b x} hx => by
    obtain rfl | hne := eq_or_ne b s
    · exact .inl ⟨rfl, Option.some.inj (hx.symm.trans hs)⟩
    · exact .inr ⟨hne, by rwa [htie, Function.update_of_ne hne]⟩
  have hnew : w'.tie s = some (h, none) := by rw [htie, Function.update_self]
  rw [← htrace] at htied hattached hleft hb ha howed hf
  refine ⟨fun a b g hx => ?_, fun b g hg => ?_, fun a b hx => ?_, fun a b g hx hg => ?_, ha, fun b hh => ?_⟩
  · obtain ⟨-, hx⟩ | hx := hother hx
    · cases (Prod.mk.inj hx).2
    · exact htied a b g hx
  · obtain ⟨a, j, hx, hj⟩ := hattached b g hg
    obtain ⟨rfl, hx⟩ | ⟨-, hx⟩ := hback hx
    · obtain ⟨rfl, -⟩ := Prod.mk.inj hx
      exact ⟨a, none, hnew, by simp⟩
    · exact ⟨a, j, hx, hj⟩
  · obtain ⟨-, hx⟩ | hx := hother hx
    · obtain ⟨rfl, -⟩ := Prod.mk.inj hx
      exact hb s b f hs hf
    · exact hleft a b hx
  · obtain ⟨-, hx⟩ | hx := hother hx
    · cases (Prod.mk.inj hx).2
    · exact hb a b g hx hg
  · refine (howed b hh).imp_right fun ⟨a, j, hx, hj⟩ => ?_
    obtain ⟨rfl, hx⟩ | ⟨-, hx⟩ := hback hx
    · obtain ⟨rfl, -⟩ := Prod.mk.inj hx
      exact ⟨a, none, hnew, .inl hpc'⟩
    · exact ⟨a, j, hx, .inr (hj.resolve_left (hpc a))⟩

/-- OnFactoryDestory is posted. -/
theorem announce {w' : World} (ho : Outlives w) {s : StubId} {h : HostId} (hs : w.tie s = some (h, none))
    (hpc : w.pc = .leavePost s) (htie : w'.tie = w.tie) (htrace : w'.trace = w.trace ++ [.posted h .onFactoryDestory]) :
    Outlives w' := by
  obtain ⟨htied, hattached, hleft, hb, ha, howed⟩ := ho
  have hout : ∀ b, outlive w'.trace b = outlive w.trace b := fun b => by simp [htrace, outliveStep]
  have hbegun : ∀ f, .destroyBegun f ∈ w'.trace ↔ .destroyBegun f ∈ w.trace := fun f => by simp [htrace]
  have hposted : ∀ b, .onFactoryDestory ∈ posted w'.trace b ↔ .onFactoryDestory ∈ posted w.trace b ∨ h = b := fun b => by
    by_cases hb : h = b <;> simp [htrace, Entry.posted?, hb]
  refine ⟨?_, ?_, ?_, ?_, ?_, ?_⟩
  · simpa only [htie, hout] using htied
  · simpa only [htie, hout] using hattached
  · simpa only [htie, outlived, hout] using hleft
  · simpa only [htie, outlived, hout, hbegun] using hb
  · intro b hm
    rw [outlived, hout]
    obtain hm | rfl := (hposted b).mp hm
    · exact ha b hm
    · exact hleft s h hs
  · intro b hh
    rw [outlived, hout] at hh
    simp only [htie, hposted, hbegun]
    obtain hm | ⟨a, j, hx, hj⟩ := howed b hh
    · exact .inl (.inl hm)
    · obtain hj | hj := hj
      · obtain rfl := Pc.leavePost.inj (hpc.symm.trans hj)
        exact .inl (.inr (Prod.mk.inj (Option.some.inj (hs.symm.trans hx))).1)
      · exact .inr ⟨a, j, hx, .inr hj⟩

theorem hostMove {w' : World} {e : Event} (hs : Sound c w) (hen : Ending w) (han : Announced w) (ho : Outlives w)
    (hm : HostMove c w e w') : Outlives w' := by
  have hone : ∀ {h o s}, w.host h = some o → o.stub = some s → ∀ b j, w.tie b = some (h, j) → b = s := by
    intro h o s hh hos b j hb
    obtain ⟨st, hst, he⟩ := Option.map_eq_some_iff.mp hb
    obtain ⟨rfl, -⟩ := Prod.mk.inj he
    obtain ⟨o', ho', hbs⟩ := hs.bound.bound b st hst
    obtain rfl := Option.some.inj (hh.symm.trans ho')
    exact Option.some.inj (hbs.symm.trans hos)
  have hsame : ∀ {w' : World}, w'.stub = w.stub → w'.tie = w.tie := fun h => by
    funext s
    simp [World.tie, h]
  have hplaced := hs.listed.placed
  cases hm with
  | @postInit h f fac o time script hpc hg hfac hh =>
    rw [hpc] at hplaced
    refine ho.attach ?_ ?_ ?_ (by simp [hpc]) (tie_update (x := some ⟨h, some f, (c.freq h).map (⟨·, 0⟩)⟩) rfl) rfl
    · by_contra hne
      obtain ⟨x, hx⟩ := Option.ne_none_iff_exists'.mp hne
      obtain ⟨st, hst, -⟩ := Option.map_eq_some_iff.mp hx
      exact Nat.lt_irrefl _ (hs.counted.stubBound _ st hst)
    · intro b j hb
      obtain ⟨st, hst, he⟩ := Option.map_eq_some_iff.mp hb
      obtain ⟨rfl, -⟩ := Prod.mk.inj he
      exact hs.bound.attached b st hst (hs.bound.runs_eq_zero hs.relayed hpc)
    · intro hb
      have hfr := hen.begun f fac hfac hb
      rw [show w.frames = [] from hplaced] at hfr
      cases hfr
  | @relayDestroyStub h o s st time script hpc hh hos hst hobs hrefs hlive =>
    rw [hpc] at hplaced
    refine ho.detach (tie_of_stub hst) (hobs ▸ hone hh hos) ?_ (by simp [hpc]) (tie_update (x := none) rfl) ?_
      (by simp) ?_
    · intro f hf hb
      obtain ⟨fac, hfac⟩ := Option.isSome_iff_exists.mp (hlive f hf)
      have hfr := hen.begun f fac hfac hb
      rw [show w.frames = [] from hplaced] at hfr
      cases hfr
    · intro b
      simp [outliveStep, outlived, hobs]
    · simp [Entry.posted?]
  | @selfDestroyStub h o s st time script hpc hh hos hst hobs hrefs hlive =>
    rw [hpc] at hplaced
    refine ho.detach (tie_of_stub hst) (hobs ▸ hone hh hos) ?_ (by simp [hpc]) (tie_update (x := none) rfl) ?_
      (by simp) ?_
    · intro f hf hb
      obtain ⟨s', st', hst', hobs', hnone⟩ := hplaced
      obtain rfl := hone hh hos s' st'.factory (hobs' ▸ tie_of_stub hst')
      obtain rfl := Option.some.inj (hst.symm.trans hst')
      rw [hnone] at hf
      cases hf
    · intro b
      simp [outliveStep, outlived, hobs]
    · simp [Entry.posted?]
  | @leave s st f fac time script hpc hst hf hfac =>
    obtain ⟨st', f', hst', hf', hbegun⟩ := han.leaving s hpc
    obtain rfl := Option.some.inj (hst.symm.trans hst')
    have hold : w.tie s = some (st.observer, some f') := hf' ▸ tie_of_stub hst
    refine ho.depart hold hbegun (by simp [hpc]) ?_ rfl rfl
    exact tie_update (x := some { st with factory := none }) rfl
  | @leavePost s st o time script hpc hst hh =>
    rw [hpc] at hplaced
    obtain ⟨st', hst', hnone⟩ := hplaced
    obtain rfl := Option.some.inj (hst.symm.trans hst')
    refine ho.announce (hnone ▸ tie_of_stub hst) hpc (hsame rfl) rfl
  | @relayReply r time script hpc =>
    refine ho.keep (hsame rfl) (fun _ => by simp [outliveStep]) (fun _ => by simp) (fun b => ?_) (by simp [hpc])
    obtain ⟨kind, h⟩ := r
    cases kind <;> by_cases hb : h = b <;> simp [Entry.posted?, RelayKind.callback, hb]
  | @forward s data st o time script hpc hst =>
    refine ho.keep (tie_onDataProduced hst rfl) (fun _ => by simp [outliveStep]) (fun _ => by simp) (fun b => ?_)
      (by simp [hpc])
    by_cases hb : st.observer = b <;> simp [Entry.posted?, hb]
  | hold hpc hst =>
    exact ho.keep (tie_onDataProduced hst rfl) (fun _ => by simp [outliveStep]) (fun _ => by simp)
      (fun b => by simp [Entry.posted?]) (by simp [hpc])
  | @selfReply h o time script hpc =>
    refine ho.keep (hsame rfl) (fun _ => by simp [outliveStep]) (fun _ => by simp) (fun b => ?_) (by simp [hpc])
    by_cases hb : h = b <;> simp [Entry.posted?, hb]
  | beginRelay hidle => exact ho.keep (hsame rfl) (fun _ => rfl) (fun _ => .rfl) (fun _ => .rfl) (by simp [hidle.1])
  | leaveDestroy hpc | selfDestroyNull hpc =>
    exact ho.keep (hsame rfl) (fun _ => rfl) (fun _ => .rfl) (fun _ => .rfl) (by simp [hpc])
  | relayDestroyNull hpc | selfDrop hpc =>
    exact ho.keep (hsame rfl) (fun _ => by simp [outliveStep]) (fun _ => by simp) (fun _ => by simp [Entry.posted?])
      (by simp [hpc])
  | beginHost | addRef => exact ho.keep (hsame rfl) (fun _ => rfl) (fun _ => .rfl) (fun _ => .rfl) fun _ => id
  | resetTask | runReply | deleteRelay | runCall | unbind | init | destroy | dropRef =>
    exact ho.keep (hsame rfl) (fun _ => by simp [outliveStep]) (fun _ => by simp) (fun _ => by simp [Entry.posted?])
      fun _ => id

end Outlives

theorem outlives_of_reaches {P : World → Event → Prop} (hP : ∀ w e, P w e → Checked w e)
    (hr : GuardedRun.Reaches (step c) P .initial w) : Ending w ∧ Outlives w := by
  refine GuardedRun.Reaches.invariant_of (I := fun w => Ending w ∧ Outlives w)
    (K := GuardedRun.Reaches (step c) P .initial) (fun _ => id) ?_ ⟨⟨nofun, nofun⟩, outlives_initial⟩ hr
  rintro t e u ht ⟨hen, ho⟩ _ he -
  have hs := sound_of_reaches hP ht
  obtain hm | hm := step_cases hs.counted.owned he
  · exact ⟨hen.hostMove hm, ho.hostMove hs hen (announced_of_reaches ht) hm⟩
  · exact ⟨hen.factoryMove hs.listed hm, ho.factoryMove hm⟩

/-- Between two factory-thread tasks nobody waits to be told. -/
theorem announced_iff_of_idle (hl : Listed w) (hen : Ending w) (ho : Outlives w) (hidle : w.Idle) (h : HostId) :
    .onFactoryDestory ∈ posted w.trace h ↔ outlived w.trace h = true := by
  refine ⟨ho.announced h, fun hh => (ho.owed h hh).resolve_right ?_⟩
  rintro ⟨s, k, hs, hpc | ⟨f, hf, hb⟩⟩
  · cases hidle.1.symm.trans hpc
  · obtain ⟨st, hst, he⟩ := Option.map_eq_some_iff.mp hs
    obtain ⟨rfl, rfl⟩ := Prod.mk.inj he
    obtain ⟨l, hlist, -⟩ := hl.stubListed s st f hst hf
    obtain ⟨fac, hfac, -⟩ := Option.map_eq_some_iff.mp hlist
    have hfr := hen.begun f fac hfac hb
    rw [hidle.2] at hfr
    cases hfr

/-- What the fields of host `h` are in the end: it has been told of Init if it ever called
it, of every Destroy that it called and of the one of its Factory; it has received what was
produced while it was attached, or what its limiter let through, and has the last of that. -/
structure Tally (c : Config) (w : World) (h : HostId) (o : FactoryHost) : Prop where
  init : o.init = decide (calls w.trace ⟨.init, h⟩ ≠ 0)
  destroy : o.destroy = decide (o.destroyTime ≠ 0)
  destroyTime : o.destroyTime = calls w.trace ⟨.destroy, h⟩ + (outlived w.trace h).toNat
  factoryDestroy : o.factoryDestroy = (outlived w.trace h).toNat
  offered : (offered w.trace h).map Prod.snd = (reception w.trace h).data
  receive : o.receive = (forwardedOf (c.freq h) (OscDataProcess.offered w.trace h)).length
  data : o.data = ((reception w.trace h).snapshot.toList ++
    forwardedOf (c.freq h) (OscDataProcess.offered w.trace h)).getLast?

theorem Sound.settled (hs : Sound c w) (hidle : w.Idle) (h : HostId) :
    Settled (w.stubOf h) (OscDataProcess.attached w.trace h) (phase (posted w.trace h)) := by
  have he := hs.conversing.expects h
  rwa [World.Expects, hidle.1] at he

/-- Between two factory-thread tasks OnInit has been posted to those whose PostInit has run. -/
theorem Sound.replyInit_iff (hs : Sound c w) (hidle : w.Idle) (h : HostId) :
    .replyInit ∈ posted w.trace h ↔ runs w.trace ⟨.init, h⟩ ≠ 0 := by
  have hset := hs.settled hidle h
  have hsent := phase_sent (hs.posted_phase h)
  have hatt : OscDataProcess.attached w.trace h = true ↔ runs w.trace ⟨.init, h⟩ ≠ 0 := by
    simp [OscDataProcess.attached]
  rw [← hatt]
  cases hstub : w.stubOf h with
  | some s =>
    rw [hstub] at hset
    have hopened : phase (posted w.trace h) = .opened := hset
    exact ⟨fun _ => attached_of_stubOf hs.counted hs.bound hstub, fun _ => hsent.replyInit (by simp [hopened])⟩
  | none =>
    rw [hstub] at hset
    cases ha : OscDataProcess.attached w.trace h with
    | true =>
      rw [ha] at hset
      obtain ⟨b, hb⟩ := hset
      exact ⟨fun _ => rfl, fun _ => hsent.replyInit (by simp [hb])⟩
    | false =>
      rw [ha] at hset
      simp [phase_eq_fresh.mp hset]

theorem tally_of_atRest (hw : w.AtRest c) (hs : Sound c w) (hserved : Served c w) (hv : Streaming w) (ht : Told w)
    (hen : Ending w) (ho : Outlives w) {h : HostId} {o : FactoryHost} (hh : w.host h = some o) : Tally c w h o := by
  have hrec := hs.recorded h o hh
  have hhandled : handled w.trace h = posted w.trace h := (posted_of_atRest hw hs.delivered h).symm
  have hforw : dataOf (posted w.trace h) = forwardedOf (c.freq h) (offered w.trace h) := hserved.forwards h
  have hsent := phase_sent (hs.posted_phase h)
  have hruns := calls_of_atRest hw hs.relayed
  have hout := announced_iff_of_idle hs.listed hen ho hw.idle h
  have hfactory : (posted w.trace h).count .onFactoryDestory = (outlived w.trace h).toNat := by
    have hone := (inOrder_of_phase (hs.posted_phase h)).factoryOnce
    cases hb : outlived w.trace h with
    | true =>
      have := List.count_pos_iff.mpr (hout.mpr hb)
      exact Nat.le_antisymm hone this
    | false => exact List.count_eq_zero.mpr fun hm => by simp [hout.mp hm] at hb
  have hclosed : (phase (posted w.trace h)).selfClosed = (outlived w.trace h).toNat := by
    have hset := hs.settled hw.idle h
    have hiff := hsent.factory.trans hout
    cases hp : phase (posted w.trace h) with
    | leaving => exact absurd (hp ▸ hset) not_settled_leaving
    | closed b => cases b <;> cases hb : outlived w.trace h <;> simp_all [Phase.selfClosed]
    | fresh | opened | broken => cases hb : outlived w.trace h <;> simp_all [Phase.selfClosed]
  have htime : o.destroyTime = calls w.trace ⟨.destroy, h⟩ + (outlived w.trace h).toNat := by
    have htold := ht h
    rw [hw.idle.1, show Pc.replying h .idle = 0 from rfl, Nat.add_zero, hclosed, ← hruns] at htold
    rw [hrec.destroyTime, hhandled, htold]
  refine ⟨?_, ?_, htime, ?_, ?_, ?_, ?_⟩
  · rw [hrec.init, hhandled, hruns]
    exact decide_eq_decide.mpr (hs.replyInit_iff hw.idle h)
  · rw [hrec.destroy, hrec.destroyTime]
    exact decide_eq_decide.mpr (by rw [← List.count_pos_iff, Nat.pos_iff_ne_zero])
  · rw [hrec.factoryDestroy, hhandled, hfactory]
  · exact (streamed_of_idle hs hserved hv hw.idle).offered h
  · rw [hrec.receive, hhandled, hforw]
  · rw [hv.known h o hh, hhandled, hforw]

namespace Deployment

variable {d : Deployment}

theorem quietly_of_not_code (w : World) (e : OscDataProcess.Event) (he : e.isCode = false) : Quietly w e := by
  refine ⟨⟨initOnce_of_not_code w e he, fun b hb => ?_⟩, ?_⟩
  · cases e <;> cases he <;> cases hb
  · cases e <;> cases he <;> rfl

/-- When all message loops sleep, every field of a host is what the history of calls says. -/
theorem tally_of_reaches (hr : Reaches (step c) (Obeys Quietly) initial d) (hrest : AtRest c d) {h : HostId}
    {o : FactoryHost} (hh : d.code.host h = some o) : Tally c d.code h o := by
  obtain ⟨hrun, hreach⟩ := running_of_reaches quietly_of_not_code hr
  have hP : ∀ w e, Quietly w e → Checked w e := fun _ _ hp => hp.1
  obtain ⟨hen, ho⟩ := outlives_of_reaches hP hreach
  obtain ⟨hi, hd, ht, hf, hoff, hrec, hdata⟩ := tally_of_atRest (hrun.atRest hrest) (sound_of_reaches hP hreach)
    (served_of_reaches (fun w e hp => (hP w e hp).1) hreach) (streaming_of_reaches hreach).2 (told_of_reaches hP hreach)
    hen ho (h := h) (o := o) hh
  exact ⟨hi, hd, ht, hf, hoff, hrec, hdata⟩

/-- A host attaches, one datum is produced, and the Factory is destroyed. -/
def watching : List Event :=
  let wake (loop : Event) (pump : Event) := loop :: List.replicate 4 pump
  let factory (n : Nat) := wake (.factory .scheduleWork) (.factory .pump) ++ List.replicate n (.code (.run 0 [])) ++
    [.factory .taskDone]
  let host (n : Nat) := List.replicate 4 (.host 0 .pump) ++ List.replicate n (.code (.runHost 0)) ++ [.host 0 .taskDone]
  let rest (pump : Event) := List.replicate 6 pump
  .factory (.run false false) :: List.replicate 5 (.factory .pump) ++
    .host 0 (.run false false) :: List.replicate 5 (.host 0 .pump) ++
    .code (.post [.create]) :: factory 2 ++ rest (.factory .pump) ++
    .code (.init 0) :: factory 2 ++ rest (.factory .pump) ++ .host 0 .scheduleWork :: host 3 ++ rest (.host 0 .pump) ++
    .code (.post [.start]) :: factory 2 ++ factory 6 ++ .factory .scheduleWork :: List.replicate 14 (.factory .pump) ++
    .host 0 .scheduleWork :: host 2 ++ rest (.host 0 .pump) ++
    .code (.post [.destroy]) :: factory 11 ++ rest (.factory .pump) ++ .host 0 .scheduleWork :: host 2 ++ host 2 ++
    rest (.host 0 .pump)

theorem tally_of_reaches_watching : ∃ d o, Reaches (step oneThread) (Obeys Quietly) initial d ∧
    (d.code.host 0 = some o ∧ o.receive = 1 ∧ o.destroyTime = 1) ∧ Tally oneThread d.code 0 o := by
  obtain ⟨d, hr, hd⟩ := GuardedRun.exists_of_execute (step oneThread) (Obeys Quietly) initial watching
    (fun d => decide (d.factoryLoop.AtRest ∧ (d.hostLoop 0).AtRest) &&
      (d.code.host 0).any fun (o : FactoryHost) => decide (o.receive = 1 ∧ o.destroyTime = 1)) (by decide +kernel)
  obtain ⟨hd, ho⟩ := Bool.and_eq_true_iff.mp hd
  obtain ⟨hf, hh⟩ := of_decide_eq_true hd
  obtain ⟨o, ho, hcount⟩ := (Option.any_eq_true ..).mp ho
  exact ⟨d, o, hr, ⟨ho, of_decide_eq_true hcount⟩, tally_of_reaches hr ⟨hf, fun _ => hh⟩ ho⟩

end Deployment
end OscDataProcess
