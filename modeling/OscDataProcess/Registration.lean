import OscDataProcess.References

/-!
# Registered stubs and live stubs are the same

What holds of the observer lists, the stubs and the suspended observer loops in
every state, whatever the callers do. Nothing here looks at the hosts.
-/
namespace OscDataProcess

open Function (update)
open World

/-- The observer list of a live Factory. -/
def World.list (w : World) (f : FactoryId) : Option (ObserverList Observer) :=
  (w.factory f).map Factory.observerList

def Frame.loopsOver (f : FactoryId) : Frame → Bool
  | .notify _ f' _ => decide (f' = f)
  | _ => false

/-- How many suspended loops iterate over the list of Factory `f`. -/
def loopCount (frames : List Frame) (f : FactoryId) : Nat := frames.countP (Frame.loopsOver f)

@[simp] theorem loopCount_nil (f : FactoryId) : loopCount [] f = 0 := rfl
@[simp] theorem loopCount_notify (k : Notice) (f f' : FactoryId) (i : Nat) (rest : List Frame) :
    loopCount (.notify k f' i :: rest) f = loopCount rest f + if f' = f then 1 else 0 := by
  simp [loopCount, List.countP_cons, Frame.loopsOver]
@[simp] theorem loopCount_calls (cs : List Call) (rest : List Frame) (f : FactoryId) :
    loopCount (.calls cs :: rest) f = loopCount rest f := by
  simp [loopCount, Frame.loopsOver]
@[simp] theorem loopCount_schedule (f' : FactoryId) (rest : List Frame) (f : FactoryId) :
    loopCount (.schedule f' :: rest) f = loopCount rest f := by
  simp [loopCount, Frame.loopsOver]
@[simp] theorem loopCount_produce (f' : FactoryId) (rest : List Frame) (f : FactoryId) :
    loopCount (.produce f' :: rest) f = loopCount rest f := by
  simp [loopCount, Frame.loopsOver]
@[simp] theorem loopCount_produced (rest : List Frame) (f : FactoryId) :
    loopCount (.produced :: rest) f = loopCount rest f := by
  simp [loopCount, Frame.loopsOver]
@[simp] theorem loopCount_destroyed (f' : FactoryId) (rest : List Frame) (f : FactoryId) :
    loopCount (.destroyed f' :: rest) f = loopCount rest f := by
  simp [loopCount, Frame.loopsOver]

/-- A NotifyDestroy loop leaves no stub behind it but the one that is just about to leave,
and once it has ended (`cover` is `none` then) no stub is registered any more. -/
def Swept (list : FactoryId → Option (ObserverList Observer)) (pc : Pc) :
    Option FactoryId → List Frame → Prop
  | _, [] => True
  | _, .notify .destroyed f i :: rest =>
    (∀ l s, list f = some l → .stub s ∈ l.passed i → pc = .leave s) ∧ Swept list pc (some f) rest
  | cover, .destroyed f :: rest =>
    (cover = some f ∨ ∀ l s, list f = some l → .stub s ∉ l.members) ∧ Swept list pc none rest
  | _, .notify .produced _ _ :: rest | _, .calls _ :: rest | _, .schedule _ :: rest
  | _, .produce _ :: rest | _, .produced :: rest => Swept list pc none rest

/-- What the position in the code of stubs says about the stub. -/
def PcPlaced (stub : StubId → Option FactoryStub) (frames : List Frame) : Pc → Prop
  | .idle | .selfReply _ | .selfDrop _ => True
  | .relayTask _ | .relayReply _ => frames = []
  | .stubData s _ | .leave s => ∃ st f, stub s = some st ∧ st.factory = some f
  | .leavePost s | .leaveDestroy s => ∃ st, stub s = some st ∧ st.factory = none
  | .selfDestroy h => ∃ s st, stub s = some st ∧ st.observer = h ∧ st.factory = none

structure Listed (w : World) : Prop where
  current : ∀ f l, w.list f = some l → w.gFactory = some f
  present : ∀ f, w.gFactory = some f → ∃ l, w.list f = some l
  listBound : ∀ f l, w.list f = some l → f < w.freshFactory
  frameBound : ∀ f, w.freshFactory ≤ f → loopCount w.frames f = 0
  depth : ∀ f l, w.list f = some l → l.notifyDepth = loopCount w.frames f
  stubListed : ∀ s st f, w.stub s = some st → st.factory = some f →
    ∃ l, w.list f = some l ∧ .stub s ∈ l.members
  listedStub : ∀ f l s, w.list f = some l → .stub s ∈ l.members →
    ∃ st, w.stub s = some st ∧ st.factory = some f
  swept : Swept w.list w.pc none w.frames
  placed : PcPlaced w.stub w.frames w.pc

theorem listed_initial : Listed .initial where
  current := by intro f l hl; simp [World.list, initial] at hl
  present := by intro f hf; simp [initial] at hf
  listBound := by intro f l hl; simp [World.list, initial] at hl
  frameBound := by intro f _; rfl
  depth := by intro f l hl; simp [World.list, initial] at hl
  stubListed := by intro s st f hs; simp [initial] at hs
  listedStub := by intro f l s hl; simp [World.list, initial] at hl
  swept := trivial
  placed := trivial

theorem Swept.mono {list list' : FactoryId → Option (ObserverList Observer)} {pc pc' : Pc}
    (hmembers : ∀ f l', list' f = some l' → ∃ l, list f = some l ∧
      ∀ s, .stub s ∈ l'.members → .stub s ∈ l.members)
    {frames : List Frame}
    (hpassed : ∀ f l', list' f = some l' → loopCount frames f ≠ 0 → ∃ l, list f = some l ∧
      ∀ i s, .stub s ∈ l'.passed i → .stub s ∈ l.passed i ∧ (pc = .leave s → pc' = .leave s))
    {cover : Option FactoryId} (h : Swept list pc cover frames) : Swept list' pc' cover frames := by
  induction frames generalizing cover with
  | nil => trivial
  | cons fr rest ih =>
    cases fr with
    | notify k f i =>
      have hrest : ∀ f l', list' f = some l' → loopCount rest f ≠ 0 → ∃ l, list f = some l ∧
          ∀ i s, .stub s ∈ l'.passed i → .stub s ∈ l.passed i ∧ (pc = .leave s → pc' = .leave s) :=
        fun f l' hl hn => hpassed f l' hl (by simp only [loopCount_notify]; omega)
      cases k with
      | produced => exact ih hrest h
      | destroyed =>
        refine ⟨?_, ih hrest h.2⟩
        intro l' s hl' hs
        obtain ⟨l, hl, hsub⟩ := hpassed f l' hl' (by simp)
        exact (hsub i s hs).2 (h.1 l s hl (hsub i s hs).1)
    | destroyed f =>
      refine ⟨h.1.imp_right ?_, ih (by simpa using hpassed) h.2⟩
      intro hno l' s hl' hs
      obtain ⟨l, hl, hsub⟩ := hmembers f l' hl'
      exact hno l s hl (hsub s hs)
    | calls | schedule | produce | produced => exact ih (by simpa using hpassed) h

/-- A frame whose cover is not asked for may lose it when its list has no stubs. -/
theorem Swept.uncover {list : FactoryId → Option (ObserverList Observer)} {pc : Pc} {f : FactoryId}
    (hno : ∀ l s, list f = some l → .stub s ∉ l.members) {frames : List Frame}
    (h : Swept list pc (some f) frames) : Swept list pc none frames := by
  cases frames with
  | nil => trivial
  | cons fr rest =>
    cases fr with
    | notify k f i => cases k <;> exact h
    | destroyed f' =>
      refine ⟨.inr ?_, h.2⟩
      obtain he | hno' := h.1
      · obtain rfl := Option.some.inj he
        exact hno
      · exact hno'
    | calls | schedule | produce | produced => exact h

theorem list_update (w : World) (f : FactoryId) (fac : Option Factory) :
    (fun b => (update w.factory f fac b).map Factory.observerList) =
      update w.list f (fac.map Factory.observerList) := by
  funext b
  by_cases hb : b = f
  · subst hb; simp
  · simp [hb, World.list]

theorem list_of_some {w : World} {f : FactoryId} {fac : Factory} (hf : w.factory f = some fac) :
    w.list f = some fac.observerList := by simp [World.list, hf]

/-- Replacing a Factory by one with the same list. -/
theorem list_same {w : World} {f : FactoryId} {fac fac' : Factory} (hf : w.factory f = some fac)
    (hl : fac'.observerList = fac.observerList) :
    (fun b => (update w.factory f (some fac') b).map Factory.observerList) = w.list := by
  rw [list_update, Option.map_some, hl, ← list_of_some hf, Function.update_eq_self]

variable {c : Config} {w : World}

/-- The `factory_` fields of all stubs. -/
def World.stubFactory (w : World) (s : StubId) : Option (Option FactoryId) :=
  (w.stub s).map FactoryStub.factory

theorem stubFactory_of_some {s : StubId} {st : FactoryStub} (hs : w.stub s = some st) :
    w.stubFactory s = some st.factory := by simp [World.stubFactory, hs]

theorem of_stubFactory {s : StubId} {f : Option FactoryId} (hs : w.stubFactory s = some f) :
    ∃ st, w.stub s = some st ∧ st.factory = f := by
  simpa [World.stubFactory, Option.map_eq_some_iff] using hs

theorem stubFactory_replace {s : StubId} {st st' : FactoryStub} (hs : w.stub s = some st)
    (hf : st'.factory = st.factory) :
    (fun b => (update w.stub s (some st') b).map FactoryStub.factory) = w.stubFactory := by
  funext b
  by_cases hb : b = s
  · subst hb; simp [stubFactory_of_some hs, hf]
  · simp [hb, World.stubFactory]

namespace Listed

/-- Nothing registered changes. -/
theorem still {w' : World} (hl : Listed w) (hg : w'.gFactory = w.gFactory) (hlist : w'.list = w.list)
    (hfresh : w'.freshFactory = w.freshFactory) (hstub : w'.stubFactory = w.stubFactory)
    (hcount : ∀ f, loopCount w'.frames f = loopCount w.frames f)
    (hswept : Swept w.list w'.pc none w'.frames) (hplaced : PcPlaced w'.stub w'.frames w'.pc) :
    Listed w' where
  current := by rw [hg, hlist]; exact hl.current
  present := by rw [hg, hlist]; exact hl.present
  listBound := by rw [hlist, hfresh]; exact hl.listBound
  frameBound := by intro f hf; rw [hcount]; exact hl.frameBound f (hfresh ▸ hf)
  depth := by intro f l hf; rw [hcount]; exact hl.depth f l (hlist ▸ hf)
  stubListed := by
    intro s st f hs hf
    obtain ⟨st₀, hs₀, hf₀⟩ := of_stubFactory (hstub ▸ stubFactory_of_some hs)
    rw [hlist]
    exact hl.stubListed s st₀ f hs₀ (hf₀.trans hf)
  listedStub := by
    intro f l s hf hs
    obtain ⟨st₀, hs₀, hf₀⟩ := hl.listedStub f l s (hlist ▸ hf) hs
    exact of_stubFactory (by rw [hstub, stubFactory_of_some hs₀, hf₀])
  swept := by rw [hlist]; exact hswept
  placed := hplaced

/-- The list of one Factory changes in its plain observers, its slots or its loops. -/
theorem relist {w' : World} (hl : Listed w) {f : FactoryId} {l l' : ObserverList Observer}
    (hf : w.list f = some l) (hg : w'.gFactory = w.gFactory) (hlist : w'.list = update w.list f (some l'))
    (hfresh : w'.freshFactory = w.freshFactory) (hstub : w'.stub = w.stub)
    (hmem : ∀ s, .stub s ∈ l'.members ↔ .stub s ∈ l.members)
    (hdepth : l'.notifyDepth = loopCount w'.frames f)
    (hcount : ∀ b, b ≠ f → loopCount w'.frames b = loopCount w.frames b)
    (hswept : Swept w'.list w'.pc none w'.frames) (hplaced : PcPlaced w.stub w'.frames w'.pc) :
    Listed w' where
  current := by
    intro b m hb
    rw [hg]
    by_cases he : b = f
    · subst he; exact hl.current b l hf
    · rw [hlist, Function.update_of_ne he] at hb; exact hl.current b m hb
  present := by
    intro b hb
    obtain ⟨m, hm⟩ := hl.present b (hg ▸ hb)
    rw [hlist]
    by_cases he : b = f
    · subst he; exact ⟨l', Function.update_self ..⟩
    · exact ⟨m, by rw [Function.update_of_ne he, hm]⟩
  listBound := by
    intro b m hb
    rw [hfresh]
    by_cases he : b = f
    · subst he; exact hl.listBound b l hf
    · rw [hlist, Function.update_of_ne he] at hb; exact hl.listBound b m hb
  frameBound := by
    intro b hb
    have hne : b ≠ f := by
      rintro rfl
      exact absurd (hl.listBound b l hf) (Nat.not_lt.mpr (hfresh ▸ hb))
    rw [hcount b hne]
    exact hl.frameBound b (hfresh ▸ hb)
  depth := by
    intro b m hb
    by_cases he : b = f
    · subst he
      rw [hlist, Function.update_self] at hb
      obtain rfl := Option.some.inj hb
      exact hdepth
    · rw [hlist, Function.update_of_ne he] at hb
      rw [hcount b he]
      exact hl.depth b m hb
  stubListed := by
    intro s st b hs hb
    rw [hstub] at hs
    obtain ⟨m, hm, hmem'⟩ := hl.stubListed s st b hs hb
    rw [hlist]
    by_cases he : b = f
    · subst he
      obtain rfl := Option.some.inj (hf.symm.trans hm)
      exact ⟨l', Function.update_self .., (hmem s).mpr hmem'⟩
    · exact ⟨m, by rw [Function.update_of_ne he, hm], hmem'⟩
  listedStub := by
    intro b m s hb hs
    rw [hstub]
    by_cases he : b = f
    · subst he
      rw [hlist, Function.update_self] at hb
      obtain rfl := Option.some.inj hb
      exact hl.listedStub b l s hf ((hmem s).mp hs)
    · rw [hlist, Function.update_of_ne he] at hb
      exact hl.listedStub b m s hb hs
  swept := hswept
  placed := by rw [hstub]; exact hplaced

end Listed

/-- Only the list of Factory `f` changes, and no stub comes to lie behind a loop. -/
theorem Swept.relist {list : FactoryId → Option (ObserverList Observer)} {pc : Pc} {f : FactoryId}
    {l l' : ObserverList Observer} {frames : List Frame} {cover : Option FactoryId}
    (hf : list f = some l) (hmem : ∀ s, .stub s ∈ l'.members → .stub s ∈ l.members)
    (hpassed : loopCount frames f ≠ 0 → ∀ i s, .stub s ∈ l'.passed i → .stub s ∈ l.passed i)
    (h : Swept list pc cover frames) : Swept (update list f (some l')) pc cover frames := by
  refine h.mono ?_ ?_
  · intro b m hb
    by_cases he : b = f
    · subst he
      rw [Function.update_self] at hb
      obtain rfl := Option.some.inj hb
      exact ⟨l, hf, hmem⟩
    · rw [Function.update_of_ne he] at hb
      exact ⟨m, hb, fun _ => id⟩
  · intro b m hb hn
    by_cases he : b = f
    · subst he
      rw [Function.update_self] at hb
      obtain rfl := Option.some.inj hb
      exact ⟨l, hf, fun i s hs => ⟨hpassed hn i s hs, id⟩⟩
    · rw [Function.update_of_ne he] at hb
      exact ⟨m, hb, fun _ _ hs => ⟨hs, id⟩⟩

/-- The factory thread leaves a stub's code or enters one that is not about to leave. -/
theorem Swept.repc {list : FactoryId → Option (ObserverList Observer)} {pc pc' : Pc}
    {frames : List Frame} {cover : Option FactoryId} (hpc : ∀ s, pc ≠ .leave s)
    (h : Swept list pc cover frames) : Swept list pc' cover frames :=
  h.mono (fun _ l hl => ⟨l, hl, fun _ => id⟩)
    (fun _ l hl _ => ⟨l, hl, fun _ _ hs => ⟨hs, fun he => absurd he (hpc _)⟩⟩)

theorem startNotify_cases (k : Notice) (f : FactoryId) (fac : Factory) :
    startNotify k f fac =
        ({ fac with observerList := fac.observerList.beginNotify }, [.notify k f 0]) ∨
      (fac.observerList.members = [] ∧ startNotify k f fac = (fac, [])) := by
  unfold startNotify
  split
  · exact .inl rfl
  · rename_i h
    exact .inr ⟨ObserverList.members_of_not_mightHaveObservers (by simpa using h), rfl⟩

theorem passed_subset {l : ObserverList Observer} {i : Nat} {o : Observer} (h : o ∈ l.passed i) :
    o ∈ l.members := by
  rw [← l.passed_append_remaining i]
  exact List.mem_append_left _ h

/-- With no stub registered anywhere there is nothing to leave behind. -/
theorem Swept.of_clear {list : FactoryId → Option (ObserverList Observer)} {pc : Pc}
    (hno : ∀ f l s, list f = some l → .stub s ∉ l.members) {frames : List Frame}
    {cover : Option FactoryId} : Swept list pc cover frames := by
  induction frames generalizing cover with
  | nil => trivial
  | cons fr rest ih =>
    cases fr with
    | notify k f i =>
      cases k with
      | produced => exact ih
      | destroyed => exact ⟨fun l s hl hs => absurd (passed_subset hs) (hno f l s hl), ih⟩
    | destroyed f => exact ⟨.inr fun l s hl => hno f l s hl, ih⟩
    | calls | schedule | produce | produced => exact ih

/-- A plain observer comes or goes. -/
theorem Swept.plain {l l' : ObserverList Observer} {f : FactoryId} {frames : List Frame}
    (hl : Listed w) (hf : w.list f = some l) (hframes : loopCount frames f = loopCount w.frames f)
    (hl' : (∃ p, l' = l.addObserver (.plain p)) ∨ ∃ p, l' = l.removeObserver (.plain p))
    (h : Swept w.list w.pc none frames) : Swept (update w.list f (some l')) w.pc none frames := by
  have hdepth := hl.depth f l hf
  obtain ⟨p, rfl⟩ | ⟨p, rfl⟩ := hl'
  · refine h.relist hf (fun s hs => by simpa [ObserverList.mem_addObserver] using hs) ?_
    intro _ i s hs
    simpa using ObserverList.passed_addObserver_subset hs
  · refine h.relist hf (fun s hs => (ObserverList.mem_removeObserver.mp hs).2) ?_
    intro hn i s hs
    rw [ObserverList.passed_removeObserver (by omega)] at hs
    exact List.mem_of_mem_erase hs

/-- A loop over the list of Factory `f` ends. -/
theorem Swept.endNotify {l : ObserverList Observer} {k : Notice} {f : FactoryId} {i : Nat}
    {rest : List Frame} (hl : Listed w) (hf : w.list f = some l) (hpc : w.pc = .idle)
    (hfr : w.frames = .notify k f i :: rest) (hend : l.remaining i = []) :
    Swept (update w.list f (some l.endNotify)) w.pc none rest := by
  have hdepth := hl.depth f l hf
  have hswept := hl.swept
  rw [hfr] at hdepth hswept
  simp only [loopCount_notify, if_true] at hdepth
  have hrest : Swept w.list w.pc none rest := by
    cases k with
    | produced => exact hswept
    | destroyed =>
      refine hswept.2.uncover ?_
      intro l₁ s hl₁ hs
      obtain rfl := Option.some.inj (hf.symm.trans hl₁)
      rw [← l.passed_append_remaining i, hend, List.append_nil] at hs
      exact absurd (hswept.1 l s hf hs) (by simp [hpc])
  refine hrest.relist hf (fun s hs => by simpa using hs) ?_
  intro hn j s hs
  rwa [ObserverList.passed, ObserverList.observers_endNotify (by omega)] at hs

namespace Listed

theorem plain {w' : World} {f : FactoryId} {fac : Factory} {l' : ObserverList Observer} (hl : Listed w)
    (hf : w.factory f = some fac) (hpc : w.pc = .idle) (hpc' : w'.pc = .idle)
    (hframes : ∀ b, loopCount w'.frames b = loopCount w.frames b)
    (hswept : Swept w.list w.pc none w'.frames)
    (hl' : (∃ p, l' = fac.observerList.addObserver (.plain p)) ∨
      ∃ p, l' = fac.observerList.removeObserver (.plain p))
    (hlist : w'.list = update w.list f (some l')) (hg : w'.gFactory = w.gFactory)
    (hfresh : w'.freshFactory = w.freshFactory) (hstub : w'.stub = w.stub) : Listed w' := by
  have hlf := list_of_some hf
  have hdepth := hl.depth f _ hlf
  refine hl.relist hlf hg hlist hfresh hstub ?_ ?_ (fun b _ => hframes b) ?_ (by rw [hpc']; trivial)
  · intro s
    obtain ⟨p, rfl⟩ | ⟨p, rfl⟩ := hl'
    · simp [ObserverList.mem_addObserver]
    · simp [ObserverList.mem_removeObserver]
  · rw [hframes, ← hdepth]
    obtain ⟨p, rfl⟩ | ⟨p, rfl⟩ := hl' <;> simp
  · rw [hlist, hpc', ← hpc]
    exact Swept.plain hl hlf (hframes f) hl' hswept

/-- FOR_EACH_OBSERVER starts, above the frames `fs`. -/
theorem startNotify {w' : World} {f : FactoryId} {fac : Factory} (fac' : Factory) {k : Notice}
    {fs : List Frame} (hl : Listed w) (hf : w.factory f = some fac) (hfac : fac'.observerList = fac.observerList)
    (hpc' : w'.pc = .idle)
    (hfactory : w'.factory = update w.factory f (some (startNotify k f fac').1))
    (hframes : w'.frames = (OscDataProcess.startNotify k f fac').2 ++ fs)
    (hcount : ∀ b, loopCount fs b = loopCount w.frames b)
    (hempty : fac.observerList.members = [] → Swept w.list .idle none fs)
    (hloop : Swept (update w.list f (some fac.observerList.beginNotify)) .idle none
      (.notify k f 0 :: fs))
    (hg : w'.gFactory = w.gFactory) (hfresh : w'.freshFactory = w.freshFactory)
    (hstub : w'.stub = w.stub) : Listed w' := by
  have hlf := list_of_some hf
  have hlist : w'.list = fun b => (w'.factory b).map Factory.observerList := rfl
  obtain hs | ⟨hm, hs⟩ := startNotify_cases k f fac'
  · rw [hs] at hfactory hframes
    rw [hfactory, list_update] at hlist
    simp only [Option.map_some, hfac] at hlist
    refine hl.relist hlf hg hlist hfresh hstub (by simp) ?_ ?_ ?_ (by rw [hpc']; trivial)
    · rw [hframes]
      simp [hcount, hl.depth f _ hlf]
    · intro b hb
      rw [hframes]
      simp [hcount, Ne.symm hb]
    · rw [hlist, hpc', hframes]
      exact hloop
  · rw [hs] at hfactory hframes
    rw [hfactory, list_same hf hfac] at hlist
    refine hl.still hg hlist hfresh (by unfold World.stubFactory; rw [hstub]) ?_ ?_ (by rw [hpc']; trivial)
    · intro b
      rw [hframes]
      exact hcount b
    · rw [hpc', hframes]
      exact hempty (hfac ▸ hm)

/-- The first Factory, or the next one, starts with an empty list. -/
theorem create {ks : List Call} {rest : List Frame} (hl : Listed w) (hpc : w.pc = .idle)
    (hfr : w.frames = .calls (.create :: ks) :: rest) (hg : w.gFactory = none) :
    Listed { w.createFactory with frames := .calls ks :: rest } := by
  have hnone : ∀ f l, w.list f ≠ some l := by
    intro f l hf
    exact absurd (hl.current f l hf) (by simp [hg])
  have hlist : ({ w.createFactory with frames := .calls ks :: rest }).list =
      update w.list w.freshFactory (some .empty) := list_update w w.freshFactory (some newFactory)
  have hnew : ∀ f l, ({ w.createFactory with frames := .calls ks :: rest }).list f = some l →
      f = w.freshFactory ∧ l = .empty := by
    intro f l hf
    rw [hlist] at hf
    by_cases he : f = w.freshFactory
    · subst he
      rw [Function.update_self] at hf
      exact ⟨rfl, (Option.some.inj hf).symm⟩
    · rw [Function.update_of_ne he] at hf
      exact absurd hf (hnone f l)
  refine ⟨?_, ?_, ?_, ?_, ?_, ?_, ?_, ?_, ?_⟩
  · intro f l hf
    obtain ⟨rfl, rfl⟩ := hnew f l hf
    rfl
  · intro f hf
    obtain rfl := Option.some.inj hf
    exact ⟨.empty, by rw [hlist, Function.update_self]⟩
  · intro f l hf
    obtain ⟨rfl, rfl⟩ := hnew f l hf
    exact Nat.lt_succ_self _
  · intro f hf
    have := hl.frameBound f (Nat.le_of_succ_le hf)
    simpa [hfr] using this
  · intro f l hf
    obtain ⟨rfl, rfl⟩ := hnew f l hf
    have := hl.frameBound w.freshFactory (Nat.le_refl _)
    simpa [hfr] using this.symm
  · intro s st f hs hf
    obtain ⟨l, hlf, -⟩ := hl.stubListed s st f hs hf
    exact absurd hlf (hnone f l)
  · intro f l s hf hs
    obtain ⟨rfl, rfl⟩ := hnew f l hf
    simp at hs
  · apply Swept.of_clear
    intro f l s hf
    obtain ⟨rfl, rfl⟩ := hnew f l hf
    simp
  · simp only [createFactory, hpc]; trivial

theorem notifyDead {k : Notice} {f : FactoryId} {i : Nat} {rest : List Frame} (hl : Listed w)
    (hpc : w.pc = .idle) (hfr : w.frames = .notify k f i :: rest) (hdead : w.factory f = none) :
    Listed { w with frames := rest } := by
  have hsw := hl.swept
  have hlf : w.list f = none := by simp [World.list, hdead]
  rw [hfr] at hsw
  have hrest : Swept w.list w.pc none rest := by
    cases k with
    | produced => exact hsw
    | destroyed => exact hsw.2.uncover (by simp [hlf])
  refine ⟨hl.current, hl.present, hl.listBound, ?_, ?_, hl.stubListed, hl.listedStub, hrest, ?_⟩
  · intro b hb
    have := hl.frameBound b hb
    simp only [hfr, loopCount_notify] at this
    exact (Nat.add_eq_zero_iff.mp this).1
  · intro b l hb
    have hne : f ≠ b := by
      rintro rfl
      exact absurd (hlf.symm.trans hb) (by simp)
    simpa [hfr, hne] using hl.depth b l hb
  · simp only [hpc]; trivial

theorem notifyEnd {k : Notice} {f : FactoryId} {fac : Factory} {i : Nat} {rest : List Frame} (hl : Listed w)
    (hpc : w.pc = .idle) (hfr : w.frames = .notify k f i :: rest) (hfac : w.factory f = some fac)
    (hend : fac.observerList.remaining i = []) :
    Listed { w.setObservers f fac fac.observerList.endNotify with frames := rest } := by
  have hlf := list_of_some hfac
  have hswept := Swept.endNotify hl hlf hpc hfr hend
  have hdepth := hl.depth f _ hlf
  simp only [hfr, loopCount_notify, if_true] at hdepth
  have hlist : ({ w.setObservers f fac fac.observerList.endNotify with frames := rest }).list =
      update w.list f (some fac.observerList.endNotify) := list_update ..
  refine hl.relist hlf rfl hlist rfl rfl (by simp) ?_ ?_ ?_ ?_
  · simp [hdepth]
  · intro b hb
    simp [hfr, Ne.symm hb]
  · rw [hlist]
    exact hswept
  · simp only [setObservers_pc, hpc]; trivial

/-- `delete this` in Factory::Destroy: its list has no stub left. -/
theorem deleted {f : FactoryId} {fac : Factory} {rest : List Frame} (hl : Listed w) (hpc : w.pc = .idle)
    (hfr : w.frames = .destroyed f :: rest) (hfac : w.factory f = some fac) :
    Listed { w with
      factory := update w.factory f none
      gFactory := none
      frames := rest
      trace := w.trace ++ [.deleted f] } := by
  have hsw := hl.swept
  rw [hfr] at hsw
  have hlf := list_of_some hfac
  have hno : ∀ s, .stub s ∉ fac.observerList.members := by
    intro s
    exact (hsw.1.resolve_left (by simp)) _ s hlf
  have hnone : ∀ b, b ≠ f → w.list b = none := by
    intro b hb
    refine Option.eq_none_iff_forall_ne_some.mpr fun l hl' => hb ?_
    exact Option.some.inj ((hl.current b l hl').symm.trans (hl.current f _ hlf))
  have hlist : ∀ b l, ((update w.factory f none) b).map Factory.observerList ≠ some l := by
    intro b l hb
    rw [congrFun (list_update w f none) b] at hb
    by_cases he : b = f
    · simp [he] at hb
    · rw [Function.update_of_ne he, hnone b he] at hb
      cases hb
  refine ⟨fun b l hb => absurd hb (hlist b l), by simp, fun b l hb => absurd hb (hlist b l), ?_,
    fun b l hb => absurd hb (hlist b l), ?_, fun b l s hb => absurd hb (hlist b l), ?_, ?_⟩
  · intro b hb
    simpa [hfr] using hl.frameBound b hb
  · intro s st b hs hb
    obtain ⟨l, hl', hmem⟩ := hl.stubListed s st b hs hb
    by_cases he : b = f
    · subst he
      obtain rfl := Option.some.inj (hlf.symm.trans hl')
      exact absurd hmem (hno s)
    · exact absurd hl' (by simp [hnone b he])
  · exact Swept.of_clear fun b l s hb => absurd hb (hlist b l)
  · simp only [hpc]; trivial

theorem factoryMove {w' : World} {e : Event} (hl : Listed w) (hm : FactoryMove w e w') : Listed w' := by
  have hsw := hl.swept
  cases hm with
  | post | tick => exact hl.still rfl rfl rfl rfl (fun _ => rfl) hl.swept hl.placed
  | @beginCalls cs ts hidle hts =>
    refine hl.still rfl rfl rfl rfl (fun b => ?_) trivial ?_
    · simp [hidle.2]
    · simp only [hidle.1]; trivial
  | @beginSchedule f ts hidle hts | @beginDelayed i time f hidle =>
    refine hl.still rfl rfl rfl rfl (fun b => ?_) ?_ ?_
    · simp only [hidle.2]; split <;> simp
    · simp only; split <;> trivial
    · simp only [hidle.1]; trivial
  | callsDone hpc hfr =>
    rw [hfr] at hsw
    exact hl.still rfl rfl rfl rfl (fun b => by simp [hfr]) hsw (by simp only [hpc]; trivial)
  | skip hpc hfr =>
    rw [hfr] at hsw
    exact hl.still rfl rfl rfl rfl (fun b => by simp [hfr]) hsw (by simp only [hpc]; trivial)
  | start hpc hfr hg hfac | stop hpc hfr hg hfac =>
    rw [hfr] at hsw
    exact hl.still rfl (list_same hfac rfl) rfl rfl (fun b => by simp [hfr]) hsw
      (by simp only [hpc]; trivial)
  | scheduleStopped hpc hfr hfac | scheduleNow hpc hfr hfac | scheduleLater hpc hfr hfac =>
    rw [hfr] at hsw
    exact hl.still rfl (list_same hfac rfl) rfl rfl (fun b => by simp [hfr]) hsw
      (by simp only [hpc]; trivial)
  | create hpc hfr hg => exact hl.create hpc hfr hg
  | @destroyBegin f fac ks rest time script hpc hfr hg hfac =>
    rw [hfr, hpc] at hsw
    have hlf := list_of_some hfac
    refine hl.startNotify fac hfac rfl hpc rfl rfl (fun b => by simp [hfr]) ?_ ?_ rfl rfl rfl
    · intro hm
      refine ⟨.inr ?_, hsw⟩
      intro l s hl'
      obtain rfl := Option.some.inj (hlf.symm.trans hl')
      simp [hm]
    · refine ⟨by simp, .inl rfl, ?_⟩
      exact Swept.relist hlf (fun s hs => by simpa using hs) (fun _ i s hs => by simpa using hs) hsw
  | @produce f fac rest time script hpc hfr hfac =>
    rw [hfr, hpc] at hsw
    have hlf := list_of_some hfac
    refine hl.startNotify { fac with data := .make w.dataId } hfac rfl hpc rfl rfl
      (fun b => by simp [hfr]) (fun _ => hsw) ?_ rfl rfl rfl
    have hrest : Swept w.list .idle none rest := hsw
    exact hrest.relist hlf (fun s hs => by simpa using hs) (fun _ i s hs => by simpa using hs)
  | addObserver hpc hfr hg hfac =>
    rw [hfr] at hsw
    exact hl.plain hfac hpc hpc (fun b => by simp [hfr]) hsw (.inl ⟨_, rfl⟩) (list_update ..) rfl rfl rfl
  | removeObserver hpc hfr hg hfac =>
    rw [hfr] at hsw
    exact hl.plain hfac hpc hpc (fun b => by simp [hfr]) hsw (.inr ⟨_, rfl⟩) (list_update ..) rfl rfl rfl
  | notifyDead hpc hfr hdead => exact hl.notifyDead hpc hfr hdead
  | notifyEnd hpc hfr hfac hn => exact hl.notifyEnd hpc hfr hfac (ObserverList.getNext_eq_none hn)
  | @notifyPlain k f fac p i next rest time script hpc hfr hfac hn =>
    rw [hfr] at hsw
    refine hl.still rfl rfl rfl rfl (fun b => by simp [hfr]) ?_ (by simp only [hpc]; trivial)
    cases k with
    | produced => exact hsw
    | destroyed =>
      refine ⟨?_, hsw.2⟩
      intro l s hl' hs
      obtain rfl := Option.some.inj ((list_of_some hfac).symm.trans hl')
      rw [(ObserverList.getNext_eq_some hn).2] at hs
      exact hsw.1 _ s hl' (by simpa using hs)
  | @notifyProduced f fac s i next rest time script hpc hfr hfac hn =>
    rw [hfr, hpc] at hsw
    obtain ⟨st, hst, hf⟩ := hl.listedStub f _ s (list_of_some hfac) (ObserverList.mem_of_getNext hn)
    refine hl.still rfl rfl rfl rfl (fun b => by simp [hfr]) ?_ ⟨st, f, hst, hf⟩
    have hrest : Swept w.list .idle none rest := hsw
    exact hrest.repc (by simp)
  | @notifyDestroyed f fac s i next rest time script hpc hfr hfac hn =>
    rw [hfr, hpc] at hsw
    obtain ⟨st, hst, hf⟩ := hl.listedStub f _ s (list_of_some hfac) (ObserverList.mem_of_getNext hn)
    refine hl.still rfl rfl rfl rfl (fun b => by simp [hfr]) ⟨?_, hsw.2.repc (by simp)⟩ ⟨st, f, hst, hf⟩
    intro l s' hl' hs
    obtain rfl := Option.some.inj ((list_of_some hfac).symm.trans hl')
    rw [(ObserverList.getNext_eq_some hn).2, List.mem_append] at hs
    obtain hs | hs := hs
    · exact absurd (hsw.1 _ s' hl' hs) (by simp)
    · obtain rfl : s' = s := by simpa using hs
      rfl
  | produced hpc hfr =>
    rw [hfr] at hsw
    exact hl.still rfl rfl rfl rfl (fun b => by simp [hfr]) hsw (by simp only [hpc]; trivial)
  | destroyed hpc hfr hfac => exact hl.deleted hpc hfr hfac

/-- PostInit registers a new stub. -/
theorem attach {w' : World} {f : FactoryId} {fac : Factory} {st : FactoryStub} (hc : Counted c w)
    (hl : Listed w) (hfac : w.factory f = some fac) (hst : st.factory = some f)
    (hframes : w.frames = [])
    (hfactory : w'.factory = update w.factory f
      (some { fac with observerList := fac.observerList.addObserver (.stub w.freshStub) }))
    (hstub : w'.stub = update w.stub w.freshStub (some st)) (hg : w'.gFactory = w.gFactory)
    (hfresh : w'.freshFactory = w.freshFactory) (hframes' : w'.frames = [])
    (hplaced : PcPlaced w'.stub w'.frames w'.pc) : Listed w' := by
  have hlf := list_of_some hfac
  have hlist : w'.list = update w.list f (some (fac.observerList.addObserver (.stub w.freshStub))) := by
    have : w'.list = fun b => (w'.factory b).map Factory.observerList := rfl
    rw [this, hfactory, list_update, Option.map_some]
  have hnew : ∀ s st₀, w.stub s = some st₀ → s ≠ w.freshStub :=
    fun s st₀ hs => (hc.stubBound s st₀ hs).ne
  refine ⟨?_, ?_, ?_, ?_, ?_, ?_, ?_, by rw [hframes']; trivial, hplaced⟩
  · intro b l hb
    rw [hg]
    by_cases he : b = f
    · subst he; exact hl.current b _ hlf
    · rw [hlist, Function.update_of_ne he] at hb; exact hl.current b l hb
  · intro b hb
    obtain ⟨l, hl'⟩ := hl.present b (hg ▸ hb)
    rw [hlist]
    by_cases he : b = f
    · subst he; exact ⟨_, Function.update_self ..⟩
    · exact ⟨l, by rw [Function.update_of_ne he, hl']⟩
  · intro b l hb
    rw [hfresh]
    by_cases he : b = f
    · subst he; exact hl.listBound b _ hlf
    · rw [hlist, Function.update_of_ne he] at hb; exact hl.listBound b l hb
  · intro b hb
    rw [hframes', loopCount_nil]
  · intro b l hb
    rw [hframes', loopCount_nil]
    by_cases he : b = f
    · subst he
      rw [hlist, Function.update_self] at hb
      obtain rfl := Option.some.inj hb
      simpa [hframes] using hl.depth b _ hlf
    · rw [hlist, Function.update_of_ne he] at hb
      simpa [hframes] using hl.depth b l hb
  · intro s st₀ b hs hb
    rw [hstub] at hs
    rw [hlist]
    by_cases hsn : s = w.freshStub
    · subst hsn
      rw [Function.update_self] at hs
      obtain rfl := Option.some.inj hs
      obtain rfl := Option.some.inj (hst.symm.trans hb)
      exact ⟨_, Function.update_self .., ObserverList.mem_addObserver.mpr (.inl rfl)⟩
    · rw [Function.update_of_ne hsn] at hs
      obtain ⟨l, hl', hmem⟩ := hl.stubListed s st₀ b hs hb
      by_cases he : b = f
      · subst he
        obtain rfl := Option.some.inj (hlf.symm.trans hl')
        exact ⟨_, Function.update_self .., ObserverList.mem_addObserver.mpr (.inr hmem)⟩
      · exact ⟨l, by rw [Function.update_of_ne he, hl'], hmem⟩
  · intro b l s hb hs
    rw [hstub]
    by_cases he : b = f
    · subst he
      rw [hlist, Function.update_self] at hb
      obtain rfl := Option.some.inj hb
      obtain hs | hs := ObserverList.mem_addObserver.mp hs
      · obtain rfl : s = w.freshStub := by simpa using hs
        exact ⟨st, Function.update_self .., hst⟩
      · obtain ⟨st₀, hs₀, hf₀⟩ := hl.listedStub b _ s hlf hs
        exact ⟨st₀, by rw [Function.update_of_ne (hnew s st₀ hs₀), hs₀], hf₀⟩
    · rw [hlist, Function.update_of_ne he] at hb
      obtain ⟨st₀, hs₀, hf₀⟩ := hl.listedStub b l s hb hs
      exact ⟨st₀, by rw [Function.update_of_ne (hnew s st₀ hs₀), hs₀], hf₀⟩

/-- Stub `s` leaves the list of its Factory and loses `factory_` or its life. -/
theorem depart {w' : World} {s : StubId} {st : FactoryStub} (st' : Option FactoryStub) (hl : Listed w)
    (hst : w.stub s = some st) (hst' : ∀ x ∈ st', x.factory = none)
    (hlist : ∀ b, w'.list b = (w.list b).map fun l =>
      if st.factory = some b then l.removeObserver (.stub s) else l)
    (hstub : w'.stub = update w.stub s st') (hg : w'.gFactory = w.gFactory)
    (hfresh : w'.freshFactory = w.freshFactory) (hframes : w'.frames = w.frames)
    (hpc : ∀ s', w.pc = .leave s' → s' = s) (hplaced : PcPlaced w'.stub w'.frames w'.pc) : Listed w' := by
  have hback : ∀ b l', w'.list b = some l' → ∃ l, w.list b = some l ∧ l'.notifyDepth = l.notifyDepth ∧
      (∀ x, x ∈ l'.members ↔ (x ≠ .stub s ∧ x ∈ l.members)) ∧
      (loopCount w.frames b ≠ 0 → ∀ i x, x ∈ l'.passed i → x ∈ l.passed i) := by
    intro b l' hb
    rw [hlist b] at hb
    obtain ⟨l, hl', rfl⟩ := Option.map_eq_some_iff.mp hb
    refine ⟨l, hl', ?_⟩
    split
    · refine ⟨by simp, fun x => ObserverList.mem_removeObserver, fun hn i x hx => ?_⟩
      rw [ObserverList.passed_removeObserver (by rw [hl.depth b l hl']; exact hn)] at hx
      exact List.mem_of_mem_erase hx
    · rename_i hne
      refine ⟨rfl, fun x => ⟨fun hx => ⟨?_, hx⟩, fun hx => hx.2⟩, fun _ _ _ hx => hx⟩
      rintro rfl
      obtain ⟨st₀, hs₀, hf₀⟩ := hl.listedStub b l s hl' hx
      obtain rfl := Option.some.inj (hst.symm.trans hs₀)
      exact hne hf₀
  refine ⟨?_, ?_, ?_, ?_, ?_, ?_, ?_, ?_, hplaced⟩
  · intro b l' hb
    obtain ⟨l, hl', -⟩ := hback b l' hb
    rw [hg]
    exact hl.current b l hl'
  · intro b hb
    obtain ⟨l, hl'⟩ := hl.present b (hg ▸ hb)
    exact ⟨_, by rw [hlist b, hl', Option.map_some]⟩
  · intro b l' hb
    obtain ⟨l, hl', -⟩ := hback b l' hb
    rw [hfresh]
    exact hl.listBound b l hl'
  · rw [hfresh, hframes]
    exact hl.frameBound
  · intro b l' hb
    obtain ⟨l, hl', hd, -⟩ := hback b l' hb
    rw [hd, hframes]
    exact hl.depth b l hl'
  · intro s' st₀ b hs hb
    rw [hstub] at hs
    have hne : s' ≠ s := by
      rintro rfl
      rw [Function.update_self] at hs
      rw [hst' st₀ hs] at hb
      cases hb
    rw [Function.update_of_ne hne] at hs
    obtain ⟨l, hl', hmem⟩ := hl.stubListed s' st₀ b hs hb
    have hw : w'.list b = some (if st.factory = some b then l.removeObserver (.stub s) else l) := by
      rw [hlist b, hl', Option.map_some]
    refine ⟨_, hw, ?_⟩
    split
    · exact ObserverList.mem_removeObserver.mpr ⟨by simpa using hne, hmem⟩
    · exact hmem
  · intro b l' s' hb hs
    obtain ⟨l, hl', -, hmem, -⟩ := hback b l' hb
    obtain ⟨hne, hs⟩ := (hmem _).mp hs
    obtain ⟨st₀, hs₀, hf₀⟩ := hl.listedStub b l s' hl' hs
    exact ⟨st₀, by rw [hstub, Function.update_of_ne (by simpa using hne), hs₀], hf₀⟩
  · rw [hframes]
    refine hl.swept.mono ?_ ?_
    · intro b l' hb
      obtain ⟨l, hl', -, hmem, -⟩ := hback b l' hb
      exact ⟨l, hl', fun s' hs => ((hmem _).mp hs).2⟩
    · intro b l' hb hn
      obtain ⟨l, hl', -, hmem, hpassed⟩ := hback b l' hb
      refine ⟨l, hl', fun i s' hs => ⟨hpassed hn i _ hs, fun he => ?_⟩⟩
      obtain rfl := hpc s' he
      exact absurd rfl ((hmem _).mp (passed_subset hs)).1

theorem dropped_list {s : StubId} {st : FactoryStub} (b : FactoryId) :
    (w.dropped s st b).map Factory.observerList = (w.list b).map fun l =>
      if st.factory = some b then l.removeObserver (.stub s) else l := by
  unfold World.dropped
  cases hf : st.factory with
  | none => simp [World.list, Function.comp_def]
  | some f =>
    by_cases he : b = f
    · subst he
      simp [World.list, Function.comp_def]
    · simp [World.list, Function.comp_def, he, Ne.symm he]

theorem hostMove {w' : World} {e : Event} (hc : Counted c w) (hl : Listed w) (hm : HostMove c w e w') :
    Listed w' := by
  have hplaced := hl.placed
  have hswept := hl.swept
  cases hm with
  | beginRelay hidle =>
    exact hl.still rfl rfl rfl rfl (fun _ => rfl) (hswept.repc (by simp [hidle.1])) hidle.2
  | postInit hpc hg hfac ho =>
    rw [hpc] at hplaced
    exact hl.attach hc hfac rfl hplaced rfl rfl rfl rfl hplaced hplaced
  | relayDestroyNull hpc =>
    rw [hpc] at hplaced
    exact hl.still rfl rfl rfl rfl (fun _ => rfl) (hswept.repc (by simp [hpc])) hplaced
  | relayDestroyStub hpc ho hs hst =>
    rw [hpc] at hplaced
    exact hl.depart none hst (by simp) dropped_list rfl rfl rfl rfl (by simp [hpc]) hplaced
  | relayReply hpc | selfDestroyNull hpc | selfReply hpc | selfDrop hpc =>
    exact hl.still rfl rfl rfl rfl (fun _ => rfl) (hswept.repc (by simp [hpc])) trivial
  | @forward s data st o time script hpc hst =>
    exact hl.still rfl rfl rfl (stubFactory_replace hst (by simp)) (fun _ => rfl)
      (hswept.repc (by simp [hpc])) trivial
  | hold hpc hst =>
    exact hl.still rfl rfl rfl (stubFactory_replace hst (by simp)) (fun _ => rfl)
      (hswept.repc (by simp [hpc])) trivial
  | @leave s st f fac time script hpc hst hf hfac =>
    refine hl.depart (some { st with factory := none }) hst (by simp) ?_ rfl rfl rfl rfl
      (by rw [hpc]; rintro s' ⟨⟩; rfl) ⟨_, Function.update_self .., rfl⟩
    intro b
    refine (congrFun (list_update w f _) b).trans ?_
    by_cases he : b = f
    · subst he
      simp [hf, list_of_some hfac]
    · simp [hf, he, Ne.symm he]
  | leavePost hpc =>
    rw [hpc] at hplaced
    exact hl.still rfl rfl rfl rfl (fun _ => rfl) (hswept.repc (by simp [hpc])) hplaced
  | @leaveDestroy s st o time script hpc hst ho =>
    rw [hpc] at hplaced
    obtain ⟨st₀, hst₀, hf⟩ := hplaced
    obtain rfl := Option.some.inj (hst.symm.trans hst₀)
    exact hl.still rfl rfl rfl rfl (fun _ => rfl) (hswept.repc (by simp [hpc])) ⟨s, st, hst, rfl, hf⟩
  | selfDestroyStub hpc ho hs hst =>
    exact hl.depart none hst (by simp) dropped_list rfl rfl rfl rfl (by simp [hpc]) trivial
  | beginHost | resetTask | runReply | deleteRelay | runCall | unbind | init | destroy | addRef | dropRef =>
    exact hl.still rfl rfl rfl rfl (fun _ => rfl) hswept hplaced

end Listed

/-- Every reachable state is listed, under any discipline. -/
theorem listed_of_reaches {P : World → Event → Prop} (h : GuardedRun.Reaches (step c) P .initial w) :
    Listed w :=
  moves_of_reaches (fun _ _ _ hc hl _ hm => hl.hostMove hc hm)
    (fun _ _ _ _ hl _ hm => hl.factoryMove hm) listed_initial h

end OscDataProcess
