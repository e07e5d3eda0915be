import OscDataProcess.Destruction

/-!
# Producing survives observers that re-enter the Factory

One Schedule task from its first line to its end. Plain observers may start, stop and
destroy the Factory and change its list while NotifyProduced walks it; every place of the
task where the top frame goes on satisfies one invariant, and between two of them lies one
step, the turn of a stub, or a whole Destroy.
-/
namespace OscDataProcess

open Function (update)
open GuardedRun (Eventually Reaches Advances)
open World

/-- The calls of a plain observer: some of `S` in OnDataProduced, none in OnFactoryDestroy. -/
def Permits (S : List Call → Prop) : Option (Notice × FactoryId × Observer) → List Call → Prop
  | some (.produced, _, .plain _), script => S script
  | some (.destroyed, _, .plain _), script => script = []
  | some (_, _, .stub _), _ | none, _ => True

/-- The running task of the factory thread goes on. -/
def Reenters (S : List Call → Prop) (w : World) : Event → Prop
  | .run _ script => ¬ w.Idle ∧ Permits S w.nextObserver script
  | _ => False

def World.Lists (w : World) (f : FactoryId) (o : Observer) : Prop :=
  ∃ l, w.list f = some l ∧ o ∈ l.members

/-- The task goes on while the observers `T` are registered. -/
def Watching (S : List Call → Prop) (T : Observer → Prop) (f : FactoryId) (w : World) (e : Event) : Prop :=
  Reenters S w e ∧ ∀ o, T o → w.Lists f o

/-- What no step of the task that began in `w` gets wrong. -/
structure Heedful (w : World) (f : FactoryId) (v v' : World) : Prop where
  /-- Who is called is registered and not deleted, and is not handed a datum after OnFactoryDestroy. -/
  called : ∀ k f' o, v'.trace = v.trace ++ [.notified k f' o] → f' = f ∧ v.Lists f o ∧
    (∀ s, o = .stub s → (v.stub s).isSome) ∧
    (k = .produced → v.notified .destroyed f o = w.notified .destroyed f o)
  /-- A stub is handed the datum of this task. -/
  datum : ∀ s data, v'.pc = .stubData s data → data = .make w.dataId

/-- The Factory is alive, with the stubs it had when the task began. -/
structure Standing (w : World) (f : FactoryId) (l : ObserverList Observer) (fac : Factory) (v : World) :
    Prop where
  current : v.gFactory = some f
  factory : v.factory f = some fac
  observed : Observed v f fac.observerList
  stubs : ∀ s, .stub s ∈ fac.observerList.members ↔ .stub s ∈ l.members
  untold : ∀ o, v.notified .destroyed f o = w.notified .destroyed f o
  intact : v.trace.count (.destroyBegun f) = w.trace.count (.destroyBegun f)

/-- The Factory has been destroyed since the task began, and has told all its stubs. -/
structure Fallen (w : World) (f : FactoryId) (l : ObserverList Observer) (v : World) : Prop where
  current : v.gFactory = none
  factory : v.factory f = none
  told : ∀ s, .stub s ∈ l.members → v.notified .destroyed f (.stub s) = w.notified .destroyed f (.stub s) + 1
  destroyed : v.trace.count (.destroyBegun f) = w.trace.count (.destroyBegun f) + 1

/-- Inside the observer loop: whom of `T` it has gone past has got the datum. -/
structure Walking (w : World) (f : FactoryId) (T : Observer → Prop) (fac : Factory) (index : Nat)
    (v : World) : Prop where
  depth : fac.observerList.notifyDepth = 1
  datum : fac.data = .make w.dataId
  given : ∀ o, T o → o ∈ fac.observerList.members → v.notified .produced f o =
    w.notified .produced f o + if o ∈ fac.observerList.passed index then 1 else 0

/-- Where the task is while its Factory is alive. -/
inductive Position (w : World) (f : FactoryId) (T : Observer → Prop) (start : Bool) (fac : Factory)
    (v : World) : List Frame → Prop
  | schedule : fac.start = start → fac.observerList.notifyDepth = 0 → v.dataId = w.dataId →
      (∀ o, v.notified .produced f o = w.notified .produced f o) →
      Position w f T start fac v [.schedule f]
  | produce : start = true → fac.observerList.notifyDepth = 0 → v.dataId = w.dataId →
      (∀ o, v.notified .produced f o = w.notified .produced f o) →
      Position w f T start fac v [.produce f]
  | loop {index : Nat} : start = true → Walking w f T fac index v →
      Position w f T start fac v [.notify .produced f index, .produced]
  | calls {cs : List Call} {index : Nat} : .create ∉ cs → start = true → Walking w f T fac index v →
      Position w f T start fac v [.calls cs, .notify .produced f index, .produced]
  | produced : start = true → fac.observerList.notifyDepth = 0 →
      (∀ o, T o → o ∈ fac.observerList.members →
        v.notified .produced f o = w.notified .produced f o + 1) →
      Position w f T start fac v [.produced]
  | done : fac.observerList.notifyDepth = 0 →
      (∀ o, T o → o ∈ fac.observerList.members →
        v.notified .produced f o = w.notified .produced f o + if start then 1 else 0) →
      Position w f T start fac v []

/-- Where the task is after a Destroy. -/
inductive Remnant (f : FactoryId) : List Frame → Prop
  | loop {index : Nat} : Remnant f [.notify .produced f index, .produced]
  | calls {cs : List Call} {index : Nat} : .create ∉ cs →
      Remnant f [.calls cs, .notify .produced f index, .produced]
  | produced : Remnant f [.produced]
  | done : Remnant f []

/-- What holds whenever the top frame of the task goes on. -/
def Survives (w : World) (f : FactoryId) (fac₀ : Factory) (T : Observer → Prop) (v : World) : Prop :=
  v.pc = .idle ∧ ((∃ fac, Standing w f fac₀.observerList fac v ∧ Position w f T fac₀.start fac v v.frames) ∨
    (Fallen w f fac₀.observerList v ∧ Remnant f v.frames))

/-- How many observers an iterator at `index` has still to visit. -/
def World.ahead (w : World) (f : FactoryId) (index : Nat) : Nat :=
  (w.list f).elim 0 fun l => (l.remaining index).length

/-- How far the task is from its end, if the observers make no more calls. A pending call weighs
more than the observer it may add. -/
def World.rank (w : World) (f : FactoryId) : Nat :=
  match w.frames with
  | [.schedule _] => 4 + 2 * w.ahead f 0
  | [.produce _] => 3 + 2 * w.ahead f 0
  | [.notify _ _ index, .produced] => 2 + 2 * w.ahead f index
  | [.calls cs, .notify _ _ index, .produced] => 3 + 2 * w.ahead f index + 3 * cs.length
  | [.produced] => 1
  | _ => 0

/-- The task gets on, but for the calls its observers make. -/
def Closer (S : List Call → Prop) (f : FactoryId) (v v' : World) : Prop :=
  ∀ n, (∀ cs, S cs → 3 * cs.length ≤ n) → v'.rank f < v.rank f + n

theorem Closer.of_lt {S : List Call → Prop} {f : FactoryId} {v v' : World} (h : v'.rank f < v.rank f) :
    Closer S f v v' := fun n _ => Nat.lt_add_right n h

theorem ahead_of_some {w : World} {f : FactoryId} {fac : Factory} (hfac : w.factory f = some fac)
    (index : Nat) : w.ahead f index = (fac.observerList.remaining index).length := by
  simp [World.ahead, list_of_some hfac]

theorem ahead_of_none {w : World} {f : FactoryId} (hfac : w.factory f = none) (index : Nat) :
    w.ahead f index = 0 := by
  simp [World.ahead, World.list, hfac]

theorem Reenters.run {S : List Call → Prop} {w : World} {e : Event} (he : Reenters S w e) :
    ∃ time script, e = .run time script ∧ Permits S w.nextObserver script := by
  cases e with
  | run time script => exact ⟨time, script, rfl, he.2⟩
  | _ => cases he

theorem Reenters.behaves {S : List Call → Prop} {w : World} {e : Event} (he : Reenters S w e) :
    Behaves (fun _ => []) w e := by
  obtain ⟨time, script, rfl, hp⟩ := he.run
  refine ⟨time, script, rfl, fun f p hn => ?_⟩
  rw [hn] at hp
  exact hp

theorem Reenters.mono {S S' : List Call → Prop} (hS : ∀ cs, S cs → S' cs) {w : World} {e : Event}
    (he : Reenters S w e) : Reenters S' w e := by
  obtain ⟨time, script, rfl, hp⟩ := he.run
  refine ⟨he.1, ?_⟩
  cases hn : w.nextObserver with
  | none => trivial
  | some n =>
    obtain ⟨k, f, o⟩ := n
    rw [hn] at hp
    cases o with
    | stub s => cases k <;> trivial
    | plain p =>
      cases k with
      | produced => exact hS _ hp
      | destroyed => exact hp

theorem Heedful.of_quiet {w v v' : World} {f : FactoryId}
    (htrace : ∀ k f' o, v'.trace ≠ v.trace ++ [.notified k f' o]) (hpc : ∀ s data, v'.pc ≠ .stubData s data) :
    Heedful w f v v' where
  called k f' o h := absurd h (htrace k f' o)
  datum s data h := absurd h (hpc s data)

theorem Careful.heedful {w v v' : World} {f : FactoryId} {l : ObserverList Observer}
    (h : Careful f l v v') : Heedful w f v v' where
  called k f' o ht := by
    obtain ⟨rfl, rfl, hl, hlive⟩ := h.called k f' o ht
    exact ⟨rfl, hl, hlive, by simp⟩
  datum s data hpc := absurd hpc (h.inside.2 s data)

/-- What of a stub the Factory and its list care for. -/
def FactoryStub.link (st : FactoryStub) : HostId × Option FactoryId := (st.observer, st.factory)

theorem Observed.congr {w w' : World} {f : FactoryId} {l l' : ObserverList Observer} (hw : Observed w f l)
    (hl : ∀ s, .stub s ∈ l'.members ↔ .stub s ∈ l.members)
    (hstub : ∀ s, (w'.stub s).map FactoryStub.link = (w.stub s).map FactoryStub.link)
    (hhost : ∀ h, (w'.host h).map FactoryHost.stub = (w.host h).map FactoryHost.stub) :
    Observed w' f l' where
  stubs s hs := by
    obtain ⟨st, o, hst, hsf, ho, hos⟩ := hw.stubs s ((hl s).mp hs)
    have hlink := hstub s
    rw [hst, Option.map_some, Option.map_eq_some_iff] at hlink
    obtain ⟨st', hst', hlink⟩ := hlink
    obtain ⟨hobs, hfac⟩ := Prod.mk.inj hlink
    have hkept := hhost st.observer
    rw [ho, Option.map_some, Option.map_eq_some_iff] at hkept
    obtain ⟨o', ho', hkept⟩ := hkept
    exact ⟨st', o', hst', hfac.trans hsf, hobs ▸ ho', hkept.trans hos⟩
  listed s st' hst' hsf' := by
    have hlink := hstub s
    rw [hst', Option.map_some, eq_comm, Option.map_eq_some_iff] at hlink
    obtain ⟨st, hst, hlink⟩ := hlink
    exact (hl s).mpr (hw.listed s st hst ((Prod.mk.inj hlink).2.trans hsf'))

/-- Steps that leave the stubs alone keep the Factory standing. -/
theorem Standing.kept {w v v' : World} {f : FactoryId} {l : ObserverList Observer} {fac fac' : Factory}
    (hs : Standing w f l fac v) (hg : v'.gFactory = v.gFactory) (hfac : v'.factory f = some fac')
    (hmem : ∀ s, .stub s ∈ fac'.observerList.members ↔ .stub s ∈ fac.observerList.members)
    (hstub : ∀ s, (v'.stub s).map FactoryStub.link = (v.stub s).map FactoryStub.link)
    (hhost : ∀ h, (v'.host h).map FactoryHost.stub = (v.host h).map FactoryHost.stub)
    {es : List Entry} (htrace : v'.trace = v.trace ++ es) (htold : ∀ o, .notified .destroyed f o ∉ es)
    (hbegun : .destroyBegun f ∉ es) : Standing w f l fac' v' where
  current := hg.trans hs.current
  factory := hfac
  observed := hs.observed.congr hmem hstub hhost
  stubs s := (hmem s).trans (hs.stubs s)
  untold o := by
    rw [World.notified, htrace, List.count_append, List.count_eq_zero_of_not_mem (htold o)]
    exact hs.untold o
  intact := by
    rw [htrace, List.count_append, List.count_eq_zero_of_not_mem hbegun]
    exact hs.intact

theorem notified_append {v v' : World} {es : List Entry} (htrace : v'.trace = v.trace ++ es) {k : Notice}
    {f : FactoryId} {o : Observer} (hno : .notified k f o ∉ es) : v'.notified k f o = v.notified k f o := by
  rw [World.notified, htrace, List.count_append, List.count_eq_zero_of_not_mem hno]
  rfl

theorem map_update {α β γ : Type} [DecidableEq α] {m : α → Option β} {g : β → γ} {a : α} {x y : β}
    (hx : m a = some x) (hy : g y = g x) (b : α) : (update m a (some y) b).map g = (m b).map g := by
  obtain rfl | hne := eq_or_ne b a
  · simp [hx, hy]
  · rw [Function.update_of_ne hne]

section Task

variable {c : Config} {S : List Call → Prop} {w v v' : World} {f : FactoryId} {fac₀ fac fac' : Factory}
  {T : Observer → Prop}

/-- No step goes wrong, and the task ends only in a state with the invariant. -/
def Keeps (w : World) (f : FactoryId) (fac₀ : Factory) (T : Observer → Prop) (v v' : World) : Prop :=
  Heedful w f v v' ∧ (v'.Idle → Survives w f fac₀ T v')

theorem Keeps.of_busy (h : Heedful w f v v') (hne : v'.frames ≠ []) : Keeps w f fac₀ T v v' :=
  ⟨h, fun hidle => absurd hidle.2 hne⟩

/-- The task gets to the next place where its top frame goes on. -/
def Proceeds (c : Config) (S : List Call → Prop) (w : World) (f : FactoryId) (fac₀ : Factory)
    (T : Observer → Prop) (v : World) : Prop :=
  Advances (step c) (Watching S T f) (Keeps w f fac₀ T)
    (fun v' => Survives w f fac₀ T v' ∧ Closer S f v v') v

theorem proceeds_of_move (hlive : ∀ f, v.gFactory = some f → (v.factory f).isSome)
    (hm : ∀ time script, FactoryMove v (.run time script) v') (hR : Heedful w f v v')
    (h : (∀ o, T o → v.Lists f o) → Survives w f fac₀ T v') (hrank : v'.rank f < v.rank f) :
    Proceeds c S w f fac₀ T v := by
  intro e he
  obtain ⟨time, script, rfl, -⟩ := he.1.run
  exact ⟨v', step_of_factoryMove (hm time script) hlive, ⟨hR, fun _ => h he.2⟩, .now ⟨h he.2, .of_lt hrank⟩⟩

theorem rank_schedule (hfr : v.frames = [.schedule f]) : v.rank f = 4 + 2 * v.ahead f 0 := by
  simp [World.rank, hfr]

theorem rank_produce (hfr : v.frames = [.produce f]) : v.rank f = 3 + 2 * v.ahead f 0 := by
  simp [World.rank, hfr]

theorem rank_loop {index : Nat} (hfr : v.frames = [.notify .produced f index, .produced]) :
    v.rank f = 2 + 2 * v.ahead f index := by
  simp [World.rank, hfr]

theorem rank_calls {cs : List Call} {index : Nat}
    (hfr : v.frames = [.calls cs, .notify .produced f index, .produced]) :
    v.rank f = 3 + 2 * v.ahead f index + 3 * cs.length := by
  simp [World.rank, hfr]

theorem rank_produced (hfr : v.frames = [.produced]) : v.rank f = 1 := by
  simp [World.rank, hfr]

theorem rank_done (hfr : v.frames = []) : v.rank f = 0 := by
  simp [World.rank, hfr]

theorem schedule_proceeds (hs : Standing w f fac₀.observerList fac v) (hpc : v.pc = .idle)
    (hfr : v.frames = [.schedule f]) (hstart : fac.start = fac₀.start)
    (hd : fac.observerList.notifyDepth = 0) (hid : v.dataId = w.dataId)
    (hn : ∀ o, v.notified .produced f o = w.notified .produced f o) : Proceeds c S w f fac₀ T v := by
  have hlive := current_isSome hs.current hs.factory
  have hkept : ∀ v', v'.gFactory = v.gFactory → v'.factory = update v.factory f
      (some { fac with lastTicks := v.now }) → v'.stub = v.stub → v'.host = v.host → v'.trace = v.trace →
      Standing w f fac₀.observerList { fac with lastTicks := v.now } v' := by
    intro v' hg hfac hstub hhost htrace
    exact hs.kept hg (by simp [hfac]) (by simp) (by simp [hstub]) (by simp [hhost])
      (htrace.trans (List.append_nil _).symm) (by simp) (by simp)
  by_cases hst : fac.start = true
  · by_cases hper : fac.period = 0
    · refine proceeds_of_move hlive (fun _ _ => .scheduleNow hpc hfr hs.factory hst hper)
        (.of_quiet (by simp) (by simp [hpc])) (fun _ => ⟨hpc, .inl ⟨_, hkept _ rfl rfl rfl rfl rfl,
          .produce (hstart ▸ hst) hd hid hn⟩⟩) ?_
      rw [rank_produce rfl, rank_schedule hfr, ahead_of_some (Function.update_self ..), ahead_of_some hs.factory]
      exact Nat.add_lt_add_right (by omega) _
    · refine proceeds_of_move hlive (fun _ _ => .scheduleLater hpc hfr hs.factory hst hper)
        (.of_quiet (by simp) (by simp [hpc])) (fun _ => ⟨hpc, .inl ⟨_, hkept _ rfl rfl rfl rfl rfl,
          .produce (hstart ▸ hst) hd hid hn⟩⟩) ?_
      rw [rank_produce rfl, rank_schedule hfr, ahead_of_some (Function.update_self ..), ahead_of_some hs.factory]
      exact Nat.add_lt_add_right (by omega) _
  · refine proceeds_of_move hlive (fun _ _ => .scheduleStopped hpc hfr hs.factory (by simpa using hst))
      (.of_quiet (by simp) (by simp [hpc])) (fun _ => ⟨hpc, .inl ⟨_, hkept _ rfl rfl rfl rfl rfl,
        .done hd fun o _ _ => ?_⟩⟩) ?_
    · rw [if_neg (hstart ▸ hst)]
      exact hn o
    · rw [rank_done rfl, rank_schedule hfr]
      omega

theorem produce_proceeds (hs : Standing w f fac₀.observerList fac v) (hpc : v.pc = .idle)
    (hfr : v.frames = [.produce f]) (hstart : fac₀.start = true)
    (hd : fac.observerList.notifyDepth = 0) (hid : v.dataId = w.dataId)
    (hn : ∀ o, v.notified .produced f o = w.notified .produced f o) : Proceeds c S w f fac₀ T v := by
  have hn' : ∀ (v' : World) data, v'.trace = v.trace ++ [.produced f v.now data] → ∀ o,
      v'.notified .produced f o = w.notified .produced f o :=
    fun v' data ht o => (notified_append ht (by simp)).trans (hn o)
  refine proceeds_of_move (current_isSome hs.current hs.factory) (fun _ _ => .produce hpc hfr hs.factory)
    (.of_quiet (by simp) (by simp [hpc])) ?_ ?_
  all_goals by_cases hm : fac.observerList.mightHaveObservers = true
  · simp only [startNotify, hm, if_true]
    refine fun _ => ⟨hpc, .inl ⟨_, hs.kept rfl (Function.update_self ..) (by simp) (by simp) (by simp) rfl
      (by simp) (by simp), .loop hstart ⟨by simp [hd], by rw [hid], fun o _ _ => ?_⟩⟩⟩
    exact hn' _ _ rfl o
  · have hnone := ObserverList.members_of_not_mightHaveObservers (by simpa using hm)
    simp only [startNotify, hm, Bool.false_eq_true, if_false]
    refine fun _ => ⟨hpc, .inl ⟨_, hs.kept rfl (Function.update_self ..) (by simp) (by simp) (by simp) rfl
      (by simp) (by simp), .produced hstart hd fun o _ ho => ?_⟩⟩
    rw [hnone] at ho
    cases ho
  · simp only [startNotify, hm, if_true]
    rw [rank_loop rfl, rank_produce hfr, ahead_of_some (Function.update_self ..), ahead_of_some hs.factory]
    simp
  · simp only [startNotify, hm, Bool.false_eq_true, if_false]
    rw [rank_produced rfl, rank_produce hfr]
    omega

theorem produced_proceeds (hs : Standing w f fac₀.observerList fac v) (hpc : v.pc = .idle)
    (hfr : v.frames = [.produced]) (hstart : fac₀.start = true)
    (hd : fac.observerList.notifyDepth = 0) (hn : ∀ o, T o → o ∈ fac.observerList.members →
      v.notified .produced f o = w.notified .produced f o + 1) : Proceeds c S w f fac₀ T v := by
  refine proceeds_of_move (current_isSome hs.current hs.factory) (fun _ _ => .produced hpc hfr)
    (.of_quiet (by simp) (by simp [hpc])) (fun _ => ⟨hpc, .inl ⟨fac, ?_, .done hd fun o ho hm => ?_⟩⟩) ?_
  · exact hs.kept rfl hs.factory (by simp) (by simp) (by simp) (List.append_nil _).symm (by simp) (by simp)
  · rw [if_pos hstart]
    exact hn o ho hm
  · rw [rank_done rfl, rank_produced hfr]
    omega

theorem Walking.passed {index : Nat} (hw : Walking w f T fac index v)
    (hn : fac.observerList.getNext index = none) :
    ∀ o, T o → o ∈ fac.observerList.members →
      v.notified .produced f o = w.notified .produced f o + 1 := by
  intro o ho hm
  have hp := hw.given o ho hm
  rw [← fac.observerList.passed_append_remaining index, ObserverList.getNext_eq_none hn,
    List.append_nil] at hm
  rw [hp, if_pos hm]

/-- The loop has gone past one more observer. -/
theorem Walking.next {index next : Nat} {obs : Observer} (hw : Walking w f T fac index v)
    (hn : fac.observerList.getNext index = some (obs, next))
    (hcalled : ∀ o, v'.notified .produced f o = v.notified .produced f o + if o = obs then 1 else 0) :
    Walking w f T fac next v' where
  depth := hw.depth
  datum := hw.datum
  given o ho hm := by
    obtain ⟨hrem, hpassed⟩ := ObserverList.getNext_eq_some hn
    have hnd := fac.observerList.nodup_members
    rw [← fac.observerList.passed_append_remaining index, hrem] at hnd
    rw [hcalled, hpassed, hw.given o ho hm]
    obtain rfl | hne := eq_or_ne o obs
    · have hnot : o ∉ fac.observerList.passed index :=
        fun hp => (List.nodup_append.mp hnd).2.2 o hp o (List.mem_cons_self ..) rfl
      simp [hnot]
    · simp [hne]

theorem loop_end_proceeds (hs : Standing w f fac₀.observerList fac v) (hpc : v.pc = .idle) {index : Nat}
    (hfr : v.frames = [.notify .produced f index, .produced]) (hstart : fac₀.start = true)
    (hw : Walking w f T fac index v) (hn : fac.observerList.getNext index = none) :
    Proceeds c S w f fac₀ T v := by
  refine proceeds_of_move (current_isSome hs.current hs.factory)
    (fun _ _ => .notifyEnd hpc hfr hs.factory hn) (.of_quiet (by simp) (by simp [hpc]))
    (fun _ => ⟨hpc, .inl ⟨{ fac with observerList := fac.observerList.endNotify }, ?_,
      .produced hstart ?_ ?_⟩⟩) ?_
  · exact hs.kept rfl (Function.update_self ..) (by simp) (by simp [setObservers]) (by simp [setObservers])
      (List.append_nil _).symm (by simp) (by simp)
  · simp [hw.depth]
  · intro o ho hm
    exact hw.passed hn o ho (by simpa using hm)
  · rw [rank_produced rfl, rank_loop hfr]
    omega

theorem notified_called {k : Notice} {obs : Observer} {es : List Entry}
    (htrace : v'.trace = v.trace ++ .notified k f obs :: es) (hes : ∀ o, .notified k f o ∉ es) :
    ∀ o, v'.notified k f o = v.notified k f o + if o = obs then 1 else 0 := by
  intro o
  rw [World.notified, htrace, List.count_append, List.count_cons,
    List.count_eq_zero_of_not_mem (hes o), World.notified]
  obtain rfl | hne := eq_or_ne o obs
  · simp
  · simp [hne, hne.symm]

theorem loop_plain_proceeds (hS : ∀ cs, S cs → .create ∉ cs) (hs : Standing w f fac₀.observerList fac v)
    (hpc : v.pc = .idle) {index next : Nat} {p : PlainId}
    (hfr : v.frames = [.notify .produced f index, .produced]) (hstart : fac₀.start = true)
    (hw : Walking w f T fac index v) (hn : fac.observerList.getNext index = some (.plain p, next)) :
    Proceeds c S w f fac₀ T v := by
  intro e he
  obtain ⟨time, script, rfl, hp⟩ := he.1.run
  have hnext : v.nextObserver = some (.produced, f, .plain p) := by
    simp [World.nextObserver, World.list, hpc, hfr, hs.factory, hn]
  rw [hnext] at hp
  refine ⟨_, step_of_factoryMove (.notifyPlain hpc hfr hs.factory hn)
    (current_isSome hs.current hs.factory), .of_busy ⟨?_, ?_⟩ (by simp),
    .now ⟨⟨hpc, .inl ⟨fac, ?_, .calls (hS _ hp) hstart ?_⟩⟩, fun n hle => ?_⟩⟩
  · intro k f' o ht
    obtain ⟨rfl, rfl, rfl⟩ : .produced = k ∧ f = f' ∧ .plain p = o := by simpa using ht
    exact ⟨rfl, ⟨_, list_of_some hs.factory, ObserverList.mem_of_getNext hn⟩, by simp, fun _ => hs.untold _⟩
  · simp [hpc]
  · exact hs.kept rfl hs.factory (by simp) (by simp) (by simp) rfl (by simp) (by simp)
  · exact hw.next hn (notified_called rfl (by simp))
  · have hscript := hle script hp
    rw [rank_calls rfl, rank_loop hfr, ahead_of_some (by exact hs.factory), ahead_of_some hs.factory,
      (ObserverList.getNext_eq_some hn).1, List.length_cons]
    omega

theorem FactoryStub.onDataProduced_link (st : FactoryStub) (time : Nat) :
    (st.onDataProduced time).1.link = st.link := by
  cases st with
  | mk observer factory limiter => cases limiter <;> rfl

theorem loop_stub_proceeds (hs : Standing w f fac₀.observerList fac v) (hpc : v.pc = .idle)
    {index next : Nat} {s : StubId} (hfr : v.frames = [.notify .produced f index, .produced])
    (hstart : fac₀.start = true) (hw : Walking w f T fac index v)
    (hn : fac.observerList.getNext index = some (.stub s, next)) : Proceeds c S w f fac₀ T v := by
  obtain ⟨st, o, hst, hsf, ho, hos⟩ := hs.observed.stubs s (ObserverList.mem_of_getNext hn)
  have hrank : ∀ v' : World, v'.factory = v.factory → v'.frames = [.notify .produced f next, .produced] →
      v'.rank f < v.rank f := by
    intro v' hfac hfr'
    rw [rank_loop hfr', rank_loop hfr, ahead_of_some (hfac ▸ hs.factory), ahead_of_some hs.factory,
      (ObserverList.getNext_eq_some hn).1, List.length_cons]
    omega
  intro e he
  obtain ⟨time, script, rfl, -⟩ := he.1.run
  refine ⟨_, step_of_factoryMove (.notifyProduced hpc hfr hs.factory hn)
    (current_isSome hs.current hs.factory), .of_busy ⟨?_, ?_⟩ (by simp), .next fun e he => ?_⟩
  · intro k f' o ht
    obtain ⟨rfl, rfl, rfl⟩ : .produced = k ∧ f = f' ∧ .stub s = o := by simpa using ht
    refine ⟨rfl, ⟨_, list_of_some hs.factory, ObserverList.mem_of_getNext hn⟩, ?_, fun _ => hs.untold _⟩
    rintro x ⟨⟩
    simp [hst]
  · intro x data hx
    obtain ⟨-, rfl⟩ := Pc.stubData.inj hx
    exact hw.datum
  obtain ⟨time, script, rfl, -⟩ := he.1.run
  by_cases hf : (st.onDataProduced time).2 = true
  · refine ⟨_, step_of_hostMove (.forward rfl hst hf ho), .of_busy (.of_quiet (by simp) (by simp)) (by simp),
      .now ⟨⟨rfl, .inl ⟨fac, ?_, .loop hstart ?_⟩⟩, .of_lt (hrank _ rfl rfl)⟩⟩
    · exact hs.kept rfl hs.factory (by simp) (map_update hst (st.onDataProduced_link time))
        (map_update ho rfl) (List.append_assoc ..) (by simp) (by simp)
    · exact hw.next hn (notified_called (List.append_assoc ..) (by simp))
  · refine ⟨_, step_of_hostMove (.hold rfl hst (by simpa using hf)),
      .of_busy (.of_quiet (by simp) (by simp)) (by simp),
      .now ⟨⟨rfl, .inl ⟨fac, ?_, .loop hstart ?_⟩⟩, .of_lt (hrank _ rfl rfl)⟩⟩
    · exact hs.kept rfl hs.factory (by simp) (map_update hst (st.onDataProduced_link time)) (by simp)
        (List.append_assoc ..) (by simp) (by simp)
    · exact hw.next hn (notified_called (List.append_assoc ..) (by simp))

theorem calls_done_proceeds (hs : Standing w f fac₀.observerList fac v) (hpc : v.pc = .idle) {index : Nat}
    (hfr : v.frames = [.calls [], .notify .produced f index, .produced]) (hstart : fac₀.start = true)
    (hw : Walking w f T fac index v) : Proceeds c S w f fac₀ T v := by
  refine proceeds_of_move (current_isSome hs.current hs.factory) (fun _ _ => .callsDone hpc hfr)
    (.of_quiet (by simp) (by simp [hpc]))
    (fun _ => ⟨hpc, .inl ⟨fac, ?_, .loop hstart ⟨hw.depth, hw.datum, hw.given⟩⟩⟩) ?_
  · exact hs.kept rfl hs.factory (by simp) (by simp) (by simp) (List.append_nil _).symm (by simp) (by simp)
  · rw [rank_loop rfl, rank_calls hfr, ahead_of_some (by exact hs.factory), ahead_of_some hs.factory]
    omega

/-- A call that leaves the stubs alone. -/
theorem call_proceeds_of_move (hs : Standing w f fac₀.observerList fac v) (hpc : v.pc = .idle)
    {index : Nat} {k : Call} {ks : List Call}
    (hfr : v.frames = [.calls (k :: ks), .notify .produced f index, .produced]) (hks : .create ∉ ks)
    (hstart : fac₀.start = true)
    (hm : ∀ time script, FactoryMove v (.run time script) v') (hpc' : v'.pc = v.pc)
    (hfr' : v'.frames = [.calls ks, .notify .produced f index, .produced])
    (hg : v'.gFactory = v.gFactory) (hfac : v'.factory f = some fac')
    (hstub : v'.stub = v.stub) (hhost : v'.host = v.host) (htrace : v'.trace = v.trace)
    (hmem : ∀ s, .stub s ∈ fac'.observerList.members ↔ .stub s ∈ fac.observerList.members)
    (hw : (∀ o, T o → o ∈ fac.observerList.members) → Walking w f T fac' index v')
    (hlen : (fac'.observerList.remaining index).length ≤ (fac.observerList.remaining index).length + 1) :
    Proceeds c S w f fac₀ T v := by
  refine proceeds_of_move (current_isSome hs.current hs.factory) hm
    (.of_quiet (by simp [htrace]) (by simp [hpc', hpc])) (fun hT => ⟨hpc'.trans hpc, .inl ⟨fac', ?_, ?_⟩⟩) ?_
  · exact hs.kept hg hfac hmem (by simp [hstub]) (by simp [hhost]) (htrace.trans (List.append_nil _).symm)
      (by simp) (by simp)
  · rw [hfr']
    refine .calls hks hstart (hw fun o ho => ?_)
    obtain ⟨l, hl, hm⟩ := hT o ho
    obtain rfl := Option.some.inj ((list_of_some hs.factory).symm.trans hl)
    exact hm
  · rw [rank_calls hfr', rank_calls hfr, ahead_of_some hfac, ahead_of_some hs.factory, List.length_cons]
    omega

theorem call_proceeds (hs : Standing w f fac₀.observerList fac v) (hpc : v.pc = .idle) {index : Nat}
    {k : Call} {ks : List Call} (hfr : v.frames = [.calls (k :: ks), .notify .produced f index, .produced])
    (hcreate : .create ∉ k :: ks) (hstart : fac₀.start = true) (hw : Walking w f T fac index v) :
    Proceeds c S w f fac₀ T v := by
  have hks : .create ∉ ks := fun h => hcreate (List.mem_cons_of_mem _ h)
  have hskip : (k = .start ∧ fac.start = true) ∨ (k = .stop ∧ fac.start = false) →
      Proceeds c S w f fac₀ T v := by
    intro hk
    refine call_proceeds_of_move hs hpc hfr hks hstart (fun _ _ => .skip hpc hfr (by simp [hs.current]) ?_)
      rfl rfl rfl hs.factory rfl rfl rfl (by simp) (fun _ => ⟨hw.depth, hw.datum, hw.given⟩) (Nat.le_succ _)
    intro f' fac' hf' hfac'
    obtain rfl := Option.some.inj (hs.current.symm.trans hf')
    obtain rfl := Option.some.inj (hs.factory.symm.trans hfac')
    exact .inr hk
  cases k with
  | create => exact absurd (List.mem_cons_self ..) hcreate
  | start =>
    by_cases hst : fac.start = true
    · exact hskip (.inl ⟨rfl, hst⟩)
    · exact call_proceeds_of_move hs hpc hfr hks hstart
        (fun _ _ => .start hpc hfr hs.current hs.factory (by simpa using hst)) rfl rfl rfl
        (Function.update_self ..) rfl rfl rfl (by simp) (fun _ => ⟨hw.depth, hw.datum, hw.given⟩)
        (Nat.le_succ _)
  | stop =>
    by_cases hst : fac.start = true
    · exact call_proceeds_of_move hs hpc hfr hks hstart
        (fun _ _ => .stop hpc hfr hs.current hs.factory hst) rfl rfl rfl
        (Function.update_self ..) rfl rfl rfl (by simp) (fun _ => ⟨hw.depth, hw.datum, hw.given⟩)
        (Nat.le_succ _)
    · exact hskip (.inr ⟨rfl, by simpa using hst⟩)
  | addObserver p =>
    refine call_proceeds_of_move hs hpc hfr hks hstart
      (fun _ _ => .addObserver hpc hfr hs.current hs.factory) rfl rfl rfl (Function.update_self ..) rfl rfl
      rfl (by simp [ObserverList.mem_addObserver])
      (fun hT => ⟨by simpa using hw.depth, hw.datum, fun o ho _ => ?_⟩)
      (ObserverList.length_remaining_addObserver_le ..)
    -- whoever is watched was registered before, and stays on its side of the iterator
    rw [if_congr (ObserverList.mem_passed_addObserver (hT o ho)) rfl rfl]
    exact hw.given o ho (hT o ho)
  | removeObserver p =>
    have hd : fac.observerList.notifyDepth ≠ 0 := by simp [hw.depth]
    refine call_proceeds_of_move hs hpc hfr hks hstart
      (fun _ _ => .removeObserver hpc hfr hs.current hs.factory) rfl rfl rfl (Function.update_self ..) rfl rfl
      rfl (by simp [ObserverList.mem_removeObserver])
      (fun _ => ⟨by simpa using hw.depth, hw.datum, fun o ho hm => ?_⟩) ?_
    · obtain ⟨hne, hm⟩ := ObserverList.mem_removeObserver.mp hm
      rw [ObserverList.passed_removeObserver hd, if_congr (List.mem_erase_of_ne hne) rfl rfl]
      exact hw.given o ho hm
    · rw [ObserverList.remaining_removeObserver hd]
      exact (List.length_erase_le ..).trans (Nat.le_succ _)
  | destroy =>
    have hcalled := called_sweep (fun _ => []) fac.observerList
    have hrun : Advances (step c) (Watching S T f) (Careful f fac.observerList)
        (fun v' => Survives w f fac₀ T v' ∧ Closer S f v v') v := by
      refine destroy_run (fun _ _ he => he.1.behaves) hs.observed hpc hs.current hfr hs.factory
        fun v' hd => .now ⟨⟨hd.returned.1, .inr ⟨⟨hd.freed.2, by simp [hd.freed.1], fun s hm => ?_, ?_⟩, ?_⟩⟩,
          .of_lt ?_⟩
      · rw [(hd.toldOnce hcalled).notified, if_pos (hcalled.stubs s ((hs.stubs s).mpr hm)), hs.untold]
      · rw [hd.history, List.append_assoc, List.count_append, hs.intact, List.cons_append,
          List.count_cons_self, List.count_append,
          List.count_eq_zero_of_not_mem (destroyBegun_not_mem_turns v f f _)]
        rfl
      · rw [hd.returned.2]
        exact .calls hks
      · rw [rank_calls hd.returned.2, rank_calls hfr, ahead_of_none (by simp [hd.freed.1]), List.length_cons]
        omega
    exact hrun.mono (fun _ _ h => .of_busy h.heedful h.inside.1) (fun _ => id)

theorem Fallen.kept {l : ObserverList Observer} (hd : Fallen w f l v) (hg : v'.gFactory = v.gFactory)
    (hfac : v'.factory = v.factory) (htrace : v'.trace = v.trace) : Fallen w f l v' where
  current := hg.trans hd.current
  factory := by rw [hfac, hd.factory]
  told s hs := by rw [World.notified, htrace]; exact hd.told s hs
  destroyed := by rw [htrace, hd.destroyed]

/-- After a Destroy the loop ends, and calls find no Factory. -/
theorem fallen_proceeds (hd : Fallen w f fac₀.observerList v) (hpc : v.pc = .idle) {frames : List Frame}
    (hfr : v.frames = frames) (hr : Remnant f frames) (hne : frames ≠ []) : Proceeds c S w f fac₀ T v := by
  have hlive : ∀ f', v.gFactory = some f' → (v.factory f').isSome := by simp [hd.current]
  cases hr with
  | loop =>
    refine proceeds_of_move hlive (fun _ _ => .notifyDead hpc hfr hd.factory)
      (.of_quiet (by simp) (by simp [hpc])) (fun _ => ⟨hpc, .inr ⟨hd.kept rfl rfl rfl, .produced⟩⟩) ?_
    rw [rank_produced rfl, rank_loop hfr]
    omega
  | @calls cs index hcreate =>
    cases cs with
    | nil =>
      refine proceeds_of_move hlive (fun _ _ => .callsDone hpc hfr)
        (.of_quiet (by simp) (by simp [hpc])) (fun _ => ⟨hpc, .inr ⟨hd.kept rfl rfl rfl, .loop⟩⟩) ?_
      rw [rank_loop rfl, rank_calls hfr, ahead_of_none (by exact hd.factory), ahead_of_none hd.factory]
      omega
    | cons k ks =>
      obtain ⟨hk, hks⟩ := List.ne_and_not_mem_of_not_mem_cons hcreate
      refine proceeds_of_move hlive (fun _ _ => .skip hpc hfr (fun _ => hk.symm) (by simp [hd.current]))
        (.of_quiet (by simp) (by simp [hpc])) (fun _ => ⟨hpc, .inr ⟨hd.kept rfl rfl rfl, .calls hks⟩⟩) ?_
      rw [rank_calls rfl, rank_calls hfr, ahead_of_none (by exact hd.factory), ahead_of_none hd.factory,
        List.length_cons]
      omega
  | produced =>
    refine proceeds_of_move hlive (fun _ _ => .produced hpc hfr)
      (.of_quiet (by simp) (by simp [hpc])) (fun _ => ⟨hpc, .inr ⟨hd.kept rfl rfl rfl, .done⟩⟩) ?_
    rw [rank_done rfl, rank_produced hfr]
    omega
  | done => exact absurd rfl hne

theorem standing_proceeds (hS : ∀ cs, S cs → .create ∉ cs) (hs : Standing w f fac₀.observerList fac v)
    (hpc : v.pc = .idle) {frames : List Frame} (hfr : v.frames = frames)
    (hp : Position w f T fac₀.start fac v frames) (hne : frames ≠ []) : Proceeds c S w f fac₀ T v := by
  cases hp with
  | schedule hstart hd hid hn => exact schedule_proceeds hs hpc hfr hstart hd hid hn
  | produce hstart hd hid hn => exact produce_proceeds hs hpc hfr hstart hd hid hn
  | @loop index hstart hw =>
    cases hn : fac.observerList.getNext index with
    | none => exact loop_end_proceeds hs hpc hfr hstart hw hn
    | some p =>
      obtain ⟨obs, next⟩ := p
      cases obs with
      | plain p => exact loop_plain_proceeds hS hs hpc hfr hstart hw hn
      | stub s => exact loop_stub_proceeds hs hpc hfr hstart hw hn
  | @calls cs index hcreate hstart hw =>
    cases cs with
    | nil => exact calls_done_proceeds hs hpc hfr hstart hw
    | cons k ks => exact call_proceeds hs hpc hfr hcreate hstart hw
  | produced hstart hd hn => exact produced_proceeds hs hpc hfr hstart hd hn
  | done => exact absurd rfl hne

/-- From each place where the top frame goes on the task gets to the next one. -/
theorem Survives.proceeds (hS : ∀ cs, S cs → .create ∉ cs) (h : Survives w f fac₀ T v)
    (hne : v.frames ≠ []) : Proceeds c S w f fac₀ T v := by
  obtain ⟨hpc, ⟨fac, hs, hp⟩ | ⟨hd, hr⟩⟩ := h
  · exact standing_proceeds hS hs hpc rfl hp hne
  · exact fallen_proceeds hd hpc rfl hr hne

end Task

/-- A Schedule task of a deleted Factory runs no code. -/
theorem idle_of_deleted {c : Config} {u u' : World} {f : FactoryId} (hf : u.factory f = none) :
    (∀ ts, u.tasks = .schedule f :: ts → step c u .begin = some u' → u'.Idle) ∧
      ∀ i time, u.delayed[i]? = some (time, f) → step c u (.beginDelayed i) = some u' → u'.Idle := by
  constructor
  · intro ts hts he
    simp only [step, hts] at he
    split at he
    · rename_i hidle
      obtain rfl := Option.some.inj he
      exact ⟨hidle.1, by simp [beginTask, hf]⟩
    · cases he
  · intro i time hd he
    simp only [step, hd] at he
    split at he
    · rename_i hidle
      split at he
      · obtain rfl := Option.some.inj he
        exact ⟨hidle.1, by simp [beginTask, hf]⟩
      · cases he
    · cases he

section Run

variable {c : Config} {S : List Call → Prop} {w v : World} {f : FactoryId} {fac₀ : Factory}
  {T : Observer → Prop}

theorem survives_advances (hS : ∀ cs, S cs → .create ∉ cs) (h : Survives w f fac₀ T v) :
    Advances (step c) (Watching S T f) (Keeps w f fac₀ T) (Survives w f fac₀ T) v := by
  by_cases hne : v.frames = []
  · intro e he
    obtain ⟨time, script, rfl, -⟩ := he.1.run
    exact absurd ⟨h.1, hne⟩ he.1.1
  · exact (h.proceeds hS hne).mono (fun _ _ => id) (fun _ => And.left)

/-- Every reached state is on the way to the next place, and the task ends at one. -/
theorem survives_of_reaches (hS : ∀ cs, S cs → .create ∉ cs) (h : Survives w f fac₀ T w)
    (hr : Reaches (step c) (Watching S T f) w v) :
    Eventually (step c) (Watching S T f) (Keeps w f fac₀ T) (Survives w f fac₀ T) v ∧
      (v.Idle → Survives w f fac₀ T v) := by
  obtain ⟨hev, rfl | ⟨u, hk⟩⟩ := hr.eventually (.now h) fun _ => survives_advances hS
  · exact ⟨hev, fun _ => h⟩
  · exact ⟨hev, hk.2⟩

/-- When the observers make no more calls the task ends. -/
theorem Survives.ends (h : Survives w f fac₀ T v) :
    Eventually (step c) (Watching (· = []) T f) (Keeps w f fac₀ T) World.Idle v := by
  refine Eventually.of_variant (fun v => v.rank f) (fun u hu hbusy => ?_) h
  have hne : u.frames ≠ [] := fun hfr => hbusy ⟨hu.1, hfr⟩
  refine (hu.proceeds (S := (· = [])) (by simp) hne).mono (fun _ _ => id) fun u' hu' => ⟨hu'.1, ?_⟩
  exact hu'.2 0 (by simp)

end Run

/-- A Schedule task of Factory `f` is about to run. -/
structure AtSchedule (w : World) (f : FactoryId) (fac : Factory) : Prop where
  pc : w.pc = .idle
  frames : w.frames = [.schedule f]
  current : w.gFactory = some f
  factory : w.factory f = some fac
  settled : fac.observerList.notifyDepth = 0
  observed : Observed w f fac.observerList
  old : f < w.freshFactory

/-- So it is in every run when the factory thread has taken a Schedule task of a live Factory. -/
theorem atSchedule_of_reaches {c : Config} {w : World} {f : FactoryId} {fac : Factory}
    (hr : Reaches (step c) InitOnce .initial w) (hpc : w.pc = .idle) (hfr : w.frames = [.schedule f])
    (hfac : w.factory f = some fac) : AtSchedule w f fac where
  pc := hpc
  frames := hfr
  current := (listed_of_reaches hr).current f _ (list_of_some hfac)
  factory := hfac
  settled := by
    rw [(listed_of_reaches hr).depth f _ (list_of_some hfac), hfr]
    rfl
  observed := observed_of_reaches hr hfac
  old := (listed_of_reaches hr).listBound f _ (list_of_some hfac)

theorem AtSchedule.survives {w : World} {f : FactoryId} {fac : Factory} (h : AtSchedule w f fac)
    (T : Observer → Prop) : Survives w f fac T w := by
  refine ⟨h.pc, .inl ⟨fac, ⟨h.current, h.factory, h.observed, fun _ => .rfl, fun _ => rfl, rfl⟩, ?_⟩⟩
  rw [h.frames]
  exact .schedule rfl h.settled rfl fun _ => rfl

/-- Any calls but the creation of a Factory. -/
def NoCreate (cs : List Call) : Prop := .create ∉ cs

/-- What holds of a Schedule task that begins in `w`, whatever its observers call. -/
structure SurvivesReentry (c : Config) (w : World) (f : FactoryId) (fac : Factory) : Prop where
  /-- No step of the task touches a deleted Factory or stub. -/
  safe : ∀ v e, Reaches (step c) (Reenters NoCreate) w v → Reenters NoCreate v e →
    ∃ v', step c v e = some v' ∧ Heedful w f v v'
  /-- The task ends when the observers make no more calls. -/
  ends : ∀ v, Reaches (step c) (Reenters NoCreate) w v →
    Eventually (step c) (Reenters (· = [])) (Heedful w f) World.Idle v
  /-- Without a Destroy the list ends with no NULL slot. -/
  settled : ∀ v, Reaches (step c) (Reenters NoCreate) w v → v.Idle →
    v.trace.count (.destroyBegun f) = w.trace.count (.destroyBegun f) → ∃ fac', v.factory f = some fac' ∧
      fac'.observerList.notifyDepth = 0 ∧ none ∉ fac'.observerList.observers
  /-- Who is registered from the start to the end gets the datum once. -/
  once : ∀ o v, Reaches (step c) (Watching NoCreate (· = o) f) w v → v.Idle → v.Lists f o →
    v.notified .produced f o = w.notified .produced f o + if fac.start then 1 else 0
  /-- With a Destroy every stub gets OnFactoryDestroy once, and no Schedule runs any more. -/
  destroyed : ∀ v, Reaches (step c) (Reenters NoCreate) w v → v.Idle →
    v.trace.count (.destroyBegun f) ≠ w.trace.count (.destroyBegun f) →
    (∀ s, .stub s ∈ fac.observerList.members →
      v.notified .destroyed f (.stub s) = w.notified .destroyed f (.stub s) + 1) ∧
    ∀ P u, Reaches (step c) P v u →
      (∀ ts u', u.tasks = .schedule f :: ts → step c u .begin = some u' → u'.Idle) ∧
      ∀ i time u', u.delayed[i]? = some (time, f) → step c u (.beginDelayed i) = some u' → u'.Idle

theorem survivesReentry_of_atSchedule (c : Config) {w : World} {f : FactoryId} {fac : Factory}
    (h : AtSchedule w f fac) : SurvivesReentry c w f fac := by
  have hS : ∀ cs, NoCreate cs → .create ∉ cs := fun _ => id
  have hfree : ∀ {S v}, Reaches (step c) (Reenters S) w v →
      Reaches (step c) (Watching S (fun _ => False) f) w v :=
    fun hr => hr.mono fun _ _ he => ⟨he, fun _ => False.elim⟩
  have hreach : ∀ v, Reaches (step c) (Reenters NoCreate) w v → v.Idle →
      Survives w f fac (fun _ => False) v :=
    fun v hr hidle => (survives_of_reaches hS (h.survives _) (hfree hr)).2 hidle
  constructor
  case safe =>
    intro v e hr he
    have hev := (survives_of_reaches hS (h.survives fun _ => False) (hfree hr)).1
    obtain ⟨v', hv', hk, -⟩ := hev.advances (fun _ => survives_advances hS) e ⟨he, fun _ => False.elim⟩
    exact ⟨v', hv', hk.1⟩
  case ends =>
    intro v hr
    have hev := (survives_of_reaches hS (h.survives fun _ => False) (hfree hr)).1
    have hnil : ∀ cs : List Call, cs = [] → NoCreate cs := fun cs hcs => by simp [hcs, NoCreate]
    have hrun := (hev.restrict fun _ _ he => ⟨he.1.mono hnil, he.2⟩).trans fun u hu => hu.ends
    exact (hrun.mono (fun _ _ => And.left) (fun _ => id)).restrict fun _ _ he => ⟨he, fun _ => False.elim⟩
  case settled =>
    intro v hr hidle hcount
    obtain ⟨-, ⟨fac', hs, hp⟩ | ⟨hd, -⟩⟩ := hreach v hr hidle
    · rw [hidle.2] at hp
      cases hp with
      | done hd _ => exact ⟨fac', hs.factory, hd, fac'.observerList.settled hd⟩
    · have := hd.destroyed
      omega
  case once =>
    intro o v hr hidle ho
    obtain ⟨l, hl, hm⟩ := ho
    obtain ⟨-, ⟨fac', hs, hp⟩ | ⟨hd, -⟩⟩ := (survives_of_reaches hS (h.survives _) hr).2 hidle
    · rw [hidle.2] at hp
      obtain rfl := Option.some.inj ((list_of_some hs.factory).symm.trans hl)
      cases hp with
      | done _ hn => exact hn o rfl hm
    · simp [World.list, hd.factory] at hl
  case destroyed =>
    intro v hr hidle hcount
    obtain ⟨-, ⟨fac', hs, -⟩ | ⟨hd, -⟩⟩ := hreach v hr hidle
    · exact absurd hs.intact hcount
    refine ⟨hd.told, fun P u hu => ?_⟩
    have hgone : u.factory f = none :=
      (Onward.of_reaches hu).gone f (h.old.trans_le (Onward.of_reaches hr).fresh) hd.factory
    exact ⟨fun ts u' => (idle_of_deleted hgone).1 ts, fun i time u' => (idle_of_deleted hgone).2 i time⟩

instance (n : Option (Notice × FactoryId × Observer)) (script : List Call) :
    Decidable (Permits NoCreate n script) :=
  match n with
  | some (.produced, _, .plain _) => inferInstanceAs (Decidable (.create ∉ script))
  | some (.destroyed, _, .plain _) => inferInstanceAs (Decidable (script = []))
  | some (.produced, _, .stub _) | some (.destroyed, _, .stub _) | none => .isTrue trivial

instance (w : World) (e : Event) : Decidable (Reenters NoCreate w e) :=
  match e with
  | .run _ script => inferInstanceAs (Decidable (¬ w.Idle ∧ Permits NoCreate w.nextObserver script))
  | .post _ | .begin | .beginDelayed _ | .beginHost _ | .runHost _ | .init _ | .destroy _ | .addRef _
  | .dropRef _ | .tick _ => .isFalse id

/-- A stub between two plain observers is about to get its first datum. -/
theorem survivesReentry_of_atSchedule_first_datum : ∃ w fac, w.frames = [.schedule 0] ∧
    w.factory 0 = some fac ∧ fac.observerList.members = [.plain 7, .stub 0, .plain 8] ∧
    SurvivesReentry .plain w 0 fac := by
  obtain ⟨w, hr, hw⟩ := GuardedRun.exists_of_execute (step .plain) InitOnce .initial
    [.post [.create, .addObserver 7], .begin, .run 0 [], .run 0 [], .run 0 [], .init 0, .begin, .run 0 [],
      .run 0 [], .post [.addObserver 8, .start], .begin, .run 0 [], .run 0 [], .run 0 [], .begin]
    (fun w => decide (w.pc = .idle ∧ w.frames = [.schedule 0] ∧
      (w.factory 0).map (fun fac => fac.observerList.members) =
        some [Observer.plain 7, .stub 0, .plain 8])) (by decide)
  obtain ⟨hpc, hfr, hw⟩ := of_decide_eq_true hw
  obtain ⟨fac, hfac, hm⟩ := Option.map_eq_some_iff.mp hw
  exact ⟨w, fac, hfr, hfac, hm,
    survivesReentry_of_atSchedule .plain (atSchedule_of_reaches hr hpc hfr hfac)⟩

/-- Who has been removed during the task gets no datum in it any more. -/
def RemovedForGood (c : Config) (w : World) (f : FactoryId) : Prop :=
  ∀ o u v v' e, w.Lists f o → Reaches (step c) (Reenters NoCreate) w u → ¬ u.Lists f o →
    Reaches (step c) (Reenters NoCreate) u v → Reenters NoCreate v e → step c v e = some v' →
    v'.trace ≠ v.trace ++ [.notified .produced f o]

/-- An observer that removes and adds itself again is called again. -/
theorem not_removedForGood_added_again : ∃ w fac, Reaches (step .plain) InitOnce .initial w ∧
    AtSchedule w 0 fac ∧ ¬ RemovedForGood .plain w 0 := by
  obtain ⟨w, hr, hw⟩ := GuardedRun.exists_of_execute (step .plain) InitOnce .initial
    [.post [.create, .addObserver 7, .start], .begin, .run 0 [], .run 0 [], .run 0 [], .run 0 [], .begin]
    (fun w : World => decide (w.pc = .idle ∧ w.frames = [.schedule 0] ∧
      (w.factory 0).map (fun fac => fac.observerList.members) = some [Observer.plain 7]) &&
      (GuardedRun.execute (step .plain) (Reenters NoCreate) w
        [.run 0 [], .run 0 [], .run 0 [.removeObserver 7, .addObserver 7], .run 0 []]).any fun u : World =>
      decide ((u.factory 0).map (fun fac => fac.observerList.members) = some ([] : List Observer)) &&
      (GuardedRun.execute (step .plain) (Reenters NoCreate) u [.run 0 [], .run 0 []]).any fun v : World =>
      decide (Reenters NoCreate v (.run 0 [])) && (step .plain v (.run 0 [])).any fun v' : World =>
      decide (v'.trace = v.trace ++ [Entry.notified .produced 0 (.plain 7)])) (by decide)
  simp only [Bool.and_eq_true, decide_eq_true_eq, Option.any_eq_true] at hw
  obtain ⟨⟨hpc, hfr, hm⟩, u, hu, hmu, v, hv, he, v', hv', htrace⟩ := hw
  obtain ⟨fac, hfac, hm⟩ := Option.map_eq_some_iff.mp hm
  obtain ⟨facu, hfacu, hmu⟩ := Option.map_eq_some_iff.mp hmu
  refine ⟨w, fac, hr, atSchedule_of_reaches hr hpc hfr hfac, fun hgood => ?_⟩
  refine hgood (.plain 7) u v v' (.run 0 []) ⟨_, list_of_some hfac, by simp [hm]⟩
    (GuardedRun.reaches_of_execute hu) ?_ (GuardedRun.reaches_of_execute hv) he hv' htrace
  rintro ⟨l, hl, hmem⟩
  obtain rfl := Option.some.inj ((list_of_some hfacu).symm.trans hl)
  simp [hmu] at hmem

end OscDataProcess
