import OscDataProcess.Attachment
import OscDataProcess.TotalRun

/-!
# Factory::Destroy reaches everyone once

The NotifyDestroy loop walks a list whose slots are nulled under it: a stub leaves the
list and deletes itself in its own turn, a plain observer may take plain observers off.
Who is called is the abstract `sweep`; one turn of the loop is one block of steps.
-/
namespace OscDataProcess

open Function (update)
open GuardedRun (Advances Eventually Reaches)
open World

section Sweep

variable {α : Type} [DecidableEq α]

/-- The elements a walk over `todo` calls, when each called `o` takes `removed o` off the list
and `gone` has been taken off before. -/
def sweep (removed : α → List α) : List α → List α → List α
  | _, [] => []
  | gone, o :: todo =>
    if o ∈ gone then sweep removed gone todo else o :: sweep removed (removed o ++ gone) todo

variable {removed : α → List α}

theorem sweep_sublist (gone todo : List α) : (sweep removed gone todo).Sublist todo := by
  induction todo generalizing gone with
  | nil => exact List.Sublist.slnil
  | cons o todo ih =>
    rw [sweep]
    split
    · exact (ih gone).cons o
    · exact (ih _).cons_cons o

/-- An element is called unless it was gone at the start or a called one before it took it off. -/
theorem mem_sweep {gone as bs : List α} {o : α} (hnd : (as ++ o :: bs).Nodup) :
    o ∈ sweep removed gone (as ++ o :: bs) ↔
      o ∉ gone ∧ ∀ a ∈ as, a ∈ sweep removed gone (as ++ o :: bs) → o ∉ removed a := by
  induction as generalizing gone with
  | nil =>
    have ho : o ∉ bs := (List.nodup_cons.mp hnd).1
    simp only [List.nil_append, sweep]
    split
    · rename_i hg
      simpa [hg] using fun hm => ho ((sweep_sublist gone bs).subset hm)
    · rename_i hg
      simp [hg]
  | cons a as ih =>
    obtain ⟨ha, hnd⟩ := List.nodup_cons.mp hnd
    have hoa : o ≠ a := fun h => ha (by simp [h])
    have hsub : ∀ gone, a ∉ sweep removed gone (as ++ o :: bs) :=
      fun gone hm => ha ((sweep_sublist gone _).subset hm)
    simp only [List.cons_append, sweep]
    split
    · rw [ih hnd]
      simp [hsub]
    · rw [List.mem_cons, or_iff_right hoa, ih hnd]
      have hmem : ∀ b ∈ as, b ≠ a := fun b hb h => ha (by simp [← h, hb])
      constructor
      · rintro ⟨hg, hb⟩
        rw [List.mem_append, not_or] at hg
        refine ⟨hg.2, fun b hb' hbs => ?_⟩
        obtain rfl | hb' := List.mem_cons.mp hb'
        · exact hg.1
        · exact hb b hb' ((List.mem_cons.mp hbs).resolve_left (hmem b hb'))
      · rintro ⟨hg, hb⟩
        have hra := hb a (List.mem_cons_self ..) (List.mem_cons_self ..)
        refine ⟨by simp [hra, hg], fun b hb' hbs => ?_⟩
        exact hb b (List.mem_cons_of_mem _ hb') (List.mem_cons_of_mem _ hbs)

theorem filter_gone (off gone todo : List α) :
    (todo.filter (· ∉ gone)).filter (· ∉ off) = todo.filter (· ∉ off ++ gone) := by
  rw [List.filter_filter]
  refine List.filter_congr fun x _ => ?_
  simp [not_or]

end Sweep

/-- The observer that the factory thread is about to call. -/
def World.nextObserver (w : World) : Option (Notice × FactoryId × Observer) :=
  match w.pc, w.frames with
  | .idle, .notify k f index :: _ =>
    (w.list f).bind fun l => (l.getNext index).map fun next => (k, f, next.1)
  | _, _ => none

/-- Only the factory thread moves, and a plain observer `p` that learns of the destruction takes
the plain observers `removes p` off the list. -/
def Behaves (removes : PlainId → List PlainId) (w : World) (e : Event) : Prop :=
  ∃ time script, e = .run time script ∧ ∀ f p, w.nextObserver = some (.destroyed, f, .plain p) →
    script = (removes p).map .removeObserver

theorem exists_behaves (removes : PlainId → List PlainId) (w : World) : ∃ e, Behaves removes w e := by
  by_cases hn : ∃ f p, w.nextObserver = some (.destroyed, f, .plain p)
  · obtain ⟨f, p, hn⟩ := hn
    refine ⟨.run 0 ((removes p).map .removeObserver), 0, _, rfl, fun f' p' hn' => ?_⟩
    obtain ⟨-, -, rfl⟩ : Notice.destroyed = .destroyed ∧ f = f' ∧ p = p' := by simpa [hn] using hn'
    rfl
  · exact ⟨.run 0 [], 0, [], rfl, fun f p hn' => absurd ⟨f, p, hn'⟩ hn⟩

/-- What no step of a Destroy of Factory `f` with the observers `l` gets wrong. -/
structure Careful (f : FactoryId) (l : ObserverList Observer) (w w' : World) : Prop where
  /-- Only OnFactoryDestroy is called, and who is called is registered and not deleted. -/
  called : ∀ k f' o, w'.trace = w.trace ++ [.notified k f' o] → k = .destroyed ∧ f' = f ∧
    (∃ l', w.list f = some l' ∧ o ∈ l'.members) ∧ ∀ s, o = .stub s → (w.stub s).isSome
  /-- The thread does not leave the Destroy, and no stub is handed a datum. -/
  inside : w'.frames ≠ [] ∧ ∀ s data, w'.pc ≠ .stubData s data
  /-- A stub is deleted with `factory_` NULL, and when it is off the list. -/
  deleted : ∀ s st, w.stub s = some st → w'.stub s = none →
    st.factory = none ∧ ∀ l', w.list f = some l' → .stub s ∉ l'.members
  /-- The Factory is freed when none of its stubs lives. -/
  freed : (w.factory f).isSome → w'.factory f = none →
    (∀ s, .stub s ∈ l.members → w.stub s = none) ∧ ∀ s st, w.stub s = some st → st.factory ≠ some f

theorem Careful.of_kept {f : FactoryId} {l : ObserverList Observer} {w w' : World}
    (htrace : ∀ k f' o, w'.trace ≠ w.trace ++ [.notified k f' o])
    (hin : w'.frames ≠ [] ∧ ∀ s data, w'.pc ≠ .stubData s data)
    (hstub : ∀ s, w'.stub s = none → w.stub s = none)
    (hfactory : w'.factory f = none → w.factory f = none) : Careful f l w w' where
  called k f' o h := absurd h (htrace k f' o)
  inside := hin
  deleted s st hst h := by rw [hstub s h] at hst; cases hst
  freed hf h := by rw [hfactory h] at hf; cases hf

/-- A step that only calls a registered observer. -/
theorem Careful.of_call {f : FactoryId} {l : ObserverList Observer} {w w' : World} {fac : Factory}
    {o : Observer} (hfac : w.factory f = some fac) (ho : o ∈ fac.observerList.members)
    (hlive : ∀ s, o = .stub s → (w.stub s).isSome)
    (htrace : w'.trace = w.trace ++ [.notified .destroyed f o])
    (hin : w'.frames ≠ [] ∧ ∀ s data, w'.pc ≠ .stubData s data)
    (hstub : w'.stub = w.stub) (hfactory : w'.factory = w.factory) : Careful f l w w' where
  called k₁ f₁ o₁ h := by
    obtain ⟨rfl, rfl, rfl⟩ : .destroyed = k₁ ∧ f = f₁ ∧ o = o₁ := by simpa [htrace] using h
    exact ⟨rfl, rfl, ⟨_, list_of_some hfac, ho⟩, hlive⟩
  inside := hin
  deleted s st hst h := by rw [hstub, hst] at h; cases h
  freed hf h := by rw [← hfactory, h] at hf; cases hf

/-- A step that only deletes a stub which has left. -/
theorem Careful.of_delete {f : FactoryId} {l : ObserverList Observer} {w w' : World} {s : StubId}
    {st : FactoryStub} (hst : w.stub s = some st) (hf : st.factory = none)
    (hoff : ∀ l', w.list f = some l' → .stub s ∉ l'.members)
    (htrace : w'.trace = w.trace ++ [.detached st.observer s])
    (hin : w'.frames ≠ [] ∧ ∀ s data, w'.pc ≠ .stubData s data)
    (hstub : w'.stub = update w.stub s none) (hfactory : w'.factory = w.factory) : Careful f l w w' where
  called k f' o h := by simp [htrace] at h
  inside := hin
  deleted x sx hx h := by
    rw [hstub] at h
    obtain rfl | hne := eq_or_ne x s
    · obtain rfl := Option.some.inj (hst.symm.trans hx)
      exact ⟨hf, hoff⟩
    · rw [Function.update_of_ne hne, hx] at h
      cases h
  freed hf h := by rw [← hfactory, h] at hf; cases hf

theorem of_update_eq_none {α β : Type} [DecidableEq α] {m : α → Option β} {a b : α} {x : β}
    (h : update m a (some x) b = none) : m b = none := by
  obtain rfl | hne := eq_or_ne b a
  · simp at h
  · rwa [Function.update_of_ne hne] at h

theorem current_isSome {w : World} {f : FactoryId} {fac : Factory} (hg : w.gFactory = some f)
    (hfac : w.factory f = some fac) : ∀ f', w.gFactory = some f' → (w.factory f').isSome := by
  intro f' hf'
  obtain rfl := Option.some.inj (hg.symm.trans hf')
  simp [hfac]

section Turns

variable {c : Config} {P : World → Event → Prop} {R : World → World → Prop} {Q : World → Prop}
  {removes : PlainId → List PlainId}

theorem eventually_of_hostMove {w w' : World} (hP : ∀ w e, P w e → Behaves removes w e)
    (hm : ∀ time script, HostMove c w (.run time script) w') (hR : R w w')
    (h : Eventually (step c) P R Q w') : Eventually (step c) P R Q w := by
  refine .next fun e he => ?_
  obtain ⟨time, script, rfl, -⟩ := hP w e he
  exact ⟨w', step_of_hostMove (hm time script), hR, h⟩

theorem advances_of_factoryMove {w w' : World} (hP : ∀ w e, P w e → Behaves removes w e)
    (hlive : ∀ f, w.gFactory = some f → (w.factory f).isSome)
    (hm : ∀ time script, FactoryMove w (.run time script) w') (hR : R w w')
    (h : Eventually (step c) P R Q w') : Advances (step c) P R Q w := by
  intro e he
  obtain ⟨time, script, rfl, -⟩ := hP w e he
  exact ⟨w', step_of_factoryMove (hm time script) hlive, hR, h⟩

theorem eventually_of_factoryMove {w w' : World} (hP : ∀ w e, P w e → Behaves removes w e)
    (hlive : ∀ f, w.gFactory = some f → (w.factory f).isSome)
    (hm : ∀ time script, FactoryMove w (.run time script) w') (hR : R w w')
    (h : Eventually (step c) P R Q w') : Eventually (step c) P R Q w :=
  .next (advances_of_factoryMove hP hlive hm hR h)

end Turns

/-- A host whose stub has deleted itself: the two posted tasks hold references, the stub no more. -/
def FactoryHost.abandoned (o : FactoryHost) : FactoryHost :=
  { o with stub := none, refs := o.refs + 1 }

/-- What the stub of host `h` leaves on the host thread. -/
def farewell (h : HostId) : List HostTask := [.call h .onFactoryDestory, .call h .replyDestroy]

def Observer.stub? : Observer → Option StubId
  | .stub s => some s
  | .plain _ => none

def stubsIn (obs : List Observer) : List StubId := obs.filterMap Observer.stub?

/-- The hosts of the stubs among `obs`. -/
def World.hostsOf (w : World) (obs : List Observer) : List HostId :=
  (stubsIn obs).filterMap fun s => (w.stub s).map FactoryStub.observer

/-- The history of one turn. -/
def World.turn (w : World) (f : FactoryId) : Observer → List Entry
  | .plain p => [.notified .destroyed f (.plain p)]
  | .stub s => .notified .destroyed f (.stub s) :: match w.stub s with
    | none => []
    | some st => [.posted st.observer .onFactoryDestory, .detached st.observer s,
        .posted st.observer .replyDestroy]

/-- What the turn of an observer takes off the list. -/
def Observer.takesOff (removes : PlainId → List PlainId) : Observer → List Observer
  | .stub s => [.stub s]
  | .plain p => (removes p).map .plain

/-- The registered stubs of Factory `f`: each is the `stub_` of its host. -/
structure Observed (w : World) (f : FactoryId) (l : ObserverList Observer) : Prop where
  stubs : ∀ s, .stub s ∈ l.members → ∃ st o, w.stub s = some st ∧ st.factory = some f ∧
    w.host st.observer = some o ∧ o.stub = some s
  listed : ∀ s st, w.stub s = some st → st.factory = some f → .stub s ∈ l.members

/-- `v` is `w` after a Destroy of Factory `f` has called the observers `called`. -/
structure Visited (c : Config) (w : World) (f : FactoryId) (called : List Observer) (v : World) : Prop where
  stub : ∀ s, v.stub s = if .stub s ∈ called then none else w.stub s
  host : ∀ h, v.host h =
    if h ∈ w.hostsOf called then (w.host h).map FactoryHost.abandoned else w.host h
  loop : ∀ t, v.loop t = { w.loop t with queue := (w.loop t).queue ++
    ((w.hostsOf called).filter (c.hostThread · = t)).flatMap farewell }
  trace : v.trace = w.trace ++ .destroyBegun f :: called.flatMap (w.turn f)
  tasks : v.tasks = w.tasks
  delayed : v.delayed = w.delayed
  external : v.external = w.external

/-- `v` is what a Destroy of Factory `f` with the observers `l` makes of `w`: it has called
the observers `called`, in this order, and returned to `frames`. -/
structure Destroyed (c : Config) (w : World) (f : FactoryId) (l : ObserverList Observer)
    (called : List Observer) (frames : List Frame) (v : World) : Prop where
  returned : v.pc = .idle ∧ v.frames = frames
  freed : v.factory = update w.factory f none ∧ v.gFactory = none
  history : v.trace = w.trace ++ .destroyBegun f :: called.flatMap (w.turn f) ++ [.deleted f]
  stubs : ∀ s, v.stub s = if .stub s ∈ l.members then none else w.stub s
  hosts : ∀ h, v.host h =
    if h ∈ w.hostsOf l.members then (w.host h).map FactoryHost.abandoned else w.host h
  queues : ∀ t, v.loop t = { w.loop t with queue := (w.loop t).queue ++
    ((w.hostsOf l.members).filter (c.hostThread · = t)).flatMap farewell }
  rest : v.tasks = w.tasks ∧ v.delayed = w.delayed ∧ v.external = w.external

@[simp] theorem stubsIn_append (as bs : List Observer) : stubsIn (as ++ bs) = stubsIn as ++ stubsIn bs :=
  List.filterMap_append

@[simp] theorem stubsIn_stub (s : StubId) (obs : List Observer) :
    stubsIn (.stub s :: obs) = s :: stubsIn obs := rfl

@[simp] theorem stubsIn_plain (p : PlainId) (obs : List Observer) :
    stubsIn (.plain p :: obs) = stubsIn obs := rfl

@[simp] theorem mem_stubsIn {obs : List Observer} {s : StubId} : s ∈ stubsIn obs ↔ .stub s ∈ obs := by
  simp only [stubsIn, List.mem_filterMap]
  constructor
  · rintro ⟨o, ho, hs⟩
    cases o with
    | plain p => cases hs
    | stub x =>
      obtain rfl := Option.some.inj hs
      exact ho
  · exact fun h => ⟨.stub s, h, rfl⟩

@[simp] theorem hostsOf_append (w : World) (as bs : List Observer) :
    w.hostsOf (as ++ bs) = w.hostsOf as ++ w.hostsOf bs := by
  simp [World.hostsOf]

theorem hostsOf_plain (w : World) (p : PlainId) : w.hostsOf [.plain p] = [] := rfl

theorem hostsOf_stub {w : World} {s : StubId} {st : FactoryStub} (hst : w.stub s = some st) :
    w.hostsOf [.stub s] = [st.observer] := by
  simp [World.hostsOf, stubsIn, Observer.stub?, hst]

theorem mem_hostsOf {w : World} {obs : List Observer} {h : HostId} :
    h ∈ w.hostsOf obs ↔ ∃ s st, .stub s ∈ obs ∧ w.stub s = some st ∧ st.observer = h := by
  simp [World.hostsOf, List.mem_filterMap, Option.map_eq_some_iff]

/-- No turn takes another one's stub off, so that the sweep has all the stubs. -/
theorem stubsIn_sweep {removes : PlainId → List PlainId} {gone todo : List Observer} (hnd : todo.Nodup)
    (hgone : ∀ s, .stub s ∈ todo → .stub s ∉ gone) :
    stubsIn (sweep (Observer.takesOff removes) gone todo) = stubsIn todo := by
  induction todo generalizing gone with
  | nil => rfl
  | cons o todo ih =>
    obtain ⟨ho, hnd'⟩ := List.nodup_cons.mp hnd
    have htodo : ∀ s, .stub s ∈ todo → .stub s ∉ gone := fun s hs => hgone s (List.mem_cons_of_mem _ hs)
    cases o with
    | stub x =>
      have hx : .stub x ∉ gone := hgone x (List.mem_cons_self ..)
      rw [sweep, if_neg hx, stubsIn_stub, stubsIn_stub, ih hnd']
      intro s hs hm
      obtain he | hm := List.mem_cons.mp (show Observer.stub s ∈ .stub x :: gone from hm)
      · obtain rfl := Observer.stub.inj he
        exact ho hs
      · exact htodo s hs hm
    | plain p =>
      rw [sweep]
      split
      · exact ih hnd' htodo
      · rw [stubsIn_plain, stubsIn_plain, ih hnd']
        intro s hs hm
        exact htodo s hs (by simpa [Observer.takesOff] using hm)

/-- Different stubs have different hosts. -/
theorem Observed.not_mem_hostsOf {w : World} {f : FactoryId} {l : ObserverList Observer}
    (hw : Observed w f l) {called : List Observer} (hsub : ∀ o ∈ called, o ∈ l.members) {s : StubId}
    {st : FactoryStub} {o : FactoryHost} (ho : w.host st.observer = some o) (hs : o.stub = some s)
    (hn : .stub s ∉ called) : st.observer ∉ w.hostsOf called := by
  intro hm
  obtain ⟨s', st', hs', hst', hobs⟩ := mem_hostsOf.mp hm
  obtain ⟨st₁, o₁, hst₁, -, ho₁, hstub₁⟩ := hw.stubs s' (hsub _ hs')
  obtain rfl := Option.some.inj (hst'.symm.trans hst₁)
  rw [hobs] at ho₁
  obtain rfl := Option.some.inj (ho.symm.trans ho₁)
  obtain rfl := Option.some.inj (hs.symm.trans hstub₁)
  exact hn hs'

namespace Visited

variable {c : Config} {w v v' : World} {f : FactoryId} {called : List Observer}

theorem stubTurn (ht : Visited c w f called v) {s : StubId} {st : FactoryStub} {o : FactoryHost}
    (hst : w.stub s = some st) (ho : w.host st.observer = some o)
    (hstub : v'.stub = update v.stub s none)
    (hhost : v'.host = update v.host st.observer (some o.abandoned))
    (hloop : v'.loop = update v.loop (c.hostThread st.observer) { v.loop (c.hostThread st.observer) with
      queue := (v.loop (c.hostThread st.observer)).queue ++ farewell st.observer })
    (htrace : v'.trace = v.trace ++ [.notified .destroyed f (.stub s), .posted st.observer .onFactoryDestory,
      .detached st.observer s, .posted st.observer .replyDestroy])
    (htasks : v'.tasks = v.tasks) (hdelayed : v'.delayed = v.delayed)
    (hexternal : v'.external = v.external) : Visited c w f (called ++ [.stub s]) v' where
  stub x := by
    rw [hstub]
    obtain rfl | hne := eq_or_ne x s
    · simp
    · rw [Function.update_of_ne hne, ht.stub x]
      simp [hne]
  host h := by
    rw [hhost, hostsOf_append, hostsOf_stub hst]
    obtain rfl | hne := eq_or_ne h st.observer
    · simp [ho]
    · rw [Function.update_of_ne hne, ht.host h]
      simp [hne]
  loop t := by
    rw [hloop, hostsOf_append, hostsOf_stub hst, List.filter_append, List.flatMap_append]
    obtain rfl | hne := eq_or_ne t (c.hostThread st.observer)
    · simp [ht.loop]
    · rw [Function.update_of_ne hne, ht.loop t]
      simp [hne.symm]
  trace := by simp [htrace, ht.trace, World.turn, hst]
  tasks := htasks.trans ht.tasks
  delayed := hdelayed.trans ht.delayed
  external := hexternal.trans ht.external

theorem plainTurn (ht : Visited c w f called v) {p : PlainId} (hstub : v'.stub = v.stub)
    (hhost : v'.host = v.host) (hloop : v'.loop = v.loop)
    (htrace : v'.trace = v.trace ++ [.notified .destroyed f (.plain p)])
    (htasks : v'.tasks = v.tasks) (hdelayed : v'.delayed = v.delayed)
    (hexternal : v'.external = v.external) : Visited c w f (called ++ [.plain p]) v' where
  stub x := by simpa [hstub] using ht.stub x
  host h := by simpa [hhost, hostsOf_plain] using ht.host h
  loop t := by simpa [hloop, hostsOf_plain] using ht.loop t
  trace := by simp [htrace, ht.trace, World.turn]
  tasks := htasks.trans ht.tasks
  delayed := hdelayed.trans ht.delayed
  external := hexternal.trans ht.external

end Visited

section Blocks

variable {c : Config} {P : World → Event → Prop} {Q : World → Prop} {removes : PlainId → List PlainId}
  {f : FactoryId} {l : ObserverList Observer}

/-- The turn of a stub: OnFactoryDestroy, Stub::Destroy and the destructor. -/
theorem stub_turn (hP : ∀ w e, P w e → Behaves removes w e) {w : World} {s : StubId} {st : FactoryStub}
    {fac : Factory} {o : FactoryHost} {index next : Nat} {rest : List Frame} (hpc : w.pc = .idle)
    (hg : w.gFactory = some f) (hfr : w.frames = .notify .destroyed f index :: rest)
    (hfac : w.factory f = some fac)
    (hn : fac.observerList.getNext index = some (.stub s, next)) (hst : w.stub s = some st)
    (hf : st.factory = some f) (ho : w.host st.observer = some o) (hs : o.stub = some s)
    (h : Eventually (step c) P (Careful f l) Q { w with
      factory := update w.factory f
        (some { fac with observerList := fac.observerList.removeObserver (.stub s) })
      stub := update w.stub s none
      host := update w.host st.observer (some o.abandoned)
      loop := update w.loop (c.hostThread st.observer) { w.loop (c.hostThread st.observer) with
        queue := (w.loop (c.hostThread st.observer)).queue ++ farewell st.observer }
      frames := .notify .destroyed f next :: rest
      trace := w.trace ++ [.notified .destroyed f (.stub s), .posted st.observer .onFactoryDestory,
        .detached st.observer s, .posted st.observer .replyDestroy] }) :
    Eventually (step c) P (Careful f l) Q w := by
  refine eventually_of_factoryMove hP (current_isSome hg hfac) (fun _ _ => .notifyDestroyed hpc hfr hfac hn) ?_ ?_
  · refine .of_call hfac (ObserverList.mem_of_getNext hn) ?_ rfl (by simp) rfl rfl
    rintro x ⟨⟩
    simp [hst]
  refine eventually_of_hostMove hP (fun _ _ => .leave rfl hst hf hfac) ?_ ?_
  · exact .of_kept (by simp) (by simp) (fun _ => of_update_eq_none) of_update_eq_none
  refine eventually_of_hostMove hP (fun _ _ => .leavePost rfl (Function.update_self ..) ho) ?_ ?_
  · exact .of_kept (by simp) (by simp) (fun _ => id) id
  refine eventually_of_hostMove hP (fun _ _ => .leaveDestroy rfl (Function.update_self ..)
    (Function.update_self ..)) ?_ ?_
  · exact .of_kept (by simp) (by simp) (fun _ => id) id
  refine eventually_of_hostMove hP (fun _ _ => .selfDestroyStub rfl (Function.update_self ..) hs
    (Function.update_self ..) rfl (by simp) (by simp)) ?_ ?_
  · refine .of_delete (Function.update_self ..) rfl ?_ rfl (by simp) rfl rfl
    simp [World.list, setObservers, ObserverList.mem_removeObserver]
  refine eventually_of_hostMove hP (fun _ _ => .selfReply rfl (Function.update_self ..)) ?_ ?_
  · exact .of_kept (by simp) (by simp) (fun _ => id) id
  refine eventually_of_hostMove hP (fun _ _ => .selfDrop rfl (Function.update_self ..)) ?_ ?_
  · exact .of_kept (by simp [FactoryHost.deletion]) (by simp) (fun _ => id) id
  convert h using 1
  simp [enqueue, setObservers, dropped, FactoryHost.released, FactoryHost.deletion, FactoryHost.abandoned,
    farewell, hpc]

/-- The calls with which a plain observer takes others off the list. -/
theorem removals_run (hP : ∀ w e, P w e → Behaves removes w e) (ps : List PlainId) {w : World}
    {fac : Factory} {rest : List Frame} (hpc : w.pc = .idle) (hg : w.gFactory = some f)
    (hfac : w.factory f = some fac) (hfr : w.frames = .calls (ps.map .removeObserver) :: rest)
    (hrest : rest ≠ [])
    (h : Eventually (step c) P (Careful f l) Q { w with
      factory := update w.factory f
        (some { fac with observerList := fac.observerList.removeObservers (ps.map .plain) })
      frames := rest }) :
    Eventually (step c) P (Careful f l) Q w := by
  induction ps generalizing w fac with
  | nil =>
    refine eventually_of_factoryMove hP (current_isSome hg hfac) (fun _ _ => .callsDone hpc hfr) ?_ ?_
    · exact .of_kept (by simp) (by simp [hpc, hrest]) (fun _ => id) id
    · have hsame : update w.factory f (some fac) = w.factory := by
        rw [← hfac, Function.update_eq_self]
      simpa [hsame] using h
  | cons p ps ih =>
    refine eventually_of_factoryMove hP (current_isSome hg hfac)
      (fun _ _ => .removeObserver hpc hfr hg hfac) ?_ ?_
    · exact .of_kept (by simp) (by simp [hpc]) (fun _ => id) of_update_eq_none
    · exact ih hpc hg (Function.update_self ..) rfl (by simpa [setObservers] using h)

/-- The turn of a plain observer. -/
theorem plain_turn (hP : ∀ w e, P w e → Behaves removes w e) {w : World} {p : PlainId}
    {fac : Factory} {index next : Nat} {rest : List Frame} (hpc : w.pc = .idle)
    (hg : w.gFactory = some f) (hfr : w.frames = .notify .destroyed f index :: rest)
    (hfac : w.factory f = some fac) (hn : fac.observerList.getNext index = some (.plain p, next))
    (h : Eventually (step c) P (Careful f l) Q { w with
      factory := update w.factory f
        (some { fac with observerList := fac.observerList.removeObservers ((removes p).map .plain) })
      frames := .notify .destroyed f next :: rest
      trace := w.trace ++ [.notified .destroyed f (.plain p)] }) :
    Eventually (step c) P (Careful f l) Q w := by
  have hnext : w.nextObserver = some (.destroyed, f, .plain p) := by
    simp [World.nextObserver, World.list, hpc, hfr, hfac, hn]
  refine .next fun e he => ?_
  obtain ⟨time, script, rfl, hscript⟩ := hP w e he
  obtain rfl := hscript f p hnext
  refine ⟨_, step_of_factoryMove (.notifyPlain hpc hfr hfac hn) (current_isSome hg hfac), ?_,
    removals_run hP _ hpc hg hfac rfl (by simp) h⟩
  exact .of_call hfac (ObserverList.mem_of_getNext hn) (by simp) rfl (by simp [hpc]) rfl rfl

/-- The loop goes on to the end of the list, and calls the observers of the sweep. -/
theorem sweep_run (hP : ∀ w e, P w e → Behaves removes w e) {w : World} {fac : Factory}
    (hw : Observed w f l) (rest : List Frame)
    (hQ : ∀ v called l' index, Visited c w f called v → v.pc = .idle → v.gFactory = some f →
      v.frames = .notify .destroyed f index :: rest →
      v.factory = update w.factory f (some { fac with observerList := l' }) → l'.getNext index = none →
      called = sweep (Observer.takesOff removes) [] l.members → Eventually (step c) P (Careful f l) Q v)
    (todo past gone called : List Observer) (index : Nat) {v : World} {l' : ObserverList Observer}
    (hsplit : l.members = past ++ todo) (hcalled : ∀ o ∈ called, o ∈ past)
    (hgone : ∀ s, .stub s ∈ gone → .stub s ∈ past)
    (hall : called ++ sweep (Observer.takesOff removes) gone todo =
      sweep (Observer.takesOff removes) [] l.members)
    (ht : Visited c w f called v) (hpc : v.pc = .idle) (hg : v.gFactory = some f)
    (hfr : v.frames = .notify .destroyed f index :: rest)
    (hfac : v.factory = update w.factory f (some { fac with observerList := l' }))
    (hd : l'.notifyDepth ≠ 0) (hrem : l'.remaining index = todo.filter (· ∉ gone)) :
    Eventually (step c) P (Careful f l) Q v := by
  induction todo generalizing past gone called v l' index with
  | nil =>
    refine hQ v called l' index ht hpc hg hfr hfac (ObserverList.getNext_of_remaining_nil hrem) ?_
    simpa [sweep] using hall
  | cons o todo ih =>
    have hsplit' : l.members = (past ++ [o]) ++ todo := by simp [hsplit]
    have hpast : ∀ x ∈ past, x ∈ past ++ [o] := fun x hx => List.mem_append_left _ hx
    by_cases ho : o ∈ gone
    · refine ih _ gone called index hsplit' (fun x hx => hpast x (hcalled x hx))
        (fun s hs => hpast _ (hgone s hs)) ?_ ht hpc hg hfr hfac hd ?_
      · simpa [sweep, ho] using hall
      · simpa [ho] using hrem
    have hf : v.factory f = some { fac with observerList := l' } := by simp [hfac]
    have hrem' : l'.remaining index = o :: todo.filter (· ∉ gone) := by simpa [ho] using hrem
    obtain ⟨next, hn, hnext⟩ := ObserverList.getNext_of_remaining_cons hrem'
    have hom : o ∈ l.members := by simp [hsplit]
    have hnd := l.nodup_members
    rw [hsplit] at hnd
    have hop : o ∉ past := fun hm => (List.nodup_append.mp hnd).2.2 o hm o (List.mem_cons_self ..) rfl
    have hoc : o ∉ called := fun hm => hop (hcalled o hm)
    have hall' : (called ++ [o]) ++ sweep (Observer.takesOff removes) (o.takesOff removes ++ gone) todo =
        sweep (Observer.takesOff removes) [] l.members := by
      simpa [sweep, ho] using hall
    have hcalled' : ∀ x ∈ called ++ [o], x ∈ past ++ [o] := by
      intro x hx
      simp only [List.mem_append] at hx ⊢
      exact hx.imp_left (hcalled x)
    have hfac' : ∀ l'', update v.factory f (some { fac with observerList := l'' }) =
        update w.factory f (some { fac with observerList := l'' }) := by simp [hfac]
    cases o with
    | stub s =>
      obtain ⟨st, o, hst, hsf, ho, hstub⟩ := hw.stubs s hom
      have hsub : ∀ x ∈ called, x ∈ l.members := fun x hx => by simp [hsplit, hcalled x hx]
      have hhost := hw.not_mem_hostsOf hsub ho hstub hoc
      have hvst : v.stub s = some st := by rw [ht.stub s, if_neg hoc, hst]
      have hvo : v.host st.observer = some o := by rw [ht.host, if_neg hhost, ho]
      refine stub_turn hP hpc hg hfr hf hn hvst hsf hvo hstub ?_
      refine ih _ _ _ next hsplit' hcalled' ?_ hall' (ht.stubTurn hst ho rfl rfl rfl rfl rfl rfl rfl) hpc hg rfl
        (hfac' _) (by simpa using hd) ?_
      · intro x hx
        simp only [Observer.takesOff, List.cons_append, List.nil_append, List.mem_cons] at hx
        simp only [List.mem_append, List.mem_singleton]
        exact hx.elim .inr fun hx => .inl (hgone x hx)
      · change (l'.removeObservers [.stub s]).remaining next = _
        rw [ObserverList.remaining_removeObservers hd, hnext, filter_gone]
        rfl
    | plain p =>
      refine plain_turn hP hpc hg hfr hf hn ?_
      refine ih _ _ _ next hsplit' hcalled' ?_ hall' (ht.plainTurn rfl rfl rfl rfl rfl rfl rfl) hpc hg rfl
        (hfac' _) (by simpa using hd) ?_
      · intro x hx
        exact List.mem_append_left _ (hgone x (by simpa [Observer.takesOff] using hx))
      · rw [ObserverList.remaining_removeObservers hd, hnext, filter_gone]
        rfl

/-- The rest of Destroy, after the loop. -/
theorem free_run (hP : ∀ w e, P w e → Behaves removes w e) {w v : World} {fac : Factory}
    (hw : Observed w f l) {frames : List Frame} (hne : frames ≠ [])
    (ht : Visited c w f (sweep (Observer.takesOff removes) [] l.members) v) (hpc : v.pc = .idle)
    (hg : v.gFactory = some f) (hfr : v.frames = .destroyed f :: frames)
    (hfac : v.factory = update w.factory f (some fac))
    (hQ : ∀ v, Destroyed c w f l (sweep (Observer.takesOff removes) [] l.members) frames v →
      Eventually (step c) P (Careful f l) Q v) :
    Eventually (step c) P (Careful f l) Q v := by
  have hstubs : stubsIn (sweep (Observer.takesOff removes) [] l.members) = stubsIn l.members :=
    stubsIn_sweep l.nodup_members (by simp)
  have hmem : ∀ s, .stub s ∈ sweep (Observer.takesOff removes) [] l.members ↔ .stub s ∈ l.members :=
    fun s => by rw [← mem_stubsIn, hstubs, mem_stubsIn]
  have hhosts : w.hostsOf (sweep (Observer.takesOff removes) [] l.members) = w.hostsOf l.members := by
    rw [World.hostsOf, hstubs, World.hostsOf]
  have hf : v.factory f = some fac := by simp [hfac]
  have hgone : ∀ s, .stub s ∈ l.members → v.stub s = none := by
    intro s hs
    rw [ht.stub s, if_pos ((hmem s).mpr hs)]
  refine eventually_of_factoryMove hP (current_isSome hg hf) (fun _ _ => .destroyed hpc hfr hf) ?_ (hQ _ ?_)
  · refine ⟨by simp, by simp [hpc, hne], fun s st hst h => ?_, fun _ _ => ⟨hgone, fun s st hst hsf => ?_⟩⟩
    · rw [hst] at h
      cases h
    · have hst' : w.stub s = some st := by
        rw [ht.stub s] at hst
        split at hst
        · cases hst
        · exact hst
      rw [hgone s (hw.listed s st hst' hsf)] at hst
      cases hst
  · refine ⟨⟨hpc, rfl⟩, ⟨by simp [hfac], rfl⟩, by simp [ht.trace], ?_, ?_, ?_,
      ht.tasks, ht.delayed, ht.external⟩
    · simpa [hmem] using ht.stub
    · simpa [hhosts] using ht.host
    · simpa [hhosts] using ht.loop

/-- The whole of Factory::Destroy. -/
theorem destroy_run (hP : ∀ w e, P w e → Behaves removes w e) {w : World} {fac : Factory}
    (hw : Observed w f fac.observerList) {ks : List Call} {rest : List Frame} (hpc : w.pc = .idle)
    (hg : w.gFactory = some f) (hfr : w.frames = .calls (.destroy :: ks) :: rest)
    (hfac : w.factory f = some fac)
    (hQ : ∀ v, Destroyed c w f fac.observerList
        (sweep (Observer.takesOff removes) [] fac.observerList.members) (.calls ks :: rest) v →
      Eventually (step c) P (Careful f fac.observerList) Q v) :
    Advances (step c) P (Careful f fac.observerList) Q w := by
  refine advances_of_factoryMove hP (current_isSome hg hfac)
    (fun _ _ => .destroyBegin hpc hfr hg hfac) ?_ ?_
  · exact .of_kept (by simp) (by simp [hpc]) (fun _ => id) of_update_eq_none
  by_cases hm : fac.observerList.mightHaveObservers = true
  · have hfac' : update w.factory f (some (startNotify .destroyed f fac).1) =
        update w.factory f (some { fac with observerList := fac.observerList.beginNotify }) := by
      simp [startNotify, hm]
    refine sweep_run hP hw (.destroyed f :: .calls ks :: rest) ?_ fac.observerList.members [] [] [] 0 rfl
      (by simp) (by simp) rfl ?_ hpc hg ?_ hfac' (by simp) ?_
    · rintro v called l' index ht hpc' hg' hfr' hfac' hn rfl
      have hf' : v.factory f = some { fac with observerList := l' } := by simp [hfac']
      refine eventually_of_factoryMove hP (current_isSome hg' hf')
        (fun _ _ => .notifyEnd hpc' hfr' hf' hn) ?_ ?_
      · exact .of_kept (by simp) (by simp [hpc']) (fun _ => id) of_update_eq_none
      · refine free_run hP hw (by simp) ?_ hpc' hg' rfl
          (show _ = update w.factory f (some { fac with observerList := l'.endNotify }) from ?_) hQ
        · exact ⟨ht.stub, ht.host, ht.loop, ht.trace, ht.tasks, ht.delayed, ht.external⟩
        · simp [setObservers, hfac']
    · exact ⟨by simp, by simp [World.hostsOf, stubsIn], by simp [World.hostsOf, stubsIn], rfl, rfl, rfl, rfl⟩
    · simp only [startNotify, hm, if_true]
      rfl
    · simp
  · have hnone := ObserverList.members_of_not_mightHaveObservers (by simpa using hm)
    refine free_run hP hw (by simp) ?_ hpc hg (by simp [startNotify, hm]) rfl hQ
    rw [hnone]
    exact ⟨by simp [sweep], by simp [sweep, World.hostsOf, stubsIn], by simp [sweep, World.hostsOf, stubsIn],
      rfl, rfl, rfl, rfl⟩

end Blocks

/-- In every state that a run reaches the registered stubs are observers as Destroy needs them. -/
theorem observed_of_reaches {c : Config} {w : World} {f : FactoryId} {fac : Factory}
    (hr : Reaches (step c) InitOnce .initial w) (hfac : w.factory f = some fac) :
    Observed w f fac.observerList := by
  have hl := listed_of_reaches hr
  have hb := bound_of_reaches (fun _ _ => id) hr
  constructor
  · intro s hs
    obtain ⟨st, hst, hsf⟩ := hl.listedStub f _ s (list_of_some hfac) hs
    obtain ⟨o, ho, hos⟩ := hb.bound s st hst
    exact ⟨st, o, hst, hsf, ho, hos⟩
  · intro s st hst hsf
    obtain ⟨l, hlf, hs⟩ := hl.stubListed s st f hst hsf
    obtain rfl := Option.some.inj ((list_of_some hfac).symm.trans hlf)
    exact hs

/-- The observers a Destroy calls: in list order, every stub, and every plain observer that no
called one before it takes off the list. -/
structure Called (removes : PlainId → List PlainId) (l : ObserverList Observer)
    (called : List Observer) : Prop where
  ordered : called.Sublist l.members
  stubs : ∀ s, .stub s ∈ l.members → .stub s ∈ called
  plains : ∀ as p bs, l.members = as ++ .plain p :: bs →
    (.plain p ∈ called ↔ ∀ q, .plain q ∈ as → .plain q ∈ called → p ∉ removes q)

theorem called_sweep (removes : PlainId → List PlainId) (l : ObserverList Observer) :
    Called removes l (sweep (Observer.takesOff removes) [] l.members) where
  ordered := sweep_sublist [] l.members
  stubs s hs := by
    rw [← mem_stubsIn, stubsIn_sweep l.nodup_members (by simp), mem_stubsIn]
    exact hs
  plains as p bs h := by
    have hnd : (as ++ .plain p :: bs).Nodup := h ▸ l.nodup_members
    rw [h, mem_sweep hnd]
    constructor
    · rintro ⟨-, hno⟩ q hq hc hp
      exact hno (.plain q) hq hc (by simpa [Observer.takesOff] using hp)
    · refine fun hno => ⟨by simp, fun o ho hc => ?_⟩
      cases o with
      | stub s => simp [Observer.takesOff]
      | plain q => simpa [Observer.takesOff] using hno q ho hc

/-- How often observer `o` of Factory `f` has been called. -/
def World.notified (w : World) (k : Notice) (f : FactoryId) (o : Observer) : Nat :=
  w.trace.count (.notified k f o)

/-- How often the history says so: who was called has been called once, and every registered stub
has been deleted once. -/
structure ToldOnce (w : World) (f : FactoryId) (l : ObserverList Observer) (called : List Observer)
    (v : World) : Prop where
  notified : ∀ o, v.notified .destroyed f o =
    w.notified .destroyed f o + if o ∈ called then 1 else 0
  deleted : ∀ s st, .stub s ∈ l.members → w.stub s = some st →
    v.trace.count (.detached st.observer s) = w.trace.count (.detached st.observer s) + 1

theorem count_notified_turns (w : World) (f : FactoryId) (called : List Observer) (o : Observer) :
    (called.flatMap (w.turn f)).count (.notified .destroyed f o) = called.count o := by
  induction called with
  | nil => rfl
  | cons x called ih =>
    rw [List.flatMap_cons, List.count_append, ih, List.count_cons, Nat.add_comm]
    congr 1
    cases x with
    | plain p => simp [World.turn, List.count_cons]
    | stub s => cases hst : w.stub s <;> simp [World.turn, hst, List.count_cons]

theorem count_detached_turns {w : World} (f : FactoryId) {s : StubId} {st : FactoryStub}
    (hst : w.stub s = some st) (called : List Observer) :
    (called.flatMap (w.turn f)).count (.detached st.observer s) = called.count (.stub s) := by
  induction called with
  | nil => rfl
  | cons x called ih =>
    rw [List.flatMap_cons, List.count_append, ih, List.count_cons, Nat.add_comm]
    congr 1
    cases x with
    | plain p => simp [World.turn]
    | stub x =>
      obtain rfl | hne := eq_or_ne x s
      · simp [World.turn, hst]
      · cases hx : w.stub x <;> simp [World.turn, hx, hne]

theorem destroyBegun_not_mem_turns (w : World) (f f' : FactoryId) (called : List Observer) :
    .destroyBegun f' ∉ called.flatMap (w.turn f) := by
  intro hm
  obtain ⟨o, -, ho⟩ := List.mem_flatMap.mp hm
  cases o with
  | plain p => simp [World.turn] at ho
  | stub s => cases hst : w.stub s <;> simp [World.turn, hst] at ho

theorem Destroyed.toldOnce {c : Config} {w v : World} {f : FactoryId} {l : ObserverList Observer}
    {called : List Observer} {frames : List Frame} {removes : PlainId → List PlainId}
    (hc : Called removes l called) (hd : Destroyed c w f l called frames v) : ToldOnce w f l called v := by
  have hnd : called.Nodup := l.nodup_members.sublist hc.ordered
  constructor
  · intro o
    simp only [World.notified, hd.history, List.count_append, List.count_cons, count_notified_turns,
      hnd.count]
    simp
  · intro s st hs hst
    simp only [hd.history, List.count_append, List.count_cons, count_detached_turns f hst, hnd.count]
    simp [hc.stubs s hs]

/-- Destroy comes to its end, and has called everyone once who was still registered. -/
theorem destroyed_of_behaves (c : Config) (removes : PlainId → List PlainId) {w : World} {f : FactoryId}
    {fac : Factory} {ks : List Call} {rest : List Frame} (hpc : w.pc = .idle)
    (hfr : w.frames = .calls (.destroy :: ks) :: rest) (hg : w.gFactory = some f)
    (hfac : w.factory f = some fac) (hw : Observed w f fac.observerList) :
    ∃ called, Called removes fac.observerList called ∧
      Eventually (step c) (Behaves removes) (Careful f fac.observerList)
        (fun v => Destroyed c w f fac.observerList called (.calls ks :: rest) v ∧
          ToldOnce w f fac.observerList called v) w ∧
      ∃ v, Reaches (step c) (Behaves removes) w v ∧
        Destroyed c w f fac.observerList called (.calls ks :: rest) v := by
  have hc := called_sweep removes fac.observerList
  have hev : Eventually (step c) (Behaves removes) (Careful f fac.observerList)
      (Destroyed c w f fac.observerList (sweep (Observer.takesOff removes) [] fac.observerList.members)
        (.calls ks :: rest)) w :=
    .next (destroy_run (fun _ _ => id) hw hpc hg hfr hfac fun _ => .now)
  refine ⟨_, hc, hev.mono (fun _ _ => id) fun v hd => ⟨hd, hd.toldOnce hc⟩, hev.exists_reaches ?_⟩
  exact exists_behaves removes

/-- Two stubs and three plain observers, the first of which takes itself and the last one off. -/
theorem destroyed_of_behaves_two_hosts : ∃ w v fac called, w.factory 0 = some fac ∧
    fac.observerList.members = [.plain 7, .stub 0, .plain 8, .stub 1, .plain 9] ∧
    Destroyed .plain w 0 fac.observerList called [.calls []] v ∧ .plain 7 ∈ called ∧ .plain 9 ∉ called := by
  obtain ⟨w, hr, hw⟩ := GuardedRun.exists_of_execute (step .plain) InitOnce .initial
    [.post [.create, .addObserver 7], .begin, .run 0 [], .run 0 [], .run 0 [], .init 0, .begin, .run 0 [],
      .run 0 [], .post [.addObserver 8], .begin, .run 0 [], .run 0 [], .init 1, .begin, .run 0 [],
      .run 0 [], .post [.addObserver 9], .begin, .run 0 [], .run 0 [], .post [.destroy], .begin]
    (fun w => decide (w.pc = .idle ∧ w.frames = [.calls [.destroy]] ∧ w.gFactory = some 0 ∧
      (w.factory 0).map (fun fac => fac.observerList.members) =
        some [Observer.plain 7, .stub 0, .plain 8, .stub 1, .plain 9])) (by decide)
  obtain ⟨hpc, hfr, hg, hw⟩ := of_decide_eq_true hw
  obtain ⟨fac, hfac, hm⟩ := Option.map_eq_some_iff.mp hw
  obtain ⟨called, hc, -, v, -, hd⟩ := destroyed_of_behaves .plain (fun p => if p = 7 then [7, 9] else [])
    hpc hfr hg hfac (observed_of_reaches hr hfac)
  have h₇ : .plain 7 ∈ called := (hc.plains [] 7 _ hm).mpr (by simp)
  refine ⟨w, v, fac, called, hfac, hm, hd, h₇, fun h₉ => ?_⟩
  refine (hc.plains [.plain 7, .stub 0, .plain 8, .stub 1] 9 [] hm).mp h₉ 7 (by simp) h₇ (by simp)

end OscDataProcess
