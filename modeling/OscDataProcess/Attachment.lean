import OscDataProcess.Registration
import OscDataProcess.Channel

/-!
# Hosts and stubs are bound one to one

Every Init and Destroy call is a relay in the task queue, the task that runs, or
has run. When each host calls Init once, `stub_` and `observer_` are inverse to
each other, and together with the observer lists they are the same set of pairs.
-/
namespace OscDataProcess

open Function (update)
open World

/-- An Init or Destroy call. -/
def Entry.isCall (r : Relay) : Entry → Bool
  | .initCall h => decide (r = ⟨.init, h⟩)
  | .destroyCall h => decide (r = ⟨.destroy, h⟩)
  | _ => false

/-- The run of PostInit or PostDestroy that a relay asked for. -/
def Entry.isRun (r : Relay) : Entry → Bool
  | .attached h _ _ => decide (r = ⟨.init, h⟩)
  | .postDestroy h => decide (r = ⟨.destroy, h⟩)
  | _ => false

def calls (trace : List Entry) (r : Relay) : Nat := trace.countP (Entry.isCall r)

def runs (trace : List Entry) (r : Relay) : Nat := trace.countP (Entry.isRun r)

@[simp] theorem calls_append (es es' : List Entry) (r : Relay) :
    calls (es ++ es') r = calls es r + calls es' r := List.countP_append

@[simp] theorem runs_append (es es' : List Entry) (r : Relay) :
    runs (es ++ es') r = runs es r + runs es' r := List.countP_append

@[simp] theorem calls_cons (e : Entry) (es : List Entry) (r : Relay) :
    calls (e :: es) r = calls es r + if e.isCall r then 1 else 0 := List.countP_cons

@[simp] theorem runs_cons (e : Entry) (es : List Entry) (r : Relay) :
    runs (e :: es) r = runs es r + if e.isRun r then 1 else 0 := List.countP_cons

@[simp] theorem calls_nil (r : Relay) : calls [] r = 0 := rfl
@[simp] theorem runs_nil (r : Relay) : runs [] r = 0 := rfl

@[simp] theorem calls_deletion (o : FactoryHost) (h : HostId) (r : Relay) : calls (o.deletion h) r = 0 := by
  unfold FactoryHost.deletion
  split <;> rfl

@[simp] theorem runs_deletion (o : FactoryHost) (h : HostId) (r : Relay) : runs (o.deletion h) r = 0 := by
  unfold FactoryHost.deletion
  split <;> rfl

theorem Quiet.calls {w w' : World} (hq : Quiet w w') (r : Relay) : calls w'.trace r = calls w.trace r := by
  obtain ⟨es, htr, hes⟩ := hq.trace
  have : OscDataProcess.calls es r = 0 := List.countP_eq_zero.mpr fun e he => by
    have := hes e he
    cases e <;> simp_all [Entry.IsFactory, Entry.isCall]
  rw [htr, calls_append, this, Nat.add_zero]

theorem Quiet.runs {w w' : World} (hq : Quiet w w') (r : Relay) : runs w'.trace r = runs w.trace r := by
  obtain ⟨es, htr, hes⟩ := hq.trace
  have : OscDataProcess.runs es r = 0 := List.countP_eq_zero.mpr fun e he => by
    have := hes e he
    cases e <;> simp_all [Entry.IsFactory, Entry.isRun]
  rw [htr, runs_append, this, Nat.add_zero]

def Pc.relayTasks (r : Relay) : Pc → Nat
  | .relayTask r' => if r' = r then 1 else 0
  | _ => 0

/-- Every call is waiting, running or has run. -/
def Relayed (w : World) : Prop :=
  ∀ r, calls w.trace r = (relays w.tasks).count r + w.pc.relayTasks r + runs w.trace r

theorem relayed_initial : Relayed .initial := fun _ => rfl

variable {c : Config} {w : World}

theorem Relayed.quiet {w' : World} (hr : Relayed w) (hq : Quiet w w') : Relayed w' := by
  intro r
  have hpc : w'.pc.relayTasks r = w.pc.relayTasks r := by
    obtain he | ⟨he, ⟨s, data, he'⟩ | ⟨s, he'⟩⟩ := hq.pc <;> simp [*, Pc.relayTasks]
  rw [hq.calls, hq.runs, hq.relays, hpc]
  exact hr r

theorem Relayed.hostMove {w' : World} {e : Event} (hr : Relayed w) (hm : HostMove c w e w') :
    Relayed w' := by
  intro r
  have hb := hr r
  cases hm with
  | @beginRelay r' ts hidle hts =>
    simp only [hidle.1, hts, relays_cons_relay, List.count_cons, Pc.relayTasks, beq_iff_eq] at hb ⊢
    omega
  | @postInit h =>
    rename_i hpc _ _ _
    simp only [hpc, Pc.relayTasks, calls_append, runs_append, calls_cons, runs_cons, calls_nil, runs_nil,
      Entry.isCall, Entry.isRun, decide_eq_true_eq, eq_comm (a := r)] at hb ⊢
    simp only [Bool.false_eq_true, if_false]
    omega
  | @relayDestroyNull h o time script hpc =>
    simp only [hpc, Pc.relayTasks, calls_append, runs_append, calls_cons, runs_cons, calls_nil, runs_nil,
      Entry.isCall, Entry.isRun, decide_eq_true_eq, eq_comm (a := r)] at hb ⊢
    simp only [Bool.false_eq_true, if_false]
    omega
  | @relayDestroyStub h o s st time script hpc =>
    simp only [hpc, Pc.relayTasks, calls_append, runs_append, calls_cons, runs_cons, calls_nil, runs_nil,
      Entry.isCall, Entry.isRun, decide_eq_true_eq, eq_comm (a := r)] at hb ⊢
    simp only [Bool.false_eq_true, if_false]
    omega
  | init ho | destroy ho =>
    simp only [calls_append, runs_append, calls_cons, runs_cons, calls_nil, runs_nil, Entry.isCall,
      Entry.isRun, decide_eq_true_eq, eq_comm (a := r), relays_append, relays_cons_relay, relays_nil,
      List.count_append, List.count_cons, List.count_nil, beq_iff_eq] at hb ⊢
    simp only [Bool.false_eq_true, if_false]
    omega
  | leave hpc => simpa [hpc, Pc.relayTasks] using hb
  | relayReply hpc | forward hpc | hold hpc | leavePost hpc | leaveDestroy hpc | selfDestroyNull hpc
  | selfDestroyStub hpc | selfReply hpc | selfDrop hpc =>
    simpa [hpc, Pc.relayTasks, Entry.isCall, Entry.isRun] using hb
  | beginHost | resetTask | runReply | deleteRelay | runCall | unbind | addRef | dropRef =>
    simpa [Entry.isCall, Entry.isRun] using hb

theorem relayed_of_reaches {P : World → Event → Prop} (h : GuardedRun.Reaches (step c) P .initial w) :
    Relayed w :=
  moves_of_reaches (fun _ _ _ _ hr _ hm => hr.hostMove hm) (fun _ _ _ _ hr _ hm => hr.quiet hm.quiet)
    relayed_initial h

def Event.init? : Event → Option HostId
  | .init h => some h
  | _ => none

/-- Every host calls Init at most once. -/
def InitOnce (w : World) (e : Event) : Prop := ∀ h ∈ e.init?, .initCall h ∉ w.trace

instance (w : World) (e : Event) : Decidable (InitOnce w e) :=
  inferInstanceAs (Decidable (∀ h ∈ e.init?, _))

theorem calls_eq_zero {trace : List Entry} {h : HostId} (hn : .initCall h ∉ trace) :
    calls trace ⟨.init, h⟩ = 0 := by
  refine List.countP_eq_zero.mpr fun e he => ?_
  cases e <;> simp [Entry.isCall]
  rintro rfl
  exact hn he

def Event.call? : Event → Option Relay
  | .init h => some ⟨.init, h⟩
  | .destroy h => some ⟨.destroy, h⟩
  | _ => none

theorem calls_move {w' : World} {e : Event} (hm : HostMove c w e w') (r : Relay) :
    calls w'.trace r = calls w.trace r + if e.call? = some r then 1 else 0 := by
  cases hm with
  | init | destroy => simp [Entry.isCall, Event.call?, eq_comm]
  | leave | beginRelay | postInit | relayDestroyNull | relayDestroyStub | relayReply | forward | hold
  | leavePost | leaveDestroy | selfDestroyNull | selfDestroyStub | selfReply | selfDrop | beginHost
  | resetTask | runReply | deleteRelay | runCall | unbind | addRef | dropRef =>
    simp [Entry.isCall, Event.call?]

theorem init?_of_call? {e : Event} {h : HostId} (he : e.call? = some ⟨.init, h⟩) : e.init? = some h := by
  cases e <;> simp_all [Event.call?, Event.init?]

theorem calls_init_le {P : World → Event → Prop} (hP : ∀ w e, P w e → InitOnce w e)
    (hr : GuardedRun.Reaches (step c) P .initial w) : ∀ h, calls w.trace ⟨.init, h⟩ ≤ 1 := by
  refine moves_of_reaches (I := fun w => ∀ h, calls w.trace ⟨.init, h⟩ ≤ 1) ?_ ?_ (fun _ => Nat.zero_le 1) hr
  · intro w e w' _ hle hp hm b
    rw [calls_move hm]
    split
    · rename_i he
      rw [calls_eq_zero (hP w e hp b (init?_of_call? he))]
    · exact hle b
  · intro w e w' _ hle _ hm b
    rw [hm.quiet.calls]
    exact hle b

/-- Whoever has a live stub is bound to it, and a stub without `factory_` is on its way out. -/
structure Bound (w : World) : Prop where
  once : ∀ h, calls w.trace ⟨.init, h⟩ ≤ 1
  bound : ∀ s st, w.stub s = some st → ∃ o, w.host st.observer = some o ∧ o.stub = some s
  attached : ∀ s st, w.stub s = some st → runs w.trace ⟨.init, st.observer⟩ ≠ 0
  leaving : ∀ s st, w.stub s = some st → st.factory = none →
    w.pc = .leavePost s ∨ w.pc = .leaveDestroy s ∨ w.pc = .selfDestroy st.observer

theorem bound_initial : Bound .initial where
  once := fun _ => Nat.zero_le 1
  bound := by intro s st hs; cases hs
  attached := by intro s st hs; cases hs
  leaving := by intro s st hs; cases hs

/-- The `stub_` of every live host is the one it had. -/
def StubKept (host host' : HostId → Option FactoryHost) : Prop :=
  ∀ h o', host' h = some o' → ∃ o, host h = some o ∧ o'.stub = o.stub

theorem StubKept.refl (host : HostId → Option FactoryHost) : StubKept host host :=
  fun _ o' ho => ⟨o', ho, rfl⟩

theorem stubKept_update {host : HostId → Option FactoryHost} {h : HostId} {o : FactoryHost}
    {o' : Option FactoryHost} (ho : host h = some o) (hsame : ∀ x ∈ o', x.stub = o.stub) :
    StubKept host (update host h o') := by
  intro b ob hb
  by_cases he : b = h
  · subst he
    rw [Function.update_self] at hb
    exact ⟨o, ho, hsame ob hb⟩
  · rw [Function.update_of_ne he] at hb
    exact ⟨ob, hb, rfl⟩

/-- No stub is new, and each one observes for the host it did. -/
def ObserverKept (stub stub' : StubId → Option FactoryStub) : Prop :=
  ∀ s st', stub' s = some st' → ∃ st, stub s = some st ∧ st'.observer = st.observer

theorem ObserverKept.refl (stub : StubId → Option FactoryStub) : ObserverKept stub stub :=
  fun _ st' hs => ⟨st', hs, rfl⟩

theorem observerKept_update {stub : StubId → Option FactoryStub} {s : StubId} {st st' : FactoryStub}
    (hst : stub s = some st) (hobs : st'.observer = st.observer) : ObserverKept stub (update stub s (some st')) := by
  intro b sb hb
  by_cases he : b = s
  · subst he
    rw [Function.update_self] at hb
    obtain rfl := Option.some.inj hb
    exact ⟨st, hst, hobs⟩
  · rw [Function.update_of_ne he] at hb
    exact ⟨sb, hb, rfl⟩

theorem factory_ne_none_of_update {stub : StubId → Option FactoryStub} {s : StubId} {st : FactoryStub}
    (hst : st.factory ≠ none) (hall : ∀ b sb, stub b = some sb → sb.factory ≠ none) :
    ∀ b sb, update stub s (some st) b = some sb → sb.factory ≠ none := by
  intro b sb hb
  by_cases he : b = s
  · subst he
    rw [Function.update_self] at hb
    obtain rfl := Option.some.inj hb
    exact hst
  · rw [Function.update_of_ne he] at hb
    exact hall b sb hb

namespace Bound

/-- A step that neither attaches nor detaches. -/
theorem keep {w' : World} (hb : Bound w) (hc' : Counted c w')
    (honce : ∀ h, calls w'.trace ⟨.init, h⟩ ≤ 1) (hhost : StubKept w.host w'.host)
    (hstub : ObserverKept w.stub w'.stub) (hruns : ∀ h, runs w'.trace ⟨.init, h⟩ = runs w.trace ⟨.init, h⟩)
    (hleaving : ∀ s st', w'.stub s = some st' → st'.factory = none →
      w'.pc = .leavePost s ∨ w'.pc = .leaveDestroy s ∨ w'.pc = .selfDestroy st'.observer) : Bound w' where
  once := honce
  bound := by
    intro s st' hs
    obtain ⟨o', ho'⟩ := hc'.alive_of_stub hs
    obtain ⟨st, hst, hobs⟩ := hstub s st' hs
    obtain ⟨o, ho, hos⟩ := hb.bound s st hst
    obtain ⟨o₁, ho₁, hsame⟩ := hhost st'.observer o' ho'
    rw [hobs] at ho₁
    obtain rfl := Option.some.inj (ho.symm.trans ho₁)
    exact ⟨o', ho', hsame.trans hos⟩
  attached := by
    intro s st' hs
    obtain ⟨st, hst, hobs⟩ := hstub s st' hs
    rw [hobs, hruns]
    exact hb.attached s st hst
  leaving := hleaving

/-- And no stub is on its way out. -/
theorem stay {w' : World} (hb : Bound w) (hc' : Counted c w') (honce : ∀ h, calls w'.trace ⟨.init, h⟩ ≤ 1)
    (hhost : StubKept w.host w'.host) (hstub : ObserverKept w.stub w'.stub)
    (hruns : ∀ h, runs w'.trace ⟨.init, h⟩ = runs w.trace ⟨.init, h⟩)
    (hfac : ∀ s st, w'.stub s = some st → st.factory ≠ none) : Bound w' :=
  hb.keep hc' honce hhost hstub hruns fun s st hs hf => absurd hf (hfac s st hs)

/-- `stub_` and the live stubs are inverse to each other. -/
theorem stub_eq (hb : Bound w) {s : StubId} {st : FactoryStub} {o : FactoryHost}
    (hs : w.stub s = some st) (ho : w.host st.observer = some o) : o.stub = some s := by
  obtain ⟨o', ho', hos⟩ := hb.bound s st hs
  obtain rfl := Option.some.inj (ho.symm.trans ho')
  exact hos

/-- A host that has not attached yet has no stub. -/
theorem stub_eq_none (hc : Counted c w) (hb : Bound w) {h : HostId} {o : FactoryHost}
    (hn : runs w.trace ⟨.init, h⟩ = 0) (ho : w.host h = some o) : o.stub = none := by
  cases hos : o.stub with
  | none => rfl
  | some s =>
    obtain ⟨st, hst, rfl⟩ := hc.owned h o s ho hos
    exact absurd hn (hb.attached s st hst)

/-- The host about to attach attaches for the first time. -/
theorem runs_eq_zero (hr : Relayed w) (hb : Bound w) {h : HostId} (hpc : w.pc = .relayTask ⟨.init, h⟩) :
    runs w.trace ⟨.init, h⟩ = 0 := by
  have hle := hb.once h
  have hrel := hr ⟨.init, h⟩
  simp only [hpc, Pc.relayTasks, if_true] at hrel
  omega

theorem quiet {w' : World} (hc' : Counted c w') (hb : Bound w) (hq : Quiet w w') : Bound w' := by
  refine hb.keep hc' ?_ ?_ ?_ (hq.runs ⟨.init, ·⟩) ?_
  · intro h
    rw [hq.calls]
    exact hb.once h
  · rw [hq.host]
    exact .refl _
  · rw [hq.stub]
    exact .refl _
  · intro s st hs hf
    have hl := hb.leaving s st (hq.stub ▸ hs) hf
    obtain he | ⟨he, -⟩ := hq.pc
    · rwa [he]
    · simp [he] at hl

/-- The host gets its stub. -/
theorem attach {w' : World} {h : HostId} {f : FactoryId} {l : Option FreqLimiter} {o o' : FactoryHost}
    (hc : Counted c w) (hr : Relayed w) (hb : Bound w) (hpc : w.pc = .relayTask ⟨.init, h⟩) (ho : w.host h = some o)
    (hhost : w'.host = update w.host h (some o')) (ho' : o'.stub = some w.freshStub)
    (hstub : w'.stub = update w.stub w.freshStub (some ⟨h, some f, l⟩))
    (honce : ∀ h, calls w'.trace ⟨.init, h⟩ ≤ 1)
    (hruns : ∀ b, runs w'.trace ⟨.init, b⟩ = runs w.trace ⟨.init, b⟩ + if b = h then 1 else 0) : Bound w' := by
  have hnone := hb.stub_eq_none hc (hb.runs_eq_zero hr hpc) ho
  have hcases : ∀ x sx, w'.stub x = some sx →
      x = w.freshStub ∧ sx = ⟨h, some f, l⟩ ∨ w.stub x = some sx ∧ sx.observer ≠ h := by
    intro x sx hx
    rw [hstub] at hx
    by_cases he : x = w.freshStub
    · subst he
      rw [Function.update_self] at hx
      exact .inl ⟨rfl, (Option.some.inj hx).symm⟩
    · rw [Function.update_of_ne he] at hx
      refine .inr ⟨hx, ?_⟩
      rintro rfl
      rw [hb.stub_eq hx ho] at hnone
      cases hnone
  refine ⟨honce, ?_, ?_, ?_⟩
  · intro x sx hx
    rw [hhost]
    obtain ⟨rfl, rfl⟩ | ⟨hx, hne⟩ := hcases x sx hx
    · exact ⟨o', Function.update_self .., ho'⟩
    · rw [Function.update_of_ne hne]
      exact hb.bound x sx hx
  · intro x sx hx
    rw [hruns]
    obtain ⟨rfl, rfl⟩ | ⟨hx, hne⟩ := hcases x sx hx
    · simp
    · have := hb.attached x sx hx
      omega
  · intro x sx hx hf
    obtain ⟨rfl, rfl⟩ | ⟨hx, -⟩ := hcases x sx hx
    · cases hf
    · simpa [hpc] using hb.leaving x sx hx hf

/-- The host's stub is deleted and `stub_` reset. -/
theorem detach {w' : World} {h : HostId} {s : StubId} {st : FactoryStub} {o o' : FactoryHost}
    (hb : Bound w) (hst : w.stub s = some st) (hobs : st.observer = h)
    (ho : w.host h = some o) (hhost : w'.host = update w.host h (some o'))
    (hstub : w'.stub = update w.stub s none) (honce : ∀ h, calls w'.trace ⟨.init, h⟩ ≤ 1)
    (hruns : ∀ h, runs w'.trace ⟨.init, h⟩ = runs w.trace ⟨.init, h⟩)
    (hpc : ∀ x st, w.stub x = some st → st.factory = none → w.pc = .selfDestroy st.observer →
      st.observer = h)
    (hpc' : (∀ x, w.pc ≠ .leavePost x) ∧ ∀ x, w.pc ≠ .leaveDestroy x) : Bound w' := by
  have hback : ∀ x sx, w'.stub x = some sx → w.stub x = some sx ∧ sx.observer ≠ h := by
    intro x sx hx
    rw [hstub] at hx
    by_cases he : x = s
    · subst he; simp at hx
    · rw [Function.update_of_ne he] at hx
      refine ⟨hx, fun hsh => he ?_⟩
      subst hobs
      have h₁ := hb.stub_eq hx (hsh ▸ ho)
      have h₂ := hb.stub_eq hst ho
      exact Option.some.inj (h₁.symm.trans h₂)
  refine ⟨honce, ?_, ?_, ?_⟩
  · intro x sx hx
    obtain ⟨hx, hne⟩ := hback x sx hx
    rw [hhost, Function.update_of_ne hne]
    exact hb.bound x sx hx
  · intro x sx hx
    rw [hruns]
    exact hb.attached x sx (hback x sx hx).1
  · intro x sx hx hf
    obtain ⟨hx, hne⟩ := hback x sx hx
    obtain hl | hl | hl := hb.leaving x sx hx hf
    · exact absurd hl (hpc'.1 x)
    · exact absurd hl (hpc'.2 x)
    · exact absurd (hpc x sx hx hf hl) hne

/-- Away from the code that lets a stub leave, every stub has its `factory_`. -/
theorem factory_ne_none (hb : Bound w) (hpc : (∀ x, w.pc ≠ .leavePost x) ∧ (∀ x, w.pc ≠ .leaveDestroy x) ∧
    ∀ h, w.pc ≠ .selfDestroy h) : ∀ s st, w.stub s = some st → st.factory ≠ none := by
  intro s st hs hf
  obtain hl | hl | hl := hb.leaving s st hs hf
  · exact hpc.1 s hl
  · exact hpc.2.1 s hl
  · exact hpc.2.2 _ hl

theorem hostMove {w' : World} {e : Event} (hc : Counted c w) (hr : Relayed w) (hl : Listed w) (hb : Bound w)
    (hm : HostMove c w e w') (honce : ∀ h, calls w'.trace ⟨.init, h⟩ ≤ 1) : Bound w' := by
  have hc' := hc.hostMove hm
  cases hm with
  | @postInit h f fac o time script hpc hf hfac ho =>
    refine hb.attach hc hr hpc ho rfl rfl rfl honce fun b => ?_
    by_cases he : b = h <;> simp [Entry.isRun, he]
  | relayDestroyStub hpc ho hs hst hobs =>
    exact hb.detach hst hobs ho rfl rfl honce (by simp [Entry.isRun]) (by simp [hpc]) (by simp [hpc])
  | selfDestroyStub hpc ho hs hst hobs =>
    exact hb.detach hst hobs ho rfl rfl honce (by simp [Entry.isRun])
      (by intro x sx _ _ he; rw [hpc] at he; cases he; rfl) (by simp [hpc])
  | @forward s data st o time script hpc hst hfwd ho =>
    have hfac := hb.factory_ne_none (by simp [hpc])
    exact hb.stay hc' honce (stubKept_update ho (by simp)) (observerKept_update hst (by simp)) (by simp [Entry.isRun])
      (factory_ne_none_of_update (by simpa using hfac s st hst) hfac)
  | @hold s data st time script hpc hst =>
    have hfac := hb.factory_ne_none (by simp [hpc])
    exact hb.stay hc' honce (.refl _) (observerKept_update hst (by simp)) (by simp [Entry.isRun])
      (factory_ne_none_of_update (by simpa using hfac s st hst) hfac)
  | @leave s st f fac time script hpc hst hf hfac =>
    have hall := hb.factory_ne_none (by simp [hpc])
    have hobs : ({ st with factory := none } : FactoryStub).observer = st.observer := rfl
    refine hb.keep hc' honce (.refl _) (observerKept_update hst hobs) (fun _ => rfl) ?_
    intro x sx hx hfx
    simp only at hx
    by_cases he : x = s
    · subst he
      exact .inl rfl
    · rw [Function.update_of_ne he] at hx
      exact absurd hfx (hall x sx hx)
  | @leavePost s st o time script hpc hst ho =>
    refine hb.keep hc' honce (stubKept_update ho (by simp)) (.refl _) (by simp [Entry.isRun]) ?_
    intro x sx hx hf
    have := hb.leaving x sx hx hf
    simp only [hpc, Pc.leavePost.injEq, reduceCtorEq, or_false] at this
    exact .inr (.inl (this ▸ rfl))
  | @leaveDestroy s st o time script hpc hst ho =>
    refine hb.keep hc' honce (stubKept_update ho (by simp)) (.refl _) (fun _ => rfl) ?_
    intro x sx hx hf
    have := hb.leaving x sx hx hf
    simp only [hpc, Pc.leaveDestroy.injEq, reduceCtorEq, or_false, false_or] at this
    subst this
    obtain rfl := Option.some.inj (hst.symm.trans hx)
    exact .inr (.inr rfl)
  | @selfDestroyNull h o time script hpc ho hs =>
    have hplaced := hl.placed
    rw [hpc] at hplaced
    obtain ⟨s, st, hst, rfl, -⟩ := hplaced
    exact absurd (hb.stub_eq hst ho) (by simp [hs])
  | selfReply hpc ho =>
    exact hb.stay hc' honce (stubKept_update ho (by simp)) (.refl _) (by simp [Entry.isRun])
      (hb.factory_ne_none (by simp [hpc]))
  | selfDrop hpc ho =>
    exact hb.stay hc' honce (stubKept_update ho (FactoryHost.released_stub _)) (.refl _) (by simp)
      (hb.factory_ne_none (by simp [hpc]))
  | beginRelay hidle =>
    exact hb.stay hc' honce (.refl _) (.refl _) (fun _ => rfl) (hb.factory_ne_none (by simp [hidle.1]))
  | relayDestroyNull hpc | relayReply hpc =>
    exact hb.stay hc' honce (.refl _) (.refl _) (by simp [Entry.isRun]) (hb.factory_ne_none (by simp [hpc]))
  | beginHost =>
    exact hb.keep hc' honce (.refl _) (.refl _) (fun _ => rfl) hb.leaving
  | resetTask _ ho | deleteRelay _ ho | unbind _ ho | dropRef _ ho =>
    exact hb.keep hc' honce (stubKept_update ho (FactoryHost.released_stub _)) (.refl _) (by simp) hb.leaving
  | runReply _ ho | runCall _ ho | addRef _ ho =>
    exact hb.keep hc' honce (stubKept_update ho (by simp)) (.refl _) (by simp [Entry.isRun]) hb.leaving
  | init ho | destroy ho =>
    exact hb.keep hc' honce (stubKept_update ho (by simp)) (.refl _) (by simp [Entry.isRun]) hb.leaving

end Bound

/-- With one Init call for each host every reachable state is bound. -/
theorem bound_of_reaches {P : World → Event → Prop} (hP : ∀ w e, P w e → InitOnce w e)
    (hr : GuardedRun.Reaches (step c) P .initial w) : Bound w := by
  refine GuardedRun.Reaches.invariant_of (K := GuardedRun.Reaches (step c) P .initial) (fun _ => id) ?_
    bound_initial hr
  intro t e u ht hb hp he hu
  have hc := counted_of_reaches ht
  obtain hm | hm := step_cases hc.owned he
  · exact hb.hostMove hc (relayed_of_reaches ht) (listed_of_reaches ht) hm (calls_init_le hP hu)
  · exact hb.quiet (counted_of_reaches hu) hm.quiet

/-- How the Factory, the stubs and the hosts refer to each other between two tasks. -/
structure Registered (w : World) : Prop where
  oneFactory : ∀ f fac, w.factory f = some fac → w.gFactory = some f
  settled : ∀ f fac, w.factory f = some fac →
    fac.observerList.notifyDepth = 0 ∧ none ∉ fac.observerList.observers
  distinct : ∀ f fac, w.factory f = some fac → fac.observerList.members.Nodup
  same : ∀ f fac, w.factory f = some fac → ∀ s, .stub s ∈ fac.observerList.members ↔
    ∃ h o, w.host h = some o ∧ o.stub = some s
  oneHost : ∀ h h' o o' s, w.host h = some o → w.host h' = some o' → o.stub = some s →
    o'.stub = some s → h = h'
  linked : ∀ h o s, w.host h = some o → o.stub = some s → ∃ st f, w.stub s = some st ∧
    st.observer = h ∧ st.factory = some f ∧ w.gFactory = some f
  detached : w.gFactory = none → ∀ h o, w.host h = some o → o.stub = none

theorem registered_of_idle (hc : Counted c w) (hl : Listed w) (hb : Bound w) (hidle : w.Idle) :
    Registered w := by
  have hlinked : ∀ h o s, w.host h = some o → o.stub = some s → ∃ st f, w.stub s = some st ∧
      st.observer = h ∧ st.factory = some f ∧ w.gFactory = some f := by
    intro h o s ho hs
    obtain ⟨st, hst, hobs⟩ := hc.owned h o s ho hs
    obtain ⟨f, hf⟩ := Option.ne_none_iff_exists'.mp
      (hb.factory_ne_none (by simp [hidle.1]) s st hst)
    obtain ⟨l, hlf, -⟩ := hl.stubListed s st f hst hf
    exact ⟨st, f, hst, hobs, hf, hl.current f l hlf⟩
  refine ⟨?_, ?_, ?_, ?_, ?_, hlinked, ?_⟩
  · intro f fac hf
    exact hl.current f _ (list_of_some hf)
  · intro f fac hf
    have hd : fac.observerList.notifyDepth = 0 := by
      rw [hl.depth f _ (list_of_some hf), hidle.2]
      rfl
    exact ⟨hd, fac.observerList.settled hd⟩
  · intro f fac _
    exact fac.observerList.unique
  · intro f fac hf s
    constructor
    · intro hs
      obtain ⟨st, hst, -⟩ := hl.listedStub f _ s (list_of_some hf) hs
      obtain ⟨o, ho, hos⟩ := hb.bound s st hst
      exact ⟨st.observer, o, ho, hos⟩
    · rintro ⟨h, o, ho, hos⟩
      obtain ⟨st, f', hst, -, hf', hg⟩ := hlinked h o s ho hos
      obtain rfl := Option.some.inj (hg.symm.trans (hl.current f _ (list_of_some hf)))
      obtain ⟨l, hlf, hmem⟩ := hl.stubListed s st f' hst hf'
      obtain rfl := Option.some.inj ((list_of_some hf).symm.trans hlf)
      exact hmem
  · intro h h' o o' s ho ho' hs hs'
    obtain ⟨st, hst, rfl⟩ := hc.owned h o s ho hs
    obtain ⟨st', hst', rfl⟩ := hc.owned h' o' s ho' hs'
    obtain rfl := Option.some.inj (hst.symm.trans hst')
    rfl
  · intro hg h o ho
    cases hs : o.stub with
    | none => rfl
    | some s =>
      obtain ⟨st, f, -, -, -, hg'⟩ := hlinked h o s ho hs
      cases hg.symm.trans hg'

/-- Between two tasks the registered stubs and the `stub_` fields are the same; at no time does
a stub hold a deleted Factory, nor is a deleted stub called. -/
theorem registered_of_reaches (c : Config) {w : World}
    (hr : GuardedRun.Reaches (step c) InitOnce .initial w) :
    (w.Idle → Registered w) ∧
      (∀ s st f, w.stub s = some st → st.factory = some f → (w.factory f).isSome) ∧
      ∀ s, (∃ data, w.pc = .stubData s data) ∨ w.pc = .leave s → (w.stub s).isSome := by
  have hl := listed_of_reaches hr
  refine ⟨registered_of_idle (counted_of_reaches hr) hl (bound_of_reaches (fun _ _ => id) hr), ?_, ?_⟩
  · intro s st f hs hf
    obtain ⟨l, hlf, -⟩ := hl.stubListed s st f hs hf
    obtain ⟨fac, hfac, -⟩ := Option.map_eq_some_iff.mp hlf
    simp [hfac]
  · intro s hs
    have hplaced := hl.placed
    obtain ⟨data, hpc⟩ | hpc := hs
    all_goals
      rw [hpc] at hplaced
      obtain ⟨st, f, hst, -⟩ := hplaced
      simp [hst]

/-- Two hosts attach, and one of them detaches again. -/
theorem registered_of_reaches_two_hosts : ∃ w, GuardedRun.Reaches (step .plain) InitOnce .initial w ∧
    (w.factory 0).map (fun fac => fac.observerList.members) = some [.stub 1] ∧ Registered w := by
  obtain ⟨w, hr, hw⟩ := GuardedRun.exists_of_execute (step .plain) InitOnce .initial
    [.post [.create], .begin, .run 0 [], .run 0 [], .init 0, .init 1, .begin, .run 0 [], .run 0 [],
      .begin, .run 0 [], .run 0 [], .beginHost 0, .runHost 0, .runHost 0, .runHost 0, .destroy 0, .begin,
      .run 0 [], .run 0 []]
    (fun w => decide (w.Idle ∧
      (w.factory 0).map (fun fac => fac.observerList.members) = some [Observer.stub 1])) (by decide)
  obtain ⟨hidle, hw⟩ := of_decide_eq_true hw
  exact ⟨w, hr, hw, (registered_of_reaches .plain hr).1 hidle⟩

end OscDataProcess
