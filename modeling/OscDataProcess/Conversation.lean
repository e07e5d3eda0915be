import OscDataProcess.Attachment

/-!
# The conversation with one host

What the four posting sites together send to a host is a word of a small
automaton: the reply of Init opens it, data follow, and it is closed by the host's
Destroy or by the Factory's, the latter being announced first. The automaton is
the abstract model; the deployment follows it step by step.
-/
namespace OscDataProcess

open Function (update)
open World

/-- How far the conversation is. `closed` says whether OnFactoryDestory was announced. -/
inductive Phase where
  | fresh
  | opened
  | leaving
  | closed (announced : Bool)
  | broken
  deriving DecidableEq, Repr

def Phase.next : Phase → Callback → Phase
  | .fresh, .replyInit => .opened
  | .opened, .onDataProduced _ => .opened
  | .opened, .onFactoryDestory => .leaving
  | .opened, .replyDestroy => .closed false
  | .leaving, .replyDestroy => .closed true
  | .closed b, .replyDestroy => .closed b
  | _, _ => .broken

def phase (ms : List Callback) : Phase := ms.foldl Phase.next .fresh

@[simp] theorem phase_nil : phase [] = .fresh := rfl

theorem phase_append (ms ms' : List Callback) : phase (ms ++ ms') = ms'.foldl Phase.next (phase ms) :=
  List.foldl_append

theorem phase_concat (ms : List Callback) (m : Callback) : phase (ms ++ [m]) = (phase ms).next m :=
  phase_append ms [m]

theorem foldl_broken (ms : List Callback) : ms.foldl Phase.next .broken = .broken := by
  induction ms with
  | nil => rfl
  | cons m ms ih => exact ih

/-- What was sent so far kept the order too. -/
theorem phase_of_append {ms ms' : List Callback} (h : phase (ms ++ ms') ≠ .broken) : phase ms ≠ .broken := by
  intro hb
  rw [phase_append, hb, foldl_broken] at h
  exact h rfl

theorem Phase.next_ne_fresh (p : Phase) (m : Callback) : p.next m ≠ .fresh := by
  cases p <;> cases m <;> simp [Phase.next]

theorem phase_eq_fresh {ms : List Callback} : phase ms = .fresh ↔ ms = [] := by
  refine ⟨fun h => ?_, fun h => h ▸ rfl⟩
  cases ms using List.reverseRecOn with
  | nil => rfl
  | append_singleton ms m =>
    rw [phase_concat] at h
    exact absurd h (Phase.next_ne_fresh _ _)

/-- The callbacks that have certainly been sent, and those that have certainly not. -/
structure Phase.Sent (p : Phase) (ms : List Callback) : Prop where
  replyInit : p ≠ .fresh → .replyInit ∈ ms
  factory : (p = .leaving ∨ p = .closed true) ↔ .onFactoryDestory ∈ ms
  destroy : (∃ b, p = .closed b) ↔ .replyDestroy ∈ ms

theorem phase_sent {ms : List Callback} (h : phase ms ≠ .broken) : (phase ms).Sent ms := by
  induction ms using List.reverseRecOn with
  | nil => exact ⟨fun h => absurd rfl h, by simp, by simp⟩
  | append_singleton ms m ih =>
    obtain ⟨hi, hf, hd⟩ := ih (phase_of_append h)
    rw [phase_concat] at h ⊢
    cases hp : phase ms <;> rw [hp] at h hi hf hd <;> cases m <;> simp_all [Phase.next] <;>
      constructor <;> simp_all

/-- A host is told everything in order: Init first, nothing but repeated OnDestroy after
OnDestroy, and OnDestroy right after OnFactoryDestory. -/
structure InOrder (ms : List Callback) : Prop where
  initFirst : ∀ m rest, ms = m :: rest → m = .replyInit ∧ .replyInit ∉ rest
  destroyLast : ∀ pre post, ms = pre ++ .replyDestroy :: post → ∀ m ∈ post, m = .replyDestroy
  factoryOnce : ms.count .onFactoryDestory ≤ 1
  factoryThenDestroy : ∀ pre m post, ms = pre ++ .onFactoryDestory :: m :: post → m = .replyDestroy

theorem closed_suffix {b : Bool} {ms : List Callback} (h : ms.foldl Phase.next (.closed b) ≠ .broken) :
    ∀ m ∈ ms, m = .replyDestroy := by
  induction ms with
  | nil => simp
  | cons m ms ih =>
    cases m with
    | replyDestroy => simpa using ih h
    | replyInit | onDataProduced | onFactoryDestory => exact absurd (foldl_broken ms) h

theorem leaving_suffix {ms : List Callback} (h : ms.foldl Phase.next .leaving ≠ .broken) :
    ∀ m ∈ ms, m = .replyDestroy := by
  cases ms with
  | nil => simp
  | cons m ms =>
    cases m with
    | replyDestroy => simpa using closed_suffix h
    | replyInit | onDataProduced | onFactoryDestory => exact absurd (foldl_broken ms) h

theorem opened_suffix {ms : List Callback} (h : ms.foldl Phase.next .opened ≠ .broken) :
    .replyInit ∉ ms := by
  induction ms with
  | nil => simp
  | cons m ms ih =>
    cases m with
    | replyInit => exact absurd (foldl_broken ms) h
    | onDataProduced data => simpa using ih h
    | onFactoryDestory => simpa using fun hm => nomatch leaving_suffix h _ hm
    | replyDestroy => simpa using fun hm => nomatch closed_suffix h _ hm

/-- A word of the automaton is in order. -/
theorem inOrder_of_phase {ms : List Callback} (h : phase ms ≠ .broken) : InOrder ms := by
  have hleaving : ∀ pre post, ms = pre ++ .onFactoryDestory :: post → ∀ m ∈ post, m = .replyDestroy := by
    rintro pre post rfl
    rw [phase_append, List.foldl_cons] at h
    cases hp : phase pre <;> rw [hp] at h
    case opened => exact leaving_suffix h
    all_goals exact absurd (foldl_broken post) h
  refine ⟨?_, ?_, ?_, ?_⟩
  · rintro m rest rfl
    cases m with
    | replyInit => exact ⟨rfl, opened_suffix h⟩
    | onDataProduced | onFactoryDestory | replyDestroy => exact absurd (foldl_broken rest) h
  · rintro pre post rfl
    rw [phase_append, List.foldl_cons] at h
    cases hp : phase pre <;> rw [hp] at h
    case opened | leaving | closed => exact closed_suffix h
    all_goals exact absurd (foldl_broken post) h
  · by_cases hm : .onFactoryDestory ∈ ms
    · obtain ⟨pre, post, hms, hpre⟩ := List.eq_append_cons_of_mem hm
      have hpost : .onFactoryDestory ∉ post := fun hm => nomatch hleaving pre post hms _ hm
      rw [hms, List.count_append, List.count_cons_self, List.count_eq_zero_of_not_mem hpre,
        List.count_eq_zero_of_not_mem hpost]
    · rw [List.count_eq_zero_of_not_mem hm]
      exact Nat.zero_le 1
  · intro pre m post hms
    exact hleaving pre (m :: post) hms m List.mem_cons_self

def World.stubOf (w : World) (h : HostId) : Option StubId := (w.host h).bind FactoryHost.stub

/-- Where the conversation is while the factory thread does nothing about the host. -/
def Settled : Option StubId → Bool → Phase → Prop
  | some _, _, p => p = .opened
  | none, true, p => ∃ b, p = .closed b
  | none, false, p => p = .fresh

/-- Where the conversation with host `h` is, given its `stub_` and whether it has attached. -/
def Pc.Expects (h : HostId) (stub : Option StubId) (attached : Bool) (p : Phase) : Pc → Prop
  | .relayReply r =>
    if r = ⟨.init, h⟩ then stub.isSome ∧ p = .fresh
    else if r = ⟨.destroy, h⟩ then stub = none ∧ attached = true ∧ (p = .opened ∨ ∃ b, p = .closed b)
    else Settled stub attached p
  | .leaveDestroy s => if stub = some s then p = .leaving else Settled stub attached p
  | .selfDestroy h' => if h' = h then stub.isSome ∧ p = .leaving else Settled stub attached p
  | .selfReply h' => if h' = h then stub = none ∧ attached = true ∧ p = .leaving
    else Settled stub attached p
  | .idle | .relayTask _ | .stubData _ _ | .leave _ | .leavePost _ | .selfDrop _ => Settled stub attached p

def attached (trace : List Entry) (h : HostId) : Bool := decide (runs trace ⟨.init, h⟩ ≠ 0)

def World.Expects (w : World) (h : HostId) : Prop :=
  w.pc.Expects h (w.stubOf h) (attached w.trace h) (phase (posted w.trace h))

/-- Every conversation is where the factory thread expects it, and only a host that has
attached has ever called Destroy. -/
structure Conversing (w : World) : Prop where
  expects : ∀ h, w.Expects h
  asked : ∀ h, calls w.trace ⟨.destroy, h⟩ ≠ 0 → attached w.trace h = true

theorem conversing_initial : Conversing .initial where
  expects := fun _ => rfl
  asked := fun _ h => absurd rfl h

def Event.destroy? : Event → Option HostId
  | .destroy h => some h
  | _ => none

/-- Destroy is called only when its own check holds. -/
def DestroyChecked (w : World) (e : Event) : Prop :=
  ∀ h ∈ e.destroy?, ∀ o ∈ w.host h, o.init = true ∧ o.destroy = false

/-- One Init call for each host, and Destroy calls that pass their check. -/
def Checked (w : World) (e : Event) : Prop := InitOnce w e ∧ DestroyChecked w e

instance (w : World) (e : Event) : Decidable (DestroyChecked w e) :=
  inferInstanceAs (Decidable (∀ h ∈ e.destroy?, ∀ o ∈ w.host h, _))

instance (w : World) (e : Event) : Decidable (Checked w e) := inferInstanceAs (Decidable (_ ∧ _))

theorem not_broken {h : HostId} {stub : Option StubId} {a : Bool} {p : Phase} {pc : Pc}
    (he : pc.Expects h stub a p) : p ≠ .broken := by
  have hs : Settled stub a p → p ≠ .broken := by
    intro hs
    cases stub <;> cases a <;> simp only [Settled] at hs
    · simp [hs]
    · obtain ⟨b, rfl⟩ := hs; simp
    · simp [hs]
    · simp [hs]
  cases pc <;> simp only [Pc.Expects] at he
  case relayReply r =>
    split at he
    · simp [he.2]
    · split at he
      · obtain ⟨-, -, rfl | ⟨b, rfl⟩⟩ := he <;> simp
      · exact hs he
  case leaveDestroy s =>
    split at he
    · simp [he]
    · exact hs he
  case selfDestroy h' =>
    split at he
    · simp [he.2]
    · exact hs he
  case selfReply h' =>
    split at he
    · simp [he.2.2]
    · exact hs he
  all_goals exact hs he

theorem fresh_of_not_attached {h : HostId} {stub : Option StubId} {p : Phase} {pc : Pc}
    (he : pc.Expects h stub false p) (hs : stub = none) : p = .fresh := by
  subst hs
  cases pc <;> simp only [Pc.Expects] at he
  case relayReply r =>
    split at he
    · exact he.2
    · split at he
      · exact absurd he.2.1 (by simp)
      · exact he
  case leaveDestroy s =>
    have hs : Settled none false p := by simpa using he
    exact hs
  case selfDestroy h' =>
    split at he
    · exact absurd he.1 (by simp)
    · exact he
  case selfReply h' =>
    split at he
    · exact absurd he.2.1 (by simp)
    · exact he
  all_goals exact he

/-- Init and Destroy have been carried out, and the reply is posted. -/
theorem settled_of_reply {h : HostId} {kind : RelayKind} {stub : Option StubId} {a : Bool} {p : Phase}
    (he : (Pc.relayReply ⟨kind, h⟩).Expects h stub a p) : Settled stub a (p.next kind.callback) := by
  cases kind with
  | init =>
    simp only [Pc.Expects, if_true] at he
    obtain ⟨s, hs⟩ := Option.isSome_iff_exists.mp he.1
    rw [hs, he.2]
    rfl
  | destroy =>
    simp only [Pc.Expects, Relay.mk.injEq, reduceCtorEq, false_and, if_false, if_true] at he
    rw [he.1, he.2.1]
    obtain hp | ⟨x, hp⟩ := he.2.2
    · exact ⟨false, by rw [hp]; rfl⟩
    · exact ⟨x, by rw [hp]; rfl⟩

/-- The stub has destroyed itself, and says so. -/
theorem settled_of_selfReply {h : HostId} {stub : Option StubId} {a : Bool} {p : Phase}
    (he : (Pc.selfReply h).Expects h stub a p) : Settled stub a (p.next .replyDestroy) := by
  simp only [Pc.Expects, if_true] at he
  obtain ⟨hstub, hatt, hp⟩ := he
  rw [hstub, hatt, hp]
  exact ⟨true, rfl⟩

variable {c : Config} {w : World}

theorem stubOf_of_stub (hb : Bound w) {s : StubId} {st : FactoryStub} (hs : w.stub s = some st) :
    w.stubOf st.observer = some s := by
  obtain ⟨o, ho, hos⟩ := hb.bound s st hs
  simp [World.stubOf, ho, hos]

theorem stub_of_stubOf (hw : w.Owned) {h : HostId} {s : StubId} (hs : w.stubOf h = some s) :
    ∃ st, w.stub s = some st ∧ st.observer = h := by
  obtain ⟨o, ho, hos⟩ := Option.bind_eq_some_iff.mp hs
  exact hw h o s ho hos

/-- A stub of another host is not the stub this host is attached through. -/
theorem stubOf_ne_of_observer_ne (hw : w.Owned) {h : HostId} {s : StubId} {st : FactoryStub}
    (hst : w.stub s = some st) (hne : st.observer ≠ h) : w.stubOf h ≠ some s := by
  intro hs
  obtain ⟨st', hst', hobs⟩ := stub_of_stubOf hw hs
  obtain rfl := Option.some.inj (hst.symm.trans hst')
  exact hne hobs

theorem stubOf_of_host {h : HostId} {o : FactoryHost} (ho : w.host h = some o) : w.stubOf h = o.stub := by
  simp [World.stubOf, ho]

theorem attached_of_stubOf (hc : Counted c w) (hb : Bound w) {h : HostId} {s : StubId}
    (hs : w.stubOf h = some s) : attached w.trace h = true := by
  obtain ⟨st, hst, rfl⟩ := stub_of_stubOf hc.owned hs
  simpa [attached] using hb.attached s st hst

/-- A host that holds a stub cannot be deleted, so `stub_` fields survive. -/
theorem stubOf_kept {w' : World} (hc : Counted c w) (hc' : Counted c w') (hhost : StubKept w.host w'.host)
    (hstub : ∀ s st, w.stub s = some st → ∃ st', w'.stub s = some st' ∧ st'.observer = st.observer)
    (h : HostId) : w'.stubOf h = w.stubOf h := by
  cases ho' : w'.host h with
  | some o' =>
    obtain ⟨o, ho, hsame⟩ := hhost h o' ho'
    rw [stubOf_of_host ho', stubOf_of_host ho, hsame]
  | none =>
    have hn' : w'.stubOf h = none := by simp [World.stubOf, ho']
    rw [hn']
    cases hs : w.stubOf h with
    | none => rfl
    | some s =>
      obtain ⟨st, hst, rfl⟩ := stub_of_stubOf hc.owned hs
      obtain ⟨st', hst', hobs⟩ := hstub s st hst
      obtain ⟨o, ho⟩ := hc'.alive_of_stub hst'
      rw [hobs, ho'] at ho
      cases ho

theorem stubOf_of_stub_eq {w' : World} (hc : Counted c w) (hc' : Counted c w')
    (hhost : StubKept w.host w'.host) (hstub : w'.stub = w.stub) (h : HostId) : w'.stubOf h = w.stubOf h :=
  stubOf_kept hc hc' hhost (fun _ st hs => ⟨st, hstub ▸ hs, rfl⟩) h

@[simp] theorem attached_append (es es' : List Entry) (h : HostId) :
    attached (es ++ es') h = (attached es h || attached es' h) := by
  simp only [attached, runs_append, ne_eq, Nat.add_eq_zero_iff, not_and_or, Bool.decide_or]

@[simp] theorem attached_cons (e : Entry) (es : List Entry) (h : HostId) :
    attached (e :: es) h = (attached es h || e.isRun ⟨.init, h⟩) := by
  cases he : e.isRun ⟨.init, h⟩ <;> simp [attached, he]

@[simp] theorem attached_nil (h : HostId) : attached [] h = false := rfl

theorem attached_congr {trace trace' : List Entry} {h : HostId}
    (hr : runs trace' ⟨.init, h⟩ = runs trace ⟨.init, h⟩) : attached trace' h = attached trace h := by
  simp [attached, hr]

namespace Conversing

/-- Nothing is posted, and what the factory thread does is not part of any conversation. -/
theorem settle {w' : World} {h : HostId} (hstub : w'.stubOf h = w.stubOf h)
    (hruns : runs w'.trace ⟨.init, h⟩ = runs w.trace ⟨.init, h⟩) (hposted : posted w'.trace h = posted w.trace h)
    (hpc : ∀ stub a p, w.pc.Expects h stub a p → w'.pc.Expects h stub a p) (he : w.Expects h) :
    w'.Expects h := by
  unfold World.Expects at *
  rw [hstub, attached_congr hruns, hposted]
  exact hpc _ _ _ he

theorem quiet {w' : World} (hv : Conversing w) (hq : Quiet w w') : Conversing w' where
  expects := by
    intro h
    refine settle (by simp [World.stubOf, hq.host]) (hq.runs _) (hq.posted h) ?_ (hv.expects h)
    intro stub a p he
    obtain hpc | ⟨hpc, ⟨s, data, hpc'⟩ | ⟨s, hpc'⟩⟩ := hq.pc
    · rwa [hpc]
    · rw [hpc] at he; rw [hpc']; exact he
    · rw [hpc] at he; rw [hpc']; exact he
  asked := by
    intro h hn
    rw [hq.calls] at hn
    rw [attached_congr (hq.runs _)]
    exact hv.asked h hn

/-- A host whose Init has been answered has attached. -/
theorem attached_of_init (hd : Delivered c w) (hrec : Recorded w) (hc : Counted c w) (hb : Bound w)
    (hv : Conversing w) {h : HostId} {o : FactoryHost} (ho : w.host h = some o) (hi : o.init = true) :
    attached w.trace h = true := by
  have hin : .replyInit ∈ handled w.trace h := by
    have := (hrec h o ho).init
    rw [hi] at this
    exact of_decide_eq_true this.symm
  have hpost : posted w.trace h ≠ [] := by
    rw [hd h]
    exact List.append_ne_nil_of_left_ne_nil (List.ne_nil_of_mem hin) _
  by_contra hn
  have hn' : attached w.trace h = false := by simpa using hn
  have he := hv.expects h
  unfold World.Expects at he
  rw [hn'] at he
  refine hpost (phase_eq_fresh.mp (fresh_of_not_attached he ?_))
  cases hs : w.stubOf h with
  | none => rfl
  | some s => exact absurd (attached_of_stubOf hc hb hs) hn

theorem asked_move {w' : World} {e : Event} (hd : Delivered c w) (hrec : Recorded w) (hc : Counted c w)
    (hb : Bound w) (hv : Conversing w) (hchk : DestroyChecked w e) (hm : HostMove c w e w') :
    ∀ h, calls w'.trace ⟨.destroy, h⟩ ≠ 0 → attached w'.trace h = true := by
  intro b hn
  have hkeep : calls w.trace ⟨.destroy, b⟩ ≠ 0 → runs w'.trace ⟨.init, b⟩ = runs w.trace ⟨.init, b⟩ →
      attached w'.trace b = true := by
    intro hn hr
    rw [attached_congr hr]
    exact hv.asked b hn
  cases hm with
  | @destroy h o ho =>
    by_cases hb' : b = h
    · subst hb'
      refine (attached_congr ?_).trans (hv.attached_of_init hd hrec hc hb ho (hchk b rfl o ho).1)
      simp [Entry.isRun]
    · exact hkeep (by simpa [Entry.isCall, hb'] using hn) (by simp [Entry.isRun])
  | @postInit h f fac o =>
    by_cases hb' : b = h
    · subst hb'
      simp [attached, Entry.isRun]
    · exact hkeep (by simpa [Entry.isCall] using hn) (by simp [Entry.isRun, hb'])
  | leave => exact hkeep hn rfl
  | beginRelay | relayDestroyNull | relayDestroyStub | relayReply | forward | hold | leavePost
  | leaveDestroy | selfDestroyNull | selfDestroyStub | selfReply | selfDrop | beginHost | resetTask
  | runReply | deleteRelay | runCall | unbind | init | addRef | dropRef =>
    exact hkeep (by simpa [Entry.isCall] using hn) (by simp [Entry.isRun])

/-- The step is part of the conversation with host `h`; all that the others see is where the
factory thread is. -/
theorem concern {w' : World} {h : HostId} {pc : Pc} (hv : Conversing w) (hpc : w.pc = pc)
    (hstub : ∀ b, b ≠ h → w'.stubOf b = w.stubOf b)
    (hruns : ∀ b, b ≠ h → runs w'.trace ⟨.init, b⟩ = runs w.trace ⟨.init, b⟩)
    (hposted : ∀ b, b ≠ h → posted w'.trace b = posted w.trace b)
    (hothers : ∀ b, b ≠ h → ∀ a p, pc.Expects b (w.stubOf b) a p → w'.pc.Expects b (w.stubOf b) a p)
    (hself : pc.Expects h (w.stubOf h) (attached w.trace h) (phase (posted w.trace h)) → w'.Expects h) :
    ∀ b, w'.Expects b := by
  intro b
  have he := hv.expects b
  rw [World.Expects, hpc] at he
  by_cases hb : b = h
  · subst hb
    exact hself he
  · rw [World.Expects, hstub b hb, attached_congr (hruns b hb), hposted b hb]
    exact hothers b hb _ _ he

/-- A callback is posted to host `h`, whose `stub_` stays as it is. -/
theorem concern_posted {w' : World} {h : HostId} {m : Callback} {pc : Pc} (hv : Conversing w) (hpc : w.pc = pc)
    (hstub : ∀ b, w'.stubOf b = w.stubOf b) (hruns : ∀ b, runs w'.trace ⟨.init, b⟩ = runs w.trace ⟨.init, b⟩)
    (hposted : ∀ b, posted w'.trace b = posted w.trace b ++ if b = h then [m] else [])
    (hothers : ∀ b, b ≠ h → ∀ a p, pc.Expects b (w.stubOf b) a p → w'.pc.Expects b (w.stubOf b) a p)
    (hself : ∀ a p, pc.Expects h (w.stubOf h) a p → w'.pc.Expects h (w.stubOf h) a (p.next m)) :
    ∀ b, w'.Expects b := by
  refine concern hv hpc (fun b _ => hstub b) (fun b _ => hruns b) (fun b hb => ?_) hothers (fun he => ?_)
  · rw [hposted, if_neg hb, List.append_nil]
  · rw [World.Expects, hstub, attached_congr (hruns h), hposted, if_pos rfl, phase_concat]
    exact hself _ _ he

theorem expects_move {w' : World} {e : Event} (hc : Counted c w) (hr : Relayed w) (hl : Listed w)
    (hb : Bound w) (hv : Conversing w) (hm : HostMove c w e w') : ∀ h, w'.Expects h := by
  have hc' := hc.hostMove hm
  cases hm with
  | beginRelay hidle =>
    exact fun b => settle (stubOf_of_stub_eq hc hc' (.refl _) rfl b) rfl rfl
      (by rw [hidle.1]; exact fun _ _ _ => id) (hv.expects b)
  | hold hpc hst =>
    exact fun b => settle (stubOf_kept hc hc' (.refl _) (stub_observer_of_update hst (by simp)) b)
      (by simp [Entry.isRun]) (by simp [Entry.posted?]) (by rw [hpc]; exact fun _ _ _ => id) (hv.expects b)
  | @leave s st f fac time script hpc hst hf hfac =>
    have hobs : ({ st with factory := none } : FactoryStub).observer = st.observer := rfl
    refine fun b => settle (stubOf_kept hc hc' (.refl _) (stub_observer_of_update hst hobs) b) rfl rfl ?_ (hv.expects b)
    rw [hpc]
    exact fun _ _ _ => id
  | selfDrop hpc ho =>
    exact fun b => settle (stubOf_of_stub_eq hc hc' (stubKept_update ho (FactoryHost.released_stub _)) rfl b)
      (by simp) (by simp) (by rw [hpc]; exact fun _ _ _ => id) (hv.expects b)
  | @postInit h f fac o time script hpc hf hfac ho =>
    refine concern (h := h) hv hpc (fun b hb => by simp [World.stubOf, hb]) (fun b hb => by simp [Entry.isRun, hb])
      (fun b _ => by simp [Entry.posted?]) (fun b hb a p he => ?_) (fun he => ?_)
    · simpa [Pc.Expects, Ne.symm hb] using he
    · have hruns := hb.runs_eq_zero hr hpc
      rw [stubOf_of_host ho, hb.stub_eq_none hc hruns ho, show attached w.trace h = false by simp [attached, hruns]] at he
      have hp : phase (posted w.trace h) = .fresh := he
      simp [World.Expects, Pc.Expects, World.stubOf, Entry.posted?, hp]
  | @relayDestroyNull h o time script hpc ho hs =>
    refine concern (h := h) hv hpc (fun _ _ => rfl) (fun b _ => by simp [Entry.isRun])
      (fun b _ => by simp [Entry.posted?]) (fun b hb a p he => ?_) (fun he => ?_)
    · simpa [Pc.Expects, Ne.symm hb] using he
    · have hnone : w.stubOf h = none := by rw [stubOf_of_host ho, hs]
      have hatt : attached w.trace h = true := by
        refine hv.asked h ?_
        have := hr ⟨.destroy, h⟩
        simp only [hpc, Pc.relayTasks, if_true] at this
        omega
      rw [hnone, hatt] at he
      have hp : ∃ x, phase (posted w.trace h) = .closed x := he
      unfold World.Expects
      simp only [Pc.Expects, Relay.mk.injEq, reduceCtorEq, and_true, if_false, if_true, posted_append,
        posted_cons, posted_nil, Entry.posted?]
      exact ⟨hnone, (attached_congr (by simp [Entry.isRun])).trans hatt, .inr (by simpa using hp)⟩
  | @relayDestroyStub h o s st time script hpc ho hs hst hobs =>
    refine concern (h := h) hv hpc (fun b hb => by simp [World.stubOf, hb]) (fun b _ => by simp [Entry.isRun])
      (fun b _ => by simp [Entry.posted?]) (fun b hb a p he => ?_) (fun he => ?_)
    · simpa [Pc.Expects, Ne.symm hb] using he
    · have hsome : w.stubOf h = some s := by rw [stubOf_of_host ho, hs]
      have hatt := attached_of_stubOf hc hb hsome
      rw [hsome] at he
      have hp : phase (posted w.trace h) = .opened := he
      simp [World.Expects, Pc.Expects, World.stubOf, hatt, Entry.posted?, Entry.isRun, hp]
  | @relayReply r time script hpc =>
    obtain ⟨kind, h⟩ := r
    refine concern_posted (h := h) (m := kind.callback) hv hpc (fun _ => rfl) (fun b => by simp [Entry.isRun])
      (fun b => ?_) (fun b hb a p he => ?_) (fun a p he => ?_)
    · simp [posted?_posted]
    · simpa [Pc.Expects, Ne.symm hb] using he
    · exact settled_of_reply he
  | @forward s data st o time script hpc hst hfwd ho =>
    have hstub := stubOf_kept hc hc' (stubKept_update ho (by simp)) (stub_observer_of_update hst (by simp))
    refine concern_posted (h := st.observer) (m := .onDataProduced data) hv hpc hstub (fun b => by simp [Entry.isRun])
      (fun b => ?_) (fun b hb a p he => he) (fun a p he => ?_)
    · simp only [posted_append, posted_cons, posted_nil, posted?_posted, List.append_nil]
      simp [Entry.posted?]
    · rw [stubOf_of_stub hb hst] at he ⊢
      have hp : p = .opened := he
      rw [hp]
      rfl
  | @leavePost s st o time script hpc hst ho =>
    have hstub := stubOf_of_stub_eq hc hc' (stubKept_update ho (by simp)) rfl
    refine concern_posted (h := st.observer) (m := .onFactoryDestory) hv hpc hstub (fun b => by simp [Entry.isRun])
      (fun b => ?_) (fun b hb a p he => ?_) (fun a p he => ?_)
    · simp [posted?_posted]
    · simpa [Pc.Expects, stubOf_ne_of_observer_ne hc.owned hst (Ne.symm hb)] using he
    · rw [stubOf_of_stub hb hst] at he ⊢
      have hp : p = .opened := he
      simp [Pc.Expects, hp, Phase.next]
  | @leaveDestroy s st o time script hpc hst ho =>
    have hstub := stubOf_of_stub_eq hc hc' (stubKept_update ho (by simp)) rfl
    refine concern (h := st.observer) hv hpc (fun b _ => hstub b) (fun _ _ => rfl) (fun _ _ => rfl)
      (fun b hb a p he => ?_) (fun he => ?_)
    · simpa [Pc.Expects, Ne.symm hb, stubOf_ne_of_observer_ne hc.owned hst (Ne.symm hb)] using he
    · unfold World.Expects
      rw [hstub]
      rw [stubOf_of_stub hb hst] at he ⊢
      simp only [Pc.Expects, if_true] at he ⊢
      exact ⟨rfl, he⟩
  | @selfDestroyNull h o time script hpc ho hs =>
    have hplaced := hl.placed
    rw [hpc] at hplaced
    obtain ⟨s, st, hst, rfl, -⟩ := hplaced
    exact absurd (hb.stub_eq hst ho) (by simp [hs])
  | @selfDestroyStub h o s st time script hpc ho hs hst hobs =>
    refine concern (h := h) hv hpc (fun b hb => by simp [World.stubOf, hb]) (fun b _ => by simp [Entry.isRun])
      (fun b _ => by simp [Entry.posted?]) (fun b hb a p he => ?_) (fun he => ?_)
    · simpa [Pc.Expects, Ne.symm hb] using he
    · have hatt := attached_of_stubOf hc hb ((stubOf_of_host ho).trans hs)
      simp only [Pc.Expects, if_true] at he
      simp [World.Expects, Pc.Expects, World.stubOf, hatt, Entry.posted?, Entry.isRun, he.2]
  | @selfReply h o time script hpc ho =>
    have hstub := stubOf_of_stub_eq hc hc' (stubKept_update ho (by simp)) rfl
    refine concern_posted (h := h) (m := .replyDestroy) hv hpc hstub (fun b => by simp [Entry.isRun])
      (fun b => ?_) (fun b hb a p he => ?_) (fun a p he => ?_)
    · simp [posted?_posted]
    · simpa [Pc.Expects, Ne.symm hb] using he
    · exact settled_of_selfReply he
  | beginHost => exact fun b => settle rfl rfl rfl (fun _ _ _ => id) (hv.expects b)
  | resetTask _ ho | deleteRelay _ ho | unbind _ ho | dropRef _ ho =>
    exact fun b => settle (stubOf_of_stub_eq hc hc' (stubKept_update ho (FactoryHost.released_stub _)) rfl b)
      (by simp) (by simp) (fun _ _ _ => id) (hv.expects b)
  | runReply _ ho | runCall _ ho | addRef _ ho =>
    exact fun b => settle (stubOf_of_stub_eq hc hc' (stubKept_update ho (by simp)) rfl b)
      (by simp [Entry.isRun]) (by simp [Entry.posted?]) (fun _ _ _ => id) (hv.expects b)
  | init ho | destroy ho =>
    exact fun b => settle (stubOf_of_stub_eq hc hc' (stubKept_update ho (by simp)) rfl b)
      (by simp [Entry.isRun]) (by simp [Entry.posted?]) (fun _ _ _ => id) (hv.expects b)

end Conversing

/-- All that is known of the states that checked callers reach. -/
structure Sound (c : Config) (w : World) : Prop where
  counted : Counted c w
  delivered : Delivered c w
  recorded : Recorded w
  relayed : Relayed w
  listed : Listed w
  bound : Bound w
  conversing : Conversing w

/-- A run of checked callers is a sequence of moves between sound states. -/
theorem sound_of_reaches {P : World → Event → Prop} (hP : ∀ w e, P w e → Checked w e)
    (hr : GuardedRun.Reaches (step c) P .initial w) : Sound c w := by
  have hbound : ∀ {t}, GuardedRun.Reaches (step c) P .initial t → Bound t :=
    fun ht => bound_of_reaches (fun w e hp => (hP w e hp).1) ht
  refine ⟨counted_of_reaches hr, delivered_of_reaches hr, recorded_of_reaches hr, relayed_of_reaches hr,
    listed_of_reaches hr, hbound hr, ?_⟩
  refine GuardedRun.Reaches.invariant_of (K := GuardedRun.Reaches (step c) P .initial) (fun _ => id) ?_
    conversing_initial hr
  intro t e u ht hv hp he _
  have hc := counted_of_reaches ht
  obtain hm | hm := step_cases hc.owned he
  · exact ⟨hv.expects_move hc (relayed_of_reaches ht) (listed_of_reaches ht) (hbound ht) hm,
      hv.asked_move (delivered_of_reaches ht) (recorded_of_reaches ht) hc (hbound ht) (hP t e hp).2 hm⟩
  · exact hv.quiet hm.quiet

/-- An invariant of checked runs, from what each move preserves between sound states. -/
theorem invariant_of_moves {P : World → Event → Prop} (hP : ∀ w e, P w e → Checked w e) {I : World → Prop}
    (hhost : ∀ w e w', Sound c w → Sound c w' → I w → P w e → HostMove c w e w' → I w')
    (hfactory : ∀ w e w', Sound c w → Sound c w' → I w → P w e → FactoryMove w e w' → I w')
    (hinit : I .initial) (hr : GuardedRun.Reaches (step c) P .initial w) : I w := by
  refine GuardedRun.Reaches.invariant_of (K := Sound c) (fun t ht => sound_of_reaches hP ht) ?_ hinit hr
  intro t e u hs hi hp he hs'
  obtain hm | hm := step_cases hs.counted.owned he
  · exact hhost t e u hs hs' hi hp hm
  · exact hfactory t e u hs hs' hi hp hm

/-- The callbacks sent to a host are a word of the automaton, those it has run a prefix of it. -/
theorem Sound.posted_phase (hs : Sound c w) (h : HostId) : phase (posted w.trace h) ≠ .broken :=
  not_broken (hs.conversing.expects h)

theorem Sound.handled_phase (hs : Sound c w) (h : HostId) : phase (handled w.trace h) ≠ .broken := by
  have hp := hs.posted_phase h
  rw [hs.delivered h] at hp
  exact phase_of_append hp

end OscDataProcess
