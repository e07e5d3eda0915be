import OscDataProcess.Teardown

/-!
# The checks of Init and Destroy

The flags the two checks read are set by the replies. A host that waits for the
reply before it calls again is protected by them: it attaches once and detaches
once. A host that does not wait gets past both checks.
-/
namespace OscDataProcess

open Function (update)
open World

variable {c : Config} {w : World}

/-- Init is called only when its own check holds. -/
def InitChecked (w : World) (e : Event) : Prop := ∀ h ∈ e.init?, ∀ o ∈ w.host h, o.init = false

def Event.calls : Event → List Call
  | .post cs => cs
  | .run _ script => script
  | _ => []

/-- Both calls pass their checks, and nobody asks for the Factory to be destroyed. -/
def Guarded (w : World) (e : Event) : Prop :=
  InitChecked w e ∧ DestroyChecked w e ∧ .destroy ∉ e.calls

/-- No earlier call of the same kind still waits for its reply. -/
def Answered (w : World) (e : Event) : Prop :=
  ∀ r ∈ e.call?, calls w.trace r = (handled w.trace r.host).count r.kind.callback

def GuardedAnswered (w : World) (e : Event) : Prop := Guarded w e ∧ Answered w e

instance (w : World) (e : Event) : Decidable (InitChecked w e) :=
  inferInstanceAs (Decidable (∀ h ∈ e.init?, ∀ o ∈ w.host h, _))

instance (w : World) (e : Event) : Decidable (Answered w e) :=
  inferInstanceAs (Decidable (∀ r ∈ e.call?, _))

instance (w : World) (e : Event) : Decidable (Guarded w e) := inferInstanceAs (Decidable (_ ∧ _ ∧ _))

instance (w : World) (e : Event) : Decidable (GuardedAnswered w e) := inferInstanceAs (Decidable (_ ∧ _))

def Entry.detaches (h : HostId) : Entry → Bool
  | .detached h' _ => decide (h' = h)
  | _ => false

/-- How many stubs of host `h` have been deleted. -/
def detachments (trace : List Entry) (h : HostId) : Nat := trace.countP (Entry.detaches h)

/-- What the two checks are for. -/
structure GuardsSound (w : World) : Prop where
  initFindsNull : ∀ h o, w.pc = .relayTask ⟨.init, h⟩ → w.host h = some o → o.stub = none
  destroyFindsStub : ∀ h o, w.pc = .relayTask ⟨.destroy, h⟩ ∨ w.pc = .selfDestroy h →
    w.host h = some o → o.stub ≠ none
  createdOnce : ∀ h, runs w.trace ⟨.init, h⟩ ≤ 1
  deletedOnce : ∀ h, detachments w.trace h ≤ 1
  noLeak : ∀ s st, w.stub s = some st → ∃ o, w.host st.observer = some o ∧ o.stub = some s

@[simp] theorem detachments_append (es es' : List Entry) (h : HostId) :
    detachments (es ++ es') h = detachments es h + detachments es' h := List.countP_append

@[simp] theorem detachments_cons (e : Entry) (es : List Entry) (h : HostId) :
    detachments (e :: es) h = detachments es h + if e.detaches h then 1 else 0 := List.countP_cons

@[simp] theorem detachments_nil (h : HostId) : detachments [] h = 0 := rfl

@[simp] theorem detachments_deletion (o : FactoryHost) (h b : HostId) : detachments (o.deletion h) b = 0 := by
  unfold FactoryHost.deletion
  split <;> rfl

/-- Every stub that was ever created is alive or has been deleted, once. -/
def Balanced (w : World) : Prop :=
  ∀ h, detachments w.trace h + (stubsOf w.stub w.freshStub h).card = runs w.trace ⟨.init, h⟩

theorem Balanced.hostMove {w' : World} {e : Event} (hc : Counted c w) (hb : Balanced w)
    (hm : HostMove c w e w') : Balanced w' := by
  intro b
  have hx := hb b
  cases hm with
  | @postInit h f fac o =>
    have hcr := stubsOf_create w.stub w.freshStub ⟨h, some f, (c.freq h).map (⟨·, 0⟩)⟩ b
    simp only [hcr, detachments_append, detachments_cons, detachments_nil, runs_append, runs_cons, runs_nil,
      Entry.detaches, Entry.isRun, Relay.mk.injEq, true_and, decide_eq_true_eq, eq_comm (a := b)]
    simp only [Bool.false_eq_true, if_false]
    omega
  | @relayDestroyStub h o s st time script hpc ho hs hst hobs =>
    have hdel := stubsOf_delete hst (hc.stubBound s st hst) b
    rw [hobs] at hdel
    simp only [detachments_append, detachments_cons, detachments_nil, runs_append, runs_cons, runs_nil,
      Entry.detaches, Entry.isRun, decide_eq_true_eq]
    simp only [Relay.mk.injEq, reduceCtorEq, false_and, Bool.false_eq_true, if_false]
    omega
  | @selfDestroyStub h o s st time script hpc ho hs hst hobs =>
    have hdel := stubsOf_delete hst (hc.stubBound s st hst) b
    rw [hobs] at hdel
    simp only [detachments_append, detachments_cons, detachments_nil, runs_append, runs_cons, runs_nil,
      Entry.detaches, Entry.isRun, decide_eq_true_eq]
    simp only [Bool.false_eq_true, if_false]
    omega
  | @forward s data st o time script hpc hst =>
    have hrep := stubsOf_replace w.freshStub _ hst (st.onDataProduced_observer time) b
    simpa [Entry.detaches, Entry.isRun, hrep] using hx
  | @hold s data st time script hpc hst =>
    have hrep := stubsOf_replace w.freshStub _ hst (st.onDataProduced_observer time) b
    simpa [Entry.detaches, Entry.isRun, hrep] using hx
  | @leave s st f fac time script hpc hst =>
    have hrep := stubsOf_replace w.freshStub { st with factory := none } hst rfl b
    rw [← hrep] at hx
    exact hx
  | beginRelay | relayDestroyNull | relayReply | leavePost | leaveDestroy | selfDestroyNull | selfReply
  | selfDrop | beginHost | resetTask | runReply | deleteRelay | runCall | unbind | init | destroy
  | addRef | dropRef => simpa [Entry.detaches, Entry.isRun] using hx

theorem balanced_of_reaches {P : World → Event → Prop} (hr : GuardedRun.Reaches (step c) P .initial w) :
    Balanced w := by
  refine moves_of_reaches (fun _ _ _ hc hb _ hm => hb.hostMove hc hm) ?_ (fun _ => rfl) hr
  intro w e w' _ hb _ hm h
  have hq := hm.quiet
  obtain ⟨es, htr, hes⟩ := hq.trace
  have hz : detachments es h = 0 := List.countP_eq_zero.mpr fun e he => by
    have := hes e he
    cases e <;> simp_all [Entry.IsFactory, Entry.detaches]
  rw [hq.runs, hq.stub, hq.freshStub, htr, detachments_append, hz, Nat.add_zero]
  exact hb h

/-- A frame or task that will not destroy the Factory. -/
def Frame.Keeps : Frame → Prop
  | .calls cs => .destroy ∉ cs
  | .notify k _ _ => k = .produced
  | .destroyed _ => False
  | .schedule _ | .produce _ | .produced => True

def FactoryTask.Keeps : FactoryTask → Prop
  | .calls cs => .destroy ∉ cs
  | .relay _ | .schedule _ => True

/-- No stub is about to leave or leaving. -/
def Pc.Keeps : Pc → Prop
  | .leave _ | .leavePost _ | .leaveDestroy _ | .selfDestroy _ | .selfReply _ | .selfDrop _ => False
  | .idle | .relayTask _ | .relayReply _ | .stubData _ _ => True

/-- The Factory is not being destroyed and nobody waits to do so. -/
structure FactoryKept (w : World) : Prop where
  frames : ∀ fr ∈ w.frames, fr.Keeps
  tasks : ∀ t ∈ w.tasks, t.Keeps
  pc : w.pc.Keeps

theorem FactoryKept.factoryMove {w' : World} {e : Event} (hk : FactoryKept w) (he : .destroy ∉ e.calls)
    (hm : FactoryMove w e w') : FactoryKept w' := by
  obtain ⟨hfr, hts, hpc⟩ := hk
  have hadd : ∀ {t : FactoryTask}, t.Keeps → ∀ x ∈ w.tasks ++ [t], x.Keeps := by
    intro t ht x hx
    obtain hx | hx := List.mem_append.mp hx
    · exact hts x hx
    · exact List.mem_singleton.mp hx ▸ ht
  have hrest : ∀ {fr rest}, w.frames = fr :: rest → ∀ x ∈ rest, x.Keeps :=
    fun hw x hx => hfr x (hw ▸ List.mem_cons_of_mem _ hx)
  have htop : ∀ {fr rest}, w.frames = fr :: rest → fr.Keeps := fun hw => hfr _ (hw ▸ List.mem_cons_self)
  have hpush : ∀ {fr : Frame} {rest : List Frame}, fr.Keeps → (∀ x ∈ rest, x.Keeps) → ∀ x ∈ fr :: rest, x.Keeps :=
    fun h₁ h₂ x hx => (List.mem_cons.mp hx).elim (fun hx => hx ▸ h₁) (h₂ x)
  have htail : ∀ {k : Call} {ks : List Call} {rest : List Frame}, w.frames = .calls (k :: ks) :: rest →
      ∀ x ∈ (.calls ks :: rest : List Frame), x.Keeps :=
    fun hw => hpush (fun hx => htop hw (List.mem_cons_of_mem _ hx)) (hrest hw)
  cases hm with
  | post => exact ⟨hfr, hadd he, hpc⟩
  | tick => exact ⟨hfr, hts, hpc⟩
  | @beginCalls cs ts hidle hw =>
    have hcs : .destroy ∉ cs := hts (.calls cs) (hw ▸ List.mem_cons_self)
    exact ⟨hpush hcs (by simp), fun t ht => hts t (hw ▸ List.mem_cons_of_mem _ ht), hpc⟩
  | beginSchedule hidle hw =>
    refine ⟨?_, fun t ht => hts t (hw ▸ List.mem_cons_of_mem _ ht), hpc⟩
    simp only
    split
    · exact hpush trivial (by simp)
    · simp
  | beginDelayed hidle =>
    refine ⟨?_, hts, hpc⟩
    simp only
    split
    · exact hpush trivial (by simp)
    · simp
  | callsDone _ hw => exact ⟨hrest hw, hts, hpc⟩
  | skip _ hw | create _ hw => exact ⟨htail hw, hts, hpc⟩
  | start _ hw => exact ⟨htail hw, hadd trivial, hpc⟩
  | stop _ hw | addObserver _ hw | removeObserver _ hw => exact ⟨htail hw, hts, hpc⟩
  | destroyBegin _ hw => exact absurd List.mem_cons_self (htop hw)
  | scheduleStopped _ hw => exact ⟨hrest hw, hts, hpc⟩
  | scheduleNow _ hw => exact ⟨hpush trivial (hrest hw), hadd trivial, hpc⟩
  | scheduleLater _ hw => exact ⟨hpush trivial (hrest hw), hts, hpc⟩
  | @produce f fac rest time script _ hw =>
    refine ⟨?_, hts, hpc⟩
    obtain hs | ⟨-, hs⟩ := startNotify_cases .produced f { fac with data := .make w.dataId }
    · rw [hs]
      exact hpush rfl (hpush trivial (hrest hw))
    · rw [hs]
      exact hpush trivial (hrest hw)
  | notifyDead _ hw | notifyEnd _ hw => exact ⟨hrest hw, hts, hpc⟩
  | @notifyPlain k f fac p i next rest time script _ hw =>
    have hk : k = .produced := htop hw
    exact ⟨hpush he (hpush hk (hrest hw)), hts, hpc⟩
  | notifyProduced _ hw => exact ⟨hpush rfl (hrest hw), hts, trivial⟩
  | notifyDestroyed _ hw => exact absurd (htop hw) (by simp [Frame.Keeps])
  | produced _ hw => exact ⟨hrest hw, hts, hpc⟩
  | destroyed _ hw => exact absurd (htop hw) id

theorem FactoryKept.hostMove {w' : World} {e : Event} (hk : FactoryKept w) (hm : HostMove c w e w') :
    FactoryKept w' := by
  obtain ⟨hfr, hts, hpc⟩ := hk
  have hadd : ∀ {r : Relay}, ∀ x ∈ w.tasks ++ [.relay r], x.Keeps := by
    intro r x hx
    obtain hx | hx := List.mem_append.mp hx
    · exact hts x hx
    · exact List.mem_singleton.mp hx ▸ trivial
  cases hm with
  | beginRelay hidle hw => exact ⟨hfr, fun t ht => hts t (hw ▸ List.mem_cons_of_mem _ ht), trivial⟩
  | postInit | relayDestroyNull | relayDestroyStub | relayReply | forward | hold => exact ⟨hfr, hts, trivial⟩
  | leave hw | leavePost hw | leaveDestroy hw | selfDestroyNull hw | selfDestroyStub hw | selfReply hw
  | selfDrop hw => rw [hw] at hpc; exact absurd hpc id
  | beginHost | resetTask | runReply | deleteRelay | runCall | unbind | addRef | dropRef =>
    exact ⟨hfr, hts, hpc⟩
  | init | destroy => exact ⟨hfr, hadd, hpc⟩

/-- While the Factory is kept a host stays registered until its PostDestroy. -/
structure StaysRegistered (w : World) : Prop where
  kept : FactoryKept w
  registered : ∀ h, attached w.trace h = true → runs w.trace ⟨.destroy, h⟩ = 0 → w.registered h = true

theorem StaysRegistered.hostMove {w' : World} {e : Event} (hs : Sound c w) (hs' : Sound c w')
    (hr : StaysRegistered w) (hm : HostMove c w e w') : StaysRegistered w' := by
  refine ⟨hr.kept.hostMove hm, ?_⟩
  have hkeep : (∀ h, attached w'.trace h = attached w.trace h) →
      (∀ h, runs w'.trace ⟨.destroy, h⟩ = 0 → runs w.trace ⟨.destroy, h⟩ = 0) →
      (∀ h, w'.registered h = w.registered h) → ∀ h, attached w'.trace h = true →
      runs w'.trace ⟨.destroy, h⟩ = 0 → w'.registered h = true := by
    intro ha hd hreg h h₁ h₂
    rw [hreg]
    exact hr.registered h (ha h ▸ h₁) (hd h h₂)
  have hpc := hr.kept.pc
  cases hm with
  | @postInit h f fac o time script hw hg hfac ho =>
    intro b hatt hd
    by_cases hb : b = h
    · subst hb
      exact registered_iff.mpr ⟨w.freshStub, _, f, by simp [World.stubOf], Function.update_self .., rfl⟩
    · have hreg := hr.registered b (by simpa [Entry.isRun, hb] using hatt) (by simpa [Entry.isRun] using hd)
      obtain ⟨x, sx, f', hx, hsx, hf'⟩ := registered_iff.mp hreg
      have hxs : x ≠ w.freshStub := (hs.counted.stubBound x sx hsx).ne
      exact registered_iff.mpr ⟨x, sx, f', by simpa [World.stubOf, hb] using hx, by simpa [hxs] using hsx, hf'⟩
  | @relayDestroyStub h o s st time script hw ho hsome hst hobs =>
    intro b hatt hd
    by_cases hb : b = h
    · subst hb
      simp [Entry.isRun] at hd
    · refine registered_other hs hst rfl (by rw [hobs]; exact Ne.symm hb) (by simp [World.stubOf, hb])
        (hr.registered b (by simpa [Entry.isRun] using hatt) ?_)
      simpa [Entry.isRun, hb] using hd
  | relayDestroyNull =>
    refine hkeep (fun h => by simp [Entry.isRun]) (fun h hd => ?_) (fun _ => rfl)
    simp only [runs_append] at hd
    omega
  | @forward s data st o time script hw hst hfwd ho =>
    refine hkeep (fun h => by simp [Entry.isRun]) (fun h hd => by simpa [Entry.isRun] using hd)
      (registered_kept hs hs' (stubKept_update ho (by simp)) (stub_observer_of_update hst (by simp)) (fun x => ?_))
    by_cases he : x = s
    · subst he; simp [hst]
    · simp [he]
  | @hold s data st time script hw hst =>
    refine hkeep (fun h => by simp [Entry.isRun]) (fun h hd => by simpa [Entry.isRun] using hd)
      (registered_kept hs hs' (.refl _) (stub_observer_of_update hst (by simp)) (fun x => ?_))
    by_cases he : x = s
    · subst he; simp [hst]
    · simp [he]
  | leave hw | leavePost hw | leaveDestroy hw | selfDestroyNull hw | selfDestroyStub hw | selfReply hw
  | selfDrop hw => rw [hw] at hpc; exact absurd hpc id
  | beginRelay | beginHost => exact hkeep (fun _ => rfl) (fun _ => id) (fun _ => rfl)
  | relayReply =>
    exact hkeep (fun h => by simp [Entry.isRun]) (fun h hd => by simpa [Entry.isRun] using hd) (fun _ => rfl)
  | addRef _ ho =>
    exact hkeep (fun _ => rfl) (fun _ => id) (registered_of_stub_eq hs hs' (stubKept_update ho (by simp)) rfl)
  | @resetTask t r o _ ho | @deleteRelay t r o _ ho | @unbind t r o _ ho | @dropRef r o _ ho =>
    exact hkeep (fun h => by simp [attached]) (fun h hd => by simpa using hd)
      (registered_of_stub_eq hs hs' (stubKept_update ho o.released_stub) rfl)
  | runReply _ ho | runCall _ ho =>
    exact hkeep (fun h => by simp [Entry.isRun]) (fun h hd => by simpa [Entry.isRun] using hd)
      (registered_of_stub_eq hs hs' (stubKept_update ho (by simp)) rfl)
  | init ho | destroy ho =>
    exact hkeep (fun h => by simp [Entry.isRun]) (fun h hd => by simpa [Entry.isRun] using hd)
      (registered_of_stub_eq hs hs' (stubKept_update ho (by simp)) rfl)

/-- A checked call that finds its predecessors answered is the first of its kind. -/
theorem oneTeardown_of_answered (hrec : Recorded w) {e : Event} {w' : World} (hp : GuardedAnswered w e)
    (he : step c w e = some w') : OneTeardown w e := by
  obtain ⟨⟨hi, hd, -⟩, hans⟩ := hp
  refine ⟨⟨?_, hd⟩, ?_⟩
  · intro h hh hm
    cases e with
    | init b =>
      obtain rfl : b = h := by simpa [Event.init?] using hh
      obtain ⟨o, ho, -⟩ := postRelay_eq_some.mp he
      have hinit := (hrec b o ho).init
      rw [hi b rfl o ho] at hinit
      have hz := hans ⟨.init, b⟩ rfl
      rw [show (handled w.trace b).count RelayKind.init.callback = 0 from
        List.count_eq_zero_of_not_mem (of_decide_eq_false hinit.symm)] at hz
      have := List.countP_eq_zero.mp hz _ hm
      simp [Entry.isCall] at this
    | _ => cases hh
  · intro h hh hm
    cases e with
    | destroy b =>
      obtain rfl : b = h := by simpa [Event.destroy?] using hh
      obtain ⟨o, ho, -⟩ := postRelay_eq_some.mp he
      have hdes := (hrec b o ho).destroy
      rw [(hd b rfl o ho).2] at hdes
      have hz := hans ⟨.destroy, b⟩ rfl
      rw [show (handled w.trace b).count RelayKind.destroy.callback = 0 from
        List.count_eq_zero_of_not_mem (of_decide_eq_false hdes.symm)] at hz
      have := List.countP_eq_zero.mp hz _ hm
      simp [Entry.isCall] at this
    | _ => cases hh

/-- One call of each kind, and the Factory is not destroyed. -/
def OnceKept (w : World) (e : Event) : Prop := OneTeardown w e ∧ .destroy ∉ e.calls

theorem staysRegistered_of_reaches (hr : GuardedRun.Reaches (step c) OnceKept .initial w) :
    StaysRegistered w := by
  refine invariant_of_moves (P := OnceKept) (fun _ _ h => h.1.1)
    (fun _ _ _ hs hs' hi _ hm => hi.hostMove hs hs' hm) ?_ ?_ hr
  · intro w e w' hs hs' hi hp hm
    have hq := hm.quiet
    refine ⟨hi.kept.factoryMove hp.2 hm, fun h hatt hd => ?_⟩
    rw [registered_of_stub_eq hs hs' (by rw [hq.host]; exact .refl _) hq.stub]
    exact hi.registered h (attached_congr (hq.runs _) ▸ hatt) (hq.runs _ ▸ hd)
  · exact ⟨⟨by simp [initial], by simp [initial], trivial⟩, fun h hatt => absurd hatt (by simp [initial])⟩

/-- With the Factory kept, one Destroy call never crosses anything. -/
theorem uncrossed_of_onceKept (hr : GuardedRun.Reaches (step c) OnceKept .initial w) {e : Event} {w' : World}
    (hp : OnceKept w e) (he : step c w e = some w') : Uncrossed w e := by
  have hs := sound_of_reaches (fun _ _ h => h.1.1) hr
  have hreg := staysRegistered_of_reaches hr
  refine ⟨hp.1, fun h hh => ?_, fun _ h hh => ?_⟩
  · cases e with
    | destroy b =>
      obtain rfl : b = h := by simpa [Event.destroy?] using hh
      obtain ⟨o, ho, -⟩ := postRelay_eq_some.mp he
      refine hreg.registered b (hs.conversing.attached_of_init hs.delivered hs.recorded hs.counted hs.bound ho
        (hp.1.1.2 b rfl o ho).1) ?_
      have hz := destroyCalls_eq_zero (hp.1.2 b rfl)
      have := hs.relayed ⟨.destroy, b⟩
      omega
    | _ => cases hh
  · have hpc := hreg.kept.pc
    cases hw : w.pc <;> rw [hw] at hpc <;> simp_all [World.leavingHost, Pc.Keeps]

/-- A host that waits for each reply attaches once and detaches once. -/
theorem guardsSound_of_reaches (c : Config) {w : World}
    (hr : GuardedRun.Reaches (step c) GuardedAnswered .initial w) : GuardsSound w := by
  have honce : GuardedRun.Reaches (step c) OnceKept .initial w :=
    hr.strengthen fun t e u ht hp he => ⟨oneTeardown_of_answered (recorded_of_reaches ht) hp he, hp.1.2.2⟩
  have hu := uncrossing_of_reaches (honce.strengthen fun t e u ht hp he => uncrossed_of_onceKept ht hp he)
  have hs := sound_of_reaches (fun _ _ h => h.1.1) honce
  have hkept := (staysRegistered_of_reaches honce).kept.pc
  have hruns : ∀ h, runs w.trace ⟨.init, h⟩ ≤ 1 := by
    intro h
    have := hs.bound.once h
    have := hs.relayed ⟨.init, h⟩
    omega
  refine ⟨?_, ?_, hruns, ?_, hs.bound.bound⟩
  · intro h o hpc ho
    exact hs.bound.stub_eq_none hs.counted (hs.bound.runs_eq_zero hs.relayed hpc) ho
  · intro h o hpc ho
    obtain hpc | hpc := hpc
    · obtain ⟨s, st, f, hsome, -⟩ := registered_iff.mp (hu.pending h (.inr hpc))
      rw [stubOf_of_host ho] at hsome
      simp [hsome]
    · rw [hpc] at hkept
      exact absurd hkept id
  · intro h
    have := balanced_of_reaches hr h
    have := hruns h
    omega

/-- The host waits for both replies. -/
theorem guardsSound_of_reaches_waiting : ∃ w, GuardedRun.Reaches (step .plain) GuardedAnswered .initial w ∧
    handled w.trace 0 = [.replyInit, .replyDestroy] ∧ GuardsSound w := by
  obtain ⟨w, hr, hw⟩ := GuardedRun.exists_of_execute (step .plain) GuardedAnswered .initial
    [.post [.create], .begin, .run 0 [], .run 0 [], .init 0, .begin, .run 0 [], .run 0 [], .beginHost 0,
      .runHost 0, .runHost 0, .runHost 0, .destroy 0, .begin, .run 0 [], .run 0 [], .beginHost 0, .runHost 0,
      .runHost 0, .runHost 0]
    (fun w => decide (handled w.trace 0 = [.replyInit, .replyDestroy])) (by decide)
  exact ⟨w, hr, of_decide_eq_true hw, guardsSound_of_reaches .plain hr⟩

/-- A host calls Init twice before the first reply: PostInit finds a stub, and two stubs feed the
host. Another calls Destroy twice before the reply: PostDestroy finds NULL. -/
theorem not_guardsSound_impatient : ∃ w w', GuardedRun.Reaches (step .plain) Guarded .initial w ∧
    GuardedRun.Reaches (step .plain) Guarded w w' ∧ (w.pc = .relayTask ⟨.init, 0⟩ ∧ ¬ GuardsSound w) ∧
    runs w'.trace ⟨.init, 0⟩ = 2 ∧ (w'.stub 0).map FactoryStub.observer = some 0 ∧
    (w'.stub 1).map FactoryStub.observer = some 0 ∧ w'.pc = .relayTask ⟨.destroy, 1⟩ ∧
    (w'.host 1).map FactoryHost.stub = some none := by
  obtain ⟨w, hr, hw⟩ := GuardedRun.exists_of_execute (step .plain) Guarded .initial
    [.post [.create], .begin, .run 0 [], .run 0 [], .init 0, .init 0, .begin, .run 0 [], .run 0 [], .begin]
    (fun w => decide ((w.pc = .relayTask ⟨.init, 0⟩ ∧ (w.host 0).map FactoryHost.stub = some (some 0)) ∧
      (GuardedRun.execute (step .plain) Guarded w
        [.run 0 [], .run 0 [], .init 1, .begin, .run 0 [], .run 0 [], .beginHost 1, .runHost 1, .runHost 1,
          .runHost 1, .destroy 1, .destroy 1, .begin, .run 0 [], .run 0 [], .begin]).map
        (fun w' => decide (runs w'.trace ⟨.init, 0⟩ = 2 ∧ (w'.stub 0).map FactoryStub.observer = some 0 ∧
          (w'.stub 1).map FactoryStub.observer = some 0 ∧ w'.pc = .relayTask ⟨.destroy, 1⟩ ∧
          (w'.host 1).map FactoryHost.stub = some none)) = some true)) (by decide)
  obtain ⟨⟨hpc, hstub⟩, hw⟩ := of_decide_eq_true hw
  obtain ⟨w', hr', hw'⟩ := GuardedRun.exists_of_execute _ _ _ _ _ hw
  obtain ⟨o, ho, hos⟩ := Option.map_eq_some_iff.mp hstub
  refine ⟨w, w', hr, hr', ⟨hpc, fun hg => ?_⟩, of_decide_eq_true hw'⟩
  have := hg.initFindsNull 0 o hpc ho
  simp [hos] at this

end OscDataProcess
