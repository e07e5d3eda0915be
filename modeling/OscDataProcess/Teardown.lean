import OscDataProcess.Lifetime

/-!
# The two teardowns of a host

A host is torn down by its own Destroy or by the Factory's. PostDestroy finds a
stub and ReplyDestroy runs once as long as the two do not cross: Destroy is called
while the stub is registered, and the stub does not leave its Factory while a
Destroy of its host waits. When they cross, both tear the host down.
-/
namespace OscDataProcess

open Function (update)
open World

variable {c : Config} {w : World}

/-- The stub of host `h` is live and its `factory_` is not NULL. -/
def World.registered (w : World) (h : HostId) : Bool :=
  ((w.stubOf h).bind fun s => (w.stub s).bind FactoryStub.factory).isSome

theorem registered_iff {h : HostId} : w.registered h = true ↔
    ∃ s st f, w.stubOf h = some s ∧ w.stub s = some st ∧ st.factory = some f := by
  simp only [World.registered, Option.isSome_iff_exists, Option.bind_eq_some_iff]
  constructor
  · rintro ⟨f, s, hs, st, hst, hf⟩
    exact ⟨s, st, f, hs, hst, hf⟩
  · rintro ⟨s, st, f, hs, hst, hf⟩
    exact ⟨f, s, hs, st, hst, hf⟩

/-- Destroy is called at most once. -/
def DestroyOnce (w : World) (e : Event) : Prop := ∀ h ∈ e.destroy?, .destroyCall h ∉ w.trace

def OneTeardown (w : World) (e : Event) : Prop := Checked w e ∧ DestroyOnce w e

/-- The host whose stub is about to run OnFactoryDestroy. -/
def World.leavingHost (w : World) : Option HostId :=
  match w.pc with
  | .leave s => (w.stub s).map FactoryStub.observer
  | _ => none

def Event.isRun : Event → Bool
  | .run _ _ => true
  | _ => false

/-- Destroy is called while the stub is registered, and the stub does not leave while a Destroy
of its host waits. -/
def Uncrossed (w : World) (e : Event) : Prop :=
  OneTeardown w e ∧ (∀ h ∈ e.destroy?, w.registered h = true) ∧
    (e.isRun = true → ∀ h ∈ w.leavingHost, ⟨.destroy, h⟩ ∉ relays w.tasks)

instance (w : World) (e : Event) : Decidable (DestroyOnce w e) :=
  inferInstanceAs (Decidable (∀ h ∈ e.destroy?, _))

instance (w : World) (e : Event) : Decidable (OneTeardown w e) := inferInstanceAs (Decidable (_ ∧ _))

instance (w : World) (e : Event) : Decidable (Uncrossed w e) :=
  inferInstanceAs (Decidable (_ ∧ (∀ h ∈ e.destroy?, _) ∧ (_ → ∀ h ∈ w.leavingHost, _)))

/-- PostDestroy finds a stub whenever it is about to run, and ReplyDestroy runs at most once. -/
def TornDownOnce (w : World) : Prop :=
  (∀ h o, w.pc = .relayTask ⟨.destroy, h⟩ ∨ w.pc = .selfDestroy h → w.host h = some o → o.stub ≠ none) ∧
    ∀ h, (handled w.trace h).count .replyDestroy ≤ 1 ∧ ∀ o, w.host h = some o → o.destroyTime ≤ 1

theorem destroyCalls_eq_zero {trace : List Entry} {h : HostId} (hn : .destroyCall h ∉ trace) :
    calls trace ⟨.destroy, h⟩ = 0 := by
  refine List.countP_eq_zero.mpr fun e he => ?_
  cases e <;> simp [Entry.isCall]
  rintro rfl
  exact hn he

theorem destroy?_of_call? {e : Event} {h : HostId} (he : e.call? = some ⟨.destroy, h⟩) :
    e.destroy? = some h := by
  cases e <;> simp_all [Event.call?, Event.destroy?]

theorem destroyCalls_le {P : World → Event → Prop} (hP : ∀ w e, P w e → DestroyOnce w e)
    (hr : GuardedRun.Reaches (step c) P .initial w) : ∀ h, calls w.trace ⟨.destroy, h⟩ ≤ 1 := by
  refine moves_of_reaches (I := fun w => ∀ h, calls w.trace ⟨.destroy, h⟩ ≤ 1) ?_ ?_
    (fun _ => Nat.zero_le 1) hr
  · intro w e w' _ hle hp hm b
    rw [calls_move hm]
    split
    · rename_i he
      rw [destroyCalls_eq_zero (hP w e hp b (destroy?_of_call? he))]
    · exact hle b
  · intro w e w' _ hle _ hm b
    rw [hm.quiet.calls]
    exact hle b

/-- The stub of a host that waits for PostDestroy stays registered, and the host is told once. -/
structure Uncrossing (w : World) : Prop where
  pending : ∀ h, ⟨.destroy, h⟩ ∈ relays w.tasks ∨ w.pc = .relayTask ⟨.destroy, h⟩ → w.registered h = true
  replying : ∀ h, w.pc = .relayReply ⟨.destroy, h⟩ → phase (posted w.trace h) = .opened
  once : ∀ h, (posted w.trace h).count .replyDestroy ≤ 1

theorem registered_kept {w' : World} (hs : Sound c w) (hs' : Sound c w') (hhost : StubKept w.host w'.host)
    (hstub : ∀ s st, w.stub s = some st → ∃ st', w'.stub s = some st' ∧ st'.observer = st.observer)
    (hfactory : ∀ s, (w'.stub s).bind FactoryStub.factory = (w.stub s).bind FactoryStub.factory) (h : HostId) :
    w'.registered h = w.registered h := by
  simp only [World.registered, stubOf_kept hs.counted hs'.counted hhost hstub h, hfactory]

theorem registered_of_stub_eq {w' : World} (hs : Sound c w) (hs' : Sound c w')
    (hhost : StubKept w.host w'.host) (hstub : w'.stub = w.stub) (h : HostId) :
    w'.registered h = w.registered h :=
  registered_kept hs hs' hhost (fun _ st hst => ⟨st, hstub ▸ hst, rfl⟩) (fun _ => by rw [hstub]) h

/-- A conversation that has reached OnDestroy has had it once, any other not at all. -/
theorem count_replyDestroy_eq_zero {ms : List Callback} (hp : phase ms = .opened ∨ phase ms = .leaving) :
    ms.count .replyDestroy = 0 := by
  have hsent := phase_sent (show phase ms ≠ .broken by obtain hp | hp := hp <;> simp [hp])
  refine List.count_eq_zero_of_not_mem fun hm => ?_
  obtain ⟨b, hb⟩ := hsent.destroy.mpr hm
  obtain hp | hp := hp <;> simp [hp] at hb

/-- Another host's stub is replaced or deleted. -/
theorem registered_other {w' : World} (hs : Sound c w) {s : StubId} {st : FactoryStub}
    {st' : Option FactoryStub} (hst : w.stub s = some st) (hstub : w'.stub = update w.stub s st') {h : HostId}
    (hne : st.observer ≠ h) (hof : w'.stubOf h = w.stubOf h) (hreg : w.registered h = true) :
    w'.registered h = true := by
  obtain ⟨x, sx, f, hx, hsx, hf⟩ := registered_iff.mp hreg
  have hxs : x ≠ s := by
    rintro rfl
    exact stubOf_ne_of_observer_ne hs.counted.owned hst hne hx
  exact registered_iff.mpr ⟨x, sx, f, hof.trans hx, by rw [hstub, Function.update_of_ne hxs, hsx], hf⟩

theorem relay_once (hr : Relayed w) (hle : ∀ h, calls w.trace ⟨.destroy, h⟩ ≤ 1) {h : HostId}
    (hpc : w.pc = .relayTask ⟨.destroy, h⟩) : ⟨.destroy, h⟩ ∉ relays w.tasks := by
  intro hm
  have hcount := List.count_pos_iff.mpr hm
  have h₁ := hr ⟨.destroy, h⟩
  have h₂ := hle h
  simp only [hpc, Pc.relayTasks, if_true] at h₁
  omega

theorem Uncrossing.pending_move {w' : World} {e : Event} (hs : Sound c w) (hs' : Sound c w')
    (hle : ∀ h, calls w.trace ⟨.destroy, h⟩ ≤ 1) (hu : Uncrossing w) (hp : Uncrossed w e)
    (hm : HostMove c w e w') :
    ∀ h, ⟨.destroy, h⟩ ∈ relays w'.tasks ∨ w'.pc = .relayTask ⟨.destroy, h⟩ → w'.registered h = true := by
  intro b hb
  have hkeep : ⟨.destroy, b⟩ ∈ relays w.tasks ∨ w.pc = .relayTask ⟨.destroy, b⟩ →
      w'.registered b = w.registered b → w'.registered b = true := fun h₁ h₂ => h₂ ▸ hu.pending b h₁
  cases hm with
  | @beginRelay r ts hidle hts =>
    have hb' : ⟨.destroy, b⟩ ∈ relays w.tasks := by
      rw [hts, relays_cons_relay, List.mem_cons]
      exact hb.symm.imp_left fun h => (Pc.relayTask.inj h).symm
    exact hkeep (.inl hb') rfl
  | @postInit h f fac o time script hpc hf hfac ho =>
    have hreg := hu.pending b (.inl (by simpa using hb))
    have hbh : b ≠ h := by
      rintro rfl
      obtain ⟨s, st, f, hsome, -⟩ := registered_iff.mp hreg
      have hnone := hs.bound.stub_eq_none hs.counted (hs.bound.runs_eq_zero hs.relayed hpc) ho
      rw [stubOf_of_host ho, hnone] at hsome
      cases hsome
    obtain ⟨x, sx, f', hx, hsx, hf'⟩ := registered_iff.mp hreg
    have hxs : x ≠ w.freshStub := (hs.counted.stubBound x sx hsx).ne
    exact registered_iff.mpr ⟨x, sx, f', by simpa [World.stubOf, hbh] using hx, by simpa [hxs] using hsx, hf'⟩
  | relayDestroyNull => exact hkeep (.inl (by simpa using hb)) rfl
  | @relayDestroyStub h o s st time script hpc ho hsome hst hobs =>
    have hb' : ⟨.destroy, b⟩ ∈ relays w.tasks := by simpa using hb
    have hbh : b ≠ h := by
      rintro rfl
      exact relay_once hs.relayed hle hpc hb'
    exact registered_other hs hst rfl (by rw [hobs]; exact Ne.symm hbh) (by simp [World.stubOf, hbh])
      (hu.pending b (.inl hb'))
  | @leave s st f fac time script hpc hst hf hfac =>
    have hb' : ⟨.destroy, b⟩ ∈ relays w.tasks := by simpa using hb
    have hbh : st.observer ≠ b := by
      rintro rfl
      exact hp.2.2 rfl _ (by simp [World.leavingHost, hpc, hst]) hb'
    exact registered_other hs hst rfl hbh rfl (hu.pending b (.inl hb'))
  | @selfDestroyStub h o s st time script hpc ho hsome hst hobs =>
    have hb' : ⟨.destroy, b⟩ ∈ relays w.tasks := by simpa using hb
    have hreg := hu.pending b (.inl hb')
    have hbh : b ≠ h := by
      rintro rfl
      have hplaced := hs.listed.placed
      rw [hpc] at hplaced
      obtain ⟨s₁, st₁, hst₁, hobs₁, hnone⟩ := hplaced
      obtain ⟨x, sx, f, hx, hsx, hf⟩ := registered_iff.mp hreg
      have hx₁ := stubOf_of_stub hs.bound hst₁
      rw [hobs₁, hx] at hx₁
      obtain rfl := Option.some.inj hx₁
      obtain rfl := Option.some.inj (hst₁.symm.trans hsx)
      rw [hnone] at hf
      cases hf
    exact registered_other hs hst rfl (by rw [hobs]; exact Ne.symm hbh) (by simp [World.stubOf, hbh]) hreg
  | @forward s data st o time script hpc hst hfwd ho =>
    refine hkeep (.inl (by simpa using hb)) (registered_kept hs hs' (stubKept_update ho (by simp))
      (stub_observer_of_update hst (by simp)) (fun x => ?_) b)
    by_cases he : x = s
    · subst he; simp [hst]
    · simp [he]
  | @hold s data st time script hpc hst =>
    refine hkeep (.inl (by simpa using hb)) (registered_kept hs hs' (.refl _)
      (stub_observer_of_update hst (by simp)) (fun x => ?_) b)
    by_cases he : x = s
    · subst he; simp [hst]
    · simp [he]
  | @destroy h o ho =>
    have hsame := registered_of_stub_eq hs hs' (stubKept_update ho (by simp)) rfl b
    by_cases hbh : b = h
    · subst hbh
      rw [hsame]
      exact hp.2.1 b rfl
    · exact hkeep (by simpa [hbh] using hb) hsame
  | @init h o ho =>
    exact hkeep (by simpa using hb) (registered_of_stub_eq hs hs' (stubKept_update ho (by simp)) rfl b)
  | relayReply | selfDestroyNull => exact hkeep (.inl (by simpa using hb)) rfl
  | beginHost => exact hkeep hb rfl
  | leavePost _ _ ho | leaveDestroy _ _ ho | selfReply _ ho =>
    exact hkeep (.inl (by simpa using hb)) (registered_of_stub_eq hs hs' (stubKept_update ho (by simp)) rfl b)
  | selfDrop _ ho =>
    exact hkeep (.inl (by simpa using hb))
      (registered_of_stub_eq hs hs' (stubKept_update ho (FactoryHost.released_stub _)) rfl b)
  | resetTask _ ho | deleteRelay _ ho | unbind _ ho | dropRef _ ho =>
    exact hkeep hb (registered_of_stub_eq hs hs' (stubKept_update ho (FactoryHost.released_stub _)) rfl b)
  | runReply _ ho | runCall _ ho | addRef _ ho =>
    exact hkeep hb (registered_of_stub_eq hs hs' (stubKept_update ho (by simp)) rfl b)

theorem Uncrossing.told_move {w' : World} {e : Event} (hs : Sound c w) (hu : Uncrossing w)
    (hm : HostMove c w e w') (h : HostId) :
    (w'.pc = .relayReply ⟨.destroy, h⟩ → phase (posted w'.trace h) = .opened) ∧
      (posted w'.trace h).count .replyDestroy ≤ 1 := by
  have honce := hu.once h
  have he := hs.conversing.expects h
  unfold World.Expects at he
  cases hm with
  | @relayDestroyNull b o time script hpc ho hn =>
    refine ⟨fun hx => ?_, by simpa [Entry.posted?] using honce⟩
    obtain rfl : b = h := by simpa using hx
    obtain ⟨s, st, f, hsome, -⟩ := registered_iff.mp (hu.pending b (.inr hpc))
    rw [stubOf_of_host ho, hn] at hsome
    cases hsome
  | @relayDestroyStub b o s st time script hpc ho hsome hst hobs =>
    refine ⟨fun hx => ?_, by simpa [Entry.posted?] using honce⟩
    obtain rfl : b = h := by simpa using hx
    rw [hpc, stubOf_of_host ho, hsome] at he
    have hp : phase (posted w.trace b) = .opened := he
    simpa [Entry.posted?] using hp
  | @relayReply r time script hpc =>
    refine ⟨by simp, ?_⟩
    obtain ⟨kind, b⟩ := r
    by_cases hb : b = h
    · subst hb
      cases kind with
      | init => simpa [Entry.posted?, RelayKind.callback] using honce
      | destroy =>
        have hz := count_replyDestroy_eq_zero (.inl (hu.replying b hpc))
        simp [Entry.posted?, RelayKind.callback, hz]
    · simpa [Entry.posted?, hb] using honce
  | @selfReply b o time script hpc ho =>
    refine ⟨by simp, ?_⟩
    by_cases hb : b = h
    · subst hb
      rw [hpc] at he
      simp only [Pc.Expects, if_true] at he
      have hz := count_replyDestroy_eq_zero (.inr he.2.2)
      simp [Entry.posted?, hz]
    · simpa [Entry.posted?, hb] using honce
  | @forward s data st o time script hpc =>
    refine ⟨by simp, ?_⟩
    by_cases hb : st.observer = h <;> simpa [Entry.posted?, hb] using honce
  | @leavePost s st o time script hpc =>
    refine ⟨by simp, ?_⟩
    by_cases hb : st.observer = h <;> simpa [Entry.posted?, hb] using honce
  | leave => exact ⟨by simp, honce⟩
  | beginRelay | leaveDestroy | selfDestroyNull => exact ⟨by simp, honce⟩
  | postInit | hold | selfDestroyStub | selfDrop =>
    exact ⟨by simp, by simpa [Entry.posted?] using honce⟩
  | beginHost | addRef => exact ⟨hu.replying h, honce⟩
  | resetTask | runReply | deleteRelay | runCall | unbind | init | destroy | dropRef =>
    exact ⟨by simpa [Entry.posted?] using hu.replying h, by simpa [Entry.posted?] using honce⟩

theorem uncrossing_of_reaches (hr : GuardedRun.Reaches (step c) Uncrossed .initial w) : Uncrossing w := by
  refine GuardedRun.Reaches.invariant_of (K := GuardedRun.Reaches (step c) Uncrossed .initial)
    (fun _ => id) ?_ ⟨by simp [initial], by simp [initial], fun _ => Nat.zero_le 1⟩ hr
  intro t e u ht hu hp he hu'
  have hs := sound_of_reaches (fun _ _ h => h.1.1) ht
  have hs' := sound_of_reaches (fun _ _ h => h.1.1) hu'
  have hle := destroyCalls_le (fun _ _ h => h.1.2) ht
  obtain hm | hm := step_cases hs.counted.owned he
  · exact ⟨hu.pending_move hs hs' hle hp hm, fun h => (hu.told_move hs hm h).1,
      fun h => (hu.told_move hs hm h).2⟩
  · have hq := hm.quiet
    refine ⟨fun h hh => ?_, fun h hh => ?_, fun h => ?_⟩
    · rw [registered_of_stub_eq hs hs' (by rw [hq.host]; exact .refl _) hq.stub]
      refine hu.pending h (hh.imp (fun h₁ => hq.relays ▸ h₁) fun h₁ => ?_)
      obtain hpc | ⟨-, ⟨_, _, hpc⟩ | ⟨_, hpc⟩⟩ := hq.pc <;> simp_all
    · rw [hq.posted]
      refine hu.replying h ?_
      obtain hpc | ⟨-, ⟨_, _, hpc⟩ | ⟨_, hpc⟩⟩ := hq.pc <;> simp_all
    · rw [hq.posted]
      exact hu.once h

/-- Without a crossing every host is torn down once. -/
theorem tornDownOnce_of_reaches (c : Config) {w : World}
    (hr : GuardedRun.Reaches (step c) Uncrossed .initial w) : TornDownOnce w := by
  have hs := sound_of_reaches (fun _ _ h => h.1.1) hr
  have hu := uncrossing_of_reaches hr
  have hcount : ∀ h, (handled w.trace h).count .replyDestroy ≤ 1 := by
    intro h
    have := hu.once h
    rw [hs.delivered h, List.count_append] at this
    omega
  refine ⟨fun h o hpc ho => ?_, fun h => ⟨hcount h, fun o ho => ?_⟩⟩
  · obtain hpc | hpc := hpc
    · obtain ⟨s, st, f, hsome, -⟩ := registered_iff.mp (hu.pending h (.inr hpc))
      rw [stubOf_of_host ho] at hsome
      simp [hsome]
    · have he := hs.conversing.expects h
      unfold World.Expects at he
      rw [hpc] at he
      simp only [Pc.Expects, if_true] at he
      rw [stubOf_of_host ho] at he
      exact Option.isSome_iff_ne_none.mp he.1
  · rw [(hs.recorded h o ho).destroyTime]
    exact hcount h

/-- The host calls Destroy once and the Factory stays. -/
theorem tornDownOnce_of_reaches_host_first : ∃ w, GuardedRun.Reaches (step .plain) Uncrossed .initial w ∧
    handled w.trace 0 = [.replyInit, .replyDestroy] ∧ TornDownOnce w := by
  obtain ⟨w, hr, hw⟩ := GuardedRun.exists_of_execute (step .plain) Uncrossed .initial
    [.post [.create], .begin, .run 0 [], .run 0 [], .init 0, .begin, .run 0 [], .run 0 [], .beginHost 0,
      .runHost 0, .runHost 0, .runHost 0, .destroy 0, .begin, .run 0 [], .run 0 [], .beginHost 0, .runHost 0,
      .runHost 0, .runHost 0]
    (fun w => decide (handled w.trace 0 = [.replyInit, .replyDestroy])) (by decide)
  exact ⟨w, hr, of_decide_eq_true hw, tornDownOnce_of_reaches .plain hr⟩

/-- Factory::Destroy is queued, the host calls Destroy while its check still holds, and both tear
the host down: PostDestroy finds NULL, and ReplyDestroy runs twice. -/
theorem not_tornDownOnce_crossed : ∃ w w', GuardedRun.Reaches (step .plain) OneTeardown .initial w ∧
    GuardedRun.Reaches (step .plain) OneTeardown w w' ∧ w.pc = .relayTask ⟨.destroy, 0⟩ ∧
    (w.host 0).map FactoryHost.stub = some none ∧ (w'.host 0).map FactoryHost.destroyTime = some 2 ∧
    ¬ TornDownOnce w ∧ ¬ TornDownOnce w' := by
  obtain ⟨w, hr, hw⟩ := GuardedRun.exists_of_execute (step .plain) OneTeardown .initial
    [.post [.create], .begin, .run 0 [], .run 0 [], .init 0, .begin, .run 0 [], .run 0 [], .beginHost 0,
      .runHost 0, .runHost 0, .runHost 0, .post [.destroy], .destroy 0, .begin, .run 0 [], .run 0 [], .run 0 [],
      .run 0 [], .run 0 [], .run 0 [], .run 0 [], .run 0 [], .run 0 [], .run 0 [], .run 0 [], .begin]
    (fun w => decide ((w.pc = .relayTask ⟨.destroy, 0⟩ ∧ (w.host 0).map FactoryHost.stub = some none) ∧
      (GuardedRun.execute (step .plain) OneTeardown w
        [.run 0 [], .run 0 [], .beginHost 0, .runHost 0, .runHost 0, .beginHost 0, .runHost 0, .runHost 0,
          .beginHost 0, .runHost 0, .runHost 0]).map
        (fun w' => decide ((w'.host 0).map FactoryHost.destroyTime = some 2)) = some true)) (by decide)
  obtain ⟨⟨hpc, hnone⟩, hw⟩ := of_decide_eq_true hw
  obtain ⟨w', hr', hw'⟩ := GuardedRun.exists_of_execute _ _ _ _ _ hw
  have htwo := of_decide_eq_true hw'
  obtain ⟨o, ho, hstub⟩ := Option.map_eq_some_iff.mp hnone
  obtain ⟨o', ho', hdt⟩ := Option.map_eq_some_iff.mp htwo
  refine ⟨w, w', hr, hr', hpc, hnone, htwo, fun ht => ht.1 0 o (.inl hpc) ho hstub, fun ht => ?_⟩
  have := (ht.2 0).2 o' ho'
  omega

end OscDataProcess
