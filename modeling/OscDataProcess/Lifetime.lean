import OscDataProcess.CallbackOrder

/-!
# A host outlives everything that can call it

When the last reference to a host is dropped nothing refers to it any more, its
stub is gone and its two flags agree; and every method that is about to start,
on a host or a stub, finds its object alive.
-/
namespace OscDataProcess

open Function (update)
open World

variable {c : Config} {w : World}

/-- The step that deletes a host only drops a reference. -/
theorem HostMove.deletes {w' : World} {e : Event} (hm : HostMove c w e w') {h : HostId} {o : FactoryHost}
    (ho : w.host h = some o) (hn : w'.host h = none) :
    w'.stub = w.stub ∧ handled w'.trace h = handled w.trace h := by
  have hupd : ∀ {b : HostId} {x : FactoryHost}, update w.host b (some x) h ≠ none := by
    intro b x hx
    by_cases hb : h = b
    · subst hb; simp at hx
    · rw [Function.update_of_ne hb, ho] at hx; cases hx
  have hsame : w.host h ≠ none := by simp [ho]
  cases hm with
  | selfDrop | resetTask | deleteRelay | unbind | dropRef => exact ⟨rfl, by simp⟩
  | beginRelay | relayDestroyNull | relayReply | hold | leave | selfDestroyNull | beginHost =>
    exact absurd hn hsame
  | postInit | relayDestroyStub | forward | leavePost | leaveDestroy | selfDestroyStub | selfReply
  | runReply | runCall | init | destroy | addRef => exact absurd hn hupd

theorem HostTask.host_ne_of_refs {t : HostTask} {h : HostId} (hr : t.refs h = 0) : t.host ≠ h := by
  rintro rfl
  cases t <;> simp [HostTask.refs, HostTask.host] at hr

theorem HostLoop.inFlight_nil {l : HostLoop} {h : HostId} (hr : l.refs h = 0) : l.inFlight h = [] := by
  obtain ⟨hq, hpc⟩ := Nat.add_eq_zero_iff.mp hr
  have hpend : l.pc.pending h = [] := by
    cases hl : l.pc <;> rw [hl] at hpc <;> simp_all [HostPc.refs, HostPc.pending]
  have hqueue : l.queue.filterMap (HostTask.callback? h) = [] := by
    refine List.filterMap_eq_nil_iff.mpr fun t ht => ?_
    have hz := List.sum_eq_zero_iff_forall_eq_nat.mp hq (t.refs h) (List.mem_map_of_mem ht)
    simp [HostTask.callback?, HostTask.host_ne_of_refs hz]
  rw [HostLoop.inFlight, hpend, hqueue, List.append_nil]

/-- The factory thread is not in the middle of a conversation with a host it does not refer to. -/
theorem settled_of_refs {h : HostId} {a : Bool} {p : Phase} {pc : Pc} (hr : pc.refs h = 0)
    (he : pc.Expects h none a p) : Settled none a p := by
  cases pc with
  | relayReply r =>
    have hne : r.host ≠ h := by simpa [Pc.refs] using hr
    have hi : r ≠ ⟨.init, h⟩ := by rintro rfl; exact hne rfl
    have hd : r ≠ ⟨.destroy, h⟩ := by rintro rfl; exact hne rfl
    simpa only [Pc.Expects, if_neg hi, if_neg hd] using he
  | leaveDestroy s => simpa [Pc.Expects] using he
  | selfDestroy h' | selfReply h' =>
    have hne : h' ≠ h := by simpa [Pc.refs] using hr
    simpa only [Pc.Expects, if_neg hne] using he
  | idle | relayTask | stubData | leave | leavePost | selfDrop => exact he

/-- Nothing in the deployment refers to host `h`. -/
structure Unreferenced (w : World) (h : HostId) : Prop where
  external : w.external h = 0
  stubs : ∀ s st, w.stub s = some st → st.observer ≠ h
  relays : ∀ r ∈ relays w.tasks, r.host ≠ h
  queued : ∀ t, ∀ task ∈ (w.loop t).queue, task.host ≠ h
  running : ∀ t, (w.loop t).pc.host? ≠ some h
  held : w.pc.refs h = 0

theorem Counted.unreferenced (hc : Counted c w) {h : HostId} (hn : w.host h = none) : Unreferenced w h := by
  have hz : w.refsTo c h = 0 := by
    rw [← hc.balanced h]
    simp [refCount, hn]
  unfold refsTo at hz
  have hloop : (w.loop (c.hostThread h)).refs h = 0 := by omega
  obtain ⟨hq, hpc⟩ := Nat.add_eq_zero_iff.mp hloop
  refine ⟨by omega, ?_, ?_, ?_, ?_, by omega⟩
  · rintro s st hs rfl
    obtain ⟨o, ho⟩ := hc.alive_of_stub hs
    cases ho.symm.trans hn
  · intro r hr
    have hcount : relayCount w.tasks h = 0 := by omega
    simpa using List.countP_eq_zero.mp hcount r hr
  · rintro t task ht rfl
    obtain rfl := hc.queuePlaced t task ht
    exact HostTask.host_ne_of_refs (List.sum_eq_zero_iff_forall_eq_nat.mp hq _ (List.mem_map_of_mem ht)) rfl
  · intro t ht
    obtain rfl := hc.pcPlaced t h ht
    cases hl : (w.loop (c.hostThread h)).pc <;> rw [hl] at ht hpc <;>
      simp_all [HostPc.host?, HostPc.refs]

/-- A task that runs on a host and the stub hold two references to it. -/
theorem Counted.one_lt_refs (hc : Counted c w) {h : HostId} {o : FactoryHost} {s : StubId} {st : FactoryStub}
    (ho : w.host h = some o) (hst : w.stub s = some st) (hobs : st.observer = h) (hpc : w.pc.refs h ≠ 0) :
    1 < o.refs := by
  have hbal := hc.balanced h
  have hcard := Finset.card_pos.mpr ⟨s, show s ∈ stubsOf w.stub w.freshStub h by
    simp [stubsOf, hst, hobs, hc.stubBound s st hst]⟩
  rw [refCount_of_some ho] at hbal
  unfold refsTo at hbal
  omega

/-- PostDestroy is about to run on host `h`. -/
def World.PostsDestroy (w : World) (h : HostId) : Prop := w.pc = .relayTask ⟨.destroy, h⟩ ∨ w.pc = .selfDestroy h

/-- The flags of a host to which nothing refers agree. -/
theorem Sound.destructorCheck (hs : Sound c w) {w' : World} (hs' : Sound c w') {e : Event} {h : HostId}
    {o : FactoryHost} (hm : HostMove c w e w') (ho : w.host h = some o) (hn : w'.host h = none) :
    o.DestructorCheck := by
  obtain ⟨-, hhandled⟩ := hm.deletes ho hn
  have hun := hs'.counted.unreferenced hn
  have hz : (w'.loop (c.hostThread h)).refs h = 0 := by
    have := hs'.counted.balanced h
    unfold refsTo at this
    simp only [refCount, hn, Option.elim_none] at this
    omega
  have hd := hs'.delivered h
  rw [HostLoop.inFlight_nil hz, List.append_nil, hhandled] at hd
  have he := hs'.conversing.expects h
  unfold World.Expects at he
  rw [show w'.stubOf h = none by simp [World.stubOf, hn], hd] at he
  have hset := settled_of_refs hun.held he
  obtain ⟨hi, hdes, -, -, -⟩ := hs.recorded h o ho
  have hsent := phase_sent (hs.handled_phase h)
  cases hatt : attached w'.trace h with
  | false =>
    rw [hatt] at hset
    have hnil := phase_eq_fresh.mp hset
    exact .inr ⟨by simpa [hnil] using hi, by simpa [hnil] using hdes⟩
  | true =>
    rw [hatt] at hset
    obtain ⟨b, hb⟩ := hset
    have hri := hsent.replyInit (by simp [hb])
    have hrd := hsent.destroy.mp ⟨b, hb⟩
    exact .inl ⟨by simpa [hri] using hi, by simpa [hrd] using hdes⟩

/-- Every object whose method is about to start, here or on a host thread, is alive. -/
structure Alive (w : World) : Prop where
  relay : ∀ r, w.pc = .relayTask r ∨ w.pc = .relayReply r → (w.host r.host).isSome
  stub : ∀ s, (∃ data, w.pc = .stubData s data) ∨ w.pc = .leave s ∨ w.pc = .leavePost s ∨
    w.pc = .leaveDestroy s → ∃ st, w.stub s = some st ∧ (w.host st.observer).isSome
  self : ∀ h, w.pc = .selfDestroy h ∨ w.pc = .selfReply h ∨ w.pc = .selfDrop h → (w.host h).isSome
  running : ∀ t h, (w.loop t).pc.host? = some h → (w.host h).isSome
  queued : ∀ t, ∀ task ∈ (w.loop t).queue, (w.host task.host).isSome
  relays : ∀ r ∈ relays w.tasks, (w.host r.host).isSome
  listed : ∀ f fac s, w.factory f = some fac → .stub s ∈ fac.observerList.members → (w.stub s).isSome

theorem alive_of_counted (hc : Counted c w) (hl : Listed w) : Alive w := by
  have hlive : ∀ {h}, ¬ Unreferenced w h → (w.host h).isSome := by
    intro h hn
    by_contra hx
    exact hn (hc.unreferenced (by simpa using hx))
  have hplaced := hl.placed
  refine ⟨?_, ?_, ?_, ?_, ?_, ?_, ?_⟩
  · intro r hr
    refine hlive fun hu => absurd hu.held ?_
    obtain hr | hr := hr <;> simp [hr, Pc.refs]
  · intro s hs
    have hst : ∃ st, w.stub s = some st := by
      obtain ⟨data, hpc⟩ | hpc | hpc | hpc := hs
      all_goals rw [hpc] at hplaced
      · obtain ⟨st, f, hst, -⟩ := hplaced
        exact ⟨st, hst⟩
      · obtain ⟨st, f, hst, -⟩ := hplaced
        exact ⟨st, hst⟩
      · obtain ⟨st, hst, -⟩ := hplaced
        exact ⟨st, hst⟩
      · obtain ⟨st, hst, -⟩ := hplaced
        exact ⟨st, hst⟩
    obtain ⟨st, hst⟩ := hst
    exact ⟨st, hst, hlive fun hu => hu.stubs s st hst rfl⟩
  · intro h hh
    refine hlive fun hu => absurd hu.held ?_
    obtain hh | hh | hh := hh <;> simp [hh, Pc.refs]
  · exact fun t h ht => hlive fun hu => hu.running t ht
  · exact fun t task ht => hlive fun hu => hu.queued t task ht rfl
  · exact fun r hr => hlive fun hu => hu.relays r hr rfl
  · intro f fac s hf hs
    obtain ⟨st, hst, -⟩ := hl.listedStub f _ s (list_of_some hf) hs
    simp [hst]

/-- A host is deleted only when nothing can call it any more, with `stub_` NULL and the check of
its destructor satisfied, and no method starts on a deleted host or stub. The reference that
PostDestroy drops with the stub is not the last one. -/
theorem lifetime_of_reaches (c : Config) {w : World}
    (hr : GuardedRun.Reaches (step c) Checked .initial w) :
    Alive w ∧
      (∀ h o s, w.PostsDestroy h → w.host h = some o → o.stub = some s → 1 < o.refs) ∧
      ∀ e w' h o, Checked w e → step c w e = some w' → w.host h = some o → w'.host h = none →
        o.stub = none ∧ Unreferenced w' h ∧ o.DestructorCheck := by
  have hs := sound_of_reaches (fun _ _ => id) hr
  refine ⟨alive_of_counted hs.counted hs.listed, fun h o s hpc ho hstub => ?_, ?_⟩
  · obtain ⟨st, hst, hobs⟩ := hs.counted.owned h o s ho hstub
    refine hs.counted.one_lt_refs ho hst hobs ?_
    obtain hpc | hpc := hpc <;> simp [hpc, Pc.refs]
  intro e w' h o hp he ho hn
  have hs' := sound_of_reaches (fun _ _ => id) (hr.tail hp he)
  have hun := hs'.counted.unreferenced hn
  obtain hm | hm := step_cases hs.counted.owned he
  · refine ⟨?_, hun, hs.destructorCheck hs' hm ho hn⟩
    cases hstub : o.stub with
    | none => rfl
    | some s =>
      obtain ⟨st, hst, hobs⟩ := hs.counted.owned h o s ho hstub
      exact absurd hobs (hun.stubs s st ((hm.deletes ho hn).1 ▸ hst))
  · rw [hm.quiet.host, ho] at hn
    cases hn

/-- The creator drops its reference between Init and its reply, the Factory goes away, and the
host dies with its last task. -/
theorem lifetime_of_reaches_dropped : ∃ w w' o, GuardedRun.Reaches (step .plain) Checked .initial w ∧
    step .plain w (.runHost 0) = some w' ∧ w.host 0 = some o ∧ w'.host 0 = none ∧ o.DestructorCheck := by
  obtain ⟨w, hr, hw⟩ := GuardedRun.exists_of_execute (step .plain) Checked .initial
    [.post [.create], .begin, .run 0 [], .run 0 [], .init 0, .dropRef 0, .begin, .run 0 [], .run 0 [],
      .post [.destroy], .begin, .run 0 [], .run 0 [], .run 0 [], .run 0 [], .run 0 [], .run 0 [], .run 0 [],
      .run 0 [], .run 0 [], .run 0 [], .beginHost 0, .runHost 0, .runHost 0, .runHost 0, .beginHost 0,
      .runHost 0, .runHost 0, .beginHost 0, .runHost 0]
    (fun w => decide ((w.host 0).isSome ∧
      ((step .plain w (.runHost 0)).map fun w' => (w'.host 0).isNone) = some true)) (by decide)
  obtain ⟨hsome, hnone⟩ := of_decide_eq_true hw
  obtain ⟨o, ho⟩ := Option.isSome_iff_exists.mp hsome
  obtain ⟨w', he, hn⟩ := Option.map_eq_some_iff.mp hnone
  have hn' : w'.host 0 = none := by simpa using hn
  have hp : Checked w (.runHost 0) := ⟨by simp [InitOnce, Event.init?], by simp [DestroyChecked, Event.destroy?]⟩
  exact ⟨w, w', o, hr, he, ho, hn', ((lifetime_of_reaches .plain hr).2.2 _ w' 0 o hp he ho hn').2.2⟩

end OscDataProcess
