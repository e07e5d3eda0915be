import OscDataProcess.Guards

/-!
# Init against the destruction of the Factory

Init only posts PostInit. If the Factory goes away in between, and no other one
has come, PostInit dereferences NULL. Otherwise the stub is registered when OnInit
runs, or the Factory has sent both its goodbyes behind the reply of Init.
-/
namespace OscDataProcess

open Function (update)
open World

variable {c : Config} {w : World}

/-- Init is called while a Factory is alive. -/
def AliveInit (w : World) (e : Event) : Prop := Checked w e ∧ ∀ _ ∈ e.init?, w.gFactory ≠ none

/-- Whether host `h` has called Init, and whether a Factory has been deleted since then with no
other one created after it. -/
def orphanStep (h : HostId) (s : Bool × Bool) : Entry → Bool × Bool
  | .initCall h' => if h' = h then (true, false) else s
  | .created _ _ => (s.1, false)
  | .deleted _ => (s.1, true)
  | _ => s

def orphaned (trace : List Entry) (h : HostId) : Bool :=
  (trace.foldl (orphanStep h) (false, false)).1 && (trace.foldl (orphanStep h) (false, false)).2

/-- The relay the factory thread takes next. -/
def World.nextRelay (w : World) : Option Relay :=
  match w.tasks with
  | .relay r :: _ => some r
  | _ => none

/-- Destroy does not come between Init and PostInit, or a new Factory has come after it. -/
def InitInTime (w : World) (e : Event) : Prop :=
  AliveInit w e ∧ (e = .begin → ∀ r ∈ w.nextRelay, r.kind = .init → orphaned w.trace r.host = false)

instance (w : World) (e : Event) : Decidable (AliveInit w e) :=
  inferInstanceAs (Decidable (_ ∧ ∀ _ ∈ e.init?, w.gFactory ≠ none))

instance (w : World) (e : Event) : Decidable (InitInTime w e) :=
  inferInstanceAs (Decidable (_ ∧ (_ → ∀ r ∈ w.nextRelay, r.kind = .init → _)))

/-- What the factory thread is in the middle of posting to host `h`. -/
def World.toPost (w : World) (h : HostId) : List Callback :=
  match w.pc with
  | .leavePost s => if w.stubOf h = some s then [.onFactoryDestory, .replyDestroy] else []
  | .leaveDestroy s => if w.stubOf h = some s then [.replyDestroy] else []
  | .selfDestroy h' | .selfReply h' => if h' = h then [.replyDestroy] else []
  | _ => []

/-- PostInit finds a Factory. When OnInit is about to run the stub is registered with the live
Factory, or OnFactoryDestory and OnDestroy are still ahead of the host. -/
structure AttachSafe (w : World) : Prop where
  initFindsFactory : ∀ h, w.pc = .relayTask ⟨.init, h⟩ → w.gFactory ≠ none
  initRuns : ∀ t h, (w.loop t).pc = .runReply ⟨.init, h⟩ →
    (∃ s st f fac, w.stubOf h = some s ∧ w.stub s = some st ∧ st.factory = some f ∧
      w.gFactory = some f ∧ w.factory f = some fac ∧ .stub s ∈ fac.observerList.members) ∨
    ∃ data : List FactoryData, (w.loop t).inFlight h ++ w.toPost h =
      .replyInit :: data.map .onDataProduced ++ [.onFactoryDestory, .replyDestroy]

theorem opened_form {ms : List Callback} (h : phase ms = .opened) :
    ∃ data : List FactoryData, ms = .replyInit :: data.map .onDataProduced := by
  induction ms using List.reverseRecOn with
  | nil => cases h
  | append_singleton ms m ih =>
    rw [phase_concat] at h
    cases hp : phase ms <;> rw [hp] at h <;> cases m <;> simp only [Phase.next, reduceCtorEq] at h
    · exact ⟨[], by simp [phase_eq_fresh.mp hp]⟩
    · rename_i data
      obtain ⟨ds, rfl⟩ := ih hp
      exact ⟨ds ++ [data], by simp⟩

theorem leaving_form {ms : List Callback} (h : phase ms = .leaving) :
    ∃ data : List FactoryData, ms = .replyInit :: data.map .onDataProduced ++ [.onFactoryDestory] := by
  cases ms using List.reverseRecOn with
  | nil => cases h
  | append_singleton ms m =>
    rw [phase_concat] at h
    cases hp : phase ms <;> rw [hp] at h <;> cases m <;> simp only [Phase.next, reduceCtorEq] at h
    obtain ⟨ds, rfl⟩ := opened_form hp
    exact ⟨ds, rfl⟩

theorem announced_form {ms : List Callback} (h : phase ms = .closed true)
    (hone : ms.count .replyDestroy = 1) : ∃ data : List FactoryData,
      ms = .replyInit :: data.map .onDataProduced ++ [.onFactoryDestory, .replyDestroy] := by
  cases ms using List.reverseRecOn with
  | nil => cases h
  | append_singleton ms m =>
    rw [phase_concat] at h
    cases hp : phase ms <;> rw [hp] at h <;> cases m <;>
      simp only [Phase.next, reduceCtorEq, Phase.closed.injEq, Bool.false_eq_true] at h
    · obtain ⟨ds, rfl⟩ := leaving_form hp
      exact ⟨ds, by simp⟩
    · have hmem := (phase_sent (by simp [hp] : phase ms ≠ .broken)).destroy.mp ⟨_, hp⟩
      have := List.count_pos_iff.mpr hmem
      simp only [List.count_append, List.count_singleton_self] at hone
      omega

def Phase.selfClosed : Phase → Nat
  | .closed true => 1
  | _ => 0

def Pc.replying (h : HostId) : Pc → Nat
  | .relayReply r => if r = ⟨.destroy, h⟩ then 1 else 0
  | _ => 0

/-- ReplyDestroy is posted once for each PostDestroy of a relay and once by Stub::Destroy. -/
def Told (w : World) : Prop :=
  ∀ h, (posted w.trace h).count .replyDestroy + w.pc.replying h =
    runs w.trace ⟨.destroy, h⟩ + (phase (posted w.trace h)).selfClosed

theorem Told.hostMove {w' : World} {e : Event} (hs : Sound c w) (ht : Told w) (hm : HostMove c w e w') :
    Told w' := by
  intro b
  have hb := ht b
  have he := hs.conversing.expects b
  unfold World.Expects at he
  cases hm with
  | beginRelay hidle => simpa [hidle.1, Pc.replying] using hb
  | postInit hpc | hold hpc | selfDestroyNull hpc | selfDestroyStub hpc | selfDrop hpc | leaveDestroy hpc =>
    simpa [hpc, Pc.replying, Entry.posted?, Entry.isRun] using hb
  | leave hpc =>
    rw [hpc] at hb
    exact hb
  | relayDestroyNull hpc | relayDestroyStub hpc =>
    rw [hpc] at hb
    simp only [Pc.replying, posted_append, posted_cons, posted_nil, Entry.posted?, Option.toList_none,
      List.append_nil, runs_append, runs_cons, runs_nil, Entry.isRun, Relay.mk.injEq, true_and,
      decide_eq_true_eq, eq_comm (a := b)] at hb ⊢
    grind
  | @relayReply r time script hpc =>
    obtain ⟨kind, h⟩ := r
    rw [hpc] at he hb
    by_cases hbh : h = b
    · subst hbh
      cases kind with
      | init =>
        simp only [Pc.Expects, if_true] at he
        simpa [Entry.posted?, Entry.isRun, RelayKind.callback, phase_concat, he.2, Phase.next, Pc.replying,
          Phase.selfClosed] using hb
      | destroy =>
        simp only [Pc.Expects, Relay.mk.injEq, reduceCtorEq, false_and, if_false, if_true] at he
        obtain ⟨-, -, hp | ⟨x, hp⟩⟩ := he
        all_goals
          simpa [Entry.posted?, Entry.isRun, RelayKind.callback, phase_concat, hp, Phase.next, Pc.replying,
            Phase.selfClosed] using hb
    · simpa [Entry.posted?, Entry.isRun, hbh, Pc.replying] using hb
  | @forward s data st o time script hpc hst =>
    rw [hpc] at he hb
    by_cases hbh : st.observer = b
    · subst hbh
      rw [stubOf_of_stub hs.bound hst] at he
      have hp : phase (posted w.trace st.observer) = .opened := he
      simpa [Entry.posted?, Entry.isRun, phase_concat, hp, Phase.next, Pc.replying] using hb
    · simpa [Entry.posted?, Entry.isRun, hbh, Pc.replying] using hb
  | @leavePost s st o time script hpc hst =>
    rw [hpc] at he hb
    by_cases hbh : st.observer = b
    · subst hbh
      rw [stubOf_of_stub hs.bound hst] at he
      have hp : phase (posted w.trace st.observer) = .opened := he
      simpa [Entry.posted?, Entry.isRun, phase_concat, hp, Phase.next, Pc.replying, Phase.selfClosed] using hb
    · simpa [Entry.posted?, Entry.isRun, hbh, Pc.replying] using hb
  | @selfReply h o time script hpc =>
    rw [hpc] at he hb
    by_cases hbh : h = b
    · subst hbh
      simp only [Pc.Expects, if_true] at he
      simpa [Entry.posted?, Entry.isRun, phase_concat, he.2.2, Phase.next, Pc.replying,
        Phase.selfClosed] using hb
    · simpa [Entry.posted?, Entry.isRun, hbh, Pc.replying] using hb
  | beginHost | addRef => exact hb
  | resetTask | runReply | deleteRelay | runCall | unbind | init | destroy | dropRef =>
    simpa [Entry.posted?, Entry.isRun] using hb

theorem Told.quiet {w' : World} (ht : Told w) (hq : Quiet w w') : Told w' := by
  intro h
  have hpc : w'.pc.replying h = w.pc.replying h := by
    obtain he | ⟨he, ⟨s, data, he'⟩ | ⟨s, he'⟩⟩ := hq.pc <;> simp [*, Pc.replying]
  rw [hq.posted, hq.runs, hpc]
  exact ht h

theorem told_of_reaches {P : World → Event → Prop} (hP : ∀ w e, P w e → Checked w e)
    (hr : GuardedRun.Reaches (step c) P .initial w) : Told w :=
  invariant_of_moves hP (fun _ _ _ hs _ ht _ hm => ht.hostMove hs hm)
    (fun _ _ _ _ _ ht _ hm => ht.quiet hm.quiet) (fun _ => rfl) hr

/-- Destroy is only ever called by a host that has been told of its Init. -/
def AskedAfterInit (w : World) : Prop :=
  ∀ h, calls w.trace ⟨.destroy, h⟩ ≠ 0 → .replyInit ∈ handled w.trace h

theorem AskedAfterInit.hostMove {w' : World} {e : Event} (hs : Sound c w) (ha : AskedAfterInit w)
    (hchk : DestroyChecked w e) (hm : HostMove c w e w') : AskedAfterInit w' := by
  intro b hn
  have hkeep : calls w.trace ⟨.destroy, b⟩ ≠ 0 → (∃ ms, handled w'.trace b = handled w.trace b ++ ms) →
      .replyInit ∈ handled w'.trace b := by
    rintro hn ⟨ms, hms⟩
    rw [hms]
    exact List.mem_append_left _ (ha b hn)
  cases hm with
  | @destroy h o ho =>
    by_cases hbh : b = h
    · subst hbh
      have hinit := (hs.recorded b o ho).init
      rw [(hchk b rfl o ho).1] at hinit
      simpa [Entry.handled?] using of_decide_eq_true hinit.symm
    · exact hkeep (by simpa [Entry.isCall, hbh] using hn) ⟨[], by simp [Entry.handled?]⟩
  | leave => exact hkeep hn ⟨[], by simp⟩
  | runReply | runCall => exact hkeep (by simpa [Entry.isCall] using hn) ⟨_, handled_append _ _ _⟩
  | beginRelay | postInit | relayDestroyNull | relayDestroyStub | relayReply | forward | hold | leavePost
  | leaveDestroy | selfDestroyNull | selfDestroyStub | selfReply | selfDrop | beginHost | resetTask
  | deleteRelay | unbind | init | addRef | dropRef =>
    exact hkeep (by simpa [Entry.isCall] using hn) ⟨[], by simp [Entry.handled?]⟩

theorem askedAfterInit_of_reaches {P : World → Event → Prop} (hP : ∀ w e, P w e → Checked w e)
    (hr : GuardedRun.Reaches (step c) P .initial w) : AskedAfterInit w := by
  refine invariant_of_moves hP (fun w e w' hs _ ha hp hm => ha.hostMove hs (hP w e hp).2 hm) ?_
    (fun _ hn => absurd rfl hn) hr
  intro w e w' _ _ ha _ hm b hn
  rw [hm.quiet.calls] at hn
  rw [hm.quiet.handled]
  exact ha b hn

/-- When OnInit is about to run, all that was ever sent to the host is still ahead of it. -/
theorem Sound.inFlight_of_runReply (hs : Sound c w) {t : ThreadId} {h : HostId}
    (hpc : (w.loop t).pc = .runReply ⟨.init, h⟩) :
    c.hostThread h = t ∧ handled w.trace h = [] ∧ (w.loop t).inFlight h = posted w.trace h ∧
      posted w.trace h ≠ [] := by
  have ht : c.hostThread h = t := hs.counted.pcPlaced t h (by rw [hpc]; rfl)
  have hd := hs.delivered h
  rw [ht] at hd
  have hhead : (w.loop t).inFlight h =
      .replyInit :: (w.loop t).queue.filterMap (HostTask.callback? h) := by
    simp [HostLoop.inFlight, hpc, HostPc.pending, RelayKind.callback]
  have hnone : handled w.trace h = [] := by
    cases hms : handled w.trace h with
    | nil => rfl
    | cons m ms =>
      rw [hms, hhead] at hd
      have := ((inOrder_of_phase (hs.posted_phase h)).initFirst m _ hd).2
      simp at this
  rw [hnone, List.nil_append] at hd
  exact ⟨ht, hnone, hd.symm, by simp [hd, hhead]⟩

/-- Only the Factory's goodbye can have closed a conversation whose OnInit is still to run. -/
theorem Told.count_eq (ht : Told w) (ha : AskedAfterInit w) (hrel : Relayed w) (hs : Sound c w) {h : HostId}
    (hnone : handled w.trace h = []) : w.pc.replying h = 0 ∧
      (posted w.trace h).count .replyDestroy = (phase (posted w.trace h)).selfClosed := by
  have hcalls : calls w.trace ⟨.destroy, h⟩ = 0 := by
    by_contra hn
    have := ha h hn
    simp [hnone] at this
  have hruns : runs w.trace ⟨.destroy, h⟩ = 0 := by
    have := hrel ⟨.destroy, h⟩
    omega
  have htold := ht h
  rw [hruns, Nat.zero_add] at htold
  cases hp : phase (posted w.trace h) with
  | closed b =>
    have hmem := (phase_sent (hs.posted_phase h)).destroy.mp ⟨b, hp⟩
    have hpos := List.count_pos_iff.mpr hmem
    cases b <;> simp only [hp, Phase.selfClosed] at htold ⊢ <;> omega
  | fresh | opened | leaving | broken =>
    simp only [hp, Phase.selfClosed] at htold ⊢
    omega

theorem settled_opened {stub : Option StubId} {a : Bool} (h : Settled stub a .opened) :
    ∃ s, stub = some s := by
  cases stub <;> cases a <;> simp [Settled] at h ⊢

theorem not_settled_leaving {stub : Option StubId} {a : Bool} : ¬ Settled stub a .leaving := by
  cases stub <;> cases a <;> simp [Settled]

theorem settled_closed {stub : Option StubId} {a b : Bool} (h : Settled stub a (.closed b)) :
    stub = none := by
  cases stub <;> cases a <;> simp [Settled] at h ⊢

/-- An open conversation has its stub, which has not said goodbye. -/
theorem Pc.Expects.opened {pc : Pc} {h : HostId} {stub : Option StubId} {a : Bool}
    (he : pc.Expects h stub a .opened) (hr : pc.replying h = 0) :
    ∃ s, stub = some s ∧ pc ≠ .leaveDestroy s ∧ pc ≠ .selfDestroy h := by
  cases pc with
  | relayReply r =>
    simp only [Pc.replying] at hr
    have hr : r ≠ ⟨.destroy, h⟩ := by simpa using hr
    by_cases hi : r = ⟨.init, h⟩
    · simp [Pc.Expects, hi] at he
    · simp only [Pc.Expects, hi, hr, if_false] at he
      simpa using settled_opened he
  | leaveDestroy s =>
    by_cases hs : stub = some s
    · simp [Pc.Expects, hs] at he
    · simp only [Pc.Expects, hs, if_false] at he
      obtain ⟨x, rfl⟩ := settled_opened he
      exact ⟨x, rfl, by simpa [eq_comm] using hs, by simp⟩
  | selfDestroy h' =>
    by_cases hs : h' = h
    · simp [Pc.Expects, hs] at he
    · simp only [Pc.Expects, hs, if_false] at he
      simpa [hs] using settled_opened he
  | selfReply h' =>
    by_cases hs : h' = h
    · simp [Pc.Expects, hs] at he
    · simp only [Pc.Expects, hs, if_false] at he
      simpa using settled_opened he
  | idle | relayTask | stubData | leave | leavePost | selfDrop => simpa using settled_opened he

/-- A host that was told of the Factory's end is about to be told of its own. -/
theorem Pc.Expects.leaving {pc : Pc} {h : HostId} {stub : Option StubId} {a : Bool}
    (he : pc.Expects h stub a .leaving) :
    (∃ s, pc = .leaveDestroy s ∧ stub = some s) ∨ pc = .selfDestroy h ∨ pc = .selfReply h := by
  cases pc with
  | relayReply r =>
    by_cases hi : r = ⟨.init, h⟩
    · simp [Pc.Expects, hi] at he
    · by_cases hd : r = ⟨.destroy, h⟩
      · simp [Pc.Expects, hd] at he
      · simp only [Pc.Expects, hi, hd, if_false] at he
        exact absurd he not_settled_leaving
  | leaveDestroy s =>
    by_cases hs : stub = some s
    · exact .inl ⟨s, rfl, hs⟩
    · simp only [Pc.Expects, hs, if_false] at he
      exact absurd he not_settled_leaving
  | selfDestroy h' =>
    by_cases hs : h' = h
    · simp [hs]
    · simp only [Pc.Expects, hs, if_false] at he
      exact absurd he not_settled_leaving
  | selfReply h' =>
    by_cases hs : h' = h
    · simp [hs]
    · simp only [Pc.Expects, hs, if_false] at he
      exact absurd he not_settled_leaving
  | idle | relayTask | stubData | leave | leavePost | selfDrop => exact absurd he not_settled_leaving

/-- Nothing more is on its way to a host whose conversation is closed. -/
theorem toPost_of_closed {h : HostId} {a b : Bool} (he : w.pc.Expects h (w.stubOf h) a (.closed b)) :
    w.toPost h = [] := by
  cases hpc : w.pc with
  | leavePost s =>
    rw [hpc] at he
    simp [World.toPost, hpc, settled_closed he]
  | leaveDestroy s =>
    rw [hpc] at he
    by_cases hs : w.stubOf h = some s
    · simp [Pc.Expects, hs] at he
    · simp [World.toPost, hpc, hs]
  | selfDestroy h' | selfReply h' =>
    rw [hpc] at he
    by_cases hs : h' = h
    · simp [Pc.Expects, hs] at he
    · simp [World.toPost, hpc, hs]
  | idle | relayTask | relayReply | stubData | leave | selfDrop => simp [World.toPost, hpc]

/-- The stub is registered when OnInit runs, or both goodbyes are still ahead. -/
theorem Sound.initRuns (hs : Sound c w) (ht : Told w) (ha : AskedAfterInit w) {t : ThreadId} {h : HostId}
    (hpc : (w.loop t).pc = .runReply ⟨.init, h⟩) :
    (∃ s st f fac, w.stubOf h = some s ∧ w.stub s = some st ∧ st.factory = some f ∧
      w.gFactory = some f ∧ w.factory f = some fac ∧ .stub s ∈ fac.observerList.members) ∨
    ∃ data : List FactoryData, (w.loop t).inFlight h ++ w.toPost h =
      .replyInit :: data.map .onDataProduced ++ [.onFactoryDestory, .replyDestroy] := by
  obtain ⟨-, hnone, hfl, hne⟩ := hs.inFlight_of_runReply hpc
  obtain ⟨hreplying, hcount⟩ := ht.count_eq ha hs.relayed hs hnone
  have he := hs.conversing.expects h
  unfold World.Expects at he
  rw [hfl]
  cases hp : phase (posted w.trace h) with
  | fresh => exact absurd (phase_eq_fresh.mp hp) hne
  | broken => exact absurd hp (hs.posted_phase h)
  | opened =>
    rw [hp] at he
    obtain ⟨s, hsome, hnd, hns⟩ := he.opened hreplying
    obtain ⟨st, hst, rfl⟩ := stub_of_stubOf hs.counted.owned hsome
    cases hf : st.factory with
    | some f =>
      obtain ⟨l, hl, hmem⟩ := hs.listed.stubListed s st f hst hf
      obtain ⟨fac, hfac, rfl⟩ := Option.map_eq_some_iff.mp hl
      exact .inl ⟨s, st, f, fac, hsome, hst, hf, hs.listed.current f _ hl, hfac, hmem⟩
    | none =>
      obtain hl | hl | hl := hs.bound.leaving s st hst hf
      · obtain ⟨data, hms⟩ := opened_form hp
        exact .inr ⟨data, by simp [hms, World.toPost, hl, hsome]⟩
      · exact absurd hl hnd
      · exact absurd hl hns
  | leaving =>
    rw [hp] at he
    obtain ⟨data, hms⟩ := leaving_form hp
    refine .inr ⟨data, ?_⟩
    obtain ⟨s, hl, hsome⟩ | hl | hl := he.leaving
    · simp [hms, World.toPost, hl, hsome]
    · simp [hms, World.toPost, hl]
    · simp [hms, World.toPost, hl]
  | closed b =>
    rw [hp] at he
    rw [toPost_of_closed he]
    have hmem := (phase_sent (hs.posted_phase h)).destroy.mp ⟨b, hp⟩
    have hpos := List.count_pos_iff.mpr hmem
    rw [hp] at hcount
    cases b with
    | false =>
      rw [hcount] at hpos
      exact absurd hpos (Nat.lt_irrefl 0)
    | true =>
      obtain ⟨data, hms⟩ := announced_form hp hcount
      exact .inr ⟨data, by simp [hms]⟩

theorem called_of_mem {trace : List Entry} {h : HostId} (hm : .initCall h ∈ trace) :
    (trace.foldl (orphanStep h) (false, false)).1 = true := by
  induction trace using List.reverseRecOn with
  | nil => cases hm
  | append_singleton es e ih =>
    rw [List.foldl_append, List.foldl_cons, List.foldl_nil]
    obtain hes | he := List.mem_append.mp hm
    · cases e <;> simp only [orphanStep, ih hes]
      split <;> simp [ih hes]
    · obtain rfl := List.mem_singleton.mp he
      simp [orphanStep]

/-- Entries that do not tell of Init or of the life of a Factory. -/
def Entry.isOther : Entry → Bool
  | .initCall _ | .created _ _ | .deleted _ => false
  | _ => true

theorem orphaned_append {trace es : List Entry} (hes : ∀ e ∈ es, e.isOther = true) (h : HostId) :
    orphaned (trace ++ es) h = orphaned trace h := by
  have : ∀ s, es.foldl (orphanStep h) s = s := by
    intro s
    induction es with
    | nil => rfl
    | cons e es ih =>
      have hsame : orphanStep h s e = s := by
        have he := hes e List.mem_cons_self
        cases e <;> first | rfl | cases he
      rw [List.foldl_cons, hsame]
      exact ih fun e he => hes e (List.mem_cons_of_mem _ he)
  simp [orphaned, List.foldl_append, this]

theorem isOther_deletion (o : FactoryHost) (h : HostId) : ∀ e ∈ o.deletion h, e.isOther = true := by
  unfold FactoryHost.deletion
  split <;> simp [Entry.isOther]

/-- The host side never touches `g_factory`, and of all this only Init is its doing. -/
theorem HostMove.isOther {w' : World} {e : Event} (hm : HostMove c w e w') :
    w'.gFactory = w.gFactory ∧ ((∃ h, e = .init h) ∨
      ∃ es, w'.trace = w.trace ++ es ∧ ∀ e ∈ es, e.isOther = true) := by
  cases hm with
  | @init h => exact ⟨rfl, .inl ⟨h, rfl⟩⟩
  | selfDrop | resetTask | deleteRelay | unbind | dropRef =>
    exact ⟨rfl, .inr ⟨_, rfl, isOther_deletion _ _⟩⟩
  | beginRelay | leave | leaveDestroy | selfDestroyNull | beginHost | addRef =>
    exact ⟨rfl, .inr ⟨[], by simp, by simp⟩⟩
  | postInit | relayDestroyNull | relayDestroyStub | relayReply | forward | hold | leavePost
  | selfDestroyStub | selfReply | runReply | runCall | destroy =>
    exact ⟨rfl, .inr ⟨_, rfl, by simp [Entry.isOther]⟩⟩

/-- Whoever called Init is an orphan while there is no Factory, and PostInit never runs then. -/
structure Adopted (w : World) : Prop where
  orphans : w.gFactory = none → ∀ h, .initCall h ∈ w.trace → orphaned w.trace h = true
  factory : ∀ h, w.pc = .relayTask ⟨.init, h⟩ → w.gFactory ≠ none

/-- Only a relay that the discipline lets start is ever about to run its task. -/
theorem HostMove.relayTask {w' : World} {e : Event} (hm : HostMove c w e w') {r : Relay}
    (hpc : w'.pc = .relayTask r) : w.pc = .relayTask r ∨ (e = .begin ∧ w.nextRelay = some r) := by
  cases hm with
  | beginRelay hidle hts =>
    obtain rfl := Pc.relayTask.inj hpc
    exact .inr ⟨rfl, by simp [World.nextRelay, hts]⟩
  | postInit | relayDestroyNull | relayDestroyStub | relayReply | forward | hold | leave | leavePost
  | leaveDestroy | selfDestroyNull | selfDestroyStub | selfReply | selfDrop => cases hpc
  | beginHost | resetTask | runReply | deleteRelay | runCall | unbind | init | destroy | addRef | dropRef =>
    exact .inl hpc

theorem Adopted.hostMove {w' : World} {e : Event} (hrel : Relayed w) (ha : Adopted w) (hp : InitInTime w e)
    (hm : HostMove c w e w') : Adopted w' := by
  obtain ⟨hg, htr⟩ := hm.isOther
  constructor
  · intro hnone h hmem
    rw [hg] at hnone
    obtain ⟨h', rfl⟩ | ⟨es, hes, hother⟩ := htr
    · exact absurd hnone (hp.1.2 h' rfl)
    · rw [hes] at hmem ⊢
      rw [orphaned_append hother]
      obtain hmem | hmem := List.mem_append.mp hmem
      · exact ha.orphans hnone h hmem
      · exact absurd (hother _ hmem) (by simp [Entry.isOther])
  · intro h hpc
    rw [hg]
    obtain hpc | ⟨rfl, hnext⟩ := hm.relayTask hpc
    · exact ha.factory h hpc
    · intro hnone
      have hwaits : 0 < (relays w.tasks).count ⟨.init, h⟩ := by
        unfold World.nextRelay at hnext
        split at hnext
        · rename_i hts
          obtain rfl := Option.some.inj hnext
          simp [hts]
        · cases hnext
      have hcalled : .initCall h ∈ w.trace := by
        have := hrel ⟨.init, h⟩
        by_contra hn
        rw [calls_eq_zero hn] at this
        omega
      have := hp.2 rfl _ hnext rfl
      rw [ha.orphans hnone h hcalled] at this
      cases this

theorem FactoryMove.pc_relayTask {w' : World} {e : Event} (hm : FactoryMove w e w') {r : Relay}
    (hpc : w'.pc = .relayTask r) : w'.gFactory = w.gFactory ∧ w.pc = .relayTask r := by
  cases hm with
  | post | tick => exact ⟨rfl, hpc⟩
  | beginCalls hidle | beginSchedule hidle | beginDelayed hidle => cases hidle.1.symm.trans hpc
  | callsDone hidle | skip hidle | create hidle | start hidle | stop hidle | destroyBegin hidle
  | addObserver hidle | removeObserver hidle | scheduleStopped hidle | scheduleNow hidle
  | scheduleLater hidle | produce hidle | notifyDead hidle | notifyEnd hidle | notifyPlain hidle
  | produced hidle | destroyed hidle => cases hidle.symm.trans hpc
  | notifyProduced | notifyDestroyed => cases hpc

theorem Adopted.factoryMove {w' : World} {e : Event} (ha : Adopted w) (hm : FactoryMove w e w') :
    Adopted w' := by
  have hkeep : ∀ es, w'.trace = w.trace ++ es → (∀ e ∈ es, e.isOther = true) → w'.gFactory = w.gFactory →
      w'.gFactory = none → ∀ h, .initCall h ∈ w'.trace → orphaned w'.trace h = true := by
    intro es htr hes hg hnone h hmem
    rw [htr] at hmem ⊢
    rw [orphaned_append hes]
    obtain hmem | hmem := List.mem_append.mp hmem
    · exact ha.orphans (hg ▸ hnone) h hmem
    · exact absurd (hes _ hmem) (by simp [Entry.isOther])
  constructor
  · cases hm with
    | create => exact nofun
    | destroyed =>
      intro _ h hmem
      have hmem : .initCall h ∈ w.trace := by simpa using hmem
      simp [orphaned, List.foldl_append, orphanStep, called_of_mem hmem]
    | post | tick | beginCalls | callsDone | skip | start | stop | addObserver | removeObserver
    | scheduleStopped | scheduleNow | scheduleLater | notifyDead | notifyEnd | produced =>
      exact hkeep [] (by simp) (by simp) rfl
    | beginSchedule | beginDelayed | destroyBegin | produce | notifyPlain | notifyProduced
    | notifyDestroyed => exact hkeep _ rfl (by simp [Entry.isOther]) rfl
  · intro h hpc
    obtain ⟨hg, hpc⟩ := hm.pc_relayTask hpc
    rw [hg]
    exact ha.factory h hpc

theorem adopted_of_reaches (hr : GuardedRun.Reaches (step c) InitInTime .initial w) : Adopted w :=
  invariant_of_moves (fun _ _ hp => hp.1.1) (fun _ _ _ hs _ ha hp hm => ha.hostMove hs.relayed hp hm)
    (fun _ _ _ _ _ ha _ hm => ha.factoryMove hm) ⟨(fun _ _ hm => nomatch hm), (fun _ hpc => nomatch hpc)⟩ hr

/-- While every PostInit comes before the end of the Factory that was alive at its Init, or a new
Factory comes before it, attaching is safe against teardown. -/
theorem attachSafe_of_reaches (c : Config) {w : World}
    (hr : GuardedRun.Reaches (step c) InitInTime .initial w) : AttachSafe w := by
  have hP : ∀ w e, InitInTime w e → Checked w e := fun _ _ hp => hp.1.1
  exact ⟨(adopted_of_reaches hr).factory, fun _ _ hpc =>
    (sound_of_reaches hP hr).initRuns (told_of_reaches hP hr) (askedAfterInit_of_reaches hP hr) hpc⟩

/-- A host attaches to a second Factory after the first one was destroyed behind its Init. -/
theorem attachSafe_of_reaches_second_factory : ∃ w,
    GuardedRun.Reaches (step .plain) InitInTime .initial w ∧
    (w.gFactory = some 1 ∧ (w.loop 0).pc = .runReply ⟨.init, 0⟩ ∧ w.stubOf 0 = some 0) ∧ AttachSafe w := by
  obtain ⟨w, hr, hw⟩ := GuardedRun.exists_of_execute (step .plain) InitInTime .initial
    [.post [.create], .begin, .run 0 [], .run 0 [], .post [.destroy, .create], .init 0, .begin, .run 0 [],
      .run 0 [], .run 0 [], .run 0 [], .begin, .run 0 [], .run 0 [], .beginHost 0, .runHost 0]
    (fun w => decide (w.gFactory = some 1 ∧ (w.loop 0).pc = .runReply ⟨.init, 0⟩ ∧ w.stubOf 0 = some 0))
    (by decide)
  exact ⟨w, hr, of_decide_eq_true hw, attachSafe_of_reaches .plain hr⟩

/-- Destroy is queued when Init is called: PostInit finds no Factory and cannot go on. -/
theorem not_attachSafe_orphaned : ∃ w, GuardedRun.Reaches (step .plain) AliveInit .initial w ∧
    w.pc = .relayTask ⟨.init, 0⟩ ∧ w.gFactory = none ∧ step .plain w (.run 0 []) = none ∧
    ¬ AttachSafe w := by
  obtain ⟨w, hr, hw⟩ := GuardedRun.exists_of_execute (step .plain) AliveInit .initial
    [.post [.create], .begin, .run 0 [], .run 0 [], .post [.destroy], .init 0, .begin, .run 0 [], .run 0 [],
      .run 0 [], .begin]
    (fun w => decide (w.pc = .relayTask ⟨.init, 0⟩ ∧ w.gFactory = none) &&
      (step .plain w (.run 0 [])).isNone) (by decide)
  obtain ⟨⟨hpc, hg⟩, hnone⟩ := by simpa using hw
  exact ⟨w, hr, hpc, hg, hnone, fun hs => hs.initFindsFactory 0 hpc hg⟩

end OscDataProcess
