import OscDataProcess.Limiter
import OscDataProcess.Conversation

/-!
# What a stub forwards

Of the data that are offered to the stub of a host, a FactoryStub posts every one and
a FreqFactoryHostStub those that its limiter lets through.
-/
namespace OscDataProcess

open Function (update)
open World

def Entry.offered? (h : HostId) : Entry → Option (Nat × FactoryData)
  | .offered h' time data => if h' = h then some (time, data) else none
  | _ => none

/-- The data offered to the stub of host `h`, with the clock readings. -/
def offered (trace : List Entry) (h : HostId) : List (Nat × FactoryData) := trace.filterMap (Entry.offered? h)

@[simp] theorem offered_append (es es' : List Entry) (h : HostId) :
    offered (es ++ es') h = offered es h ++ offered es' h := List.filterMap_append

@[simp] theorem offered_cons (e : Entry) (es : List Entry) (h : HostId) :
    offered (e :: es) h = (e.offered? h).toList ++ offered es h := by
  unfold offered
  rw [List.filterMap_cons]
  cases e.offered? h <;> rfl

@[simp] theorem offered_nil (h : HostId) : offered [] h = [] := rfl

@[simp] theorem offered_deletion (o : FactoryHost) (h b : HostId) : offered (o.deletion h) b = [] := by
  unfold FactoryHost.deletion
  split <;> rfl

theorem Quiet.offered {w w' : World} (hq : Quiet w w') (h : HostId) :
    offered w'.trace h = offered w.trace h := by
  obtain ⟨es, htr, hes⟩ := hq.trace
  have : OscDataProcess.offered es h = [] :=
    filterMap_isFactory (by intro e he; cases e <;> simp_all [Entry.IsFactory, Entry.offered?]) hes
  rw [htr, offered_append, this, List.append_nil]

@[simp] theorem dataOf_append (ms ms' : List Callback) : dataOf (ms ++ ms') = dataOf ms ++ dataOf ms' :=
  List.filterMap_append

/-- What the stub of a plain host, or of one with a frequency, forwards of `offers`. -/
def forwardedOf (freq : Option Nat) (offers : List (Nat × FactoryData)) : List FactoryData :=
  match freq with
  | none => offers.map Prod.snd
  | some q => ((FreqLimiter.mk q 0).serve offers).2

/-- The limiter of such a stub after `offers`. -/
def limiterOf (freq : Option Nat) (offers : List (Nat × FactoryData)) : Option FreqLimiter :=
  freq.map fun q => ((FreqLimiter.mk q 0).serve offers).1

theorem onDataProduced_limiterOf {freq : Option Nat} {offers : List (Nat × FactoryData)} {st : FactoryStub}
    (hst : st.limiter = limiterOf freq offers) (time : Nat) (data : FactoryData) :
    (st.onDataProduced time).1.limiter = limiterOf freq (offers ++ [(time, data)]) ∧
      forwardedOf freq (offers ++ [(time, data)]) =
        forwardedOf freq offers ++ if (st.onDataProduced time).2 then [data] else [] := by
  cases freq with
  | none =>
    have hnone : st.limiter = none := hst
    simp [FactoryStub.onDataProduced, limiterOf, forwardedOf, hnone]
  | some q =>
    have hsome : st.limiter = some ((FreqLimiter.mk q 0).serve offers).1 := hst
    simp [FactoryStub.onDataProduced, limiterOf, forwardedOf, hsome, serve_concat]

/-- Every stub has served all that was offered to its host, and posted what it forwarded. -/
structure Served (c : Config) (w : World) : Prop where
  limiter : ∀ s st, w.stub s = some st →
    st.limiter = limiterOf (c.freq st.observer) (offered w.trace st.observer)
  forwards : ∀ h, dataOf (posted w.trace h) = forwardedOf (c.freq h) (offered w.trace h)
  unattached : ∀ h, attached w.trace h = false → offered w.trace h = []

theorem served_initial (c : Config) : Served c .initial where
  limiter := nofun
  forwards := by
    intro h
    cases c.freq h <;> simp [initial, forwardedOf, dataOf]
  unattached := fun _ _ => rfl

variable {c : Config} {w : World}

/-- Nothing is offered and no datum is posted. -/
theorem Served.keep {w' : World} (hv : Served c w)
    (hstub : ∀ s st', w'.stub s = some st' →
      ∃ st, w.stub s = some st ∧ st'.observer = st.observer ∧ st'.limiter = st.limiter)
    (hoffered : ∀ h, offered w'.trace h = offered w.trace h)
    (hposted : ∀ h, dataOf (posted w'.trace h) = dataOf (posted w.trace h))
    (hattached : ∀ h, attached w.trace h = true → attached w'.trace h = true) :
    Served c w' where
  limiter := by
    intro s st' hs
    obtain ⟨st, hst, hobs, hlim⟩ := hstub s st' hs
    rw [hlim, hobs, hoffered]
    exact hv.limiter s st hst
  forwards := by
    intro h
    rw [hposted, hoffered]
    exact hv.forwards h
  unattached := by
    intro h hn
    rw [hoffered]
    refine hv.unattached h ?_
    by_contra hyes
    rw [hattached h (by simpa using hyes)] at hn
    cases hn

theorem Served.quiet {w' : World} (hv : Served c w) (hq : Quiet w w') : Served c w' := by
  refine hv.keep ?_ hq.offered (fun h => by rw [hq.posted]) fun h ha => ?_
  · intro s st hs
    exact ⟨st, hq.stub ▸ hs, rfl, rfl⟩
  · rw [attached_congr (hq.runs _)]
    exact ha

/-- One datum is offered to stub `s`, and is posted if it is forwarded. -/
theorem Served.offer {w' : World} (hb : Bound w) (hv : Served c w) {s : StubId} {st : FactoryStub}
    (hst : w.stub s = some st) (time : Nat) (data : FactoryData)
    (hstub : w'.stub = update w.stub s (some (st.onDataProduced time).1))
    (hoffered : ∀ h, offered w'.trace h =
      offered w.trace h ++ if st.observer = h then [(time, data)] else [])
    (hposted : ∀ h, dataOf (posted w'.trace h) = dataOf (posted w.trace h) ++
      if st.observer = h then (if (st.onDataProduced time).2 then [data] else []) else [])
    (hattached : ∀ h, attached w'.trace h = attached w.trace h) :
    Served c w' where
  limiter := by
    intro x sx hx
    rw [hstub] at hx
    rw [hoffered]
    by_cases he : x = s
    · subst he
      rw [Function.update_self] at hx
      obtain rfl := Option.some.inj hx
      simpa using (onDataProduced_limiterOf (hv.limiter x st hst) time data).1
    · rw [Function.update_of_ne he] at hx
      have hne : st.observer ≠ sx.observer := by
        intro hsame
        have h₁ := stubOf_of_stub hb hst
        rw [hsame, stubOf_of_stub hb hx] at h₁
        exact he (Option.some.inj h₁)
      rw [if_neg hne, List.append_nil]
      exact hv.limiter x sx hx
  forwards := by
    intro h
    rw [hposted, hoffered, hv.forwards]
    by_cases hh : st.observer = h
    · subst hh
      rw [if_pos rfl, if_pos rfl, (onDataProduced_limiterOf (hv.limiter s st hst) time data).2]
    · rw [if_neg hh, if_neg hh, List.append_nil, List.append_nil]
  unattached := by
    intro h hn
    rw [hattached] at hn
    have hne : st.observer ≠ h := by
      rintro rfl
      have := hb.attached s st hst
      simp [attached, this] at hn
    rw [hoffered, if_neg hne, List.append_nil]
    exact hv.unattached h hn

theorem Served.hostMove {w' : World} {e : Event} (hr : Relayed w) (hb : Bound w) (hv : Served c w)
    (hm : HostMove c w e w') : Served c w' := by
  have hid : ∀ s st', w.stub s = some st' →
      ∃ st, w.stub s = some st ∧ st'.observer = st.observer ∧ st'.limiter = st.limiter :=
    fun s st' hs => ⟨st', hs, rfl, rfl⟩
  have hdel : ∀ {s}, ∀ x sx, update w.stub s none x = some sx →
      ∃ st, w.stub x = some st ∧ sx.observer = st.observer ∧ sx.limiter = st.limiter := by
    intro s x sx hx
    by_cases he : x = s
    · subst he
      simp at hx
    · rw [Function.update_of_ne he] at hx
      exact hid x sx hx
  cases hm with
  | @postInit h f fac o time script hpc hf hfac ho =>
    have hnone : attached w.trace h = false := by simp [attached, hb.runs_eq_zero hr hpc]
    refine ⟨?_, by simpa [Entry.posted?, Entry.offered?] using hv.forwards, ?_⟩
    · intro x sx hx
      have hsame : ∀ b, offered (w.trace ++ [.attached h w.freshStub f]) b = offered w.trace b := by
        simp [Entry.offered?]
      rw [hsame]
      simp only at hx
      by_cases he : x = w.freshStub
      · subst he
        rw [Function.update_self] at hx
        obtain rfl := Option.some.inj hx
        simp [limiterOf, hv.unattached h hnone]
      · rw [Function.update_of_ne he] at hx
        exact hv.limiter x sx hx
    · intro b hn
      have hn : attached w.trace b = false := by simp at hn; exact hn.1
      simpa [Entry.offered?] using hv.unattached b hn
  | @forward s data st o time script hpc hst hfwd ho =>
    refine hv.offer hb hst time data rfl ?_ ?_ (by simp [Entry.isRun])
    · intro h
      simp only [offered_append, offered_cons, offered_nil, Entry.offered?]
      split <;> simp
    · intro h
      rw [hfwd]
      simp only [posted_append, posted_cons, posted_nil, Entry.posted?]
      split <;> simp [dataOf]
  | @hold s data st time script hpc hst hhold =>
    refine hv.offer hb hst time data rfl ?_ ?_ (by simp [Entry.isRun])
    · intro h
      simp only [offered_append, offered_cons, offered_nil, Entry.offered?]
      split <;> simp
    · intro h
      rw [hhold]
      simp [Entry.posted?]
  | @leave s st f fac time script hpc hst =>
    refine hv.keep ?_ (fun _ => rfl) (fun _ => rfl) fun _ => id
    intro x sx hx
    simp only at hx
    by_cases he : x = s
    · subst he
      rw [Function.update_self] at hx
      obtain rfl := Option.some.inj hx
      exact ⟨st, hst, rfl, rfl⟩
    · rw [Function.update_of_ne he] at hx
      exact hid x sx hx
  | relayDestroyStub | selfDestroyStub =>
    exact hv.keep hdel (by simp [Entry.offered?]) (by simp [Entry.posted?]) (by simp +contextual)
  | @relayReply r =>
    refine hv.keep hid (by simp [Entry.offered?]) ?_ (by simp +contextual)
    intro h
    obtain ⟨kind, b⟩ := r
    cases kind <;> simp only [posted_append, posted_cons, posted_nil, Entry.posted?] <;> split <;>
      simp [dataOf, RelayKind.callback]
  | leavePost | selfReply =>
    refine hv.keep hid (by simp [Entry.offered?]) ?_ (by simp +contextual)
    intro h
    simp only [posted_append, posted_cons, posted_nil, Entry.posted?]
    split <;> simp [dataOf]
  | beginRelay | relayDestroyNull | leaveDestroy | selfDestroyNull | selfDrop | beginHost | resetTask
  | runReply | deleteRelay | runCall | unbind | init | destroy | addRef | dropRef =>
    exact hv.keep hid (by simp [Entry.offered?]) (by simp [Entry.posted?]) (by simp +contextual)

/-- With one Init call for each host every stub serves what it is offered. -/
theorem served_of_reaches {P : World → Event → Prop} (hP : ∀ w e, P w e → InitOnce w e)
    (hr : GuardedRun.Reaches (step c) P .initial w) : Served c w := by
  refine GuardedRun.Reaches.invariant_of (K := GuardedRun.Reaches (step c) P .initial) (fun _ => id) ?_
    (served_initial c) hr
  intro t e u ht hv hp he _
  obtain hm | hm := step_cases (counted_of_reaches ht).owned he
  · exact hv.hostMove (relayed_of_reaches ht) (bound_of_reaches hP ht) hm
  · exact hv.quiet hm.quiet

end OscDataProcess
