import OscDataProcess.Production
import OscDataProcess.Offers

/-!
# Snapshot and stream

The Factory's last datum is handed to a host when its stub is made, and every datum
produced from then on until the stub is deleted is offered to it once, in order. While
an observer loop is under way, what is still to come is in front of its iterator.
-/
namespace OscDataProcess

open Function (update)
open World

/-- What the history says of one host: the last datum of every Factory, the Factory the host is
attached to, the last datum of that Factory when it attached, and all it has produced since. -/
structure Reception where
  last : FactoryId → Option FactoryData
  factory : Option FactoryId
  snapshot : Option FactoryData
  data : List FactoryData

def Reception.step (h : HostId) (r : Reception) : Entry → Reception
  | .created f data => { r with last := update r.last f (some data) }
  | .produced f _ data => { r with
      last := update r.last f (some data)
      data := if r.factory = some f then r.data ++ [data] else r.data }
  | .attached h' _ f => if h' = h then { r with factory := some f, snapshot := r.last f, data := [] } else r
  | .detached h' _ => if h' = h then { r with factory := none } else r
  | _ => r

def reception (trace : List Entry) (h : HostId) : Reception :=
  trace.foldl (Reception.step h) ⟨fun _ => none, none, none, []⟩

@[simp] theorem reception_append (es es' : List Entry) (h : HostId) :
    reception (es ++ es') h = es'.foldl (Reception.step h) (reception es h) := List.foldl_append

@[simp] theorem reception_nil (h : HostId) : reception [] h = ⟨fun _ => none, none, none, []⟩ := rfl

@[simp] theorem reception_deletion (o : FactoryHost) (b h : HostId) (r : Reception) :
    (o.deletion b).foldl (Reception.step h) r = r := by
  unfold FactoryHost.deletion
  split <;> rfl

/-- The observers of a Factory call nothing back. -/
def Event.script : Event → List Call
  | .run _ script => script
  | _ => []

/-- Checked callers, and observers that do not re-enter the Factory. -/
def Quietly (w : World) (e : Event) : Prop := Checked w e ∧ e.script = []

instance (w : World) (e : Event) : Decidable (Quietly w e) := inferInstanceAs (Decidable (_ ∧ _))

/-- A loop that hands out a datum. -/
def Frame.isDataLoop : Frame → Bool
  | .notify .produced _ _ => true
  | .notify .destroyed _ _ | .calls _ | .schedule _ | .produce _ | .produced | .destroyed _ => false

/-- Data are handed out at the bottom of the stack, with at most a return from an observer above. -/
structure Unnested (w : World) : Prop where
  bottom : ∀ fr ∈ w.frames, fr.isDataLoop = true →
    w.frames = [fr, .produced] ∨ w.frames = [.calls [], fr, .produced]
  place : (w.pc = .idle ∨ ∃ s data, w.pc = .stubData s data) ∨ ∀ fr ∈ w.frames, fr.isDataLoop = false

theorem unnested_initial : Unnested .initial := ⟨nofun, .inl (.inl rfl)⟩

variable {c : Config} {w : World}

/-- No datum is being handed out when the top frame is anything else. -/
theorem Unnested.no_loop (hu : Unnested w) {fr : Frame} {rest : List Frame} (hw : w.frames = fr :: rest)
    (hfr : fr.isDataLoop = false) (hcalls : fr ≠ .calls []) : ∀ x ∈ fr :: rest, x.isDataLoop = false := by
  intro x hx
  by_contra hloop
  obtain hone | htwo := hu.bottom x (hw ▸ hx) (by simpa using hloop)
  · rw [hw] at hone
    obtain ⟨rfl, -⟩ := List.cons.inj hone
    exact hloop hfr
  · rw [hw] at htwo
    exact hcalls (List.cons.inj htwo).1

/-- Below a loop that hands out a datum there is only the rest of Produce. -/
theorem Unnested.rest_of_loop (hu : Unnested w) {fr : Frame} {rest : List Frame} (hw : w.frames = fr :: rest)
    (hfr : fr.isDataLoop = true) : rest = [.produced] := by
  obtain hone | htwo := hu.bottom fr (hw ▸ List.mem_cons_self) hfr
  · rw [hw] at hone
    exact (List.cons.inj hone).2
  · rw [hw] at htwo
    obtain ⟨rfl, -⟩ := List.cons.inj htwo
    cases hfr

theorem Unnested.hostMove {w' : World} {e : Event} (hl : Listed w) (hu : Unnested w) (hm : HostMove c w e w') :
    Unnested w' := by
  refine ⟨by rw [(hm.chain 0).2]; exact hu.bottom, ?_⟩
  rw [(hm.chain 0).2]
  have hplaced := hl.placed
  cases hm with
  | beginRelay hidle => exact .inr (by simp [hidle.2])
  | relayReply | forward | hold | selfDrop => exact .inl (.inl rfl)
  | postInit hpc | relayDestroyNull hpc | relayDestroyStub hpc =>
    rw [hpc] at hplaced
    have hnil : w.frames = [] := hplaced
    exact .inr (by simp [hnil])
  | leave hpc | leavePost hpc | leaveDestroy hpc | selfDestroyNull hpc | selfDestroyStub hpc
  | selfReply hpc => exact .inr (hu.place.resolve_left (by simp [hpc]))
  | beginHost | resetTask | runReply | deleteRelay | runCall | unbind | init | destroy | addRef | dropRef =>
    exact hu.place

theorem startNotify_isDataLoop (k : Notice) (f : FactoryId) (fac : Factory) :
    (startNotify k f fac).2 = [] ∨ (startNotify k f fac).2 = [.notify k f 0] := by
  unfold startNotify
  split <;> simp

theorem Unnested.factoryMove {w' : World} {e : Event} (ha : Alone w) (hu : Unnested w) (he : e.script = [])
    (hm : FactoryMove w e w') : Unnested w' := by
  have hnone : ∀ {v : World}, (∀ fr ∈ v.frames, fr.isDataLoop = false) → Unnested v := by
    intro v hv
    refine ⟨fun fr hfr hloop => ?_, .inr hv⟩
    rw [hv fr hfr] at hloop
    cases hloop
  have hpush : ∀ {fr : Frame} {rest : List Frame} {frames : List Frame}, w.frames = fr :: rest →
      fr.isDataLoop = false → fr ≠ .calls [] → (∀ x ∈ frames, x ∈ rest ∨ x.isDataLoop = false) →
      ∀ x ∈ frames, x.isDataLoop = false := by
    intro fr rest frames hw hfr hcalls hsub x hx
    obtain hx | hx := hsub x hx
    · exact hu.no_loop hw hfr hcalls x (List.mem_cons_of_mem fr hx)
    · exact hx
  have hloop : ∀ {v : World} {f : FactoryId} {i : Nat}, v.frames = [.notify .produced f i, .produced] →
      (v.pc = .idle ∨ ∃ s data, v.pc = .stubData s data) → Unnested v := by
    intro v f i hv hpc
    refine ⟨fun fr hfr hfr' => ?_, .inl hpc⟩
    obtain rfl | rfl := by simpa [hv] using hfr
    · exact .inl hv
    · cases hfr'
  cases hm with
  | post | tick => exact ⟨hu.bottom, hu.place⟩
  | beginCalls => exact hnone (by simp [Frame.isDataLoop])
  | beginSchedule | beginDelayed =>
    apply hnone
    dsimp only
    split <;> simp [Frame.isDataLoop]
  | @callsDone rest time script hpc hw =>
    refine ⟨fun fr hfr hloop => ?_, .inl (.inl hpc)⟩
    obtain hone | htwo := hu.bottom fr (hw ▸ List.mem_cons_of_mem _ hfr) hloop
    · rw [hw] at hone
      obtain ⟨rfl, -⟩ := List.cons.inj hone
      cases hloop
    · rw [hw] at htwo
      exact .inl (List.cons.inj htwo).2
  | skip hpc hw | create hpc hw | start hpc hw | stop hpc hw | addObserver hpc hw | removeObserver hpc hw =>
    exact hnone (hpush hw rfl (by simp) (by simp +contextual [Frame.isDataLoop]))
  | @destroyBegin f fac ks rest time script hpc hw =>
    refine hnone (hpush hw rfl (by simp) ?_)
    obtain hnil | hone := startNotify_isDataLoop .destroyed f fac
    · simp +contextual [hnil, Frame.isDataLoop]
    · simp +contextual [hone, Frame.isDataLoop]
  | scheduleStopped hpc hw => exact hnone (hpush hw rfl (by simp) (fun x hx => .inl hx))
  | scheduleNow hpc hw | scheduleLater hpc hw =>
    exact hnone (hpush hw rfl (by simp) (by simp +contextual [Frame.isDataLoop]))
  | @produce f fac rest time script hpc hw =>
    obtain rfl := ha.rest_eq_nil hw rfl
    obtain hnil | hone := startNotify_isDataLoop .produced f { fac with data := .make w.dataId }
    · exact hnone (by simp [hnil, Frame.isDataLoop])
    · exact hloop (f := f) (i := 0) (by simp [hone]) (.inl hpc)
  | @notifyDead k f index rest time script hpc hw =>
    cases k with
    | produced => exact hnone (by simp [hu.rest_of_loop hw rfl, Frame.isDataLoop])
    | destroyed => exact hnone (hpush hw rfl (by simp) (fun x hx => .inl hx))
  | @notifyEnd k f fac index rest time script hpc hw =>
    cases k with
    | produced => exact hnone (by simp [hu.rest_of_loop hw rfl, Frame.isDataLoop])
    | destroyed => exact hnone (hpush hw rfl (by simp) (fun x hx => .inl hx))
  | @notifyPlain k f fac p index next rest time script hpc hw =>
    obtain rfl : script = [] := he
    cases k with
    | produced =>
      obtain rfl := hu.rest_of_loop hw rfl
      refine ⟨fun fr hfr hfr' => ?_, .inl (.inl hpc)⟩
      obtain rfl | rfl | rfl := by simpa using hfr
      · cases hfr'
      · exact .inr rfl
      · cases hfr'
    | destroyed => exact hnone (hpush hw rfl (by simp) (by simp +contextual [Frame.isDataLoop]))
  | @notifyProduced f fac s index next rest time script hpc hw =>
    obtain rfl := hu.rest_of_loop hw rfl
    exact hloop rfl (.inr ⟨s, fac.data, rfl⟩)
  | notifyDestroyed hpc hw => exact hnone (hpush hw rfl (by simp) (by simp +contextual [Frame.isDataLoop]))
  | produced hpc hw => exact hnone (hpush hw rfl (by simp) (fun x hx => .inl hx))
  | destroyed hpc hw => exact hnone (hpush hw rfl (by simp) (fun x hx => .inl hx))

/-- The datum that a suspended loop will still offer to the stub of host `h`. -/
def World.owed (w : World) (h : HostId) : Frame → List FactoryData
  | .notify .produced f index => match w.stubOf h, w.factory f with
    | some s, some fac => if .stub s ∈ fac.observerList.remaining index then [fac.data] else []
    | _, _ => []
  | _ => []

/-- The datum that is just being offered to it. -/
def World.offering (w : World) (h : HostId) : List FactoryData :=
  match w.pc with
  | .stubData s data => if w.stubOf h = some s then [data] else []
  | _ => []

/-- What has been produced and not yet been offered to host `h`. -/
def World.pending (w : World) (h : HostId) : List FactoryData := w.offering h ++ w.frames.flatMap (w.owed h)

theorem owed_eq_nil {h : HostId} {frames : List Frame} (hn : ∀ fr ∈ frames, fr.isDataLoop = false) :
    frames.flatMap (w.owed h) = [] := by
  refine List.flatMap_eq_nil_iff.mpr fun fr hfr => ?_
  have := hn fr hfr
  cases fr with
  | notify k f i =>
    cases k with
    | produced => cases this
    | destroyed => rfl
  | calls | schedule | produce | produced | destroyed => rfl

theorem offering_eq_nil {h : HostId} (hpc : ∀ s data, w.pc ≠ .stubData s data) : w.offering h = [] := by
  unfold World.offering
  split
  · rename_i s data hs
    exact absurd hs (hpc s data)
  · rfl

/-- Every host has been offered all that was produced while it was attached, up to the datum that
is being handed out, and its `data_` is the last that it knows of. -/
structure Streaming (w : World) : Prop where
  factory : ∀ h, w.stubOf h = none → (reception w.trace h).factory = none
  stubFactory : ∀ s st f, w.stub s = some st → st.factory = some f →
    (reception w.trace st.observer).factory = some f
  last : ∀ h f fac, w.factory f = some fac → (reception w.trace h).last f = some fac.data
  latest : ∀ h f, (reception w.trace h).factory = some f → (reception w.trace h).last f =
    ((reception w.trace h).snapshot.toList ++ (reception w.trace h).data).getLast?
  data : ∀ h, (reception w.trace h).data = (offered w.trace h).map Prod.snd ++ w.pending h
  known : ∀ h o, w.host h = some o →
    o.data = ((reception w.trace h).snapshot.toList ++ dataOf (handled w.trace h)).getLast?

theorem streaming_initial : Streaming .initial where
  factory := fun _ _ => rfl
  stubFactory := nofun
  last := nofun
  latest := nofun
  data := fun _ => rfl
  known := by
    intro h o ho
    obtain rfl := Option.some.inj ho
    rfl

/-- Nothing is attached, detached or produced. -/
theorem Streaming.keep {w' : World} (hv : Streaming w) (hstubOf : ∀ h, w'.stubOf h = w.stubOf h)
    (hstub : ∀ s st' f, w'.stub s = some st' → st'.factory = some f →
      ∃ st, w.stub s = some st ∧ st'.observer = st.observer ∧ st.factory = some f)
    (hreception : ∀ h, reception w'.trace h = reception w.trace h)
    (hfactory : ∀ f fac', w'.factory f = some fac' → ∃ fac, w.factory f = some fac ∧ fac'.data = fac.data)
    (hdata : ∀ h, (reception w.trace h).data = (offered w'.trace h).map Prod.snd ++ w'.pending h)
    (hknown : ∀ h o', w'.host h = some o' →
      o'.data = ((reception w.trace h).snapshot.toList ++ dataOf (handled w'.trace h)).getLast?) :
    Streaming w' where
  factory := by
    intro h hn
    rw [hreception]
    exact hv.factory h (hstubOf h ▸ hn)
  stubFactory := by
    intro s st' f hs hf
    obtain ⟨st, hst, hobs, hf'⟩ := hstub s st' f hs hf
    rw [hreception, hobs]
    exact hv.stubFactory s st f hst hf'
  last := by
    intro h f fac' hf
    obtain ⟨fac, hfac, hdata⟩ := hfactory f fac' hf
    rw [hreception, hdata]
    exact hv.last h f fac hfac
  latest := by
    intro h f hf
    rw [hreception] at hf ⊢
    exact hv.latest h f hf
  data := by
    intro h
    rw [hreception]
    exact hdata h
  known := by
    intro h o' ho
    rw [hreception]
    exact hknown h o' ho

theorem owed_congr {w' : World} (hstubOf : ∀ h, w'.stubOf h = w.stubOf h) (hfactory : w'.factory = w.factory)
    (h : HostId) : w'.owed h = w.owed h := by
  funext fr
  cases fr with
  | notify k f i => cases k <;> simp only [World.owed, hstubOf, hfactory]
  | calls | schedule | produce | produced | destroyed => rfl

/-- A datum is not forgotten while the factory thread does not come to hand it out. -/
theorem pending_congr {w' : World} (hstubOf : ∀ h, w'.stubOf h = w.stubOf h) (hfactory : w'.factory = w.factory)
    (hframes : w'.frames = w.frames)
    (hpc : w'.pc = w.pc ∨ ((∀ s data, w.pc ≠ .stubData s data) ∧ ∀ s data, w'.pc ≠ .stubData s data))
    (h : HostId) : w'.pending h = w.pending h := by
  have hoffering : w'.offering h = w.offering h := by
    obtain hpc | ⟨hpc, hpc'⟩ := hpc
    · simp only [World.offering, hpc, hstubOf]
    · rw [offering_eq_nil hpc, offering_eq_nil hpc']
  rw [World.pending, World.pending, hoffering, hframes, owed_congr hstubOf hfactory]

theorem pending_eq_nil {h : HostId} (hpc : ∀ s data, w.pc ≠ .stubData s data)
    (hn : ∀ fr ∈ w.frames, fr.isDataLoop = false) : w.pending h = [] := by
  rw [World.pending, offering_eq_nil hpc, owed_eq_nil hn, List.append_nil]

/-- A step of the host side that is no part of the stream. -/
theorem Streaming.beside {w' : World} (hs : Sound c w) (hs' : Sound c w') (hv : Streaming w)
    (hstub : w'.stub = w.stub) (hfactory : w'.factory = w.factory) (hframes : w'.frames = w.frames)
    (hhost : StubKept w.host w'.host)
    (hpc : w'.pc = w.pc ∨ ((∀ s data, w.pc ≠ .stubData s data) ∧ ∀ s data, w'.pc ≠ .stubData s data))
    (hreception : ∀ h, reception w'.trace h = reception w.trace h)
    (hoffered : ∀ h, offered w'.trace h = offered w.trace h)
    (hknown : ∀ h o', w'.host h = some o' →
      o'.data = ((reception w.trace h).snapshot.toList ++ dataOf (handled w'.trace h)).getLast?) :
    Streaming w' := by
  have hstubOf : ∀ h, w'.stubOf h = w.stubOf h := stubOf_of_stub_eq hs.counted hs'.counted hhost hstub
  refine hv.keep hstubOf ?_ hreception ?_ ?_ hknown
  · intro s st f hst hf
    exact ⟨st, hstub ▸ hst, rfl, hf⟩
  · intro f fac hfac
    exact ⟨fac, hfactory ▸ hfac, rfl⟩
  · intro h
    rw [hoffered, pending_congr hstubOf hfactory hframes hpc]
    exact hv.data h

/-- A host that keeps its `data_` and handles nothing. -/
theorem Streaming.known_update {w' : World} (hv : Streaming w) {b : HostId} {o : FactoryHost}
    {x : Option FactoryHost} (ho : w.host b = some o) (hx : ∀ y ∈ x, y.data = o.data)
    (hhost : w'.host = update w.host b x) (hhandled : ∀ h, handled w'.trace h = handled w.trace h)
    (h : HostId) (o' : FactoryHost) (ho' : w'.host h = some o') :
    o'.data = ((reception w.trace h).snapshot.toList ++ dataOf (handled w'.trace h)).getLast? := by
  rw [hhandled]
  rw [hhost] at ho'
  by_cases hb : h = b
  · subst hb
    rw [Function.update_self] at ho'
    rw [hx o' ho']
    exact hv.known h o ho
  · rw [Function.update_of_ne hb] at ho'
    exact hv.known h o' ho'

/-- A host that handles callback `m`. -/
theorem Streaming.known_handle {w' : World} (hv : Streaming w) {b : HostId} {o : FactoryHost} (m : Callback)
    (ho : w.host b = some o) (hhost : w'.host = update w.host b (some (o.handle m)))
    (htrace : w'.trace = w.trace ++ [.handled b m]) (h : HostId) (o' : FactoryHost) (ho' : w'.host h = some o') :
    o'.data = ((reception w.trace h).snapshot.toList ++ dataOf (handled w'.trace h)).getLast? := by
  rw [htrace]
  rw [hhost] at ho'
  by_cases hb : h = b
  · subst hb
    rw [Function.update_self] at ho'
    obtain rfl := Option.some.inj ho'
    have hold := hv.known h o ho
    cases m <;> simp [FactoryHost.handle, Entry.handled?, dataOf, hold]
  · rw [Function.update_of_ne hb] at ho'
    simpa [Entry.handled?, Ne.symm hb] using hv.known h o' ho'

theorem FactoryHost.released_data (o : FactoryHost) : ∀ y ∈ o.released, y.data = o.data := by
  intro y hy
  unfold FactoryHost.released at hy
  split at hy
  · cases hy
  · obtain rfl := Option.some.inj hy
    rfl

theorem data_of_bare {g g' : FactoryId → Option Factory} {f : FactoryId} {fac' : Factory}
    (h : (g' f).map Factory.bare = (g f).map Factory.bare) (hf : g' f = some fac') :
    ∃ fac, g f = some fac ∧ fac'.data = fac.data := by
  rw [hf] at h
  obtain ⟨fac, hfac, hbare⟩ := Option.map_eq_some_iff.mp h.symm
  exact ⟨fac, hfac, (congrArg Factory.data hbare).symm⟩

/-- The stub takes the datum it is being offered, whether it posts it or not. -/
theorem Streaming.offer {w' : World} (hs : Sound c w) (hs' : Sound c w') (hv : Streaming w)
    {s : StubId} {st : FactoryStub} {time : Nat} {data : FactoryData}
    (hpc : w.pc = .stubData s data) (hst : w.stub s = some st) (hpc' : w'.pc = .idle)
    (hframes : w'.frames = w.frames) (hstub : w'.stub = update w.stub s (some (st.onDataProduced time).1))
    (hfactory : w'.factory = w.factory)
    (hhost : StubKept w.host w'.host) (hreception : ∀ h, reception w'.trace h = reception w.trace h)
    (hoffered : ∀ h, offered w'.trace h =
      offered w.trace h ++ if st.observer = h then [(time, data)] else [])
    (hknown : ∀ h o', w'.host h = some o' →
      o'.data = ((reception w.trace h).snapshot.toList ++ dataOf (handled w'.trace h)).getLast?) :
    Streaming w' := by
  have hkept := stubOf_kept hs.counted hs'.counted hhost
    (hstub ▸ stub_observer_of_update hst (by simp))
  refine hv.keep hkept ?_ hreception ?_ ?_ hknown
  · intro x sx f hx hf
    rw [hstub] at hx
    by_cases he : x = s
    · subst he
      rw [Function.update_self] at hx
      obtain rfl := Option.some.inj hx
      exact ⟨st, hst, by simp, by simpa using hf⟩
    · rw [Function.update_of_ne he] at hx
      exact ⟨sx, hx, rfl, hf⟩
  · intro f fac hfac
    exact ⟨fac, hfactory ▸ hfac, rfl⟩
  · intro h
    have howed : w'.pending h = w.frames.flatMap (w.owed h) := by
      rw [World.pending, offering_eq_nil (by simp [hpc']), List.nil_append, hframes,
        owed_congr hkept hfactory]
    rw [hoffered, howed, hv.data h, World.pending]
    by_cases hh : st.observer = h
    · subst hh
      simp [World.offering, hpc, stubOf_of_stub hs.bound hst]
    · have hother : w.stubOf h ≠ some s := stubOf_ne_of_observer_ne hs.counted.owned hst hh
      simp [World.offering, hpc, hother, hh]

/-- Nothing was ever sent to a host that has not attached. -/
theorem Sound.handled_eq_nil (hs : Sound c w) {h : HostId} (hruns : runs w.trace ⟨.init, h⟩ = 0)
    (hstub : w.stubOf h = none) : handled w.trace h = [] := by
  have he := hs.conversing.expects h
  unfold World.Expects at he
  rw [show attached w.trace h = false by simp [attached, hruns]] at he
  have hposted := phase_eq_fresh.mp (fresh_of_not_attached he hstub)
  have hd := hs.delivered h
  rw [hposted] at hd
  exact (List.append_eq_nil_iff.mp hd.symm).1

/-- Host `h` attaches: the snapshot is the last datum, and the stream begins behind it. -/
theorem Streaming.attach {w' : World} (hs : Sound c w) (hserved : Served c w) (hv : Streaming w) {h : HostId}
    {f : FactoryId} {fac fac' : Factory} {o o' : FactoryHost} {st : FactoryStub} (hfac : w.factory f = some fac)
    (ho : w.host h = some o) (hruns : runs w.trace ⟨.init, h⟩ = 0)
    (hhost : w'.host = update w.host h (some o')) (hbound : o'.stub = some w.freshStub)
    (hdata : o'.data = some fac.data) (hstub : w'.stub = update w.stub w.freshStub (some st))
    (hobs : st.observer = h) (hst : st.factory = some f) (hfactory : w'.factory = update w.factory f (some fac'))
    (hsame : fac'.data = fac.data) (htrace : w'.trace = w.trace ++ [.attached h w.freshStub f])
    (hpending : ∀ b, w.pending b = [] ∧ w'.pending b = []) : Streaming w' := by
  have hnone : w.stubOf h = none := by
    rw [stubOf_of_host ho]
    exact hs.bound.stub_eq_none hs.counted hruns ho
  have hhandled := hs.handled_eq_nil hruns hnone
  have hoffered : offered w.trace h = [] := hserved.unattached h (by simp [attached, hruns])
  have hrec : ∀ b, reception w'.trace b = if h = b then
      { reception w.trace b with factory := some f, snapshot := (reception w.trace b).last f, data := [] }
      else reception w.trace b := by
    intro b
    rw [htrace]
    simp [Reception.step]
  refine ⟨?_, ?_, ?_, ?_, ?_, ?_⟩
  · intro b hn
    rw [hrec]
    split
    · rename_i hb
      subst hb
      simp [World.stubOf, hhost, hbound] at hn
    · rename_i hb
      refine hv.factory b ?_
      simpa [World.stubOf, hhost, Function.update_of_ne (Ne.symm hb)] using hn
  · intro x sx g hx hg
    rw [hstub] at hx
    rw [hrec]
    by_cases he : x = w.freshStub
    · subst he
      rw [Function.update_self] at hx
      obtain rfl := Option.some.inj hx
      rw [if_pos hobs.symm]
      exact hst.symm.trans hg
    · rw [Function.update_of_ne he] at hx
      have hne : h ≠ sx.observer := by
        rintro rfl
        rw [stubOf_of_stub hs.bound hx] at hnone
        cases hnone
      rw [if_neg hne]
      exact hv.stubFactory x sx g hx hg
  · intro b g fg hg
    have hlast : (reception w'.trace b).last = (reception w.trace b).last := by
      rw [hrec]
      split <;> rfl
    rw [hlast]
    rw [hfactory] at hg
    by_cases he : g = f
    · subst he
      rw [Function.update_self] at hg
      obtain rfl := Option.some.inj hg
      rw [hsame]
      exact hv.last b g fac hfac
    · rw [Function.update_of_ne he] at hg
      exact hv.last b g fg hg
  · intro b g hg
    rw [hrec] at hg ⊢
    split at hg
    · obtain rfl := Option.some.inj hg
      simp [*, hv.last b f fac hfac]
    · rename_i hb
      rw [if_neg hb]
      exact hv.latest b g hg
  · intro b
    have hold := hv.data b
    have hsame : offered w'.trace b = offered w.trace b := by
      rw [htrace]
      simp [Entry.offered?]
    rw [(hpending b).1] at hold
    rw [(hpending b).2, hsame, hrec]
    split
    · rename_i hb
      subst hb
      simp [hoffered]
    · exact hold
  · intro b ob hob
    have hsame : handled w'.trace b = handled w.trace b := by
      rw [htrace]
      simp [Entry.handled?]
    rw [hsame, hrec]
    rw [hhost] at hob
    by_cases hb : b = h
    · subst hb
      rw [Function.update_self] at hob
      obtain rfl := Option.some.inj hob
      simp [hdata, hhandled, dataOf, hv.last b f fac hfac]
    · rw [Function.update_of_ne hb] at hob
      rw [if_neg (Ne.symm hb)]
      exact hv.known b ob hob

/-- The stub of host `h` is deleted. -/
theorem Streaming.detach {w' : World} (hs : Sound c w) (hv : Streaming w) {h : HostId} {s : StubId}
    {st : FactoryStub} {o o' : FactoryHost} (hst : w.stub s = some st) (hobs : st.observer = h)
    (ho : w.host h = some o) (hhost : w'.host = update w.host h (some o')) (hdata : o'.data = o.data)
    (hstub : w'.stub = update w.stub s none) (hfactory : w'.factory = w.dropped s st)
    (hreception : ∀ b, reception w'.trace b =
      if h = b then { reception w.trace b with factory := none } else reception w.trace b)
    (hoffered : ∀ b, offered w'.trace b = offered w.trace b)
    (hhandled : ∀ b, handled w'.trace b = handled w.trace b)
    (hpending : ∀ b, w.pending b = [] ∧ w'.pending b = []) : Streaming w' where
  factory := by
    intro b hn
    rw [hreception]
    split
    · rfl
    · rename_i hb
      refine hv.factory b ?_
      simpa [World.stubOf, hhost, Function.update_of_ne (Ne.symm hb)] using hn
  stubFactory := by
    intro x sx f hx hf
    rw [hstub] at hx
    by_cases he : x = s
    · subst he
      simp at hx
    · rw [Function.update_of_ne he] at hx
      have hne : h ≠ sx.observer := by
        intro hsame
        have h₁ := stubOf_of_stub hs.bound hst
        rw [hobs, hsame, stubOf_of_stub hs.bound hx] at h₁
        exact he (Option.some.inj h₁)
      rw [hreception, if_neg hne]
      exact hv.stubFactory x sx f hx hf
  last := by
    intro b f fac' hf
    obtain ⟨fac, hfac, hsame⟩ := data_of_bare (map_bare_dropped w s st f) (hfactory ▸ hf)
    rw [hsame, ← hv.last b f fac hfac, hreception]
    split <;> rfl
  latest := by
    intro b f hf
    rw [hreception] at hf ⊢
    split at hf
    · cases hf
    · rename_i hb
      rw [if_neg hb]
      exact hv.latest b f hf
  data := by
    intro b
    have hold := hv.data b
    rw [(hpending b).1] at hold
    rw [(hpending b).2, hoffered, hreception]
    split <;> exact hold
  known := by
    intro b ob hb
    have hold := hv.known_update ho (by simp [hdata]) hhost hhandled b ob hb
    rw [hold, hreception]
    split <;> rfl

theorem Streaming.hostMove {w' : World} {e : Event} (hs : Sound c w) (hs' : Sound c w') (hserved : Served c w)
    (hu : Unnested w) (hv : Streaming w) (hm : HostMove c w e w') : Streaming w' := by
  cases hm with
  | @postInit h f fac o time script hpc hf hfac ho =>
    have hplaced := hs.listed.placed
    rw [hpc] at hplaced
    have hnil : w.frames = [] := hplaced
    exact hv.attach hs hserved hfac ho (hs.bound.runs_eq_zero hs.relayed hpc) rfl rfl rfl rfl rfl rfl rfl rfl rfl
      fun b => ⟨pending_eq_nil (by simp [hpc]) (by simp [hnil]), pending_eq_nil (by simp) (by simp [hnil])⟩
  | @relayDestroyStub h o s st time script hpc ho hos hst hobs =>
    have hplaced := hs.listed.placed
    rw [hpc] at hplaced
    have hnil : w.frames = [] := hplaced
    refine hv.detach hs hst hobs ho rfl rfl rfl rfl ?_ (by simp [Entry.offered?]) (by simp [Entry.handled?]) ?_
    · simp [Reception.step]
    · exact fun b => ⟨pending_eq_nil (by simp [hpc]) (by simp [hnil]), pending_eq_nil (by simp) (by simp [hnil])⟩
  | @selfDestroyStub h o s st time script hpc ho hos hst hobs =>
    have hnone := hu.place.resolve_left (by simp [hpc])
    refine hv.detach hs hst hobs ho rfl rfl rfl rfl ?_ (by simp [Entry.offered?]) (by simp [Entry.handled?]) ?_
    · simp [Reception.step]
    · exact fun b => ⟨pending_eq_nil (by simp [hpc]) hnone, pending_eq_nil (by simp) hnone⟩
  | @forward s data st o time script hpc hst hfwd ho =>
    refine hv.offer hs hs' hpc hst rfl rfl rfl rfl (stubKept_update ho (by simp)) (by simp [Reception.step]) ?_
      (hv.known_update ho (by simp) rfl (by simp [Entry.handled?]))
    intro h
    simp only [offered_append, offered_cons, offered_nil, Entry.offered?]
    split <;> simp
  | @hold s data st time script hpc hst hhold =>
    refine hv.offer hs hs' hpc hst rfl rfl rfl rfl (.refl _) (by simp [Reception.step]) ?_
      (by simpa [Entry.handled?] using hv.known)
    intro h
    simp only [offered_append, offered_cons, offered_nil, Entry.offered?]
    split <;> simp
  | @leave s st f fac time script hpc hst hf hfac =>
    have hnone := hu.place.resolve_left (by simp [hpc])
    have hobs : ({ st with factory := none } : FactoryStub).observer = st.observer := rfl
    refine hv.keep (stubOf_kept hs.counted hs'.counted (.refl _) (stub_observer_of_update hst hobs)) ?_
      (fun _ => rfl) ?_ ?_ hv.known
    · intro x sx f' hx hf'
      simp only at hx
      by_cases he : x = s
      · subst he
        rw [Function.update_self] at hx
        obtain rfl := Option.some.inj hx
        cases hf'
      · rw [Function.update_of_ne he] at hx
        exact ⟨sx, hx, rfl, hf'⟩
    · intro f' fac' hf'
      exact data_of_bare (map_bare_update _ hfac f') hf'
    · intro h
      have hold := hv.data h
      rw [pending_eq_nil (by simp [hpc]) hnone] at hold
      refine hold.trans (congrArg _ (Eq.symm ?_))
      exact pending_eq_nil (by simp) hnone
  | beginRelay hidle =>
    exact hv.beside hs hs' rfl rfl rfl (.refl _) (.inr (by simp [hidle.1])) (fun _ => rfl) (fun _ => rfl) hv.known
  | relayDestroyNull hpc | relayReply hpc =>
    exact hv.beside hs hs' rfl rfl rfl (.refl _) (.inr (by simp [hpc])) (by simp [Reception.step])
      (by simp [Entry.offered?]) (by simpa [Entry.handled?] using hv.known)
  | selfDestroyNull hpc =>
    exact hv.beside hs hs' rfl rfl rfl (.refl _) (.inr (by simp [hpc])) (fun _ => rfl) (fun _ => rfl) hv.known
  | leavePost hpc _ ho | selfReply hpc ho =>
    exact hv.beside hs hs' rfl rfl rfl (stubKept_update ho (by simp)) (.inr (by simp [hpc]))
      (by simp [Reception.step]) (by simp [Entry.offered?])
      (hv.known_update ho (by simp) rfl (by simp [Entry.handled?]))
  | leaveDestroy hpc _ ho =>
    exact hv.beside hs hs' rfl rfl rfl (stubKept_update ho (by simp)) (.inr (by simp [hpc])) (fun _ => rfl)
      (fun _ => rfl) (hv.known_update ho (by simp) rfl (fun _ => rfl))
  | selfDrop hpc ho =>
    exact hv.beside hs hs' rfl rfl rfl (stubKept_update ho (FactoryHost.released_stub _)) (.inr (by simp [hpc]))
      (by simp) (by simp) (hv.known_update ho (FactoryHost.released_data _) rfl (by simp))
  | beginHost =>
    exact hv.beside hs hs' rfl rfl rfl (.refl _) (.inl rfl) (fun _ => rfl) (fun _ => rfl) hv.known
  | resetTask _ ho | deleteRelay _ ho | unbind _ ho | dropRef _ ho =>
    exact hv.beside hs hs' rfl rfl rfl (stubKept_update ho (FactoryHost.released_stub _)) (.inl rfl)
      (by simp) (by simp) (hv.known_update ho (FactoryHost.released_data _) rfl (by simp))
  | runReply _ ho | runCall _ ho =>
    exact hv.beside hs hs' rfl rfl rfl (stubKept_update ho (by simp)) (.inl rfl)
      (by simp [Reception.step]) (by simp [Entry.offered?]) (hv.known_handle _ ho rfl rfl)
  | addRef _ ho =>
    exact hv.beside hs hs' rfl rfl rfl (stubKept_update ho (by simp)) (.inl rfl)
      (fun _ => rfl) (fun _ => rfl) (hv.known_update ho (by simp) rfl (fun _ => rfl))
  | init ho | destroy ho =>
    exact hv.beside hs hs' rfl rfl rfl (stubKept_update ho (by simp)) (.inl rfl) (by simp [Reception.step])
      (by simp [Entry.offered?]) (hv.known_update ho (by simp) rfl (by simp [Entry.handled?]))

/-- A step of the Factory that produces nothing and hands nothing out. -/
theorem Streaming.aside {w' : World} (hv : Streaming w) (hq : Quiet w w')
    (hreception : ∀ h, reception w'.trace h = reception w.trace h)
    (hfactory : ∀ f fac', w'.factory f = some fac' → ∃ fac, w.factory f = some fac ∧ fac'.data = fac.data)
    (hpending : ∀ h, w'.pending h = w.pending h) : Streaming w' := by
  refine hv.keep (fun h => by simp [World.stubOf, hq.host]) ?_ hreception hfactory ?_ ?_
  · intro s st f hs hf
    exact ⟨st, hq.stub ▸ hs, rfl, hf⟩
  · intro h
    rw [hq.offered, hpending]
    exact hv.data h
  · intro h o ho
    rw [hq.handled]
    exact hv.known h o (hq.host ▸ ho)

@[simp] theorem startNotify_data (k : Notice) (f : FactoryId) (fac : Factory) :
    (startNotify k f fac).1.data = fac.data := by
  unfold startNotify
  split <;> rfl

@[simp] theorem owed_calls (w : World) (h : HostId) (cs : List Call) : w.owed h (.calls cs) = [] := rfl
@[simp] theorem owed_produced (w : World) (h : HostId) : w.owed h .produced = [] := rfl

theorem owed_of_dead {f : FactoryId} (hf : w.factory f = none) (h : HostId) (index : Nat) :
    w.owed h (.notify .produced f index) = [] := by
  cases hs : w.stubOf h <;> simp [World.owed, hf, hs]

/-- A loop owes a host the Factory's datum while the host's stub is in front of the iterator. -/
theorem owed_of_stub {f : FactoryId} {fac : Factory} (hf : w.factory f = some fac) {h : HostId} {s : StubId}
    (hs : w.stubOf h = some s) (index : Nat) : w.owed h (.notify .produced f index) =
      if .stub s ∈ fac.observerList.remaining index then [fac.data] else [] := by
  simp only [World.owed, hf, hs]

theorem owed_of_no_stub {h : HostId} (hs : w.stubOf h = none) (fr : Frame) : w.owed h fr = [] := by
  cases fr with
  | notify k f i => cases k <;> simp [World.owed, hs]
  | calls | schedule | produce | produced | destroyed => rfl

theorem pending_of_frames (hpc : w.pc = .idle) {frames : List Frame} (hw : w.frames = frames) (h : HostId) :
    w.pending h = frames.flatMap (w.owed h) := by
  rw [World.pending, offering_eq_nil (by simp [hpc]), hw, List.nil_append]

/-- The loop goes past an observer that is no stub. -/
theorem pending_skip {w' : World} {f : FactoryId} {fac : Factory} {p : PlainId} {index next : Nat}
    (hstubOf : ∀ h, w'.stubOf h = w.stubOf h) (hfactory : w'.factory = w.factory) (hpc : w.pc = .idle)
    (hw : w.frames = [.notify .produced f index, .produced]) (hfac : w.factory f = some fac)
    (hnext : fac.observerList.getNext index = some (.plain p, next)) (hpc' : w'.pc = .idle)
    (hw' : w'.frames = [.calls [], .notify .produced f next, .produced]) (h : HostId) :
    w'.pending h = w.pending h := by
  rw [pending_of_frames hpc' hw', pending_of_frames hpc hw, owed_congr hstubOf hfactory]
  cases hso : w.stubOf h with
  | none => simp [owed_of_no_stub hso]
  | some s => simp [owed_of_stub hfac hso, (ObserverList.getNext_eq_some hnext).1]

/-- The loop comes to a stub, which is offered the datum now and not again. -/
theorem pending_take {w' : World} {f : FactoryId} {fac : Factory} {s : StubId} {index next : Nat}
    (hstubOf : ∀ h, w'.stubOf h = w.stubOf h) (hfactory : w'.factory = w.factory) (hpc : w.pc = .idle)
    (hw : w.frames = [.notify .produced f index, .produced]) (hfac : w.factory f = some fac)
    (hnext : fac.observerList.getNext index = some (.stub s, next)) (hpc' : w'.pc = .stubData s fac.data)
    (hw' : w'.frames = [.notify .produced f next, .produced]) (h : HostId) : w'.pending h = w.pending h := by
  have hrem := (ObserverList.getNext_eq_some hnext).1
  have hnot : .stub s ∉ fac.observerList.remaining next := by
    have hnd : fac.observerList.members.Nodup := fac.observerList.unique
    rw [← fac.observerList.passed_append_remaining index, hrem] at hnd
    exact (List.nodup_cons.mp (List.nodup_append.mp hnd).2.1).1
  rw [pending_of_frames hpc hw, World.pending, hw', owed_congr hstubOf hfactory]
  simp only [World.offering, hpc', hstubOf]
  cases hso : w.stubOf h with
  | none => simp [owed_of_no_stub hso]
  | some x =>
    by_cases hx : x = s
    · subst hx
      simp [owed_of_stub hfac hso, hrem, hnot]
    · simp [owed_of_stub hfac hso, hrem, hx]

/-- A host is attached to no Factory but the live one. -/
theorem stubOf_eq_none (hs : Sound c w) (hpc : w.pc = .idle) (hg : w.gFactory = none) (h : HostId) :
    w.stubOf h = none := by
  cases hsome : w.stubOf h with
  | none => rfl
  | some s =>
    obtain ⟨st, hst, rfl⟩ := stub_of_stubOf hs.counted.owned hsome
    obtain ⟨f, hf⟩ := Option.ne_none_iff_exists'.mp (hs.bound.factory_ne_none (by simp [hpc]) s st hst)
    obtain ⟨l, hl, -⟩ := hs.listed.stubListed s st f hst hf
    exact nomatch hg.symm.trans (hs.listed.current f l hl)

/-- A new Factory has a first datum and nobody attached. -/
theorem Streaming.create {w' : World} (hs : Sound c w) (hv : Streaming w) (hpc : w.pc = .idle)
    (hg : w.gFactory = none) (hfactory : w'.factory = w.createFactory.factory) (hq : Quiet w w')
    (htrace : w'.trace = w.createFactory.trace) (hpending : ∀ h, w'.pending h = w.pending h) :
    Streaming w' := by
  have hrec : ∀ h, reception w'.trace h = ⟨update (reception w.trace h).last w.freshFactory
      (some newFactory.data), (reception w.trace h).factory, (reception w.trace h).snapshot,
      (reception w.trace h).data⟩ := by
    intro h
    rw [htrace]
    simp [createFactory, Reception.step]
  have hnobody : ∀ h, (reception w.trace h).factory = none :=
    fun h => hv.factory h (stubOf_eq_none hs hpc hg h)
  refine ⟨?_, ?_, ?_, ?_, ?_, ?_⟩
  · intro h _
    rw [hrec]
    exact hnobody h
  · intro s st f hst hf
    rw [hrec]
    exact hv.stubFactory s st f (hq.stub ▸ hst) hf
  · intro h f fac hf
    rw [hrec]
    rw [hfactory] at hf
    simp only [createFactory] at hf
    dsimp only
    by_cases he : f = w.freshFactory
    · subst he
      rw [Function.update_self] at hf ⊢
      exact congrArg (Option.map Factory.data) hf
    · rw [Function.update_of_ne he] at hf ⊢
      exact hv.last h f fac hf
  · intro h f hf
    rw [hrec] at hf
    have hnone := (hnobody h).symm.trans hf
    cases hnone
  · intro h
    rw [hrec, hq.offered, hpending]
    exact hv.data h
  · intro h o ho
    rw [hrec, hq.handled]
    exact hv.known h o (hq.host ▸ ho)

/-- The Factory of an attached host is the live one, and the host's stub is in its list. -/
theorem stub_mem_of_stubOf (hs : Sound c w) (hpc : w.pc = .idle) {f : FactoryId} {fac : Factory}
    (hfac : w.factory f = some fac) {h : HostId} {s : StubId} (hsome : w.stubOf h = some s) :
    ∃ st, w.stub s = some st ∧ st.observer = h ∧ st.factory = some f ∧ .stub s ∈ fac.observerList.members := by
  obtain ⟨st, hst, hobs⟩ := stub_of_stubOf hs.counted.owned hsome
  obtain ⟨g, hg⟩ := Option.ne_none_iff_exists'.mp (hs.bound.factory_ne_none (by simp [hpc]) s st hst)
  obtain ⟨l, hl, hmem⟩ := hs.listed.stubListed s st g hst hg
  have hlive := hs.listed.current f _ (list_of_some hfac)
  obtain rfl := Option.some.inj (hlive.symm.trans (hs.listed.current g l hl))
  obtain rfl := Option.some.inj ((list_of_some hfac).symm.trans hl)
  exact ⟨st, hst, hobs, hg, hmem⟩

/-- A new datum is owed to the hosts that are attached, and to no other. -/
theorem pending_produce {w' : World} (hs : Sound c w) (hv : Streaming w) (hpc : w.pc = .idle) {f : FactoryId}
    {fac : Factory} {data : FactoryData} (hfac : w.factory f = some fac) (hq : Quiet w w')
    (hpc' : w'.pc = .idle)
    (hfactory : w'.factory = update w.factory f (some (startNotify .produced f { fac with data := data }).1))
    (hw' : w'.frames = (startNotify .produced f { fac with data := data }).2 ++ [.produced]) (h : HostId) :
    w'.pending h = if (reception w.trace h).factory = some f then [data] else [] := by
  have hstubOf : w'.stubOf h = w.stubOf h := by simp [World.stubOf, hq.host]
  rw [pending_of_frames hpc' hw']
  cases hso : w.stubOf h with
  | none =>
    rw [if_neg (by simp [hv.factory h hso])]
    refine List.flatMap_eq_nil_iff.mpr fun fr _ => ?_
    exact owed_of_no_stub (hstubOf.trans hso) fr
  | some s =>
    obtain ⟨st, hst, rfl, hg, hmem⟩ := stub_mem_of_stubOf hs hpc hfac hso
    rw [if_pos (hv.stubFactory s st f hst hg)]
    obtain hone | ⟨hnil, -⟩ := startNotify_cases .produced f { fac with data := data }
    · have hfac' : w'.factory f = some (startNotify .produced f { fac with data := data }).1 := by
        simp [hfactory]
      rw [hone] at hfac' ⊢
      simp [owed_of_stub hfac' (hstubOf.trans hso), hmem]
    · have hmem' : .stub s ∈ ({ fac with data := data } : Factory).observerList.members := hmem
      rw [hnil] at hmem'
      cases hmem'

/-- The Factory produces a datum, which every attached host has still to be offered. -/
theorem Streaming.produce {w' : World} (hs : Sound c w) (hv : Streaming w) (hpc : w.pc = .idle) {f : FactoryId}
    {fac : Factory} {data : FactoryData} {time : Nat} (hfac : w.factory f = some fac)
    (hnone : ∀ fr ∈ w.frames, fr.isDataLoop = false) (hq : Quiet w w') (hpc' : w'.pc = .idle)
    (hfactory : w'.factory = update w.factory f (some (startNotify .produced f { fac with data := data }).1))
    (hw' : w'.frames = (startNotify .produced f { fac with data := data }).2 ++ [.produced])
    (htrace : w'.trace = w.trace ++ [.produced f time data]) : Streaming w' := by
  have hrec : ∀ h, reception w'.trace h = ⟨update (reception w.trace h).last f (some data),
      (reception w.trace h).factory, (reception w.trace h).snapshot,
      (reception w.trace h).data ++ if (reception w.trace h).factory = some f then [data] else []⟩ := by
    intro h
    rw [htrace]
    by_cases hf : (reception w.trace h).factory = some f <;> simp [Reception.step, hf]
  refine ⟨?_, ?_, ?_, ?_, ?_, ?_⟩
  · intro h hn
    rw [hrec]
    exact hv.factory h (by rwa [World.stubOf, hq.host] at hn)
  · intro s st g hst hg
    rw [hrec]
    exact hv.stubFactory s st g (hq.stub ▸ hst) hg
  · intro h g fg hg
    rw [hrec]
    rw [hfactory] at hg
    dsimp only
    by_cases he : g = f
    · subst he
      rw [Function.update_self] at hg ⊢
      obtain rfl := Option.some.inj hg
      rw [startNotify_data]
    · rw [Function.update_of_ne he] at hg ⊢
      exact hv.last h g fg hg
  · intro h g hg
    rw [hrec] at hg ⊢
    dsimp only at hg ⊢
    by_cases he : g = f
    · subst he
      simp [hg]
    · have hne : (reception w.trace h).factory ≠ some f := by
        rw [hg]
        simpa using he
      rw [Function.update_of_ne he, if_neg hne, List.append_nil]
      exact hv.latest h g hg
  · intro h
    have hbefore : w.pending h = [] := pending_eq_nil (by simp [hpc]) hnone
    rw [hrec, hq.offered, pending_produce hs hv hpc hfac hq hpc' hfactory hw', hv.data h, hbefore,
      List.append_nil]
  · intro h o ho
    rw [hrec, hq.handled]
    exact hv.known h o (hq.host ▸ ho)

theorem Streaming.factoryMove {w' : World} {e : Event} (hs : Sound c w) (ha : Alone w) (hu : Unnested w)
    (hv : Streaming w) (he : e.script = []) (hm : FactoryMove w e w') : Streaming w' := by
  have hq := hm.quiet
  have hsame : ∀ f fac', w.factory f = some fac' → ∃ fac, w.factory f = some fac ∧ fac'.data = fac.data :=
    fun f fac' hf => ⟨fac', hf, rfl⟩
  have hupd : ∀ {f fac} (fac' : Factory), w.factory f = some fac → fac'.data = fac.data →
      ∀ b x, update w.factory f (some fac') b = some x → ∃ fac, w.factory b = some fac ∧ x.data = fac.data := by
    intro f fac fac' hfac hdata b x hx
    by_cases hb : b = f
    · subst hb
      rw [Function.update_self] at hx
      obtain rfl := Option.some.inj hx
      exact ⟨fac, hfac, hdata⟩
    · rw [Function.update_of_ne hb] at hx
      exact ⟨x, hx, rfl⟩
  -- no datum is being handed out before, and none is after
  have hcalm : ∀ {fr rest frames}, w.pc = .idle → w.frames = fr :: rest → fr.isDataLoop = false → fr ≠ .calls [] →
      w'.frames = frames → (∀ x ∈ frames, x ∈ rest ∨ x.isDataLoop = false) → (∀ s data, w'.pc ≠ .stubData s data) →
      ∀ h, w'.pending h = w.pending h := by
    intro fr rest frames hpc hw hfr hcalls hw' hsub hpc' h
    have hnone := hu.no_loop hw hfr hcalls
    have hbefore : w.pending h = [] := pending_eq_nil (by simp [hpc]) (by rw [hw]; exact hnone)
    have hafter : w'.pending h = [] := by
      refine pending_eq_nil hpc' fun x hx => ?_
      obtain hx | hx := hsub x (hw' ▸ hx)
      · exact hnone x (List.mem_cons_of_mem fr hx)
      · exact hx
    rw [hbefore, hafter]
  cases hm with
  | post | tick => exact hv.aside hq (fun _ => rfl) hsame fun _ => rfl
  | beginCalls hidle | beginSchedule hidle | beginDelayed hidle =>
    refine hv.aside hq (by simp [Reception.step]) hsame fun h => ?_
    have hbefore : w.pending h = [] := pending_eq_nil (by simp [hidle.1]) (by simp [hidle.2])
    rw [hbefore]
    refine pending_eq_nil (by simp [hidle.1]) ?_
    simp [Frame.isDataLoop]
  | @callsDone rest time script hpc hw =>
    refine hv.aside hq (fun _ => rfl) hsame fun h => ?_
    change w.offering h ++ rest.flatMap (w.owed h) = w.offering h ++ w.frames.flatMap (w.owed h)
    rw [hw]
    rfl
  | skip hpc hw =>
    exact hv.aside hq (fun _ => rfl) hsame (hcalm hpc hw rfl (by simp) rfl
      (by simp +contextual [Frame.isDataLoop]) (by simp [hpc]))
  | @create ks rest time script hpc hw hg =>
    exact hv.create hs hpc hg rfl hq rfl (hcalm hpc hw rfl (by simp) rfl (by simp +contextual [Frame.isDataLoop])
      (by simp [hpc, createFactory]))
  | start hpc hw hg hfac | stop hpc hw hg hfac =>
    exact hv.aside hq (fun _ => rfl) (hupd _ hfac rfl) (hcalm hpc hw rfl (by simp) rfl
      (by simp +contextual [Frame.isDataLoop]) (by simp [hpc]))
  | addObserver hpc hw hg hfac | removeObserver hpc hw hg hfac =>
    exact hv.aside hq (fun _ => rfl) (hupd _ hfac rfl) (hcalm hpc hw rfl (by simp) rfl
      (by simp +contextual [Frame.isDataLoop]) (by simp [hpc]))
  | @destroyBegin f fac ks rest time script hpc hw hg hfac =>
    refine hv.aside hq (by simp [Reception.step]) (hupd _ hfac (startNotify_data _ _ _))
      (hcalm hpc hw rfl (by simp) rfl ?_ (by simp [hpc]))
    obtain hnil | hone := startNotify_isDataLoop .destroyed f fac
    · simp +contextual [hnil, Frame.isDataLoop]
    · simp +contextual [hone, Frame.isDataLoop]
  | scheduleStopped hpc hw hfac =>
    exact hv.aside hq (fun _ => rfl) (hupd _ hfac rfl) (hcalm hpc hw rfl (by simp) rfl
      (fun x hx => .inl hx) (by simp [hpc]))
  | scheduleNow hpc hw hfac | scheduleLater hpc hw hfac =>
    exact hv.aside hq (fun _ => rfl) (hupd _ hfac rfl) (hcalm hpc hw rfl (by simp) rfl
      (by simp +contextual [Frame.isDataLoop]) (by simp [hpc]))
  | @produce f fac rest time script hpc hw hfac =>
    obtain rfl := ha.rest_eq_nil hw rfl
    refine hv.produce hs hpc hfac ?_ hq hpc rfl rfl rfl
    rw [hw]
    exact hu.no_loop hw rfl (by simp)
  | @notifyDead k f index rest time script hpc hw hnone =>
    cases k with
    | produced =>
      obtain rfl := hu.rest_of_loop hw rfl
      refine hv.aside hq (fun _ => rfl) hsame fun h => ?_
      have hbefore : w.pending h = [] := by simp [pending_of_frames hpc hw, owed_of_dead hnone]
      rw [hbefore]
      exact pending_eq_nil (by simp [hpc]) (by simp [Frame.isDataLoop])
    | destroyed =>
      exact hv.aside hq (fun _ => rfl) hsame (hcalm hpc hw rfl (by simp) rfl (fun x hx => .inl hx) (by simp [hpc]))
  | @notifyEnd k f fac index rest time script hpc hw hfac hend =>
    cases k with
    | produced =>
      obtain rfl := hu.rest_of_loop hw rfl
      refine hv.aside hq (fun _ => rfl) (hupd _ hfac rfl) fun h => ?_
      have hbefore : w.pending h = [] := by
        rw [pending_of_frames hpc hw]
        cases hso : w.stubOf h with
        | none => simp [owed_of_no_stub hso]
        | some s => simp [owed_of_stub hfac hso, ObserverList.getNext_eq_none hend]
      rw [hbefore]
      exact pending_eq_nil (by simp [hpc]) (by simp [Frame.isDataLoop])
    | destroyed =>
      exact hv.aside hq (fun _ => rfl) (hupd _ hfac rfl)
        (hcalm hpc hw rfl (by simp) rfl (fun x hx => .inl hx) (by simp [hpc]))
  | @notifyPlain k f fac p index next rest time script hpc hw hfac hnext =>
    obtain rfl : script = [] := he
    cases k with
    | produced =>
      obtain rfl := hu.rest_of_loop hw rfl
      refine hv.aside hq (by simp [Reception.step]) hsame fun h => ?_
      refine pending_skip ?_ ?_ hpc hw hfac hnext ?_ ?_ h
      exacts [fun _ => rfl, rfl, hpc, rfl]
    | destroyed =>
      exact hv.aside hq (by simp [Reception.step]) hsame (hcalm hpc hw rfl (by simp) rfl
        (by simp +contextual [Frame.isDataLoop]) (by simp [hpc]))
  | @notifyProduced f fac s index next rest time script hpc hw hfac hnext =>
    obtain rfl := hu.rest_of_loop hw rfl
    refine hv.aside hq (by simp [Reception.step]) hsame fun h => ?_
    refine pending_take ?_ ?_ hpc hw hfac hnext ?_ ?_ h
    exacts [fun _ => rfl, rfl, rfl, rfl]
  | notifyDestroyed hpc hw =>
    exact hv.aside hq (by simp [Reception.step]) hsame (hcalm hpc hw rfl (by simp) rfl
      (by simp +contextual [Frame.isDataLoop]) (by simp))
  | produced hpc hw =>
    exact hv.aside hq (fun _ => rfl) hsame (hcalm hpc hw rfl (by simp) rfl (fun x hx => .inl hx) (by simp [hpc]))
  | destroyed hpc hw hfac =>
    refine hv.aside hq (by simp [Reception.step]) (fun b x hx => ⟨x, of_update_none hx, rfl⟩)
      (hcalm hpc hw rfl (by simp) rfl (fun x hx => .inl hx) (by simp [hpc]))

theorem streaming_of_reaches (hr : GuardedRun.Reaches (step c) Quietly .initial w) :
    Unnested w ∧ Streaming w := by
  have hP : ∀ w e, Quietly w e → Checked w e := fun _ _ hp => hp.1
  refine GuardedRun.Reaches.invariant_of (I := fun w => Unnested w ∧ Streaming w)
    (K := GuardedRun.Reaches (step c) Quietly .initial) (fun _ => id) ?_ ⟨unnested_initial, streaming_initial⟩ hr
  rintro t e u ht ⟨hu, hv⟩ hp he ht'
  have hs := sound_of_reaches hP ht
  obtain hm | hm := step_cases hs.counted.owned he
  · have hserved := served_of_reaches (fun w e hp => (hP w e hp).1) ht
    exact ⟨hu.hostMove hs.listed hm, hv.hostMove hs (sound_of_reaches hP ht') hserved hu hm⟩
  · have ha := alone_of_reaches ht
    exact ⟨hu.factoryMove ha hp.2 hm, hv.factoryMove hs ha hu hp.2 hm⟩

/-- What a host has handled and what is on its way to it is what was produced while it was
attached, or what its limiter let through of that; and `data_` is the last it knows of. -/
structure Streamed (c : Config) (w : World) : Prop where
  attached : ∀ h f, (reception w.trace h).factory = some f ↔ ∃ o s st, w.host h = some o ∧
    o.stub = some s ∧ w.stub s = some st ∧ st.factory = some f
  offered : ∀ h, (offered w.trace h).map Prod.snd = (reception w.trace h).data
  plain : ∀ h, c.freq h = none →
    dataOf (handled w.trace h) ++ dataOf ((w.loop (c.hostThread h)).inFlight h) = (reception w.trace h).data
  limited : ∀ h q, c.freq h = some q →
    dataOf (handled w.trace h) ++ dataOf ((w.loop (c.hostThread h)).inFlight h) =
      ((FreqLimiter.mk q 0).serve (OscDataProcess.offered w.trace h)).2
  known : ∀ h o, w.host h = some o →
    o.data = ((reception w.trace h).snapshot.toList ++ dataOf (handled w.trace h)).getLast?
  converged : ∀ h f fac o, c.freq h = none → (reception w.trace h).factory = some f →
    w.factory f = some fac → w.host h = some o →
    dataOf ((w.loop (c.hostThread h)).inFlight h) = [] → o.data = some fac.data

theorem streamed_of_idle (hs : Sound c w) (hserved : Served c w) (hv : Streaming w) (hidle : w.Idle) :
    Streamed c w := by
  have hoffered : ∀ h, (offered w.trace h).map Prod.snd = (reception w.trace h).data := by
    intro h
    rw [hv.data h, pending_eq_nil (by simp [hidle.1]) (by simp [hidle.2]), List.append_nil]
  have hdelivered : ∀ h, dataOf (handled w.trace h) ++ dataOf ((w.loop (c.hostThread h)).inFlight h) =
      forwardedOf (c.freq h) (offered w.trace h) := by
    intro h
    rw [← dataOf_append, ← hs.delivered h]
    exact hserved.forwards h
  have hplain : ∀ h, c.freq h = none → dataOf (handled w.trace h) ++
      dataOf ((w.loop (c.hostThread h)).inFlight h) = (reception w.trace h).data := by
    intro h hfreq
    rw [hdelivered, hfreq, ← hoffered]
    rfl
  refine ⟨?_, hoffered, hplain, ?_, hv.known, ?_⟩
  · intro h f
    constructor
    · intro hf
      have hsome : w.stubOf h ≠ none := fun hn => nomatch (hv.factory h hn).symm.trans hf
      obtain ⟨s, hso⟩ := Option.ne_none_iff_exists'.mp hsome
      obtain ⟨o, ho, hos⟩ := Option.bind_eq_some_iff.mp hso
      obtain ⟨st, hst, rfl⟩ := hs.counted.owned h o s ho hos
      obtain ⟨g, hg⟩ := Option.ne_none_iff_exists'.mp
        (hs.bound.factory_ne_none (by simp [hidle.1]) s st hst)
      obtain rfl := Option.some.inj ((hv.stubFactory s st g hst hg).symm.trans hf)
      exact ⟨o, s, st, ho, hos, hst, hg⟩
    · rintro ⟨o, s, st, ho, hos, hst, hf⟩
      obtain ⟨st', hst', rfl⟩ := hs.counted.owned h o s ho hos
      obtain rfl := Option.some.inj (hst.symm.trans hst')
      exact hv.stubFactory s st f hst hf
  · intro h q hfreq
    rw [hdelivered, hfreq]
    rfl
  · intro h f fac o hfreq hf hfac ho hnil
    have hall := hplain h hfreq
    rw [hnil, List.append_nil] at hall
    rw [hv.known h o ho, hall, ← hv.latest h f hf]
    exact hv.last h f fac hfac

/-- Between two factory-thread tasks nothing is lost, duplicated or reordered. -/
theorem streamed_of_reaches (c : Config) {w : World} (hr : GuardedRun.Reaches (step c) Quietly .initial w)
    (hidle : w.Idle) : Streamed c w := by
  have hP : ∀ w e, Quietly w e → Checked w e := fun _ _ hp => hp.1
  exact streamed_of_idle (sound_of_reaches hP hr) (served_of_reaches (fun w e hp => (hP w e hp).1) hr)
    (streaming_of_reaches hr).2 hidle

/-- A host and one with a frequency of 500 attach between the first and the second datum. -/
theorem streamed_of_reaches_second_datum : ∃ w,
    GuardedRun.Reaches (step ⟨id, fun h => if h = 1 then some 500 else none⟩) Quietly .initial w ∧
    ((reception w.trace 0).data = [.make 1, .make 2] ∧ dataOf ((w.loop 1).inFlight 1) = [.make 1]) ∧
    Streamed ⟨id, fun h => if h = 1 then some 500 else none⟩ w := by
  obtain ⟨w, hr, hw⟩ := GuardedRun.exists_of_execute
    (step ⟨id, fun h => if h = 1 then some 500 else none⟩) Quietly .initial
    [.post [.create, .start], .begin, .run 0 [], .run 0 [], .run 0 [], .init 0, .init 1, .begin, .run 0 [],
      .run 0 [], .run 0 [], .begin, .run 0 [], .run 0 [], .begin, .run 0 [], .run 0 [],
      .tick 1000, .beginDelayed 0, .run 0 [], .run 0 [], .run 0 [], .run 5 [], .run 0 [], .run 5 [], .run 0 [],
      .run 0 [], .tick 1000, .beginDelayed 0, .run 0 [], .run 0 [], .run 0 [], .run 1005 [], .run 0 [],
      .run 1005 [], .run 0 [], .run 0 []]
    (fun w => decide (w.Idle ∧ (reception w.trace 0).data = [.make 1, .make 2] ∧
      dataOf ((w.loop 1).inFlight 1) = [.make 1])) (by decide)
  obtain ⟨hidle, hw⟩ := of_decide_eq_true hw
  exact ⟨w, hr, hw, streamed_of_reaches _ hr hidle⟩

end OscDataProcess
