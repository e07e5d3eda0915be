import OscDataProcess.Chain
import OscDataProcess.Registration

/-!
# The production chain of a Factory

The Schedule tasks of one Factory, its flag and its Produce calls are a chain; every
step of the deployment is a step of that chain or does not touch it. So a started
Factory goes on, a stopped one runs down, and a Factory that is never started anew
before its old task is gone keeps its pace.
-/
namespace OscDataProcess

open Function (update)
open World

def Entry.produced? (f : FactoryId) : Entry → Option Nat
  | .produced f' time _ => if f' = f then some time else none
  | _ => none

/-- When Factory `f` has produced. -/
def producedTimes (trace : List Entry) (f : FactoryId) : List Nat := trace.filterMap (Entry.produced? f)

def Entry.isTaken (f : FactoryId) : Entry → Bool
  | .taken f' => decide (f' = f)
  | _ => false

/-- How many Schedule tasks of Factory `f` were run. -/
def takenCount (trace : List Entry) (f : FactoryId) : Nat := trace.countP (Entry.isTaken f)

def dueTime (f : FactoryId) (x : Nat × FactoryId) : Option Nat := if x.2 = f then some x.1 else none

/-- Where the factory thread is in Schedule of Factory `f`. -/
def stageOf (f : FactoryId) : List Frame → Stage
  | [.schedule f'] => if f' = f then .scheduling else .idle
  | [.produce f'] => if f' = f then .producing else .idle
  | _ => .idle

namespace World

/-- The chain of Factory `f`. -/
def chain (w : World) (f : FactoryId) : Chain where
  now := w.now
  start := (w.factory f).map Factory.start
  immediate := w.tasks.count (.schedule f)
  delayed := w.delayed.filterMap (dueTime f)
  stage := stageOf f w.frames
  times := producedTimes w.trace f
  taken := takenCount w.trace f

/-- The Factory whose flag this step raises. -/
def starting (w : World) (e : Event) : Option FactoryId :=
  match e, w.pc, w.frames with
  | .run _ _, .idle, .calls (.start :: _) :: _ =>
    w.gFactory.filter fun f => decide ((w.factory f).map Factory.start = some false)
  | _, _, _ => none

end World

@[simp] theorem producedTimes_append (es es' : List Entry) (f : FactoryId) :
    producedTimes (es ++ es') f = producedTimes es f ++ producedTimes es' f := List.filterMap_append

@[simp] theorem takenCount_append (es es' : List Entry) (f : FactoryId) :
    takenCount (es ++ es') f = takenCount es f + takenCount es' f := List.countP_append

@[simp] theorem producedTimes_cons (e : Entry) (es : List Entry) (f : FactoryId) :
    producedTimes (e :: es) f = (e.produced? f).toList ++ producedTimes es f := by
  unfold producedTimes
  rw [List.filterMap_cons]
  cases e.produced? f <;> rfl

@[simp] theorem takenCount_cons (e : Entry) (es : List Entry) (f : FactoryId) :
    takenCount (e :: es) f = takenCount es f + if e.isTaken f then 1 else 0 := List.countP_cons

@[simp] theorem producedTimes_nil (f : FactoryId) : producedTimes [] f = [] := rfl
@[simp] theorem takenCount_nil (f : FactoryId) : takenCount [] f = 0 := rfl

def Frame.isPulse : Frame → Bool
  | .schedule _ | .produce _ => true
  | .calls _ | .notify _ _ _ | .produced | .destroyed _ => false

def Frame.isProduce : Frame → Bool
  | .produce _ => true
  | .calls _ | .schedule _ | .notify _ _ _ | .produced | .destroyed _ => false

/-- Schedule and Produce run on an otherwise empty stack, at the pace every Factory has. -/
structure Alone (w : World) : Prop where
  alone : ∀ fr ∈ w.frames, fr.isPulse = true → w.frames = [fr]
  period : ∀ f fac, w.factory f = some fac → fac.period = newFactory.period

@[simp] theorem stageOf_nil (f : FactoryId) : stageOf f [] = .idle := rfl
@[simp] theorem stageOf_schedule (f f' : FactoryId) :
    stageOf f [.schedule f'] = if f' = f then .scheduling else .idle := rfl
@[simp] theorem stageOf_produce (f f' : FactoryId) :
    stageOf f [.produce f'] = if f' = f then .producing else .idle := rfl
@[simp] theorem stageOf_calls (f : FactoryId) (cs : List Call) (rest : List Frame) :
    stageOf f (.calls cs :: rest) = .idle := by
  cases rest <;> rfl
@[simp] theorem stageOf_notify (f : FactoryId) (k : Notice) (f' : FactoryId) (i : Nat) (rest : List Frame) :
    stageOf f (.notify k f' i :: rest) = .idle := by
  cases rest <;> rfl
@[simp] theorem stageOf_produced (f : FactoryId) (rest : List Frame) :
    stageOf f (.produced :: rest) = .idle := by
  cases rest <;> rfl
@[simp] theorem stageOf_destroyed (f f' : FactoryId) (rest : List Frame) :
    stageOf f (.destroyed f' :: rest) = .idle := by
  cases rest <;> rfl

variable {c : Config} {w : World}

/-- Nothing below the top of the stack is a Schedule or a Produce. -/
theorem Alone.rest (ha : Alone w) {fr : Frame} {rest : List Frame} (hw : w.frames = fr :: rest) :
    ∀ x ∈ rest, x.isPulse = false := by
  intro x hx
  by_contra hp
  have hone := ha.alone x (hw ▸ List.mem_cons_of_mem fr hx) (by simpa using hp)
  rw [hw] at hone
  obtain ⟨-, rfl⟩ := List.cons.inj hone
  cases hx

/-- Below a Schedule or a Produce there is nothing at all. -/
theorem Alone.rest_eq_nil (ha : Alone w) {fr : Frame} {rest : List Frame} (hw : w.frames = fr :: rest)
    (hp : fr.isPulse = true) : rest = [] := by
  have hone := ha.alone fr (hw ▸ List.mem_cons_self) hp
  rw [hw] at hone
  exact (List.cons.inj hone).2

theorem stageOf_of_rest {frames : List Frame} (h : ∀ x ∈ frames, x.isPulse = false) (f : FactoryId) :
    stageOf f frames = .idle := by
  unfold stageOf
  split
  · cases h _ List.mem_cons_self
  · cases h _ List.mem_cons_self
  · rfl

theorem Alone.stage_rest (ha : Alone w) {fr : Frame} {rest : List Frame} (hw : w.frames = fr :: rest)
    (f : FactoryId) : stageOf f rest = .idle :=
  stageOf_of_rest (ha.rest hw) f

/-- What a Factory is apart from its observers. -/
def Factory.bare (fac : Factory) : Factory := { fac with observerList := .empty }

theorem map_bare_update {g : FactoryId → Option Factory} {f : FactoryId} {fac : Factory}
    (l : ObserverList Observer) (hf : g f = some fac) (b : FactoryId) :
    (update g f (some { fac with observerList := l }) b).map Factory.bare = (g b).map Factory.bare := by
  by_cases he : b = f
  · subst he
    simp [hf, Factory.bare]
  · rw [Function.update_of_ne he]

theorem map_bare_dropped (w : World) (s : StubId) (st : FactoryStub) (b : FactoryId) :
    (w.dropped s st b).map Factory.bare = (w.factory b).map Factory.bare := by
  cases hst : st.factory with
  | none => simp [World.dropped, hst]
  | some f =>
    simp only [World.dropped, hst]
    by_cases he : b = f
    · subst he
      cases w.factory b <;> simp [Factory.bare]
    · rw [Function.update_of_ne he]

/-- The host side changes nothing of a Factory but its observers. -/
theorem HostMove.bare {w' : World} {e : Event} (hm : HostMove c w e w') (f : FactoryId) :
    (w'.factory f).map Factory.bare = (w.factory f).map Factory.bare := by
  cases hm with
  | postInit _ _ hfac => exact map_bare_update _ hfac f
  | leave _ _ _ hfac => exact map_bare_update _ hfac f
  | relayDestroyStub | selfDestroyStub => exact map_bare_dropped _ _ _ f
  | beginRelay | relayDestroyNull | relayReply | forward | hold | leavePost | leaveDestroy
  | selfDestroyNull | selfReply | selfDrop | beginHost | resetTask | runReply | deleteRelay | runCall
  | unbind | init | destroy | addRef | dropRef => rfl

theorem map_start_eq {g g' : FactoryId → Option Factory} {f : FactoryId}
    (h : (g' f).map Factory.bare = (g f).map Factory.bare) :
    (g' f).map Factory.start = (g f).map Factory.start := by
  have hb : ∀ o : Option Factory, (o.map Factory.bare).map Factory.start = o.map Factory.start := by
    intro o
    cases o <;> rfl
  rw [← hb, h, hb]

@[simp] theorem producedTimes_deletion (o : FactoryHost) (h : HostId) (f : FactoryId) :
    producedTimes (o.deletion h) f = [] := by
  unfold FactoryHost.deletion
  split <;> rfl

@[simp] theorem takenCount_deletion (o : FactoryHost) (h : HostId) (f : FactoryId) :
    takenCount (o.deletion h) f = 0 := by
  unfold FactoryHost.deletion
  split <;> rfl

/-- The host side takes no part in production. -/
theorem HostMove.chain {w' : World} {e : Event} (hm : HostMove c w e w') (f : FactoryId) :
    w'.chain f = w.chain f ∧ w'.frames = w.frames := by
  have hstart := map_start_eq (hm.bare f)
  cases hm with
  | beginRelay hidle hts => exact ⟨by simp [World.chain, hts], rfl⟩
  | init | destroy => exact ⟨by simp [World.chain, Entry.produced?, Entry.isTaken], rfl⟩
  | leave => exact ⟨Chain.ext rfl hstart rfl rfl rfl rfl rfl, rfl⟩
  | postInit | relayDestroyNull | relayDestroyStub | relayReply | forward | hold | leavePost | leaveDestroy
  | selfDestroyNull | selfDestroyStub | selfReply | selfDrop | beginHost | resetTask | runReply | deleteRelay
  | runCall | unbind | addRef | dropRef =>
    exact ⟨Chain.ext rfl hstart rfl rfl rfl (by simp [World.chain, Entry.produced?])
      (by simp [World.chain, Entry.isTaken]), rfl⟩

@[simp] theorem startNotify_start (k : Notice) (f : FactoryId) (fac : Factory) :
    (startNotify k f fac).1.start = fac.start := by
  unfold startNotify
  split <;> rfl

@[simp] theorem startNotify_period (k : Notice) (f : FactoryId) (fac : Factory) :
    (startNotify k f fac).1.period = fac.period := by
  unfold startNotify
  split <;> rfl

theorem startNotify_isPulse (k : Notice) (f : FactoryId) (fac : Factory) (frames : List Frame)
    (h : ∀ x ∈ frames, x.isPulse = false) : ∀ x ∈ (startNotify k f fac).2 ++ frames, x.isPulse = false := by
  unfold startNotify
  split
  · simpa [Frame.isPulse] using h
  · exact h

def Event.isTick : Event → Bool
  | .tick _ => true
  | _ => false

/-- The chain stands still, or takes the step that the event is for it. -/
def Follows (f : FactoryId) (w : World) (e : Event) (w' : World) : Prop :=
  w'.chain f = w.chain f ∨ ∃ b, Chain.step newFactory.period (w.chain f) b = some (w'.chain f) ∧
    (b = .start → w.starting e = some f) ∧ (b = .create → f = w.freshFactory) ∧
    ∀ us, b = .tick us → e.isTick = true

/-- A beat that no `Start`, no creation and no passing of time stands behind. -/
def Beat.isInner : Beat → Bool
  | .tick _ | .create | .start => false
  | .delete | .stop | .take | .takeDelayed _ | .schedule | .produce => true

theorem follows_of_isInner {f : FactoryId} {e : Event} {w' : World} (b : Beat) (hb : b.isInner = true)
    (hstep : Chain.step newFactory.period (w.chain f) b = some (w'.chain f)) : Follows f w e w' := by
  refine .inr ⟨b, hstep, ?_, ?_, ?_⟩
  · rintro rfl
    cases hb
  · rintro rfl
    cases hb
  · rintro us rfl
    cases hb

theorem dueTime_eraseIdx {l : List (Nat × FactoryId)} {i time : Nat} {f : FactoryId}
    (h : l[i]? = some (time, f)) : ∃ j, (l.filterMap (dueTime f))[j]? = some time ∧
      (l.eraseIdx i).filterMap (dueTime f) = (l.filterMap (dueTime f)).eraseIdx j := by
  obtain ⟨hlt, hget⟩ := List.getElem?_eq_some_iff.mp h
  have hl : l = l.take i ++ (time, f) :: l.drop (i + 1) := by
    rw [← hget, List.getElem_cons_drop hlt, List.take_append_drop]
  have hmap : l.filterMap (dueTime f) =
      (l.take i).filterMap (dueTime f) ++ time :: (l.drop (i + 1)).filterMap (dueTime f) := by
    conv_lhs => rw [hl]
    simp [dueTime]
  refine ⟨((l.take i).filterMap (dueTime f)).length, by simp [hmap], ?_⟩
  rw [hmap, List.eraseIdx_eq_take_drop_succ, List.eraseIdx_eq_take_drop_succ]
  simp

theorem dueTime_eraseIdx_of_ne {l : List (Nat × FactoryId)} {i time : Nat} {f f' : FactoryId}
    (h : l[i]? = some (time, f')) (hne : f' ≠ f) :
    (l.eraseIdx i).filterMap (dueTime f) = l.filterMap (dueTime f) := by
  obtain ⟨hlt, hget⟩ := List.getElem?_eq_some_iff.mp h
  conv_rhs => rw [← List.take_append_drop i l, List.drop_eq_getElem_cons hlt]
  rw [List.eraseIdx_eq_take_drop_succ]
  simp [hget, dueTime, hne]

theorem FactoryMove.follows {w' : World} {e : Event} (ha : Alone w) (hl : Listed w) (hm : FactoryMove w e w')
    (f : FactoryId) : Follows f w e w' := by
  cases hm with
  | post => exact .inl (by simp [World.chain])
  | @tick us => exact .inr ⟨.tick us, rfl, by simp, by simp, fun _ _ => rfl⟩
  | beginCalls hidle hts => exact .inl (by simp [World.chain, hts, hidle.2])
  | @beginSchedule f' ts hidle hts =>
    by_cases hf : f' = f
    · subst hf
      refine follows_of_isInner .take rfl ?_
      cases hfac : w.factory f' <;>
        simp [Chain.step, Chain.run, World.chain, hidle.2, hts, hfac, Entry.produced?, Entry.isTaken]
    · left
      cases hfac : w.factory f' <;>
        simp [World.chain, hidle.2, hts, hf, Entry.produced?, Entry.isTaken]
  | @beginDelayed i time f' hidle hi hle =>
    by_cases hf : f' = f
    · subst hf
      obtain ⟨j, hj, herase⟩ := dueTime_eraseIdx hi
      refine follows_of_isInner (.takeDelayed j) rfl ?_
      cases hfac : w.factory f' <;>
        simp [Chain.step, Chain.run, World.chain, hidle.2, hj, hle, herase, hfac, Entry.produced?,
          Entry.isTaken]
    · left
      have herase := dueTime_eraseIdx_of_ne hi hf
      cases hfac : w.factory f' <;>
        simp [World.chain, hidle.2, herase, hf, Entry.produced?, Entry.isTaken]
  | callsDone hpc hw => exact .inl (by simp [World.chain, hw, ha.stage_rest hw])
  | skip hpc hw => exact .inl (by simp [World.chain, hw])
  | create hpc hw hg =>
    by_cases hf : f = w.freshFactory
    · subst hf
      have hnone : w.factory w.freshFactory = none := by
        cases hfac : w.factory w.freshFactory with
        | none => rfl
        | some fac => exact absurd (hl.listBound _ _ (list_of_some hfac)) (Nat.lt_irrefl _)
      refine .inr ⟨.create, ?_, by simp, fun _ => rfl, by simp⟩
      simp [Chain.step, World.chain, createFactory, hw, hnone, newFactory, Entry.produced?, Entry.isTaken]
    · exact .inl (by simp [World.chain, createFactory, hw, hf, Entry.produced?, Entry.isTaken])
  | @start f' fac ks rest time script hpc hw hg hfac hs =>
    by_cases hf : f = f'
    · subst hf
      refine .inr ⟨.start, ?_, fun _ => ?_, by simp, by simp⟩
      · simp [Chain.step, World.chain, hw, hfac, hs]
      · simp [World.starting, hpc, hw, hg, hfac, hs]
    · exact .inl (by simp [World.chain, hw, hf, Ne.symm hf])
  | @stop f' fac ks rest time script hpc hw hg hfac hs =>
    by_cases hf : f = f'
    · subst hf
      exact follows_of_isInner .stop rfl (by simp [Chain.step, World.chain, hw, hfac, hs])
    · exact .inl (by simp [World.chain, hw, hf])
  | @destroyBegin f' fac ks rest time script hpc hw hg hfac =>
    have hstage := stageOf_of_rest (startNotify_isPulse .destroyed f' fac
      (.destroyed f' :: .calls ks :: rest) (by simpa [Frame.isPulse] using ha.rest hw)) f
    by_cases hf : f = f'
    · subst hf
      exact .inl (by simp [World.chain, hw, hfac, hstage, Entry.produced?, Entry.isTaken])
    · exact .inl (by simp [World.chain, hw, hf, hstage, Entry.produced?, Entry.isTaken])
  | addObserver hpc hw hg hfac | removeObserver hpc hw hg hfac =>
    refine .inl (Chain.ext rfl (map_start_eq (map_bare_update _ hfac f)) rfl rfl ?_ rfl rfl)
    simp [World.chain, hw]
  | @scheduleStopped f' fac rest time script hpc hw hfac hs =>
    obtain rfl := ha.rest_eq_nil hw rfl
    by_cases hf : f = f'
    · subst hf
      exact follows_of_isInner .schedule rfl (by simp [Chain.step, World.chain, hw, hfac, hs])
    · exact .inl (by simp [World.chain, hw, hf, Ne.symm hf])
  | @scheduleNow f' fac rest time script hpc hw hfac hs hp =>
    obtain rfl := ha.rest_eq_nil hw rfl
    rw [ha.period f' fac hfac] at hp
    by_cases hf : f = f'
    · subst hf
      exact follows_of_isInner .schedule rfl (by simp [Chain.step, World.chain, hw, hfac, hs, hp])
    · exact .inl (by simp [World.chain, hw, hf, Ne.symm hf])
  | @scheduleLater f' fac rest time script hpc hw hfac hs hp =>
    obtain rfl := ha.rest_eq_nil hw rfl
    rw [ha.period f' fac hfac] at hp
    by_cases hf : f = f'
    · subst hf
      have hdue := ha.period f fac hfac
      refine follows_of_isInner .schedule rfl ?_
      simp [Chain.step, World.chain, hw, hfac, hs, hp, hdue, dueTime]
    · exact .inl (by simp [World.chain, hw, hf, Ne.symm hf, dueTime])
  | @produce f' fac rest time script hpc hw hfac =>
    obtain rfl := ha.rest_eq_nil hw rfl
    have hstage := stageOf_of_rest (startNotify_isPulse .produced f' { fac with data := .make w.dataId }
      [.produced] (by simp [Frame.isPulse])) f
    by_cases hf : f = f'
    · subst hf
      refine follows_of_isInner .produce rfl ?_
      simp [Chain.step, World.chain, hw, hfac, hstage, Entry.produced?, Entry.isTaken]
    · left
      simp [World.chain, hw, hf, Ne.symm hf, hstage, Entry.produced?, Entry.isTaken]
  | notifyDead hpc hw => exact .inl (by simp [World.chain, hw, ha.stage_rest hw])
  | notifyEnd hpc hw hfac =>
    refine .inl (Chain.ext rfl (map_start_eq (map_bare_update _ hfac f)) rfl rfl ?_ rfl rfl)
    simp [World.chain, hw, ha.stage_rest hw]
  | notifyPlain hpc hw | notifyProduced hpc hw | notifyDestroyed hpc hw =>
    exact .inl (by simp [World.chain, hw, Entry.produced?, Entry.isTaken])
  | produced hpc hw => exact .inl (by simp [World.chain, hw, ha.stage_rest hw])
  | @destroyed f' fac rest time script hpc hw hfac =>
    by_cases hf : f = f'
    · subst hf
      refine follows_of_isInner .delete rfl ?_
      simp [Chain.step, World.chain, hw, ha.stage_rest hw, Entry.produced?, Entry.isTaken]
    · exact .inl (by simp [World.chain, hw, hf, ha.stage_rest hw, Entry.produced?, Entry.isTaken])

theorem of_update_none {g : FactoryId → Option Factory} {f b : FactoryId} {x : Factory}
    (h : update g f none b = some x) : g b = some x := by
  by_cases hb : b = f
  · subst hb
    simp at h
  · rwa [Function.update_of_ne hb] at h

theorem alone_initial : Alone .initial := ⟨nofun, nofun⟩

theorem Alone.hostMove {w' : World} {e : Event} (ha : Alone w) (hm : HostMove c w e w') : Alone w' := by
  refine ⟨by rw [(hm.chain 0).2]; exact ha.alone, ?_⟩
  intro f fac hf
  have hb := hm.bare f
  rw [hf] at hb
  obtain ⟨fac', hfac', hbare⟩ := Option.map_eq_some_iff.mp hb.symm
  rw [← ha.period f fac' hfac']
  exact (congrArg Factory.period hbare).symm

theorem Alone.factoryMove {w' : World} {e : Event} (ha : Alone w) (hm : FactoryMove w e w') : Alone w' := by
  have hnone : ∀ {frames : List Frame}, (∀ x ∈ frames, x.isPulse = false) →
      ∀ fr ∈ frames, fr.isPulse = true → frames = [fr] := by
    intro frames h fr hfr hp
    rw [h fr hfr] at hp
    cases hp
  have hone : ∀ fr : Frame, ∀ x ∈ [fr], x.isPulse = true → [fr] = [x] := by
    intro fr x hx _
    rw [List.mem_singleton.mp hx]
  have hpush : ∀ {fr fr' : Frame} {rest : List Frame}, w.frames = fr :: rest → fr'.isPulse = false →
      ∀ x ∈ fr' :: rest, x.isPulse = false := by
    intro fr fr' rest hw hp x hx
    obtain rfl | hx := List.mem_cons.mp hx
    · exact hp
    · exact ha.rest hw x hx
  have hperiod : ∀ {f' fac} (fac' : Factory), w.factory f' = some fac → fac'.period = fac.period →
      ∀ f x, update w.factory f' (some fac') f = some x → x.period = newFactory.period := by
    intro f' fac fac' hfac hsame f x hx
    by_cases hf : f = f'
    · subst hf
      obtain rfl : fac' = x := by simpa using hx
      rw [hsame]
      exact ha.period f fac hfac
    · rw [Function.update_of_ne hf] at hx
      exact ha.period f x hx
  cases hm with
  | post | tick => exact ⟨ha.alone, ha.period⟩
  | beginCalls => exact ⟨hnone (by simp [Frame.isPulse]), ha.period⟩
  | beginSchedule | beginDelayed =>
    refine ⟨?_, ha.period⟩
    split
    · exact hone _
    · nofun
  | callsDone hpc hw | notifyDead hpc hw | produced hpc hw => exact ⟨hnone (ha.rest hw), ha.period⟩
  | skip hpc hw => exact ⟨hnone (hpush hw rfl), ha.period⟩
  | create hpc hw =>
    refine ⟨hnone (hpush hw rfl), ?_⟩
    intro f x hx
    simp only [createFactory] at hx
    by_cases hf : f = w.freshFactory
    · subst hf
      obtain rfl : newFactory = x := by simpa using hx
      rfl
    · rw [Function.update_of_ne hf] at hx
      exact ha.period f x hx
  | start hpc hw hg hfac | stop hpc hw hg hfac =>
    exact ⟨hnone (hpush hw rfl), hperiod _ hfac rfl⟩
  | addObserver hpc hw hg hfac | removeObserver hpc hw hg hfac =>
    exact ⟨hnone (hpush hw rfl), hperiod _ hfac rfl⟩
  | @destroyBegin f fac ks rest time script hpc hw hg hfac =>
    refine ⟨hnone (startNotify_isPulse _ _ _ _ ?_), hperiod _ hfac (startNotify_period _ _ _)⟩
    simpa [Frame.isPulse] using ha.rest hw
  | scheduleStopped hpc hw hfac => exact ⟨hnone (ha.rest hw), hperiod _ hfac rfl⟩
  | scheduleNow hpc hw hfac | scheduleLater hpc hw hfac =>
    obtain rfl := ha.rest_eq_nil hw rfl
    exact ⟨hone _, hperiod _ hfac rfl⟩
  | produce hpc hw hfac =>
    refine ⟨hnone (startNotify_isPulse _ _ _ _ ?_), hperiod _ hfac (startNotify_period _ _ _)⟩
    simpa [Frame.isPulse] using ha.rest hw
  | notifyEnd hpc hw hfac => exact ⟨hnone (ha.rest hw), hperiod _ hfac rfl⟩
  | notifyPlain hpc hw | notifyProduced hpc hw | notifyDestroyed hpc hw =>
    exact ⟨hnone (by simpa [Frame.isPulse] using ha.rest hw), ha.period⟩
  | destroyed hpc hw hfac =>
    refine ⟨hnone (ha.rest hw), ?_⟩
    intro b x hx
    exact ha.period b x (of_update_none hx)

/-- Callers without any discipline. -/
def Free (_ : World) (_ : Event) : Prop := True

instance (w : World) (e : Event) : Decidable (Free w e) := inferInstanceAs (Decidable True)

theorem alone_of_reaches {P : World → Event → Prop} (hr : GuardedRun.Reaches (step c) P .initial w) : Alone w :=
  moves_of_reaches (fun _ _ _ _ ha _ hm => ha.hostMove hm) (fun _ _ _ _ ha _ hm => ha.factoryMove hm)
    alone_initial hr

theorem step_follows {w' : World} {e : Event} (hr : GuardedRun.Reaches (step c) Free .initial w)
    (he : step c w e = some w') (f : FactoryId) : Follows f w e w' := by
  obtain hm | hm := step_cases (counted_of_reaches hr).owned he
  · exact .inl (hm.chain f).1
  · exact hm.follows (alone_of_reaches hr) (listed_of_reaches hr) f

/-- A run of the deployment is a run of the chain of every Factory. -/
theorem chain_of_reaches {P : World → Event → Prop} {Q : Chain → Beat → Prop} {f : FactoryId} {w' : World}
    (hq : ∀ t e b, GuardedRun.Reaches (step c) Free w t → P t e → (b = .start → t.starting e = some f) →
      (b = .create → f = t.freshFactory) → (∀ us, b = .tick us → e.isTick = true) → Q (t.chain f) b)
    (hw : GuardedRun.Reaches (step c) Free .initial w) (hr : GuardedRun.Reaches (step c) P w w') :
    GuardedRun.Reaches (Chain.step newFactory.period) Q (w.chain f) (w'.chain f) := by
  refine hr.simulate (fun w => w.chain f) (I := fun t => GuardedRun.Reaches (step c) Free w t) ?_ (.refl w)
  intro t e u ht hp he
  refine ⟨ht.tail trivial he, (step_follows (hw.trans ht) he f).imp_right ?_⟩
  rintro ⟨b, hb, hstart, hcreate, htick⟩
  exact ⟨b, hq t e b ht hp hstart hcreate htick, hb⟩

theorem going_of_reaches (hr : GuardedRun.Reaches (step c) Free .initial w) (f : FactoryId) :
    (w.chain f).Going :=
  Chain.going_of_reaches (P := fun _ _ => True)
    (chain_of_reaches (fun _ _ _ _ _ _ _ _ => trivial) (.refl _) hr)

/-- How many Schedule tasks of Factory `f` are posted and not yet run. -/
def World.outstanding (w : World) (f : FactoryId) : Nat :=
  w.tasks.count (.schedule f) + w.delayed.countP fun x => decide (x.2 = f)

theorem chain_outstanding (w : World) (f : FactoryId) : (w.chain f).outstanding = w.outstanding f := by
  have hlen : ∀ l : List (Nat × FactoryId),
      (l.filterMap (dueTime f)).length = l.countP fun x => decide (x.2 = f) := by
    intro l
    induction l with
    | nil => rfl
    | cons x l ih => by_cases hx : x.2 = f <;> simp [dueTime, hx, ih]
  simp [Chain.outstanding, World.chain, World.outstanding, hlen]

/-- Factory `f` is not started again. -/
def NeverStarts (f : FactoryId) (w : World) (e : Event) : Prop := w.starting e ≠ some f

/-- A started Factory keeps producing, a stopped one never does, and a deleted one does nothing. -/
structure KeepsProducing (c : Config) (w : World) : Prop where
  goesOn : w.Idle → ∀ f fac, w.factory f = some fac → fac.start = true → 1 ≤ w.outstanding f
  started : ∀ f rest, w.frames = .produce f :: rest → ∃ fac, w.factory f = some fac ∧ fac.start = true
  drains : ∀ f, (∀ fac, w.factory f = some fac → fac.start = false) →
    ∀ w', GuardedRun.Reaches (step c) (NeverStarts f) w w' →
      w'.outstanding f + takenCount w'.trace f = w.outstanding f + takenCount w.trace f ∧
      producedTimes w'.trace f = producedTimes w.trace f
  destroyed : ∀ f, f < w.freshFactory → w.factory f = none →
    ∀ w', GuardedRun.Reaches (step c) Free w w' →
      w'.factory f = none ∧ .schedule f ∉ w'.frames ∧ .produce f ∉ w'.frames

theorem drains (hr : GuardedRun.Reaches (step c) Free .initial w) {f : FactoryId}
    (hs : ∀ fac, w.factory f = some fac → fac.start = false) {w' : World}
    (hr' : GuardedRun.Reaches (step c) (NeverStarts f) w w') :
    w'.outstanding f + takenCount w'.trace f = w.outstanding f + takenCount w.trace f ∧
      producedTimes w'.trace f = producedTimes w.trace f := by
  have hchain := chain_of_reaches (Q := Chain.NoStart)
    (fun w e b _ hn hstart _ _ hb => hn (hstart hb)) hr hr'
  have hdown : (w.chain f).start ≠ some true := by
    intro hup
    obtain ⟨fac, hfac, hup⟩ := Option.map_eq_some_iff.mp hup
    rw [hs fac hfac] at hup
    cases hup
  obtain ⟨-, hbal, htimes⟩ := Chain.drained_of_reaches (going_of_reaches hr f) hdown hchain
  rw [chain_outstanding, chain_outstanding] at hbal
  exact ⟨hbal, htimes⟩

/-- A deleted Factory stays deleted, and none of its code is on the stack any more. -/
theorem destroyed (hr : GuardedRun.Reaches (step c) Free .initial w) {f : FactoryId}
    (hlt : f < w.freshFactory) (hnone : w.factory f = none) {w' : World}
    (hr' : GuardedRun.Reaches (step c) Free w w') :
    w'.factory f = none ∧ .schedule f ∉ w'.frames ∧ .produce f ∉ w'.frames := by
  have hchain : GuardedRun.Reaches (Chain.step newFactory.period) Chain.NoCreate (w.chain f) (w'.chain f) := by
    refine chain_of_reaches ?_ hr hr'
    rintro t e b ht - - hcreate - hb
    have hle := (Onward.of_reaches ht).fresh
    rw [← hcreate hb] at hle
    exact Nat.not_lt_of_le hle hlt
  have hstart : (w'.factory f).map Factory.start = none :=
    Chain.start_eq_none_of_reaches (s := w.chain f) (by simp [World.chain, hnone]) hchain
  have hreach := hr.trans hr'
  have hgoing := going_of_reaches hreach f
  have halone := alone_of_reaches hreach
  refine ⟨by simpa using hstart, fun hm => ?_, fun hm => ?_⟩
  · refine hgoing.alive ?_ hstart
    simp [World.chain, halone.alone _ hm rfl]
  · have hup := hgoing.producing (by simp [World.chain, halone.alone _ hm rfl])
    exact nomatch hstart.symm.trans hup

/-- The Factory goes on while it is started; when it is stopped or deleted its tasks run down. -/
theorem keepsProducing_of_reaches (c : Config) {P : World → Event → Prop} {w : World}
    (hr : GuardedRun.Reaches (step c) P .initial w) : KeepsProducing c w := by
  have hr : GuardedRun.Reaches (step c) Free .initial w := hr.mono fun _ _ _ => trivial
  refine ⟨?_, ?_, fun f hs w' hr' => drains hr hs hr', fun f hlt hnone w' hr' => destroyed hr hlt hnone hr'⟩
  · intro hidle f fac hfac hs
    obtain hout | hstage := (going_of_reaches hr f).goesOn (by simp [World.chain, hfac, hs])
    · rwa [chain_outstanding] at hout
    · simp [World.chain, hidle.2] at hstage
  · intro f rest hw
    have hone := (alone_of_reaches hr).alone (.produce f) (hw ▸ List.mem_cons_self) rfl
    have hup := (going_of_reaches hr f).producing (by simp [World.chain, hone])
    exact Option.map_eq_some_iff.mp hup

/-- A started Factory waits for its next turn. -/
theorem keepsProducing_of_reaches_started : ∃ w, GuardedRun.Reaches (step .plain) Free .initial w ∧
    (w.Idle ∧ (w.factory 0).map Factory.start = some true ∧ w.outstanding 0 = 1) ∧ KeepsProducing .plain w := by
  obtain ⟨w, hr, hw⟩ := GuardedRun.exists_of_execute (step .plain) Free .initial
    [.post [.create, .start], .begin, .run 0 [], .run 0 [], .run 0 [], .begin, .run 0 [], .run 0 [], .run 0 []]
    (fun w => decide (w.Idle ∧ (w.factory 0).map Factory.start = some true ∧ w.outstanding 0 = 1)) (by decide)
  exact ⟨w, hr, of_decide_eq_true hw, keepsProducing_of_reaches .plain hr⟩

/-- Start finds no task of the Factory left over. -/
def StartsAfresh (w : World) (e : Event) : Prop := ∀ f ∈ w.starting e, w.outstanding f = 0

/-- And no time passes between posting and producing. -/
def RestedStart (w : World) (e : Event) : Prop :=
  StartsAfresh w e ∧ (e.isTick = true → ∀ fr ∈ w.frames.head?, fr.isProduce = false)

instance (w : World) (e : Event) : Decidable (RestedStart w e) :=
  inferInstanceAs (Decidable ((∀ f ∈ w.starting e, w.outstanding f = 0) ∧ (_ → ∀ fr ∈ w.frames.head?, _)))

/-- One chain of tasks for each Factory. -/
structure SingleChain (w : World) : Prop where
  single : ∀ f, w.outstanding f ≤ 1
  period : ∀ f fac, w.factory f = some fac → fac.period = newFactory.period

/-- And its Produce calls a period apart. -/
structure OneChain (w : World) : Prop extends SingleChain w where
  spaced : ∀ f, (producedTimes w.trace f).Pairwise (· + newFactory.period ≤ ·)

theorem stageOf_eq_producing {f : FactoryId} {frames : List Frame} (h : stageOf f frames = .producing) :
    frames = [.produce f] := by
  unfold stageOf at h
  split at h
  · split at h <;> cases h
  · rename_i f'
    split at h
    · rename_i hf
      rw [hf]
    · cases h
  · cases h

theorem singleChain_of_reaches {c : Config} {w : World} (hr : GuardedRun.Reaches (step c) StartsAfresh .initial w) :
    SingleChain w := by
  refine ⟨fun f => ?_, (alone_of_reaches hr).period⟩
  rw [← chain_outstanding]
  refine (Chain.atMostOne_of_reaches (chain_of_reaches (w := .initial) ?_ (.refl _) hr)).outstanding_le
  rintro t e b ht hrest hstart - - hb
  rw [chain_outstanding]
  exact hrest f (hstart hb)

theorem spaced_of_reaches {c : Config} {w : World} (hr : GuardedRun.Reaches (step c) RestedStart .initial w)
    (f : FactoryId) : (producedTimes w.trace f).Pairwise (· + newFactory.period ≤ ·) := by
  have hspaced : (w.chain f).Spaced newFactory.period := by
    refine Chain.spaced_of_reaches (chain_of_reaches (w := .initial) ?_ (.refl _) hr)
    rintro t e b ht ⟨hrest, htick⟩ hstart - htick'
    refine ⟨fun hb => ?_, fun us hb hstage => ?_⟩
    · rw [chain_outstanding]
      exact hrest f (hstart hb)
    · have hw := stageOf_eq_producing hstage
      have := htick (htick' us hb) (.produce f) (by simp [hw])
      cases this
  exact hspaced.spaced

/-- A Factory that is only started with no task left has one chain; its data are a period apart
if no time passes before they are produced. -/
theorem oneChain_of_reaches (c : Config) {w : World} :
    (GuardedRun.Reaches (step c) StartsAfresh .initial w → SingleChain w) ∧
      (GuardedRun.Reaches (step c) RestedStart .initial w → OneChain w) :=
  ⟨singleChain_of_reaches, fun hr =>
    ⟨singleChain_of_reaches (hr.mono fun _ _ hp => hp.1), spaced_of_reaches hr⟩⟩

/-- Stop, and Start again once the old task is gone. -/
theorem oneChain_of_reaches_restarted : ∃ w, GuardedRun.Reaches (step .plain) RestedStart .initial w ∧
    producedTimes w.trace 0 = [0, 1500] ∧ OneChain w := by
  obtain ⟨w, hr, hw⟩ := GuardedRun.exists_of_execute (step .plain) RestedStart .initial
    [.post [.create, .start], .begin, .run 0 [], .run 0 [], .run 0 [], .begin, .run 0 [], .run 0 [], .run 0 [],
      .post [.stop], .begin, .run 0 [], .run 0 [], .tick 1500, .beginDelayed 0, .run 0 [],
      .post [.start], .begin, .run 0 [], .run 0 [], .begin, .run 0 [], .run 0 [], .run 0 []]
    (fun w => decide (producedTimes w.trace 0 = [0, 1500])) (by decide)
  exact ⟨w, hr, of_decide_eq_true hw, (oneChain_of_reaches .plain).2 hr⟩

/-- Start after Stop before the old task is gone: two tasks, and two data at one moment. -/
theorem not_oneChain_restarted : ∃ w, GuardedRun.Reaches (step .plain) Free .initial w ∧
    (w.Idle ∧ w.outstanding 0 = 2 ∧ producedTimes w.trace 0 = [0, 0]) ∧ ¬ OneChain w := by
  obtain ⟨w, hr, hw⟩ := GuardedRun.exists_of_execute (step .plain) Free .initial
    [.post [.create, .start], .begin, .run 0 [], .run 0 [], .run 0 [], .begin, .run 0 [], .run 0 [], .run 0 [],
      .post [.stop, .start], .begin, .run 0 [], .run 0 [], .run 0 [], .begin, .run 0 [], .run 0 [], .run 0 []]
    (fun w => decide (w.Idle ∧ w.outstanding 0 = 2 ∧ producedTimes w.trace 0 = [0, 0])) (by decide)
  have hw := of_decide_eq_true hw
  refine ⟨w, hr, hw, fun hone => ?_⟩
  have := hone.single 0
  omega

end OscDataProcess
