import OscDataProcess.Conversation

/-!
# Order of the callbacks of a host, and the hand-over of `data_`

OnFactoryDestory is only announced by a Factory that is being destroyed, and not
to a host whose PostDestroy has run before. `data_` is written by the factory
thread before anything is posted to the host.
-/
namespace OscDataProcess

open Function (update)
open World

/-- A marked prefix of a longer history is one of the old history when the mark is not new. -/
theorem prefix_of_not_mem {α : Type} {pre l es : List α} {x : α} (h : pre ++ [x] <+: l ++ es)
    (hx : x ∉ es) : pre ++ [x] <+: l := by
  induction es using List.reverseRecOn with
  | nil => rwa [List.append_nil] at h
  | append_singleton es y ih =>
    rw [← List.append_assoc, List.prefix_concat_iff] at h
    obtain h | h := h
    · obtain rfl : x = y := by
        have := congrArg List.getLast? h
        simpa using this
      exact absurd (List.mem_append_right _ List.mem_cons_self) hx
    · exact ih h fun hm => hx (List.mem_append_left _ hm)

/-- A new mark ends the old history. -/
theorem prefix_of_mark {α : Type} {pre l es : List α} {x : α} (h : pre ++ [x] <+: l ++ x :: es)
    (hx : x ∉ es) : pre = l ∨ pre ++ [x] <+: l := by
  rw [List.append_cons l x es] at h
  obtain h | h := List.prefix_concat_iff.mp (prefix_of_not_mem h hx)
  · exact .inl (List.append_cancel_right h)
  · exact .inr h

variable {c : Config} {w : World}

/-- Entries of one kind that a step does not write. -/
theorem Quiet.not_mem {w' : World} (hq : Quiet w w') {e : Entry} (he : ¬ e.IsFactory) :
    ∃ es, w'.trace = w.trace ++ es ∧ e ∉ es := by
  obtain ⟨es, htr, hes⟩ := hq.trace
  exact ⟨es, htr, fun hm => he (hes e hm)⟩

@[simp] theorem not_mem_deletion_attached {o : FactoryHost} {h b : HostId} {s : StubId} {f : FactoryId} :
    Entry.attached b s f ∉ o.deletion h := by
  unfold FactoryHost.deletion
  split <;> simp

@[simp] theorem not_mem_deletion_postDestroy {o : FactoryHost} {h b : HostId} :
    Entry.postDestroy b ∉ o.deletion h := by
  unfold FactoryHost.deletion
  split <;> simp

@[simp] theorem not_mem_deletion_destroyBegun {o : FactoryHost} {h : HostId} {f : FactoryId} :
    Entry.destroyBegun f ∉ o.deletion h := by
  unfold FactoryHost.deletion
  split <;> simp

/-- Nothing has been posted to a host before its stub is constructed. -/
def AttachFirst (w : World) : Prop :=
  ∀ pre h s f, pre ++ [.attached h s f] <+: w.trace → posted pre h = [] ∧ handled pre h = []

theorem AttachFirst.hostMove {w' : World} {e : Event} (hs : Sound c w) (ha : AttachFirst w)
    (hm : HostMove c w e w') : AttachFirst w' := by
  intro pre b s f hpre
  cases hm with
  | @postInit h f' fac o time script hpc hf hfac ho =>
    by_cases hx : Entry.attached b s f = .attached h w.freshStub f'
    · obtain ⟨rfl, rfl, rfl⟩ := Entry.attached.inj hx
      obtain rfl | hpre := prefix_of_mark hpre (by simp)
      · have hruns := hs.bound.runs_eq_zero hs.relayed hpc
        have he := hs.conversing.expects b
        unfold World.Expects at he
        rw [show attached w.trace b = false by simp [attached, hruns]] at he
        have hnone : w.stubOf b = none := by
          rw [stubOf_of_host ho]
          exact hs.bound.stub_eq_none hs.counted hruns ho
        have hp := phase_eq_fresh.mp (fresh_of_not_attached he hnone)
        have hd := hs.delivered b
        rw [hp] at hd
        exact ⟨hp, (List.append_eq_nil_iff.mp hd.symm).1⟩
      · exact ha pre b _ _ hpre
    · exact ha pre b s f (prefix_of_not_mem hpre (by simpa using hx))
  | leave | leaveDestroy | beginRelay | selfDestroyNull | beginHost | addRef => exact ha pre b s f hpre
  | selfDrop | resetTask | deleteRelay | unbind | dropRef =>
    exact ha pre b s f (prefix_of_not_mem hpre (by simp))
  | relayDestroyNull | relayDestroyStub | relayReply | forward | hold | leavePost | selfDestroyStub
  | selfReply | runReply | runCall | init | destroy =>
    exact ha pre b s f (prefix_of_not_mem hpre (by simp))

theorem attachFirst_of_reaches {P : World → Event → Prop} (hP : ∀ w e, P w e → Checked w e)
    (hr : GuardedRun.Reaches (step c) P .initial w) : AttachFirst w := by
  refine invariant_of_moves hP (fun _ _ _ hs _ ha _ hm => ha.hostMove hs hm) ?_ ?_ hr
  · intro w e w' _ _ ha _ hm pre h s f hpre
    obtain ⟨es, htr, hes⟩ := hm.quiet.not_mem (e := .attached h s f) id
    exact ha pre h s f (prefix_of_not_mem (htr ▸ hpre) hes)
  · intro pre h s f hpre
    simp [initial] at hpre

/-- No stub is left for a host whose PostDestroy has run. -/
def PostDestroyed (w : World) : Prop := ∀ h, .postDestroy h ∈ w.trace → w.stubOf h = none

theorem runs_of_mem_postDestroy {h : HostId} (hm : .postDestroy h ∈ w.trace) :
    runs w.trace ⟨.destroy, h⟩ ≠ 0 := by
  intro h0
  have := List.countP_eq_zero.mp h0 _ hm
  simp [Entry.isRun] at this

theorem PostDestroyed.hostMove {w' : World} {e : Event} (hs : Sound c w) (hs' : Sound c w')
    (hp : PostDestroyed w) (hm : HostMove c w e w') : PostDestroyed w' := by
  have hkeep : w'.trace = w.trace ∨ (∃ es, w'.trace = w.trace ++ es ∧ ∀ b, .postDestroy b ∉ es) →
      (∀ b, w'.stubOf b = w.stubOf b ∨ w'.stubOf b = none) → PostDestroyed w' := by
    intro htr hstub b hb
    have hb' : .postDestroy b ∈ w.trace := by
      obtain htr | ⟨es, htr, hes⟩ := htr
      · rwa [htr] at hb
      · rw [htr, List.mem_append] at hb
        exact hb.resolve_right (hes b)
    obtain he | he := hstub b
    · rw [he, hp b hb']
    · exact he
  have hc := hs.counted
  have hc' := hs'.counted
  cases hm with
  | @postInit h f fac o time script hpc hf hfac ho =>
    intro b hb
    have hb' : .postDestroy b ∈ w.trace := by simpa using hb
    by_cases hbh : b = h
    · subst hbh
      have hruns := hs.bound.runs_eq_zero hs.relayed hpc
      have hcalls : calls w.trace ⟨.destroy, b⟩ ≠ 0 := by
        have := hs.relayed ⟨.destroy, b⟩
        have := runs_of_mem_postDestroy hb'
        omega
      have := hs.conversing.asked b hcalls
      simp [attached, hruns] at this
    · simpa [World.stubOf, hbh] using hp b hb'
  | @relayDestroyNull h o time script hpc ho hn =>
    intro b hb
    have hb' : .postDestroy b ∈ w.trace ∨ b = h := by simpa using hb
    obtain hb' | rfl := hb'
    · exact hp b hb'
    · simp [World.stubOf, ho, hn]
  | @relayDestroyStub h o s st time script hpc ho hsome hst hobs =>
    intro b hb
    by_cases hbh : b = h
    · subst hbh
      simp [World.stubOf]
    · have hb' : .postDestroy b ∈ w.trace := by simpa [hbh] using hb
      simpa [World.stubOf, hbh] using hp b hb'
  | @selfDestroyStub h o s st time script hpc ho hsome hst hobs =>
    refine hkeep (.inr ⟨_, rfl, by simp⟩) fun b => ?_
    by_cases hbh : b = h
    · subst hbh
      exact .inr (by simp [World.stubOf])
    · exact .inl (by simp [World.stubOf, hbh])
  | forward hpc hst hfwd ho =>
    exact hkeep (.inr ⟨_, rfl, by simp⟩) fun b => .inl
      (stubOf_kept hc hc' (stubKept_update ho (by simp)) (stub_observer_of_update hst (by simp)) b)
  | hold hpc hst =>
    exact hkeep (.inr ⟨_, rfl, by simp⟩) fun b => .inl
      (stubOf_kept hc hc' (.refl _) (stub_observer_of_update hst (by simp)) b)
  | leave => exact hkeep (.inl rfl) fun b => .inl rfl
  | beginRelay | selfDestroyNull | beginHost => exact hkeep (.inl rfl) fun b => .inl rfl
  | relayReply => exact hkeep (.inr ⟨_, rfl, by simp⟩) fun b => .inl rfl
  | leavePost _ _ ho | selfReply _ ho | runReply _ ho | runCall _ ho =>
    exact hkeep (.inr ⟨_, rfl, by simp⟩) fun b => .inl
      (stubOf_of_stub_eq hc hc' (stubKept_update ho (by simp)) rfl b)
  | leaveDestroy _ _ ho | addRef _ ho =>
    exact hkeep (.inl rfl) fun b => .inl (stubOf_of_stub_eq hc hc' (stubKept_update ho (by simp)) rfl b)
  | init ho | destroy ho =>
    exact hkeep (.inr ⟨_, rfl, by simp⟩) fun b => .inl
      (stubOf_of_stub_eq hc hc' (stubKept_update ho (by simp)) rfl b)
  | selfDrop _ ho | resetTask _ ho | deleteRelay _ ho | unbind _ ho | dropRef _ ho =>
    exact hkeep (.inr ⟨_, rfl, by simp⟩) fun b => .inl
      (stubOf_of_stub_eq hc hc' (stubKept_update ho (FactoryHost.released_stub _)) rfl b)

theorem postDestroyed_of_reaches {P : World → Event → Prop} (hP : ∀ w e, P w e → Checked w e)
    (hr : GuardedRun.Reaches (step c) P .initial w) : PostDestroyed w := by
  refine invariant_of_moves hP (fun _ _ _ hs hs' hp _ hm => hp.hostMove hs hs' hm) ?_ ?_ hr
  · intro w e w' _ _ hp _ hm h hmem
    obtain ⟨es, htr, hes⟩ := hm.quiet.not_mem (e := .postDestroy h) id
    rw [htr, List.mem_append] at hmem
    have := hp h (hmem.resolve_right hes)
    simpa [World.stubOf, hm.quiet.host] using this
  · intro h hm
    simp [initial] at hm

/-- OnFactoryDestory comes from a Factory to which the host is attached and whose Destroy
has begun. -/
structure Announced (w : World) : Prop where
  origin : ∀ s st f, w.stub s = some st → st.factory = some f → .attached st.observer s f ∈ w.trace
  begun : ∀ f i, .notify .destroyed f i ∈ w.frames → .destroyBegun f ∈ w.trace
  leaving : ∀ s, w.pc = .leave s → ∃ st f, w.stub s = some st ∧ st.factory = some f ∧
    .destroyBegun f ∈ w.trace
  left : ∀ s, w.pc = .leavePost s → ∃ st f, w.stub s = some st ∧
    .attached st.observer s f ∈ w.trace ∧ .destroyBegun f ∈ w.trace
  announced : ∀ h, .onFactoryDestory ∈ posted w.trace h →
    ∃ s f, .attached h s f ∈ w.trace ∧ .destroyBegun f ∈ w.trace

theorem announced_initial : Announced .initial where
  origin := by intro s st f hs; cases hs
  begun := by intro f i hf; cases hf
  leaving := by intro s hs; cases hs
  left := by intro s hs; cases hs
  announced := by intro h hh; cases hh

/-- A NotifyDestroy loop is begun by Factory::Destroy only. -/
theorem FactoryMove.begun {w' : World} {e : Event} (hm : FactoryMove w e w')
    (hb : ∀ f i, .notify .destroyed f i ∈ w.frames → .destroyBegun f ∈ w.trace) :
    ∀ f i, .notify .destroyed f i ∈ w'.frames → .destroyBegun f ∈ w'.trace := by
  intro b j hj
  cases hm with
  | @destroyBegin f fac ks rest time script hpc hfr hg hfac =>
    obtain hs | ⟨-, hs⟩ := startNotify_cases .destroyed f fac
    · rw [hs] at hj
      have hj' : b = f ∧ j = 0 ∨ .notify .destroyed b j ∈ rest := by simpa using hj
      obtain ⟨rfl, -⟩ | hj' := hj'
      · simp
      · exact List.mem_append_left _ (hb b j (by simp [hfr, hj']))
    · rw [hs] at hj
      have hj' : .notify .destroyed b j ∈ rest := by simpa using hj
      exact List.mem_append_left _ (hb b j (by simp [hfr, hj']))
  | @produce f fac rest time script hpc hfr hfac =>
    have hj' : .notify .destroyed b j ∈ rest := by
      obtain hs | ⟨-, hs⟩ := startNotify_cases .produced f { fac with data := .make w.dataId } <;>
        simpa [hs] using hj
    exact List.mem_append_left _ (hb b j (by simp [hfr, hj']))
  | @notifyPlain k f fac p i next rest time script hpc hfr hfac hn =>
    have hj' : (k = .destroyed ∧ b = f) ∨ .notify .destroyed b j ∈ rest := by
      have : (.destroyed = k ∧ b = f ∧ j = next) ∨ .notify .destroyed b j ∈ rest := by simpa using hj
      exact this.imp_left fun h => ⟨h.1.symm, h.2.1⟩
    obtain ⟨rfl, rfl⟩ | hj' := hj'
    · exact List.mem_append_left _ (hb b i (by simp [hfr]))
    · exact List.mem_append_left _ (hb b j (by simp [hfr, hj']))
  | @notifyProduced f fac s i next rest time script hpc hfr hfac hn =>
    exact List.mem_append_left _ (hb b j (by simpa [hfr] using hj))
  | @notifyDestroyed f fac s i next rest time script hpc hfr hfac hn =>
    have hj' : (b = f ∧ j = next) ∨ .notify .destroyed b j ∈ rest := by simpa using hj
    obtain ⟨rfl, -⟩ | hj' := hj'
    · exact List.mem_append_left _ (hb b i (by simp [hfr]))
    · exact List.mem_append_left _ (hb b j (by simp [hfr, hj']))
  | @beginSchedule f ts hidle hts | @beginDelayed i time f hidle =>
    exact absurd hj (by simp only; split <;> simp)
  | beginCalls => exact absurd hj (by simp)
  | post | tick => exact hb b j hj
  | destroyed hpc hfr => exact List.mem_append_left _ (hb b j (by simpa [hfr] using hj))
  | @create ks rest time script hpc hfr =>
    have hj' : .notify .destroyed b j ∈ rest := by simpa using hj
    exact List.mem_append_left _ (hb b j (by simp [hfr, hj']))
  | callsDone hpc hfr | skip hpc hfr | start hpc hfr | stop hpc hfr | addObserver hpc hfr
  | removeObserver hpc hfr | scheduleStopped hpc hfr | scheduleNow hpc hfr | scheduleLater hpc hfr
  | notifyDead hpc hfr | notifyEnd hpc hfr | produced hpc hfr =>
    refine hb b j ?_
    simp only [List.mem_cons, reduceCtorEq, false_or] at hj
    simp [hfr, hj]

namespace Announced

/-- A step that keeps the stubs and announces nothing. -/
theorem keep {w' : World} (ha : Announced w) (hframes : w'.frames = w.frames)
    (htrace : ∃ es, w'.trace = w.trace ++ es)
    (horigin : ∀ s st f, w'.stub s = some st → st.factory = some f → .attached st.observer s f ∈ w'.trace)
    (hpc : (∀ s, w'.pc ≠ .leave s) ∧ (∀ s, w'.pc ≠ .leavePost s) ∨ (w'.pc = w.pc ∧ w'.stub = w.stub))
    (hposted : ∀ h, .onFactoryDestory ∈ posted w'.trace h → .onFactoryDestory ∈ posted w.trace h) :
    Announced w' := by
  obtain ⟨es, htr⟩ := htrace
  have hmono : ∀ {e}, e ∈ w.trace → e ∈ w'.trace := fun he => htr ▸ List.mem_append_left _ he
  refine ⟨horigin, ?_, ?_, ?_, ?_⟩
  · intro f i hf
    exact hmono (ha.begun f i (hframes ▸ hf))
  · intro s hs
    obtain ⟨hno, -⟩ | ⟨he, hst⟩ := hpc
    · exact absurd hs (hno s)
    · obtain ⟨st, f, h₁, h₂, h₃⟩ := ha.leaving s (he ▸ hs)
      exact ⟨st, f, hst ▸ h₁, h₂, hmono h₃⟩
  · intro s hs
    obtain ⟨-, hno⟩ | ⟨he, hst⟩ := hpc
    · exact absurd hs (hno s)
    · obtain ⟨st, f, h₁, h₂, h₃⟩ := ha.left s (he ▸ hs)
      exact ⟨st, f, hst ▸ h₁, hmono h₂, hmono h₃⟩
  · intro h hm
    obtain ⟨s, f, h₁, h₂⟩ := ha.announced h (hposted h hm)
    exact ⟨s, f, hmono h₁, hmono h₂⟩

theorem factoryMove {w' : World} {e : Event} (hl : Listed w) (ha : Announced w) (hm : FactoryMove w e w') :
    Announced w' := by
  have hq := hm.quiet
  obtain ⟨es, htr, -⟩ := hq.trace
  have hmono : ∀ {e}, e ∈ w.trace → e ∈ w'.trace := fun he => htr ▸ List.mem_append_left _ he
  have hpc : ∀ s, w'.pc = .leave s → w.pc = .leave s ∨ ∃ st f i, w.stub s = some st ∧
      st.factory = some f ∧ .notify .destroyed f i ∈ w.frames := by
    intro s hs
    cases hm with
    | @notifyDestroyed f fac s' i next rest time script hpc hfr hfac hn =>
      obtain rfl := Pc.leave.inj hs
      have hmem := ObserverList.mem_of_getNext hn
      obtain ⟨st, hst, hf⟩ := hl.listedStub f _ s' (list_of_some hfac) hmem
      exact .inr ⟨st, f, i, hst, hf, by simp [hfr]⟩
    | notifyProduced => cases hs
    | post | tick | beginCalls | beginSchedule | beginDelayed | callsDone | skip | create | start | stop
    | destroyBegin | addObserver | removeObserver | scheduleStopped | scheduleNow | scheduleLater
    | produce | notifyDead | notifyEnd | notifyPlain | produced | destroyed => exact .inl hs
  refine ⟨?_, hm.begun ha.begun, ?_, ?_, ?_⟩
  · intro s st f hs hf
    exact hmono (ha.origin s st f (hq.stub ▸ hs) hf)
  · intro s hs
    rw [hq.stub]
    obtain hs | ⟨st, f, i, hst, hf, hi⟩ := hpc s hs
    · obtain ⟨st, f, h₁, h₂, h₃⟩ := ha.leaving s hs
      exact ⟨st, f, h₁, h₂, hmono h₃⟩
    · exact ⟨st, f, hst, hf, hmono (ha.begun f i hi)⟩
  · intro s hs
    rw [hq.stub]
    obtain he | ⟨-, ⟨_, _, he⟩ | ⟨_, he⟩⟩ := hq.pc
    · obtain ⟨st, f, h₁, h₂, h₃⟩ := ha.left s (he ▸ hs)
      exact ⟨st, f, h₁, hmono h₂, hmono h₃⟩
    · rw [he] at hs; cases hs
    · rw [he] at hs; cases hs
  · intro h hh
    rw [hq.posted] at hh
    obtain ⟨s, f, h₁, h₂⟩ := ha.announced h hh
    exact ⟨s, f, hmono h₁, hmono h₂⟩

theorem hostMove {w' : World} {e : Event} (ha : Announced w) (hm : HostMove c w e w') : Announced w' := by
  have hsame : ∀ {es}, ∀ s st f, w.stub s = some st → st.factory = some f →
      .attached st.observer s f ∈ w.trace ++ es :=
    fun s st f hs hf => List.mem_append_left _ (ha.origin s st f hs hf)
  have hreplace : ∀ {es s} {st : FactoryStub} (st₁ : FactoryStub), w.stub s = some st → st₁.observer = st.observer →
      (st₁.factory = st.factory ∨ st₁.factory = none) → ∀ x sx f, update w.stub s (some st₁) x = some sx →
      sx.factory = some f → .attached sx.observer x f ∈ w.trace ++ es := by
    intro es s st st₁ hst hobs hfac x sx f hx hf
    by_cases he : x = s
    · subst he
      rw [Function.update_self] at hx
      obtain rfl := Option.some.inj hx
      obtain hfac | hfac := hfac
      · rw [hobs]
        exact hsame x st f hst (hfac ▸ hf)
      · rw [hfac] at hf; cases hf
    · rw [Function.update_of_ne he] at hx
      exact hsame x sx f hx hf
  have hdelete : ∀ {es s}, ∀ x sx f, update w.stub s none x = some sx → sx.factory = some f →
      .attached sx.observer x f ∈ w.trace ++ es := by
    intro es s x sx f hx hf
    by_cases he : x = s
    · subst he; simp at hx
    · rw [Function.update_of_ne he] at hx
      exact hsame x sx f hx hf
  have hnone : ∀ {es}, (∀ h, posted es h = []) → ∀ h, .onFactoryDestory ∈ posted (w.trace ++ es) h →
      .onFactoryDestory ∈ posted w.trace h := by
    intro es hes h hh
    simpa [hes h] using hh
  cases hm with
  | @postInit h f fac o time script hpc hg hfac ho =>
    refine ha.keep rfl ⟨_, rfl⟩ ?_ (.inl (by simp)) (hnone (by simp [Entry.posted?]))
    intro x sx f' hx hf
    simp only at hx ⊢
    by_cases he : x = w.freshStub
    · subst he
      rw [Function.update_self] at hx
      obtain rfl := Option.some.inj hx
      obtain rfl := Option.some.inj hf
      simp
    · rw [Function.update_of_ne he] at hx
      exact hsame x sx f' hx hf
  | @leave s st f fac time script hpc hst hf hfac =>
    refine ⟨fun x sx f' hx hf' => ?_, ha.begun, by simp, ?_, ha.announced⟩
    · have hor : .attached sx.observer x f' ∈ w.trace ++ [] :=
        hreplace { st with factory := none } hst rfl (.inr rfl) x sx f' hx hf'
      simpa using hor
    · intro x hx
      obtain rfl := Pc.leavePost.inj hx
      obtain ⟨st', f', hst', hf', hd⟩ := ha.leaving s hpc
      obtain rfl := Option.some.inj (hst.symm.trans hst')
      exact ⟨_, f', Function.update_self .., ha.origin s st f' hst hf', hd⟩
  | @leavePost s st o time script hpc hst ho =>
    refine ⟨hsame, ?_, by simp, by simp, ?_⟩
    · intro f i hf
      exact List.mem_append_left _ (ha.begun f i hf)
    · intro h hh
      by_cases he : st.observer = h
      · subst he
        obtain ⟨st', f, hst', hat, hd⟩ := ha.left s hpc
        obtain rfl := Option.some.inj (hst.symm.trans hst')
        exact ⟨s, f, List.mem_append_left _ hat, List.mem_append_left _ hd⟩
      · have hh' : .onFactoryDestory ∈ posted w.trace h := by simpa [Entry.posted?, he] using hh
        obtain ⟨s', f, h₁, h₂⟩ := ha.announced h hh'
        exact ⟨s', f, List.mem_append_left _ h₁, List.mem_append_left _ h₂⟩
  | @relayReply r time script hpc =>
    refine ha.keep rfl ⟨_, rfl⟩ hsame (.inl (by simp)) ?_
    intro h hh
    obtain ⟨kind, h'⟩ := r
    cases kind <;> by_cases he : h' = h <;> simpa [Entry.posted?, RelayKind.callback, he] using hh
  | @forward s data st o time script hpc hst hfwd ho =>
    refine ha.keep rfl ⟨_, rfl⟩ (hreplace _ hst (by simp) (.inl (by simp))) (.inl (by simp)) ?_
    intro h hh
    by_cases he : st.observer = h <;> simpa [Entry.posted?, he] using hh
  | hold hpc hst =>
    exact ha.keep rfl ⟨_, rfl⟩ (hreplace _ hst (by simp) (.inl (by simp))) (.inl (by simp))
      (hnone (by simp [Entry.posted?]))
  | relayDestroyStub | selfDestroyStub =>
    exact ha.keep rfl ⟨_, rfl⟩ hdelete (.inl (by simp)) (hnone (by simp [Entry.posted?]))
  | @selfReply h o time script hpc ho =>
    refine ha.keep rfl ⟨_, rfl⟩ hsame (.inl (by simp)) ?_
    intro b hh
    by_cases he : h = b <;> simpa [Entry.posted?, he] using hh
  | beginRelay | leaveDestroy | selfDestroyNull =>
    exact ha.keep rfl ⟨[], by simp⟩ ha.origin (.inl (by simp)) (fun _ => id)
  | relayDestroyNull | selfDrop =>
    exact ha.keep rfl ⟨_, rfl⟩ hsame (.inl (by simp)) (hnone (by simp [Entry.posted?]))
  | beginHost | addRef => exact ha.keep rfl ⟨[], by simp⟩ ha.origin (.inr ⟨rfl, rfl⟩) (fun _ => id)
  | resetTask | runReply | deleteRelay | runCall | unbind | init | destroy | dropRef =>
    exact ha.keep rfl ⟨_, rfl⟩ hsame (.inr ⟨rfl, rfl⟩) (hnone (by simp [Entry.posted?]))

end Announced

theorem announced_of_reaches {P : World → Event → Prop} (hr : GuardedRun.Reaches (step c) P .initial w) :
    Announced w := by
  refine GuardedRun.Reaches.invariant_of (K := GuardedRun.Reaches (step c) P .initial) (fun _ => id) ?_
    announced_initial hr
  intro t e u ht ha _ he _
  obtain hm | hm := step_cases (counted_of_reaches ht).owned he
  · exact ha.hostMove hm
  · exact ha.factoryMove (listed_of_reaches ht) hm

theorem HostMove.announces {w' : World} {e : Event} (hm : HostMove c w e w') {h : HostId}
    (hh : .onFactoryDestory ∈ posted w'.trace h) : .onFactoryDestory ∈ posted w.trace h ∨
      ∃ s st, w.pc = .leavePost s ∧ w.stub s = some st ∧ st.observer = h := by
  cases hm with
  | @leavePost s st o time script hpc hst ho =>
    by_cases he : st.observer = h
    · exact .inr ⟨s, st, hpc, hst, he⟩
    · exact .inl (by simpa [Entry.posted?, he] using hh)
  | @relayReply r =>
    obtain ⟨kind, h'⟩ := r
    cases kind <;> by_cases he : h' = h <;> exact .inl (by simpa [Entry.posted?, RelayKind.callback, he] using hh)
  | @forward s data st =>
    by_cases he : st.observer = h <;> exact .inl (by simpa [Entry.posted?, he] using hh)
  | @selfReply h' =>
    by_cases he : h' = h <;> exact .inl (by simpa [Entry.posted?, he] using hh)
  | leave => exact .inl hh
  | beginRelay | postInit | relayDestroyNull | relayDestroyStub | hold | leaveDestroy | selfDestroyNull
  | selfDestroyStub | selfDrop | beginHost | resetTask | runReply | deleteRelay | runCall | unbind | init
  | destroy | addRef | dropRef => exact .inl (by simpa [Entry.posted?] using hh)

theorem HostMove.marks {w' : World} {e : Event} (hm : HostMove c w e w') {pre : List Entry} {h : HostId}
    (hpre : pre ++ [.postDestroy h] <+: w'.trace) : pre = w.trace ∨ pre ++ [.postDestroy h] <+: w.trace := by
  cases hm with
  | @relayDestroyNull h' | @relayDestroyStub h' =>
    by_cases he : h = h'
    · subst he
      exact prefix_of_mark hpre (by simp)
    · exact .inr (prefix_of_not_mem hpre (by simpa using he))
  | leave | leaveDestroy | beginRelay | selfDestroyNull | beginHost | addRef => exact .inr hpre
  | postInit | relayReply | forward | hold | leavePost | selfDestroyStub | selfReply | selfDrop | resetTask
  | runReply | deleteRelay | runCall | unbind | init | destroy | dropRef =>
    exact .inr (prefix_of_not_mem hpre (by simp))

/-- OnFactoryDestory is not announced to a host whose PostDestroy came before Factory::Destroy. -/
def NotAnnounced (w : World) : Prop :=
  ∀ pre h, pre ++ [.postDestroy h] <+: w.trace → (∀ s f, .attached h s f ∈ pre → .destroyBegun f ∉ pre) →
    .onFactoryDestory ∉ posted w.trace h

theorem notAnnounced_of_reaches {P : World → Event → Prop} (hP : ∀ w e, P w e → Checked w e)
    (hr : GuardedRun.Reaches (step c) P .initial w) : NotAnnounced w := by
  refine GuardedRun.Reaches.invariant_of (K := GuardedRun.Reaches (step c) P .initial) (fun _ => id) ?_ ?_ hr
  · intro t e u ht hn _ he _ pre h hpre hbefore hh
    have hs := sound_of_reaches hP ht
    obtain hm | hm := step_cases hs.counted.owned he
    · obtain hh | ⟨s, st, hpc, hst, rfl⟩ := hm.announces hh
      · obtain rfl | hpre := hm.marks hpre
        · obtain ⟨s, f, hat, hd⟩ := (announced_of_reaches ht).announced h hh
          exact hbefore s f hat hd
        · exact hn pre h hpre hbefore hh
      · obtain rfl | hpre := hm.marks hpre
        · obtain ⟨st', f, hst', hat, hd⟩ := (announced_of_reaches ht).left s hpc
          obtain rfl := Option.some.inj (hst.symm.trans hst')
          exact hbefore s f hat hd
        · have hmem := hpre.subset (List.mem_append_right _ List.mem_cons_self)
          have hnone := postDestroyed_of_reaches hP ht _ hmem
          rw [stubOf_of_stub hs.bound hst] at hnone
          cases hnone
    · obtain ⟨es, htr, hes⟩ := hm.quiet.not_mem (e := .postDestroy h) id
      rw [hm.quiet.posted] at hh
      exact hn pre h (prefix_of_not_mem (htr ▸ hpre) hes) hbefore hh
  · intro pre h hpre
    simp [initial] at hpre

def Event.onFactoryThread : Event → Bool
  | .begin | .beginDelayed _ | .run _ _ => true
  | _ => false

/-- A factory-thread step writes `data_` only of a host to which nothing has been posted. -/
theorem Sound.data_kept (hs : Sound c w) {h : HostId} (hne : posted w.trace h ≠ []) {e : Event} {w' : World}
    (hthread : e.onFactoryThread = true) (he : step c w e = some w') :
    ∀ o', w'.host h = some o' → ∃ o, w.host h = some o ∧ o'.data = o.data := by
  have hupd : ∀ {b : HostId} {o : FactoryHost} {x : Option FactoryHost}, w.host b = some o →
      (∀ y ∈ x, y.data = o.data) → ∀ o', update w.host b x h = some o' →
      ∃ o, w.host h = some o ∧ o'.data = o.data := by
    intro b o x ho hx o' ho'
    by_cases hb : h = b
    · subst hb
      rw [Function.update_self] at ho'
      exact ⟨o, ho, hx o' ho'⟩
    · rw [Function.update_of_ne hb] at ho'
      exact ⟨o', ho', rfl⟩
  intro o' ho'
  obtain hm | hm := step_cases hs.counted.owned he
  · cases hm with
    | @postInit b f fac o time script hpc hf hfac ho =>
      have hbh : h ≠ b := by
        rintro rfl
        have hruns := hs.bound.runs_eq_zero hs.relayed hpc
        have hx := hs.conversing.expects h
        unfold World.Expects at hx
        rw [show attached w.trace h = false by simp [attached, hruns]] at hx
        have hnone : w.stubOf h = none := by
          rw [stubOf_of_host ho]
          exact hs.bound.stub_eq_none hs.counted hruns ho
        exact hne (phase_eq_fresh.mp (fresh_of_not_attached hx hnone))
      exact ⟨o', by simpa [hbh] using ho', rfl⟩
    | relayDestroyStub _ ho | selfDestroyStub _ ho => exact hupd ho (by simp) o' ho'
    | forward _ _ _ ho => exact hupd ho (by simp) o' ho'
    | leavePost _ _ ho | leaveDestroy _ _ ho | selfReply _ ho => exact hupd ho (by simp) o' ho'
    | @selfDrop b o time script _ ho =>
      refine hupd ho ?_ o' ho'
      intro y hy
      unfold FactoryHost.released at hy
      split at hy
      · cases hy
      · obtain rfl := Option.some.inj hy
        rfl
    | beginRelay | relayDestroyNull | relayReply | hold | leave | selfDestroyNull =>
      exact ⟨o', ho', rfl⟩
    | beginHost | resetTask | runReply | deleteRelay | runCall | unbind | init | destroy | addRef | dropRef =>
      cases hthread
  · rw [hm.quiet.host] at ho'
    exact ⟨o', ho', rfl⟩

/-- OnInit comes first, nothing but OnDestroy after OnDestroy, OnDestroy right after
OnFactoryDestory and that only when Factory::Destroy came before PostDestroy; and the factory
thread writes `data_` before the first callback and never again. -/
theorem callback_order_of_reaches (c : Config) {w : World}
    (hr : GuardedRun.Reaches (step c) Checked .initial w) (h : HostId) :
    InOrder (handled w.trace h) ∧
      (∀ pre post, w.trace = pre ++ .postDestroy h :: post →
        (∀ s f, .attached h s f ∈ pre → .destroyBegun f ∉ pre) → .onFactoryDestory ∉ handled w.trace h) ∧
      (∀ pre post s f, w.trace = pre ++ .attached h s f :: post → handled pre h = []) ∧
      ∀ e w', e.onFactoryThread = true → posted w.trace h ≠ [] → step c w e = some w' →
        ∀ o', w'.host h = some o' → ∃ o, w.host h = some o ∧ o'.data = o.data := by
  have hs := sound_of_reaches (fun _ _ => id) hr
  refine ⟨inOrder_of_phase (hs.handled_phase h), ?_, ?_, ?_⟩
  · intro pre post htr hbefore hm
    have hpre : pre ++ [.postDestroy h] <+: w.trace := ⟨post, by simp [htr]⟩
    refine notAnnounced_of_reaches (fun _ _ => id) hr pre h hpre hbefore ?_
    rw [hs.delivered h]
    exact List.mem_append_left _ hm
  · intro pre post s f htr
    exact (attachFirst_of_reaches (fun _ _ => id) hr pre h s f ⟨post, by simp [htr]⟩).2
  · intro e w' hthread hne he
    exact hs.data_kept hne hthread he

/-- The Factory is destroyed while the host listens. -/
theorem callback_order_of_reaches_factory_first : ∃ w, GuardedRun.Reaches (step .plain) Checked .initial w ∧
    handled w.trace 0 = [.replyInit, .onFactoryDestory, .replyDestroy] ∧ InOrder (handled w.trace 0) := by
  obtain ⟨w, hr, hw⟩ := GuardedRun.exists_of_execute (step .plain) Checked .initial
    [.post [.create], .begin, .run 0 [], .run 0 [], .init 0, .begin, .run 0 [], .run 0 [], .post [.destroy],
      .begin, .run 0 [], .run 0 [], .run 0 [], .run 0 [], .run 0 [], .run 0 [], .run 0 [], .run 0 [],
      .beginHost 0, .runHost 0, .runHost 0, .runHost 0, .beginHost 0, .runHost 0, .runHost 0,
      .beginHost 0, .runHost 0]
    (fun w => decide (handled w.trace 0 = [.replyInit, .onFactoryDestory, .replyDestroy])) (by decide)
  exact ⟨w, hr, of_decide_eq_true hw, (callback_order_of_reaches .plain hr 0).1⟩

end OscDataProcess
