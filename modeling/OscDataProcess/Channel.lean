import OscDataProcess.References
import Mathlib.Data.List.Count

/-!
# Host callbacks arrive in the order in which they were posted

The callbacks posted to a host are those it has handled, then the one its thread
is about to run, then those in the queue. The flags and counters of a host are
those of the callbacks it has handled. This needs no discipline of the callers.
-/
namespace OscDataProcess

open Function (update)
open World

def Entry.posted? (h : HostId) : Entry → Option Callback
  | .posted h' m => if h' = h then some m else none
  | _ => none

def Entry.handled? (h : HostId) : Entry → Option Callback
  | .handled h' m => if h' = h then some m else none
  | _ => none

/-- The callbacks that were ever posted to host `h`. -/
def posted (trace : List Entry) (h : HostId) : List Callback := trace.filterMap (Entry.posted? h)

/-- The callbacks that host `h` has run. -/
def handled (trace : List Entry) (h : HostId) : List Callback := trace.filterMap (Entry.handled? h)

@[simp] theorem posted_append (es es' : List Entry) (h : HostId) :
    posted (es ++ es') h = posted es h ++ posted es' h := List.filterMap_append

@[simp] theorem handled_append (es es' : List Entry) (h : HostId) :
    handled (es ++ es') h = handled es h ++ handled es' h := List.filterMap_append

@[simp] theorem posted_cons (e : Entry) (es : List Entry) (h : HostId) :
    posted (e :: es) h = (e.posted? h).toList ++ posted es h := by
  unfold posted
  rw [List.filterMap_cons]
  cases e.posted? h <;> rfl

theorem posted?_posted (h b : HostId) (m : Callback) :
    ((Entry.posted h m).posted? b).toList = if b = h then [m] else [] := by
  by_cases hb : b = h
  · simp [Entry.posted?, hb]
  · simp [Entry.posted?, hb, Ne.symm hb]

@[simp] theorem handled_cons (e : Entry) (es : List Entry) (h : HostId) :
    handled (e :: es) h = (e.handled? h).toList ++ handled es h := by
  unfold handled
  rw [List.filterMap_cons]
  cases e.handled? h <;> rfl

@[simp] theorem posted_nil (h : HostId) : posted [] h = [] := rfl
@[simp] theorem handled_nil (h : HostId) : handled [] h = [] := rfl

theorem filterMap_isFactory {β : Type} {g : Entry → Option β} (hg : ∀ e, e.IsFactory → g e = none)
    {es : List Entry} (hes : ∀ e ∈ es, e.IsFactory) : es.filterMap g = [] :=
  List.filterMap_eq_nil_iff.mpr fun e he => hg e (hes e he)

@[simp] theorem posted_deletion (o : FactoryHost) (h b : HostId) : posted (o.deletion h) b = [] := by
  unfold FactoryHost.deletion
  split <;> rfl

@[simp] theorem handled_deletion (o : FactoryHost) (h b : HostId) : handled (o.deletion h) b = [] := by
  unfold FactoryHost.deletion
  split <;> rfl

theorem Quiet.posted {w w' : World} (hq : Quiet w w') (h : HostId) :
    posted w'.trace h = posted w.trace h := by
  obtain ⟨es, htr, hes⟩ := hq.trace
  have : OscDataProcess.posted es h = [] :=
    filterMap_isFactory (by intro e he; cases e <;> simp_all [Entry.IsFactory, Entry.posted?]) hes
  rw [htr, posted_append, this, List.append_nil]

theorem Quiet.handled {w w' : World} (hq : Quiet w w') (h : HostId) :
    handled w'.trace h = handled w.trace h := by
  obtain ⟨es, htr, hes⟩ := hq.trace
  have : OscDataProcess.handled es h = [] :=
    filterMap_isFactory (by intro e he; cases e <;> simp_all [Entry.IsFactory, Entry.handled?]) hes
  rw [htr, handled_append, this, List.append_nil]

/-- The callback a queued task will run. -/
def HostTask.callback : HostTask → Callback
  | .reply r => r.kind.callback
  | .call _ m => m

def HostTask.callback? (h : HostId) (t : HostTask) : Option Callback :=
  if t.host = h then some t.callback else none

/-- The callback a host thread has taken from its queue and not yet run. -/
def HostPc.pending (h : HostId) : HostPc → List Callback
  | .resetTask r | .runReply r => if r.host = h then [r.kind.callback] else []
  | .run h' m => if h' = h then [m] else []
  | .idle | .deleteRelay _ | .unbind _ => []

/-- The callbacks of host `h` that its thread has still to run, in order. -/
def HostLoop.inFlight (l : HostLoop) (h : HostId) : List Callback :=
  l.pc.pending h ++ l.queue.filterMap (HostTask.callback? h)

variable {c : Config} {w : World}

theorem inFlight_enqueue (w : World) (t : HostTask) (h : HostId) (m : Callback) (ht : t.host = h)
    (hm : t.callback = m) (b : HostId) :
    ((w.enqueue c h t).loop (c.hostThread b)).inFlight b =
      (w.loop (c.hostThread b)).inFlight b ++ (if h = b then some m else none).toList := by
  subst ht hm
  by_cases hb : c.hostThread b = c.hostThread t.host
  · simp only [enqueue, hb, Function.update_self, HostLoop.inFlight, List.filterMap_append,
      List.append_assoc]
    by_cases he : t.host = b <;> simp [HostTask.callback?, he]
  · have ht : t.host ≠ b := by rintro rfl; exact hb rfl
    simp [enqueue, Function.update_of_ne hb, ht]

theorem HostTask.pending_start (t : HostTask) (b : HostId) :
    t.start.pending b = (t.callback? b).toList := by
  cases t with
  | reply r =>
    by_cases hr : r.host = b <;>
      simp [HostTask.start, HostPc.pending, HostTask.callback?, HostTask.host, HostTask.callback, hr]
  | call h m =>
    by_cases hr : h = b <;>
      simp [HostTask.start, HostPc.pending, HostTask.callback?, HostTask.host, HostTask.callback, hr]

theorem inFlight_beginHost {t : ThreadId} {task : HostTask} {q : List HostTask}
    (hpc : (w.loop t).pc = .idle) (hq : (w.loop t).queue = task :: q) (b : HostId) :
    ((update w.loop t ⟨q, task.start⟩) (c.hostThread b)).inFlight b =
      (w.loop (c.hostThread b)).inFlight b := by
  by_cases hb : c.hostThread b = t
  · subst hb
    have hidle : HostPc.idle.pending b = [] := rfl
    simp only [Function.update_self, HostLoop.inFlight, hpc, hq, task.pending_start, hidle,
      List.filterMap_cons, List.nil_append]
    cases task.callback? b <;> rfl
  · rw [Function.update_of_ne hb]

/-- A host thread moves on without or with running the pending callback. -/
theorem inFlight_setHostPc (w : World) {t : ThreadId} {pc : HostPc} (pc' : HostPc) {h : HostId}
    (ran : List Callback) (ht : c.hostThread h = t) (hpc : (w.loop t).pc = pc) {b : HostId}
    (hran : pc.pending b = (if h = b then ran else []) ++ pc'.pending b)
    (hother : h ≠ b → pc'.pending b = []) :
    (w.loop (c.hostThread b)).inFlight b = (if h = b then ran else []) ++
      ((w.setHostPc t pc').loop (c.hostThread b)).inFlight b := by
  by_cases hb : c.hostThread b = t
  · subst hb
    simp only [setHostPc, Function.update_self, HostLoop.inFlight, hpc, hran, List.append_assoc]
  · have hne : h ≠ b := by rintro rfl; exact hb ht
    simp [setHostPc, Function.update_of_ne hb, hne]

/-- Callbacks are neither lost, nor duplicated, nor reordered on their way to a host. -/
def Delivered (c : Config) (w : World) : Prop :=
  ∀ h, posted w.trace h = handled w.trace h ++ (w.loop (c.hostThread h)).inFlight h

theorem delivered_initial (c : Config) : Delivered c .initial := fun _ => rfl

theorem Delivered.quiet {w' : World} (hd : Delivered c w) (hq : Quiet w w') : Delivered c w' := by
  intro b
  rw [hq.posted, hq.handled, hq.loop]
  exact hd b

theorem Delivered.hostMove {w' : World} {e : Event} (hc : Counted c w) (hd : Delivered c w)
    (hm : HostMove c w e w') : Delivered c w' := by
  intro b
  have hb := hd b
  cases hm with
  | @relayReply r =>
    have hq := inFlight_enqueue (c := c) w (.reply r) r.host r.kind.callback rfl rfl b
    simp [hq, hb, Entry.posted?, Entry.handled?]
  | @forward s data st =>
    have hq := inFlight_enqueue (c := c) w (.call st.observer (.onDataProduced data)) st.observer
      (.onDataProduced data) rfl rfl b
    simp [hq, hb, Entry.posted?, Entry.handled?]
  | @leavePost s st =>
    have hq := inFlight_enqueue (c := c) w (.call st.observer .onFactoryDestory) st.observer .onFactoryDestory rfl rfl b
    simp [hq, hb, Entry.posted?, Entry.handled?]
  | @selfReply h =>
    have hq := inFlight_enqueue (c := c) w (.call h .replyDestroy) h .replyDestroy rfl rfl b
    simp [hq, hb, Entry.posted?, Entry.handled?]
  | beginHost hpc hq =>
    rw [inFlight_beginHost hpc hq]
    exact hb
  | @resetTask t r o hpc ho =>
    have hl := inFlight_setHostPc (c := c) (b := b) w (.runReply r) []
      (hc.pcPlaced t r.host (by rw [hpc]; rfl)) hpc (by simp [HostPc.pending])
      (fun hne => by simp [HostPc.pending, hne])
    simpa [hb] using hl
  | @runReply t r o hpc ho =>
    have hl := inFlight_setHostPc (c := c) (b := b) w (.deleteRelay r) [r.kind.callback]
      (hc.pcPlaced t r.host (by rw [hpc]; rfl)) hpc (by simp [HostPc.pending]) (fun _ => rfl)
    simp only [hb, hl, handled_append, posted_append, posted_cons, handled_cons, Entry.posted?,
      Entry.handled?]
    split <;> simp
  | @deleteRelay t r o hpc ho =>
    have hl := inFlight_setHostPc (c := c) (b := b) w .idle []
      (hc.pcPlaced t r.host (by rw [hpc]; rfl)) hpc (by simp [HostPc.pending]) (fun _ => rfl)
    simpa [hb] using hl
  | @runCall t h m o hpc ho =>
    have hl := inFlight_setHostPc (c := c) (b := b) w (.unbind h) [m]
      (hc.pcPlaced t h (by rw [hpc]; rfl)) hpc (by simp [HostPc.pending]) (fun _ => rfl)
    simp only [hb, hl, handled_append, posted_append, posted_cons, handled_cons, Entry.posted?,
      Entry.handled?]
    split <;> simp
  | @unbind t h o hpc ho =>
    have hl := inFlight_setHostPc (c := c) (b := b) w .idle []
      (hc.pcPlaced t h (by rw [hpc]; rfl)) hpc (by simp [HostPc.pending]) (fun _ => rfl)
    simpa [hb] using hl
  | leave => exact hb
  | beginRelay | postInit | relayDestroyNull | relayDestroyStub | hold | leaveDestroy
  | selfDestroyNull | selfDestroyStub | selfDrop | init | destroy | addRef | dropRef =>
    simpa [Entry.posted?, Entry.handled?] using hb

theorem delivered_of_reaches {P : World → Event → Prop}
    (h : GuardedRun.Reaches (step c) P .initial w) : Delivered c w :=
  moves_of_reaches (fun _ _ _ hc hd _ hm => hd.hostMove hc hm)
    (fun _ _ _ _ hd _ hm => hd.quiet hm.quiet) (delivered_initial c) h

/-- The data among some callbacks. -/
def dataOf (ms : List Callback) : List FactoryData :=
  ms.filterMap fun
    | .onDataProduced data => some data
    | _ => none

/-- The flags and counters of a host that has run the callbacks `ms`. -/
structure FactoryHost.Records (o : FactoryHost) (ms : List Callback) : Prop where
  init : o.init = decide (Callback.replyInit ∈ ms)
  destroy : o.destroy = decide (Callback.replyDestroy ∈ ms)
  receive : o.receive = (dataOf ms).length
  destroyTime : o.destroyTime = ms.count .replyDestroy
  factoryDestroy : o.factoryDestroy = ms.count .onFactoryDestory

theorem FactoryHost.Records.handle {o : FactoryHost} {ms : List Callback} (hr : o.Records ms)
    (m : Callback) : (o.handle m).Records (ms ++ [m]) := by
  obtain ⟨hi, hd, hrec, ht, hf⟩ := hr
  cases m <;>
    exact ⟨by simp [FactoryHost.handle, hi], by simp [FactoryHost.handle, hd],
      by simp [FactoryHost.handle, hrec, dataOf], by simp [FactoryHost.handle, ht],
      by simp [FactoryHost.handle, hf]⟩

/-- Every live host records what it has handled. -/
def Recorded (w : World) : Prop := ∀ h o, w.host h = some o → o.Records (handled w.trace h)

theorem recorded_initial : Recorded .initial := by
  intro h o ho
  obtain rfl := Option.some.inj ho
  exact ⟨rfl, rfl, rfl, rfl, rfl⟩

theorem recorded_update {w' : World} (hr : Recorded w) {h : HostId} {o' : Option FactoryHost}
    (ms : List Callback) (hhost : w'.host = update w.host h o')
    (htrace : ∀ b, handled w'.trace b = handled w.trace b ++ if h = b then ms else [])
    (ho' : ∀ x ∈ o', x.Records (handled w.trace h ++ ms)) : Recorded w' := by
  intro b ob hb
  rw [hhost] at hb
  rw [htrace]
  by_cases he : b = h
  · subst he
    rw [Function.update_self] at hb
    rw [if_pos rfl]
    exact ho' ob hb
  · rw [Function.update_of_ne he] at hb
    rw [if_neg (Ne.symm he), List.append_nil]
    exact hr b ob hb

theorem FactoryHost.Records.released {o : FactoryHost} {ms : List Callback} (hr : o.Records ms) :
    ∀ x ∈ o.released, x.Records ms := by
  intro x hx
  unfold FactoryHost.released at hx
  split at hx
  · cases hx
  · obtain rfl := Option.some.inj hx
    exact ⟨hr.init, hr.destroy, hr.receive, hr.destroyTime, hr.factoryDestroy⟩

theorem Recorded.hostMove {w' : World} {e : Event} (hr : Recorded w) (hm : HostMove c w e w') :
    Recorded w' := by
  have hkeep : ∀ {h o} {o' : FactoryHost}, w.host h = some o → o'.init = o.init → o'.destroy = o.destroy →
      o'.receive = o.receive → o'.destroyTime = o.destroyTime → o'.factoryDestroy = o.factoryDestroy →
      ∀ x ∈ some o', x.Records (handled w.trace h ++ []) := by
    rintro h o o' ho hi hd hrec ht hf x ⟨⟩
    obtain ⟨hi', hd', hrec', ht', hf'⟩ := hr h o ho
    rw [List.append_nil]
    exact ⟨hi.trans hi', hd.trans hd', hrec.trans hrec', ht.trans ht', hf.trans hf'⟩
  have hdrop : ∀ {h o}, w.host h = some o → ∀ x ∈ o.released, x.Records (handled w.trace h ++ []) := by
    intro h o ho
    rw [List.append_nil]
    exact (hr h o ho).released
  cases hm with
  | postInit _ _ _ ho => exact recorded_update hr [] rfl (by simp [Entry.handled?]) (hkeep ho rfl rfl rfl rfl rfl)
  | relayDestroyStub _ ho | selfDestroyStub _ ho =>
    exact recorded_update hr [] rfl (by simp [Entry.handled?]) (hkeep ho rfl rfl rfl rfl rfl)
  | forward _ _ _ ho => exact recorded_update hr [] rfl (by simp [Entry.handled?]) (hkeep ho rfl rfl rfl rfl rfl)
  | leavePost _ _ ho | selfReply _ ho | addRef _ ho =>
    exact recorded_update hr [] rfl (by simp [Entry.handled?]) (hkeep ho rfl rfl rfl rfl rfl)
  | leaveDestroy _ _ ho => exact recorded_update hr [] rfl (by simp) (hkeep ho rfl rfl rfl rfl rfl)
  | init ho | destroy ho =>
    exact recorded_update hr [] rfl (by simp [Entry.handled?]) (hkeep ho rfl rfl rfl rfl rfl)
  | selfDrop _ ho | resetTask _ ho | deleteRelay _ ho | unbind _ ho | dropRef _ ho =>
    exact recorded_update hr [] rfl (by simp) (hdrop ho)
  | @runReply t r o _ ho =>
    refine recorded_update hr [r.kind.callback] rfl ?_ ?_
    · intro b
      simp only [handled_append, handled_cons, Entry.handled?]
      split <;> simp
    · rintro x ⟨⟩
      exact (hr _ _ ho).handle _
  | @runCall t h m o _ ho =>
    refine recorded_update hr [m] rfl ?_ ?_
    · intro b
      simp only [handled_append, handled_cons, Entry.handled?]
      split <;> simp
    · rintro x ⟨⟩
      exact (hr _ _ ho).handle _
  | beginRelay | relayDestroyNull | relayReply | hold | leave | selfDestroyNull | beginHost =>
    intro b o hb
    simpa [Entry.handled?] using hr b o hb

theorem recorded_of_reaches {P : World → Event → Prop}
    (h : GuardedRun.Reaches (step c) P .initial w) : Recorded w := by
  refine moves_of_reaches (fun _ _ _ _ hr _ hm => hr.hostMove hm) ?_ recorded_initial h
  intro w e w' _ hr _ hm b o hb
  rw [hm.quiet.handled]
  exact hr b o (hm.quiet.host ▸ hb)

end OscDataProcess
