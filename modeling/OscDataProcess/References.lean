import OscDataProcess.Moves
import Mathlib.Data.Finset.Card
import Mathlib.Data.Finset.Range
import Mathlib.Algebra.BigOperators.Group.List.Basic
import Mathlib.Algebra.GroupWithZero.Nat

/-!
# Reference counts are exact

The count of a live host is the number of references that external owners,
queued or running tasks, relays, stubs and the local `observer` of Stub::Destroy
hold; a deleted host has none. This needs no discipline of the callers.
-/
namespace OscDataProcess

open Function (update)
open World

/-- Entries that only the Factory writes. -/
def Entry.IsFactory : Entry → Prop
  | .created .. | .produced .. | .taken .. | .notified .. | .destroyBegun .. | .deleted .. => True
  | _ => False

def FactoryTask.relay? : FactoryTask → Option Relay
  | .relay r => some r
  | _ => none

/-- The relays among the tasks of the factory thread. -/
def relays (tasks : List FactoryTask) : List Relay := tasks.filterMap FactoryTask.relay?

@[simp] theorem relays_cons_relay (r : Relay) (ts : List FactoryTask) :
    relays (.relay r :: ts) = r :: relays ts := rfl
@[simp] theorem relays_cons_schedule (f : FactoryId) (ts : List FactoryTask) :
    relays (.schedule f :: ts) = relays ts := rfl
@[simp] theorem relays_cons_calls (cs : List Call) (ts : List FactoryTask) :
    relays (.calls cs :: ts) = relays ts := rfl
@[simp] theorem relays_nil : relays [] = [] := rfl
@[simp] theorem relays_append (ts ts' : List FactoryTask) :
    relays (ts ++ ts') = relays ts ++ relays ts' := List.filterMap_append

/-- A step that leaves hosts, stubs, relays and host threads alone. -/
structure Quiet (w w' : World) : Prop where
  host : w'.host = w.host
  stub : w'.stub = w.stub
  freshStub : w'.freshStub = w.freshStub
  external : w'.external = w.external
  loop : w'.loop = w.loop
  relays : relays w'.tasks = relays w.tasks
  pc : w'.pc = w.pc ∨ (w.pc = .idle ∧ ((∃ s data, w'.pc = .stubData s data) ∨ ∃ s, w'.pc = .leave s))
  trace : ∃ es, w'.trace = w.trace ++ es ∧ ∀ e ∈ es, e.IsFactory

theorem FactoryMove.quiet {w w' : World} {e : Event} (h : FactoryMove w e w') : Quiet w w' := by
  cases h
  case notifyProduced hpc _ _ _ =>
    exact ⟨rfl, rfl, rfl, rfl, rfl, rfl, .inr ⟨hpc, .inl ⟨_, _, rfl⟩⟩, _, rfl, by simp [Entry.IsFactory]⟩
  case notifyDestroyed hpc _ _ _ =>
    exact ⟨rfl, rfl, rfl, rfl, rfl, rfl, .inr ⟨hpc, .inr ⟨_, rfl⟩⟩, _, rfl, by simp [Entry.IsFactory]⟩
  case beginCalls hidle hts =>
    exact ⟨rfl, rfl, rfl, rfl, rfl, by simp [hts], .inl rfl, [], by simp, by simp⟩
  case beginSchedule hidle hts =>
    exact ⟨rfl, rfl, rfl, rfl, rfl, by simp [hts], .inl rfl, _, rfl, by simp [Entry.IsFactory]⟩
  case beginDelayed | create | destroyBegin | produce | notifyPlain | destroyed =>
    exact ⟨rfl, rfl, rfl, rfl, rfl, rfl, .inl rfl, _, rfl, by simp [Entry.IsFactory]⟩
  case post | start | scheduleNow =>
    exact ⟨rfl, rfl, rfl, rfl, rfl, by simp, .inl rfl, [], by simp, by simp⟩
  all_goals
    exact ⟨rfl, rfl, rfl, rfl, rfl, rfl, .inl rfl, [], by simp [setObservers], by simp⟩

def HostTask.host : HostTask → HostId
  | .reply r => r.host
  | .call h _ => h

def HostTask.refs (h : HostId) : HostTask → Nat
  | .reply r => if r.host = h then 2 else 0
  | .call h' _ => if h' = h then 1 else 0

def HostPc.host? : HostPc → Option HostId
  | .idle => none
  | .resetTask r | .runReply r | .deleteRelay r => some r.host
  | .run h _ | .unbind h => some h

def HostPc.refs (h : HostId) : HostPc → Nat
  | .idle => 0
  | .resetTask r => if r.host = h then 2 else 0
  | .runReply r | .deleteRelay r => if r.host = h then 1 else 0
  | .run h' _ | .unbind h' => if h' = h then 1 else 0

def Pc.refs (h : HostId) : Pc → Nat
  | .relayTask r | .relayReply r => if r.host = h then 2 else 0
  | .selfDestroy h' | .selfReply h' | .selfDrop h' => if h' = h then 1 else 0
  | _ => 0

def HostLoop.refs (h : HostId) (l : HostLoop) : Nat :=
  (l.queue.map (HostTask.refs h)).sum + l.pc.refs h

/-- The live stubs whose `observer_` is host `h`. -/
def stubsOf (stub : StubId → Option FactoryStub) (fresh : StubId) (h : HostId) : Finset StubId :=
  (Finset.range fresh).filter fun s => (stub s).map FactoryStub.observer = some h

/-- Relays waiting for the factory thread that refer to host `h`. -/
def relayCount (tasks : List FactoryTask) (h : HostId) : Nat :=
  (relays tasks).countP fun r => decide (r.host = h)

/-- The count a host keeps; a deleted host counts as zero. -/
def refCount (host : HostId → Option FactoryHost) (h : HostId) : Nat :=
  (host h).elim 0 FactoryHost.refs

/-- All references to host `h`. -/
def World.refsTo (c : Config) (w : World) (h : HostId) : Nat :=
  w.external h + 2 * relayCount w.tasks h + w.pc.refs h + (w.loop (c.hostThread h)).refs h +
    (stubsOf w.stub w.freshStub h).card

/-- What holds in every state, whatever the callers do. -/
structure Counted (c : Config) (w : World) : Prop where
  owned : w.Owned
  stubBound : ∀ s st, w.stub s = some st → s < w.freshStub
  queuePlaced : ∀ t, ∀ task ∈ (w.loop t).queue, c.hostThread task.host = t
  pcPlaced : ∀ t h, (w.loop t).pc.host? = some h → c.hostThread h = t
  positive : ∀ h o, w.host h = some o → 0 < o.refs
  balanced : ∀ h, refCount w.host h = w.refsTo c h

theorem counted_initial (c : Config) : Counted c .initial where
  owned := by intro h o s ho hs; simp [initial] at ho; subst ho; cases hs
  stubBound := by intro s st hs; cases hs
  queuePlaced := by intro t task ht; cases ht
  pcPlaced := by intro t h hp; cases hp
  positive := by intro h o ho; simp [initial] at ho; subst ho; decide
  balanced := by
    intro h
    simp [refCount, refsTo, relayCount, stubsOf, initial, Pc.refs, HostLoop.refs, HostPc.refs]

variable {c : Config} {w : World}

theorem relayCount_append (ts : List FactoryTask) (r : Relay) (b : HostId) :
    relayCount (ts ++ [.relay r]) b = relayCount ts b + if r.host = b then 1 else 0 := by
  simp [relayCount, List.countP_cons]

theorem relayCount_cons (r : Relay) (ts : List FactoryTask) (b : HostId) :
    relayCount (.relay r :: ts) b = relayCount ts b + if r.host = b then 1 else 0 := by
  simp [relayCount, List.countP_cons]

theorem enqueue_refs (w : World) (t : HostTask) (b : HostId) :
    ((w.enqueue c t.host t).loop (c.hostThread b)).refs b =
      (w.loop (c.hostThread b)).refs b + t.refs b := by
  by_cases hb : c.hostThread b = c.hostThread t.host
  · simp only [enqueue, hb, Function.update_self, HostLoop.refs, List.map_append, List.sum_append,
      List.map_cons, List.map_nil, List.sum_cons, List.sum_nil]
    omega
  · have ht : t.refs b = 0 := by
      cases t <;> simp only [HostTask.refs, HostTask.host, ite_eq_right_iff] at * <;>
        intro he <;> exact absurd (by rw [he]) hb
    simp [enqueue, Function.update_of_ne hb, ht]

theorem HostPc.refs_other {pc : HostPc} {h : HostId} (hpc : pc.host? = some h ∨ pc.host? = none)
    {b : HostId} (hb : b ≠ h) : pc.refs b = 0 := by
  cases pc <;> simp_all [HostPc.host?, HostPc.refs, eq_comm]

/-- A host thread moves between two positions of the same host. -/
theorem setHostPc_refs (w : World) {t : ThreadId} {pc : HostPc} (pc' : HostPc) {h : HostId}
    (ht : c.hostThread h = t) (hpc : (w.loop t).pc = pc) (hold : pc.host? = some h)
    (hnew : pc'.host? = some h ∨ pc'.host? = none) (b : HostId) :
    ((w.setHostPc t pc').loop (c.hostThread b)).refs b + pc.refs b =
      (w.loop (c.hostThread b)).refs b + pc'.refs b := by
  by_cases hb : c.hostThread b = t
  · simp only [setHostPc, hb, Function.update_self, HostLoop.refs, hpc]
    omega
  · have hne : b ≠ h := by rintro rfl; exact hb ht
    simp [setHostPc, Function.update_of_ne hb, HostPc.refs_other (.inl hold) hne,
      HostPc.refs_other hnew hne]

theorem beginHost_refs {t : ThreadId} {task : HostTask} {q : List HostTask}
    (hpc : (w.loop t).pc = .idle) (hq : (w.loop t).queue = task :: q) (b : HostId) :
    ((update w.loop t ⟨q, task.start⟩) (c.hostThread b)).refs b =
      (w.loop (c.hostThread b)).refs b := by
  by_cases hb : c.hostThread b = t
  · subst hb
    cases task <;> simp [HostLoop.refs, hpc, hq, HostTask.start, HostPc.refs, HostTask.refs] <;> omega
  · rw [Function.update_of_ne hb]

theorem stubsOf_create (stub : StubId → Option FactoryStub) (s : StubId) (st : FactoryStub) (b : HostId) :
    (stubsOf (update stub s (some st)) (s + 1) b).card =
      (stubsOf stub s b).card + if st.observer = b then 1 else 0 := by
  have hold : ∀ s' ∈ Finset.range s, ((update stub s (some st) s').map FactoryStub.observer = some b ↔
      (stub s').map FactoryStub.observer = some b) := by
    intro s' hs
    rw [Function.update_of_ne (Finset.mem_range.mp hs).ne]
  simp only [stubsOf, Finset.range_add_one, Finset.filter_insert, Finset.filter_congr hold,
    Function.update_self, Option.map_some, Option.some.injEq]
  split
  · rw [Finset.card_insert_of_notMem (by simp)]
  · rfl

theorem stubsOf_delete {stub : StubId → Option FactoryStub} {fresh s : StubId} {st : FactoryStub}
    (hs : stub s = some st) (hfresh : s < fresh) (b : HostId) :
    (stubsOf (update stub s none) fresh b).card + (if st.observer = b then 1 else 0) =
      (stubsOf stub fresh b).card := by
  have herase : stubsOf (update stub s none) fresh b = (stubsOf stub fresh b).erase s := by
    ext s'
    by_cases he : s' = s
    · subst he; simp [stubsOf]
    · simp [stubsOf, he]
  rw [herase]
  by_cases hb : st.observer = b
  · have hmem : s ∈ stubsOf stub fresh b := by simp [stubsOf, hs, hb, hfresh]
    rw [if_pos hb, Finset.card_erase_add_one hmem]
  · have hmem : s ∉ stubsOf stub fresh b := by simp [stubsOf, hs, hb]
    rw [if_neg hb, Finset.erase_eq_of_notMem hmem, Nat.add_zero]

theorem stubsOf_replace {stub : StubId → Option FactoryStub} (fresh : StubId) {s : StubId}
    {st : FactoryStub} (st' : FactoryStub) (hs : stub s = some st) (hobs : st'.observer = st.observer) (b : HostId) :
    stubsOf (update stub s (some st')) fresh b = stubsOf stub fresh b := by
  ext s'
  by_cases he : s' = s
  · subst he; simp [stubsOf, hs, hobs]
  · simp [stubsOf, he]

theorem refCount_update (host : HostId → Option FactoryHost) (h b : HostId) (o : Option FactoryHost) :
    refCount (update host h o) b = if h = b then o.elim 0 FactoryHost.refs else refCount host b := by
  by_cases hb : h = b
  · subst hb; simp [refCount]
  · simp [refCount, hb, Function.update_of_ne (Ne.symm hb)]

/-- The host's own count changes by what the reference that is taken or dropped says. -/
theorem refCount_of_some {host : HostId → Option FactoryHost} {h : HostId} {o : FactoryHost}
    (ho : host h = some o) : refCount host h = o.refs := by
  simp [refCount, ho]

theorem FactoryHost.elim_released (o : FactoryHost) :
    o.released.elim 0 FactoryHost.refs = o.refs - 1 := by
  unfold FactoryHost.released
  split
  · simp only [Option.elim_none]; omega
  · rfl

@[simp] theorem FactoryStub.onDataProduced_observer (st : FactoryStub) (time : Nat) :
    (st.onDataProduced time).1.observer = st.observer := by
  unfold FactoryStub.onDataProduced
  split <;> rfl

@[simp] theorem FactoryStub.onDataProduced_factory (st : FactoryStub) (time : Nat) :
    (st.onDataProduced time).1.factory = st.factory := by
  unfold FactoryStub.onDataProduced
  split <;> rfl

@[simp] theorem FactoryHost.handle_stub (o : FactoryHost) (m : Callback) :
    (o.handle m).stub = o.stub := by cases m <;> rfl

@[simp] theorem FactoryHost.handle_refs (o : FactoryHost) (m : Callback) :
    (o.handle m).refs = o.refs := by cases m <;> rfl

namespace Counted

theorem quiet {w' : World} (hc : Counted c w) (hq : Quiet w w') : Counted c w' := by
  have hpc : ∀ b, w'.pc.refs b = w.pc.refs b := by
    intro b
    obtain he | ⟨he, ⟨s, data, he'⟩ | ⟨s, he'⟩⟩ := hq.pc <;> simp [*, Pc.refs]
  refine ⟨?_, ?_, ?_, ?_, ?_, ?_⟩
  · intro h o s ho hs
    rw [hq.host] at ho
    rw [hq.stub]
    exact hc.owned h o s ho hs
  · rw [hq.stub, hq.freshStub]; exact hc.stubBound
  · rw [hq.loop]; exact hc.queuePlaced
  · rw [hq.loop]; exact hc.pcPlaced
  · rw [hq.host]; exact hc.positive
  · intro b
    have := hc.balanced b
    simpa only [refsTo, relayCount, hq.host, hq.external, hq.loop, hpc, hq.stub, hq.freshStub,
      hq.relays] using this

theorem balanced_move {w' : World} {e : Event} (hc : Counted c w) (hm : HostMove c w e w') (b : HostId) :
    refCount w'.host b = w'.refsTo c b := by
  have hb := hc.balanced b
  cases hm with
  | @beginRelay r ts hidle hts =>
    simp only [refsTo, hidle.1, hts, relayCount_cons, Pc.refs] at hb ⊢
    split_ifs at hb ⊢ <;> omega
  | @postInit h f fac o time script hpc hf hfac ho =>
    have hcr := stubsOf_create w.stub w.freshStub ⟨h, some f, (c.freq h).map (⟨·, 0⟩)⟩ b
    have ho' := refCount_of_some ho
    simp only [refsTo, hpc, Pc.refs, refCount_update, hcr, Option.elim_some] at hb ⊢
    split_ifs at hb ⊢ <;> first | omega | (subst_vars; omega)
  | @relayDestroyNull h o time script hpc ho hs =>
    simp only [refsTo, hpc, Pc.refs] at hb ⊢
    exact hb
  | @relayDestroyStub h o s st time script hpc ho hs hst hobs hone hlive =>
    obtain rfl := hobs
    have hdel := stubsOf_delete hst (hc.stubBound s st hst) b
    have ho' := refCount_of_some ho
    simp only [refsTo, hpc, Pc.refs, refCount_update, Option.elim_some] at hb ⊢
    split_ifs at hb hdel ⊢ <;> first | omega | (subst_vars; omega)
  | @relayReply r time script hpc =>
    have hq := enqueue_refs (c := c) w (.reply r) b
    simp only [HostTask.host, HostTask.refs] at hq
    simp only [refsTo, hpc, Pc.refs, enqueue_host, enqueue_external, enqueue_tasks, enqueue_stub,
      enqueue_freshStub, hq] at hb ⊢
    omega
  | @forward s data st o time script hpc hst hfwd ho =>
    have hq := enqueue_refs (c := c) w (.call st.observer (.onDataProduced data)) b
    simp only [HostTask.host, HostTask.refs] at hq
    have ho' := refCount_of_some ho
    have hrep := stubsOf_replace w.freshStub _ hst (st.onDataProduced_observer time) b
    simp only [refsTo, hpc, Pc.refs, refCount_update, Option.elim_some, hrep, hq,
      enqueue_external, enqueue_tasks, enqueue_freshStub] at hb ⊢
    split_ifs at hb ⊢ <;> first | omega | (subst_vars; omega)
  | @hold s data st time script hpc hst hhold =>
    have hrep := stubsOf_replace w.freshStub _ hst (st.onDataProduced_observer time) b
    simp only [refsTo, hpc, Pc.refs, hrep] at hb ⊢
    exact hb
  | @leave s st f fac time script hpc hst hf hfac =>
    have hrep := stubsOf_replace w.freshStub { st with factory := none } hst rfl b
    simp only [refsTo, setObservers, hpc, Pc.refs, hrep] at hb ⊢
    exact hb
  | @leavePost s st o time script hpc hst ho =>
    have hq := enqueue_refs (c := c) w (.call st.observer .onFactoryDestory) b
    simp only [HostTask.host, HostTask.refs] at hq
    have ho' := refCount_of_some ho
    simp only [refsTo, hpc, Pc.refs, refCount_update, Option.elim_some, hq, enqueue_external,
      enqueue_tasks, enqueue_stub, enqueue_freshStub] at hb ⊢
    split_ifs at hb ⊢ <;> first | omega | (subst_vars; omega)
  | @leaveDestroy s st o time script hpc hst ho =>
    have ho' := refCount_of_some ho
    simp only [refsTo, hpc, Pc.refs, refCount_update, Option.elim_some] at hb ⊢
    split_ifs at hb ⊢ <;> first | omega | (subst_vars; omega)
  | @selfDestroyNull h o time script hpc ho hs =>
    simp only [refsTo, hpc, Pc.refs] at hb ⊢
    exact hb
  | @selfDestroyStub h o s st time script hpc ho hs hst hobs hone hlive =>
    obtain rfl := hobs
    have hdel := stubsOf_delete hst (hc.stubBound s st hst) b
    have ho' := refCount_of_some ho
    simp only [refsTo, hpc, Pc.refs, refCount_update, Option.elim_some] at hb ⊢
    split_ifs at hb hdel ⊢ <;> first | omega | (subst_vars; omega)
  | @selfReply h o time script hpc ho =>
    have hq := enqueue_refs (c := c) w (.call h .replyDestroy) b
    simp only [HostTask.host, HostTask.refs] at hq
    have ho' := refCount_of_some ho
    simp only [refsTo, hpc, Pc.refs, refCount_update, Option.elim_some, hq, enqueue_external,
      enqueue_tasks, enqueue_stub, enqueue_freshStub] at hb ⊢
    split_ifs at hb ⊢ <;> first | omega | (subst_vars; omega)
  | @selfDrop h o time script hpc ho =>
    have ho' := refCount_of_some ho
    simp only [refsTo, hpc, Pc.refs, refCount_update, o.elim_released] at hb ⊢
    split_ifs at hb ⊢ <;> first | omega | (subst_vars; omega)
  | @beginHost t task q hpc hq =>
    have hl := beginHost_refs (c := c) hpc hq b
    simp only [refsTo, hl] at hb ⊢
    exact hb
  | @resetTask t r o hpc ho =>
    have ho' := refCount_of_some ho
    have hl := setHostPc_refs (c := c) w (.runReply r) (hc.pcPlaced t r.host (by rw [hpc]; rfl))
      hpc rfl (.inl rfl) b
    simp only [refsTo, HostPc.refs, refCount_update, o.elim_released, setHostPc_external,
      setHostPc_tasks, setHostPc_pc, setHostPc_stub, setHostPc_freshStub] at hb hl ⊢
    split_ifs at hb hl ⊢ <;> first | omega | (subst_vars; omega)
  | @runReply t r o hpc ho =>
    have ho' := refCount_of_some ho
    have hl := setHostPc_refs (c := c) w (.deleteRelay r) (hc.pcPlaced t r.host (by rw [hpc]; rfl))
      hpc rfl (.inl rfl) b
    simp only [refsTo, HostPc.refs, refCount_update, Option.elim_some, FactoryHost.handle_refs,
      setHostPc_external, setHostPc_tasks, setHostPc_pc, setHostPc_stub, setHostPc_freshStub] at hb hl ⊢
    split_ifs at hb hl ⊢ <;> first | omega | (subst_vars; omega)
  | @deleteRelay t r o hpc ho =>
    have ho' := refCount_of_some ho
    have hl := setHostPc_refs (c := c) w .idle (hc.pcPlaced t r.host (by rw [hpc]; rfl))
      hpc rfl (.inr rfl) b
    simp only [refsTo, HostPc.refs, refCount_update, o.elim_released, setHostPc_external,
      setHostPc_tasks, setHostPc_pc, setHostPc_stub, setHostPc_freshStub] at hb hl ⊢
    split_ifs at hb hl ⊢ <;> first | omega | (subst_vars; omega)
  | @runCall t h m o hpc ho =>
    have ho' := refCount_of_some ho
    have hl := setHostPc_refs (c := c) w (.unbind h) (hc.pcPlaced t h (by rw [hpc]; rfl))
      hpc rfl (.inl rfl) b
    simp only [refsTo, HostPc.refs, refCount_update, Option.elim_some, FactoryHost.handle_refs,
      setHostPc_external, setHostPc_tasks, setHostPc_pc, setHostPc_stub, setHostPc_freshStub] at hb hl ⊢
    split_ifs at hb hl ⊢ <;> first | omega | (subst_vars; omega)
  | @unbind t h o hpc ho =>
    have ho' := refCount_of_some ho
    have hl := setHostPc_refs (c := c) w .idle (hc.pcPlaced t h (by rw [hpc]; rfl))
      hpc rfl (.inr rfl) b
    simp only [refsTo, HostPc.refs, refCount_update, o.elim_released, setHostPc_external,
      setHostPc_tasks, setHostPc_pc, setHostPc_stub, setHostPc_freshStub] at hb hl ⊢
    split_ifs at hb hl ⊢ <;> first | omega | (subst_vars; omega)
  | @init h o ho =>
    have ho' := refCount_of_some ho
    simp only [refsTo, refCount_update, Option.elim_some, relayCount_append] at hb ⊢
    split_ifs at hb ⊢ <;> first | omega | (subst_vars; omega)
  | @destroy h o ho =>
    have ho' := refCount_of_some ho
    simp only [refsTo, refCount_update, Option.elim_some, relayCount_append] at hb ⊢
    split_ifs at hb ⊢ <;> first | omega | (subst_vars; omega)
  | @addRef h o hext ho =>
    have ho' := refCount_of_some ho
    simp only [refsTo, refCount_update, Option.elim_some, Function.update_apply, eq_comm (a := b)] at hb ⊢
    split_ifs at hb ⊢ <;> first | omega | (subst_vars; omega)
  | @dropRef h o hext ho =>
    have ho' := refCount_of_some ho
    simp only [refsTo, refCount_update, o.elim_released, Function.update_apply, eq_comm (a := b)] at hb ⊢
    split_ifs at hb ⊢ <;> first | omega | (subst_vars; omega)

end Counted

/-- `stub_` fields and the `observer_` of live stubs only get lost, never redirected. -/
theorem owned_of {w' : World} (hw : w.Owned)
    (hhost : ∀ h o' s, w'.host h = some o' → o'.stub = some s → ∃ o, w.host h = some o ∧ o.stub = some s)
    (hstub : ∀ s st, w.stub s = some st → ∃ st', w'.stub s = some st' ∧ st'.observer = st.observer) :
    w'.Owned := by
  intro h o' s ho' hs
  obtain ⟨o, ho, hs⟩ := hhost h o' s ho' hs
  obtain ⟨st, hst, hobs⟩ := hw h o s ho hs
  obtain ⟨st', hst', hobs'⟩ := hstub s st hst
  exact ⟨st', hst', hobs'.trans hobs⟩

/-- One host is replaced by one with the same `stub_`, or deleted. -/
theorem host_stub_of_update {host : HostId → Option FactoryHost} {h : HostId} {o : FactoryHost}
    {o' : Option FactoryHost} (ho : host h = some o) (hsame : ∀ x ∈ o', x.stub = o.stub) :
    ∀ b ob s, update host h o' b = some ob → ob.stub = some s → ∃ o, host b = some o ∧ o.stub = some s := by
  intro b ob s hb hs
  by_cases he : b = h
  · subst he
    rw [Function.update_self] at hb
    exact ⟨o, ho, by rw [← hsame ob hb, hs]⟩
  · rw [Function.update_of_ne he] at hb
    exact ⟨ob, hb, hs⟩

theorem FactoryHost.released_stub (o : FactoryHost) : ∀ x ∈ o.released, x.stub = o.stub := by
  intro x hx
  unfold FactoryHost.released at hx
  split at hx
  · cases hx
  · obtain rfl := Option.some.inj hx
    rfl

theorem stub_observer_of_update {stub : StubId → Option FactoryStub} {s : StubId} {st st' : FactoryStub}
    (hs : stub s = some st) (hobs : st'.observer = st.observer) :
    ∀ b sb, stub b = some sb → ∃ sb', update stub s (some st') b = some sb' ∧ sb'.observer = sb.observer := by
  intro b sb hb
  by_cases he : b = s
  · subst he
    obtain rfl := Option.some.inj (hs.symm.trans hb)
    exact ⟨st', Function.update_self .., hobs⟩
  · exact ⟨sb, by rw [Function.update_of_ne he, hb], rfl⟩

theorem host_stub_refl {host : HostId → Option FactoryHost} :
    ∀ b ob s, host b = some ob → ob.stub = some s → ∃ o, host b = some o ∧ o.stub = some s :=
  fun _ ob _ hb hs => ⟨ob, hb, hs⟩

theorem stub_observer_refl {stub : StubId → Option FactoryStub} :
    ∀ b sb, stub b = some sb → ∃ sb', stub b = some sb' ∧ sb'.observer = sb.observer :=
  fun _ sb hb => ⟨sb, hb, rfl⟩

/-- Deleting the stub of host `h` together with its `stub_`. -/
theorem owned_delete {w' : World} {h : HostId} {s : StubId} {st : FactoryStub} {o' : FactoryHost}
    (hw : w.Owned) (hst : w.stub s = some st) (hobs : st.observer = h)
    (hhost : w'.host = update w.host h (some o')) (ho' : o'.stub = none)
    (hstub : w'.stub = update w.stub s none) : w'.Owned := by
  intro b ob s' hb hs'
  have hbh : b ≠ h := by
    rintro rfl
    rw [hhost, Function.update_self] at hb
    obtain rfl := Option.some.inj hb
    rw [ho'] at hs'
    cases hs'
  rw [hhost, Function.update_of_ne hbh] at hb
  obtain ⟨st', hst', hobs'⟩ := hw b ob s' hb hs'
  have hss : s' ≠ s := by
    rintro rfl
    obtain rfl := Option.some.inj (hst.symm.trans hst')
    exact hbh (hobs'.symm.trans hobs)
  exact ⟨st', by rw [hstub, Function.update_of_ne hss, hst'], hobs'⟩

namespace Counted

theorem owned_move {w' : World} {e : Event} (hc : Counted c w) (hm : HostMove c w e w') : w'.Owned := by
  have hw := hc.owned
  cases hm with
  | @postInit h f fac o time script hpc hf hfac ho =>
    intro b ob s' hb hs'
    simp only at hb hs'
    by_cases he : b = h
    · subst he
      rw [Function.update_self] at hb
      obtain rfl := Option.some.inj hb
      obtain rfl := Option.some.inj hs'
      exact ⟨_, Function.update_self .., rfl⟩
    · rw [Function.update_of_ne he] at hb
      obtain ⟨st, hst, hobs⟩ := hw b ob s' hb hs'
      exact ⟨st, by simp only [Function.update_of_ne (hc.stubBound s' st hst).ne, hst], hobs⟩
  | relayDestroyStub hpc ho hs hst hobs hone hlive => exact owned_delete hw hst hobs rfl rfl rfl
  | selfDestroyStub hpc ho hs hst hobs hone hlive => exact owned_delete hw hst hobs rfl rfl rfl
  | forward hpc hst hfwd ho =>
    exact owned_of hw (host_stub_of_update ho (by simp)) (stub_observer_of_update hst (by simp))
  | hold hpc hst hhold => exact owned_of hw host_stub_refl (stub_observer_of_update hst (by simp))
  | leave hpc hst hf hfac => exact owned_of hw host_stub_refl (stub_observer_of_update hst rfl)
  | leavePost hpc hst ho | leaveDestroy hpc hst ho =>
    exact owned_of hw (host_stub_of_update ho (by simp)) stub_observer_refl
  | @selfDrop h o time script hpc ho =>
    exact owned_of hw (host_stub_of_update ho o.released_stub) stub_observer_refl
  | @resetTask t r o hpc ho | @deleteRelay t r o hpc ho | @unbind t r o hpc ho | @dropRef r o hpc ho =>
    exact owned_of hw (host_stub_of_update ho o.released_stub) stub_observer_refl
  | selfReply hpc ho | runReply hpc ho | runCall hpc ho | addRef hpc ho =>
    exact owned_of hw (host_stub_of_update ho (by simp)) stub_observer_refl
  | init ho | destroy ho => exact owned_of hw (host_stub_of_update ho (by simp)) stub_observer_refl
  | beginRelay | relayDestroyNull | relayReply | selfDestroyNull | beginHost =>
    exact owned_of hw host_stub_refl stub_observer_refl

theorem stubBound_move {w' : World} {e : Event} (hc : Counted c w) (hm : HostMove c w e w') :
    ∀ s st, w'.stub s = some st → s < w'.freshStub := by
  have hb := hc.stubBound
  have hrep : ∀ {s st st'}, w.stub s = some st →
      ∀ b sb, update w.stub s (some st') b = some sb → b < w.freshStub := by
    intro s st st' hst b sb hsb
    by_cases he : b = s
    · subst he; exact hb b st hst
    · rw [Function.update_of_ne he] at hsb; exact hb b sb hsb
  have hdel : ∀ {s}, ∀ b sb, update w.stub s none b = some sb → b < w.freshStub := by
    intro s b sb hsb
    by_cases he : b = s
    · subst he; simp at hsb
    · rw [Function.update_of_ne he] at hsb; exact hb b sb hsb
  cases hm with
  | postInit hpc hf hfac ho =>
    intro b sb hsb
    simp only at hsb ⊢
    by_cases he : b = w.freshStub
    · exact he ▸ Nat.lt_succ_self _
    · rw [Function.update_of_ne he] at hsb
      exact Nat.lt_succ_of_lt (hb b sb hsb)
  | relayDestroyStub | selfDestroyStub => exact hdel
  | forward hpc hst | hold hpc hst | leave hpc hst => exact hrep hst
  | beginRelay | relayDestroyNull | relayReply | leavePost | leaveDestroy | selfDestroyNull | selfReply
  | selfDrop | beginHost | resetTask | runReply | deleteRelay | runCall | unbind | init | destroy
  | addRef | dropRef => exact hb

theorem queuePlaced_enqueue (hc : Counted c w) (task : HostTask) :
    ∀ t, ∀ x ∈ ((w.enqueue c task.host task).loop t).queue, c.hostThread x.host = t := by
  intro t x hx
  by_cases ht : t = c.hostThread task.host
  · subst ht
    simp only [enqueue, Function.update_self, List.mem_append, List.mem_singleton] at hx
    obtain hx | rfl := hx
    · exact hc.queuePlaced _ x hx
    · rfl
  · simp only [enqueue, Function.update_of_ne ht] at hx
    exact hc.queuePlaced t x hx

theorem queuePlaced_setHostPc (hc : Counted c w) (t : ThreadId) (pc : HostPc) :
    ∀ b, ∀ x ∈ ((w.setHostPc t pc).loop b).queue, c.hostThread x.host = b := by
  intro b x hx
  by_cases ht : b = t
  · subst ht
    simp only [setHostPc, Function.update_self] at hx
    exact hc.queuePlaced b x hx
  · simp only [setHostPc, Function.update_of_ne ht] at hx
    exact hc.queuePlaced b x hx

theorem queuePlaced_move {w' : World} {e : Event} (hc : Counted c w) (hm : HostMove c w e w') :
    ∀ t, ∀ task ∈ (w'.loop t).queue, c.hostThread task.host = t := by
  cases hm with
  | @relayReply r => exact hc.queuePlaced_enqueue (.reply r)
  | @forward s data st => exact hc.queuePlaced_enqueue (.call st.observer (.onDataProduced data))
  | @leavePost s st => exact hc.queuePlaced_enqueue (.call st.observer .onFactoryDestory)
  | @selfReply h => exact hc.queuePlaced_enqueue (.call h .replyDestroy)
  | @beginHost t task q hpc hq =>
    intro b x hx
    by_cases ht : b = t
    · subst ht
      simp only [Function.update_self] at hx
      exact hc.queuePlaced b x (by rw [hq]; exact List.mem_cons_of_mem _ hx)
    · simp only [Function.update_of_ne ht] at hx
      exact hc.queuePlaced b x hx
  | resetTask | runReply | deleteRelay | runCall | unbind => exact hc.queuePlaced_setHostPc _ _
  | beginRelay | postInit | relayDestroyNull | relayDestroyStub | hold | leave | leaveDestroy
  | selfDestroyNull | selfDestroyStub | selfDrop | init | destroy | addRef | dropRef =>
    exact hc.queuePlaced

theorem pcPlaced_setHostPc (hc : Counted c w) {t : ThreadId} {pc : HostPc}
    (hsub : ∀ h, pc.host? = some h → (w.loop t).pc.host? = some h) :
    ∀ b h, ((w.setHostPc t pc).loop b).pc.host? = some h → c.hostThread h = b := by
  intro b h hp
  by_cases ht : b = t
  · subst ht
    simp only [setHostPc, Function.update_self] at hp
    exact hc.pcPlaced b h (hsub h hp)
  · simp only [setHostPc, Function.update_of_ne ht] at hp
    exact hc.pcPlaced b h hp

theorem pcPlaced_enqueue (hc : Counted c w) (b : HostId) (task : HostTask) :
    ∀ t h, ((w.enqueue c b task).loop t).pc.host? = some h → c.hostThread h = t := by
  intro t h hp
  refine hc.pcPlaced t h ?_
  by_cases ht : t = c.hostThread b
  · subst ht
    simpa [enqueue] using hp
  · simpa [enqueue, Function.update_of_ne ht] using hp

theorem pcPlaced_move {w' : World} {e : Event} (hc : Counted c w) (hm : HostMove c w e w') :
    ∀ t h, (w'.loop t).pc.host? = some h → c.hostThread h = t := by
  cases hm with
  | relayReply | forward | leavePost | selfReply => exact hc.pcPlaced_enqueue _ _
  | @beginHost t task q hpc hq =>
    intro b h hp
    by_cases ht : b = t
    · subst ht
      simp only [Function.update_self] at hp
      have hh : task.host = h := by cases task <;> exact Option.some.inj hp
      rw [← hh]
      exact hc.queuePlaced b task (by rw [hq]; exact List.mem_cons_self)
    · simp only [Function.update_of_ne ht] at hp
      exact hc.pcPlaced b h hp
  | resetTask hpc | runReply hpc | runCall hpc =>
    exact hc.pcPlaced_setHostPc (by intro h hp; rw [hpc]; exact hp)
  | deleteRelay hpc | unbind hpc => exact hc.pcPlaced_setHostPc (by intro h hp; cases hp)
  | beginRelay | postInit | relayDestroyNull | relayDestroyStub | hold | leave | leaveDestroy
  | selfDestroyNull | selfDestroyStub | selfDrop | init | destroy | addRef | dropRef =>
    exact hc.pcPlaced

theorem positive_update (hc : Counted c w) {h : HostId} {o' : Option FactoryHost}
    (ho : ∀ x ∈ o', 0 < x.refs) : ∀ b ob, update w.host h o' b = some ob → 0 < ob.refs := by
  intro b ob hb
  by_cases he : b = h
  · subst he
    rw [Function.update_self] at hb
    exact ho ob hb
  · rw [Function.update_of_ne he] at hb
    exact hc.positive b ob hb

theorem positive_released (hc : Counted c w) {h : HostId} {o : FactoryHost} (ho : w.host h = some o) :
    ∀ x ∈ o.released, 0 < x.refs := by
  have hpos := hc.positive h o ho
  intro x hx
  unfold FactoryHost.released at hx
  split at hx
  · cases hx
  · obtain rfl := Option.some.inj hx
    simp only
    omega

theorem positive_move {w' : World} {e : Event} (hc : Counted c w) (hm : HostMove c w e w') :
    ∀ h o, w'.host h = some o → 0 < o.refs := by
  cases hm with
  | relayDestroyStub _ ho _ _ _ hone | selfDestroyStub _ ho _ _ _ hone =>
    have hpos := hc.positive _ _ ho
    exact hc.positive_update (by rintro _ ⟨⟩; simp only; omega)
  | selfDrop _ ho | resetTask _ ho | deleteRelay _ ho | unbind _ ho | dropRef _ ho =>
    exact hc.positive_update (hc.positive_released ho)
  | runReply _ ho | runCall _ ho =>
    have hpos := hc.positive _ _ ho
    exact hc.positive_update (by rintro _ ⟨⟩; simpa using hpos)
  | postInit | forward | leavePost | leaveDestroy | selfReply | init | destroy | addRef =>
    exact hc.positive_update (by rintro _ ⟨⟩; simp)
  | beginRelay | relayDestroyNull | relayReply | hold | leave | selfDestroyNull | beginHost =>
    exact hc.positive

theorem hostMove {w' : World} {e : Event} (hc : Counted c w) (hm : HostMove c w e w') : Counted c w' :=
  ⟨hc.owned_move hm, hc.stubBound_move hm, hc.queuePlaced_move hm, hc.pcPlaced_move hm,
    hc.positive_move hm, hc.balanced_move hm⟩

theorem step {w' : World} {e : Event} (hc : Counted c w) (he : step c w e = some w') :
    Counted c w' := by
  obtain hm | hm := step_cases hc.owned he
  · exact hc.hostMove hm
  · exact hc.quiet hm.quiet

/-- Whoever is referred to is alive. -/
theorem alive (hc : Counted c w) {h : HostId} (hr : w.refsTo c h ≠ 0) : ∃ o, w.host h = some o := by
  have hb := hc.balanced h
  unfold refCount at hb
  cases ho : w.host h with
  | none => simp [ho] at hb; omega
  | some o => exact ⟨o, rfl⟩

theorem alive_of_stub (hc : Counted c w) {s : StubId} {st : FactoryStub} (hs : w.stub s = some st) :
    ∃ o, w.host st.observer = some o := by
  apply hc.alive
  have hmem : s ∈ stubsOf w.stub w.freshStub st.observer := by
    simp [stubsOf, hs, hc.stubBound s st hs]
  have := Finset.card_pos.mpr ⟨s, hmem⟩
  unfold refsTo
  omega

end Counted

/-- Every reachable state is counted, under any discipline. -/
theorem counted_of_reaches {P : World → Event → Prop} (h : GuardedRun.Reaches (step c) P .initial w) :
    Counted c w :=
  h.invariant (fun _ _ _ hc _ he => hc.step he) (counted_initial c)

/-- A run is a sequence of moves from counted states. -/
theorem moves_of_reaches {P : World → Event → Prop} {I : World → Prop}
    (hhost : ∀ w e w', Counted c w → I w → P w e → HostMove c w e w' → I w')
    (hfactory : ∀ w e w', Counted c w → I w → P w e → FactoryMove w e w' → I w')
    (hinit : I .initial) (h : GuardedRun.Reaches (step c) P .initial w) : I w := by
  refine GuardedRun.Reaches.invariant_of (K := Counted c) (fun t ht => counted_of_reaches ht) ?_ hinit h
  intro t e u hc hi hp he _
  obtain hm | hm := step_cases hc.owned he
  · exact hhost t e u hc hi hp hm
  · exact hfactory t e u hc hi hp hm

end OscDataProcess
