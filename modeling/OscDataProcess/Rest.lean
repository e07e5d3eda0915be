import OscDataProcess.Attachment
import OscDataProcess.Refinement
import Mathlib.Data.Finset.Option

/-!
# The deployment at rest

When every message loop sleeps, every call has been carried out, every callback has been
run, and the hosts that nobody refers to are gone.
-/
namespace OscDataProcess

open Function (update)
open GuardedRun (Reaches)

/-- No thread has anything to do; a Schedule task may wait for its time. -/
structure World.AtRest (c : Config) (w : World) : Prop where
  idle : w.Idle
  tasks : w.tasks = []
  loop : ∀ h, w.loop (c.hostThread h) = ⟨[], .idle⟩

variable {c : Config} {w : World}

theorem stubsOf_of_bound (hc : Counted c w) (hb : Bound w) {h : HostId} {o : FactoryHost} (ho : w.host h = some o) :
    stubsOf w.stub w.freshStub h = o.stub.toFinset := by
  ext s
  simp only [stubsOf, Finset.mem_filter, Finset.mem_range, Option.map_eq_some_iff, Option.mem_toFinset, Option.mem_def]
  constructor
  · rintro ⟨-, st, hst, rfl⟩
    obtain ⟨o', ho', hs⟩ := hb.bound s st hst
    obtain rfl := Option.some.inj (ho.symm.trans ho')
    exact hs
  · intro hs
    obtain ⟨st, hst, hobs⟩ := hc.owned h o s ho hs
    exact ⟨hc.stubBound s st hst, st, hst, hobs⟩

/-- Only owners and the stub are left to refer to a host. -/
theorem refsTo_of_atRest (hw : w.AtRest c) (h : HostId) :
    w.refsTo c h = w.external h + (stubsOf w.stub w.freshStub h).card := by
  simp [World.refsTo, relayCount, hw.tasks, hw.idle.1, hw.loop, Pc.refs, HostLoop.refs, HostPc.refs]

/-- At rest every Init and Destroy has been carried out. -/
theorem calls_of_atRest (hw : w.AtRest c) (hr : Relayed w) (r : Relay) : calls w.trace r = runs w.trace r := by
  simp [hr r, hw.tasks, hw.idle.1, Pc.relayTasks]

/-- At rest every callback has been run. -/
theorem posted_of_atRest (hw : w.AtRest c) (hd : Delivered c w) (h : HostId) : posted w.trace h = handled w.trace h := by
  simp [hd h, hw.loop, HostLoop.inFlight, HostPc.pending]

/-- A stub of the host is registered with a live Factory. -/
def World.Attached (w : World) (h : HostId) : Prop :=
  ∃ f fac s st, w.factory f = some fac ∧ .stub s ∈ fac.observerList.members ∧ w.stub s = some st ∧ st.observer = h

/-- At rest a host is gone exactly if it has no owner and is not attached. -/
theorem host_eq_none_of_atRest (hw : w.AtRest c) (hc : Counted c w) (hl : Listed w) (hb : Bound w) (h : HostId) :
    w.host h = none ↔ w.external h = 0 ∧ ¬ w.Attached h := by
  have hbal := hc.balanced h
  rw [refsTo_of_atRest hw] at hbal
  constructor
  · intro hn
    have hzero : refCount w.host h = 0 := by simp [refCount, hn]
    refine ⟨by omega, ?_⟩
    rintro ⟨f, fac, s, st, -, -, hst, rfl⟩
    have hmem : s ∈ stubsOf w.stub w.freshStub st.observer := by
      simp [stubsOf, hst, hc.stubBound s st hst]
    have := Finset.card_pos.mpr ⟨s, hmem⟩
    omega
  · rintro ⟨hext, hatt⟩
    by_contra hne
    obtain ⟨o, ho⟩ := Option.ne_none_iff_exists'.mp hne
    have hpos := hc.positive h o ho
    rw [refCount_of_some ho, hext, stubsOf_of_bound hc hb ho] at hbal
    cases hs : o.stub with
    | none =>
      simp [hs] at hbal
      omega
    | some s =>
      obtain ⟨st, f, hst, hobs, hf, -⟩ := (registered_of_idle hc hl hb hw.idle).linked h o s ho hs
      obtain ⟨l, hlf, hmem⟩ := hl.stubListed s st f hst hf
      obtain ⟨fac, hfac, rfl⟩ := Option.map_eq_some_iff.mp hlf
      exact hatt ⟨f, fac, s, st, hfac, hmem, hst, hobs⟩

namespace Deployment

variable {d : Deployment} {Q : World → OscDataProcess.Event → Prop}

/-- Every message loop sleeps, and nobody is about to wake it. -/
structure AtRest (c : Config) (d : Deployment) : Prop where
  factoryLoop : d.factoryLoop.AtRest
  hostLoop : ∀ h, (d.hostLoop (c.hostThread h)).AtRest

theorem Running.atRest (hr : Running d) (h : AtRest c d) : d.world.AtRest c := by
  obtain ⟨htasks, hin⟩ := MessageLoop.promptTasks_of_atRest (MessageLoop.neverNested_of_mailing hr.factoryLoop) h.factoryLoop
  refine ⟨hr.idle hin, ?_, fun b => ?_⟩
  · simp [world, World.behind, backlog, hr.tasks, MessageLoop.mail, htasks]
  · obtain ⟨htasks, hin⟩ := MessageLoop.promptTasks_of_atRest
      (MessageLoop.neverNested_of_mailing (hr.hostLoop _)) (h.hostLoop b)
    simp [world, World.behind, backlog, hr.queue, hr.hostIdle _ hin, MessageLoop.mail, htasks]

theorem initOnce_of_not_code (w : World) (e : OscDataProcess.Event) (he : e.isCode = false) : InitOnce w e := by
  intro b hb
  cases e <;> cases he <;> cases hb

/-- When all message loops sleep, every Init and Destroy call has been carried out, and
every host has run all callbacks that were ever posted to it, in order. -/
theorem carriedOut_of_reaches (hQ : ∀ w e, e.isCode = false → Q w e)
    (hr : Reaches (step c) (Obeys Q) initial d) (hrest : AtRest c d) :
    (∀ r, calls d.code.trace r = runs d.code.trace r) ∧ ∀ h, posted d.code.trace h = handled d.code.trace h := by
  obtain ⟨hrun, hreach⟩ := running_of_reaches hQ hr
  have hw := hrun.atRest hrest
  exact ⟨calls_of_atRest (w := d.world) hw (relayed_of_reaches hreach),
    posted_of_atRest (w := d.world) hw (delivered_of_reaches hreach)⟩

/-- One thread for all hosts. -/
def oneThread : Config := ⟨fun _ => 0, fun _ => none⟩

/-- A host attaches and is answered. -/
def attaching : List Event :=
  [.factory (.run false false), .host 0 (.run false false), .code (.post [.create]), .code (.init 0),
    .factory .scheduleWork, .factory .pump, .factory .pump, .factory .pump, .code (.run 0 []), .code (.run 0 []),
    .factory .taskDone, .factory .pump, .factory .pump, .factory .pump, .factory .pump, .code (.run 0 []),
    .code (.run 0 []), .factory .taskDone, .host 0 .scheduleWork] ++ List.replicate 12 (.factory .pump) ++
  [.host 0 .pump, .host 0 .pump, .host 0 .pump, .code (.runHost 0), .code (.runHost 0), .code (.runHost 0),
    .host 0 .taskDone] ++ List.replicate 12 (.host 0 .pump)

theorem carriedOut_of_reaches_init : ∃ d, Reaches (step oneThread) (Obeys InitOnce) initial d ∧
    handled d.code.trace 0 = [.replyInit] ∧
      ((∀ r, calls d.code.trace r = runs d.code.trace r) ∧
        ∀ h, posted d.code.trace h = handled d.code.trace h) := by
  obtain ⟨d, hr, hd⟩ := GuardedRun.exists_of_execute (step oneThread) (Obeys InitOnce) initial attaching
    (fun d => decide (d.factoryLoop.AtRest ∧ (d.hostLoop 0).AtRest ∧ handled d.code.trace 0 = [.replyInit]))
    (by decide +kernel)
  obtain ⟨hf, hh, hhandled⟩ := of_decide_eq_true hd
  exact ⟨d, hr, hhandled, carriedOut_of_reaches initOnce_of_not_code hr ⟨hf, fun _ => hh⟩⟩

/-- When all message loops sleep, no host has leaked: those without an owner are deleted,
but for those that are still attached to the Factory. -/
theorem released_of_reaches (hr : Reaches (step c) (Obeys InitOnce) initial d) (hrest : AtRest c d) (h : HostId) :
    d.code.host h = none ↔ d.code.external h = 0 ∧ ¬ d.code.Attached h := by
  obtain ⟨hrun, hreach⟩ := running_of_reaches initOnce_of_not_code hr
  exact host_eq_none_of_atRest (hrun.atRest hrest) (counted_of_reaches hreach) (listed_of_reaches hreach)
    (bound_of_reaches (fun _ _ => id) hreach) h

/-- Its owner lets go of the host. -/
def letGo : List Event := attaching ++ [.code (.dropRef 0)]

/-- And the Factory is destroyed. -/
def abandoned : List Event :=
  [.code (.post [.destroy]), .factory .scheduleWork] ++ List.replicate 4 (.factory .pump) ++
    List.replicate 11 (.code (.run 0 [])) ++ .factory .taskDone :: List.replicate 6 (.factory .pump) ++
    .host 0 .scheduleWork :: List.replicate 4 (.host 0 .pump) ++ List.replicate 2 (.code (.runHost 0)) ++
    .host 0 .taskDone :: List.replicate 4 (.host 0 .pump) ++ List.replicate 2 (.code (.runHost 0)) ++
    .host 0 .taskDone :: List.replicate 6 (.host 0 .pump)

/-- A stub keeps the host alive that its owner has let go of, until the Factory is destroyed. -/
theorem released_of_reaches_attached : ∃ d d', Reaches (step oneThread) (Obeys InitOnce) initial d ∧
    Reaches (step oneThread) (Obeys InitOnce) initial d' ∧
    ((d.code.host 0).isSome ∧ d.code.external 0 = 0 ∧ d.code.Attached 0) ∧
    (d'.code.host 0 = none ∧ d'.code.external 0 = 0 ∧ ¬ d'.code.Attached 0) := by
  obtain ⟨d, hr, hd⟩ := GuardedRun.exists_of_execute (step oneThread) (Obeys InitOnce) initial letGo
    (fun d => decide (d.factoryLoop.AtRest ∧ (d.hostLoop 0).AtRest ∧ (d.code.host 0).isSome ∧ d.code.external 0 = 0))
    (by decide +kernel)
  obtain ⟨hf, hh, hlives, hext⟩ := of_decide_eq_true hd
  obtain ⟨d', hr', hd'⟩ := GuardedRun.exists_of_execute (step oneThread) (Obeys InitOnce) initial (letGo ++ abandoned)
    (fun d => decide (d.factoryLoop.AtRest ∧ (d.hostLoop 0).AtRest ∧ (d.code.host 0).isNone)) (by decide +kernel)
  obtain ⟨hf', hh', hgone⟩ := of_decide_eq_true hd'
  have hnone := Option.isNone_iff_eq_none.mp hgone
  refine ⟨d, d', hr, hr', ⟨hlives, hext, ?_⟩, hnone, (released_of_reaches hr' ⟨hf', fun _ => hh'⟩ 0).mp hnone⟩
  by_contra hatt
  rw [(released_of_reaches hr ⟨hf, fun _ => hh⟩ 0).mpr ⟨hext, hatt⟩] at hlives
  cases hlives

end Deployment
end OscDataProcess
