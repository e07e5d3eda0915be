import OscDataProcess.Step

/-!
# Everything one step can do

A step of the deployment is a move of the host side (hosts, stubs, relays, host
threads) or a move of the factory side (the Factory, its observer loops and its
own tasks). Each move states its guard and the whole new state; every invariant
is proved by cases on them, never by unfolding `step`.
-/
namespace OscDataProcess

open Function (update)
open World

namespace World

/-- `stub_` is only ever set to a live stub of the same host. -/
def Owned (w : World) : Prop :=
  ∀ h o s, w.host h = some o → o.stub = some s → ∃ st, w.stub s = some st ∧ st.observer = h

end World

inductive HostMove (c : Config) (w : World) : Event → World → Prop where
  | beginRelay {r : Relay} {ts : List FactoryTask} : w.Idle → w.tasks = .relay r :: ts →
      HostMove c w .begin { w with tasks := ts, pc := .relayTask r }
  | postInit {h : HostId} {f : FactoryId} {fac : Factory} {o : FactoryHost} {time : Nat}
      {script : List Call} :
      w.pc = .relayTask ⟨.init, h⟩ → w.gFactory = some f → w.factory f = some fac →
      w.host h = some o →
      HostMove c w (.run time script) { w with
        host := update w.host h
          (some { o with refs := o.refs + 1, data := some fac.data, stub := some w.freshStub })
        stub := update w.stub w.freshStub (some ⟨h, some f, (c.freq h).map (⟨·, 0⟩)⟩)
        freshStub := w.freshStub + 1
        factory := update w.factory f
          (some { fac with observerList := fac.observerList.addObserver (.stub w.freshStub) })
        pc := .relayReply ⟨.init, h⟩
        trace := w.trace ++ [.attached h w.freshStub f] }
  | relayDestroyNull {h : HostId} {o : FactoryHost} {time : Nat} {script : List Call} :
      w.pc = .relayTask ⟨.destroy, h⟩ → w.host h = some o → o.stub = none →
      HostMove c w (.run time script) { w with
        pc := .relayReply ⟨.destroy, h⟩
        trace := w.trace ++ [.postDestroy h] }
  | relayDestroyStub {h : HostId} {o : FactoryHost} {s : StubId} {st : FactoryStub} {time : Nat}
      {script : List Call} :
      w.pc = .relayTask ⟨.destroy, h⟩ → w.host h = some o → o.stub = some s →
      w.stub s = some st → st.observer = h → o.refs ≠ 1 →
      (∀ f, st.factory = some f → (w.factory f).isSome) →
      HostMove c w (.run time script) { w with
        factory := w.dropped s st
        stub := update w.stub s none
        host := update w.host h (some { o with refs := o.refs - 1, stub := none })
        pc := .relayReply ⟨.destroy, h⟩
        trace := w.trace ++ [.postDestroy h, .detached h s] }
  | relayReply {r : Relay} {time : Nat} {script : List Call} : w.pc = .relayReply r →
      HostMove c w (.run time script) { w.enqueue c r.host (.reply r) with
        pc := .idle
        trace := w.trace ++ [.posted r.host r.kind.callback] }
  | forward {s : StubId} {data : FactoryData} {st : FactoryStub} {o : FactoryHost} {time : Nat}
      {script : List Call} :
      w.pc = .stubData s data → w.stub s = some st → (st.onDataProduced time).2 = true →
      w.host st.observer = some o →
      HostMove c w (.run time script) { w.enqueue c st.observer (.call st.observer (.onDataProduced data)) with
        stub := update w.stub s (some (st.onDataProduced time).1)
        host := update w.host st.observer (some { o with refs := o.refs + 1 })
        pc := .idle
        trace := w.trace ++ [.offered st.observer time data,
          .posted st.observer (.onDataProduced data)] }
  | hold {s : StubId} {data : FactoryData} {st : FactoryStub} {time : Nat} {script : List Call} :
      w.pc = .stubData s data → w.stub s = some st → (st.onDataProduced time).2 = false →
      HostMove c w (.run time script) { w with
        stub := update w.stub s (some (st.onDataProduced time).1)
        pc := .idle
        trace := w.trace ++ [.offered st.observer time data] }
  | leave {s : StubId} {st : FactoryStub} {f : FactoryId} {fac : Factory} {time : Nat}
      {script : List Call} :
      w.pc = .leave s → w.stub s = some st → st.factory = some f → w.factory f = some fac →
      HostMove c w (.run time script)
        { w.setObservers f fac (fac.observerList.removeObserver (.stub s)) with
          stub := update w.stub s (some { st with factory := none })
          pc := .leavePost s }
  | leavePost {s : StubId} {st : FactoryStub} {o : FactoryHost} {time : Nat} {script : List Call} :
      w.pc = .leavePost s → w.stub s = some st → w.host st.observer = some o →
      HostMove c w (.run time script) { w.enqueue c st.observer (.call st.observer .onFactoryDestory) with
        host := update w.host st.observer (some { o with refs := o.refs + 1 })
        pc := .leaveDestroy s
        trace := w.trace ++ [.posted st.observer .onFactoryDestory] }
  | leaveDestroy {s : StubId} {st : FactoryStub} {o : FactoryHost} {time : Nat}
      {script : List Call} :
      w.pc = .leaveDestroy s → w.stub s = some st → w.host st.observer = some o →
      HostMove c w (.run time script) { w with
        host := update w.host st.observer (some { o with refs := o.refs + 1 })
        pc := .selfDestroy st.observer }
  | selfDestroyNull {h : HostId} {o : FactoryHost} {time : Nat} {script : List Call} :
      w.pc = .selfDestroy h → w.host h = some o → o.stub = none →
      HostMove c w (.run time script) { w with pc := .selfReply h }
  | selfDestroyStub {h : HostId} {o : FactoryHost} {s : StubId} {st : FactoryStub} {time : Nat}
      {script : List Call} :
      w.pc = .selfDestroy h → w.host h = some o → o.stub = some s →
      w.stub s = some st → st.observer = h → o.refs ≠ 1 →
      (∀ f, st.factory = some f → (w.factory f).isSome) →
      HostMove c w (.run time script) { w with
        factory := w.dropped s st
        stub := update w.stub s none
        host := update w.host h (some { o with refs := o.refs - 1, stub := none })
        pc := .selfReply h
        trace := w.trace ++ [.detached h s] }
  | selfReply {h : HostId} {o : FactoryHost} {time : Nat} {script : List Call} :
      w.pc = .selfReply h → w.host h = some o →
      HostMove c w (.run time script) { w.enqueue c h (.call h .replyDestroy) with
        host := update w.host h (some { o with refs := o.refs + 1 })
        pc := .selfDrop h
        trace := w.trace ++ [.posted h .replyDestroy] }
  | selfDrop {h : HostId} {o : FactoryHost} {time : Nat} {script : List Call} :
      w.pc = .selfDrop h → w.host h = some o →
      HostMove c w (.run time script) { w with
        host := update w.host h o.released
        pc := .idle
        trace := w.trace ++ o.deletion h }
  | beginHost {t : ThreadId} {task : HostTask} {q : List HostTask} :
      (w.loop t).pc = .idle → (w.loop t).queue = task :: q →
      HostMove c w (.beginHost t) { w with loop := update w.loop t ⟨q, task.start⟩ }
  | resetTask {t : ThreadId} {r : Relay} {o : FactoryHost} :
      (w.loop t).pc = .resetTask r → w.host r.host = some o →
      HostMove c w (.runHost t) { w.setHostPc t (.runReply r) with
        host := update w.host r.host o.released
        trace := w.trace ++ o.deletion r.host }
  | runReply {t : ThreadId} {r : Relay} {o : FactoryHost} :
      (w.loop t).pc = .runReply r → w.host r.host = some o →
      HostMove c w (.runHost t) { w.setHostPc t (.deleteRelay r) with
        host := update w.host r.host (some (o.handle r.kind.callback))
        trace := w.trace ++ [.handled r.host r.kind.callback] }
  | deleteRelay {t : ThreadId} {r : Relay} {o : FactoryHost} :
      (w.loop t).pc = .deleteRelay r → w.host r.host = some o →
      HostMove c w (.runHost t) { w.setHostPc t .idle with
        host := update w.host r.host o.released
        trace := w.trace ++ o.deletion r.host }
  | runCall {t : ThreadId} {h : HostId} {m : Callback} {o : FactoryHost} :
      (w.loop t).pc = .run h m → w.host h = some o →
      HostMove c w (.runHost t) { w.setHostPc t (.unbind h) with
        host := update w.host h (some (o.handle m))
        trace := w.trace ++ [.handled h m] }
  | unbind {t : ThreadId} {h : HostId} {o : FactoryHost} :
      (w.loop t).pc = .unbind h → w.host h = some o →
      HostMove c w (.runHost t) { w.setHostPc t .idle with
        host := update w.host h o.released
        trace := w.trace ++ o.deletion h }
  | init {h : HostId} {o : FactoryHost} : w.host h = some o →
      HostMove c w (.init h) { w with
        host := update w.host h (some { o with refs := o.refs + 2 })
        tasks := w.tasks ++ [.relay ⟨.init, h⟩]
        trace := w.trace ++ [.initCall h] }
  | destroy {h : HostId} {o : FactoryHost} : w.host h = some o →
      HostMove c w (.destroy h) { w with
        host := update w.host h (some { o with refs := o.refs + 2 })
        tasks := w.tasks ++ [.relay ⟨.destroy, h⟩]
        trace := w.trace ++ [.destroyCall h] }
  | addRef {h : HostId} {o : FactoryHost} : w.external h ≠ 0 → w.host h = some o →
      HostMove c w (.addRef h) { w with
        external := update w.external h (w.external h + 1)
        host := update w.host h (some { o with refs := o.refs + 1 }) }
  | dropRef {h : HostId} {o : FactoryHost} : w.external h ≠ 0 → w.host h = some o →
      HostMove c w (.dropRef h) { w with
        external := update w.external h (w.external h - 1)
        host := update w.host h o.released
        trace := w.trace ++ o.deletion h }

/-- Moves of the Factory. `rest` is the stack below the frame that moves. -/
inductive FactoryMove (w : World) : Event → World → Prop where
  | post {cs : List Call} : FactoryMove w (.post cs) { w with tasks := w.tasks ++ [.calls cs] }
  | tick {us : Nat} : FactoryMove w (.tick us) { w with now := w.now + us }
  | beginCalls {cs : List Call} {ts : List FactoryTask} : w.Idle → w.tasks = .calls cs :: ts →
      FactoryMove w .begin { w with tasks := ts, frames := [.calls cs] }
  | beginSchedule {f : FactoryId} {ts : List FactoryTask} : w.Idle → w.tasks = .schedule f :: ts →
      FactoryMove w .begin { w with
        tasks := ts
        frames := if (w.factory f).isSome then [.schedule f] else []
        trace := w.trace ++ [.taken f] }
  | beginDelayed {i time : Nat} {f : FactoryId} : w.Idle → w.delayed[i]? = some (time, f) →
      time ≤ w.now →
      FactoryMove w (.beginDelayed i) { w with
        delayed := w.delayed.eraseIdx i
        frames := if (w.factory f).isSome then [.schedule f] else []
        trace := w.trace ++ [.taken f] }
  | callsDone {rest : List Frame} {time : Nat} {script : List Call} :
      w.pc = .idle → w.frames = .calls [] :: rest →
      FactoryMove w (.run time script) { w with frames := rest }
  /-- A call that finds nothing to do: no Factory, or one already created, started, stopped. -/
  | skip {k : Call} {ks : List Call} {rest : List Frame} {time : Nat} {script : List Call} :
      w.pc = .idle → w.frames = .calls (k :: ks) :: rest → (w.gFactory = none → k ≠ .create) →
      (∀ f fac, w.gFactory = some f → w.factory f = some fac →
        k = .create ∨ (k = .start ∧ fac.start = true) ∨ (k = .stop ∧ fac.start = false)) →
      FactoryMove w (.run time script) { w with frames := .calls ks :: rest }
  | create {ks : List Call} {rest : List Frame} {time : Nat} {script : List Call} :
      w.pc = .idle → w.frames = .calls (.create :: ks) :: rest → w.gFactory = none →
      FactoryMove w (.run time script) { w.createFactory with frames := .calls ks :: rest }
  | start {f : FactoryId} {fac : Factory} {ks : List Call} {rest : List Frame} {time : Nat}
      {script : List Call} :
      w.pc = .idle → w.frames = .calls (.start :: ks) :: rest → w.gFactory = some f →
      w.factory f = some fac → fac.start = false →
      FactoryMove w (.run time script) { w with
        factory := update w.factory f (some { fac with start := true })
        tasks := w.tasks ++ [.schedule f]
        frames := .calls ks :: rest }
  | stop {f : FactoryId} {fac : Factory} {ks : List Call} {rest : List Frame} {time : Nat}
      {script : List Call} :
      w.pc = .idle → w.frames = .calls (.stop :: ks) :: rest → w.gFactory = some f →
      w.factory f = some fac → fac.start = true →
      FactoryMove w (.run time script) { w with
        factory := update w.factory f (some { fac with start := false })
        frames := .calls ks :: rest }
  | destroyBegin {f : FactoryId} {fac : Factory} {ks : List Call} {rest : List Frame} {time : Nat}
      {script : List Call} :
      w.pc = .idle → w.frames = .calls (.destroy :: ks) :: rest → w.gFactory = some f →
      w.factory f = some fac →
      FactoryMove w (.run time script) { w with
        factory := update w.factory f (some (startNotify .destroyed f fac).1)
        frames := (startNotify .destroyed f fac).2 ++ .destroyed f :: .calls ks :: rest
        trace := w.trace ++ [.destroyBegun f] }
  | addObserver {f : FactoryId} {fac : Factory} {p : PlainId} {ks : List Call} {rest : List Frame}
      {time : Nat} {script : List Call} :
      w.pc = .idle → w.frames = .calls (.addObserver p :: ks) :: rest → w.gFactory = some f →
      w.factory f = some fac →
      FactoryMove w (.run time script)
        { w.setObservers f fac (fac.observerList.addObserver (.plain p)) with
          frames := .calls ks :: rest }
  | removeObserver {f : FactoryId} {fac : Factory} {p : PlainId} {ks : List Call}
      {rest : List Frame} {time : Nat} {script : List Call} :
      w.pc = .idle → w.frames = .calls (.removeObserver p :: ks) :: rest → w.gFactory = some f →
      w.factory f = some fac →
      FactoryMove w (.run time script)
        { w.setObservers f fac (fac.observerList.removeObserver (.plain p)) with
          frames := .calls ks :: rest }
  | scheduleStopped {f : FactoryId} {fac : Factory} {rest : List Frame} {time : Nat}
      {script : List Call} :
      w.pc = .idle → w.frames = .schedule f :: rest → w.factory f = some fac → fac.start = false →
      FactoryMove w (.run time script) { w with
        factory := update w.factory f (some { fac with lastTicks := w.now })
        frames := rest }
  | scheduleNow {f : FactoryId} {fac : Factory} {rest : List Frame} {time : Nat}
      {script : List Call} :
      w.pc = .idle → w.frames = .schedule f :: rest → w.factory f = some fac → fac.start = true →
      fac.period = 0 →
      FactoryMove w (.run time script) { w with
        factory := update w.factory f (some { fac with lastTicks := w.now })
        tasks := w.tasks ++ [.schedule f]
        frames := .produce f :: rest }
  | scheduleLater {f : FactoryId} {fac : Factory} {rest : List Frame} {time : Nat}
      {script : List Call} :
      w.pc = .idle → w.frames = .schedule f :: rest → w.factory f = some fac → fac.start = true →
      fac.period ≠ 0 →
      FactoryMove w (.run time script) { w with
        factory := update w.factory f (some { fac with lastTicks := w.now })
        delayed := w.delayed ++ [(w.now + fac.period, f)]
        frames := .produce f :: rest }
  | produce {f : FactoryId} {fac : Factory} {rest : List Frame} {time : Nat} {script : List Call} :
      w.pc = .idle → w.frames = .produce f :: rest → w.factory f = some fac →
      FactoryMove w (.run time script) { w with
        factory := update w.factory f
          (some (startNotify .produced f { fac with data := .make w.dataId }).1)
        frames := (startNotify .produced f { fac with data := .make w.dataId }).2 ++ .produced :: rest
        trace := w.trace ++ [.produced f w.now (.make w.dataId)] }
  | notifyDead {k : Notice} {f : FactoryId} {index : Nat} {rest : List Frame} {time : Nat}
      {script : List Call} :
      w.pc = .idle → w.frames = .notify k f index :: rest → w.factory f = none →
      FactoryMove w (.run time script) { w with frames := rest }
  | notifyEnd {k : Notice} {f : FactoryId} {fac : Factory} {index : Nat} {rest : List Frame}
      {time : Nat} {script : List Call} :
      w.pc = .idle → w.frames = .notify k f index :: rest → w.factory f = some fac →
      fac.observerList.getNext index = none →
      FactoryMove w (.run time script)
        { w.setObservers f fac fac.observerList.endNotify with frames := rest }
  | notifyPlain {k : Notice} {f : FactoryId} {fac : Factory} {p : PlainId} {index next : Nat}
      {rest : List Frame} {time : Nat} {script : List Call} :
      w.pc = .idle → w.frames = .notify k f index :: rest → w.factory f = some fac →
      fac.observerList.getNext index = some (.plain p, next) →
      FactoryMove w (.run time script) { w with
        frames := .calls script :: .notify k f next :: rest
        trace := w.trace ++ [.notified k f (.plain p)] }
  | notifyProduced {f : FactoryId} {fac : Factory} {s : StubId} {index next : Nat}
      {rest : List Frame} {time : Nat} {script : List Call} :
      w.pc = .idle → w.frames = .notify .produced f index :: rest → w.factory f = some fac →
      fac.observerList.getNext index = some (.stub s, next) →
      FactoryMove w (.run time script) { w with
        frames := .notify .produced f next :: rest
        pc := .stubData s fac.data
        trace := w.trace ++ [.notified .produced f (.stub s)] }
  | notifyDestroyed {f : FactoryId} {fac : Factory} {s : StubId} {index next : Nat}
      {rest : List Frame} {time : Nat} {script : List Call} :
      w.pc = .idle → w.frames = .notify .destroyed f index :: rest → w.factory f = some fac →
      fac.observerList.getNext index = some (.stub s, next) →
      FactoryMove w (.run time script) { w with
        frames := .notify .destroyed f next :: rest
        pc := .leave s
        trace := w.trace ++ [.notified .destroyed f (.stub s)] }
  | produced {rest : List Frame} {time : Nat} {script : List Call} :
      w.pc = .idle → w.frames = .produced :: rest →
      FactoryMove w (.run time script) { w with dataId := w.dataId + 1, frames := rest }
  | destroyed {f : FactoryId} {fac : Factory} {rest : List Frame} {time : Nat}
      {script : List Call} :
      w.pc = .idle → w.frames = .destroyed f :: rest → w.factory f = some fac →
      FactoryMove w (.run time script) { w with
        factory := update w.factory f none
        gFactory := none
        frames := rest
        trace := w.trace ++ [.deleted f] }

/-- PostDestroy deletes the stub of its own host, or finds `stub_` NULL. -/
theorem postDestroy_cases {w w' : World} {h : HostId} (hw : w.Owned)
    (he : w.postDestroy h = some w') : ∃ o, w.host h = some o ∧
      ((o.stub = none ∧ w' = w) ∨
      ∃ s st, o.stub = some s ∧ w.stub s = some st ∧ st.observer = h ∧ o.refs ≠ 1 ∧
        (∀ f, st.factory = some f → (w.factory f).isSome) ∧
        w' = { w with
          factory := w.dropped s st
          stub := update w.stub s none
          host := update w.host h (some { o with refs := o.refs - 1, stub := none })
          trace := w.trace ++ [.detached h s] }) := by
  obtain ⟨o, ho, he⟩ := Option.bind_eq_some_iff.mp he
  refine ⟨o, ho, ?_⟩
  cases hs : o.stub with
  | none => exact .inl ⟨rfl, by simpa [hs] using he.symm⟩
  | some s =>
    simp only [hs] at he
    obtain ⟨w₁, h₁, he⟩ := Option.bind_eq_some_iff.mp he
    obtain ⟨st, o₁, hst, hlive, ho₁, rfl⟩ := deleteStub_eq_some.mp h₁
    obtain ⟨st', hst', hobs⟩ := hw h o s ho hs
    obtain rfl : st' = st := by simpa [hst'] using hst
    obtain rfl := hobs
    obtain rfl : o₁ = o := by simpa [ho₁] using ho
    obtain ⟨o₂, ho₂, he⟩ := Option.bind_eq_some_iff.mp he
    simp only [Function.update_self, FactoryHost.released] at ho₂
    split at ho₂
    · cases ho₂
    · rename_i hone
      obtain rfl := Option.some.inj ho₂
      refine .inr ⟨s, st', rfl, hst', rfl, hone, hlive, ?_⟩
      simpa [FactoryHost.released, FactoryHost.deletion, hone] using he.symm

theorem runPc_move {c : Config} {w w' : World} {time : Nat} {script : List Call} (hw : w.Owned)
    (he : w.runPc c time w.pc = some w') : HostMove c w (.run time script) w' := by
  generalize hpc : w.pc = pc at he
  cases pc with
  | idle => cases he
  | relayTask r =>
    obtain ⟨w₁, h₁, he⟩ := Option.bind_eq_some_iff.mp he
    obtain rfl := Option.some.inj he
    obtain ⟨kind, h⟩ := r
    cases kind with
    | init =>
      obtain ⟨f, fac, o, hf, hfac, ho, rfl⟩ := postInit_eq_some.mp h₁
      exact .postInit hpc hf hfac ho
    | destroy =>
      obtain ⟨o, ho, ⟨hs, rfl⟩ | ⟨s, st, hs, hst, hobs, hone, hlive, rfl⟩⟩ :=
        postDestroy_cases (by exact hw) h₁
      · exact .relayDestroyNull hpc ho hs
      · simp only [List.append_assoc, List.cons_append, List.nil_append]
        exact .relayDestroyStub hpc ho hs hst hobs hone hlive
  | relayReply r =>
    obtain rfl := Option.some.inj he
    exact .relayReply hpc
  | stubData s data =>
    obtain ⟨w₁, h₁, he⟩ := Option.bind_eq_some_iff.mp he
    obtain rfl := Option.some.inj he
    obtain ⟨st, hst, ⟨hfwd, o, ho, rfl⟩ | ⟨hhold, rfl⟩⟩ := stubOnDataProduced_eq_some.mp h₁
    · exact .forward hpc hst hfwd ho
    · exact .hold hpc hst hhold
  | leave s =>
    obtain ⟨w₁, h₁, he⟩ := Option.bind_eq_some_iff.mp he
    obtain rfl := Option.some.inj he
    obtain ⟨st, f, fac, hst, hf, hfac, rfl⟩ := stubLeave_eq_some.mp h₁
    exact .leave hpc hst hf hfac
  | leavePost s =>
    obtain ⟨st, hst, he⟩ := Option.bind_eq_some_iff.mp he
    obtain ⟨w₁, h₁, he⟩ := Option.bind_eq_some_iff.mp he
    obtain rfl := Option.some.inj he
    obtain ⟨o, ho, rfl⟩ := postCallback_eq_some.mp h₁
    exact .leavePost hpc hst ho
  | leaveDestroy s =>
    obtain ⟨st, hst, he⟩ := Option.bind_eq_some_iff.mp he
    obtain ⟨w₁, h₁, he⟩ := Option.bind_eq_some_iff.mp he
    obtain rfl := Option.some.inj he
    obtain ⟨o, ho, rfl⟩ := addRef_eq_some.mp h₁
    exact .leaveDestroy hpc hst ho
  | selfDestroy h =>
    obtain ⟨w₁, h₁, he⟩ := Option.bind_eq_some_iff.mp he
    obtain rfl := Option.some.inj he
    obtain ⟨o, ho, ⟨hs, rfl⟩ | ⟨s, st, hs, hst, hobs, hone, hlive, rfl⟩⟩ := postDestroy_cases hw h₁
    · exact .selfDestroyNull hpc ho hs
    · exact .selfDestroyStub hpc ho hs hst hobs hone hlive
  | selfReply h =>
    obtain ⟨w₁, h₁, he⟩ := Option.bind_eq_some_iff.mp he
    obtain rfl := Option.some.inj he
    obtain ⟨o, ho, rfl⟩ := postCallback_eq_some.mp h₁
    exact .selfReply hpc ho
  | selfDrop h =>
    obtain ⟨w₁, h₁, he⟩ := Option.bind_eq_some_iff.mp he
    obtain rfl := Option.some.inj he
    obtain ⟨o, ho, rfl⟩ := release_eq_some.mp h₁
    exact .selfDrop hpc ho

theorem runHost_move {c : Config} {w w' : World} {t : ThreadId}
    (he : w.runHost t (w.loop t).pc = some w') : HostMove c w (.runHost t) w' := by
  generalize hpc : (w.loop t).pc = pc at he
  cases pc with
  | idle => cases he
  | resetTask r =>
    obtain ⟨w₁, h₁, he⟩ := Option.bind_eq_some_iff.mp he
    obtain rfl := Option.some.inj he
    obtain ⟨o, ho, rfl⟩ := release_eq_some.mp h₁
    exact .resetTask hpc ho
  | runReply r =>
    obtain ⟨w₁, h₁, he⟩ := Option.bind_eq_some_iff.mp he
    obtain rfl := Option.some.inj he
    obtain ⟨o, ho, rfl⟩ := handle_eq_some.mp h₁
    exact .runReply hpc ho
  | deleteRelay r =>
    obtain ⟨w₁, h₁, he⟩ := Option.bind_eq_some_iff.mp he
    obtain rfl := Option.some.inj he
    obtain ⟨o, ho, rfl⟩ := release_eq_some.mp h₁
    exact .deleteRelay hpc ho
  | run h m =>
    obtain ⟨w₁, h₁, he⟩ := Option.bind_eq_some_iff.mp he
    obtain rfl := Option.some.inj he
    obtain ⟨o, ho, rfl⟩ := handle_eq_some.mp h₁
    exact .runCall hpc ho
  | unbind h =>
    obtain ⟨w₁, h₁, he⟩ := Option.bind_eq_some_iff.mp he
    obtain rfl := Option.some.inj he
    obtain ⟨o, ho, rfl⟩ := release_eq_some.mp h₁
    exact .unbind hpc ho

theorem call_move {w w' : World} {k : Call} {ks : List Call} {rest : List Frame} {time : Nat}
    {script : List Call} (hpc : w.pc = .idle) (hfr : w.frames = .calls (k :: ks) :: rest)
    (he : w.call (.calls ks :: rest) k = some w') : FactoryMove w (.run time script) w' := by
  cases k with
  | create =>
    simp only [World.call] at he
    split at he <;> obtain rfl := Option.some.inj he
    · rename_i hg
      exact .skip hpc hfr (by simp [hg]) (fun _ _ _ _ => .inl rfl)
    · rename_i hg
      exact .create hpc hfr hg
  | start =>
    simp only [World.call] at he
    split at he
    · rename_i f hg
      obtain ⟨fac, hfac, he⟩ := Option.bind_eq_some_iff.mp he
      by_cases hst : fac.start = true
      · rw [if_pos hst] at he
        obtain rfl := Option.some.inj he
        refine .skip hpc hfr (by simp) ?_
        intro f' fac' hf' hfac'
        obtain rfl := Option.some.inj (hg.symm.trans hf')
        obtain rfl := Option.some.inj (hfac.symm.trans hfac')
        exact .inr (.inl ⟨rfl, hst⟩)
      · rw [if_neg hst] at he
        obtain rfl := Option.some.inj he
        exact .start hpc hfr hg hfac (by simpa using hst)
    · rename_i hg
      obtain rfl := Option.some.inj he
      exact .skip hpc hfr (by simp) (by simp [hg])
  | stop =>
    simp only [World.call] at he
    split at he
    · rename_i f hg
      obtain ⟨fac, hfac, he⟩ := Option.bind_eq_some_iff.mp he
      by_cases hst : fac.start = true
      · rw [if_pos hst] at he
        obtain rfl := Option.some.inj he
        exact .stop hpc hfr hg hfac hst
      · rw [if_neg hst] at he
        obtain rfl := Option.some.inj he
        refine .skip hpc hfr (by simp) ?_
        intro f' fac' hf' hfac'
        obtain rfl := Option.some.inj (hg.symm.trans hf')
        obtain rfl := Option.some.inj (hfac.symm.trans hfac')
        exact .inr (.inr ⟨rfl, by simpa using hst⟩)
    · rename_i hg
      obtain rfl := Option.some.inj he
      exact .skip hpc hfr (by simp) (by simp [hg])
  | destroy =>
    simp only [World.call] at he
    split at he
    · rename_i f hg
      obtain ⟨fac, hfac, he⟩ := Option.bind_eq_some_iff.mp he
      obtain rfl := Option.some.inj he
      exact .destroyBegin hpc hfr hg hfac
    · rename_i hg
      obtain rfl := Option.some.inj he
      exact .skip hpc hfr (by simp) (by simp [hg])
  | addObserver p =>
    simp only [World.call] at he
    split at he
    · rename_i f hg
      obtain ⟨fac, hfac, he⟩ := Option.bind_eq_some_iff.mp he
      obtain rfl := Option.some.inj he
      exact .addObserver hpc hfr hg hfac
    · rename_i hg
      obtain rfl := Option.some.inj he
      exact .skip hpc hfr (by simp) (by simp [hg])
  | removeObserver p =>
    simp only [World.call] at he
    split at he
    · rename_i f hg
      obtain ⟨fac, hfac, he⟩ := Option.bind_eq_some_iff.mp he
      obtain rfl := Option.some.inj he
      exact .removeObserver hpc hfr hg hfac
    · rename_i hg
      obtain rfl := Option.some.inj he
      exact .skip hpc hfr (by simp) (by simp [hg])

theorem notifyNext_move {w w' : World} {k : Notice} {f : FactoryId} {index : Nat}
    {rest : List Frame} {time : Nat} {script : List Call} (hpc : w.pc = .idle)
    (hfr : w.frames = .notify k f index :: rest)
    (he : w.notifyNext script k f index rest = some w') : FactoryMove w (.run time script) w' := by
  cases hfac : w.factory f with
  | none =>
    simp only [World.notifyNext, hfac, Option.some.injEq] at he
    subst he
    exact .notifyDead hpc hfr hfac
  | some fac =>
    cases hn : fac.observerList.getNext index with
    | none =>
      simp only [World.notifyNext, hfac, hn, Option.some.injEq] at he
      subst he
      exact .notifyEnd hpc hfr hfac hn
    | some p =>
      obtain ⟨obs, next⟩ := p
      cases obs with
      | plain p =>
        simp only [World.notifyNext, hfac, hn, Option.some.injEq] at he
        subst he
        exact .notifyPlain hpc hfr hfac hn
      | stub s =>
        simp only [World.notifyNext, hfac, hn, Option.some.injEq] at he
        subst he
        cases k with
        | produced => exact .notifyProduced hpc hfr hfac hn
        | destroyed => exact .notifyDestroyed hpc hfr hfac hn

theorem runFrame_move {w w' : World} {fr : Frame} {rest : List Frame} {time : Nat}
    {script : List Call} (hpc : w.pc = .idle) (hfr : w.frames = fr :: rest)
    (he : w.runFrame script rest fr = some w') : FactoryMove w (.run time script) w' := by
  cases fr with
  | calls cs =>
    cases cs with
    | nil =>
      obtain rfl := Option.some.inj he
      exact .callsDone hpc hfr
    | cons k ks => exact call_move hpc hfr he
  | schedule f =>
    obtain ⟨fac, hfac, he⟩ := Option.bind_eq_some_iff.mp he
    dsimp only at he
    by_cases hst : fac.start = true
    · rw [if_pos hst] at he
      by_cases hper : fac.period = 0
      · rw [if_pos (by exact hper)] at he
        obtain rfl := Option.some.inj he
        exact .scheduleNow hpc hfr hfac hst hper
      · rw [if_neg (by exact hper)] at he
        obtain rfl := Option.some.inj he
        exact .scheduleLater hpc hfr hfac hst hper
    · rw [if_neg hst] at he
      obtain rfl := Option.some.inj he
      exact .scheduleStopped hpc hfr hfac (by simpa using hst)
  | produce f =>
    obtain ⟨fac, hfac, he⟩ := Option.bind_eq_some_iff.mp he
    obtain rfl := Option.some.inj he
    exact .produce hpc hfr hfac
  | notify k f index => exact notifyNext_move hpc hfr he
  | produced =>
    obtain rfl := Option.some.inj he
    exact .produced hpc hfr
  | destroyed f =>
    obtain ⟨fac, hfac, he⟩ := Option.bind_eq_some_iff.mp he
    obtain rfl := Option.some.inj he
    exact .destroyed hpc hfr hfac

theorem begin_cases {c : Config} {w : World} {t : FactoryTask} {ts : List FactoryTask}
    (hidle : w.Idle) (hts : w.tasks = t :: ts) :
    HostMove c w .begin ({ w with tasks := ts }.beginTask t) ∨
      FactoryMove w .begin ({ w with tasks := ts }.beginTask t) := by
  cases t with
  | relay r => exact .inl (.beginRelay hidle hts)
  | schedule f => exact .inr (.beginSchedule hidle hts)
  | calls cs => exact .inr (.beginCalls hidle hts)

/-- A step runs the code of hosts and stubs on the factory thread, or is one of the other moves. -/
theorem step_cases_pc {c : Config} {w w' : World} {e : Event} (he : step c w e = some w') :
    (∃ time script, e = .run time script ∧ w.runPc c time w.pc = some w') ∨
      HostMove c w e w' ∨ FactoryMove w e w' := by
  cases e with
  | post cs =>
    obtain rfl := Option.some.inj he
    exact .inr (.inr .post)
  | begin =>
    simp only [step] at he
    split at he
    · rename_i hidle
      split at he
      · cases he
      · rename_i t ts hts
        obtain rfl := Option.some.inj he
        exact .inr (begin_cases hidle hts)
    · cases he
  | beginDelayed i =>
    simp only [step] at he
    split at he
    · rename_i hidle
      split at he
      · cases he
      · rename_i time f hd
        split at he
        · rename_i hle
          obtain rfl := Option.some.inj he
          exact .inr (.inr (.beginDelayed hidle hd hle))
        · cases he
    · cases he
  | run time script =>
    simp only [step] at he
    split at he
    · rename_i hpc
      split at he
      · cases he
      · rename_i fr rest hfr
        exact .inr (.inr (runFrame_move hpc hfr he))
    · exact .inl ⟨time, script, rfl, he⟩
  | beginHost t =>
    simp only [step] at he
    split at he
    · rename_i hpc
      split at he
      · cases he
      · rename_i task q hq
        obtain rfl := Option.some.inj he
        exact .inr (.inl (.beginHost hpc hq))
    · cases he
  | runHost t => exact .inr (.inl (runHost_move he))
  | init h =>
    obtain ⟨o, ho, rfl⟩ := postRelay_eq_some.mp he
    exact .inr (.inl (.init ho))
  | destroy h =>
    obtain ⟨o, ho, rfl⟩ := postRelay_eq_some.mp he
    exact .inr (.inl (.destroy ho))
  | addRef h =>
    simp only [step] at he
    split at he
    · cases he
    · rename_i hne
      obtain ⟨o, ho, rfl⟩ := addRef_eq_some.mp he
      exact .inr (.inl (.addRef hne ho))
  | dropRef h =>
    simp only [step] at he
    split at he
    · cases he
    · rename_i hne
      obtain ⟨o, ho, rfl⟩ := release_eq_some.mp he
      exact .inr (.inl (.dropRef hne ho))
  | tick us =>
    obtain rfl := Option.some.inj he
    exact .inr (.inr .tick)

/-- Every step is one of the moves. -/
theorem step_cases {c : Config} {w w' : World} {e : Event} (hw : w.Owned)
    (he : step c w e = some w') : HostMove c w e w' ∨ FactoryMove w e w' := by
  obtain ⟨time, script, rfl, hrun⟩ | hm := step_cases_pc he
  · exact .inl (runPc_move hw hrun)
  · exact hm

/-- `delete stub_` of a host with other references. -/
theorem postDestroy_of_stub {w : World} {h : HostId} {o : FactoryHost} {s : StubId} {st : FactoryStub}
    (ho : w.host h = some o) (hs : o.stub = some s) (hst : w.stub s = some st) (hobs : st.observer = h)
    (hone : o.refs ≠ 1) (hlive : ∀ f, st.factory = some f → (w.factory f).isSome) :
    w.postDestroy h = some { w with
      factory := w.dropped s st
      stub := update w.stub s none
      host := update w.host h (some { o with refs := o.refs - 1, stub := none })
      trace := w.trace ++ [.detached h s] } := by
  subst hobs
  have hdel := deleteStub_eq_some.mpr ⟨st, o, hst, hlive, ho, rfl⟩
  simp [postDestroy, ho, hs, hdel, FactoryHost.released, FactoryHost.deletion, hone]

/-- A call that finds nothing to do. -/
theorem call_skip {w : World} {k : Call} {rest : List Frame}
    (hlive : ∀ f, w.gFactory = some f → (w.factory f).isSome) (hnone : w.gFactory = none → k ≠ .create)
    (hsome : ∀ f fac, w.gFactory = some f → w.factory f = some fac →
      k = .create ∨ (k = .start ∧ fac.start = true) ∨ (k = .stop ∧ fac.start = false)) :
    w.call rest k = some { w with frames := rest } := by
  cases hg : w.gFactory with
  | none => cases k <;> simp_all [World.call]
  | some f =>
    obtain ⟨fac, hfac⟩ := Option.isSome_iff_exists.mp (hlive f hg)
    obtain rfl | ⟨rfl, hs⟩ | ⟨rfl, hs⟩ := hsome f fac hg hfac
    · simp [World.call, hg]
    · simp [World.call, factoryStart, hg, hfac, hs]
    · simp [World.call, factoryStop, hg, hfac, hs]

variable {c : Config} {w w' : World} {e : Event}

theorem step_frame {fr : Frame} {rest : List Frame} {time : Nat} {script : List Call}
    (hpc : w.pc = .idle) (hfr : w.frames = fr :: rest) :
    step c w (.run time script) = w.runFrame script rest fr := by
  simp only [step, hpc, hfr]

theorem step_pc {pc : Pc} {time : Nat} {script : List Call} (hpc : w.pc = pc) (hne : pc ≠ .idle) :
    step c w (.run time script) = w.runPc c time pc := by
  subst hpc
  simp only [step]

/-- Every move of the host side is a step. -/
theorem step_of_hostMove (hm : HostMove c w e w') : step c w e = some w' := by
  cases hm with
  | beginRelay hidle hts => simp [step, hidle, hts, beginTask]
  | postInit hpc hg hfac ho =>
    rw [step_pc hpc (by simp)]
    simp [runPc, relayTask, (postInit_eq_some (c := c)).mpr ⟨_, _, _, hg, hfac, ho, rfl⟩]
  | relayDestroyNull hpc ho hs =>
    rw [step_pc hpc (by simp)]
    simp [runPc, relayTask, postDestroy, ho, hs]
  | @relayDestroyStub h o s st time script hpc ho hs hst hobs hone hlive =>
    have hpost := postDestroy_of_stub (w := { w with trace := w.trace ++ [.postDestroy h] }) ho hs hst
      hobs hone hlive
    rw [step_pc hpc (by simp)]
    simp only [runPc, relayTask, hpost, Option.bind_eq_bind, Option.bind_some]
    simp [dropped]
  | relayReply hpc => exact step_pc hpc (by simp)
  | forward hpc hst hf ho =>
    rw [step_pc hpc (by simp)]
    simp [runPc, (stubOnDataProduced_eq_some (c := c)).mpr ⟨_, hst, .inl ⟨hf, _, ho, rfl⟩⟩]
  | hold hpc hst hf =>
    rw [step_pc hpc (by simp)]
    simp [runPc, (stubOnDataProduced_eq_some (c := c)).mpr ⟨_, hst, .inr ⟨hf, rfl⟩⟩]
  | leave hpc hst hf hfac =>
    rw [step_pc hpc (by simp)]
    simp [runPc, stubLeave, hst, hf, hfac]
  | leavePost hpc hst ho =>
    rw [step_pc hpc (by simp)]
    simp [runPc, hst, (postCallback_eq_some (c := c)).mpr ⟨_, ho, rfl⟩]
  | leaveDestroy hpc hst ho =>
    rw [step_pc hpc (by simp)]
    simp [runPc, World.addRef, hst, ho]
  | selfDestroyNull hpc ho hs =>
    rw [step_pc hpc (by simp)]
    simp [runPc, postDestroy, ho, hs]
  | selfDestroyStub hpc ho hs hst hobs hone hlive =>
    rw [step_pc hpc (by simp)]
    simp [runPc, postDestroy_of_stub ho hs hst hobs hone hlive]
  | selfReply hpc ho =>
    rw [step_pc hpc (by simp)]
    simp [runPc, (postCallback_eq_some (c := c)).mpr ⟨_, ho, rfl⟩]
  | selfDrop hpc ho =>
    rw [step_pc hpc (by simp)]
    simp [runPc, World.release, ho]
  | beginHost hpc hq => simp [step, hpc, hq]
  | resetTask hpc ho | deleteRelay hpc ho | unbind hpc ho =>
    simp [step, World.runHost, World.release, setHostPc, hpc, ho]
  | runReply hpc ho | runCall hpc ho => simp [step, World.runHost, World.handle, setHostPc, hpc, ho]
  | init ho | destroy ho => simp [step, postRelay, ho]
  | addRef hne ho => simp [step, World.addRef, hne, ho]
  | dropRef hne ho => simp [step, World.release, hne, ho]

/-- Every move of the factory side is a step, as long as `g_factory` does not dangle. -/
theorem step_of_factoryMove (hm : FactoryMove w e w') (hlive : ∀ f, w.gFactory = some f → (w.factory f).isSome) :
    step c w e = some w' := by
  cases hm with
  | post | tick => rfl
  | beginCalls hidle hts | beginSchedule hidle hts => simp [step, hidle, hts, beginTask]
  | beginDelayed hidle hd hle => simp [step, hidle, hd, hle, beginTask]
  | callsDone hpc hw | produced hpc hw => exact step_frame hpc hw
  | skip hpc hw hnone hsome => exact (step_frame hpc hw).trans (call_skip hlive hnone hsome)
  | create hpc hw hg =>
    rw [step_frame hpc hw]
    simp [runFrame, World.call, hg]
  | start hpc hw hg hfac hs | stop hpc hw hg hfac hs =>
    rw [step_frame hpc hw]
    simp [runFrame, World.call, factoryStart, factoryStop, hg, hfac, hs]
  | destroyBegin hpc hw hg hfac =>
    rw [step_frame hpc hw]
    simp [runFrame, World.call, factoryDestroy, hg, hfac]
  | addObserver hpc hw hg hfac | removeObserver hpc hw hg hfac =>
    rw [step_frame hpc hw]
    simp [runFrame, World.call, setObservers, hg, hfac]
  | scheduleStopped hpc hw hfac hs =>
    rw [step_frame hpc hw]
    simp [runFrame, factorySchedule, hfac, hs]
  | scheduleNow hpc hw hfac hs hp =>
    rw [step_frame hpc hw]
    simp only [runFrame, factorySchedule, hfac, Option.bind_eq_bind, Option.bind_some]
    rw [if_pos hs, if_pos (by exact hp)]
  | scheduleLater hpc hw hfac hs hp =>
    rw [step_frame hpc hw]
    simp only [runFrame, factorySchedule, hfac, Option.bind_eq_bind, Option.bind_some]
    rw [if_pos hs, if_neg (by exact hp)]
    rfl
  | produce hpc hw hfac =>
    rw [step_frame hpc hw]
    simp [runFrame, factoryProduce, hfac]
  | notifyDead hpc hw hfac =>
    rw [step_frame hpc hw]
    simp [runFrame, notifyNext, hfac]
  | notifyEnd hpc hw hfac hn | notifyPlain hpc hw hfac hn | notifyProduced hpc hw hfac hn
  | notifyDestroyed hpc hw hfac hn =>
    rw [step_frame hpc hw]
    simp [runFrame, notifyNext, setObservers, hfac, hn]
  | destroyed hpc hw hfac =>
    rw [step_frame hpc hw]
    simp [runFrame, factoryDelete, hfac]

/-- Ids of Factories are not given again, so that a deleted one never comes back. -/
structure Onward (w w' : World) : Prop where
  fresh : w.freshFactory ≤ w'.freshFactory
  gone : ∀ f, f < w.freshFactory → w.factory f = none → w'.factory f = none

namespace Onward

variable {c : Config} {w w' w'' : World}

theorem of_eq (hfac : w'.factory = w.factory) (hfresh : w'.freshFactory = w.freshFactory) : Onward w w' :=
  ⟨Nat.le_of_eq hfresh.symm, fun _ _ h => hfac ▸ h⟩

theorem trans (h : Onward w w') (h' : Onward w' w'') : Onward w w'' :=
  ⟨Nat.le_trans h.fresh h'.fresh, fun f hf hn => h'.gone f (Nat.lt_of_lt_of_le hf h.fresh) (h.gone f hf hn)⟩

/-- A Factory that is alive changes. -/
theorem of_update {f : FactoryId} {fac : Factory} {fac' : Option Factory} (hf : w.factory f = some fac)
    (hfac : w'.factory = update w.factory f fac') (hfresh : w'.freshFactory = w.freshFactory) :
    Onward w w' := by
  refine ⟨Nat.le_of_eq hfresh.symm, fun b _ hb => ?_⟩
  have hne : b ≠ f := by
    rintro rfl
    rw [hf] at hb
    cases hb
  rw [hfac, Function.update_of_ne hne, hb]

theorem dropped {s : StubId} {st : FactoryStub} (hfac : w'.factory = w.dropped s st)
    (hfresh : w'.freshFactory = w.freshFactory) : Onward w w' := by
  refine ⟨Nat.le_of_eq hfresh.symm, fun b _ hb => ?_⟩
  rw [hfac, World.dropped]
  cases st.factory with
  | none => exact hb
  | some f =>
    obtain rfl | hne := eq_or_ne b f
    · simp [hb]
    · simpa [Function.update_of_ne hne] using hb

theorem postDestroy {h : HostId} (he : w.postDestroy h = some w') : Onward w w' := by
  obtain ⟨o, -, he⟩ := Option.bind_eq_some_iff.mp he
  cases hs : o.stub with
  | none =>
    simp only [hs, Option.some.injEq] at he
    exact .of_eq (he ▸ rfl) (he ▸ rfl)
  | some s =>
    simp only [hs] at he
    obtain ⟨w₁, h₁, he⟩ := Option.bind_eq_some_iff.mp he
    obtain ⟨st, o₁, -, -, -, rfl⟩ := deleteStub_eq_some.mp h₁
    obtain ⟨o₂, -, he⟩ := Option.bind_eq_some_iff.mp he
    obtain rfl := Option.some.inj he
    exact .dropped rfl rfl

theorem factoryMove {e : Event} (hm : FactoryMove w e w') : Onward w w' := by
  cases hm with
  | create =>
    refine ⟨Nat.le_succ _, fun b hb hn => ?_⟩
    simpa [createFactory, Function.update_of_ne (Nat.ne_of_lt hb)] using hn
  | start _ _ _ hf | stop _ _ _ hf | destroyBegin _ _ _ hf | addObserver _ _ _ hf | removeObserver _ _ _ hf
  | scheduleStopped _ _ hf | scheduleNow _ _ hf | scheduleLater _ _ hf | produce _ _ hf | notifyEnd _ _ hf
  | destroyed _ _ hf => exact .of_update hf rfl rfl
  | _ => exact .of_eq rfl rfl

/-- The code of hosts and stubs changes only Factories that are alive. -/
theorem runPc {time : Nat} {pc : Pc} (he : w.runPc c time pc = some w') : Onward w w' := by
  cases pc with
  | idle => cases he
  | relayReply r =>
    obtain rfl := Option.some.inj he
    exact .of_eq rfl rfl
  | relayTask r =>
    obtain ⟨w₁, h₁, he⟩ := Option.bind_eq_some_iff.mp he
    obtain rfl := Option.some.inj he
    obtain ⟨kind, h⟩ := r
    cases kind with
    | init =>
      obtain ⟨f, fac, o, -, hf, -, rfl⟩ := postInit_eq_some.mp h₁
      exact .of_update hf rfl rfl
    | destroy =>
      have h₂ : Onward { w with trace := w.trace ++ [.postDestroy h] } w₁ := postDestroy h₁
      exact ⟨h₂.fresh, h₂.gone⟩
  | stubData s data =>
    obtain ⟨w₁, h₁, he⟩ := Option.bind_eq_some_iff.mp he
    obtain rfl := Option.some.inj he
    obtain ⟨st, -, ⟨-, o, -, rfl⟩ | ⟨-, rfl⟩⟩ := stubOnDataProduced_eq_some.mp h₁ <;> exact .of_eq rfl rfl
  | leave s =>
    obtain ⟨w₁, h₁, he⟩ := Option.bind_eq_some_iff.mp he
    obtain rfl := Option.some.inj he
    obtain ⟨st, f, fac, -, -, hf, rfl⟩ := stubLeave_eq_some.mp h₁
    exact .of_update hf rfl rfl
  | leavePost s =>
    obtain ⟨st, -, he⟩ := Option.bind_eq_some_iff.mp he
    obtain ⟨w₁, h₁, he⟩ := Option.bind_eq_some_iff.mp he
    obtain rfl := Option.some.inj he
    obtain ⟨o, -, rfl⟩ := postCallback_eq_some.mp h₁
    exact .of_eq rfl rfl
  | leaveDestroy s =>
    obtain ⟨st, -, he⟩ := Option.bind_eq_some_iff.mp he
    obtain ⟨w₁, h₁, he⟩ := Option.bind_eq_some_iff.mp he
    obtain rfl := Option.some.inj he
    obtain ⟨o, -, rfl⟩ := addRef_eq_some.mp h₁
    exact .of_eq rfl rfl
  | selfDestroy h =>
    obtain ⟨w₁, h₁, he⟩ := Option.bind_eq_some_iff.mp he
    obtain rfl := Option.some.inj he
    exact (postDestroy h₁).trans (.of_eq rfl rfl)
  | selfReply h =>
    obtain ⟨w₁, h₁, he⟩ := Option.bind_eq_some_iff.mp he
    obtain rfl := Option.some.inj he
    obtain ⟨o, -, rfl⟩ := postCallback_eq_some.mp h₁
    exact .of_eq rfl rfl
  | selfDrop h =>
    obtain ⟨w₁, h₁, he⟩ := Option.bind_eq_some_iff.mp he
    obtain rfl := Option.some.inj he
    obtain ⟨o, -, rfl⟩ := release_eq_some.mp h₁
    exact .of_eq rfl rfl

theorem of_step {e : Event} (he : step c w e = some w') : Onward w w' := by
  obtain ⟨time, script, rfl, hrun⟩ | hm | hm := step_cases_pc he
  · exact .runPc hrun
  · cases hm with
    | postInit _ _ hf | leave _ _ _ hf => exact .of_update hf rfl rfl
    | relayDestroyStub | selfDestroyStub => exact .dropped rfl rfl
    | _ => exact .of_eq rfl rfl
  · exact .factoryMove hm

theorem of_reaches {P : World → Event → Prop} (hr : GuardedRun.Reaches (step c) P w w') : Onward w w' :=
  hr.invariant (fun _ _ _ h _ he => h.trans (.of_step he)) (.of_eq rfl rfl)

end Onward

end OscDataProcess
