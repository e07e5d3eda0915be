import OscDataProcess.ObserverList
import Mathlib.Logic.Function.Basic

/-!
# Objects, queues and the state of the whole deployment

The fields follow factory.h, factory_data.h, factory_host.h,
freq_factory_host.h and observer_cross_thread.h. A pointer is an identifier
that is never reused; a heap maps it to the object, `none` once deleted.
-/
namespace OscDataProcess

abbrev HostId := Nat
abbrev ThreadId := Nat
abbrev StubId := Nat
abbrev FactoryId := Nat
abbrev PlainId := Nat

/-- `FactoryObserver*`: the stub of a host, or an observer of any other class. -/
inductive Observer where
  | stub (s : StubId)
  | plain (p : PlainId)
  deriving DecidableEq, Repr

structure FactoryData where
  id : BitVec 32
  data : List Char
  deriving DecidableEq, Repr

structure Factory where
  start : Bool
  speed : Nat
  lastTicks : Nat
  data : FactoryData
  observerList : ObserverList Observer
  deriving DecidableEq, Repr

/-- `freq_` and `last_notify_time_` of a FreqFactoryHostStub. A `base::Time` counts
microseconds since 1601, and zero is the null time. -/
structure FreqLimiter where
  freq : Nat
  lastNotifyTime : Nat
  deriving DecidableEq, Repr

/-- A FactoryStub; one with a limiter is a FreqFactoryHostStub. -/
structure FactoryStub where
  observer : HostId
  factory : Option FactoryId
  limiter : Option FreqLimiter
  deriving DecidableEq, Repr

/-- An ObserverCrossThread with the fields of FactoryHost and its reference count. -/
structure FactoryHost where
  stub : Option StubId
  init : Bool
  destroy : Bool
  data : Option FactoryData
  receive : Nat
  destroyTime : Nat
  factoryDestroy : Nat
  refs : Nat
  deriving DecidableEq, Repr

/-- The constructor arguments of each host: the thread it posts to and, for a
FreqFactoryHost, `init_freq_`. -/
structure Config where
  hostThread : HostId → ThreadId
  freq : HostId → Option Nat

/-- A thread of its own for every host, and no FreqFactoryHost. -/
def Config.plain : Config := ⟨id, fun _ => none⟩

/-- What a host runs on its own thread. -/
inductive Callback where
  | replyInit
  | onDataProduced (data : FactoryData)
  | onFactoryDestory
  | replyDestroy
  deriving DecidableEq, Repr

inductive RelayKind where
  | init | destroy
  deriving DecidableEq, Repr

/-- A PostTaskAndReplyRelay. Its two closures hold one reference to the host each. -/
structure Relay where
  kind : RelayKind
  host : HostId
  deriving DecidableEq, Repr

def RelayKind.callback : RelayKind → Callback
  | .init => .replyInit
  | .destroy => .replyDestroy

/-- A task on a host thread: the reply of a relay, or a bound method of a host. -/
inductive HostTask where
  | reply (r : Relay)
  | call (h : HostId) (m : Callback)
  deriving DecidableEq, Repr

/-- Where a host thread is: idle, in RunReplyAndSelfDestruct (about to reset `task_`,
to run `reply_`, to delete the relay), or in a bound method (about to run it, to drop
the reference it is bound to). -/
inductive HostPc where
  | idle
  | resetTask (r : Relay)
  | runReply (r : Relay)
  | deleteRelay (r : Relay)
  | run (h : HostId) (m : Callback)
  | unbind (h : HostId)
  deriving DecidableEq, Repr

structure HostLoop where
  queue : List HostTask
  pc : HostPc
  deriving DecidableEq, Repr

/-- What code on the factory thread other than the stubs may ask of the Factory. -/
inductive Call where
  | create
  | start
  | stop
  | destroy
  | addObserver (p : PlainId)
  | removeObserver (p : PlainId)
  deriving DecidableEq, Repr

/-- A non-delayed task on the factory thread. A Schedule task binds a weak pointer. -/
inductive FactoryTask where
  | relay (r : Relay)
  | schedule (f : FactoryId)
  | calls (cs : List Call)
  deriving DecidableEq, Repr

/-- The method a FOR_EACH_OBSERVER loop calls. -/
inductive Notice where
  | produced | destroyed
  deriving DecidableEq, Repr

/-- A suspended function on the stack of the factory thread: calls still to make, an
entry to Schedule or Produce, a FOR_EACH_OBSERVER loop at `index_`, the rest of
Produce, the rest of Factory::Destroy. -/
inductive Frame where
  | calls (cs : List Call)
  | schedule (f : FactoryId)
  | produce (f : FactoryId)
  | notify (k : Notice) (f : FactoryId) (index : Nat)
  | produced
  | destroyed (f : FactoryId)
  deriving DecidableEq, Repr

/-- Where the factory thread is in the straight-line code of hosts and stubs; `idle` when
the top frame goes on. A relay is about to run its task or to post its reply; a stub is
about to run OnDataProduced or OnFactoryDestroy (`leave`), to post OnFactoryDestory, to
enter Stub::Destroy; there the local `observer` is about to run PostDestroy, to be bound
in the ReplyDestroy task, to go out of scope. -/
inductive Pc where
  | idle
  | relayTask (r : Relay)
  | relayReply (r : Relay)
  | stubData (s : StubId) (data : FactoryData)
  | leave (s : StubId)
  | leavePost (s : StubId)
  | leaveDestroy (s : StubId)
  | selfDestroy (h : HostId)
  | selfReply (h : HostId)
  | selfDrop (h : HostId)
  deriving DecidableEq, Repr

/-- History entries; no function of the source reads them. -/
inductive Entry where
  | initCall (h : HostId)
  | destroyCall (h : HostId)
  | posted (h : HostId) (m : Callback)
  | handled (h : HostId) (m : Callback)
  | attached (h : HostId) (s : StubId) (f : FactoryId)
  | detached (h : HostId) (s : StubId)
  | postDestroy (h : HostId)
  | hostDeleted (h : HostId) (o : FactoryHost)
  | offered (h : HostId) (time : Nat) (data : FactoryData)
  | created (f : FactoryId) (data : FactoryData)
  | produced (f : FactoryId) (time : Nat) (data : FactoryData)
  | taken (f : FactoryId)
  | notified (k : Notice) (f : FactoryId) (o : Observer)
  | destroyBegun (f : FactoryId)
  | deleted (f : FactoryId)
  deriving DecidableEq, Repr

structure World where
  now : Nat
  gFactory : Option FactoryId
  factory : FactoryId → Option Factory
  freshFactory : FactoryId
  dataId : BitVec 32
  stub : StubId → Option FactoryStub
  freshStub : StubId
  host : HostId → Option FactoryHost
  external : HostId → Nat
  tasks : List FactoryTask
  delayed : List (Nat × FactoryId)
  pc : Pc
  frames : List Frame
  loop : ThreadId → HostLoop
  trace : List Entry

/-- Every host has been constructed and its creator holds one reference; no Factory
exists yet and all queues are empty. -/
def World.initial : World where
  now := 0
  gFactory := none
  factory := fun _ => none
  freshFactory := 0
  dataId := 0
  stub := fun _ => none
  freshStub := 0
  host := fun _ => some ⟨none, false, false, none, 0, 0, 0, 1⟩
  external := fun _ => 1
  tasks := []
  delayed := []
  pc := .idle
  frames := []
  loop := fun _ => ⟨[], .idle⟩
  trace := []

/-- Between two factory-thread tasks. -/
def World.Idle (w : World) : Prop := w.pc = .idle ∧ w.frames = []

instance (w : World) : Decidable w.Idle := inferInstanceAs (Decidable (_ ∧ _))

end OscDataProcess
