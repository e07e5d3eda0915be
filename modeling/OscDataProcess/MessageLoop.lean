import OscDataProcess.DelayQueue
import OscDataProcess.GuardedRun
import Mathlib.Tactic.Common

/-!
# message_loop.cc, run_loop.cc and message_pump_default.cc

One MessageLoop of TYPE_DEFAULT with its pump and the RunLoops on the stack of its thread.
Closures are of any type `α`, and `==` is `Closure::Equals`. Other threads move between any
two steps of the loop's own thread; what they share with it is `incoming_queue_`, which its
lock makes atomic, and the event of the pump.
-/
namespace OscDataProcess

variable {α : Type}

/-- A task, with how many were posted before it (no function of the source reads `id`).
A `TimeTicks` counts microseconds, and zero is the null time: the task is not delayed. -/
structure PendingTask (α : Type) where
  task : α
  id : Nat
  delayedRunTime : Nat
  sequenceNum : BitVec 32
  nestable : Bool
  deriving DecidableEq, Repr

/-- `other < p` as PendingTask orders its priority queue: `p` comes before `other`. An `int`
is taken to be two's complement of 32 bits, and its sums and differences to wrap around. -/
def PendingTask.before (p other : PendingTask α) : Bool :=
  if other.delayedRunTime < p.delayedRunTime then false
  else if p.delayedRunTime < other.delayedRunTime then true
  else DelayQueue.later other.sequenceNum p.sequenceNum

/-- The delegate's method that runs a task. -/
inductive Caller where
  | doWork | doDelayedWork (didWork : Bool) | doIdleWork
  deriving DecidableEq, Repr

/-- Where `MessagePumpDefault::Run` is: about to enter DoWork, in DoWork at ReloadWorkQueue
or about to take the oldest task, about to enter DoDelayedWork or DoIdleWork, about to look
at `delayed_work_time_`, in Wait or TimedWait, in a task. -/
inductive PumpPc where
  | doWork
  | reload
  | take
  | doDelayedWork (didWork : Bool)
  | doIdleWork
  | sleep
  | wait (deadline : Option Nat)
  | task (caller : Caller)
  deriving DecidableEq, Repr

/-- Where the pump goes on when a method of the delegate has returned. -/
def Caller.next (didWork : Bool) : Caller → PumpPc
  | .doWork => .doDelayedWork didWork
  | .doDelayedWork b => if b || didWork then .doWork else .doIdleWork
  | .doIdleWork => if didWork then .doWork else .sleep

/-- A RunLoop on the stack, with the activation of the pump that serves it. -/
structure RunLoop where
  pc : PumpPc
  quitCalled : Bool
  quitWhenIdleReceived : Bool
  deriving DecidableEq, Repr

/-- A task that was run, at which `run_depth_` and when. -/
structure Ran (α : Type) where
  task : PendingTask α
  depth : Nat
  time : Nat

/-- `signallers` threads have pushed onto an empty `incoming_queue_` and not yet called
ScheduleWork; `runLoops` are innermost first; `posted`, `ran` and `returns`, how often the
pump's Run has returned, are history. -/
structure MessageLoop (α : Type) where
  now : Nat
  incomingQueue : List (PendingTask α)
  workQueue : List (PendingTask α)
  delayedWorkQueue : List (PendingTask α)
  deferredNonNestableWorkQueue : List (PendingTask α)
  nextSequenceNum : BitVec 32
  nestableTasksAllowed : Bool
  recentTime : Nat
  keepRunning : Bool
  event : Bool
  delayedWorkTime : Nat
  runLoops : List RunLoop
  signallers : Nat
  posted : List (PendingTask α)
  ran : List (Ran α)
  returns : Nat

namespace MessageLoop

def initial : MessageLoop α where
  now := 0
  incomingQueue := []
  workQueue := []
  delayedWorkQueue := []
  deferredNonNestableWorkQueue := []
  nextSequenceNum := 0
  nestableTasksAllowed := true
  recentTime := 0
  keepRunning := true
  event := false
  delayedWorkTime := 0
  runLoops := []
  signallers := 0
  posted := []
  ran := []
  returns := 0

/-- `run_loop_->run_depth_`. -/
def runDepth (l : MessageLoop α) : Nat := l.runLoops.length

/-- CalculateDelayedRuntime, where `TimeTicks::Now()` returned `time`. -/
def calculateDelayedRuntime (time delay : Nat) : Nat := if 0 < delay then time + delay else 0

/-- PostDelayedTask or PostNonNestableDelayedTask up to the end of the locked part of
AddToIncomingQueue; PostTask is the case of no delay. -/
def postDelayedTask (l : MessageLoop α) (task : α) (time delay : Nat) (nestable : Bool) : MessageLoop α :=
  let p : PendingTask α := ⟨task, l.posted.length, calculateDelayedRuntime time delay, 0, nestable⟩
  { l with
    incomingQueue := l.incomingQueue ++ [p]
    signallers := if l.incomingQueue = [] then l.signallers + 1 else l.signallers
    posted := l.posted ++ [p] }

/-- The innermost activation of the pump goes to another place. -/
def setPc (l : MessageLoop α) (pc : PumpPc) : MessageLoop α :=
  { l with runLoops := match l.runLoops with
      | [] => []
      | a :: rest => { a with pc := pc } :: rest }

/-- The end of `MessagePumpDefault::Run`, and `RunLoop::AfterRun`. -/
def leaveRun (l : MessageLoop α) : MessageLoop α :=
  { l with
    keepRunning := match l.runLoops.tail with
      | [] => true
      | previous :: _ => !previous.quitCalled
    runLoops := l.runLoops.tail
    returns := l.returns + 1 }

/-- A method of the delegate returns to the pump. -/
def returned (l : MessageLoop α) (caller : Caller) (didWork : Bool) : MessageLoop α :=
  if l.keepRunning then l.setPc (caller.next didWork) else l.leaveRun

/-- RunTask up to the call of the closure. -/
def runTask (l : MessageLoop α) (p : PendingTask α) (caller : Caller) : MessageLoop α :=
  { l.setPc (.task caller) with
    nestableTasksAllowed := false
    ran := l.ran ++ [⟨p, l.runDepth, l.now⟩] }

/-- DeferOrRunPendingTask; `deferred` is where the caller goes on if the task is not run. -/
def deferOrRunPendingTask (l : MessageLoop α) (p : PendingTask α) (caller : Caller)
    (deferred : MessageLoop α → MessageLoop α) : MessageLoop α :=
  if p.nestable || l.runDepth = 1 then l.runTask p caller
  else deferred { l with deferredNonNestableWorkQueue := l.deferredNonNestableWorkQueue ++ [p] }

/-- AddToDelayedWorkQueue, and ScheduleDelayedWork if the topmost task is the new one. -/
def addToDelayedWorkQueue [BEq α] (l : MessageLoop α) (p : PendingTask α) : MessageLoop α :=
  let queue := l.delayedWorkQueue ++ [{ p with sequenceNum := l.nextSequenceNum }]
  { l with
    delayedWorkQueue := queue
    nextSequenceNum := l.nextSequenceNum + 1
    delayedWorkTime := match DelayQueue.pop PendingTask.before queue with
      | some (top, _) => if top.task == p.task then p.delayedRunTime else l.delayedWorkTime
      | none => l.delayedWorkTime }

/-- ReloadWorkQueue. -/
def reloadWorkQueue (l : MessageLoop α) : MessageLoop α :=
  if l.workQueue ≠ [] then l
  else if l.incomingQueue = [] then l
  else { l with workQueue := l.incomingQueue, incomingQueue := [] }

/-- The end of the inner loop of DoWork: `while (!work_queue_.empty())`. -/
def takeNext (l : MessageLoop α) : MessageLoop α :=
  if l.workQueue = [] then l.setPc .reload else l.setPc .take

/-- The body of the inner loop of DoWork, for the oldest task. -/
def takeTask [BEq α] (l : MessageLoop α) (p : PendingTask α) : MessageLoop α :=
  if p.delayedRunTime ≠ 0 then (l.addToDelayedWorkQueue p).takeNext
  else l.deferOrRunPendingTask p .doWork takeNext

/-- DoDelayedWork compares the task on top with `recent_time_`, which it brings up to date
only if the task is not due at the time it knows. -/
def look (l : MessageLoop α) (p : PendingTask α) : MessageLoop α :=
  { l with recentTime := if l.recentTime < p.delayedRunTime then l.now else l.recentTime }

/-- DoDelayedWork takes the task on top. -/
def takeDelayed (l : MessageLoop α) (p : PendingTask α) (rest : List (PendingTask α)) : MessageLoop α :=
  { l.look p with
    delayedWorkQueue := rest
    delayedWorkTime := match DelayQueue.pop PendingTask.before rest with
      | some (top, _) => top.delayedRunTime
      | none => l.delayedWorkTime }

/-- DoDelayedWork, with `delayed_work_time_` for its argument. -/
def doDelayedWork (l : MessageLoop α) (didWork : Bool) : MessageLoop α :=
  if !l.nestableTasksAllowed then
    { l with recentTime := 0, delayedWorkTime := 0 }.returned (.doDelayedWork didWork) false
  else match DelayQueue.pop PendingTask.before l.delayedWorkQueue with
    | none => { l with recentTime := 0, delayedWorkTime := 0 }.returned (.doDelayedWork didWork) false
    | some (p, rest) =>
      if (l.look p).recentTime < p.delayedRunTime then
        { l.look p with delayedWorkTime := p.delayedRunTime }.returned (.doDelayedWork didWork) false
      else
        (l.takeDelayed p rest).deferOrRunPendingTask p (.doDelayedWork didWork)
          (·.returned (.doDelayedWork didWork) false)

/-- DoIdleWork; ProcessNextDelayedNonNestableTask comes first. -/
def doIdleWork (l : MessageLoop α) (a : RunLoop) : MessageLoop α :=
  match l.deferredNonNestableWorkQueue with
  | p :: ps =>
    if l.runDepth = 1 then { l with deferredNonNestableWorkQueue := ps }.runTask p .doIdleWork
    else { l with keepRunning := l.keepRunning && !a.quitWhenIdleReceived }.returned .doIdleWork false
  | [] => { l with keepRunning := l.keepRunning && !a.quitWhenIdleReceived }.returned .doIdleWork false

/-- When TimedWait gives up: whole milliseconds, rounded up, in a DWORD, the largest of which
is INFINITE. -/
def timedWait (now delay : Nat) : Option Nat :=
  if (delay + 999) / 1000 % 2 ^ 32 = 2 ^ 32 - 1 then none else some (now + (delay + 999) / 1000 % 2 ^ 32 * 1000)

/-- The innermost activation of the pump takes one step; `none` when it is blocked, or when
its thread is in a task. -/
def pump [BEq α] (l : MessageLoop α) : Option (MessageLoop α) :=
  match l.runLoops with
  | [] => none
  | a :: _ =>
    match a.pc with
    | .doWork => some (if l.nestableTasksAllowed then l.setPc .reload else l.returned .doWork false)
    | .reload =>
      let l := l.reloadWorkQueue
      some (if l.workQueue = [] then l.returned .doWork false else l.setPc .take)
    | .take =>
      match l.workQueue with
      | [] => none
      | p :: ps => some ({ l with workQueue := ps }.takeTask p)
    | .doDelayedWork didWork => some (l.doDelayedWork didWork)
    | .doIdleWork => some (l.doIdleWork a)
    | .sleep =>
      if l.delayedWorkTime = 0 then some (l.setPc (.wait none))
      else if l.now < l.delayedWorkTime then
        some (l.setPc (.wait (timedWait l.now (l.delayedWorkTime - l.now))))
      else some ({ l with delayedWorkTime := 0 }.setPc .doWork)
    | .wait deadline =>
      if l.event then some ({ l with event := false }.setPc .doWork)
      else match deadline with
        | none => none
        | some t => if t ≤ l.now then some (l.setPc .doWork) else none
    | .task _ => none

/-- The loop's thread is in a task: the innermost activation waits for it to return. -/
def inTask (l : MessageLoop α) : Option Caller :=
  match l.runLoops with
  | [] => none
  | a :: _ => match a.pc with
    | .task caller => some caller
    | _ => none

/-- The loop's thread runs code: a task, or code outside every Run. -/
def Free (l : MessageLoop α) : Prop := l.runLoops = [] ∨ l.inTask.isSome

instance (l : MessageLoop α) : Decidable l.Free := inferInstanceAs (Decidable (_ ∨ _))

/-- What happens to a loop. `post` and `scheduleWork` come from any thread, `time` being
what the poster read from the clock before it took the lock; `pump` is a step of the pump;
the others are calls of the code that the loop's thread runs. -/
inductive Event (α : Type) where
  | post (task : α) (time delay : Nat) (nestable : Bool)
  | scheduleWork
  | pump
  | taskDone
  | run (quitCalled quitWhenIdle : Bool)
  | quit (i : Nat)
  | quitNow
  | quitWhenIdle
  | setNestableTasksAllowed (allowed : Bool)
  | tick (us : Nat)

def step [BEq α] (l : MessageLoop α) : Event α → Option (MessageLoop α)
  | .post task time delay nestable =>
    if time ≤ l.now then some (l.postDelayedTask task time delay nestable) else none
  | .scheduleWork =>
    if l.signallers = 0 then none
    else some { l with signallers := l.signallers - 1, event := true }
  | .pump => l.pump
  | .taskDone => l.inTask.map fun caller => { l with nestableTasksAllowed := true }.returned caller true
  -- RunLoop::Run or RunUntilIdle; a RunLoop that was told to quit before returns at once
  | .run quitCalled quitWhenIdle =>
    if l.Free then
      some (if quitCalled then l else { l with runLoops := ⟨.doWork, false, quitWhenIdle⟩ :: l.runLoops })
    else none
  -- RunLoop::Quit of the `i`-th RunLoop on the stack
  | .quit i =>
    if l.inTask.isSome then
      some { l with
        runLoops := l.runLoops.modify i fun a => { a with quitCalled := true }
        keepRunning := l.keepRunning && i ≠ 0 }
    else none
  | .quitNow => if l.inTask.isSome then some { l with keepRunning := false } else none
  | .quitWhenIdle =>
    if l.inTask.isSome then
      some { l with runLoops := l.runLoops.modify 0 fun a => { a with quitWhenIdleReceived := true } }
    else none
  | .setNestableTasksAllowed allowed =>
    if l.Free then
      some { l with
        nestableTasksAllowed := allowed
        event := l.event || (allowed && !l.nestableTasksAllowed) }
    else none
  | .tick us => some { l with now := l.now + us }

end MessageLoop
end OscDataProcess
