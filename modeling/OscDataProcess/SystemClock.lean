import Mathlib.Algebra.Order.Group.Nat
import Mathlib.Algebra.GroupWithZero.Nat
import Mathlib.Data.List.Pairwise
import OscDataProcess.GuardedRun

/-!
# The clocks

`TimeTicks::Now()` and `Time::Now()` of base/time_win.cc, over a millisecond counter of
32 bits that wraps around and a wall clock that may be set at any moment. What the counter
and the wall clock show is up to the system, which moves them on in steps of some size.
-/
namespace OscDataProcess

/-- The clocks of the system, when so many microseconds have passed since it was started. -/
structure Clocks where
  /-- The milliseconds that `timeGetTime()` counts, before they are cut to 32 bits. -/
  ms : Nat → Nat
  /-- What `GetSystemTimeAsFileTime()` shows, in 100 ns, if the wall clock is never set. -/
  fileTime : Nat → Int
  /-- The counter does not go back. -/
  mono : Monotone ms

/-- For as long as `Time::Now()` goes by it the counter is right to less than `g` microseconds,
and the wall clock lags behind by no more than `w`. -/
structure Clocks.Accurate (k : Clocks) (g w : Nat) : Prop where
  ms : ∀ a b, a ≤ b → k.ms b ≤ k.ms a + 60000 →
    1000 * k.ms b + a < 1000 * k.ms a + b + g ∧ 1000 * k.ms a + b < 1000 * k.ms b + a + g
  fileTime : ∀ us : Nat, k.fileTime us ≤ 10 * us ∧ 10 * us ≤ k.fileTime us + 10 * w

/-- Where the thread is that runs `Time::Now()`, or `NowFromSystemTime()` if `system`. -/
inductive ClockPc
  | readTicks
  | initializeTicks (system : Bool)
  | initializeTime (system : Bool)
  deriving DecidableEq, Repr

/-- What `Time::Now()` returned, when, and which `InitializeClock` it went by. -/
structure Reading where
  value : Int
  takenAt : Nat
  ticksAt : Nat
  timeAt : Nat
  systemTime : Int
  deriving DecidableEq, Repr

/-- How much time `InitializeClock` let pass between its two clocks. -/
def Reading.slack (r : Reading) : Int := r.timeAt - r.ticksAt

/-- How far the reading is ahead of a wall clock that is set to `offset`, in 100 ns. -/
def Reading.ahead (r : Reading) (offset : Int) : Int := 10 * r.value - (10 * r.takenAt + offset)

/-- The globals of time_win.cc, and what the clocks of the system go by. -/
structure SystemClock where
  /-- The microseconds since the system was started. -/
  us : Nat
  /-- How far ahead the wall clock was set, in 100 ns. -/
  offset : Int
  /-- When it was set, and how far ahead. -/
  settings : List (Nat × Int)
  rolloverMs : Nat
  lastSeenNow : Nat
  initialTime : Int
  initialTicks : Nat
  pc : Option ClockPc
  /-- What `TimeTicks::Now()` returned, with the milliseconds that the counter had counted. -/
  ticks : List (Nat × Nat)
  readings : List Reading
  /-- When the last `InitializeClock` read the ticks and when it read the wall clock. -/
  ticksAt : Nat
  timeAt : Nat
  /-- How often the counter had wrapped around before it was read first. -/
  wraps : Nat
  deriving DecidableEq, Repr

namespace SystemClock

open GuardedRun (Reaches)

inductive Event
  | pass (us : Nat)
  /-- The wall clock is set. -/
  | adjust (offset : Int)
  /-- `TimeTicks::Now()`, by any thread. -/
  | ticksNow
  | now
  | nowFromSystemTime
  /-- The thread in `Time::Now()` or `NowFromSystemTime()` goes on. -/
  | code
  deriving DecidableEq, Repr

def initial (us : Nat) (offset : Int) : SystemClock :=
  ⟨us, offset, [(us, offset)], 0, 0, 0, 0, none, [], [], 0, 0, 0⟩

/-- `FileTimeToMicroseconds`. -/
def fileTimeToMicroseconds (ft : Int) : Int := ft.tdiv 10

def kMaxMillisecondsToAvoidDrift : Nat := 60 * 1000

section
variable (k : Clocks) (s : SystemClock)

/-- `timeGetTime()`. -/
def timeGetTime : Nat := k.ms s.us % 2 ^ 32

/-- `CurrentWallclockMicroseconds()`. -/
def currentWallclockMicroseconds : Int := fileTimeToMicroseconds (k.fileTime s.us + s.offset)

/-- `rollover_ms` after the counter was read. -/
def nextRolloverMs : Nat := if s.timeGetTime k < s.lastSeenNow then s.rolloverMs + 2 ^ 32 else s.rolloverMs

/-- What `RolloverProtectedNow()` returns, in microseconds. -/
def rolloverProtectedNow : Nat := (s.timeGetTime k + s.nextRolloverMs k) * 1000

/-- `RolloverProtectedNow()`. -/
def poll : SystemClock :=
  { s with
    rolloverMs := s.nextRolloverMs k
    lastSeenNow := s.timeGetTime k
    ticks := s.ticks ++ [(s.rolloverProtectedNow k, k.ms s.us)]
    wraps := if s.ticks = [] then k.ms s.us / 2 ^ 32 else s.wraps }

/-- `ticks - initial_ticks`. -/
def elapsed : Int := s.rolloverProtectedNow k - s.initialTicks

/-- The call returns. -/
def return_ (s : SystemClock) (value : Int) : SystemClock :=
  { s with pc := none, readings := s.readings ++ [⟨value, s.us, s.ticksAt, s.timeAt, s.initialTime⟩] }

def step : Event → Option SystemClock
  | .pass us => some { s with us := s.us + us }
  | .adjust offset => some { s with offset := offset, settings := s.settings ++ [(s.us, offset)] }
  | .ticksNow => some (s.poll k)
  | .now =>
    if s.pc = none then
      some { s with pc := some (if s.initialTime = 0 then .initializeTicks false else .readTicks) }
    else none
  | .nowFromSystemTime => if s.pc = none then some { s with pc := some (.initializeTicks true) } else none
  | .code =>
    match s.pc with
    | none => none
    | some .readTicks =>
      if (s.elapsed k).tdiv 1000 > kMaxMillisecondsToAvoidDrift then
        some { s.poll k with pc := some (.initializeTicks false) }
      else some ((s.poll k).return_ (s.elapsed k + s.initialTime))
    | some (.initializeTicks system) =>
      some { s.poll k with
        initialTicks := s.rolloverProtectedNow k
        ticksAt := s.us
        pc := some (.initializeTime system) }
    | some (.initializeTime system) =>
      let s := { s with initialTime := s.currentWallclockMicroseconds k, timeAt := s.us }
      some (if system then s.return_ s.initialTime else { s with pc := some .readTicks })

/-- The counter is read again before it has gone all the way round. -/
def Polled : Event → Prop
  | .pass us => ∀ tick ∈ s.ticks.getLast?, k.ms (s.us + us) < tick.2 + 2 ^ 32
  | _ => True

instance : ∀ e, Decidable (Polled k s e)
  | .pass _ => inferInstanceAs (Decidable (∀ tick ∈ s.ticks.getLast?, _))
  | .adjust _ | .ticksNow | .now | .nowFromSystemTime | .code => inferInstanceAs (Decidable True)

/-- And the wall clock is left alone. -/
def Steady (e : Event) : Prop :=
  Polled k s e ∧ match e with
    | .adjust _ | .nowFromSystemTime => False
    | _ => True

instance : ∀ e, Decidable (Steady k s e)
  | .pass _ | .ticksNow | .now | .code => inferInstanceAs (Decidable (_ ∧ True))
  | .adjust _ | .nowFromSystemTime => inferInstanceAs (Decidable (_ ∧ False))

end

variable {k : Clocks} {s s' : SystemClock} {e : Event} {us : Nat} {offset : Int}

/-! ### The ticks -/

/-- `TimeTicks::Now()` has told the milliseconds since the counter was 0 last before it was
first read, and knows what it needs to go on so. -/
structure Ticking (k : Clocks) (s : SystemClock) : Prop where
  told : ∀ tick ∈ s.ticks,
    s.wraps * 2 ^ 32 ≤ tick.2 ∧ tick.2 ≤ k.ms s.us ∧ tick.1 = (tick.2 - s.wraps * 2 ^ 32) * 1000
  sorted : s.ticks.Pairwise fun tick tick' => tick.2 ≤ tick'.2
  fresh : s.ticks = [] → s.rolloverMs = 0 ∧ s.lastSeenNow = 0
  last : ∀ tick ∈ s.ticks.getLast?, k.ms s.us < tick.2 + 2 ^ 32 ∧ s.lastSeenNow = tick.2 % 2 ^ 32 ∧
    s.rolloverMs + s.wraps * 2 ^ 32 + s.lastSeenNow = tick.2

theorem Ticking.of_ticks (hc : Ticking k s) (ht : s'.ticks = s.ticks) (hw : s'.wraps = s.wraps)
    (hr : s'.rolloverMs = s.rolloverMs) (hl : s'.lastSeenNow = s.lastSeenNow) (hu : s'.us = s.us) : Ticking k s' := by
  obtain ⟨htold, hsorted, hfresh, hlast⟩ := hc
  exact ⟨by rwa [ht, hw, hu], by rwa [ht], by rwa [ht, hr, hl], by rwa [ht, hw, hr, hl, hu]⟩

/-- The counter has wrapped around at most once since it was read last. -/
theorem Ticking.nextRolloverMs (hc : Ticking k s) :
    (s.poll k).wraps * 2 ^ 32 + s.nextRolloverMs k + s.timeGetTime k = k.ms s.us := by
  have hmod := Nat.div_add_mod (k.ms s.us) (2 ^ 32)
  have hlt := Nat.mod_lt (k.ms s.us) (show 0 < 2 ^ 32 by decide)
  unfold SystemClock.nextRolloverMs timeGetTime
  cases hlast : s.ticks.getLast? with
  | none =>
    have hnil := List.getLast?_eq_none_iff.mp hlast
    obtain ⟨hr, hl⟩ := hc.fresh hnil
    rw [hr, hl, if_neg (Nat.not_lt_zero _), poll, hnil, if_pos rfl]
    dsimp only
    omega
  | some tick =>
    have hmem := List.mem_of_getLast? hlast
    obtain ⟨hnear, hl, hsum⟩ := hc.last tick hlast
    obtain ⟨-, hle, -⟩ := hc.told tick hmem
    rw [poll, if_neg (List.ne_nil_of_mem hmem)]
    dsimp only
    split <;> omega

theorem Ticking.rolloverProtectedNow (hc : Ticking k s) : (s.poll k).wraps * 2 ^ 32 ≤ k.ms s.us ∧
    s.rolloverProtectedNow k = (k.ms s.us - (s.poll k).wraps * 2 ^ 32) * 1000 := by
  have h := hc.nextRolloverMs
  refine ⟨by omega, congrArg (· * 1000) ?_⟩
  omega

theorem Ticking.poll (hc : Ticking k s) : Ticking k (s.poll k) := by
  have hnext := hc.nextRolloverMs
  obtain ⟨hbase, hvalue⟩ := hc.rolloverProtectedNow
  refine ⟨fun tick ht => ?_, ?_, fun h => ?_, fun tick ht => ?_⟩
  · obtain ht | ht := List.mem_append.mp ht
    · have hwraps : (s.poll k).wraps = s.wraps := if_neg (List.ne_nil_of_mem ht)
      rw [hwraps]
      exact hc.told tick ht
    · obtain rfl := List.mem_singleton.mp ht
      exact ⟨hbase, Nat.le_refl _, hvalue⟩
  · refine List.pairwise_append.mpr ⟨hc.sorted, List.pairwise_singleton _ _, fun tick ht tick' ht' => ?_⟩
    obtain rfl := List.mem_singleton.mp ht'
    exact (hc.told tick ht).2.1
  · exact absurd h (List.append_ne_nil_of_right_ne_nil _ (List.cons_ne_nil _ _))
  · rw [show (s.poll k).ticks = s.ticks ++ [(s.rolloverProtectedNow k, k.ms s.us)] from rfl, List.getLast?_concat] at ht
    obtain rfl := Option.some.inj ht
    refine ⟨Nat.lt_add_of_pos_right (by decide), rfl, ?_⟩
    rw [show (s.poll k).rolloverMs = s.nextRolloverMs k from rfl,
      show (s.poll k).lastSeenNow = s.timeGetTime k from rfl]
    omega

theorem Ticking.step (hc : Ticking k s) (hp : Polled k s e) (he : step k s e = some s') : Ticking k s' := by
  cases e with
  | pass us =>
    obtain rfl := Option.some.inj he
    have hle : k.ms s.us ≤ k.ms (s.us + us) := k.mono (Nat.le_add_right ..)
    refine ⟨fun tick ht => ?_, hc.sorted, hc.fresh, fun tick ht => ?_⟩
    · obtain ⟨hbase, htold, hvalue⟩ := hc.told tick ht
      exact ⟨hbase, Nat.le_trans htold hle, hvalue⟩
    · obtain ⟨-, hlast⟩ := hc.last tick ht
      exact ⟨hp tick ht, hlast⟩
  | adjust offset =>
    obtain rfl := Option.some.inj he
    exact hc.of_ticks rfl rfl rfl rfl rfl
  | ticksNow =>
    obtain rfl := Option.some.inj he
    exact hc.poll
  | now | nowFromSystemTime =>
    simp only [SystemClock.step, Option.ite_none_right_eq_some, Option.some.injEq] at he
    obtain ⟨-, rfl⟩ := he
    exact hc.of_ticks rfl rfl rfl rfl rfl
  | code =>
    simp only [SystemClock.step] at he
    split at he
    · cases he
    · split at he <;> obtain rfl := Option.some.inj he <;> exact hc.poll.of_ticks rfl rfl rfl rfl rfl
    · obtain rfl := Option.some.inj he
      exact hc.poll.of_ticks rfl rfl rfl rfl rfl
    · obtain rfl := Option.some.inj he
      split <;> exact hc.of_ticks rfl rfl rfl rfl rfl

theorem ticking_of_reaches (hr : Reaches (step k) (Polled k) (initial us offset) s) : Ticking k s :=
  hr.invariant (fun _ _ _ hc hp he => hc.step hp he)
    ⟨nofun, List.Pairwise.nil, fun _ => ⟨rfl, rfl⟩, nofun⟩

/-- Both clocks are right, the counter to the millisecond. -/
def fine : Clocks := ⟨(· / 1000), fun us => 10 * us, fun _ _ h => Nat.div_le_div_right h⟩

/-- Time passes, the wall clock is set, or another thread reads the ticks. -/
structure Elsewhere (s s' : SystemClock) : Prop where
  us : s.us ≤ s'.us
  settings : ∃ l, s'.settings = s.settings ++ l ∧ ∀ x ∈ l, s.us ≤ x.1
  pc : s'.pc = s.pc
  initialTime : s'.initialTime = s.initialTime
  initialTicks : s'.initialTicks = s.initialTicks
  readings : s'.readings = s.readings
  ticksAt : s'.ticksAt = s.ticksAt
  timeAt : s'.timeAt = s.timeAt
  wraps : s.ticks ≠ [] → s'.ticks ≠ [] ∧ s'.wraps = s.wraps

theorem Elsewhere.poll (k : Clocks) (s : SystemClock) : Elsewhere s (s.poll k) :=
  ⟨Nat.le_refl _, ⟨[], (List.append_nil _).symm, by simp⟩, rfl, rfl, rfl, rfl, rfl, rfl,
    fun h => ⟨List.append_ne_nil_of_left_ne_nil h _, if_neg h⟩⟩

inductive Move (k : Clocks) (s : SystemClock) : Event → SystemClock → Prop
  | elsewhere {e : Event} {s' : SystemClock} (h : Elsewhere s s')
    (ho : s'.offset = s.offset ∧ s'.settings = s.settings ∨
      ∃ offset, e = .adjust offset ∧ s'.offset = offset ∧ s'.settings = s.settings ++ [(s'.us, offset)]) : Move k s e s'
  | now (hpc : s.pc = none) (ht : s.initialTime ≠ 0) : Move k s .now { s with pc := some .readTicks }
  | firstNow (hpc : s.pc = none) (ht : s.initialTime = 0) :
    Move k s .now { s with pc := some (.initializeTicks false) }
  | nowFromSystemTime (hpc : s.pc = none) :
    Move k s .nowFromSystemTime { s with pc := some (.initializeTicks true) }
  | resync (hpc : s.pc = some .readTicks) (hd : kMaxMillisecondsToAvoidDrift < (s.elapsed k).tdiv 1000) :
    Move k s .code { s.poll k with pc := some (.initializeTicks false) }
  | read (hpc : s.pc = some .readTicks) (hd : (s.elapsed k).tdiv 1000 ≤ kMaxMillisecondsToAvoidDrift) :
    Move k s .code ((s.poll k).return_ (s.elapsed k + s.initialTime))
  | initializeTicks {system : Bool} (hpc : s.pc = some (.initializeTicks system)) :
    Move k s .code { s.poll k with
      initialTicks := s.rolloverProtectedNow k, ticksAt := s.us, pc := some (.initializeTime system) }
  | initializeTime (hpc : s.pc = some (.initializeTime false)) :
    Move k s .code { s with
      initialTime := s.currentWallclockMicroseconds k, timeAt := s.us, pc := some .readTicks }
  | systemTime (hpc : s.pc = some (.initializeTime true)) :
    Move k s .code (return_ { s with initialTime := s.currentWallclockMicroseconds k, timeAt := s.us }
      (s.currentWallclockMicroseconds k))

theorem step_cases (he : step k s e = some s') : Move k s e s' := by
  have hnil : ∃ l, s.settings = s.settings ++ l ∧ ∀ x ∈ l, s.us ≤ x.1 := ⟨[], (List.append_nil _).symm, by simp⟩
  cases e with
  | pass us =>
    obtain rfl := Option.some.inj he
    exact .elsewhere ⟨Nat.le_add_right .., hnil, rfl, rfl, rfl, rfl, rfl, rfl, fun h => ⟨h, rfl⟩⟩ (.inl ⟨rfl, rfl⟩)
  | adjust offset =>
    obtain rfl := Option.some.inj he
    exact .elsewhere ⟨Nat.le_refl _, ⟨[(s.us, offset)], rfl, by simp⟩, rfl, rfl, rfl, rfl, rfl, rfl, fun h => ⟨h, rfl⟩⟩
      (.inr ⟨offset, rfl, rfl, rfl⟩)
  | ticksNow =>
    obtain rfl := Option.some.inj he
    exact .elsewhere (.poll k s) (.inl ⟨rfl, rfl⟩)
  | now =>
    simp only [step, Option.ite_none_right_eq_some, Option.some.injEq] at he
    obtain ⟨hpc, rfl⟩ := he
    split
    · exact .firstNow hpc ‹_›
    · exact .now hpc ‹_›
  | nowFromSystemTime =>
    simp only [step, Option.ite_none_right_eq_some, Option.some.injEq] at he
    obtain ⟨hpc, rfl⟩ := he
    exact .nowFromSystemTime hpc
  | code =>
    simp only [step] at he
    split at he
    · cases he
    · rename_i hpc
      split at he <;> obtain rfl := Option.some.inj he
      · exact .resync hpc ‹_›
      · exact .read hpc (Int.not_lt.mp ‹_›)
    · rename_i system hpc
      obtain rfl := Option.some.inj he
      exact .initializeTicks hpc
    · rename_i system hpc
      obtain rfl := Option.some.inj he
      cases system with
      | false => exact .initializeTime hpc
      | true => exact .systemTime hpc

/-! ### The wall clock -/

/-- At `t` the wall clock was `offset` ahead: so it was set last before, or at that moment. -/
def InForce (settings : List (Nat × Int)) (t : Nat) (offset : Int) : Prop :=
  ∃ l l' setAt, settings = l ++ (setAt, offset) :: l' ∧ setAt ≤ t ∧ ∀ x ∈ l', t ≤ x.1

theorem InForce.append {settings l : List (Nat × Int)} {t : Nat} (h : InForce settings t offset)
    (hl : ∀ x ∈ l, t ≤ x.1) : InForce (settings ++ l) t offset := by
  obtain ⟨l₁, l₂, setAt, rfl, hset, hlater⟩ := h
  refine ⟨l₁, l₂ ++ l, setAt, by simp, hset, fun x hx => ?_⟩
  obtain hx | hx := List.mem_append.mp hx
  · exact hlater x hx
  · exact hl x hx

theorem inForce_singleton {t : Nat} {offset' : Int} (h : InForce [(us, offset)] t offset') : offset' = offset := by
  obtain ⟨l, l', setAt, hl, -⟩ := h
  cases l with
  | nil =>
    obtain ⟨⟨-, rfl⟩, -⟩ := by simpa using hl
    rfl
  | cons x l => simp at hl

/-- What the wall clock showed at `t`. -/
def Showed (k : Clocks) (settings : List (Nat × Int)) (t : Nat) (time : Int) : Prop :=
  ∃ offset, InForce settings t offset ∧ time = fileTimeToMicroseconds (k.fileTime t + offset)

/-- The wall clock was set last to where it is. -/
def LastSet (s : SystemClock) : Prop := ∃ l setAt, s.settings = l ++ [(setAt, s.offset)] ∧ setAt ≤ s.us

theorem LastSet.showed (h : LastSet s) : Showed k s.settings s.us (s.currentWallclockMicroseconds k) := by
  obtain ⟨l, setAt, hl, hle⟩ := h
  exact ⟨s.offset, ⟨l, [], setAt, hl, hle, by simp⟩, rfl⟩

theorem LastSet.of_eq (h : LastSet s) (hs : s'.settings = s.settings) (ho : s'.offset = s.offset) (hu : s.us ≤ s'.us) :
    LastSet s' := by
  obtain ⟨l, setAt, hl, hle⟩ := h
  exact ⟨l, setAt, by rw [hs, ho, hl], Nat.le_trans hle hu⟩

theorem LastSet.of_move (h : LastSet s) (hm : Move k s e s') : LastSet s' := by
  cases hm with
  | elsewhere hels ho =>
    obtain ⟨hoffset, hsame⟩ | ⟨offset, -, hoffset, hset⟩ := ho
    · exact h.of_eq hsame hoffset hels.us
    · exact ⟨s.settings, s'.us, by rw [hset, hoffset], Nat.le_refl _⟩
  | _ => exact h.of_eq rfl rfl (Nat.le_refl _)

theorem lastSet_of_reaches {P : SystemClock → Event → Prop} (hr : Reaches (step k) P (initial us offset) s) : LastSet s :=
  hr.invariant (fun _ _ _ h _ he => h.of_move (step_cases he)) ⟨[], us, rfl, Nat.le_refl _⟩

/-! ### The time -/

/-- `initial_ticks` are the ticks at `ticksAt`. -/
structure Ticked (k : Clocks) (s : SystemClock) : Prop where
  ticksAt_le : s.ticksAt ≤ s.us
  polled : s.ticks ≠ []
  base : s.wraps * 2 ^ 32 ≤ k.ms s.ticksAt
  initialTicks : s.initialTicks = (k.ms s.ticksAt - s.wraps * 2 ^ 32) * 1000

/-- An `InitializeClock` has come to its end. -/
structure Initialized (k : Clocks) (s : SystemClock) : Prop extends Ticked k s where
  ticksAt_le_timeAt : s.ticksAt ≤ s.timeAt
  timeAt_le : s.timeAt ≤ s.us
  initialTime : Showed k s.settings s.timeAt s.initialTime

/-- `initial_ticks` and `initial_time` belong together. -/
def Ready (s : SystemClock) : Prop := s.pc = some .readTicks ∨ s.pc = none ∧ s.initialTime ≠ 0

/-- A reading is what the wall clock showed when `InitializeClock` read it: at that very
moment, or at most 60 s ago, and the ticks since. -/
structure Reading.Sound (k : Clocks) (settings : List (Nat × Int)) (r : Reading) : Prop where
  ticksAt_le : r.ticksAt ≤ r.timeAt
  timeAt_le : r.timeAt ≤ r.takenAt
  systemTime : Showed k settings r.timeAt r.systemTime
  value : (r.takenAt = r.timeAt ∧ r.value = r.systemTime) ∨
    (k.ms r.takenAt ≤ k.ms r.ticksAt + kMaxMillisecondsToAvoidDrift ∧
      r.value = r.systemTime + 1000 * (k.ms r.takenAt - k.ms r.ticksAt : Int))

structure Trusted (k : Clocks) (s : SystemClock) : Prop where
  ticked : ∀ system, s.pc = some (.initializeTime system) → Ticked k s
  initialized : s.Ready → Initialized k s
  readings : ∀ r ∈ s.readings, r.takenAt ≤ s.us ∧ Reading.Sound k s.settings r

theorem elapsed_eq (hc : Ticking k s) (ht : Ticked k s) :
    s.elapsed k = 1000 * ((k.ms s.us : Int) - k.ms s.ticksAt) := by
  obtain ⟨hbase, hvalue⟩ := hc.rolloverProtectedNow
  have hwraps : (s.poll k).wraps = s.wraps := if_neg ht.polled
  have hlow := ht.base
  rw [hwraps] at hbase hvalue
  rw [elapsed, hvalue, ht.initialTicks]
  omega

theorem tdiv_elapsed (hc : Ticking k s) (ht : Ticked k s) :
    (s.elapsed k).tdiv 1000 = (k.ms s.us : Int) - k.ms s.ticksAt := by
  rw [elapsed_eq hc ht]
  exact Int.mul_tdiv_cancel_left _ (by decide)

theorem Ticked.of_elsewhere (ht : Ticked k s) (h : Elsewhere s s') : Ticked k s' := by
  obtain ⟨hp, hw⟩ := h.wraps ht.polled
  refine ⟨?_, hp, ?_, ?_⟩
  · rw [h.ticksAt]
    exact Nat.le_trans ht.ticksAt_le h.us
  · rw [hw, h.ticksAt]
    exact ht.base
  · rw [h.initialTicks, h.ticksAt, hw]
    exact ht.initialTicks

theorem Showed.of_elsewhere {t : Nat} {time : Int} (hs : Showed k s.settings t time) (ht : t ≤ s.us)
    (h : Elsewhere s s') : Showed k s'.settings t time := by
  obtain ⟨offset, hforce, htime⟩ := hs
  obtain ⟨l, hl, hlater⟩ := h.settings
  rw [hl]
  exact ⟨offset, hforce.append fun x hx => Nat.le_trans ht (hlater x hx), htime⟩

theorem Initialized.of_elsewhere (hi : Initialized k s) (h : Elsewhere s s') : Initialized k s' := by
  refine ⟨hi.toTicked.of_elsewhere h, ?_, ?_, ?_⟩
  · rw [h.ticksAt, h.timeAt]
    exact hi.ticksAt_le_timeAt
  · rw [h.timeAt]
    exact Nat.le_trans hi.timeAt_le h.us
  · rw [h.timeAt, h.initialTime]
    exact hi.initialTime.of_elsewhere hi.timeAt_le h

/-- `InitializeClock` has read the ticks. -/
theorem ticked_poll (hc : Ticking k s) {pc : Option ClockPc} :
    Ticked k { s.poll k with initialTicks := s.rolloverProtectedNow k, ticksAt := s.us, pc := pc } := by
  obtain ⟨hbase, hvalue⟩ := hc.rolloverProtectedNow
  exact ⟨Nat.le_refl _, List.append_ne_nil_of_right_ne_nil _ (List.cons_ne_nil _ _), hbase, hvalue⟩

/-- The time is read within 60 s of the last `InitializeClock`. -/
theorem sound_of_read (hc : Ticking k s) (hi : Initialized k s)
    (hd : (s.elapsed k).tdiv 1000 ≤ kMaxMillisecondsToAvoidDrift) :
    Reading.Sound k s.settings ⟨s.elapsed k + s.initialTime, s.us, s.ticksAt, s.timeAt, s.initialTime⟩ := by
  rw [tdiv_elapsed hc hi.toTicked] at hd
  refine ⟨hi.ticksAt_le_timeAt, hi.timeAt_le, hi.initialTime, .inr ⟨?_, ?_⟩⟩
  · dsimp only
    omega
  · rw [elapsed_eq hc hi.toTicked]
    exact Int.add_comm ..

theorem readings_concat {P : Reading → Prop} {r : Reading} (h : ∀ r ∈ s.readings, P r) (hr : P r) :
    ∀ r' ∈ s.readings ++ [r], P r' := by
  intro r' hr'
  obtain hr' | hr' := List.mem_append.mp hr'
  · exact h r' hr'
  · exact List.mem_singleton.mp hr' ▸ hr

theorem Trusted.of_move (ht : Trusted k s) (hc : Ticking k s) (hs : LastSet s) (hm : Move k s e s') : Trusted k s' := by
  cases hm with
  | elsewhere h _ =>
    refine ⟨fun system hpc => ?_, fun hready => ?_, fun r hr => ?_⟩
    · exact (ht.ticked system (h.pc ▸ hpc)).of_elsewhere h
    · rw [Ready, h.pc, h.initialTime] at hready
      exact (ht.initialized hready).of_elsewhere h
    · rw [h.readings] at hr
      obtain ⟨hle, hticks, htime, hshowed, hvalue⟩ := ht.readings r hr
      exact ⟨Nat.le_trans hle h.us, hticks, htime, hshowed.of_elsewhere (Nat.le_trans htime hle) h, hvalue⟩
  | now hpc hne =>
    obtain ⟨⟨hle, hp, hbase, hticks⟩, hbefore, htime, hshowed⟩ := ht.initialized (.inr ⟨hpc, hne⟩)
    exact ⟨nofun, fun _ => ⟨⟨hle, hp, hbase, hticks⟩, hbefore, htime, hshowed⟩, ht.readings⟩
  | firstNow | nowFromSystemTime | resync => exact ⟨nofun, nofun, ht.readings⟩
  | read hpc hd =>
    have hi := ht.initialized (.inl hpc)
    obtain ⟨⟨hle, hp, hbase, hticks⟩, hbefore, htime, hshowed⟩ := hi.of_elsewhere (.poll k s)
    refine ⟨nofun, fun _ => ⟨⟨hle, hp, hbase, hticks⟩, hbefore, htime, hshowed⟩, ?_⟩
    exact readings_concat (P := fun r => r.takenAt ≤ s.us ∧ Reading.Sound k s.settings r) ht.readings
      ⟨Nat.le_refl _, sound_of_read hc hi hd⟩
  | initializeTicks hpc => exact ⟨fun _ _ => ticked_poll hc, nofun, ht.readings⟩
  | initializeTime hpc =>
    obtain ⟨hle, hp, hbase, hticks⟩ := ht.ticked _ hpc
    exact ⟨nofun, fun _ => ⟨⟨hle, hp, hbase, hticks⟩, hle, Nat.le_refl _, hs.showed⟩, ht.readings⟩
  | systemTime hpc =>
    obtain ⟨hle, hp, hbase, hticks⟩ := ht.ticked _ hpc
    exact ⟨nofun, fun _ => ⟨⟨hle, hp, hbase, hticks⟩, hle, Nat.le_refl _, hs.showed⟩,
      readings_concat ht.readings ⟨Nat.le_refl _, hle, Nat.le_refl _, hs.showed, .inl ⟨rfl, rfl⟩⟩⟩

theorem trusted_of_reaches (hr : Reaches (step k) (Polled k) (initial us offset) s) : Trusted k s := by
  refine hr.invariant_of (K := fun s => Ticking k s ∧ LastSet s)
    (fun t ht => ⟨ticking_of_reaches ht, lastSet_of_reaches ht⟩)
    (fun t e u hk ht _ he _ => ht.of_move hk.1 hk.2 (step_cases he)) ⟨nofun, fun h => ?_, nofun⟩
  exact h.elim nofun fun h => absurd rfl h.2

theorem sound_of_reaches (hr : Reaches (step k) (Polled k) (initial us offset) s) :
    ∀ r ∈ s.readings, Reading.Sound k s.settings r :=
  fun r h => ((trusted_of_reaches hr).readings r h).2

/-- A later reading goes by the same `InitializeClock`, or by one that came after the earlier
reading. -/
def Reading.Before (r r' : Reading) : Prop :=
  r.takenAt ≤ r'.takenAt ∧ (r.ticksAt = r'.ticksAt ∧ r.timeAt = r'.timeAt ∨ r.takenAt < r'.ticksAt)

/-- How a reading stands to the `InitializeClock` that comes next or was the last. -/
def Reading.Precedes (r : Reading) (s : SystemClock) : Prop :=
  match s.pc with
  | none | some .readTicks => r.ticksAt = s.ticksAt ∧ r.timeAt = s.timeAt ∨ r.takenAt < s.ticksAt
  | some (.initializeTicks _) => r.takenAt < s.us
  | some (.initializeTime _) => r.takenAt < s.ticksAt

/-- The wall clock is left alone, and everyone asks it by `Time::Now()`. -/
structure Orderly (k : Clocks) (us : Nat) (offset : Int) (s : SystemClock) : Prop where
  us_le : us ≤ s.us
  steady : s.offset = offset ∧ s.settings = [(us, offset)]
  now : s.pc ≠ some (.initializeTicks true) ∧ s.pc ≠ some (.initializeTime true)
  set : s.pc = some .readTicks → s.initialTime ≠ 0
  first : s.initialTime = 0 → s.readings = []
  readings : ∀ r ∈ s.readings, k.ms r.takenAt ≤ k.ms r.ticksAt + kMaxMillisecondsToAvoidDrift ∧
    r.value = r.systemTime + 1000 * (k.ms r.takenAt - k.ms r.ticksAt : Int)
  precedes : ∀ r ∈ s.readings, Reading.Precedes r s
  sorted : s.readings.Pairwise Reading.Before

theorem Orderly.of_elsewhere (ho : Orderly k us offset s) (h : Elsewhere s s') (hoffset : s'.offset = s.offset)
    (hsettings : s'.settings = s.settings) : Orderly k us offset s' := by
  refine ⟨Nat.le_trans ho.us_le h.us, ⟨hoffset.trans ho.steady.1, hsettings.trans ho.steady.2⟩, ?_, ?_, ?_, ?_, ?_, ?_⟩
  · rw [h.pc]
    exact ho.now
  · rw [h.pc, h.initialTime]
    exact ho.set
  · rw [h.initialTime, h.readings]
    exact ho.first
  · rw [h.readings]
    exact ho.readings
  · intro r hr
    rw [h.readings] at hr
    have hpre := ho.precedes r hr
    unfold Reading.Precedes at hpre ⊢
    rw [h.pc, h.ticksAt, h.timeAt]
    split at hpre
    · exact hpre
    · exact hpre
    · exact Nat.lt_of_lt_of_le hpre h.us
    · exact hpre
  · rw [h.readings]
    exact ho.sorted

theorem Orderly.of_move (ho : Orderly k us offset s) (hc : Ticking k s) (ht : Trusted k s)
    (hpos : ∀ t, us ≤ t → 0 < fileTimeToMicroseconds (k.fileTime t + offset)) (hp : Steady k s e)
    (hm : Move k s e s') : Orderly k us offset s' := by
  cases hm with
  | elsewhere h hoffset =>
    obtain ⟨hoffset, hsettings⟩ | ⟨o, rfl, -⟩ := hoffset
    · exact ho.of_elsewhere h hoffset hsettings
    · exact hp.2.elim
  | now hpc hne =>
    refine ⟨ho.us_le, ho.steady, ⟨nofun, nofun⟩, fun _ => hne, ho.first, ho.readings, fun r hr => ?_, ho.sorted⟩
    have hpre := ho.precedes r hr
    rwa [Reading.Precedes, hpc] at hpre
  | firstNow hpc hz =>
    have hnone := ho.first hz
    exact ⟨ho.us_le, ho.steady, ⟨nofun, nofun⟩, nofun, ho.first, ho.readings, hnone ▸ nofun, ho.sorted⟩
  | nowFromSystemTime => exact hp.2.elim
  | resync hpc hd =>
    refine ⟨ho.us_le, ho.steady, ⟨nofun, nofun⟩, nofun, ho.first, ho.readings, fun r hr => ?_, ho.sorted⟩
    have hi := ht.initialized (.inl hpc)
    rw [tdiv_elapsed hc hi.toTicked] at hd
    have hpre := ho.precedes r hr
    obtain ⟨hbound, -⟩ := ho.readings r hr
    rw [Reading.Precedes, hpc] at hpre
    change r.takenAt < s.us
    obtain ⟨hsame, -⟩ | hpre := hpre
    · rw [hsame] at hbound
      exact k.mono.reflect_lt (by omega)
    · exact Nat.lt_of_lt_of_le hpre hi.ticksAt_le
  | read hpc hd =>
    have hi := ht.initialized (.inl hpc)
    have hpre : ∀ r ∈ s.readings, r.ticksAt = s.ticksAt ∧ r.timeAt = s.timeAt ∨ r.takenAt < s.ticksAt := by
      intro r hr
      have hpre := ho.precedes r hr
      rwa [Reading.Precedes, hpc] at hpre
    refine ⟨ho.us_le, ho.steady, ⟨nofun, nofun⟩, nofun, fun hz => absurd hz (ho.set hpc),
      readings_concat ho.readings ⟨?_, ?_⟩, readings_concat hpre (.inl ⟨rfl, rfl⟩),
      List.pairwise_append.mpr ⟨ho.sorted, List.pairwise_singleton _ _, fun r hr r' hr' => ?_⟩⟩
    · rw [tdiv_elapsed hc hi.toTicked] at hd
      change k.ms s.us ≤ k.ms s.ticksAt + _
      omega
    · change s.elapsed k + s.initialTime = _
      rw [elapsed_eq hc hi.toTicked]
      exact Int.add_comm ..
    · obtain rfl := List.mem_singleton.mp hr'
      exact ⟨(ht.readings r hr).1, hpre r hr⟩
  | initializeTicks hpc =>
    refine ⟨ho.us_le, ho.steady, ⟨nofun, ?_⟩, nofun, ho.first, ho.readings, fun r hr => ?_, ho.sorted⟩
    · rintro ⟨⟩
      exact ho.now.1 hpc
    · have hpre := ho.precedes r hr
      rwa [Reading.Precedes, hpc] at hpre
  | initializeTime hpc =>
    have hset : 0 < s.currentWallclockMicroseconds k := by
      rw [currentWallclockMicroseconds, ho.steady.1]
      exact hpos s.us ho.us_le
    have hne := (Int.ne_of_lt hset).symm
    refine ⟨ho.us_le, ho.steady, ⟨nofun, nofun⟩, fun _ => hne, fun hz => absurd hz hne, ho.readings, fun r hr => ?_,
      ho.sorted⟩
    have hpre := ho.precedes r hr
    rw [Reading.Precedes, hpc] at hpre
    exact .inr hpre
  | systemTime hpc => exact absurd hpc ho.now.2

theorem orderly_of_reaches (hpos : ∀ t, us ≤ t → 0 < fileTimeToMicroseconds (k.fileTime t + offset))
    (hr : Reaches (step k) (Steady k) (initial us offset) s) : Orderly k us offset s := by
  refine hr.invariant_of (K := fun s => Ticking k s ∧ Trusted k s) (fun t ht => ?_)
    (fun t e u hk ho hp he _ => ho.of_move hk.1 hk.2 hpos hp (step_cases he)) ?_
  · have hpolled := ht.mono fun _ _ hp => hp.1
    exact ⟨ticking_of_reaches hpolled, trusted_of_reaches hpolled⟩
  · exact ⟨Nat.le_refl _, ⟨rfl, rfl⟩, ⟨nofun, nofun⟩, nofun, fun _ => rfl, nofun, nofun, List.Pairwise.nil⟩

theorem fileTimeToMicroseconds_bounds (ft : Int) (h : 0 ≤ ft) :
    10 * fileTimeToMicroseconds ft ≤ ft ∧ ft < 10 * fileTimeToMicroseconds ft + 10 := by
  rw [fileTimeToMicroseconds, Int.tdiv_eq_ediv_of_nonneg h]
  omega

variable {g w : Nat}

/-- What the wall clock shows lags behind by the steps it is moved on in. -/
theorem showed_of_accurate (hk : k.Accurate g w) (ho : 10 * (w + 1) ≤ 10 * us + offset) {t : Nat}
    (ht : us ≤ t) {time : Int} (hs : Showed k [(us, offset)] t time) :
    0 < time ∧ 10 * time ≤ 10 * t + offset ∧ 10 * t + offset < 10 * (time + w) + 10 := by
  obtain ⟨o, hforce, rfl⟩ := hs
  rw [inForce_singleton hforce]
  obtain ⟨hle, hge⟩ := hk.fileTime t
  obtain ⟨hlow, hhigh⟩ := fileTimeToMicroseconds_bounds (k.fileTime t + offset) (by omega)
  omega

theorem positive_of_accurate (hk : k.Accurate g w) (ho : 10 * (w + 1) ≤ 10 * us + offset) (t : Nat)
    (ht : us ≤ t) : 0 < fileTimeToMicroseconds (k.fileTime t + offset) :=
  (showed_of_accurate hk ho ht ⟨offset, ⟨[], [], us, rfl, ht, by simp⟩, rfl⟩).1

/-- What is known of a reading while the wall clock is left alone. -/
theorem reading_of_reaches (hk : k.Accurate g w) (ho : 10 * (w + 1) ≤ 10 * us + offset)
    (hr : Reaches (step k) (Steady k) (initial us offset) s) {r : Reading} (h : r ∈ s.readings) :
    us ≤ r.timeAt ∧ Reading.Sound k [(us, offset)] r ∧
      k.ms r.takenAt ≤ k.ms r.ticksAt + kMaxMillisecondsToAvoidDrift ∧
      r.value = r.systemTime + 1000 * (k.ms r.takenAt - k.ms r.ticksAt : Int) := by
  have hord := orderly_of_reaches (positive_of_accurate hk ho) hr
  have hsound := sound_of_reaches (hr.mono fun _ _ hp => hp.1) r h
  rw [hord.steady.2] at hsound
  obtain ⟨o, ⟨l, l', setAt, hl, hle, -⟩, -⟩ := hsound.systemTime
  refine ⟨?_, hsound, hord.readings r h⟩
  have hmem : (setAt, o) ∈ [(us, offset)] := hl ▸ List.mem_append_right _ (List.mem_cons_self ..)
  obtain ⟨rfl, -⟩ := by simpa using hmem
  exact hle

/-- How far a reading is from the wall clock. -/
theorem bounded_of_reaches (hk : k.Accurate g w) (ho : 10 * (w + 1) ≤ 10 * us + offset)
    (hr : Reaches (step k) (Steady k) (initial us offset) s) : ∀ r ∈ s.readings, 0 < r.value ∧ 0 ≤ r.slack ∧
      10 * (r.slack - g - w) < r.ahead offset ∧ r.ahead offset < 10 * (r.slack + g) := by
  intro r h
  obtain ⟨hstart, hsound, hlimit, hvalue⟩ := reading_of_reaches hk ho hr h
  obtain ⟨hpos, hlow, hhigh⟩ := showed_of_accurate hk ho hstart hsound.systemTime
  have hticks := hsound.ticksAt_le
  have hle := Nat.le_trans hticks hsound.timeAt_le
  have hmono := k.mono hle
  obtain ⟨hfast, hslow⟩ := hk.ms _ _ hle hlimit
  unfold Reading.slack Reading.ahead
  omega

/-- How far a reading lies before an earlier one. -/
theorem sorted_of_reaches (hk : k.Accurate g w) (ho : 10 * (w + 1) ≤ 10 * us + offset)
    (hr : Reaches (step k) (Steady k) (initial us offset) s) : s.readings.Pairwise fun (r r' : Reading) =>
      r.takenAt ≤ r'.takenAt ∧ (r.ticksAt = r'.ticksAt → r.value ≤ r'.value) ∧
        r.value < r'.value + r.slack + g + w := by
  have hord := orderly_of_reaches (positive_of_accurate hk ho) hr
  have hbounded := bounded_of_reaches hk ho hr
  refine hord.sorted.imp_of_mem fun {r r'} h h' ⟨hlater, hinit⟩ => ?_
  obtain ⟨-, hsound, -, hvalue⟩ := reading_of_reaches hk ho hr h
  obtain ⟨hstart', hsound', -, hvalue'⟩ := reading_of_reaches hk ho hr h'
  obtain ⟨-, hslack, -, hahead⟩ := hbounded r h
  obtain ⟨-, -, hshown⟩ := showed_of_accurate hk ho hstart' hsound'.systemTime
  have hmono := k.mono hlater
  have hmono' := k.mono (Nat.le_trans hsound'.ticksAt_le hsound'.timeAt_le)
  have hticks' := hsound'.ticksAt_le
  have hexact := (hk.ms 0 0 (Nat.le_refl _) (Nat.le_add_right ..)).1
  unfold Reading.slack at hslack hahead ⊢
  unfold Reading.ahead at hahead
  have hsame : r.ticksAt = r'.ticksAt ∧ r.timeAt = r'.timeAt → r.value ≤ r'.value := fun ⟨hticks, htime⟩ => by
    have hsystem : r.systemTime = r'.systemTime := by
      obtain ⟨o, hforce, heq⟩ := hsound.systemTime
      obtain ⟨o', hforce', heq'⟩ := hsound'.systemTime
      rw [heq, heq', inForce_singleton hforce, inForce_singleton hforce', htime]
    rw [hvalue, hvalue', hsystem, hticks]
    omega
  obtain hinit | hinit := hinit
  · exact ⟨hlater, fun _ => hsame hinit, by have := hsame hinit; omega⟩
  · have hle := hsound.ticksAt_le
    have hle' := hsound.timeAt_le
    exact ⟨hlater, fun hticks => by omega, by omega⟩

/-- Both clocks are moved on every 16 ms. -/
def coarse : Clocks :=
  ⟨fun us => us / 16000 * 16, fun us => (us / 16000 * 160000 : Nat), fun _ _ h =>
    Nat.mul_le_mul_right 16 (Nat.div_le_div_right h)⟩

theorem accurate_coarse : coarse.Accurate 16000 16000 := by
  refine ⟨fun a b hle _ => ?_, fun us => ?_⟩ <;> simp only [coarse] <;> omega

end SystemClock
end OscDataProcess
