import OscDataProcess.Deployment
import OscDataProcess.LoopTimer

/-!
# The deployment on message loops refines the one with plain queues
-/
namespace OscDataProcess

open Function (update)
open GuardedRun (Reaches)

namespace MessageLoop

variable {τ : Type} {l l' : MessageLoop (Closure τ)}

/-- The tasks of a mailbox, in order. -/
def mail (l : MessageLoop (Closure τ)) : List τ := l.promptTasks.map Closure.task

/-- The tasks of a mailbox that wait for their time. -/
def laterMail (l : MessageLoop (Closure τ)) : List (Nat × τ) := l.delayedTasks.map fun x => (x.1, x.2.task)

/-- Loops that are not nested, whose tasks `may` be posted with or without a delay that the pump
can wait for. -/
def Mailing (may : τ → Bool → Prop) (l : MessageLoop (Closure τ)) (e : Event (Closure τ)) : Prop :=
  NeverNested (fun x b => may x.task b) l e ∧ Short maxWait l e

theorem mailing_of_inner {may : τ → Bool → Prop} {e : Event (Closure τ)} (h : Inner l e) : Mailing may l e := by
  refine ⟨neverNested_of_inner h, ?_⟩
  cases e with
  | post => cases h
  | _ => trivial

theorem neverNested_of_mailing [DecidableEq τ] {may : τ → Bool → Prop} (hr : Reaches step (Mailing may) .initial l) :
    Reaches step (NeverNested fun x b => may x.task b) .initial l :=
  hr.mono fun _ _ hp => hp.1

theorem mail_postDelayedTask (x : Closure τ) (time delay : Nat) :
    mail (l.postDelayedTask x time delay true) = l.mail ++ if delay = 0 then [x.task] else [] := by
  by_cases h : delay = 0
  · simp [mail, promptTasks, postDelayedTask, calculateDelayedRuntime, PendingTask.delayed, h]
  · have hpos : 0 < delay := Nat.pos_of_ne_zero h
    simp [mail, promptTasks, postDelayedTask, calculateDelayedRuntime, PendingTask.delayed, h, hpos]

theorem laterMail_postDelayedTask (x : Closure τ) (time delay : Nat) :
    laterMail (l.postDelayedTask x time delay true) =
      l.laterMail ++ if delay = 0 then [] else [(time + delay, x.task)] := by
  by_cases h : delay = 0
  · simp [laterMail, delayedTasks, postDelayedTask, calculateDelayedRuntime, PendingTask.delayed, h]
  · have hpos : 0 < delay := Nat.pos_of_ne_zero h
    simp [laterMail, delayedTasks, postDelayedTask, calculateDelayedRuntime, PendingTask.delayed, h, hpos]

theorem mail_postAll (xs : List (Nat × τ)) :
    mail (l.postAll xs) = l.mail ++ (xs.filter (·.1 = 0)).map Prod.snd := by
  induction xs generalizing l with
  | nil => simp [postAll]
  | cons x xs ih =>
    obtain ⟨delay, task⟩ := x
    rw [postAll, ih, mail_postDelayedTask]
    by_cases h : delay = 0 <;> simp [h]

theorem laterMail_postAll (xs : List (Nat × τ)) :
    laterMail (l.postAll xs) = l.laterMail ++ (xs.filter (·.1 ≠ 0)).map fun x => (l.now + x.1, x.2) := by
  induction xs generalizing l with
  | nil => simp [postAll]
  | cons x xs ih =>
    obtain ⟨delay, task⟩ := x
    rw [postAll, ih, laterMail_postDelayedTask]
    by_cases h : delay = 0 <;> simp [h, postDelayedTask]

@[simp] theorem postAll_now (xs : List (Nat × τ)) : (l.postAll xs).now = l.now := by
  induction xs generalizing l with
  | nil => rfl
  | cons x xs ih => exact ih

@[simp] theorem postAll_runLoops (xs : List (Nat × τ)) : (l.postAll xs).runLoops = l.runLoops := by
  induction xs generalizing l with
  | nil => rfl
  | cons x xs ih => exact ih

theorem postAll_reaches [DecidableEq τ] {may : τ → Bool → Prop} {xs : List (Nat × τ)}
    (h : ∀ x ∈ xs, may x.2 (0 < x.1) ∧ x.1 ≤ maxWait) : Reaches step (Mailing may) l (l.postAll xs) := by
  induction xs generalizing l with
  | nil => exact .refl _
  | cons x xs ih =>
    obtain ⟨delay, task⟩ := x
    have hpost : l.step (.post ⟨l.posted.length, task⟩ l.now delay true) =
        some (l.postDelayedTask ⟨l.posted.length, task⟩ l.now delay true) := if_pos (Nat.le_refl _)
    exact ((Reaches.refl l).tail (h _ (.head _)) hpost).trans (ih fun x hx => h x (.tail _ hx))

theorem mail_of_cons {x : Closure τ} (h : l.promptTasks = x :: l'.promptTasks) : l.mail = x.task :: l'.mail := by
  simp [mail, h]

theorem mail_of_eq (h : l'.promptTasks = l.promptTasks) : l'.mail = l.mail := by
  simp [mail, h]

theorem laterMail_of_eq (h : l'.delayedTasks = l.delayedTasks) : l'.laterMail = l.laterMail := by
  simp [laterMail, h]

theorem laterMail_of_eraseIdx {i : Nat} (h : l'.delayedTasks = l.delayedTasks.eraseIdx i) :
    l'.laterMail = l.laterMail.eraseIdx i := by
  rw [laterMail, h, laterMail, List.eraseIdx_map]

/-- Only what may be delayed waits for its time. -/
theorem Flat.may_of_delayedTasks {α : Type} {may : α → Bool → Prop} {l : MessageLoop α} (h : Flat may l)
    {y : Nat × α} (hy : y ∈ l.delayedTasks) : may y.2 true := by
  obtain ⟨p, hp, rfl⟩ := List.mem_map.mp hy
  obtain hp | hp := List.mem_append.mp hp
  · exact h.delayed p hp ▸ h.waiting p (List.mem_append_right _ hp)
  · obtain ⟨hp, hd⟩ := List.mem_filter.mp hp
    exact hd ▸ h.waiting p (List.mem_append_left _ hp)

end MessageLoop

def FactoryTask.schedule? : FactoryTask → Option FactoryId
  | .schedule f => some f
  | _ => none

/-- On the factory thread only Schedule is delayed. -/
def FactoryMay (task : FactoryTask) (delayed : Bool) : Prop := delayed → task.schedule?.isSome

/-- On a host thread nothing is delayed. -/
def HostMay (_ : HostTask) (delayed : Bool) : Prop := delayed = false

namespace Deployment

def backlog (d : Deployment) : Backlog where
  tasks := d.factoryLoop.mail
  delayed := d.factoryLoop.laterMail.filterMap fun x => x.2.schedule?.map (x.1, ·)
  queue t := (d.hostLoop t).mail

/-- The deployment with its message loops seen as plain queues. -/
def world (d : Deployment) : World := d.code.behind d.backlog

/-- What holds in every reachable state. -/
structure Running (d : Deployment) : Prop where
  clock : d.factoryLoop.now = d.code.now
  tasks : d.code.tasks = []
  delayed : d.code.delayed = []
  queue : ∀ t, (d.code.loop t).queue = []
  idle : d.factoryLoop.inTask = none → d.code.Idle
  hostIdle : ∀ t, (d.hostLoop t).inTask = none → (d.code.loop t).pc = .idle
  factoryLoop : Reaches MessageLoop.step (MessageLoop.Mailing FactoryMay) .initial d.factoryLoop
  hostLoop : ∀ t, Reaches MessageLoop.step (MessageLoop.Mailing HostMay) .initial (d.hostLoop t)

theorem running_initial : Running initial :=
  ⟨rfl, rfl, rfl, fun _ => rfl, fun _ => ⟨rfl, rfl⟩, fun _ _ => rfl, .refl _, fun _ => .refl _⟩

variable {c : Config} {d d' : Deployment} {w : World}

theorem deliver_tasks (hdue : ∀ x ∈ w.delayed, w.now < x.1) :
    (d.deliver w).backlog.tasks = d.backlog.tasks ++ w.tasks := by
  have hlater : (w.delayed.map fun x => (x.1 - w.now, FactoryTask.schedule x.2)).filter (·.1 = 0) = [] := by
    refine List.filter_eq_nil_iff.mpr fun x hx => ?_
    obtain ⟨y, hy, rfl⟩ := List.mem_map.mp hx
    simpa using Nat.sub_ne_zero_of_lt (hdue y hy)
  rw [backlog, deliver, MessageLoop.mail_postAll, List.filter_append, hlater]
  simp [backlog, List.filter_map, Function.comp_def]

theorem deliver_delayed (hclock : d.factoryLoop.now = w.now) (hdue : ∀ x ∈ w.delayed, w.now < x.1) :
    (d.deliver w).backlog.delayed = d.backlog.delayed ++ w.delayed := by
  have hlater : (w.delayed.map fun x => (x.1 - w.now, FactoryTask.schedule x.2)).filter (·.1 ≠ 0) =
      w.delayed.map fun x => (x.1 - w.now, FactoryTask.schedule x.2) := by
    refine List.filter_eq_self.mpr fun x hx => ?_
    obtain ⟨y, hy, rfl⟩ := List.mem_map.mp hx
    simpa using Nat.sub_ne_zero_of_lt (hdue y hy)
  have hback : (w.delayed.map fun x => (w.now + (x.1 - w.now), x.2)) = w.delayed := by
    refine (List.map_congr_left fun x hx => ?_).trans (List.map_id _)
    rw [Nat.add_sub_cancel' (hdue x hx).le]
    rfl
  rw [backlog, deliver, MessageLoop.laterMail_postAll, List.filter_append, hlater, hclock]
  simpa [backlog, List.filter_map, Function.comp_def, FactoryTask.schedule?] using hback

theorem deliver_queue (t : ThreadId) : (d.deliver w).backlog.queue t = d.backlog.queue t ++ (w.loop t).queue := by
  simp [backlog, deliver, MessageLoop.mail_postAll, List.filter_map, Function.comp_def]

/-- What code has posted comes after what was posted before. -/
theorem deliver_world (hclock : d.factoryLoop.now = w.now) (hdue : ∀ x ∈ w.delayed, w.now < x.1) :
    (d.deliver w).world = w.behind d.backlog := by
  simp only [world, World.behind, deliver_tasks hdue, deliver_delayed hclock hdue, deliver_queue]
  simp [deliver]

theorem beginTask_behind (b : Backlog) (t : FactoryTask) : (w.behind b).beginTask t = (w.beginTask t).behind b := by
  cases t <;> rfl

/-- The factory loop runs the task in front. -/
theorem begin_world (hr : Running d) (hidle : d.code.Idle) {l : MessageLoop (Closure FactoryTask)} {x : FactoryTask}
    (hp : d.factoryLoop.mail = x :: l.mail) (hd : l.laterMail = d.factoryLoop.laterMail) :
    World.step c d.world .begin = some (world ⟨d.code.beginTask x, l, d.hostLoop⟩) := by
  have htasks : d.world.tasks = x :: l.mail := by simp [world, World.behind, backlog, hr.tasks, hp]
  have hworld : { d.world with tasks := l.mail } = d.code.behind (backlog ⟨d.code, l, d.hostLoop⟩) := by
    simp [world, World.behind, backlog, hr.tasks, hd]
  have hidle : d.world.Idle := hidle
  simp only [World.step, if_pos hidle, htasks, hworld, beginTask_behind]
  rfl

/-- An entry that a filter keeps is found again in what the filter keeps. -/
theorem filterMap_eraseIdx {α β : Type} {f : α → Option β} {xs : List α} {i : Nat} {a : α} {b : β}
    (hi : xs[i]? = some a) (hb : f a = some b) :
    ∃ j : Nat, (xs.filterMap f)[j]? = some b ∧ (xs.eraseIdx i).filterMap f = (xs.filterMap f).eraseIdx j := by
  induction xs generalizing i with
  | nil => simp at hi
  | cons x xs ih =>
    cases i with
    | zero =>
      obtain rfl : x = a := by simpa using hi
      exact ⟨0, by simp [hb], by simp [hb]⟩
    | succ i =>
      obtain ⟨j, hj, he⟩ := ih (by simpa using hi)
      cases hx : f x with
      | none => exact ⟨j, by simpa [hx] using hj, by simpa [hx] using he⟩
      | some y => exact ⟨j + 1, by simpa [hx] using hj, by simpa [hx] using he⟩

/-- The factory loop runs a delayed task that is due. -/
theorem beginDelayed_world (hr : Running d) (hidle : d.code.Idle) {l : MessageLoop (Closure FactoryTask)}
    {i t : Nat} {x : FactoryTask} (hx : x.schedule?.isSome) (hi : d.factoryLoop.laterMail[i]? = some (t, x))
    (ht : t ≤ d.code.now) (hp : l.mail = d.factoryLoop.mail) (hd : l.laterMail = d.factoryLoop.laterMail.eraseIdx i) :
    ∃ j, World.step c d.world (.beginDelayed j) = some (world ⟨d.code.beginTask x, l, d.hostLoop⟩) := by
  obtain ⟨f, hf⟩ := Option.isSome_iff_exists.mp hx
  obtain rfl : x = .schedule f := by
    cases x <;> simp [FactoryTask.schedule?] at hf
    exact hf ▸ rfl
  obtain ⟨j, hj, he⟩ := filterMap_eraseIdx
    (f := fun x : Nat × FactoryTask => x.2.schedule?.map (x.1, ·)) hi (b := (t, f)) rfl
  refine ⟨j, ?_⟩
  have hget : d.world.delayed[j]? = some (t, f) := by
    simpa [world, World.behind, backlog, hr.delayed] using hj
  have hworld : { d.world with delayed := d.world.delayed.eraseIdx j } =
      d.code.behind (backlog ⟨d.code, l, d.hostLoop⟩) := by
    simp [world, World.behind, backlog, hr.delayed, hp, hd, he]
  have hidle : d.world.Idle := hidle
  have ht : t ≤ d.world.now := ht
  simp only [World.step, if_pos hidle, hget, if_pos ht, hworld, beginTask_behind]
  rfl

/-- A host thread's loop runs the task in front. -/
theorem beginHost_world (hr : Running d) {t : ThreadId} (hidle : (d.code.loop t).pc = .idle)
    {l : MessageLoop (Closure HostTask)} {x : HostTask} (hp : (d.hostLoop t).mail = x :: l.mail) :
    World.step c d.world (.beginHost t) =
      some (world ⟨d.code.setHostPc t x.start, d.factoryLoop, update d.hostLoop t l⟩) := by
  have hqueue : (d.world.loop t).queue = x :: l.mail := by
    simp [world, World.behind, backlog, hr.queue, hp]
  have hidle : (d.world.loop t).pc = .idle := hidle
  simp only [World.step, if_pos hidle, hqueue, Option.some.injEq]
  have hloop : update d.world.loop t ⟨l.mail, x.start⟩ =
      (world ⟨d.code.setHostPc t x.start, d.factoryLoop, update d.hostLoop t l⟩).loop := by
    funext s
    obtain rfl | hne := eq_or_ne s t
    · simp [world, World.behind, backlog, World.setHostPc, hr.queue]
    · simp [world, World.behind, backlog, World.setHostPc, Function.update_of_ne hne]
  rw [hloop]
  rfl

/-- A loop that starts no task changes nothing that code can see. -/
theorem still_world {l : MessageLoop (Closure FactoryTask)} (hp : l.mail = d.factoryLoop.mail)
    (hd : l.laterMail = d.factoryLoop.laterMail) : world ⟨d.code, l, d.hostLoop⟩ = d.world := by
  simp [world, World.behind, backlog, hp, hd]

theorem stillHost_world {t : ThreadId} {l : MessageLoop (Closure HostTask)}
    (hp : l.mail = (d.hostLoop t).mail) : world ⟨d.code, d.factoryLoop, update d.hostLoop t l⟩ = d.world := by
  have hmail : ∀ s, (update d.hostLoop t l s).mail = (d.hostLoop s).mail := fun s => by
    obtain rfl | hne := eq_or_ne s t
    · simpa using hp
    · rw [Function.update_of_ne hne]
  simp [world, World.behind, backlog, hmail]

/-- What the step of one loop does to the deployment. -/
theorem factory_world (hr : Running d) {l : MessageLoop (Closure FactoryTask)}
    {e : MessageLoop.Event (Closure FactoryTask)} (hin : MessageLoop.Inner d.factoryLoop e)
    (he : d.factoryLoop.step e = some l) :
    match MessageLoop.started d.factoryLoop l with
    | some x => ∃ e', e'.isCode = false ∧
        World.step c d.world e' = some (world ⟨d.code.beginTask x.task, l, d.hostLoop⟩)
    | none => world ⟨d.code, l, d.hostLoop⟩ = d.world := by
  have hflat := MessageLoop.flat_of_reaches (MessageLoop.neverNested_of_mailing hr.factoryLoop)
  have hs := MessageLoop.step_serves hflat hin he
  cases hx : MessageLoop.started d.factoryLoop l with
  | none =>
    rw [hx] at hs
    cases hs with
    | still hp hd => exact still_world (MessageLoop.mail_of_eq hp) (MessageLoop.laterMail_of_eq hd)
  | some x =>
    have hidle := hr.idle (MessageLoop.inTask_of_started hin he hx).1
    rw [hx] at hs
    cases hs with
    | prompt hp hd =>
      exact ⟨_, rfl, begin_world hr hidle (MessageLoop.mail_of_cons hp) (MessageLoop.laterMail_of_eq hd)⟩
    | @due i t _ hi ht hp hd =>
      have hmay := hflat.may_of_delayedTasks (List.mem_of_getElem? hi) rfl
      have hi' : d.factoryLoop.laterMail[i]? = some (t, x.task) := by simp [MessageLoop.laterMail, hi]
      obtain ⟨j, hj⟩ := beginDelayed_world hr hidle hmay hi' (hr.clock ▸ ht) (MessageLoop.mail_of_eq hp)
        (MessageLoop.laterMail_of_eraseIdx hd)
      exact ⟨_, rfl, hj⟩

theorem host_world (hr : Running d) {t : ThreadId} {l : MessageLoop (Closure HostTask)}
    {e : MessageLoop.Event (Closure HostTask)} (hin : MessageLoop.Inner (d.hostLoop t) e)
    (he : (d.hostLoop t).step e = some l) :
    match MessageLoop.started (d.hostLoop t) l with
    | some x => World.step c d.world (.beginHost t) =
        some (world ⟨d.code.setHostPc t x.task.start, d.factoryLoop, update d.hostLoop t l⟩)
    | none => world ⟨d.code, d.factoryLoop, update d.hostLoop t l⟩ = d.world := by
  have hflat := MessageLoop.flat_of_reaches (MessageLoop.neverNested_of_mailing (hr.hostLoop t))
  have hs := MessageLoop.step_serves hflat hin he
  cases hx : MessageLoop.started (d.hostLoop t) l with
  | none =>
    rw [hx] at hs
    cases hs with
    | still hp hd => exact stillHost_world (MessageLoop.mail_of_eq hp)
  | some x =>
    have hidle := hr.hostIdle t (MessageLoop.inTask_of_started hin he hx).1
    rw [hx] at hs
    cases hs with
    | prompt hp hd => exact beginHost_world hr hidle (MessageLoop.mail_of_cons hp)
    | due hi => exact absurd (hflat.may_of_delayedTasks (List.mem_of_getElem? hi)) (by simp [HostMay])

theorem Running.code (hr : Running d) {w : World} (hs : CodeStep d.code w) : Running (d.deliver w) := by
  have hsoon : ∀ x ∈ w.delayed, x.1 ≤ w.now + 1000000 := fun x hx => by
    have := ((hs.delayed x hx).resolve_left (by simp [hr.delayed])).2
    rwa [hs.now]
  have hin : ∀ {τ : Type} (l : MessageLoop (Closure τ)) (xs : List (Nat × τ)), (l.postAll xs).inTask = l.inTask :=
    fun l xs => by simp [MessageLoop.inTask]
  refine ⟨?_, rfl, rfl, fun _ => rfl, fun h => ?_, fun t h => ?_, ?_, fun t => ?_⟩
  · exact (MessageLoop.postAll_now _).trans (hr.clock.trans hs.now.symm)
  · exact hs.idle (hr.idle (by rwa [deliver, hin] at h))
  · exact hs.hostIdle t (hr.hostIdle t (by rwa [deliver, hin] at h))
  · refine hr.factoryLoop.trans (MessageLoop.postAll_reaches fun x hx => ?_)
    obtain hx | hx := List.mem_append.mp hx <;> obtain ⟨y, hy, rfl⟩ := List.mem_map.mp hx
    · exact ⟨fun h => absurd h (by simp), Nat.zero_le _⟩
    · have hle := hsoon y hy
      refine ⟨fun _ => rfl, ?_⟩
      simp only [MessageLoop.maxWait]
      omega
  · refine (hr.hostLoop t).trans (MessageLoop.postAll_reaches fun x hx => ?_)
    obtain ⟨y, -, rfl⟩ := List.mem_map.mp hx
    exact ⟨rfl, Nat.zero_le _⟩

@[simp] theorem beginTask_now (t : FactoryTask) : (w.beginTask t).now = w.now := by cases t <;> rfl
@[simp] theorem beginTask_tasks (t : FactoryTask) : (w.beginTask t).tasks = w.tasks := by cases t <;> rfl
@[simp] theorem beginTask_delayed (t : FactoryTask) : (w.beginTask t).delayed = w.delayed := by cases t <;> rfl
@[simp] theorem beginTask_loop (t : FactoryTask) : (w.beginTask t).loop = w.loop := by cases t <;> rfl

theorem Running.factory (hr : Running d) {l : MessageLoop (Closure FactoryTask)}
    {e : MessageLoop.Event (Closure FactoryTask)} (hin : MessageLoop.Inner d.factoryLoop e)
    (hdone : e.isTaskDone → d.code.Idle) (he : d.factoryLoop.step e = some l) {w : World}
    (hw : match MessageLoop.started d.factoryLoop l with
      | some x => w = d.code.beginTask x.task
      | none => w = d.code) : Running ⟨w, l, d.hostLoop⟩ := by
  have hnow := MessageLoop.now_of_inner hin he
  have hreach := hr.factoryLoop.tail (MessageLoop.mailing_of_inner hin) he
  cases hx : MessageLoop.started d.factoryLoop l with
  | some x =>
    obtain rfl : w = _ := by simpa [hx] using hw
    have hbusy := (MessageLoop.inTask_of_started hin he hx).2
    refine ⟨?_, ?_, ?_, ?_, fun h => ?_, ?_, hreach, hr.hostLoop⟩
    · simpa [hnow] using hr.clock
    · simpa using hr.tasks
    · simpa using hr.delayed
    · simpa using hr.queue
    · exact absurd hbusy (by simp [show l.inTask = none from h])
    · simpa using hr.hostIdle
  | none =>
    obtain rfl : w = _ := by simpa [hx] using hw
    refine ⟨hnow.trans hr.clock, hr.tasks, hr.delayed, hr.queue, fun h => ?_, hr.hostIdle, hreach, hr.hostLoop⟩
    by_cases hd : e.isTaskDone
    · exact hdone hd
    · have hu : MessageLoop.Mailing FactoryMay d.factoryLoop e := MessageLoop.mailing_of_inner hin
      exact hr.idle (MessageLoop.inTask_of_step hu.1 he hd h)

theorem Running.host (hr : Running d) {t : ThreadId} {l : MessageLoop (Closure HostTask)}
    {e : MessageLoop.Event (Closure HostTask)} (hin : MessageLoop.Inner (d.hostLoop t) e)
    (hdone : e.isTaskDone → (d.code.loop t).pc = .idle) (he : (d.hostLoop t).step e = some l) {w : World}
    (hw : match MessageLoop.started (d.hostLoop t) l with
      | some x => w = d.code.setHostPc t x.task.start
      | none => w = d.code) : Running ⟨w, d.factoryLoop, update d.hostLoop t l⟩ := by
  have hreach : ∀ s, Reaches MessageLoop.step (MessageLoop.Mailing HostMay) .initial (update d.hostLoop t l s) := by
    intro s
    obtain rfl | hne := eq_or_ne s t
    · rw [Function.update_self]
      exact (hr.hostLoop s).tail (MessageLoop.mailing_of_inner hin) he
    · rw [Function.update_of_ne hne]
      exact hr.hostLoop s
  cases hx : MessageLoop.started (d.hostLoop t) l with
  | some x =>
    obtain rfl : w = _ := by simpa [hx] using hw
    have hbusy := (MessageLoop.inTask_of_started hin he hx).2
    refine ⟨hr.clock, hr.tasks, hr.delayed, fun s => ?_, hr.idle, fun s h => ?_, hr.factoryLoop, hreach⟩
    · obtain rfl | hne := eq_or_ne s t
      · simpa [World.setHostPc] using hr.queue s
      · simpa [World.setHostPc, Function.update_of_ne hne] using hr.queue s
    · have h : (update d.hostLoop t l s).inTask = none := h
      obtain rfl | hne := eq_or_ne s t
      · rw [Function.update_self] at h
        exact absurd hbusy (by simp [h])
      · rw [Function.update_of_ne hne] at h
        simpa [World.setHostPc, Function.update_of_ne hne] using hr.hostIdle s h
  | none =>
    obtain rfl : w = _ := by simpa [hx] using hw
    refine ⟨hr.clock, hr.tasks, hr.delayed, hr.queue, hr.idle, fun s h => ?_, hr.factoryLoop, hreach⟩
    have h : (update d.hostLoop t l s).inTask = none := h
    obtain rfl | hne := eq_or_ne s t
    · rw [Function.update_self] at h
      by_cases hd : e.isTaskDone
      · exact hdone hd
      · have hu : MessageLoop.Mailing HostMay (d.hostLoop s) e := MessageLoop.mailing_of_inner hin
        exact hr.hostIdle s (MessageLoop.inTask_of_step hu.1 he hd h)
    · rw [Function.update_of_ne hne] at h
      exact hr.hostIdle s h

theorem Running.tick (hr : Running d) (us : Nat) :
    Running ⟨{ d.code with now := d.code.now + us }, { d.factoryLoop with now := d.factoryLoop.now + us },
      fun t => { d.hostLoop t with now := (d.hostLoop t).now + us }⟩ where
  clock := congrArg (· + us) hr.clock
  tasks := hr.tasks
  delayed := hr.delayed
  queue := hr.queue
  idle := hr.idle
  hostIdle := hr.hostIdle
  factoryLoop := hr.factoryLoop.tail (e := .tick us) ⟨trivial, trivial⟩ rfl
  hostLoop t := (hr.hostLoop t).tail (e := .tick us) ⟨trivial, trivial⟩ rfl

/-- A discipline of the callers, which the loops and the clock cannot break. -/
def Obeys (Q : World → OscDataProcess.Event → Prop) (d : Deployment) : Event → Prop
  | .code e => Q d.world e
  | _ => True

instance (Q : World → OscDataProcess.Event → Prop) [∀ w e, Decidable (Q w e)] (d : Deployment) :
    ∀ e, Decidable (Obeys Q d e)
  | .code e => inferInstanceAs (Decidable (Q d.world e))
  | .factory _ | .host _ _ | .tick _ => isTrue trivial

theorem Running.step (hr : Running d) (hw : d.world.Owned) {e : Event} (he : d.step c e = some d') :
    Running d' ∧ (d'.world = d.world ∨
      ∃ e', (e = .code e' ∨ e'.isCode = false) ∧ World.step c d.world e' = some d'.world) := by
  cases e with
  | code e =>
    simp only [Deployment.step, Option.ite_none_right_eq_some] at he
    obtain ⟨hcode, he⟩ := he
    obtain ⟨w, hstep, rfl⟩ := Option.map_eq_some_iff.mp he
    have hs := codeStep_of_step (w := d.code) hw hcode hstep
    refine ⟨hr.code hs, .inr ⟨e, .inl rfl, ?_⟩⟩
    rw [world, World.step_behind hcode, hstep, Option.map_some, deliver_world (hr.clock.trans hs.now.symm)]
    intro x hx
    rw [hs.now]
    exact ((hs.delayed x hx).resolve_left (by simp [hr.delayed])).1
  | factory e =>
    simp only [Deployment.step, Option.ite_none_right_eq_some] at he
    obtain ⟨⟨hin, hdone⟩, he⟩ := he
    obtain ⟨l, hstep, rfl⟩ := Option.map_eq_some_iff.mp he
    have hworld := factory_world (c := c) hr hin hstep
    refine ⟨hr.factory hin hdone hstep ?_, ?_⟩
    · cases MessageLoop.started d.factoryLoop l <;> rfl
    · cases hx : MessageLoop.started d.factoryLoop l with
      | some x =>
        rw [hx] at hworld
        obtain ⟨e', he', hstep'⟩ := hworld
        exact .inr ⟨e', .inr he', hstep'⟩
      | none =>
        rw [hx] at hworld
        exact .inl hworld
  | host t e =>
    simp only [Deployment.step, Option.ite_none_right_eq_some] at he
    obtain ⟨⟨hin, hdone⟩, he⟩ := he
    obtain ⟨l, hstep, rfl⟩ := Option.map_eq_some_iff.mp he
    have hworld := host_world (c := c) hr hin hstep
    refine ⟨hr.host hin hdone hstep ?_, ?_⟩
    · cases MessageLoop.started (d.hostLoop t) l <;> rfl
    · cases hx : MessageLoop.started (d.hostLoop t) l with
      | some x =>
        rw [hx] at hworld
        exact .inr ⟨_, .inr rfl, hworld⟩
      | none =>
        rw [hx] at hworld
        exact .inl hworld
  | tick us =>
    obtain rfl := Option.some.inj he
    exact ⟨hr.tick us, .inr ⟨.tick us, .inr rfl, rfl⟩⟩

theorem running_of_reaches {Q : World → OscDataProcess.Event → Prop} (hQ : ∀ w e, e.isCode = false → Q w e)
    (hr : Reaches (step c) (Obeys Q) initial d) : Running d ∧ Reaches (World.step c) Q .initial d.world := by
  refine hr.invariant (I := fun d => Running d ∧ Reaches (World.step c) Q .initial d.world)
    (fun d e d' ⟨hrun, hreach⟩ hp he => ?_) ⟨running_initial, .refl _⟩
  obtain ⟨hrun', hsame | ⟨e', he', hstep⟩⟩ := hrun.step (counted_of_reaches hreach).owned he
  · exact ⟨hrun', hsame ▸ hreach⟩
  · refine ⟨hrun', hreach.tail ?_ hstep⟩
    obtain rfl | hcode := he'
    · exact hp
    · exact hQ _ _ hcode

/-- On message loops the deployment does nothing that it could not do with plain queues, so
what holds of all its runs there holds here: every step is one of the deployment with
plain queues, the same for an event of the code, or changes nothing there. -/
theorem world_of_reaches {Q : World → OscDataProcess.Event → Prop} (hQ : ∀ w e, e.isCode = false → Q w e)
    (hr : Reaches (step c) (Obeys Q) initial d) :
    Reaches (World.step c) Q .initial d.world ∧ ∀ e d', d.step c e = some d' →
      d'.world = d.world ∨
        ∃ e', (e = .code e' ∨ e'.isCode = false) ∧ World.step c d.world e' = some d'.world := by
  obtain ⟨hrun, hreach⟩ := running_of_reaches hQ hr
  exact ⟨hreach, fun e d' he => (hrun.step (counted_of_reaches hreach).owned he).2⟩

/-- A Factory is created, started and produces, and its loop sleeps until the next time. -/
theorem world_of_reaches_produced : ∃ d, Reaches (step .plain) (Obeys fun _ _ => True) initial d ∧
    (d.world.tasks = [] ∧ d.world.delayed = [(1000, 0)] ∧ d.world.dataId = 1) ∧
      Reaches (World.step .plain) (fun _ _ => True) .initial d.world := by
  obtain ⟨d, hr, hd⟩ := GuardedRun.exists_of_execute (step .plain) (Obeys fun _ _ => True) initial
    ([.factory (.run false false), .code (.post [.create, .start]), .factory .pump, .factory .pump, .factory .pump,
      .code (.run 0 []), .code (.run 0 []), .code (.run 0 []), .factory .taskDone, .factory .pump, .factory .pump,
      .factory .pump, .factory .pump, .code (.run 0 []), .code (.run 0 []), .code (.run 0 []), .factory .taskDone] ++
      List.replicate 8 (.factory .pump))
    (fun d => decide (d.world.tasks = [] ∧ d.world.delayed = [(1000, 0)] ∧ d.world.dataId = 1)) (by decide)
  exact ⟨d, hr, of_decide_eq_true hd, (world_of_reaches (fun _ _ _ => trivial) hr).1⟩

end Deployment
end OscDataProcess
