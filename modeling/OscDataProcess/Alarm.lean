import OscDataProcess.Production
import OscDataProcess.Rest

/-!
# A started Factory has set an alarm

Its next Schedule task is due within one period, and its thread, if asleep, wakes up
within a millisecond after that.
-/
namespace OscDataProcess

open GuardedRun (Reaches)

namespace Chain

variable {p : Nat} {s t : Chain} {b : Beat}

/-- No task waits for longer than one delay. -/
def Soon (p : Nat) (s : Chain) : Prop := ∀ d ∈ s.delayed, d ≤ s.now + p

theorem Soon.step (h : Soon p s) (hm : Chain.step p s b = some t) : Soon p t := by
  cases step_cases hm with
  | tick =>
    intro d hd
    have := h d hd
    show d ≤ _ + _ + p
    omega
  | takeDelayed => exact fun d hd => h d (List.mem_of_mem_eraseIdx hd)
  | later =>
    intro d hd
    obtain hd | hd := List.mem_append.mp hd
    · exact h d hd
    · exact Nat.le_of_eq (List.mem_singleton.mp hd)
  | create | delete | start | stop | take | rest | again | produce => exact h

theorem soon_of_reaches {P : Chain → Beat → Prop} (hr : Reaches (step p) P initial s) : Soon p s :=
  hr.invariant (fun _ _ _ hs _ h => hs.step h) nofun

end Chain

variable {c : Config} {w : World}

/-- A Schedule task of a started Factory waits for its time, which comes within one period. -/
theorem schedule_of_atRest (hr : Reaches (World.step c) Free .initial w) (hidle : w.Idle) (htasks : w.tasks = [])
    {f : FactoryId} {fac : Factory} (hf : w.factory f = some fac) (hs : fac.start = true) :
    ∃ time, (time, f) ∈ w.delayed ∧ time ≤ w.now + newFactory.period := by
  have hsoon : (w.chain f).Soon newFactory.period :=
    Chain.soon_of_reaches (P := fun _ _ => True) (chain_of_reaches (fun _ _ _ _ _ _ _ _ => trivial) (.refl _) hr)
  have hout : 0 < (w.chain f).outstanding := by
    refine ((going_of_reaches hr f).goesOn (by simp [World.chain, hf, hs])).resolve_right fun hstage => ?_
    simp [World.chain, stageOf, hidle.2] at hstage
  have himm : (w.chain f).immediate = 0 := by simp [World.chain, htasks]
  have hne : (w.chain f).delayed ≠ [] := by
    intro hnil
    simp [Chain.outstanding, himm, hnil] at hout
  obtain ⟨time, htime⟩ := List.exists_mem_of_ne_nil _ hne
  refine ⟨time, ?_, hsoon time htime⟩
  obtain ⟨⟨time', f'⟩, hx, hdue⟩ := List.mem_filterMap.mp htime
  simp only [dueTime, Option.ite_none_right_eq_some, Option.some.injEq] at hdue
  obtain ⟨rfl, rfl⟩ := hdue
  exact hx

namespace MessageLoop

variable {α : Type} [BEq α] {l : MessageLoop α} {may : α → Bool → Prop}

/-- A sleeping loop that has a delayed task left wakes up for it. -/
theorem alarm_of_atRest (hr : Reaches step (fun l e => NeverNested may l e ∧ Short maxWait l e) .initial l)
    (h : AtRest l) {time : Nat} {x : α}
    (hx : (time, x) ∈ l.delayedTasks) : ∃ t p, l.pc = some (.wait (some t)) ∧ p ∈ l.delayedWorkQueue ∧
      p.task = x ∧ p.delayedRunTime = time ∧ t < time + 1000 := by
  have hflat : Reaches step (NeverNested may) .initial l := hr.mono fun _ _ hp => hp.1
  obtain ⟨hin, hw, hi, hwait⟩ := sleeps_of_atRest hflat h
  obtain ⟨p, hp, he⟩ : ∃ p ∈ l.delayedWorkQueue, (p.delayedRunTime, p.task) = (time, x) := by
    simpa [delayedTasks, hw, hi] using hx
  obtain ⟨rfl, rfl⟩ := Prod.mk.inj he
  have hposted : p.unnumbered ∈ l.posted :=
    List.mem_of_getElem? ((kept_of_reaches hr).2.accounted.of_places (Queues.mem_places_delayed hp)).2
  obtain ⟨deadline, hpc⟩ := hwait.resolve_left (List.ne_nil_of_mem hposted)
  have halarm := alarmed_of_reaches (hr.mono fun _ _ hp => hp.2) deadline hpc ((flat_of_reaches hflat).nestable hin)
  cases htop : DelayQueue.pop PendingTask.before l.delayedWorkQueue with
  | none =>
    rw [DelayQueue.pop_eq_none.mp htop] at hp
    cases hp
  | some top =>
    obtain ⟨t, rfl, ht⟩ := halarm top.1 top.2 htop
    have := PendingTask.le_of_pop htop p hp
    exact ⟨t, p, hpc, hp, rfl, rfl, by omega⟩

end MessageLoop

namespace Deployment

variable {d : Deployment} {Q : World → OscDataProcess.Event → Prop}

/-- While a Factory is started its thread never sleeps for good: its next Schedule task is
due within one period, and the alarm is set for less than a millisecond after that. -/
theorem keepsTicking_of_reaches (hQ : ∀ w e, e.isCode = false → Q w e)
    (hr : Reaches (step c) (Obeys Q) initial d) (hrest : d.factoryLoop.AtRest) {f : FactoryId} {fac : Factory}
    (hf : d.code.factory f = some fac) (hs : fac.start = true) :
    ∃ t p, d.factoryLoop.pc = some (.wait (some t)) ∧ p ∈ d.factoryLoop.delayedWorkQueue ∧
      p.task.task = .schedule f ∧ p.delayedRunTime ≤ d.code.now + newFactory.period ∧
      t < p.delayedRunTime + 1000 := by
  obtain ⟨hrun, hreach⟩ := running_of_reaches hQ hr
  obtain ⟨htasks, hin⟩ := MessageLoop.promptTasks_of_atRest
    (MessageLoop.neverNested_of_mailing hrun.factoryLoop) hrest
  obtain ⟨time, htime, hle⟩ := schedule_of_atRest (w := d.world) (hreach.mono fun _ _ _ => trivial) (hrun.idle hin)
    (by simp [world, World.behind, backlog, hrun.tasks, MessageLoop.mail, htasks])
    (show d.world.factory f = some fac from hf) hs
  obtain ⟨⟨time', task⟩, hx, htask⟩ : ∃ x ∈ d.factoryLoop.laterMail, x.2.schedule?.map (x.1, ·) = some (time, f) := by
    simpa [world, World.behind, backlog, hrun.delayed] using htime
  obtain ⟨f', hf', he⟩ := Option.map_eq_some_iff.mp htask
  obtain ⟨rfl, rfl⟩ := Prod.mk.inj he
  obtain ⟨y, hy, he⟩ := List.mem_map.mp hx
  obtain ⟨rfl, rfl⟩ := Prod.mk.inj he
  obtain ⟨t, p, hpc, hp, htask, htime, ht⟩ := MessageLoop.alarm_of_atRest hrun.factoryLoop hrest hy
  rw [← htime] at hle ht
  rw [← htask] at hf'
  refine ⟨t, p, hpc, hp, ?_, hle, ht⟩
  cases hp : p.task.task with
  | schedule f => simpa [FactoryTask.schedule?, hp] using hf'
  | relay | calls => simp [FactoryTask.schedule?, hp] at hf'

/-- A Factory is started and has produced its first datum. -/
theorem keepsTicking_of_reaches_started : ∃ d fac, Reaches (step oneThread) (Obeys Free) initial d ∧
    (d.code.factory 0 = some fac ∧ fac.start = true) ∧
      ∃ t p, d.factoryLoop.pc = some (.wait (some t)) ∧ p ∈ d.factoryLoop.delayedWorkQueue ∧
        p.task.task = .schedule 0 ∧ p.delayedRunTime ≤ d.code.now + newFactory.period ∧
        t < p.delayedRunTime + 1000 := by
  obtain ⟨d, hr, hd⟩ := GuardedRun.exists_of_execute (step oneThread) (Obeys Free) initial
    (.factory (.run false false) :: .code (.post [.create, .start]) :: .factory .scheduleWork ::
      List.replicate 3 (.factory .pump) ++ List.replicate 3 (.code (.run 0 [])) ++
      .factory .taskDone :: .factory .scheduleWork :: List.replicate 4 (.factory .pump) ++
      List.replicate 3 (.code (.run 0 [])) ++
      .factory .taskDone :: .factory .scheduleWork :: List.replicate 14 (.factory .pump))
    (fun d => decide d.factoryLoop.AtRest &&
      (d.code.factory 0).any fun (fac : Factory) => decide (fac.start = true)) (by decide +kernel)
  obtain ⟨hrest, hfac⟩ := Bool.and_eq_true_iff.mp hd
  obtain ⟨fac, hfac, hs⟩ := (Option.any_eq_true ..).mp hfac
  exact ⟨d, fac, hr, ⟨hfac, of_decide_eq_true hs⟩,
    keepsTicking_of_reaches (fun _ _ _ => trivial) hr (of_decide_eq_true hrest) hfac (of_decide_eq_true hs)⟩

end Deployment
end OscDataProcess
