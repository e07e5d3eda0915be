import Mathlib.Algebra.BigOperators.Group.Finset.Piecewise
import Mathlib.Algebra.Order.BigOperators.Group.List
import OscDataProcess.Lifetime
import OscDataProcess.Notification
import OscDataProcess.Production
import OscDataProcess.Rest

/-!
# The code comes to rest

When nobody calls and no delayed task falls due, the threads of the deployment have only so
much left to do: every task, every loop over the observers and every callback uses up some
of it and starts nothing that was not allowed for.
-/
namespace OscDataProcess

open Function (update)
open GuardedRun (Along Reaches)
open World

/-- The threads go on with what they have; plain observers make no calls. -/
def Unattended (_ : World) : Event → Prop
  | .begin | .beginHost _ | .runHost _ => True
  | .run _ script => script = []
  | .post _ | .beginDelayed _ | .init _ | .destroy _ | .addRef _ | .dropRef _ | .tick _ => False

instance (w : World) : ∀ e, Decidable (Unattended w e)
  | .begin | .beginHost _ | .runHost _ => inferInstanceAs (Decidable True)
  | .run _ script => inferInstanceAs (Decidable (script = []))
  | .post _ | .beginDelayed _ | .init _ | .destroy _ | .addRef _ | .dropRef _ | .tick _ =>
    inferInstanceAs (Decidable False)

/-! ## What there is left to do -/

def HostTask.work : HostTask → Nat
  | .reply _ => 4
  | .call _ _ => 3

def HostPc.work : HostPc → Nat
  | .idle => 0
  | .deleteRelay _ | .unbind _ => 1
  | .runReply _ | .run _ _ => 2
  | .resetTask _ => 3

def HostLoop.work (l : HostLoop) : Nat := (l.queue.map HostTask.work).sum + l.pc.work

/-- With the callbacks that will be posted. -/
def Pc.work : Pc → Nat
  | .idle => 0
  | .selfDrop _ => 1
  | .stubData _ _ => 4
  | .relayReply _ | .selfReply _ => 5
  | .relayTask _ | .selfDestroy _ => 6
  | .leaveDestroy _ => 7
  | .leavePost _ => 11
  | .leave _ => 12

/-- With `n` observers. -/
def Call.work (n : Nat) : Call → Nat
  | .start => 13 * n + 6
  | .destroy => 13 * n + 3
  | .create | .stop | .addObserver _ | .removeObserver _ => 1

/-- With `n` observers, of whom a loop has still to visit what `ahead` says. A turn of the loop
takes no more than 13 steps, those of the callbacks that it posts included. -/
def Frame.work (n : Nat) (ahead : FactoryId → Nat → Nat) : Frame → Nat
  | .calls cs => (cs.map (Call.work n)).sum + 1
  | .schedule _ => 13 * n + 4
  | .produce _ => 13 * n + 3
  | .notify _ f index => 13 * ahead f index + 1
  | .produced | .destroyed _ => 1

def FactoryTask.work (n : Nat) : FactoryTask → Nat
  | .relay _ => 7
  | .schedule _ => 13 * n + 5
  | .calls cs => (cs.map (Call.work n)).sum + 2

/-- How many observers may be added. -/
def Call.joins : Call → Nat
  | .addObserver _ => 1
  | .create | .start | .stop | .destroy | .removeObserver _ => 0

def Frame.joins : Frame → Nat
  | .calls cs => (cs.map Call.joins).sum
  | .schedule _ | .produce _ | .notify _ _ _ | .produced | .destroyed _ => 0

def Pc.joins : Pc → Nat
  | .relayTask ⟨.init, _⟩ => 1
  | _ => 0

def FactoryTask.joins : FactoryTask → Nat
  | .relay ⟨.init, _⟩ => 1
  | .relay ⟨.destroy, _⟩ | .schedule _ => 0
  | .calls cs => (cs.map Call.joins).sum

namespace World

/-- By the running task. -/
def joining (w : World) : Nat := (w.frames.map Frame.joins).sum + w.pc.joins

/-- How many observers the current Factory has. -/
def population (w : World) : Nat := w.gFactory.elim 0 fun f => w.ahead f 0

/-- How many observers there may come to be. -/
def crowd (w : World) : Nat := w.population + w.joining + (w.tasks.map FactoryTask.joins).sum

/-- How many observers a loop may still visit. -/
def toVisit (w : World) (f : FactoryId) (index : Nat) : Nat := w.ahead f index + w.joining

def weight (T : Finset ThreadId) (n : Nat) (ahead : FactoryId → Nat → Nat) (w : World) : Nat :=
  w.pc.work + (w.frames.map (Frame.work n ahead)).sum + (w.tasks.map (FactoryTask.work n)).sum +
    ∑ t ∈ T, (w.loop t).work

/-- How many steps are left, the host threads being `T`. -/
def work (T : Finset ThreadId) (w : World) : Nat := w.weight T w.crowd w.toVisit

end World

variable {c : Config} {w w' : World} {T : Finset ThreadId}

theorem Call.work_mono {n n' : Nat} (hn : n' ≤ n) (k : Call) : k.work n' ≤ k.work n := by
  cases k <;> simp only [Call.work] <;> omega

theorem calls_work_mono {n n' : Nat} (hn : n' ≤ n) (cs : List Call) :
    (cs.map (Call.work n')).sum ≤ (cs.map (Call.work n)).sum :=
  List.sum_le_sum fun k _ => k.work_mono hn

theorem FactoryTask.work_mono {n n' : Nat} (hn : n' ≤ n) (task : FactoryTask) : task.work n' ≤ task.work n := by
  cases task with
  | relay => exact Nat.le_refl _
  | schedule => exact Nat.add_le_add_right (Nat.mul_le_mul_left 13 hn) 5
  | calls cs => exact Nat.add_le_add_right (calls_work_mono hn cs) 2

theorem Frame.work_mono {n n' : Nat} {ahead ahead' : FactoryId → Nat → Nat} (hn : n' ≤ n) {fr : Frame}
    (ha : ∀ k f i, fr = .notify k f i → ahead' f i ≤ ahead f i) : fr.work n' ahead' ≤ fr.work n ahead := by
  cases fr with
  | calls cs => exact Nat.add_le_add_right (calls_work_mono hn cs) 1
  | schedule => exact Nat.add_le_add_right (Nat.mul_le_mul_left 13 hn) 4
  | produce => exact Nat.add_le_add_right (Nat.mul_le_mul_left 13 hn) 3
  | notify k f i => exact Nat.add_le_add_right (Nat.mul_le_mul_left 13 (ha k f i rfl)) 1
  | produced | destroyed => exact Nat.le_refl _

/-- No loop and no future task has more observers to visit than before. -/
structure Eases (w w' : World) : Prop where
  crowd_le : w'.crowd ≤ w.crowd
  toVisit_le : ∀ k f i, .notify k f i ∈ w'.frames → w'.toVisit f i ≤ w.toVisit f i

/-- So a step is judged by what there was before it. -/
theorem Eases.work_lt (h : Eases w w') (hw : w'.weight T w.crowd w.toVisit < w.work T) : w'.work T < w.work T := by
  refine Nat.lt_of_le_of_lt ?_ hw
  have hframes : (w'.frames.map (Frame.work w'.crowd w'.toVisit)).sum ≤
      (w'.frames.map (Frame.work w.crowd w.toVisit)).sum :=
    List.sum_le_sum fun fr hfr => Frame.work_mono h.crowd_le fun k f i he => h.toVisit_le k f i (he ▸ hfr)
  have htasks : (w'.tasks.map (FactoryTask.work w'.crowd)).sum ≤ (w'.tasks.map (FactoryTask.work w.crowd)).sum :=
    List.sum_le_sum fun task _ => task.work_mono h.crowd_le
  unfold work weight
  omega

theorem ahead_congr (hl : w'.list = w.list) : w'.ahead = w.ahead := by
  funext f i
  rw [ahead, ahead, hl]

theorem ahead_update {f : FactoryId} {l' : Option (ObserverList Observer)} (hl : w'.list = update w.list f l')
    (b : FactoryId) (i : Nat) :
    w'.ahead b i = if b = f then l'.elim 0 fun l => (l.remaining i).length else w.ahead b i := by
  rw [ahead, hl]
  obtain rfl | hne := eq_or_ne b f
  · rw [Function.update_self, if_pos rfl]
  · rw [Function.update_of_ne hne, if_neg hne]
    rfl

theorem population_congr (hl : w'.list = w.list) (hg : w'.gFactory = w.gFactory) :
    w'.population = w.population := by
  rw [population, population, hg, ahead_congr hl]

/-- The lists stay as they are, and the running task goes on. -/
theorem Eases.still (hl : w'.list = w.list) (hg : w'.gFactory = w.gFactory) (ht : w'.tasks = w.tasks)
    (hj : w'.joining ≤ w.joining) : Eases w w' := by
  refine ⟨?_, fun k f i _ => ?_⟩
  · rw [crowd, crowd, population_congr hl hg, ht]
    omega
  · rw [toVisit, toVisit, ahead_congr hl]
    omega

/-- The lists stay as they are, and a task begins or is posted. -/
theorem Eases.turn (hl : w'.list = w.list) (hg : w'.gFactory = w.gFactory)
    (hj : w'.joining + (w'.tasks.map FactoryTask.joins).sum ≤ w.joining + (w.tasks.map FactoryTask.joins).sum)
    (hv : w'.joining ≤ w.joining ∨ ∀ k f i, .notify k f i ∉ w'.frames) : Eases w w' := by
  refine ⟨?_, fun k f i hm => ?_⟩
  · rw [crowd, crowd, population_congr hl hg]
    omega
  · rw [toVisit, toVisit, ahead_congr hl]
    have := hv.resolve_right fun hn => hn k f i hm
    omega

/-- The list of one Factory changes, and `d` observers of those expected have come. -/
theorem Eases.relist {f : FactoryId} {l l' : ObserverList Observer} {d : Nat} (hl : w.list f = some l)
    (hl' : w'.list = update w.list f (some l')) (hg : w'.gFactory = w.gFactory) (ht : w'.tasks = w.tasks)
    (hj : w'.joining + d ≤ w.joining) (hmem : l'.members.length ≤ l.members.length + d)
    (hrem : ∀ k i, .notify k f i ∈ w'.frames → (l'.remaining i).length ≤ (l.remaining i).length + d) :
    Eases w w' := by
  have hsame : ∀ i, w.ahead f i = (l.remaining i).length := fun i => by rw [ahead, hl]; rfl
  refine ⟨?_, fun k b i hm => ?_⟩
  · have hpop : w'.population ≤ w.population + d := by
      rw [population, population, hg]
      cases w.gFactory with
      | none => exact Nat.zero_le _
      | some b =>
        rw [Option.elim_some, Option.elim_some, ahead_update hl']
        split
        · rename_i he
          rw [he, hsame]
          exact hmem
        · exact Nat.le_add_right ..
    rw [crowd, crowd, ht]
    omega
  · rw [toVisit, toVisit, ahead_update hl']
    split
    · rename_i he
      subst he
      have hle := hrem k i hm
      rw [hsame, Option.elim_some]
      omega
    · omega

/-- A Factory goes, or comes with an empty list. -/
theorem Eases.clear {f : FactoryId} {l' : Option (ObserverList Observer)} (hl' : w'.list = update w.list f l')
    (hempty : ∀ l ∈ l', l = .empty) (hg : w'.gFactory = none ∨ w'.gFactory = some f) (ht : w'.tasks = w.tasks)
    (hj : w'.joining ≤ w.joining) : Eases w w' := by
  have hzero : ∀ i, w'.ahead f i = 0 := by
    intro i
    rw [ahead_update hl', if_pos rfl]
    cases l' with
    | none => rfl
    | some l =>
      rw [hempty l rfl]
      simp [ObserverList.remaining, ObserverList.empty]
  refine ⟨?_, fun k b i _ => ?_⟩
  · have hpop : w'.population = 0 := by
      rw [population]
      obtain hg | hg := hg <;> rw [hg]
      · rfl
      · exact hzero 0
    rw [crowd, crowd, hpop, ht]
    omega
  · rw [toVisit, toVisit]
    obtain rfl | hne := eq_or_ne b f
    · rw [hzero]
      omega
    · rw [ahead_update hl', if_neg hne]
      omega

/-- A loop over the list of a Factory counts in its `notify_depth_`. -/
theorem notifyDepth_ne_zero (hl : Listed w) {f : FactoryId} {l : ObserverList Observer} (hlist : w.list f = some l)
    {k : Notice} {i : Nat} (hm : .notify k f i ∈ w.frames) : l.notifyDepth ≠ 0 := by
  rw [hl.depth f l hlist]
  exact (List.countP_pos_iff.mpr ⟨_, hm, decide_eq_true rfl⟩).ne'

theorem length_remaining_removeObserver_le {l : ObserverList Observer} (hd : l.notifyDepth ≠ 0) (obs : Observer)
    (i : Nat) : ((l.removeObserver obs).remaining i).length ≤ (l.remaining i).length := by
  rw [ObserverList.remaining_removeObserver hd]
  exact List.length_erase_le

theorem length_members_removeObserver_le (l : ObserverList Observer) (obs : Observer) :
    (l.removeObserver obs).members.length ≤ l.members.length := by
  rw [ObserverList.members_removeObserver]
  exact List.length_erase_le

/-- An observer is taken off the list of a Factory. -/
theorem Eases.remove (hl : Listed w) (obs : Observer) {f : FactoryId} {l : ObserverList Observer}
    (hlist : w.list f = some l) (hl' : w'.list = update w.list f (some (l.removeObserver obs)))
    (hg : w'.gFactory = w.gFactory) (ht : w'.tasks = w.tasks) (hj : w'.joining ≤ w.joining)
    (hframes : ∀ k i, .notify k f i ∈ w'.frames → .notify k f i ∈ w.frames) : Eases w w' :=
  .relist hlist hl' hg ht (d := 0) hj (length_members_removeObserver_le l obs) fun k i hm =>
    length_remaining_removeObserver_le (notifyDepth_ne_zero hl hlist (hframes k i hm)) obs i

/-- A stub is deleted. -/
theorem Eases.dropped (hl : Listed w) {s : StubId} {st : FactoryStub} (hfac : w'.factory = w.dropped s st)
    (hlive : ∀ f, st.factory = some f → (w.factory f).isSome) (hg : w'.gFactory = w.gFactory)
    (ht : w'.tasks = w.tasks) (hj : w'.joining ≤ w.joining) (hframes : w'.frames = w.frames) : Eases w w' := by
  have hlist : w'.list = fun b => (w.list b).map fun l =>
      if st.factory = some b then l.removeObserver (.stub s) else l := by
    funext b
    rw [World.list, hfac]
    exact Listed.dropped_list b
  cases hf : st.factory with
  | none =>
    refine .still ?_ hg ht hj
    rw [hlist]
    funext b
    simp [hf]
  | some f =>
    obtain ⟨fac, hfac'⟩ := Option.isSome_iff_exists.mp (hlive f hf)
    refine .remove hl (.stub s) (list_of_some hfac') ?_ hg ht hj fun k i hm => hframes ▸ hm
    rw [hlist]
    funext b
    obtain rfl | hne := eq_or_ne b f
    · simp [hf, list_of_some hfac']
    · simp [hf, Function.update_of_ne hne, Ne.symm hne]

theorem sum_loop_update {t : ThreadId} (ht : t ∈ T) (l : HostLoop) :
    ∑ b ∈ T, (update w.loop t l b).work + (w.loop t).work = ∑ b ∈ T, (w.loop b).work + l.work := by
  have hrest : ∑ b ∈ T.erase t, (update w.loop t l b).work = ∑ b ∈ T.erase t, (w.loop b).work :=
    Finset.sum_congr rfl fun b hb => by rw [Function.update_of_ne (Finset.ne_of_mem_erase hb)]
  rw [← Finset.add_sum_erase T _ ht, ← Finset.add_sum_erase T (fun b => (w.loop b).work) ht, hrest,
    Function.update_self]
  omega

theorem sum_enqueue {h : HostId} (ht : c.hostThread h ∈ T) (task : HostTask) :
    ∑ b ∈ T, ((w.enqueue c h task).loop b).work = ∑ b ∈ T, (w.loop b).work + task.work := by
  have hsum := sum_loop_update (w := w) ht
    ⟨(w.loop (c.hostThread h)).queue ++ [task], (w.loop (c.hostThread h)).pc⟩
  have hone : HostLoop.work ⟨(w.loop (c.hostThread h)).queue ++ [task], (w.loop (c.hostThread h)).pc⟩ =
      (w.loop (c.hostThread h)).work + task.work := by
    simp only [HostLoop.work, List.map_append, List.map_cons, List.map_nil, List.sum_append, List.sum_singleton]
    omega
  rw [hone] at hsum
  exact Nat.add_right_cancel (hsum.trans (by omega))

theorem sum_setHostPc {t : ThreadId} (ht : t ∈ T) (pc : HostPc) :
    ∑ b ∈ T, ((w.setHostPc t pc).loop b).work + (w.loop t).pc.work = ∑ b ∈ T, (w.loop b).work + pc.work := by
  have hsum := sum_loop_update (w := w) ht ⟨(w.loop t).queue, pc⟩
  have hold : (w.loop t).work = ((w.loop t).queue.map HostTask.work).sum + (w.loop t).pc.work := rfl
  have hnew : HostLoop.work ⟨(w.loop t).queue, pc⟩ = ((w.loop t).queue.map HostTask.work).sum + pc.work := rfl
  have hloop : ∀ b, (w.setHostPc t pc).loop b = update w.loop t ⟨(w.loop t).queue, pc⟩ b := fun _ => rfl
  simp only [hloop]
  omega

/-- A step of a host thread. -/
theorem work_lt_of_setHostPc {t : ThreadId} (ht : t ∈ T) {pc : HostPc} (hlt : pc.work < (w.loop t).pc.work)
    (hlist : w'.list = w.list) (hg : w'.gFactory = w.gFactory) (htasks : w'.tasks = w.tasks) (hpc : w'.pc = w.pc)
    (hframes : w'.frames = w.frames) (hloop : w'.loop = (w.setHostPc t pc).loop) : w'.work T < w.work T := by
  refine (Eases.still hlist hg htasks ?_).work_lt ?_
  · rw [joining, joining, hpc, hframes]
  · have hsum := sum_setHostPc (w := w) ht pc
    rw [work, weight, weight, hpc, hframes, htasks, hloop]
    omega

/-- A step of the factory thread inside a task of the hosts. -/
theorem Eases.pc_lt (h : Eases w w') (hfr : w'.frames = w.frames) (ht : w'.tasks = w.tasks) (hl : w'.loop = w.loop)
    (hlt : w'.pc.work < w.pc.work) : w'.work T < w.work T := by
  apply h.work_lt
  rw [work, weight, weight, hfr, ht, hl]
  omega

/-- Such a step that posts to a host thread. -/
theorem Eases.post_lt (h : Eases w w') {b : HostId} {task : HostTask} (hb : c.hostThread b ∈ T)
    (hfr : w'.frames = w.frames) (ht : w'.tasks = w.tasks) (hl : w'.loop = (w.enqueue c b task).loop)
    (hlt : w'.pc.work + task.work < w.pc.work) : w'.work T < w.work T := by
  have hsum := sum_enqueue (w := w) hb task
  apply h.work_lt
  rw [work, weight, weight, hfr, ht, hl, hsum]
  omega

theorem HostMove.work_lt {e : Event} (hm : HostMove c w e w') (hT : ∀ h, c.hostThread h ∈ T) (hc : Counted c w)
    (hl : Listed w) (he : Unattended w e) : w'.work T < w.work T := by
  have hthread : ∀ {t h}, (w.loop t).pc.host? = some h → t ∈ T := fun hh => hc.pcPlaced _ _ hh ▸ hT _
  have hplaced := hl.placed
  cases hm with
  | init | destroy | addRef | dropRef => cases he
  | @beginRelay r ts hidle hts =>
    refine Eases.work_lt (.turn rfl rfl ?_ (.inr ?_)) ?_
    · rw [joining, joining, hidle.1, hidle.2, hts]
      obtain ⟨kind, h⟩ := r
      cases kind <;> simp [Pc.joins, FactoryTask.joins]
    · rw [hidle.2]
      nofun
    · simp only [work, weight, hidle.1, hidle.2, hts, List.map_cons, List.sum_cons, Pc.work, FactoryTask.work]
      omega
  | @postInit h f fac o _ _ hpc hg hfac ho =>
    rw [hpc] at hplaced
    have hframes : w.frames = [] := hplaced
    have hlen : (fac.observerList.addObserver (.stub w.freshStub)).members.length ≤
        fac.observerList.members.length + 1 := ObserverList.length_remaining_addObserver_le _ _ 0
    refine Eases.pc_lt (.relist (list_of_some hfac) (list_update w f _) rfl rfl (d := 1) ?_ hlen ?_) rfl rfl rfl ?_
    · simp [joining, hpc, Pc.joins]
    · rw [hframes]
      nofun
    · simp [hpc, Pc.work]
  | relayDestroyNull hpc | hold hpc | leaveDestroy hpc | selfDestroyNull hpc | selfDrop hpc =>
    refine Eases.pc_lt (.still rfl rfl rfl ?_) rfl rfl rfl ?_
    · simp [joining, hpc, Pc.joins]
    · simp [hpc, Pc.work]
  | relayDestroyStub hpc ho hs hst hobs hone hlive | selfDestroyStub hpc ho hs hst hobs hone hlive =>
    refine Eases.pc_lt (.dropped hl rfl hlive rfl rfl ?_ rfl) rfl rfl rfl ?_
    · simp [joining, hpc, Pc.joins]
    · simp [hpc, Pc.work]
  | relayReply hpc | forward hpc | leavePost hpc | selfReply hpc =>
    refine Eases.post_lt (.still rfl rfl rfl ?_) (hT _) rfl rfl rfl ?_
    · simp [joining, hpc, Pc.joins]
    · simp [hpc, Pc.work, HostTask.work]
  | leave hpc hst hf hfac =>
    refine Eases.pc_lt (.remove hl _ (list_of_some hfac) (list_update w _ _) rfl rfl ?_ fun _ _ => id) rfl rfl rfl ?_
    · simp [joining, hpc, Pc.joins]
    · simp [hpc, Pc.work]
  | @beginHost t task q hpc hq =>
    have ht : t ∈ T := by
      rw [← hc.queuePlaced t task (hq ▸ List.mem_cons_self ..)]
      exact hT _
    refine Eases.work_lt (.still rfl rfl rfl (Nat.le_refl _)) ?_
    have hsum := sum_loop_update (w := w) ht ⟨q, task.start⟩
    have hold : (w.loop t).work = task.work + (q.map HostTask.work).sum := by
      rw [HostLoop.work, hpc, hq, List.map_cons, List.sum_cons]
      rfl
    have hstart : task.start.work < task.work := by
      cases task <;> simp [HostTask.start, HostPc.work, HostTask.work]
    have hnew : HostLoop.work ⟨q, task.start⟩ = (q.map HostTask.work).sum + task.start.work := rfl
    simp only [work, weight]
    omega
  | resetTask hpc | runReply hpc | deleteRelay hpc | runCall hpc | unbind hpc =>
    refine work_lt_of_setHostPc (hthread (by rw [hpc]; rfl)) ?_ rfl rfl rfl rfl rfl rfl
    simp [hpc, HostPc.work]

theorem startNotify_joins (k : Notice) (f : FactoryId) (fac : Factory) :
    ((startNotify k f fac).2.map Frame.joins).sum = 0 := by
  unfold startNotify
  split <;> rfl

theorem startNotify_work_le (n : Nat) (ahead : FactoryId → Nat → Nat) (k : Notice) (f : FactoryId) (fac : Factory) :
    ((startNotify k f fac).2.map (Frame.work n ahead)).sum ≤ 13 * ahead f 0 + 1 := by
  unfold startNotify
  split <;> simp [Frame.work]

theorem startNotify_observerList (k : Notice) (f : FactoryId) (fac : Factory) :
    (startNotify k f fac).1.observerList.members = fac.observerList.members ∧
      ∀ i, (startNotify k f fac).1.observerList.remaining i = fac.observerList.remaining i := by
  unfold startNotify
  split <;> exact ⟨rfl, fun _ => rfl⟩

/-- A loop over the observers begins. -/
theorem Eases.startNotify {k : Notice} {f : FactoryId} {fac : Factory} (hl : w.list f = some fac.observerList)
    (hl' : w'.list = update w.list f (some (OscDataProcess.startNotify k f fac).1.observerList))
    (hg : w'.gFactory = w.gFactory) (ht : w'.tasks = w.tasks) (hj : w'.joining ≤ w.joining) : Eases w w' := by
  obtain ⟨hmem, hrem⟩ := startNotify_observerList k f fac
  exact .relist hl hl' hg ht (d := 0) hj (by rw [hmem]; exact Nat.le_refl _)
    fun _ i _ => by rw [hrem]; exact Nat.le_refl _

/-- An iterator dies; while another one is alive no slot moves. -/
theorem Eases.endNotify (hl : Listed w) {f : FactoryId} {l : ObserverList Observer} {k : Notice} {index : Nat}
    {rest : List Frame} (hlist : w.list f = some l) (hfr : w.frames = .notify k f index :: rest)
    (hl' : w'.list = update w.list f (some l.endNotify)) (hg : w'.gFactory = w.gFactory) (ht : w'.tasks = w.tasks)
    (hj : w'.joining ≤ w.joining) (hfr' : w'.frames = rest) : Eases w w' := by
  refine .relist hlist hl' hg ht (d := 0) hj (by rw [ObserverList.members_endNotify]; exact Nat.le_refl _)
    fun k' i hm => ?_
  have hdepth : 1 < l.notifyDepth := by
    rw [hl.depth f l hlist, hfr, loopCount, List.countP_cons_of_pos (by simp [Frame.loopsOver])]
    exact Nat.succ_lt_succ (List.countP_pos_iff.mpr ⟨_, hfr' ▸ hm, by simp [Frame.loopsOver]⟩)
  rw [ObserverList.remaining, ObserverList.observers_endNotify hdepth]
  exact Nat.le_refl _

theorem population_of_some {f : FactoryId} (hg : w.gFactory = some f) : w.population = w.ahead f 0 := by
  rw [population, hg, Option.elim_some]

/-- A loop that begins visits no more observers than there may be. -/
theorem toVisit_le_crowd {f : FactoryId} (hg : w.gFactory = some f) : w.toVisit f 0 ≤ w.crowd := by
  rw [toVisit, crowd, population_of_some hg]
  exact Nat.le_add_right ..

/-- The loop goes on behind the observer it has found. -/
theorem toVisit_next {f : FactoryId} {fac : Factory} {index next : Nat} {obs : Observer}
    (hfac : w.factory f = some fac) (hn : fac.observerList.getNext index = some (obs, next)) :
    w.toVisit f index = w.toVisit f next + 1 := by
  rw [toVisit, toVisit, ahead_of_some hfac, ahead_of_some hfac, (ObserverList.getNext_eq_some hn).1, List.length_cons]
  omega

/-- A step of a frame is paid for by the frame. -/
theorem Eases.frame_lt (h : Eases w w') {fr : Frame} {rest : List Frame} (new : List Frame)
    (hfr : w.frames = fr :: rest) (hfr' : w'.frames = new ++ rest) (ht : w'.tasks = w.tasks) (hl : w'.loop = w.loop)
    (hlt : w'.pc.work + (new.map (Frame.work w.crowd w.toVisit)).sum < w.pc.work + fr.work w.crowd w.toVisit) :
    w'.work T < w.work T := by
  apply h.work_lt
  rw [work, weight, weight, hfr, hfr', ht, hl, List.map_append, List.sum_append, List.map_cons, List.sum_cons]
  omega

theorem FactoryMove.work_lt {e : Event} (hm : FactoryMove w e w') (hl : Listed w) (ha : Alone w)
    (he : Unattended w e) : w'.work T < w.work T := by
  cases hm with
  | post | tick | beginDelayed => cases he
  | beginCalls hidle hts =>
    refine Eases.work_lt (.turn rfl rfl ?_ (.inr (by simp))) ?_
    · simp [joining, hidle.1, hidle.2, hts, Pc.joins, Frame.joins, FactoryTask.joins]
    · simp only [work, weight, hidle.1, hidle.2, hts, List.map_cons, List.map_nil, List.sum_cons, List.sum_nil,
        Frame.work, FactoryTask.work]
      omega
  | beginSchedule hidle hts =>
    refine Eases.work_lt (.turn rfl rfl ?_ (.inr ?_)) ?_
    · simp only [joining, hidle.1, hidle.2, hts]
      split <;> simp [Pc.joins, Frame.joins, FactoryTask.joins]
    · dsimp only
      split <;> simp
    · simp only [work, weight, hidle.1, hidle.2, hts, List.map_cons, List.map_nil, List.sum_cons, List.sum_nil,
        FactoryTask.work]
      split
      · simp only [List.map_cons, List.map_nil, List.sum_cons, List.sum_nil, Frame.work]
        omega
      · simp only [List.map_nil, List.sum_nil]
        omega
  | callsDone hpc hfr | notifyDead hpc hfr | produced hpc hfr =>
    refine Eases.frame_lt (.still rfl rfl rfl ?_) [] hfr rfl rfl rfl ?_
    · simp [joining, hpc, hfr, Frame.joins]
    · simp [Frame.work]
  | @skip k ks _ _ _ hpc hfr =>
    have hk : 0 < k.work w.crowd := by cases k <;> simp [Call.work]
    refine Eases.frame_lt (.still rfl rfl rfl ?_) [.calls ks] hfr rfl rfl rfl ?_
    · simp [joining, hpc, hfr, Frame.joins]
    · simp only [List.map_cons, List.map_nil, List.sum_cons, List.sum_nil, Frame.work]
      omega
  | create hpc hfr hg =>
    refine Eases.frame_lt (.clear (list_update w _ _) ?_ (.inr rfl) rfl ?_) [.calls _] hfr rfl rfl rfl ?_
    · rintro l ⟨⟩
      rfl
    · simp [joining, createFactory, hpc, hfr, Frame.joins, Call.joins]
    · simp only [createFactory, List.map_cons, List.map_nil, List.sum_cons, List.sum_nil, Frame.work, Call.work]
      omega
  | start hpc hfr hg hfac hs =>
    refine Eases.work_lt (.turn (list_same hfac rfl) rfl ?_ (.inl ?_)) ?_
    · simp [joining, hpc, hfr, Frame.joins, Call.joins, FactoryTask.joins]
    · simp [joining, hpc, hfr, Frame.joins, Call.joins]
    · simp only [work, weight, hpc, hfr, List.map_cons, List.map_nil, List.map_append, List.sum_append, List.sum_cons,
        List.sum_nil, Frame.work, Call.work, FactoryTask.work]
      omega
  | stop hpc hfr hg hfac hs =>
    refine Eases.frame_lt (.still (list_same hfac rfl) rfl rfl ?_) [.calls _] hfr rfl rfl rfl ?_
    · simp [joining, hpc, hfr, Frame.joins, Call.joins]
    · simp only [List.map_cons, List.map_nil, List.sum_cons, List.sum_nil, Frame.work, Call.work]
      omega
  | @destroyBegin f fac ks rest _ _ hpc hfr hg hfac =>
    have hloop := startNotify_work_le w.crowd w.toVisit .destroyed f fac
    have hle := toVisit_le_crowd hg
    refine Eases.frame_lt (.startNotify (list_of_some hfac) (list_update w f _) rfl rfl ?_)
      ((startNotify .destroyed f fac).2 ++ [.destroyed f, .calls ks]) hfr (by simp) rfl rfl ?_
    · simp [joining, hpc, hfr, Frame.joins, Call.joins, startNotify_joins]
    · simp only [List.map_append, List.sum_append, List.map_cons, List.map_nil, List.sum_cons, List.sum_nil, Frame.work,
        Call.work]
      omega
  | @addObserver f fac p ks rest _ _ hpc hfr hg hfac =>
    have hlen := ObserverList.length_remaining_addObserver_le fac.observerList (.plain p)
    refine Eases.frame_lt
      (.relist (list_of_some hfac) (list_update w f _) rfl rfl (d := 1) ?_ (hlen 0) fun _ i _ => hlen i)
      [.calls ks] hfr rfl rfl rfl ?_
    · simp only [joining, setObservers, hpc, hfr, List.map_cons, List.sum_cons, Frame.joins, Call.joins]
      omega
    · simp only [setObservers, List.map_cons, List.map_nil, List.sum_cons, List.sum_nil, Frame.work, Call.work]
      omega
  | @removeObserver f fac p ks rest _ _ hpc hfr hg hfac =>
    refine Eases.frame_lt (.remove hl _ (list_of_some hfac) (list_update w _ _) rfl rfl ?_ fun k i hm => ?_)
      [.calls ks] hfr rfl rfl rfl ?_
    · simp [joining, setObservers, hpc, hfr, Frame.joins, Call.joins]
    · simpa [hfr] using hm
    · simp only [setObservers, List.map_cons, List.map_nil, List.sum_cons, List.sum_nil, Frame.work, Call.work]
      omega
  | scheduleStopped hpc hfr hfac hs =>
    refine Eases.frame_lt (.still (list_same hfac rfl) rfl rfl ?_) [] hfr rfl rfl rfl ?_
    · simp [joining, hpc, hfr, Frame.joins]
    · simp [Frame.work]
  | scheduleNow hpc hfr hfac hs hp =>
    -- a period of 0 would make a chain of tasks that never ends
    rw [ha.period _ _ hfac] at hp
    exact absurd hp (by decide)
  | scheduleLater hpc hfr hfac hs hp =>
    refine Eases.frame_lt (.still (list_same hfac rfl) rfl rfl ?_) [.produce _] hfr rfl rfl rfl ?_
    · simp [joining, hpc, hfr, Frame.joins]
    · simp [Frame.work]
  | @produce f fac rest _ _ hpc hfr hfac =>
    have hlist := list_of_some hfac
    have hloop := startNotify_work_le w.crowd w.toVisit .produced f { fac with data := .make w.dataId }
    have hle := toVisit_le_crowd (hl.current f _ hlist)
    refine Eases.frame_lt (.startNotify (by exact hlist) (list_update w f _) rfl rfl ?_)
      ((startNotify .produced f { fac with data := .make w.dataId }).2 ++ [.produced]) hfr (by simp) rfl rfl ?_
    · simp [joining, hpc, hfr, Frame.joins, startNotify_joins]
    · simp only [List.map_append, List.sum_append, List.map_cons, List.map_nil, List.sum_cons, List.sum_nil, Frame.work]
      omega
  | notifyEnd hpc hfr hfac hn =>
    refine Eases.frame_lt (.endNotify hl (list_of_some hfac) hfr (list_update w _ _) rfl rfl ?_ rfl)
      [] hfr rfl rfl rfl ?_
    · simp [joining, setObservers, hpc, hfr, Frame.joins]
    · simp [setObservers, Frame.work]
  | @notifyPlain k f _ _ _ next _ _ _ hpc hfr hfac hn =>
    -- an observer that re-enters could start the loop all over again
    obtain rfl : _ = [] := he
    have hnext := toVisit_next hfac hn
    refine Eases.frame_lt (.still rfl rfl rfl ?_) [.calls [], .notify k f next] hfr rfl rfl rfl ?_
    · simp [joining, hpc, hfr, Frame.joins]
    · simp only [List.map_cons, List.map_nil, List.sum_cons, List.sum_nil, Frame.work]
      omega
  | notifyProduced hpc hfr hfac hn | notifyDestroyed hpc hfr hfac hn =>
    have hnext := toVisit_next hfac hn
    refine Eases.frame_lt (.still rfl rfl rfl ?_) [.notify _ _ _] hfr rfl rfl rfl ?_
    · simp [joining, hpc, hfr, Frame.joins, Pc.joins]
    · simp only [hpc, List.map_cons, List.map_nil, List.sum_cons, List.sum_nil, Frame.work, Pc.work]
      omega
  | destroyed hpc hfr hfac =>
    refine Eases.frame_lt (.clear (list_update w _ none) (by simp) (.inl rfl) rfl ?_) [] hfr rfl rfl rfl ?_
    · simp [joining, hpc, hfr, Frame.joins]
    · simp [Frame.work]

/-! ## Something is left to do until then -/

/-- The Factory that is about to schedule or produce is alive. -/
def Pulsing (w : World) : Prop := ∀ f, .schedule f ∈ w.frames ∨ .produce f ∈ w.frames → (w.factory f).isSome

theorem Pulsing.of_quiet (h : ∀ fr ∈ w.frames, fr.isPulse = false) : Pulsing w := by
  rintro f (hm | hm) <;> cases h _ hm

theorem Pulsing.hostMove {e : Event} (hp : Pulsing w) (hm : HostMove c w e w') : Pulsing w' := by
  intro f hf
  rw [(hm.chain f).2] at hf
  have hb := congrArg Option.isSome (hm.bare f)
  rw [Option.isSome_map, Option.isSome_map] at hb
  exact hb ▸ hp f hf

theorem Pulsing.factoryMove {e : Event} (hp : Pulsing w) (ha : Alone w) (hm : FactoryMove w e w') : Pulsing w' := by
  have hpush : ∀ {fr fr' : Frame} {rest : List Frame}, w.frames = fr :: rest → fr'.isPulse = false →
      ∀ x ∈ fr' :: rest, x.isPulse = false := fun hfr hq => List.forall_mem_cons.mpr ⟨hq, ha.rest hfr⟩
  cases hm with
  | post | tick => exact hp
  | beginCalls => exact .of_quiet (by simp [Frame.isPulse])
  | beginSchedule | beginDelayed =>
    intro f hf
    dsimp only at hf
    split at hf
    · rename_i hsome
      obtain rfl : f = _ := by simpa using hf
      exact hsome
    · simp at hf
  | callsDone hpc hfr | scheduleStopped hpc hfr | notifyDead hpc hfr | notifyEnd hpc hfr | produced hpc hfr
  | destroyed hpc hfr => exact .of_quiet (ha.rest hfr)
  | skip hpc hfr | create hpc hfr | start hpc hfr | stop hpc hfr | addObserver hpc hfr | removeObserver hpc hfr
  | notifyProduced hpc hfr | notifyDestroyed hpc hfr => exact .of_quiet (hpush hfr rfl)
  | notifyPlain hpc hfr => exact .of_quiet (List.forall_mem_cons.mpr ⟨rfl, hpush hfr rfl⟩)
  | destroyBegin hpc hfr =>
    exact .of_quiet (startNotify_isPulse _ _ _ _ (List.forall_mem_cons.mpr ⟨rfl, hpush hfr rfl⟩))
  | produce hpc hfr => exact .of_quiet (startNotify_isPulse _ _ _ _ (hpush hfr rfl))
  | scheduleNow hpc hfr | scheduleLater hpc hfr =>
    intro f hf
    obtain rfl := ha.rest_eq_nil hfr rfl
    obtain rfl : f = _ := by simpa using hf
    simp

theorem pulsing_of_reaches {P : World → Event → Prop} (hr : Reaches (step c) P .initial w) : Pulsing w := by
  refine (moves_of_reaches (I := fun w => Alone w ∧ Pulsing w) (fun _ _ _ _ hi _ hm => ?_)
    (fun _ _ _ _ hi _ hm => ?_) ⟨alone_initial, .of_quiet nofun⟩ hr).2
  · exact ⟨hi.1.hostMove hm, hi.2.hostMove hm⟩
  · exact ⟨hi.1.factoryMove hm, hi.2.factoryMove hi.1 hm⟩

/-- The next step would go through a null or a dangling pointer: PostInit finds no Factory, or a
Factory is deleted that an observer has destroyed from within its own Destroy. -/
def World.Crashing (w : World) : Prop :=
  (∃ h, w.pc = .relayTask ⟨.init, h⟩ ∧ w.gFactory = none) ∨
    ∃ f rest, w.frames = .destroyed f :: rest ∧ w.factory f = none

/-- The factory thread is inside a task of the hosts. -/
theorem exists_move_of_pc (hc : Counted c w) (hl : Listed w) (hne : w.pc ≠ .idle) (hcrash : ¬ w.Crashing) :
    ∃ w', HostMove c w (.run 0 []) w' := by
  have hal := alive_of_counted hc hl
  have hplaced := hl.placed
  have hlive : ∀ {s st f}, w.stub s = some st → st.factory = some f → ∃ fac, w.factory f = some fac := by
    intro s st f hst hf
    obtain ⟨l, hlist, -⟩ := hl.stubListed s st f hst hf
    exact (Option.map_eq_some_iff.mp hlist).imp fun _ h => h.1
  have hsome : ∀ {s st}, w.stub s = some st → ∀ f, st.factory = some f → (w.factory f).isSome := fun hst f hf =>
    Option.isSome_iff_exists.mpr (hlive hst hf)
  cases hpc : w.pc with
  | idle => exact absurd hpc hne
  | relayTask r =>
    obtain ⟨kind, h⟩ := r
    obtain ⟨o, ho⟩ := Option.isSome_iff_exists.mp (hal.relay _ (.inl hpc))
    cases kind with
    | init =>
      cases hg : w.gFactory with
      | none => exact absurd (.inl ⟨h, hpc, hg⟩) hcrash
      | some f =>
        obtain ⟨l, hlist⟩ := hl.present f hg
        obtain ⟨fac, hfac, -⟩ := Option.map_eq_some_iff.mp hlist
        exact ⟨_, .postInit hpc hg hfac ho⟩
    | destroy =>
      cases hs : o.stub with
      | none => exact ⟨_, .relayDestroyNull hpc ho hs⟩
      | some s =>
        obtain ⟨st, hst, hobs⟩ := hc.owned h o s ho hs
        have hone := Nat.ne_of_gt (hc.one_lt_refs ho hst hobs (by simp [hpc, Pc.refs]))
        exact ⟨_, .relayDestroyStub hpc ho hs hst hobs hone (hsome hst)⟩
  | relayReply r => exact ⟨_, .relayReply hpc⟩
  | stubData s data =>
    obtain ⟨st, hst, ho⟩ := hal.stub s (.inl ⟨data, hpc⟩)
    obtain ⟨o, ho⟩ := Option.isSome_iff_exists.mp ho
    cases hf : (st.onDataProduced 0).2 with
    | true => exact ⟨_, .forward hpc hst hf ho⟩
    | false => exact ⟨_, .hold hpc hst hf⟩
  | leave s =>
    rw [hpc] at hplaced
    obtain ⟨st, f, hst, hf⟩ := hplaced
    obtain ⟨fac, hfac⟩ := hlive hst hf
    exact ⟨_, .leave hpc hst hf hfac⟩
  | leavePost s =>
    obtain ⟨st, hst, ho⟩ := hal.stub s (.inr (.inr (.inl hpc)))
    obtain ⟨o, ho⟩ := Option.isSome_iff_exists.mp ho
    exact ⟨_, .leavePost hpc hst ho⟩
  | leaveDestroy s =>
    obtain ⟨st, hst, ho⟩ := hal.stub s (.inr (.inr (.inr hpc)))
    obtain ⟨o, ho⟩ := Option.isSome_iff_exists.mp ho
    exact ⟨_, .leaveDestroy hpc hst ho⟩
  | selfDestroy h =>
    obtain ⟨o, ho⟩ := Option.isSome_iff_exists.mp (hal.self h (.inl hpc))
    cases hs : o.stub with
    | none => exact ⟨_, .selfDestroyNull hpc ho hs⟩
    | some s =>
      obtain ⟨st, hst, hobs⟩ := hc.owned h o s ho hs
      have hone := Nat.ne_of_gt (hc.one_lt_refs ho hst hobs (by simp [hpc, Pc.refs]))
      exact ⟨_, .selfDestroyStub hpc ho hs hst hobs hone (hsome hst)⟩
  | selfReply h =>
    obtain ⟨o, ho⟩ := Option.isSome_iff_exists.mp (hal.self h (.inr (.inl hpc)))
    exact ⟨_, .selfReply hpc ho⟩
  | selfDrop h =>
    obtain ⟨o, ho⟩ := Option.isSome_iff_exists.mp (hal.self h (.inr (.inr hpc)))
    exact ⟨_, .selfDrop hpc ho⟩

theorem exists_move_of_call (hlive : ∀ f, w.gFactory = some f → (w.factory f).isSome) (hpc : w.pc = .idle) {k : Call}
    {ks : List Call} {rest : List Frame} (hfr : w.frames = .calls (k :: ks) :: rest) :
    ∃ w', FactoryMove w (.run 0 []) w' := by
  cases hg : w.gFactory with
  | none =>
    obtain rfl | hk := eq_or_ne k .create
    · exact ⟨_, .create hpc hfr hg⟩
    · exact ⟨_, .skip hpc hfr (fun _ => hk) (by simp [hg])⟩
  | some f =>
    obtain ⟨fac, hfac⟩ := Option.isSome_iff_exists.mp (hlive f hg)
    have hskip : (k = .create ∨ (k = .start ∧ fac.start = true) ∨ (k = .stop ∧ fac.start = false)) →
        ∃ w', FactoryMove w (.run 0 []) w' := by
      refine fun hk => ⟨_, .skip hpc hfr (by simp [hg]) fun f' fac' hf' hfac' => ?_⟩
      obtain rfl := Option.some.inj (hg.symm.trans hf')
      obtain rfl := Option.some.inj (hfac.symm.trans hfac')
      exact hk
    cases k with
    | create => exact hskip (.inl rfl)
    | start =>
      cases hs : fac.start with
      | true => exact hskip (.inr (.inl ⟨rfl, hs⟩))
      | false => exact ⟨_, .start hpc hfr hg hfac hs⟩
    | stop =>
      cases hs : fac.start with
      | true => exact ⟨_, .stop hpc hfr hg hfac hs⟩
      | false => exact hskip (.inr (.inr ⟨rfl, hs⟩))
    | destroy => exact ⟨_, .destroyBegin hpc hfr hg hfac⟩
    | addObserver p => exact ⟨_, .addObserver hpc hfr hg hfac⟩
    | removeObserver p => exact ⟨_, .removeObserver hpc hfr hg hfac⟩

/-- The factory thread is inside a task of the Factory. -/
theorem exists_move_of_frames (ha : Alone w) (hp : Pulsing w)
    (hlive : ∀ f, w.gFactory = some f → (w.factory f).isSome) (hpc : w.pc = .idle) {fr : Frame} {rest : List Frame}
    (hfr : w.frames = fr :: rest) (hcrash : ¬ w.Crashing) : ∃ w', FactoryMove w (.run 0 []) w' := by
  have hmem : fr ∈ w.frames := hfr ▸ List.mem_cons_self ..
  cases fr with
  | calls cs =>
    cases cs with
    | nil => exact ⟨_, .callsDone hpc hfr⟩
    | cons k ks => exact exists_move_of_call hlive hpc hfr
  | schedule f =>
    obtain ⟨fac, hfac⟩ := Option.isSome_iff_exists.mp (hp f (.inl hmem))
    have hperiod : fac.period ≠ 0 := by
      rw [ha.period f fac hfac]
      decide
    cases hs : fac.start with
    | true => exact ⟨_, .scheduleLater hpc hfr hfac hs hperiod⟩
    | false => exact ⟨_, .scheduleStopped hpc hfr hfac hs⟩
  | produce f =>
    obtain ⟨fac, hfac⟩ := Option.isSome_iff_exists.mp (hp f (.inr hmem))
    exact ⟨_, .produce hpc hfr hfac⟩
  | notify k f index =>
    cases hfac : w.factory f with
    | none => exact ⟨_, .notifyDead hpc hfr hfac⟩
    | some fac =>
      cases hn : fac.observerList.getNext index with
      | none => exact ⟨_, .notifyEnd hpc hfr hfac hn⟩
      | some next =>
        obtain ⟨obs, next⟩ := next
        cases obs with
        | plain p => exact ⟨_, .notifyPlain hpc hfr hfac hn⟩
        | stub s =>
          cases k with
          | produced => exact ⟨_, .notifyProduced hpc hfr hfac hn⟩
          | destroyed => exact ⟨_, .notifyDestroyed hpc hfr hfac hn⟩
  | produced => exact ⟨_, .produced hpc hfr⟩
  | destroyed f =>
    cases hfac : w.factory f with
    | none => exact absurd (.inr ⟨f, rest, hfr, hfac⟩) hcrash
    | some fac => exact ⟨_, .destroyed hpc hfr hfac⟩

/-- A host thread has something to do. -/
theorem exists_move_of_loop (hc : Counted c w) (hl : Listed w) {t : ThreadId} (hne : w.loop t ≠ ⟨[], .idle⟩) :
    ∃ e w', Unattended w e ∧ HostMove c w e w' := by
  have hrun : ∀ {h}, (w.loop t).pc.host? = some h → ∃ o, w.host h = some o := fun hh =>
    Option.isSome_iff_exists.mp ((alive_of_counted hc hl).running t _ hh)
  cases hpc : (w.loop t).pc with
  | idle =>
    cases hq : (w.loop t).queue with
    | nil => exact absurd (by rw [← hq, ← hpc]) hne
    | cons task q => exact ⟨.beginHost t, _, trivial, .beginHost hpc hq⟩
  | resetTask r =>
    obtain ⟨o, ho⟩ := hrun (by rw [hpc]; rfl)
    exact ⟨.runHost t, _, trivial, .resetTask hpc ho⟩
  | runReply r =>
    obtain ⟨o, ho⟩ := hrun (by rw [hpc]; rfl)
    exact ⟨.runHost t, _, trivial, .runReply hpc ho⟩
  | deleteRelay r =>
    obtain ⟨o, ho⟩ := hrun (by rw [hpc]; rfl)
    exact ⟨.runHost t, _, trivial, .deleteRelay hpc ho⟩
  | run h m =>
    obtain ⟨o, ho⟩ := hrun (by rw [hpc]; rfl)
    exact ⟨.runHost t, _, trivial, .runCall hpc ho⟩
  | unbind h =>
    obtain ⟨o, ho⟩ := hrun (by rw [hpc]; rfl)
    exact ⟨.runHost t, _, trivial, .unbind hpc ho⟩

/-- Short of a crash some thread goes on until all are at rest. -/
theorem exists_step_of_not_atRest (hc : Counted c w) (hl : Listed w) (ha : Alone w) (hp : Pulsing w)
    (hrest : ¬ w.AtRest c) (hcrash : ¬ w.Crashing) : ∃ e w', Unattended w e ∧ step c w e = some w' := by
  have hlive : ∀ f, w.gFactory = some f → (w.factory f).isSome := fun f hg => by
    obtain ⟨l, hlist⟩ := hl.present f hg
    obtain ⟨fac, hfac, -⟩ := Option.map_eq_some_iff.mp hlist
    exact Option.isSome_iff_exists.mpr ⟨fac, hfac⟩
  by_cases hpc : w.pc = .idle
  · cases hfr : w.frames with
    | cons fr rest =>
      obtain ⟨w', hm⟩ := exists_move_of_frames ha hp hlive hpc hfr hcrash
      exact ⟨.run 0 [], w', rfl, step_of_factoryMove hm hlive⟩
    | nil =>
      cases hts : w.tasks with
      | cons task ts =>
        cases task with
        | relay r => exact ⟨.begin, _, trivial, step_of_hostMove (.beginRelay ⟨hpc, hfr⟩ hts)⟩
        | calls cs => exact ⟨.begin, _, trivial, step_of_factoryMove (.beginCalls ⟨hpc, hfr⟩ hts) hlive⟩
        | schedule f => exact ⟨.begin, _, trivial, step_of_factoryMove (.beginSchedule ⟨hpc, hfr⟩ hts) hlive⟩
      | nil =>
        obtain ⟨h, hloop⟩ : ∃ h, w.loop (c.hostThread h) ≠ ⟨[], .idle⟩ := by
          by_contra hno
          exact hrest ⟨⟨hpc, hfr⟩, hts, fun h => not_not.mp fun hn => hno ⟨h, hn⟩⟩
        obtain ⟨e, w', he, hm⟩ := exists_move_of_loop hc hl hloop
        exact ⟨e, w', he, step_of_hostMove hm⟩
  · obtain ⟨w', hm⟩ := exists_move_of_pc hc hl hpc hcrash
    exact ⟨.run 0 [], w', rfl, step_of_hostMove hm⟩

/-- Left alone, the deployment takes at most `work` steps more, and where no thread can go on
any further everything is at rest, unless the next step would crash. -/
theorem windsDown_of_along {P : World → Event → Prop} (hr : Reaches (step c) P .initial w)
    (hT : ∀ h, c.hostThread h ∈ T) {es : List Event} (ha : Along (step c) Unattended w es w') :
    es.length + w'.work T ≤ w.work T ∧
      ((∀ e, Unattended w' e → step c w' e = none) → w'.AtRest c ∨ w'.Crashing) := by
  have hfree : Reaches (step c) Free .initial w := hr.mono fun _ _ _ => trivial
  have hknown : ∀ t, Reaches (step c) Unattended w t → Reaches (step c) Free .initial t := fun t ht =>
    hfree.trans (ht.mono fun _ _ _ => trivial)
  refine ⟨?_, fun hstuck => ?_⟩
  · have hpaid := ha.potential (fun _ => True) (World.work T) (fun _ => true) hknown (fun _ _ _ _ _ _ _ => trivial)
      (fun t e u ht _ hp he _ _ => ?_) trivial
    · simpa using hpaid
    · have hc := counted_of_reaches ht
      have hl := listed_of_reaches ht
      rw [if_pos rfl, Nat.add_comm]
      obtain hm | hm := step_cases hc.owned he
      · exact hm.work_lt hT hc hl hp
      · exact hm.work_lt hl (alone_of_reaches ht) hp
  · have ht := hknown w' ha.reaches
    by_contra hno
    obtain ⟨hrest, hcrash⟩ := not_or.mp hno
    obtain ⟨e, u, hp, he⟩ := exists_step_of_not_atRest (counted_of_reaches ht) (listed_of_reaches ht)
      (alone_of_reaches ht) (pulsing_of_reaches ht) hrest hcrash
    rw [hstuck e hp] at he
    cases he

/-- A host has called Init and the Factory is about to be started. -/
theorem windsDown_of_along_started : ∃ w w' es, Reaches (step Deployment.oneThread) Free .initial w ∧
    Along (step Deployment.oneThread) Unattended w es w' ∧ (es.length = 20 ∧ w'.dataId = 1 ∧ w'.delayed.length = 1) ∧
      es.length + w'.work {0} ≤ w.work {0} ∧
        ((∀ e, Unattended w' e → step Deployment.oneThread w' e = none) →
          w'.AtRest Deployment.oneThread ∨ w'.Crashing) := by
  obtain ⟨w, hw, hw'⟩ := Option.map_eq_some_iff.mp (show
    (GuardedRun.execute (step Deployment.oneThread) Free .initial
      [.post [.create], .begin, .run 0 [], .run 0 [], .init 0, .post [.start]]).map
      (fun w => (GuardedRun.execute (step Deployment.oneThread) Unattended w
        (.begin :: .run 0 [] :: .run 0 [] :: .begin :: .run 0 [] :: .run 0 [] :: .begin ::
          List.replicate 6 (.run 0 []) ++ .beginHost 0 :: List.replicate 3 (.runHost 0) ++
          .beginHost 0 :: List.replicate 2 (.runHost 0))).any
        fun (w' : World) => decide (w'.dataId = 1 ∧ w'.delayed.length = 1)) = some true by decide)
  obtain ⟨w', hrun, hend⟩ := (Option.any_eq_true ..).mp hw'
  have hr := GuardedRun.reaches_of_execute hw
  have ha := GuardedRun.along_of_execute hrun
  exact ⟨w, w', _, hr, ha, ⟨rfl, of_decide_eq_true hend⟩,
    windsDown_of_along (T := {0}) hr (fun _ => Finset.mem_singleton_self 0) ha⟩

end OscDataProcess
