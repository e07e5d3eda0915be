import OscDataProcess.Production

/-!
# The ids of the data

The counter of `Produce` is a static `int`: one for the whole process, whichever
Factory produces, and it wraps around after 2^32 data. Ids are read as signed.
-/
namespace OscDataProcess

open Function (update)
open World

def Entry.producedId? : Entry → Option (BitVec 32)
  | .produced _ _ data => some data.id
  | _ => none

/-- The ids given by `Produce`, in the order of production. -/
def producedIds (trace : List Entry) : List (BitVec 32) := trace.filterMap Entry.producedId?

/-- Ids tell data apart, in the order of production, and from the datum of a new Factory. -/
structure IdsIdentify (ids : List (BitVec 32)) : Prop where
  distinct : ids.Nodup
  increasing : ids.Pairwise fun a b => a.toInt < b.toInt
  real : ∀ i ∈ ids, i ≠ newFactory.data.id

theorem toInt_ofNat_of_lt {i : Nat} (h : i < 2 ^ 31) : (BitVec.ofNat 32 i).toInt = i := by
  have hnat : (BitVec.ofNat 32 i).toNat = i := by
    rw [BitVec.toNat_ofNat, Nat.mod_eq_of_lt (by omega)]
  rw [BitVec.toInt_eq_toNat_of_lt (by omega), hnat]

/-- Counting from zero identifies data up to the largest positive `int`. -/
theorem idsIdentify_range (n : Nat) : IdsIdentify ((List.range n).map (BitVec.ofNat 32)) ↔ n ≤ 2 ^ 31 := by
  constructor
  · intro h
    by_contra hn
    have hlt := List.pairwise_iff_getElem.mp h.increasing (2 ^ 31 - 1) (2 ^ 31) (by simp; omega)
      (by simp; omega) (by omega)
    rw [List.getElem_map, List.getElem_map, List.getElem_range, List.getElem_range] at hlt
    revert hlt
    decide
  · intro hn
    have hinc : ((List.range n).map (BitVec.ofNat 32)).Pairwise fun a b => a.toInt < b.toInt := by
      rw [List.pairwise_map]
      refine List.pairwise_lt_range.imp_of_mem fun {i j} hi hj hij => ?_
      rw [List.mem_range] at hi hj
      rw [toInt_ofNat_of_lt (hi.trans_le hn), toInt_ofNat_of_lt (hj.trans_le hn)]
      exact_mod_cast hij
    refine ⟨hinc.imp fun hlt heq => ?_, hinc, ?_⟩
    · rw [heq] at hlt
      exact lt_irrefl _ hlt
    · intro i hi hneg
      obtain ⟨k, hk, rfl⟩ := List.mem_map.mp hi
      have hint := toInt_ofNat_of_lt ((List.mem_range.mp hk).trans_le hn)
      rw [hneg] at hint
      have hminus : newFactory.data.id.toInt = -1 := by decide
      omega

@[simp] theorem producedIds_append (es es' : List Entry) :
    producedIds (es ++ es') = producedIds es ++ producedIds es' := List.filterMap_append

@[simp] theorem producedIds_cons (x : Entry) (es : List Entry) :
    producedIds (x :: es) = x.producedId?.toList ++ producedIds es := by
  unfold producedIds
  rw [List.filterMap_cons]
  cases x.producedId? <;> rfl

@[simp] theorem producedIds_nil : producedIds [] = [] := rfl

def Frame.isProduced : Frame → Bool
  | .produced => true
  | .calls _ | .schedule _ | .produce _ | .notify _ _ _ | .destroyed _ => false

/-- How many calls of `Produce` have still to reach `++id`. -/
def unfinished (frames : List Frame) : Nat := frames.countP Frame.isProduced

@[simp] theorem unfinished_nil : unfinished [] = 0 := rfl

@[simp] theorem unfinished_cons (fr : Frame) (frames : List Frame) :
    unfinished (fr :: frames) = unfinished frames + if fr.isProduced then 1 else 0 := List.countP_cons

@[simp] theorem unfinished_startNotify (k : Notice) (f : FactoryId) (fac : Factory) (frames : List Frame) :
    unfinished ((startNotify k f fac).2 ++ frames) = unfinished frames := by
  unfold startNotify
  split
  · simp [Frame.isProduced]
  · rfl

/-- The ids so far are those counted from zero, and the counter is at the next one as soon
as no `++id` is outstanding. -/
structure Numbered (w : World) : Prop where
  ids : producedIds w.trace = (List.range (producedIds w.trace).length).map (BitVec.ofNat 32)
  next : w.dataId + BitVec.ofNat 32 (unfinished w.frames) = BitVec.ofNat 32 (producedIds w.trace).length

variable {c : Config} {w : World}

theorem numbered_initial : Numbered .initial := ⟨rfl, rfl⟩

/-- Nothing is produced and no `++id` comes nearer. -/
theorem Numbered.still {w' : World} (hn : Numbered w) (hid : w'.dataId = w.dataId)
    (hframes : unfinished w'.frames = unfinished w.frames)
    (htrace : producedIds w'.trace = producedIds w.trace) : Numbered w' := by
  constructor
  · rw [htrace]
    exact hn.ids
  · rw [hid, hframes, htrace]
    exact hn.next

theorem Numbered.hostMove {w' : World} {e : Event} (hn : Numbered w) (hm : HostMove c w e w') : Numbered w' := by
  refine hn.still ?_ ?_ ?_
  · cases hm <;> rfl
  · rw [(hm.chain 0).2]
  · cases hm <;> simp [Entry.producedId?, FactoryHost.deletion, apply_ite producedIds]

theorem Numbered.factoryMove {w' : World} {e : Event} (ha : Alone w) (hn : Numbered w) (hm : FactoryMove w e w') :
    Numbered w' := by
  cases hm with
  | post | tick => exact hn.still rfl rfl rfl
  | beginCalls hidle => exact hn.still rfl (by simp [hidle.2, Frame.isProduced]) rfl
  | beginSchedule hidle | beginDelayed hidle =>
    refine hn.still rfl ?_ (by simp [Entry.producedId?])
    rw [hidle.2]
    split <;> rfl
  | callsDone hpc hw | skip hpc hw | start hpc hw | stop hpc hw | addObserver hpc hw | removeObserver hpc hw
  | notifyDead hpc hw | notifyEnd hpc hw => exact hn.still rfl (by simp [hw, Frame.isProduced]) rfl
  | scheduleStopped hpc hw | scheduleNow hpc hw | scheduleLater hpc hw =>
    exact hn.still rfl (by simp [hw, Frame.isProduced]) rfl
  | create hpc hw =>
    exact hn.still rfl (by simp [hw, Frame.isProduced]) (by simp [createFactory, Entry.producedId?])
  | destroyBegin hpc hw =>
    exact hn.still rfl (by simp [hw, Frame.isProduced]) (by simp [Entry.producedId?])
  | notifyPlain hpc hw | notifyProduced hpc hw | notifyDestroyed hpc hw | destroyed hpc hw =>
    exact hn.still rfl (by simp [hw, Frame.isProduced]) (by simp [Entry.producedId?])
  | @produce f fac rest time script hpc hw hfac =>
    obtain rfl := ha.rest_eq_nil hw rfl
    have hid : w.dataId = BitVec.ofNat 32 (producedIds w.trace).length := by
      have := hn.next
      simpa [hw, Frame.isProduced] using this
    constructor
    · simp only [producedIds_append, producedIds_cons, Entry.producedId?, producedIds_nil, List.append_nil,
        Option.toList_some, List.length_append, List.length_singleton, List.range_succ, List.map_append,
        List.map_singleton, FactoryData.make, ← hn.ids, ← hid]
    · simp [Frame.isProduced, Entry.producedId?, hid, BitVec.ofNat_add]
  | produced hpc hw =>
    refine ⟨hn.ids, ?_⟩
    have hnext := hn.next
    simp only [hw, unfinished_cons, Frame.isProduced, if_true, BitVec.ofNat_add] at hnext
    rw [← hnext]
    exact (BitVec.add_assoc ..).trans (congrArg (w.dataId + ·) (BitVec.add_comm ..))

theorem numbered_of_reaches {P : World → Event → Prop} (hr : GuardedRun.Reaches (step c) P .initial w) :
    Numbered w := by
  have hboth : Alone w ∧ Numbered w := by
    refine moves_of_reaches (I := fun w => Alone w ∧ Numbered w) (fun _ _ _ _ hi _ hm => ?_)
      (fun _ _ _ _ hi _ hm => ?_) ⟨alone_initial, numbered_initial⟩ hr
    · exact ⟨hi.1.hostMove hm, hi.2.hostMove hm⟩
    · exact ⟨hi.1.factoryMove hm, hi.2.factoryMove hi.1 hm⟩
  exact hboth.2

/-- In every reachable state of a process, over any sequence of Factories. -/
theorem idsIdentify_of_reaches (c : Config) {w : World} (hr : GuardedRun.Reaches (step c) Free .initial w) :
    IdsIdentify (producedIds w.trace) ↔ (producedIds w.trace).length ≤ 2 ^ 31 := by
  rw [(numbered_of_reaches hr).ids, idsIdentify_range, List.length_map, List.length_range]

/-- Between tasks, with Factory `f` started, nobody observing it and its next Schedule posted,
after `n` data. -/
structure Ticking (f : FactoryId) (n : Nat) (w : World) : Prop where
  idle : w.Idle
  factory : ∃ fac, w.factory f = some fac ∧ fac.start = true ∧ fac.observerList.mightHaveObservers = false ∧
    fac.period ≠ 0
  delayed : ∃ time, w.delayed = [(time, f)]
  count : (producedIds w.trace).length = n

/-- A started Factory goes on to its next datum. -/
theorem Ticking.next {f : FactoryId} {n : Nat} (ht : Ticking f n w) :
    ∃ w', GuardedRun.Reaches (step c) Free w w' ∧ Ticking f (n + 1) w' := by
  obtain ⟨⟨hpc, hframes⟩, ⟨fac, hfac, hstart, hempty, hper⟩, ⟨time, hdelayed⟩, hcount⟩ := ht
  let w₁ : World := { w with now := w.now + time }
  let w₂ : World := { w₁ with delayed := [], frames := [.schedule f], trace := w.trace ++ [.taken f] }
  let fac₃ : Factory := { fac with lastTicks := w₁.now }
  let w₃ : World := { w₂ with
    factory := update w.factory f (some fac₃)
    delayed := [(w₁.now + fac₃.period, f)]
    frames := [.produce f] }
  let w₄ : World := { w₃ with
    factory := update w₃.factory f (some { fac₃ with data := .make w.dataId })
    frames := [.produced]
    trace := w₂.trace ++ [.produced f w₁.now (.make w.dataId)] }
  let w₅ : World := { w₄ with dataId := w.dataId + 1, frames := [] }
  have h₁ : step c w (.tick time) = some w₁ := rfl
  have h₂ : step c w₁ (.beginDelayed 0) = some w₂ := by
    simp [step, World.Idle, beginTask, w₁, w₂, hpc, hframes, hdelayed, hfac]
  have h₃ : step c w₂ (.run 0 []) = some w₃ := by
    simp only [step, runFrame, factorySchedule, w₁, w₂, hpc, hfac, Option.bind_eq_bind, Option.bind_some]
    rw [if_pos hstart, if_neg (by exact hper)]
    simp only [w₃, w₂, w₁, fac₃, hpc, List.nil_append]
  have h₄ : step c w₃ (.run 0 []) = some w₄ := by
    simp [step, runFrame, factoryProduce, startNotify, w₁, w₂, w₃, w₄, fac₃, hpc, hempty]
  have h₅ : step c w₄ (.run 0 []) = some w₅ := by simp [step, runFrame, w₁, w₂, w₃, w₄, w₅, hpc]
  refine ⟨w₅, (((((GuardedRun.Reaches.refl w).tail trivial h₁).tail trivial h₂).tail trivial h₃).tail trivial
    h₄).tail trivial h₅, ⟨hpc, rfl⟩, ?_, ⟨_, rfl⟩, ?_⟩
  · exact ⟨_, Function.update_self .., hstart, hempty, hper⟩
  · simp [w₅, w₄, w₂, Entry.producedId?, hcount]

/-- A process that runs long enough has produced any number of data. -/
theorem exists_ticking (n : Nat) : ∃ w, GuardedRun.Reaches (step .plain) Free .initial w ∧ Ticking 0 (n + 1) w := by
  induction n with
  | zero =>
    obtain ⟨w, hr, hw⟩ := GuardedRun.exists_of_execute (step .plain) Free .initial
      [.post [.create, .start], .begin, .run 0 [], .run 0 [], .run 0 [], .begin, .run 0 [], .run 0 [], .run 0 []]
      (fun w => decide (w.Idle ∧ ((w.factory 0).any fun fac =>
        fac.start && !fac.observerList.mightHaveObservers && decide (fac.period ≠ 0)) = true ∧
        w.delayed = [(1000, 0)] ∧ (producedIds w.trace).length = 1)) (by decide)
    obtain ⟨hidle, hfac, hdelayed, hcount⟩ := of_decide_eq_true hw
    obtain ⟨fac, hfac, hb⟩ := (Option.any_eq_true ..).mp hfac
    simp only [Bool.and_eq_true, Bool.not_eq_true', decide_eq_true_eq] at hb
    exact ⟨w, hr, hidle, ⟨fac, hfac, hb.1.1, hb.1.2, hb.2⟩, ⟨1000, hdelayed⟩, hcount⟩
  | succ n ih =>
    obtain ⟨w, hr, ht⟩ := ih
    obtain ⟨w', hr', ht'⟩ := ht.next
    exact ⟨w', hr.trans hr', ht'⟩

theorem idsIdentify_of_reaches_first_datum : ∃ w, GuardedRun.Reaches (step .plain) Free .initial w ∧
    producedIds w.trace = [0] ∧ (IdsIdentify (producedIds w.trace) ↔ (producedIds w.trace).length ≤ 2 ^ 31) := by
  obtain ⟨w, hr, hw⟩ := GuardedRun.exists_of_execute (step .plain) Free .initial
    [.post [.create, .start], .begin, .run 0 [], .run 0 [], .run 0 [], .begin, .run 0 [], .run 0 [], .run 0 []]
    (fun w => decide (producedIds w.trace = [0])) (by decide)
  exact ⟨w, hr, of_decide_eq_true hw, idsIdentify_of_reaches .plain hr⟩

/-- After 2^31 data the ids go on below zero. -/
theorem not_idsIdentify_wrapped : ∃ w, GuardedRun.Reaches (step .plain) Free .initial w ∧
    (producedIds w.trace).length = 2 ^ 31 + 1 ∧ ¬ IdsIdentify (producedIds w.trace) := by
  obtain ⟨w, hr, ht⟩ := exists_ticking (2 ^ 31)
  refine ⟨w, hr, ht.count, fun h => ?_⟩
  rw [(numbered_of_reaches hr).ids, idsIdentify_range, ht.count] at h
  omega

end OscDataProcess
