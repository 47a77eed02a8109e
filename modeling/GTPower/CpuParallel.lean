import GTPower.EnergyReports

/-! The engine on the CPU over all instances, in one thread and in several: the shuffled instances are shared out, every
thread pushes its results, and the results are merged by their places. -/
namespace GTPower

section Engine
variable {κ α : Type}

/-- Results of the cells in the order they are pushed, and the accumulated powers. -/
structure CpuReport (κ α : Type) where
  cellPowerResults : List (HostInst κ α × (Component → ℚ))
  groups : PowerGroup → Component → ℚ
  total : Component → ℚ
  waveform : Component → Nat → ℚ

namespace CpuReport

def empty : CpuReport κ α := ⟨[], 0, 0, 0⟩

def count (report : CpuReport κ α) (inst : HostInst κ α) (instPower : Component → ℚ) : CpuReport κ α :=
  { report with
    cellPowerResults := report.cellPowerResults ++ [(inst, instPower)]
    groups := Function.update report.groups inst.cell.group (report.groups inst.cell.group + instPower)
    total := report.total + instPower }

def addWaveform (report : CpuReport κ α) (waveform : Component → Nat → ℚ) : CpuReport κ α :=
  { report with waveform := report.waveform + waveform }

end CpuReport

variable (clock : Clock)

/-- One leaf instance of the single thread; instances without a cell are skipped. -/
def powerInst (report : CpuReport κ α) : Option (HostInst κ α) → Option (CpuReport κ α)
  | none => some report
  | some inst => (timeBasedPower clock inst).map fun result => (report.addWaveform result.2).count inst result.1

def powerSingleThreaded (leafInstances : List (Option (HostInst κ α))) : Option (CpuReport κ α) :=
  leafInstances.foldlM (powerInst clock) .empty

/-- First gate of a thread and the one behind its last. -/
def threadRange (nInst nThread tId : Nat) : Nat × Nat :=
  let base := nInst / nThread
  let remainder := nInst % nThread
  let start := tId * base + min tId remainder
  (start, start + base + if tId < remainder then 1 else 0)

def threadGates (nInst nThread tId : Nat) : List Nat :=
  let range := threadRange nInst nThread tId
  List.range' range.1 (range.2 - range.1)

def scheduleThread (instances : List (HostInst κ α)) (nThread tId : Nat) : Option (List (HostInst κ α)) :=
  (threadGates instances.length nThread tId).mapM fun gateIdx => instances[gateIdx]?

/-- What a thread leaves: its waveforms and the results of its gates. -/
structure CpuThread where
  totalResult : Component → Nat → ℚ
  gateResults : List (Component → ℚ)

def runInst (thread : CpuThread) (inst : HostInst κ α) : Option CpuThread :=
  (timeBasedPower clock inst).map fun result => ⟨thread.totalResult + result.2, thread.gateResults ++ [result.1]⟩

def runThread (instances : List (HostInst κ α)) : Option CpuThread := instances.foldlM (runInst clock) ⟨0, []⟩

def mergeCycles (report : CpuReport κ α) (thread : CpuThread) : CpuReport κ α :=
  { report with waveform := fun component cycle =>
      if cycle < clock.hostNPeriod then report.waveform component cycle + thread.totalResult component cycle
      else report.waveform component cycle }

def mergeGate (instances : List (HostInst κ α)) (gateResults : List (Component → ℚ)) (report : CpuReport κ α)
    (gateIdx : Nat) :
    Option (CpuReport κ α) := do
  let inst ← instances[gateIdx]?
  let instPower ← gateResults[gateIdx]?
  return report.count inst instPower

/-- One thread merged; it is fatal that it has not a result for each of its gates. -/
def mergeCpuThread (perThreadInstances : List (List (HostInst κ α))) (threads : List CpuThread) (report : CpuReport κ α)
    (tId : Nat) : Option (CpuReport κ α) := do
  let instances ← perThreadInstances[tId]?
  let thread ← threads[tId]?
  if instances.length ≠ thread.gateResults.length then none
  else (List.range instances.length).foldlM (mergeGate instances thread.gateResults) (mergeCycles clock report thread)

def powerMultiThreaded (nThread : Nat) (instances : List (HostInst κ α)) : Option (CpuReport κ α) := do
  let perThreadInstances ← (List.range nThread).mapM (scheduleThread instances nThread)
  let threads ← perThreadInstances.mapM (runThread clock)
  (List.range nThread).foldlM (mergeCpuThread clock perThreadInstances threads) .empty

/-- Equal powers and waveforms, and the same results of the cells up to their order. -/
structure CpuReport.Agrees (clock : Clock) (multi single : CpuReport κ α) : Prop where
  total : multi.total = single.total
  groups : multi.groups = single.groups
  waveform : ∀ component, ∀ cycle < clock.hostNPeriod, multi.waveform component cycle = single.waveform component cycle
  cells : multi.cellPowerResults.Perm single.cellPowerResults

end Engine

section Shares

theorem foldlM_range_getElem {α β : Type} (f : β → α → Option β) (l : List α) (b : β) :
    (List.range l.length).foldlM (fun b i => l[i]?.bind (f b)) b = l.foldlM f b := by
  induction l generalizing b with
  | nil => rfl
  | cons a rest ih =>
    rw [List.length_cons,List.range_succ_eq_map,List.foldlM_cons,List.foldlM_cons]
    refine congrArg (Option.bind (f b a)) (funext fun next => ?_)
    rw [List.foldlM_map]
    exact ih next

theorem mapM_getElem_range {ι : Type} (l : List ι) (low : start ≤ stop) (high : stop ≤ l.length) :
    (List.range' start (stop - start)).mapM (fun i => l[i]?) = some ((l.drop start).take (stop - start)) := by
  rw [HostGate.mapM_eq_some_iff,List.forall₂_iff_get]
  have long : ((l.drop start).take (stop - start)).length = stop - start := by
    rw [List.length_take,List.length_drop]
    omega
  refine ⟨by rw [List.length_range',long], fun i left right => ?_⟩
  simp only [List.get_eq_getElem,List.getElem_range',one_mul,List.getElem_take,List.getElem_drop]
  exact List.getElem?_eq_getElem _

end Shares

section Runs
variable {κ α : Type} (clock : Clock)

def resultOf (inst : HostInst κ α) : (Component → ℚ) × (Component → Nat → ℚ) := (timeBasedPower clock inst).getD (0, 0)

def AllRun (instances : List (HostInst κ α)) : Prop := ∀ inst ∈ instances, (timeBasedPower clock inst).isSome

/-- What the instances add to a report besides the waveforms. -/
def CpuReport.countAll (report : CpuReport κ α) (instances : List (HostInst κ α)) : CpuReport κ α :=
  { report with
    cellPowerResults := report.cellPowerResults ++ instances.map fun inst => (inst, (resultOf clock inst).1)
    groups := fun group => report.groups group +
      ((instances.filter fun inst => inst.cell.group = group).map fun inst => (resultOf clock inst).1).sum
    total := report.total + (instances.map fun inst => (resultOf clock inst).1).sum }

variable {clock}

theorem CpuReport.count_countAll (report : CpuReport κ α) (inst : HostInst κ α) (rest : List (HostInst κ α)) :
    (report.count inst (resultOf clock inst).1).countAll clock rest = report.countAll clock (inst :: rest) := by
  unfold count countAll
  congr 1
  · simp
  · funext group
    by_cases own : inst.cell.group = group
    · subst own
      simp [add_assoc]
    · simp [own,Function.update_of_ne (Ne.symm own)]
  · simp [add_assoc]

theorem foldlM_results {σ : Type} {step : σ → HostInst κ α → Option σ} {add : σ → HostInst κ α → σ}
    (takes : ∀ st inst, step st inst = if (timeBasedPower clock inst).isSome then some (add st inst) else none)
    (instances : List (HostInst κ α)) (st : σ) :
    (AllRun clock instances → instances.foldlM step st = some (instances.foldl add st)) ∧
      (¬ AllRun clock instances → instances.foldlM step st = none) := by
  induction instances generalizing st with
  | nil => exact ⟨fun _ => rfl, fun failed => absurd (fun _ mem => by cases mem) failed⟩
  | cons inst rest ih =>
    rw [List.foldlM_cons,takes]
    by_cases here : (timeBasedPower clock inst).isSome
    · rw [if_pos here]
      refine ⟨fun ran => (ih _).1 fun other mem => ran other (List.mem_cons_of_mem _ mem), fun failed =>
        (ih _).2 fun later => failed ?_⟩
      exact List.forall_mem_cons.mpr ⟨here, later⟩
    · rw [if_neg here]
      exact ⟨fun ran => absurd (ran inst (List.mem_cons_self ..)) here, fun _ => rfl⟩

theorem takes_result {σ : Type} (clock : Clock) (add : σ → HostInst κ α → (Component → ℚ) × (Component → Nat → ℚ) → σ)
    (st : σ) (inst : HostInst κ α) :
    (timeBasedPower clock inst).map (add st inst) =
      if (timeBasedPower clock inst).isSome then some (add st inst (resultOf clock inst)) else none := by
  unfold resultOf
  cases timeBasedPower clock inst with
  | none => rfl
  | some result => rfl

theorem foldlM_leaves (leafInstances : List (Option (HostInst κ α))) (report : CpuReport κ α) :
    leafInstances.foldlM (powerInst clock) report =
      (leafInstances.filterMap id).foldlM (fun report inst => powerInst clock report (some inst)) report := by
  induction leafInstances generalizing report with
  | nil => rfl
  | cons leaf rest ih =>
    cases leaf with
    | none => exact ih report
    | some inst => exact congrArg (Option.bind (powerInst clock report (some inst))) (funext ih)

theorem powerSingleThreaded_spec (clock : Clock) (leafInstances : List (Option (HostInst κ α))) :
    (AllRun clock (leafInstances.filterMap id) → powerSingleThreaded clock leafInstances =
      some ((CpuReport.empty.countAll clock (leafInstances.filterMap id)).addWaveform
        ((leafInstances.filterMap id).map fun inst => (resultOf clock inst).2).sum)) ∧
    (¬ AllRun clock (leafInstances.filterMap id) → powerSingleThreaded clock leafInstances = none) := by
  rw [powerSingleThreaded,foldlM_leaves]
  obtain ⟨done, failed⟩ := foldlM_results (takes_result clock fun (report : CpuReport κ α) inst result =>
    (report.addWaveform result.2).count inst result.1) (leafInstances.filterMap id) CpuReport.empty
  refine ⟨fun ran => (done ran).trans (congrArg some ?_), failed⟩
  generalize leafInstances.filterMap id = instances
  have adding : ∀ (instances : List (HostInst κ α)) (report : CpuReport κ α),
      instances.foldl (fun report inst =>
        (report.addWaveform (resultOf clock inst).2).count inst (resultOf clock inst).1) report =
        (report.countAll clock instances).addWaveform (instances.map fun inst => (resultOf clock inst).2).sum := by
    intro instances
    induction instances with
    | nil =>
      intro report
      simp [CpuReport.countAll,CpuReport.addWaveform]
    | cons inst rest ih =>
      intro report
      rw [List.foldl_cons,ih,CpuReport.count_countAll]
      simp only [CpuReport.addWaveform,CpuReport.countAll,List.map_cons,List.sum_cons,add_assoc]
  exact adding instances .empty

theorem runThread_spec (clock : Clock) (instances : List (HostInst κ α)) :
    (AllRun clock instances → runThread clock instances =
      some ⟨(instances.map fun inst => (resultOf clock inst).2).sum, instances.map fun inst =>
        (resultOf clock inst).1⟩) ∧
    (¬ AllRun clock instances → runThread clock instances = none) := by
  obtain ⟨done, failed⟩ := foldlM_results (takes_result clock fun (thread : CpuThread) (_ : HostInst κ α) result =>
    ⟨thread.totalResult + result.2, thread.gateResults ++ [result.1]⟩) instances ⟨0, []⟩
  refine ⟨fun ran => (done ran).trans (congrArg some ?_), failed⟩
  have adding : ∀ (instances : List (HostInst κ α)) (thread : CpuThread),
      instances.foldl (fun thread inst =>
        ⟨thread.totalResult + (resultOf clock inst).2, thread.gateResults ++ [(resultOf clock inst).1]⟩)
        thread = (⟨thread.totalResult + (instances.map fun inst => (resultOf clock inst).2).sum,
          thread.gateResults ++ instances.map fun inst => (resultOf clock inst).1⟩ : CpuThread) := by
    intro instances
    induction instances with
    | nil => simp
    | cons inst rest ih => simp [ih,add_assoc]
  simpa using adding instances ⟨0, []⟩

theorem foldlM_countAll (instances : List (HostInst κ α)) (report : CpuReport κ α) :
    instances.foldlM (fun report inst => some (report.count inst (resultOf clock inst).1)) report =
      some (report.countAll clock instances) := by
  induction instances generalizing report with
  | nil => simp [CpuReport.countAll]
  | cons inst rest ih =>
    rw [List.foldlM_cons]
    exact (ih _).trans (congrArg some (CpuReport.count_countAll report inst rest))

theorem mergeGates_spec (instances : List (HostInst κ α)) (report : CpuReport κ α) :
    (List.range instances.length).foldlM (mergeGate instances (instances.map fun inst => (resultOf clock inst).1))
    report =
      some (report.countAll clock instances) := by
  have aligned : mergeGate instances (instances.map fun inst => (resultOf clock inst).1) = fun report gateIdx =>
      instances[gateIdx]?.bind fun inst => some (report.count inst (resultOf clock inst).1) := by
    funext report gateIdx
    rw [mergeGate,List.getElem?_map]
    cases instances[gateIdx]? with
    | none => rfl
    | some inst => rfl
  rw [aligned,foldlM_range_getElem]
  exact foldlM_countAll instances report

/-- What a thread leaves when all its instances have a result. -/
def threadOf (clock : Clock) (instances : List (HostInst κ α)) : CpuThread :=
  ⟨(instances.map fun inst => (resultOf clock inst).2).sum, instances.map fun inst => (resultOf clock inst).1⟩

theorem mergeThreads_spec (clock : Clock) (perThreadInstances : List (List (HostInst κ α))) :
    (List.range perThreadInstances.length).foldlM
        (mergeCpuThread clock perThreadInstances (perThreadInstances.map (threadOf clock))) CpuReport.empty =
      some { CpuReport.empty.countAll clock perThreadInstances.flatten with
        waveform := fun component cycle => if cycle < clock.hostNPeriod then
            (perThreadInstances.flatten.map fun inst => (resultOf clock inst).2 component cycle).sum else 0 } := by
  have aligned : mergeCpuThread clock perThreadInstances (perThreadInstances.map (threadOf clock)) = fun report tId =>
      perThreadInstances[tId]?.bind fun instances =>
        some ((mergeCycles clock report (threadOf clock instances)).countAll clock instances) := by
    funext report tId
    rw [mergeCpuThread,List.getElem?_map]
    cases perThreadInstances[tId]? with
    | none => rfl
    | some instances =>
      have sized : instances.length = (threadOf clock instances).gateResults.length := by simp [threadOf]
      exact (if_neg (not_not.mpr sized)).trans (mergeGates_spec instances _)
  rw [aligned,foldlM_range_getElem]
  have merging : ∀ (perThread : List (List (HostInst κ α))) (report : CpuReport κ α),
      perThread.foldlM (fun report instances =>
        some ((mergeCycles clock report (threadOf clock instances)).countAll clock instances)) report =
        some { report.countAll clock perThread.flatten with
          waveform := fun component cycle => if cycle < clock.hostNPeriod then report.waveform component cycle +
              (perThread.flatten.map fun inst => (resultOf clock inst).2 component cycle).sum
            else report.waveform component cycle } := by
    intro perThread
    induction perThread with
    | nil =>
      intro report
      simp [CpuReport.countAll]
    | cons instances rest ih =>
      intro report
      rw [List.foldlM_cons]
      refine (ih _).trans (congrArg some ?_)
      have waves : ∀ component cycle, (instances.map fun inst => (resultOf clock inst).2).sum component cycle =
          (instances.map fun inst => (resultOf clock inst).2 component cycle).sum := by
        intro component cycle
        induction instances with
        | nil => rfl
        | cons inst rest ih => simp [ih]
      simp only [CpuReport.countAll,mergeCycles,threadOf,List.flatten_cons,List.map_append,List.filter_append,
        List.sum_append,
        List.append_assoc,add_assoc,waves]
      congr 1
      funext component cycle
      split
      · rw [add_assoc]
      · rfl
  rw [merging]
  simp only [CpuReport.empty,Pi.zero_apply,zero_add]

theorem threadGates_inside (positive : 0 < nThread) (tId : Nat) (thread : tId < nThread) (nInst : Nat) :
    (threadRange nInst nThread tId).1 ≤ (threadRange nInst nThread tId).2 ∧
    (threadRange nInst nThread tId).2 ≤ nInst := by
  have remains := Nat.mod_lt nInst positive
  have whole := Nat.div_add_mod nInst nThread
  have share : (tId + 1) * (nInst / nThread) ≤ nThread * (nInst / nThread) := Nat.mul_le_mul_right _ thread
  rw [Nat.add_mul,Nat.one_mul] at share
  simp only [threadRange]
  generalize nInst / nThread = base at *
  split <;> omega

theorem perThreadInstances_eq {ι : Type} (nThread : Nat) (instances : List ι) (tId : Nat) :
    perThreadInstances nThread instances tId = (instances.drop (threadRange instances.length nThread tId).1).take
      ((threadRange instances.length nThread tId).2 - (threadRange instances.length nThread tId).1) := by
  simp only [perThreadInstances,threadRange]
  rw [Nat.add_assoc _ (instances.length / nThread),Nat.add_sub_cancel_left]

theorem scheduleThread_eq (positive : 0 < nThread) (instances : List (HostInst κ α)) (thread : tId < nThread) :
    scheduleThread instances nThread tId = some (perThreadInstances nThread instances tId) := by
  obtain ⟨order, inside⟩ := threadGates_inside positive tId thread instances.length
  rw [perThreadInstances_eq]
  exact mapM_getElem_range instances order inside

theorem mapM_of_forall {α β : Type} {f : α → Option β} {g : α → β} {l : List α} (each : ∀ a ∈ l, f a = some (g a)) :
    l.mapM f = some (l.map g) := by
  rw [HostGate.mapM_eq_some_iff,List.forall₂_map_right_iff]
  exact List.forall₂_same.mpr each

theorem powerMultiThreaded_spec (clock : Clock) (positive : 0 < nThread) (instances : List (HostInst κ α)) :
    (AllRun clock instances → powerMultiThreaded clock nThread instances =
      some { CpuReport.empty.countAll clock instances with
        waveform := fun component cycle => if cycle < clock.hostNPeriod then
            (instances.map fun inst => (resultOf clock inst).2 component cycle).sum else 0 }) ∧
    (¬ AllRun clock instances → powerMultiThreaded clock nThread instances = none) := by
  have shared : (List.range nThread).mapM (scheduleThread instances nThread) =
      some ((List.range nThread).map (perThreadInstances nThread instances)) :=
    mapM_of_forall fun tId mem => scheduleThread_eq positive instances (List.mem_range.mp mem)
  have joined : ((List.range nThread).map (perThreadInstances nThread instances)).flatten = instances :=
    perThreadInstances_flatMap instances positive
  rw [powerMultiThreaded,shared]
  constructor
  · intro ran
    have threads : ((List.range nThread).map (perThreadInstances nThread instances)).mapM (runThread clock) =
        some (((List.range nThread).map (perThreadInstances nThread instances)).map (threadOf clock)) :=
      mapM_of_forall fun own mem => (runThread_spec clock own).1 fun inst here =>
        ran inst (joined ▸ List.mem_flatten.mpr ⟨own, mem, here⟩)
    have merged := mergeThreads_spec clock ((List.range nThread).map (perThreadInstances nThread instances))
    rw [List.length_map,List.length_range,joined] at merged
    rw [Option.bind_eq_bind,Option.bind_some,threads]
    exact merged
  · intro failed
    have stuck : ((List.range nThread).map (perThreadInstances nThread instances)).mapM (runThread clock) = none := by
      by_contra done
      obtain ⟨threads, ran⟩ := Option.ne_none_iff_exists'.mp done
      have each := HostGate.mapM_eq_some_iff.mp ran
      refine failed fun inst mem => ?_
      rw [← joined] at mem
      obtain ⟨own, listed, here⟩ := List.mem_flatten.mp mem
      by_contra missing
      have none := (runThread_spec clock own).2 fun all => missing (all inst here)
      obtain ⟨i, inside, rfl⟩ := List.mem_iff_getElem.mp listed
      have found := (List.forall₂_iff_get.mp each).2 i inside (each.length_eq ▸ inside)
      rw [List.get_eq_getElem,none] at found
      cases found
    rw [Option.bind_eq_bind,Option.bind_some,stuck]
    rfl

/-- The ranges of the threads are the places of the instances, and the report of several threads over shuffled instances
is that of a single thread. -/
theorem cpuParallel (clock : Clock) (leafInstances : List (Option (HostInst κ α))) (shuffled : List (HostInst κ α))
    (perm : shuffled.Perm (leafInstances.filterMap id)) (nThread : Nat) (positive : 0 < nThread) :
    (List.range nThread).flatMap (threadGates shuffled.length nThread) = List.range shuffled.length ∧
    (∃ perThreadInstances, (List.range nThread).mapM (scheduleThread shuffled nThread) = some perThreadInstances ∧
      perThreadInstances.flatten = shuffled) ∧
    (powerMultiThreaded clock nThread shuffled = none ↔ powerSingleThreaded clock leafInstances = none) ∧
    ∀ multi single, powerMultiThreaded clock nThread shuffled = some multi →
    powerSingleThreaded clock leafInstances = some single →
      multi.Agrees clock single := by
  have shared : (List.range nThread).mapM (scheduleThread shuffled nThread) =
      some ((List.range nThread).map (perThreadInstances nThread shuffled)) :=
    mapM_of_forall fun tId mem => scheduleThread_eq positive shuffled (List.mem_range.mp mem)
  have places : (List.range nThread).flatMap (threadGates shuffled.length nThread) = List.range shuffled.length := by
    have whole := perThreadInstances_flatMap (List.range shuffled.length) positive
    refine Eq.trans (congrArg List.flatten (List.map_congr_left fun tId mem => ?_)) whole
    obtain ⟨order, inside⟩ := threadGates_inside positive tId (List.mem_range.mp mem) shuffled.length
    rw [perThreadInstances_eq,List.length_range]
    refine List.ext_getElem ?_ fun i _ _ => ?_
    · simp only [threadGates,List.length_range',List.length_take,List.length_drop,List.length_range]
      omega
    · simp [threadGates]
  obtain ⟨done, failed⟩ := powerMultiThreaded_spec clock positive shuffled
  obtain ⟨done', failed'⟩ := powerSingleThreaded_spec clock leafInstances
  have same : AllRun clock shuffled ↔ AllRun clock (leafInstances.filterMap id) :=
    ⟨fun ran inst mem => ran inst (perm.mem_iff.mpr mem), fun ran inst mem => ran inst (perm.mem_iff.mp mem)⟩
  refine ⟨places, ⟨_, shared, perThreadInstances_flatMap shuffled positive⟩, ?_, ?_⟩
  · by_cases ran : AllRun clock shuffled
    · simp [done ran,done' (same.mp ran)]
    · simp [failed ran,failed' (mt same.mpr ran)]
  · intro multi single merged summed
    by_cases ran : AllRun clock shuffled
    · obtain rfl := Option.some.inj ((done ran).symm.trans merged)
      obtain rfl := Option.some.inj ((done' (same.mp ran)).symm.trans summed)
      constructor
      · exact congrArg (_ + ·) (perm.map _).sum_eq
      · funext group
        exact congrArg (_ + ·) ((perm.filter _).map _).sum_eq
      · intro component cycle inside
        have waves : ∀ instances : List (HostInst κ α),
          (instances.map fun inst => (resultOf clock inst).2).sum component cycle =
            (instances.map fun inst => (resultOf clock inst).2 component cycle).sum := by
          intro instances
          induction instances with
          | nil => rfl
          | cons inst rest ih => simp [ih]
        simp only [if_pos inside,CpuReport.addWaveform,CpuReport.countAll,CpuReport.empty,Pi.zero_apply,zero_add,waves]
        exact (perm.map _).sum_eq
      · exact List.Perm.append_left _ (perm.map _)
    · rw [failed ran] at merged
      cases merged

/-- A clock buffer with one net and a cell without waveforms, each in a group of its own. -/
def twoInsts : List (HostInst Unit Unit) :=
  [⟨2, HostGate.cpuPair, ⟨false, false, false, false, true, false⟩⟩,
    ⟨1, HostGate.bare 1 fun _ => [], ⟨false, false, false, false, false, true⟩⟩]

/-- More threads than instances. -/
theorem cpuParallel_twoInsts : ∃ multi single,
    powerMultiThreaded HostGate.cpuClock 3 twoInsts.reverse = some multi ∧
    powerSingleThreaded HostGate.cpuClock [twoInsts[0]?, none, twoInsts[1]?] = some single ∧
    multi.Agrees HostGate.cpuClock single := by
  obtain ⟨-, -, -, agrees⟩ := cpuParallel HostGate.cpuClock [twoInsts[0]?, none, twoInsts[1]?] twoInsts.reverse
    (List.reverse_perm _) 3 (by decide)
  have ran : AllRun HostGate.cpuClock twoInsts.reverse := by
    intro inst mem
    rw [List.mem_reverse] at mem
    fin_cases mem
    · decide +kernel
    · decide +kernel
  have ran' : AllRun HostGate.cpuClock ([twoInsts[0]?, none, twoInsts[1]?].filterMap id) :=
    fun inst mem => ran inst (List.mem_reverse.mpr mem)
  obtain ⟨done, -⟩ := powerMultiThreaded_spec HostGate.cpuClock (show 0 < 3 by decide) twoInsts.reverse
  obtain ⟨done', -⟩ := powerSingleThreaded_spec HostGate.cpuClock [twoInsts[0]?, none, twoInsts[1]?]
  exact ⟨_, _, done ran, done' ran', agrees _ _ (done ran) (done' ran')⟩

end Runs
end GTPower
