import GTPower.EventPartition
import GTPower.Blocks

/-! Blocks and threads of a launch. Every gate gets as many blocks as its threads need, threads beyond those
of the gate return, and the threads of a gate add to the result slots of their places in a block. -/
namespace GTPower

inductive PartitionBasis where
  | event
  | cycle
  deriving DecidableEq, Repr

/-- Running sums of the counts, from 0 to the total. -/
def offsets (counts : List Nat) : List Nat := counts.scanl (· + ·) 0

def offsetAt (counts : List Nat) (gateIdx : Nat) : Nat := (offsets counts).getD gateIdx 0

section Table
variable (nThreadPerBlock : Nat) (threadCounts : List Nat)

def blockCounts : List Nat := threadCounts.map fun count => ceilDiv count nThreadPerBlock

structure GateRange where
  startThread : Nat
  endThread : Nat
  startBlock : Nat
  endBlock : Nat

def setAllPinsBlockThreadRange (gateIdx : Nat) : GateRange where
  startThread := offsetAt threadCounts gateIdx
  endThread := offsetAt threadCounts (gateIdx + 1)
  startBlock := offsetAt (blockCounts nThreadPerBlock threadCounts) gateIdx
  endBlock := offsetAt (blockCounts nThreadPerBlock threadCounts) (gateIdx + 1)

def nBlock : Nat := (offsets (blockCounts nThreadPerBlock threadCounts)).getLastD 0

/-- Every gate fills its blocks with its index. -/
def blockCorrGateIdxes (uninitialized : Nat → Nat) : Nat → Nat :=
  (List.range threadCounts.length).foldl (fun table gateIdx =>
    let range := setAllPinsBlockThreadRange nThreadPerBlock threadCounts gateIdx
    Blocks.write table range.startBlock (List.replicate (range.endBlock - range.startBlock) gateIdx)) uninitialized

end Table

structure LaunchTable where
  nBlock : Nat
  blockCorrGateIdxes : Nat → Nat
  gateRange : Nat → GateRange

def launchTable (nThreadPerBlock : Nat) (threadCounts : List Nat) (uninitialized : Nat → Nat) : LaunchTable :=
  ⟨nBlock nThreadPerBlock threadCounts, blockCorrGateIdxes nThreadPerBlock threadCounts uninitialized,
    setAllPinsBlockThreadRange nThreadPerBlock threadCounts⟩

def scheduleKernelForEventAndCycleBasedPartition (nThreadPerBlock : Nat)
    (eventThreadCounts cycleThreadCounts : List Nat) (uninitialized : Nat → Nat) : PartitionBasis → LaunchTable
  | .event => launchTable nThreadPerBlock eventThreadCounts uninitialized
  | .cycle => launchTable nThreadPerBlock cycleThreadCounts uninitialized

section Launch
variable (table : LaunchTable) (nThreadPerBlock : Nat)

def threadIdxInGate (block threadIdx : Nat) : Nat :=
  (block - (table.gateRange (table.blockCorrGateIdxes block)).startBlock) * nThreadPerBlock + threadIdx

/-- The gate and the thread of it that a launched thread is; `none` when it returns at the guard. -/
def threadOfLaunch (block threadIdx : Nat) : Option (Nat × Nat) :=
  let gateIdx := table.blockCorrGateIdxes block
  let range := table.gateRange gateIdx
  if range.endThread - range.startThread ≤ threadIdxInGate table nThreadPerBlock block threadIdx then none
  else some (gateIdx, threadIdxInGate table nThreadPerBlock block threadIdx)

variable {α : Type*} [AddCommMonoid α] (powerResLength : Nat) (value : Nat → Nat → α)

def resultSlot (gateIdx threadIdx : Nat) : Nat := gateIdx * powerResLength + threadIdx

/-- A launched thread adds its result to its slot. -/
def runLaunch (slots : Nat → α) (launch : Nat × Nat) : Nat → α :=
  match threadOfLaunch table nThreadPerBlock launch.1 launch.2 with
  | none => slots
  | some (gateIdx, thread) =>
    let slot := resultSlot powerResLength gateIdx launch.2
    Function.update slots slot (slots slot + value gateIdx thread)

/-- The slots of a gate, summed up. -/
def kernel2MergeAllPowerResult (slots : Nat → α) (gateIdx : Nat) : α :=
  ((List.range powerResLength).map fun tIdx => slots (resultSlot powerResLength gateIdx tIdx)).sum

end Launch

section Offsets
variable {counts : List Nat}

theorem getD_scanl (start : Nat) (bound : g ≤ counts.length) :
    (counts.scanl (· + ·) start).getD g 0 = start + (counts.take g).sum := by
  induction counts generalizing start g with
  | nil =>
    obtain rfl : g = 0 := by simpa using bound
    simp
  | cons count rest ih =>
    rw [List.scanl_cons]
    cases g with
    | zero => simp
    | succ g =>
      rw [List.getD_cons_succ,ih (start + count) (by simpa using bound),List.take_succ_cons,List.sum_cons,Nat.add_assoc]

theorem offsetAt_eq (bound : g ≤ counts.length) : offsetAt counts g = (counts.take g).sum := by
  rw [offsetAt,offsets,getD_scanl 0 bound,Nat.zero_add]

theorem offsetAt_succ (counts : List Nat) (bound : g < counts.length) :
    offsetAt counts (g + 1) = offsetAt counts g + counts.getD g 0 := by
  rw [offsetAt_eq bound,offsetAt_eq (Nat.le_of_lt bound),List.take_add_one,List.getElem?_eq_getElem bound,
    List.sum_append]
  simp [bound]

theorem offsetAt_mono (counts : List Nat) (order : g ≤ g') (bound : g' ≤ counts.length) :
    offsetAt counts g ≤ offsetAt counts g' := by
  rw [offsetAt_eq bound,offsetAt_eq (Nat.le_trans order bound)]
  exact List.Sublist.sum_le_sum (List.take_sublist_take_left order) fun _ _ => Nat.zero_le _

theorem getLastD_offsets (counts : List Nat) : (offsets counts).getLastD 0 = offsetAt counts counts.length := by
  have size : (offsets counts).length = counts.length + 1 := List.length_scanl ..
  rw [List.getLastD_eq_getLast?,List.getLast?_eq_getElem?,size,Nat.add_sub_cancel,offsetAt,List.getD_eq_getElem?_getD]

theorem take_sum_mono (counts : List Nat) : Monotone fun g => (counts.take g).sum :=
  fun _ _ order => List.Sublist.sum_le_sum (List.take_sublist_take_left order) fun _ _ => Nat.zero_le _

end Offsets

section Ranges
variable {nThreadPerBlock : Nat} {threadCounts : List Nat}

theorem lt_ceilDiv (positive : 0 < k) (less : t < count) : t / k < ceilDiv count k := by
  refine (Nat.le_div_iff_mul_le positive).mpr ?_
  have := Nat.div_mul_le_self t k
  rw [Nat.succ_mul]
  omega

theorem gateRange_eq (inside : g < threadCounts.length) :
    let range := setAllPinsBlockThreadRange nThreadPerBlock threadCounts g
    range.endThread - range.startThread = threadCounts.getD g 0 ∧
      range.endBlock = range.startBlock + ceilDiv (threadCounts.getD g 0) nThreadPerBlock := by
  have inside' : g < (blockCounts nThreadPerBlock threadCounts).length := by rwa [blockCounts,List.length_map]
  dsimp only [setAllPinsBlockThreadRange]
  rw [offsetAt_succ _ inside,offsetAt_succ _ inside',Nat.add_sub_cancel_left]
  refine ⟨rfl, congrArg _ ?_⟩
  simp [blockCounts,inside]

theorem existsUnique_gate (launched : block < nBlock nThreadPerBlock threadCounts) :
    ∃! g, g < threadCounts.length ∧ (setAllPinsBlockThreadRange nThreadPerBlock threadCounts g).startBlock ≤ block ∧
      block < (setAllPinsBlockThreadRange nThreadPerBlock threadCounts g).endBlock := by
  have size : (blockCounts nThreadPerBlock threadCounts).length = threadCounts.length := List.length_map ..
  have last : block < ((blockCounts nThreadPerBlock threadCounts).take threadCounts.length).sum := by
    rwa [nBlock,getLastD_offsets,offsetAt_eq (Nat.le_refl _),size] at launched
  obtain ⟨g, ⟨inside, low, high⟩, unique⟩ :=
    Timeline.existsUnique_between (take_sum_mono (blockCounts nThreadPerBlock threadCounts))
    (by simp) last
  have bounds : ∀ other, other < threadCounts.length →
      (setAllPinsBlockThreadRange nThreadPerBlock threadCounts other).startBlock =
        ((blockCounts nThreadPerBlock threadCounts).take other).sum ∧
      (setAllPinsBlockThreadRange nThreadPerBlock threadCounts other).endBlock =
        ((blockCounts nThreadPerBlock threadCounts).take (other + 1)).sum :=
    fun other less => ⟨offsetAt_eq (by omega), offsetAt_eq (by omega)⟩
  refine ⟨g, ⟨inside, (bounds g inside).1 ▸ low, (bounds g inside).2 ▸ high⟩, fun other ⟨less, low, high⟩ => ?_⟩
  exact unique other ⟨less, (bounds other less).1 ▸ low, (bounds other less).2 ▸ high⟩

theorem blockCorrGateIdxes_eq (uninitialized : Nat → Nat) (inside : g < threadCounts.length)
    (low : (setAllPinsBlockThreadRange nThreadPerBlock threadCounts g).startBlock ≤ block)
    (high : block < (setAllPinsBlockThreadRange nThreadPerBlock threadCounts g).endBlock) :
    blockCorrGateIdxes nThreadPerBlock threadCounts uninitialized block = g := by
  have filling : ∀ done, done ≤ threadCounts.length → g < done →
      (List.range done).foldl (fun table gateIdx =>
        let range := setAllPinsBlockThreadRange nThreadPerBlock threadCounts gateIdx
        Blocks.write table range.startBlock (List.replicate (range.endBlock - range.startBlock) gateIdx)) uninitialized
          block = g := by
    intro done
    induction done with
    | zero => intro _ none; omega
    | succ done ih =>
      intro bound reached
      rw [List.range_succ,List.foldl_append]
      by_cases here : g = done
      · subst here
        exact Blocks.write_replicate _ _ low (by omega)
      · have before := ih (by omega) (by omega)
        refine Eq.trans (Blocks.write_outside _ _ (Or.inl ?_)) before
        have size : (blockCounts nThreadPerBlock threadCounts).length = threadCounts.length := List.length_map ..
        have order := offsetAt_mono (blockCounts nThreadPerBlock threadCounts) (show g + 1 ≤ done by omega) (by omega)
        exact Nat.lt_of_lt_of_le high order
  exact filling threadCounts.length (Nat.le_refl _) inside

end Ranges

section Coverage
variable {nThreadPerBlock : Nat} {threadCounts : List Nat} {uninitialized : Nat → Nat}

/-- A launched thread in the blocks of a gate: the guard asks whether the gate has that many threads. -/
theorem threadOfLaunch_eq (inside : g < threadCounts.length)
    (low : (setAllPinsBlockThreadRange nThreadPerBlock threadCounts g).startBlock ≤ block)
    (high : block < (setAllPinsBlockThreadRange nThreadPerBlock threadCounts g).endBlock) (threadIdx : Nat) :
    threadOfLaunch (launchTable nThreadPerBlock threadCounts uninitialized) nThreadPerBlock block threadIdx =
      if threadCounts.getD g 0 ≤
          (block - (setAllPinsBlockThreadRange nThreadPerBlock threadCounts g).startBlock) * nThreadPerBlock +
            threadIdx then none
      else some (g, (block - (setAllPinsBlockThreadRange nThreadPerBlock threadCounts g).startBlock) * nThreadPerBlock +
        threadIdx) := by
  have gate := blockCorrGateIdxes_eq uninitialized inside low high
  simp only [threadOfLaunch,threadIdxInGate,launchTable,gate,(gateRange_eq inside).1]

theorem threadOfLaunch_valid (launched : block < nBlock nThreadPerBlock threadCounts)
    (passes : threadOfLaunch (launchTable nThreadPerBlock threadCounts uninitialized) nThreadPerBlock block threadIdx =
      some (g, t)) :
    g < threadCounts.length ∧ t < threadCounts.getD g 0 ∧
      (setAllPinsBlockThreadRange nThreadPerBlock threadCounts g).startBlock ≤ block ∧
      t = (block - (setAllPinsBlockThreadRange nThreadPerBlock threadCounts g).startBlock) * nThreadPerBlock +
        threadIdx := by
  obtain ⟨gate, ⟨inside, low, high⟩, -⟩ := existsUnique_gate launched
  rw [threadOfLaunch_eq inside low high] at passes
  split at passes
  case isTrue => cases passes
  case isFalse guard =>
    cases passes
    exact ⟨inside, Nat.lt_of_not_le guard, low, rfl⟩

/-- The block and the place in it of a thread of a gate. -/
def launchOf (nThreadPerBlock : Nat) (threadCounts : List Nat) (g t : Nat) : Nat × Nat :=
  ((setAllPinsBlockThreadRange nThreadPerBlock threadCounts g).startBlock + t / nThreadPerBlock, t % nThreadPerBlock)

theorem launchOf_launched (positive : 0 < nThreadPerBlock) (inside : g < threadCounts.length)
    (valid : t < threadCounts.getD g 0) :
    ((launchOf nThreadPerBlock threadCounts g t).1 < nBlock nThreadPerBlock threadCounts ∧
      (launchOf nThreadPerBlock threadCounts g t).2 < nThreadPerBlock) ∧
    threadOfLaunch (launchTable nThreadPerBlock threadCounts uninitialized) nThreadPerBlock
      (launchOf nThreadPerBlock threadCounts g t).1 (launchOf nThreadPerBlock threadCounts g t).2 = some (g, t) := by
  obtain ⟨-, ends⟩ : _ ∧ (setAllPinsBlockThreadRange nThreadPerBlock threadCounts g).endBlock = _ := gateRange_eq inside
  have place := lt_ceilDiv positive valid
  have size : (blockCounts nThreadPerBlock threadCounts).length = threadCounts.length := List.length_map ..
  have last : (setAllPinsBlockThreadRange nThreadPerBlock threadCounts g).endBlock ≤
    nBlock nThreadPerBlock threadCounts := by
    rw [nBlock,getLastD_offsets]
    exact offsetAt_mono _ (by omega) (Nat.le_refl _)
  have high : (launchOf nThreadPerBlock threadCounts g t).1 <
      (setAllPinsBlockThreadRange nThreadPerBlock threadCounts g).endBlock := by
    rw [ends]
    exact Nat.add_lt_add_left place _
  refine ⟨⟨Nat.lt_of_lt_of_le high last, Nat.mod_lt _ positive⟩, ?_⟩
  have low : (setAllPinsBlockThreadRange nThreadPerBlock threadCounts g).startBlock ≤
      (launchOf nThreadPerBlock threadCounts g t).1 := Nat.le_add_right _ _
  rw [threadOfLaunch_eq inside low high]
  simp only [launchOf,Nat.add_sub_cancel_left,Nat.div_add_mod',if_neg (Nat.not_le.mpr valid)]

theorem existsUnique_launch (positive : 0 < nThreadPerBlock) (inside : g < threadCounts.length)
    (valid : t < threadCounts.getD g 0) :
    ∃! launch : Nat × Nat, (launch.1 < nBlock nThreadPerBlock threadCounts ∧ launch.2 < nThreadPerBlock) ∧
      threadOfLaunch (launchTable nThreadPerBlock threadCounts uninitialized) nThreadPerBlock launch.1 launch.2 =
        some (g, t) := by
  refine ⟨_, launchOf_launched positive inside valid, ?_⟩
  rintro ⟨block, threadIdx⟩ ⟨⟨launched, small⟩, passes⟩
  obtain ⟨-, -, low, thread⟩ := threadOfLaunch_valid launched passes
  have quotient : t / nThreadPerBlock = block -
    (setAllPinsBlockThreadRange nThreadPerBlock threadCounts g).startBlock := by
    rw [thread,Nat.mul_comm,Nat.mul_add_div positive,Nat.div_eq_of_lt small,Nat.add_zero]
  have rest : t % nThreadPerBlock = threadIdx := by
    rw [thread,Nat.mul_comm,Nat.mul_add_mod,Nat.mod_eq_of_lt small]
  rw [launchOf,quotient,rest]
  exact Prod.ext (by dsimp only at low ⊢; omega) rfl

def gateThreads (threadCounts : List Nat) : List (Nat × Nat) :=
  (List.range threadCounts.length).flatMap fun g => (List.range (threadCounts.getD g 0)).map fun t => (g, t)

def launches (blocks perBlock : Nat) : List (Nat × Nat) := (List.range blocks).product (List.range perBlock)

theorem mem_launches : launch ∈ launches blocks perBlock ↔ launch.1 < blocks ∧ launch.2 < perBlock := by
  obtain ⟨block, threadIdx⟩ := launch
  rw [launches,List.pair_mem_product,List.mem_range,List.mem_range]

theorem mem_gateThreads : (g, t) ∈ gateThreads threadCounts ↔ g < threadCounts.length ∧ t < threadCounts.getD g 0 := by
  simp [gateThreads]

theorem ran_perm (positive : 0 < nThreadPerBlock) :
    ((launches (nBlock nThreadPerBlock threadCounts) nThreadPerBlock).filterMap fun launch =>
      threadOfLaunch (launchTable nThreadPerBlock threadCounts uninitialized) nThreadPerBlock launch.1 launch.2).Perm
      (gateThreads threadCounts) := by
  refine (List.perm_ext_iff_of_nodup ?_ ?_).mpr fun ⟨g, t⟩ => ?_
  · have distinct : (launches (nBlock nThreadPerBlock threadCounts) nThreadPerBlock).Nodup :=
      List.nodup_range.product List.nodup_range
    refine List.pairwise_filterMap.mpr (distinct.imp_of_mem fun {launch launch'} mem mem' differ => ?_)
    rintro ⟨g, t⟩ ran _ ran' rfl
    obtain ⟨inside, valid, -⟩ := threadOfLaunch_valid (mem_launches.mp mem).1 ran
    exact differ ((existsUnique_launch positive inside valid).unique ⟨mem_launches.mp mem,
      ran⟩ ⟨mem_launches.mp mem', ran'⟩)
  · refine List.nodup_flatMap.mpr ⟨fun g _ => List.nodup_range.map fun _ _ same => (Prod.mk.inj same).2, ?_⟩
    refine List.nodup_range.imp fun differ => ?_
    intro thread here there
    obtain ⟨_, -, rfl⟩ := List.mem_map.mp here
    obtain ⟨_, -, same⟩ := List.mem_map.mp there
    exact differ (Prod.mk.inj same).1.symm
  · rw [List.mem_filterMap,mem_gateThreads]
    constructor
    · rintro ⟨launch, mem, ran⟩
      obtain ⟨inside, valid, -⟩ := threadOfLaunch_valid (mem_launches.mp mem).1 ran
      exact ⟨inside, valid⟩
    · rintro ⟨inside, valid⟩
      obtain ⟨launched, ran⟩ := launchOf_launched positive inside valid
      exact ⟨_, mem_launches.mpr launched, ran⟩

end Coverage

section Slots
variable {α : Type*} [AddCommMonoid α] {table : LaunchTable} {nThreadPerBlock powerResLength : Nat}
    {value : Nat → Nat → α}

theorem resultSlot_injective (small : threadIdx < powerResLength) (small' : threadIdx' < powerResLength)
    (same : resultSlot powerResLength g threadIdx = resultSlot powerResLength g' threadIdx') : g = g' ∧
    threadIdx = threadIdx' := by
  have positive : 0 < powerResLength := by omega
  have quotient : ∀ g threadIdx, threadIdx < powerResLength →
    resultSlot powerResLength g threadIdx / powerResLength = g := by
    intro g threadIdx small
    rw [resultSlot,Nat.mul_comm,Nat.mul_add_div positive,Nat.div_eq_of_lt small,Nat.add_zero]
  have gate : g = g' := by rw [← quotient g threadIdx small,same,quotient g' threadIdx' small']
  subst gate
  exact ⟨rfl, Nat.add_left_cancel same⟩

/-- What a launched thread adds to the sum of a gate. -/
def gateShare (table : LaunchTable) (nThreadPerBlock : Nat) (value : Nat → Nat → α) (g : Nat) (launch : Nat × Nat) :
    α :=
  match threadOfLaunch table nThreadPerBlock launch.1 launch.2 with
  | none => 0
  | some (gateIdx, thread) => if gateIdx = g then value gateIdx thread else 0

theorem kernel2_runLaunch (slots : Nat → α) (small : launch.2 < powerResLength) (g : Nat) :
    kernel2MergeAllPowerResult powerResLength (runLaunch table nThreadPerBlock powerResLength value slots launch) g =
      kernel2MergeAllPowerResult powerResLength slots g + gateShare table nThreadPerBlock value g launch := by
  have sums : ∀ slots : Nat → α, kernel2MergeAllPowerResult powerResLength slots g =
      ∑ tIdx ∈ Finset.range powerResLength, slots (resultSlot powerResLength g tIdx) := fun _ => rfl
  unfold runLaunch gateShare
  cases threadOfLaunch table nThreadPerBlock launch.1 launch.2 with
  | none => rw [add_zero]
  | some thread =>
    obtain ⟨gateIdx, thread⟩ := thread
    dsimp only
    rw [sums,sums]
    by_cases here : gateIdx = g
    · subst here
      have each : ∀ tIdx ∈ Finset.range powerResLength,
          Function.update slots (resultSlot powerResLength gateIdx launch.2)
            (slots (resultSlot powerResLength gateIdx launch.2) + value gateIdx thread)
              (resultSlot powerResLength gateIdx tIdx) =
          slots (resultSlot powerResLength gateIdx tIdx) + if tIdx = launch.2 then value gateIdx thread else 0 := by
        intro tIdx mem
        by_cases same : tIdx = launch.2
        · rw [same,Function.update_self,if_pos rfl]
        · rw [Function.update_of_ne fun meet => same (resultSlot_injective (Finset.mem_range.mp mem) small meet).2,
            if_neg same,
            add_zero]
      rw [Finset.sum_congr rfl each,Finset.sum_add_distrib,Finset.sum_ite_eq',
        if_pos (Finset.mem_range.mpr small),if_pos rfl]
    · rw [if_neg here,add_zero]
      refine Finset.sum_congr rfl fun tIdx mem => Function.update_of_ne (fun meet => here ?_) _ _
      exact (resultSlot_injective (Finset.mem_range.mp mem) small meet).1.symm

theorem kernel2_launches (slots : Nat → α) (order : List (Nat × Nat))
    (small : ∀ launch ∈ order, launch.2 < powerResLength) (g : Nat) :
    kernel2MergeAllPowerResult powerResLength
    (order.foldl (runLaunch table nThreadPerBlock powerResLength value) slots) g =
      kernel2MergeAllPowerResult powerResLength slots g +
        (order.map (gateShare table nThreadPerBlock value g)).sum := by
  induction order generalizing slots with
  | nil => rw [List.foldl_nil,List.map_nil,List.sum_nil,add_zero]
  | cons launch rest ih =>
    rw [List.foldl_cons,ih _ fun other mem => small other (List.mem_cons_of_mem _ mem),
      kernel2_runLaunch slots (small launch (List.mem_cons_self ..)),List.map_cons,List.sum_cons,add_assoc]

theorem sum_gateShare (order : List (Nat × Nat)) (g : Nat) : (order.map (gateShare table nThreadPerBlock value g)).sum =
    ((order.filterMap fun launch => threadOfLaunch table nThreadPerBlock launch.1 launch.2).map fun thread =>
      if thread.1 = g then value thread.1 thread.2 else 0).sum := by
  induction order with
  | nil => rfl
  | cons launch rest ih =>
    rw [List.map_cons,List.sum_cons,ih,gateShare]
    cases ran : threadOfLaunch table nThreadPerBlock launch.1 launch.2 with
    | none => rw [List.filterMap_cons_none (by exact ran),zero_add]
    | some thread => rw [List.filterMap_cons_some (by exact ran),List.map_cons,List.sum_cons]

theorem sum_gateThreads (inside : g < threadCounts.length) :
    ((gateThreads threadCounts).map fun thread => if thread.1 = g then value thread.1 thread.2 else 0).sum =
      ((List.range (threadCounts.getD g 0)).map (value g)).sum := by
  have each : ∀ other, (((List.range (threadCounts.getD other 0)).map fun t => (other, t)).map
      fun thread => if thread.1 = g then value thread.1 thread.2 else 0).sum =
        if other = g then ((List.range (threadCounts.getD other 0)).map (value other)).sum else 0 := by
    intro other
    rw [List.map_map]
    by_cases here : other = g
    · simp [here,Function.comp_def]
    · simp [here,Function.comp_def]
  have total : ((gateThreads threadCounts).map fun thread => if thread.1 = g then value thread.1 thread.2 else 0).sum =
      ∑ other ∈ Finset.range threadCounts.length,
        if other = g then ((List.range (threadCounts.getD other 0)).map (value other)).sum else 0 := by
    rw [gateThreads,List.map_flatMap,List.flatMap,List.sum_flatten,List.map_map]
    exact congrArg List.sum (List.map_congr_left fun other _ => each other)
  rw [total,Finset.sum_ite_eq',if_pos (Finset.mem_range.mpr inside)]

/-- In whatever order the threads add to the slots, a gate gets the sum over its threads. -/
theorem kernel2_order (positive : 0 < nThreadPerBlock) (order : List (Nat × Nat))
    (perm : order.Perm (launches (nBlock nThreadPerBlock threadCounts) nThreadPerBlock))
    (inside : g < threadCounts.length) :
    kernel2MergeAllPowerResult nThreadPerBlock (order.foldl
      (runLaunch (launchTable nThreadPerBlock threadCounts uninitialized) nThreadPerBlock nThreadPerBlock value)
        fun _ => 0) g =
        ((List.range (threadCounts.getD g 0)).map (value g)).sum := by
  have small : ∀ launch ∈ order, launch.2 < nThreadPerBlock :=
    fun launch mem => (mem_launches.mp (perm.mem_iff.mp mem)).2
  have empty : kernel2MergeAllPowerResult nThreadPerBlock (fun _ => (0 : α)) g = 0 := by
    simp [kernel2MergeAllPowerResult]
  rw [kernel2_launches _ order small,empty,zero_add,(perm.map _).sum_eq,sum_gateShare]
  exact (((ran_perm positive).map _).sum_eq).trans (sum_gateThreads inside)

end Slots

section Coverage
variable (α : Type*) [AddCommMonoid α]

/-- A launch over both bases: the launched threads that pass the guard are the threads of the gates, each once; each
block belongs to one gate, which the table names; slots of different gates do not meet; and in whatever order the
threads add to the slots, the second kernel finds the sum over the threads of a gate. -/
theorem scheduling_covers (positive : 0 < nThreadPerBlock) (eventThreadCounts cycleThreadCounts : List Nat)
    (uninitialized : Nat → Nat) (basis : PartitionBasis) :
    let threadCounts := match basis with
      | .event => eventThreadCounts
      | .cycle => cycleThreadCounts
    let table := scheduleKernelForEventAndCycleBasedPartition nThreadPerBlock eventThreadCounts cycleThreadCounts
      uninitialized basis
    (∀ block threadIdx g t, block < table.nBlock → threadIdx < nThreadPerBlock →
      threadOfLaunch table nThreadPerBlock block threadIdx = some (g, t) → g < threadCounts.length ∧
        t < threadCounts.getD g 0) ∧
    (∀ g t, g < threadCounts.length → t < threadCounts.getD g 0 →
      ∃! launch : Nat × Nat, (launch.1 < table.nBlock ∧ launch.2 < nThreadPerBlock) ∧
        threadOfLaunch table nThreadPerBlock launch.1 launch.2 = some (g, t)) ∧
    (∀ block, block < table.nBlock → ∃! g, g < threadCounts.length ∧ (table.gateRange g).startBlock ≤ block ∧
      block < (table.gateRange g).endBlock ∧ table.blockCorrGateIdxes block = g) ∧
    (∀ g g' threadIdx threadIdx', threadIdx < nThreadPerBlock → threadIdx' < nThreadPerBlock → g ≠ g' →
      resultSlot nThreadPerBlock g threadIdx ≠ resultSlot nThreadPerBlock g' threadIdx') ∧
    ∀ (value : Nat → Nat → α) (order : List (Nat × Nat)), order.Perm (launches table.nBlock nThreadPerBlock) →
      ∀ g, g < threadCounts.length → kernel2MergeAllPowerResult nThreadPerBlock
        (order.foldl (runLaunch table nThreadPerBlock nThreadPerBlock value) fun _ => 0) g =
          ((List.range (threadCounts.getD g 0)).map (value g)).sum := by
  intro threadCounts table
  have tabled : table = launchTable nThreadPerBlock threadCounts uninitialized := by
    cases basis <;> rfl
  rw [tabled]
  refine ⟨fun block threadIdx g t launched _ ran => ?_, fun g t inside valid =>
    existsUnique_launch positive inside valid,
    fun block launched => ?_, fun g g' threadIdx threadIdx' small small' differ same =>
      differ (resultSlot_injective small small' same).1, fun value order perm g inside => ?_⟩
  · obtain ⟨inside, valid, -⟩ := threadOfLaunch_valid launched ran
    exact ⟨inside, valid⟩
  · obtain ⟨g, ⟨inside, low, high⟩, unique⟩ := existsUnique_gate launched
    exact ⟨g, ⟨inside, low, high, blockCorrGateIdxes_eq uninitialized inside low high⟩,
      fun other ⟨inside, low, high, _⟩ => unique other ⟨inside, low, high⟩⟩
  · exact kernel2_order positive order perm inside

/-- Three gates with three, no and five threads in blocks of two: five blocks. -/
theorem scheduling_covers_threeGates :
    (scheduleKernelForEventAndCycleBasedPartition 2 [3, 0, 5] [] (fun _ => 0) .event).nBlock = 5 ∧
    kernel2MergeAllPowerResult 2 ((launches 5 2).foldl (runLaunch
      (scheduleKernelForEventAndCycleBasedPartition 2 [3, 0, 5] [] (fun _ => 0) .event) 2 2 fun g t =>
        10 * g + t) fun _ => 0) 2 =
        ((List.range 5).map fun t => 10 * 2 + t).sum := by
  obtain ⟨-, -, -, -, merged⟩ := scheduling_covers Nat (by decide : 0 < 2) [3, 0, 5] [] (fun _ => 0) .event
  exact ⟨by decide, merged (fun g t => 10 * g + t) _ (List.Perm.refl _) 2 (by decide)⟩

end Coverage
end GTPower
