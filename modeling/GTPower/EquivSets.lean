import GTPower.EquivCells
import Mathlib.Data.List.Perm.Subperm
import Mathlib.Tactic.Ring

/-! When the sets of equivalent cells are those of the comparison: two cells that compare equal must have one hash. -/
namespace GTPower.EquivCells

section Comparison

theorem LibertyPort.equiv_iff (port1 port2 : Option LibertyPort) : LibertyPort.equiv port1 port2 = true ↔
    port1 = port2 := by
  rcases port1 with _ | ⟨name1, direction1⟩ <;> rcases port2 with _ | ⟨name2, direction2⟩ <;> simp [LibertyPort.equiv]

theorem equivExpr_iff (expr1 expr2 : FuncExpr LibertyPort) : equivExpr expr1 expr2 = true ↔ expr1 = expr2 := by
  induction expr1 generalizing expr2 with
  | port port1 => cases expr2 <;> simp [equivExpr,LibertyPort.equiv_iff]
  | not left1 ih => cases expr2 <;> simp [equivExpr,ih]
  | or left1 right1 ihl ihr => cases expr2 <;> simp [equivExpr,ihl,ihr]
  | and left1 right1 ihl ihr => cases expr2 <;> simp [equivExpr,ihl,ihr]
  | xor left1 right1 ihl ihr => cases expr2 <;> simp [equivExpr,ihl,ihr]
  | one => cases expr2 <;> simp [equivExpr]
  | zero => cases expr2 <;> simp [equivExpr]

theorem FuncExpr.equiv_iff (expr1 expr2 : FuncPtr) : FuncExpr.equiv expr1 expr2 = true ↔ expr1 = expr2 := by
  cases expr1 <;> cases expr2 <;> simp [FuncExpr.equiv,equivExpr_iff]

theorem equivSeq_iff {α β : Type*} {equiv : α → α → Bool} {f : α → β} (same : ∀ a b, equiv a b = true ↔ f a = f b)
    (seq1 seq2 : List α) : equivSeq equiv seq1 seq2 = true ↔ seq1.map f = seq2.map f := by
  induction seq1 generalizing seq2 with
  | nil => cases seq2 <;> simp [equivSeq]
  | cons a rest1 ih =>
    cases seq2 with
    | nil => simp [equivSeq]
    | cons b rest2 => simp [equivSeq,same,ih]

theorem equivSeq_eq_iff {α : Type*} {equiv : α → α → Bool} (same : ∀ a b, equiv a b = true ↔ a = b)
    (seq1 seq2 : List α) :
    equivSeq equiv seq1 seq2 = true ↔ seq1 = seq2 := by
  have eq := equivSeq_iff (f := id) same seq1 seq2
  rwa [List.map_id,List.map_id] at eq

def Sequential.compared (seq : Sequential) :
    FuncPtr × FuncPtr × Option LibertyPort × Option LibertyPort × FuncPtr × FuncPtr :=
  (seq.clock, seq.data, seq.output, seq.outputInv, seq.clear, seq.preset)

theorem equivCellSequentials_iff (cell1 cell2 : LibertyCell) : equivCellSequentials cell1 cell2 = true ↔
    cell1.sequentials.map Sequential.compared = cell2.sequentials.map Sequential.compared := by
  apply equivSeq_iff
  intro seq1 seq2
  simp only [equivSequential,Bool.and_eq_true,FuncExpr.equiv_iff,LibertyPort.equiv_iff,Sequential.compared,
    Prod.mk.injEq,and_assoc]

theorem equivStatetableRow_iff (row1 row2 : StatetableRow) : equivStatetableRow row1 row2 = true ↔ row1 = row2 := by
  have eqs {α : Type} [DecidableEq α] (a b : α) : (a == b) = true ↔ a = b := beq_iff_eq
  cases row1
  cases row2
  simp only [equivStatetableRow,Bool.and_eq_true,equivSeq_eq_iff (eqs),StatetableRow.mk.injEq,and_assoc]

theorem equivCellStatetables_iff (cell1 cell2 : LibertyCell) :
    equivCellStatetables cell1 cell2 = true ↔ cell1.statetable = cell2.statetable := by
  have ports (port1 port2 : LibertyPort) : LibertyPort.equiv (some port1) (some port2) = true ↔ port1 = port2 := by
    rw [LibertyPort.equiv_iff,Option.some.injEq]
  unfold equivCellStatetables
  rcases cell1.statetable with _ | ⟨inputs1, internals1, table1⟩
  · cases cell2.statetable <;> simp
  rcases cell2.statetable with _ | ⟨inputs2, internals2, table2⟩
  · simp
  simp only [equivCellPortSeq,equivStatetableRows,Bool.and_eq_true,equivSeq_eq_iff ports,
    equivSeq_eq_iff equivStatetableRow_iff,
    Option.some.injEq,Statetable.mk.injEq,and_assoc]

theorem perm_of_subset {α : Type*} {l₁ l₂ : List α} (nodup : l₁.Nodup) (sub : l₁ ⊆ l₂)
    (length : l₁.length = l₂.length) : l₁.Perm l₂ :=
  (List.subperm_of_subset nodup sub).perm_of_length_le length.ge

theorem equivCellPgPorts_perm {cell1 cell2 : LibertyCell} (equiv : equivCellPgPorts cell1 cell2 = true) :
    cell1.pgPorts.Perm cell2.pgPorts := by
  obtain ⟨length, all⟩ := Bool.and_eq_true_iff.1 equiv
  apply perm_of_subset cell1.pgNames.of_map _ (beq_iff_eq.1 length)
  intro port1 mem
  have found := List.all_eq_true.1 all port1 mem
  cases here : cell2.findPgPort port1.name with
  | none => simp [here] at found
  | some port2 =>
    have eq : port1 = port2 := by
      cases port1
      cases port2
      simpa [here,LibertyPgPort.equiv] using found
    exact eq ▸ List.mem_of_find?_eq_some here

end Comparison

section Hashes

/-- What a sequential adds to the hash that is not compared. -/
def hashUncompared (seq : Sequential) : BitVec 32 :=
  BitVec.ofNat 32 seq.isRegister.toNat * 3 + BitVec.ofNat 32 seq.clearPresetOutput.index * 19
    + BitVec.ofNat 32 seq.clearPresetOutputInv.index * 23

def hashCompared : FuncPtr × FuncPtr × Option LibertyPort × Option LibertyPort × FuncPtr × FuncPtr → BitVec 32
  | (clock, data, output, outputInv, clear, preset) =>
    hashFuncExpr clock * 5 + hashFuncExpr data * 7 + output.elim 0 hashPort * 9 + outputInv.elim 0 hashPort * 11
      + hashFuncExpr clear * 13 + hashFuncExpr preset * 17

def HasOutputs (cell : LibertyCell) : Prop := ∀ seq ∈ cell.sequentials, seq.output.isSome ∧ seq.outputInv.isSome

theorem hashSequential_eq {seq : Sequential} (outputs : seq.output.isSome ∧ seq.outputInv.isSome) :
    hashSequential seq = some (hashCompared seq.compared + hashUncompared seq) := by
  obtain ⟨output, hasOutput⟩ := Option.isSome_iff_exists.1 outputs.1
  obtain ⟨outputInv, hasOutputInv⟩ := Option.isSome_iff_exists.1 outputs.2
  simp only [hashSequential,hasOutput,hasOutputInv,hashCompared,Sequential.compared,hashUncompared,Option.elim_some,
    Option.some.injEq]
  ring

theorem hashSequential_isSome (seq : Sequential) : (hashSequential seq).isSome ↔ seq.output.isSome ∧
    seq.outputInv.isSome := by
  constructor
  · intro defined
    unfold hashSequential at defined
    cases hasOutput : seq.output with
    | none => simp [hasOutput] at defined
    | some output =>
      cases hasOutputInv : seq.outputInv with
      | none => simp [hasOutput,hasOutputInv] at defined
      | some outputInv => exact ⟨rfl, rfl⟩
  · intro outputs
    rw [hashSequential_eq outputs]
    rfl

theorem mapM_eq_map {α β : Type*} {f : α → Option β} {g : α → β} {l : List α} (eq : ∀ a ∈ l, f a = some (g a)) :
    l.mapM f = some (l.map g) := by
  induction l with
  | nil => rfl
  | cons a rest ih =>
    obtain ⟨first, others⟩ := List.forall_mem_cons.1 eq
    rw [List.mapM_cons,first,ih others]
    rfl

theorem isSome_of_mapM {α β : Type*} {f : α → Option β} {l : List α} (defined : (l.mapM f).isSome) :
    ∀ a ∈ l, (f a).isSome := by
  induction l with
  | nil => exact fun _ mem => absurd mem List.not_mem_nil
  | cons a rest ih =>
    rw [List.mapM_cons] at defined
    cases first : f a with
    | none => simp [first] at defined
    | some b =>
      cases others : rest.mapM f with
      | none => simp [others] at defined
      | some bs =>
        exact List.forall_mem_cons.2 ⟨by rw [first]; rfl, ih (by rw [others]; rfl)⟩

def hashComparedSequentials (cell : LibertyCell) : BitVec 32 :=
  ((cell.sequentials.map Sequential.compared).map hashCompared).sum + cell.statetable.elim 0 hashStatetable

def hashUncomparedSequentials (cell : LibertyCell) : BitVec 32 := (cell.sequentials.map hashUncompared).sum

theorem hashCell_eq {cell : LibertyCell} (outputs : HasOutputs cell) : hashCell cell =
    some (hashCellPorts cell + hashCellPgPorts cell +
    (hashComparedSequentials cell + hashUncomparedSequentials cell)) := by
  have hashes := mapM_eq_map (f := hashSequential) fun seq mem => hashSequential_eq (outputs seq mem)
  have split : (cell.sequentials.map fun seq => hashCompared seq.compared + hashUncompared seq).sum =
      ((cell.sequentials.map Sequential.compared).map hashCompared).sum + hashUncomparedSequentials cell := by
    rw [List.map_map]
    exact List.sum_map_add
  simp only [hashCell,hashCellSequentials,hashes,Option.map_some,split,hashComparedSequentials,Option.some.injEq]
  cases cell.statetable with
  | none => simp
  | some statetable => simp only [Option.elim_some]; ring

theorem hashCell_isSome (cell : LibertyCell) : (hashCell cell).isSome ↔ HasOutputs cell := by
  constructor
  · intro defined seq mem
    apply (hashSequential_isSome seq).1
    refine isSome_of_mapM ?_ seq mem
    simpa [hashCell,hashCellSequentials] using defined
  · intro outputs
    rw [hashCell_eq outputs]
    rfl

theorem equivCells_parts {cell1 cell2 : LibertyCell} (equiv : equivCells cell1 cell2 = true) :
    cell1.pgPorts.Perm cell2.pgPorts ∧
      cell1.sequentials.map Sequential.compared = cell2.sequentials.map Sequential.compared ∧
        cell1.statetable = cell2.statetable := by
  simp only [equivCells,Bool.and_eq_true] at equiv
  obtain ⟨⟨⟨⟨-, pgPorts⟩, sequentials⟩, statetables⟩, -⟩ := equiv
  exact ⟨equivCellPgPorts_perm pgPorts, (equivCellSequentials_iff _ _).1 sequentials,
    (equivCellStatetables_iff _ _).1 statetables⟩

/-- Cells that compare equal differ in hash by their ports and by what is not compared. -/
theorem hashCell_eq_iff {cell1 cell2 : LibertyCell} (equiv : equivCells cell1 cell2 = true)
    (outputs1 : HasOutputs cell1) (outputs2 : HasOutputs cell2) : hashCell cell1 = hashCell cell2 ↔
      hashCellPorts cell1 + hashUncomparedSequentials cell1 = hashCellPorts cell2 +
        hashUncomparedSequentials cell2 := by
  obtain ⟨pgPorts, sequentials, statetables⟩ := equivCells_parts equiv
  have pg : hashCellPgPorts cell1 = hashCellPgPorts cell2 := (pgPorts.map hashPgPort).sum_eq
  have compared : hashComparedSequentials cell1 = hashComparedSequentials cell2 := by
    unfold hashComparedSequentials
    rw [sequentials,statetables]
  have regroup (a b c d : BitVec 32) : a + b + (c + d) = a + d + (b + c) := by ring
  rw [hashCell_eq outputs1,hashCell_eq outputs2,Option.some.injEq,pg,compared,regroup,regroup (hashCellPorts cell2)]
  exact add_left_inj _

end Hashes

section Sets
variable {C : Type*} [DecidableEq C] (cellOf : C → LibertyCell)

def usedCells (cells : List C) : List C := cells.filter fun cell => !(cellOf cell).dontUse

/-- In any order of the libraries and their cells, two cells are in one set exactly when they compare equal. -/
def SetsOfEquivs (equivLibs : List (List C)) : Prop :=
  ∀ order : List (List C), order.flatten.Perm equivLibs.flatten → ∃ s, equivCellSets cellOf order = some s ∧
    ∀ a ∈ usedCells cellOf equivLibs.flatten, ∀ b ∈ usedCells cellOf equivLibs.flatten, a ≠ b →
      (b ∈ s.group a ↔ equivCells (cellOf a) (cellOf b) = true)

/-- The comparison is one of equality, sequentials have both outputs, and cells that compare equal agree in the part of
the hash that the comparison leaves open. -/
structure Comparable (cells : List C) : Prop where
  outputs : ∀ a ∈ cells, HasOutputs (cellOf a)
  symm : ∀ a ∈ cells, ∀ b ∈ cells, a ≠ b → equivCells (cellOf a) (cellOf b) = true →
    equivCells (cellOf b) (cellOf a) = true
  trans : ∀ a ∈ cells, ∀ b ∈ cells, ∀ c ∈ cells, a ≠ b → b ≠ c → a ≠ c → equivCells (cellOf a) (cellOf b) = true →
    equivCells (cellOf b) (cellOf c) = true → equivCells (cellOf a) (cellOf c) = true
  hashes : ∀ a ∈ cells, ∀ b ∈ cells, a ≠ b → equivCells (cellOf a) (cellOf b) = true →
    hashCellPorts (cellOf a) + hashUncomparedSequentials (cellOf a) = hashCellPorts (cellOf b) +
      hashUncomparedSequentials (cellOf b)

def hashOf (cell : C) : BitVec 32 := (hashCell (cellOf cell)).getD 0

variable {cellOf}

theorem foldlM_flatten {α β : Type*} (f : β → α → Option β) (ls : List (List α)) (b : β) :
    ls.foldlM (fun b l => l.foldlM f b) b = ls.flatten.foldlM f b := by
  induction ls generalizing b with
  | nil => rfl
  | cons l rest ih =>
    rw [List.foldlM_cons,List.flatten_cons,List.foldlM_append]
    simp only [ih]

theorem foldlM_findEquivCell {cells : List C} (outputs : ∀ a ∈ usedCells cellOf cells, HasOutputs (cellOf a))
    (s : HashGroups C (BitVec 32)) :
    cells.foldlM (findEquivCell cellOf) s = some ((usedCells cellOf cells).foldl
      (fun s cell => s.add (fun a b => equivCells (cellOf a) (cellOf b)) (hashOf cellOf cell) cell) s) := by
  induction cells generalizing s with
  | nil => rfl
  | cons cell rest ih =>
    rw [List.foldlM_cons]
    unfold findEquivCell
    by_cases unused : (cellOf cell).dontUse = true
    · have same : usedCells cellOf (cell :: rest) = usedCells cellOf rest := List.filter_cons_of_neg (by simp [unused])
      rw [same] at outputs ⊢
      rw [if_pos unused]
      exact ih outputs s
    · have first : usedCells cellOf (cell :: rest) = cell :: usedCells cellOf rest :=
        List.filter_cons_of_pos (by simp [unused])
      rw [first] at outputs ⊢
      obtain ⟨here, others⟩ := List.forall_mem_cons.1 outputs
      have hash : hashCell (cellOf cell) = some (hashOf cellOf cell) := by
        unfold hashOf
        rw [hashCell_eq here]
        rfl
      rw [if_neg unused,hash]
      exact ih others _

theorem outputs_of_foldlM {cells : List C} {s s' : HashGroups C (BitVec 32)}
    (run : cells.foldlM (findEquivCell cellOf) s = some s') :
    ∀ a ∈ usedCells cellOf cells, HasOutputs (cellOf a) := by
  induction cells generalizing s with
  | nil => exact fun _ mem => absurd mem List.not_mem_nil
  | cons cell rest ih =>
    rw [List.foldlM_cons] at run
    obtain ⟨s₁, first, others⟩ := Option.bind_eq_some_iff.1 run
    intro a mem
    obtain ⟨mem, used⟩ := List.mem_filter.1 mem
    rcases List.mem_cons.1 mem with rfl | mem
    · unfold findEquivCell at first
      rw [if_neg (by simpa using used)] at first
      obtain ⟨hash, defined, -⟩ := Option.map_eq_some_iff.1 first
      apply (hashCell_isSome _).1
      rw [defined]
      rfl
    · exact ih others a (List.mem_filter.2 ⟨mem, used⟩)

omit [DecidableEq C] in
theorem hashOf_eq_iff {a b : C} (equiv : equivCells (cellOf a) (cellOf b) = true) (outputsA : HasOutputs (cellOf a))
    (outputsB : HasOutputs (cellOf b)) : hashOf cellOf a = hashOf cellOf b ↔
    hashCellPorts (cellOf a) + hashUncomparedSequentials (cellOf a) =
      hashCellPorts (cellOf b) + hashUncomparedSequentials (cellOf b) := by
  rw [← hashCell_eq_iff equiv outputsA outputsB]
  unfold hashOf
  rw [hashCell_eq outputsA,hashCell_eq outputsB,Option.getD_some,Option.getD_some,Option.some.injEq]

omit [DecidableEq C] in
theorem respected_iff {cells : List C} (outputs : ∀ a ∈ cells, HasOutputs (cellOf a)) :
    HashGroups.Respected (fun a b => equivCells (cellOf a) (cellOf b)) (hashOf cellOf) cells ↔
    Comparable cellOf cells := by
  constructor
  · intro respected
    refine ⟨outputs, respected.symm, respected.trans, fun a memA b memB differ equiv => ?_⟩
    exact (hashOf_eq_iff equiv (outputs a memA) (outputs b memB)).1 (respected.hash_eq a memA b memB differ equiv)
  · intro comparable
    refine ⟨comparable.symm, comparable.trans, fun a memA b memB differ equiv => ?_⟩
    exact (hashOf_eq_iff equiv (outputs a memA) (outputs b memB)).2 (comparable.hashes a memA b memB differ equiv)

omit [DecidableEq C] in
theorem Comparable.perm {cells cells' : List C} (comparable : Comparable cellOf cells) (perm : cells'.Perm cells) :
    Comparable cellOf cells' where
  outputs a mem := comparable.outputs a (perm.mem_iff.1 mem)
  symm a memA b memB := comparable.symm a (perm.mem_iff.1 memA) b (perm.mem_iff.1 memB)
  trans a memA b memB c memC := comparable.trans a (perm.mem_iff.1 memA) b (perm.mem_iff.1 memB) c (perm.mem_iff.1 memC)
  hashes a memA b memB := comparable.hashes a (perm.mem_iff.1 memA) b (perm.mem_iff.1 memB)

/-- The sets are those of the comparison exactly when the cells are comparable. -/
theorem setsOfEquivs_iff (cellOf : C → LibertyCell) (equivLibs : List (List C)) (distinct : equivLibs.flatten.Nodup) :
    SetsOfEquivs cellOf equivLibs ↔ Comparable cellOf (usedCells cellOf equivLibs.flatten) := by
  have runs (order : List (List C)) : equivCellSets cellOf order = order.flatten.foldlM (findEquivCell cellOf) .empty :=
    foldlM_flatten (findEquivCell cellOf) order .empty
  have groups {cells : List C} (nodup : (usedCells cellOf cells).Nodup) :
      HashGroups.Grouped (hashOf cellOf) (usedCells cellOf cells)
        (HashGroups.ofList (fun a b => equivCells (cellOf a) (cellOf b)) (hashOf cellOf) (usedCells cellOf cells)) :=
    HashGroups.grouped_ofList _ nodup
  constructor
  · intro sets
    obtain ⟨s, run, same⟩ := sets equivLibs (.refl _)
    rw [runs] at run
    have outputs := outputs_of_foldlM run
    have nodup : (usedCells cellOf equivLibs.flatten).Nodup := distinct.filter _
    rw [foldlM_findEquivCell outputs,Option.some.injEq] at run
    apply (respected_iff outputs).1
    apply (HashGroups.divides_iff nodup).1
    intro a memA b memB differ
    rw [← (groups nodup).mem_group]
    have here := same a memA b memB differ
    rwa [← run] at here
  · intro comparable order perm
    have used : (usedCells cellOf order.flatten).Perm (usedCells cellOf equivLibs.flatten) := perm.filter _
    have comparable' := comparable.perm used
    have nodup : (usedCells cellOf order.flatten).Nodup := (perm.nodup_iff.2 distinct).filter _
    refine ⟨_, (runs order).trans (foldlM_findEquivCell comparable'.outputs _), fun a memA b memB differ => ?_⟩
    have divides := (HashGroups.divides_iff nodup).2 ((respected_iff comparable'.outputs).2 comparable')
    exact ((groups nodup).mem_group a b).trans (divides a (used.mem_iff.2 memA) b (used.mem_iff.2 memB) differ)

end Sets

/-- A register with clear and preset, whose output takes the value when both are active. -/
def clearPresetFlop (value : LogicValue) : LibertyCell where
  ports := [⟨⟨"D", .input⟩, none, none⟩, ⟨⟨"CK", .input⟩, none, none⟩,
    ⟨⟨"Q", .output⟩, some (.port ⟨"IQ", .internal⟩), none⟩]
  findLibertyPort name := [⟨⟨"D", .input⟩, none, none⟩, ⟨⟨"CK", .input⟩, none, none⟩,
    (⟨⟨"Q", .output⟩, some (.port ⟨"IQ", .internal⟩), none⟩ : CellPort)].find? (·.name == name)
  pgPorts := []
  pgNames := List.nodup_nil
  sequentials := [⟨true, some (.port ⟨"CK", .input⟩), some (.port ⟨"D", .input⟩), some (.port ⟨"C", .input⟩),
    some (.port ⟨"P", .input⟩), value,
    .one, some ⟨"IQ", .internal⟩, some ⟨"IQN", .internal⟩⟩]
  statetable := none
  timingArcSets := []
  arcSetsNodup := List.nodup_nil
  dontUse := false

/-- Two registers that differ in that value. -/
def clearPresetFlops (high : Bool) : LibertyCell := clearPresetFlop (if high then .one else .zero)

theorem setsOfEquivs_iff_flops : [[false, true]].flatten.Nodup ∧
    (SetsOfEquivs clearPresetFlops [[false, true]] ↔
    Comparable clearPresetFlops (usedCells clearPresetFlops [[false, true]].flatten)) :=
  ⟨by decide, setsOfEquivs_iff clearPresetFlops [[false, true]] (by decide)⟩

/-- They compare equal, and differ in hash. -/
theorem flops_apart : [[false, true]].flatten.Nodup ∧ ¬SetsOfEquivs clearPresetFlops [[false, true]] := by
  refine ⟨by decide, fun sets => ?_⟩
  obtain ⟨s, run, same⟩ := sets _ (.refl _)
  have alone : (equivCellSets clearPresetFlops [[false, true]]).map (fun s => s.group false) = some [] := by
    decide +kernel
  have equiv : equivCells (clearPresetFlops false) (clearPresetFlops true) = true := by decide +kernel
  have used : ∀ cell : Bool, cell ∈ usedCells clearPresetFlops [[false, true]].flatten := by decide +kernel
  have mem := (same false (used false) true (used true) Bool.false_ne_true).2 equiv
  rw [run,Option.map_some,Option.some.injEq] at alone
  rw [alone] at mem
  exact absurd mem List.not_mem_nil

end GTPower.EquivCells
