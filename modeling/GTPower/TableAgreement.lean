import GTPower.LibertyTables

/-! When the lookup tables of the device give what the Liberty tables they are made from give, for all slews and
loads. -/
namespace GTPower
open Interpolation

section Segments
variable {axis : Nat → ℚ} {size : Nat} {value : ℚ}

theorem inSegment_findSegment (increasing : Increasing axis dim) (several : 2 ≤ dim) (value : ℚ) :
    InSegment axis dim (findSegment axis dim value).1 value ∧
    (findSegment axis dim value).2 = (findSegment axis dim value).1 + 1 := by
  rw [findSegment]
  by_cases below : value ≤ axis 0
  · rw [if_pos below]
    exact ⟨⟨several, Or.inl rfl, Or.inr (below.trans (increasing.le (Nat.zero_le 1) several))⟩, rfl⟩
  rw [if_neg below]
  by_cases above : axis (dim - 1) ≤ value
  · rw [if_pos above]
    refine ⟨⟨by omega, Or.inr ((increasing.le (by omega) (by omega)).trans above), Or.inl (by omega)⟩, by omega⟩
  rw [if_neg above]
  cases found : (List.range' 1 (dim - 1)).find? fun i => value ≤ axis i with
  | none =>
    have last := List.find?_eq_none.mp found (dim - 1) (by simp; omega)
    simp only [decide_eq_true_eq] at last
    exact absurd (le_of_lt (not_le.mp above)) last
  | some i =>
    obtain ⟨reached, mem, earlier⟩ := List.find?_range'_eq_some.mp found
    simp only [decide_eq_true_eq,List.mem_range'_1,Bool.not_eq_true',decide_eq_false_iff_not,
      not_le] at reached mem earlier
    have low : axis (i - 1) ≤ value := by
      rcases Nat.eq_or_lt_of_le mem.1 with rfl | more
      · exact le_of_lt (not_le.mp below)
      · exact le_of_lt (earlier (i - 1) (by omega) (by omega))
    have next : i - 1 + 1 = i := by omega
    exact ⟨⟨by simp only; omega, Or.inr low, Or.inr (by simpa only [next] using reached)⟩, next.symm⟩

theorem bisect_spec (size : Nat) (value : ℚ) (axis : Nat → ℚ) (lower upper : Int) (start : -1 ≤ lower)
    (order : lower < upper) (low : 0 ≤ lower → axis lower.toNat ≤ value)
    (high : upper < size → value < axis upper.toNat) (within : upper ≤ size) :
    -1 ≤ TableAxis.bisect value axis lower upper ∧ TableAxis.bisect value axis lower upper < size ∧
      (0 ≤ TableAxis.bisect value axis lower upper → axis (TableAxis.bisect value axis lower upper).toNat ≤ value) ∧
      (TableAxis.bisect value axis lower upper + 1 < size →
        value < axis (TableAxis.bisect value axis lower upper + 1).toNat) := by
  fun_induction TableAxis.bisect value axis lower upper with
  | case1 lower upper more reached ih => exact ih (by omega) (by omega) (fun _ => reached) high within
  | case2 lower upper more beyond ih => exact ih start (by omega) low (fun _ => not_le.mp beyond) (by omega)
  | case3 lower upper done =>
    obtain rfl : upper = lower + 1 := by omega
    exact ⟨start, by omega, low, high⟩

theorem inSegment_findValueIndex (increasing : Increasing axis size) (several : 2 ≤ size) (value : ℚ) :
    InSegment axis size (TableAxis.findValueIndex value axis size) value := by
  rw [TableAxis.findValueIndex]
  by_cases below : value ≤ axis 0
  · rw [if_pos (Or.inr below)]
    exact ⟨several, Or.inl rfl, Or.inr (below.trans (increasing.le (Nat.zero_le 1) several))⟩
  rw [if_neg (by simp [below]; omega)]
  by_cases above : axis (size - 1) ≤ value
  · rw [if_pos above]
    exact ⟨by omega, Or.inr ((increasing.le (by omega) (by omega)).trans above), Or.inl (by omega)⟩
  rw [if_neg above]
  obtain ⟨start, inside, low, high⟩ :=
    bisect_spec size value axis (-1) size le_rfl (by omega) (by omega) (by omega) le_rfl
  generalize TableAxis.bisect value axis (-1) size = index at *
  have nonneg : 0 ≤ index := by
    by_contra negative
    obtain rfl : index = -1 := by omega
    exact below (le_of_lt (high (by omega)))
  obtain ⟨index, rfl⟩ := Int.eq_ofNat_of_zero_le nonneg
  have next : index + 1 < size := by
    by_contra last
    obtain rfl : index = size - 1 := by omega
    exact above (low nonneg)
  exact ⟨next, Or.inr (low nonneg), Or.inr (le_of_lt (high (by omega)))⟩

end Segments

section LookUp

theorem lookUpValue_eq_interp {axis table : Nat → ℚ} (nonempty : 1 ≤ dim) (increasing : Increasing axis dim)
    (scalarValue x0 : ℚ) :
    OneDimensionalLUT.lookUpValue ⟨false, scalarValue, dim, axis, table⟩ x0 = interp axis table dim x0 := by
  rw [OneDimensionalLUT.lookUpValue]
  simp only [Bool.false_eq_true,if_false]
  by_cases one : dim = 1
  · rw [if_pos one,one,interp_one]
  · obtain ⟨reached, next⟩ := inSegment_findSegment increasing (by omega) x0
    rw [if_neg one,interp_eq_line increasing reached]
    simp only [next,line]

theorem shares {lower upper : ℚ} (apart : lower < upper) (t : ℚ) :
    (upper - t) / (upper - lower) = 1 - (t - lower) / (upper - lower) := by
  have nonzero : upper - lower ≠ 0 := sub_ne_zero.mpr apart.ne'
  field_simp
  ring

theorem lookUpValue_eq_surface {xs ys table : Nat → ℚ} (nonempty : 1 ≤ n) (nonempty' : 1 ≤ m)
    (increasing : Increasing xs n) (increasing' : Increasing ys m) (scalarValue x0 y0 : ℚ) :
    TwoDimensionalLUT.lookUpValue ⟨false, scalarValue, n, m, xs, ys, table⟩ x0 y0 =
    surface xs ys (fun i j => table (i * m + j)) n m x0 y0 := by
  have first := fun several => inSegment_findSegment increasing several x0
  have second := fun several => inSegment_findSegment increasing' several y0
  rw [TwoDimensionalLUT.lookUpValue,surface]
  simp only [Bool.false_eq_true,if_false]
  by_cases one : n = 1 <;> by_cases one' : m = 1
  · simp [one,one']
  · obtain ⟨reached, next⟩ := second (by omega)
    rw [if_neg (by simp [one']),if_pos one,one,interp_one,interp_eq_line increasing' reached]
    simp only [next,line,interpolate,Nat.zero_mul,Nat.zero_add]
  · obtain ⟨reached, next⟩ := first (by omega)
    rw [if_neg (by simp [one]),if_neg one,if_pos one',interp_eq_line increasing reached]
    simp only [next,line,interpolate,one',interp_one,Nat.add_zero]
  · obtain ⟨reached, next⟩ := first (by omega)
    obtain ⟨reached', next'⟩ := second (by omega)
    have apart := increasing _ _ (Nat.lt_succ_self _) reached.inside
    have apart' := increasing' _ _ (Nat.lt_succ_self _) reached'.inside
    rw [if_neg (by simp [one]),if_neg one,if_neg one',interp_eq_line increasing reached]
    simp only [next,next',line,interp_eq_line increasing' reached',shares apart,shares apart']
    ring

def Table.entry (values : List (List ℚ)) (i j : Nat) : ℚ := (values.getD i []).getD j 0

theorem findValue1_eq_interp (values : List ℚ) {axis1 : TableAxis} (several : 2 ≤ axis1.size)
    (increasing : Increasing axis1.axisValue axis1.size) (long : axis1.size ≤ values.length) (t : ℚ) :
    Table.findValue1 values axis1 t = some (interp axis1.axisValue (fun i => values.getD i 0) axis1.size t) := by
  have reached := inSegment_findValueIndex increasing several t
  have inside := reached.inside
  have read : ∀ i < axis1.size, values[i]? = some (values.getD i 0) := fun i less => by
    rw [List.getElem?_eq_getElem (by omega),List.getD_eq_getElem]
  rw [Table.findValue1,if_neg (by omega),interp_eq_line increasing reached,TableAxis.findAxisIndex]
  simp only [read _ inside,read _ (Nat.lt_of_succ_lt inside),Option.bind_eq_bind,Option.bind_some,Option.pure_def,
    Option.some.injEq,
    TableAxis.fraction,line]
  ring

theorem value2_eq_entry {values : List (List ℚ)} (rows : values.length = n) (cols : ∀ row ∈ values, row.length = m)
    (inside : i < n) (inside' : j < m) : Table.value2 values i j = some (Table.entry values i j) := by
  have row : i < values.length := rows ▸ inside
  have column : j < values[i].length := (cols _ (List.getElem_mem row)).symm ▸ inside'
  rw [Table.value2,List.getElem?_eq_getElem row,Option.bind_some,List.getElem?_eq_getElem column,Table.entry,
    List.getD_eq_getElem _ _ row,
    List.getD_eq_getElem _ _ column]

theorem findValue2_eq_surface {values : List (List ℚ)} {axis1 axis2 : TableAxis} (nonempty : 1 ≤ axis1.size)
    (nonempty' : 1 ≤ axis2.size)
    (increasing : Increasing axis1.axisValue axis1.size) (increasing' : Increasing axis2.axisValue axis2.size)
    (rows : values.length = axis1.size) (cols : ∀ row ∈ values, row.length = axis2.size) (s t : ℚ) :
    Table.findValue2 values axis1 axis2 s t =
      some (surface axis1.axisValue axis2.axisValue (Table.entry values) axis1.size axis2.size s t) := by
  have xs := fun several => inSegment_findValueIndex increasing several s
  have ys := fun several => inSegment_findValueIndex increasing' several t
  have read : ∀ i < axis1.size, ∀ j < axis2.size, Table.value2 values i j = some (Table.entry values i j) :=
    fun i less j less' =>
    value2_eq_entry rows cols less less'
  rw [Table.findValue2,surface]
  simp only [TableAxis.findAxisIndex]
  by_cases one : axis1.size = 1 <;> by_cases one' : axis2.size = 1
  · simp [one,one',read 0 nonempty 0 nonempty']
  · have reached := ys (by omega)
    have inside := reached.inside
    rw [if_pos one,if_neg one',one,interp_one,interp_eq_line increasing' reached]
    simp only [read 0 nonempty _ inside,read 0 nonempty _ (Nat.lt_of_succ_lt inside),Option.bind_eq_bind,
      Option.bind_some,
      Option.pure_def,Option.some.injEq,TableAxis.fraction,line]
    ring
  · have reached := xs (by omega)
    have inside := reached.inside
    rw [if_neg one,if_pos one',one',interp_eq_line increasing reached]
    simp only [read _ inside 0 nonempty',read _ (Nat.lt_of_succ_lt inside) 0 nonempty',Option.bind_eq_bind,
      Option.bind_some,
      Option.pure_def,Option.some.injEq,TableAxis.fraction,line,interp_one]
    ring
  · have reached := xs (by omega)
    have inside := reached.inside
    have reached' := ys (by omega)
    have inside' := reached'.inside
    rw [if_neg one,if_neg one',interp_eq_line increasing reached]
    simp only [read _ inside _ inside',read _ (Nat.lt_of_succ_lt inside) _ inside',
      read _ inside _ (Nat.lt_of_succ_lt inside'),
      read _ (Nat.lt_of_succ_lt inside) _ (Nat.lt_of_succ_lt inside'),Option.bind_eq_bind,Option.bind_some,
      Option.pure_def,Option.some.injEq,TableAxis.fraction,line,interp_eq_line increasing' reached']
    ring

end LookUp

section Made

theorem toLookupTableIdx_le (size : Nat) : toLookupTableIdx size ≤ size := by
  rw [toLookupTableIdx]
  omega

/-- The points of an axis that its table on the device keeps. -/
def TableAxis.kept (axis : TableAxis) : Nat := (toLookupTableIdx axis.size).toNat

theorem kept_le (axis : TableAxis) : axis.kept ≤ axis.size := by
  have le := toLookupTableIdx_le axis.size
  rw [TableAxis.kept]
  omega

theorem inputLUT_table1 {values : List ℚ} {axis1 : TableAxis} (made : inputLUT (.table1 values axis1) = some lut) :
    1 ≤ axis1.kept ∧ lut = ⟨false, 0, axis1.kept, axis1.axisValue, fun i => values.getD i 0⟩ := by
  rw [inputLUT,OneDimensionalLUT.make] at made
  simp only [Option.ite_none_left_eq_some,Option.ite_none_right_eq_some,Option.some.injEq] at made
  obtain ⟨positive, -, rfl⟩ := made
  exact ⟨by rw [TableAxis.kept]; omega, rfl⟩

theorem outputLUT_table1 {values : List ℚ} {axis1 : TableAxis} (made : outputLUT (.table1 values axis1) = some lut) :
    axis1.var = .totalOutputNetCapacitance ∧ 1 ≤ axis1.kept ∧
      lut = ⟨false, 0, 1, axis1.kept, fun _ => 0, axis1.axisValue, fun i => values.getD i 0⟩ := by
  rw [outputLUT,TwoDimensionalLUT.makeRow,copyDeviceArrays] at made
  simp only [Option.ite_none_left_eq_some,Option.ite_none_right_eq_some,Option.some.injEq,ne_eq,not_not] at made
  obtain ⟨load, positive, -, rfl⟩ := made
  exact ⟨load, by rw [TableAxis.kept]; omega, rfl⟩

theorem outputLUT_table2 {values : List (List ℚ)} {axis1 axis2 : TableAxis}
    (made : outputLUT (.table2 values axis1 axis2) = some lut)
    (filled : axis1.size ≤ values.length) (filled' : ∀ row ∈ values, axis2.size ≤ row.length) :
    1 ≤ axis1.size ∧ 1 ≤ axis2.size ∧ values.length = axis1.size ∧ (∀ row ∈ values, row.length = axis2.size) ∧
      lut = ⟨false, 0, axis1.size, axis2.size, axis1.axisValue, axis2.axisValue, fun i => values.flatten.getD i 0⟩ := by
  rw [outputLUT,TwoDimensionalLUT.make,copyDeviceArrays] at made
  simp only [Option.ite_none_left_eq_some,Option.ite_none_right_eq_some,Option.some.injEq,ne_eq,not_not,not_or,
    List.any_eq_true,
    decide_eq_true_eq,not_exists,not_and] at made
  obtain ⟨⟨positive, positive'⟩, rows, cols, -, -, rfl⟩ := made
  have le := toLookupTableIdx_le axis1.size
  have le' := toLookupTableIdx_le axis2.size
  have dim1 : toLookupTableIdx axis1.size = axis1.size := by omega
  have dim2 : toLookupTableIdx axis2.size = axis2.size := by
    obtain ⟨row, mem⟩ : ∃ row, row ∈ values := List.exists_mem_of_length_pos (by omega)
    have same := cols row mem
    have long := filled' row mem
    omega
  rw [dim1] at rows positive ⊢
  rw [dim2] at cols positive' ⊢
  exact ⟨by omega, by omega, by omega, fun row mem => by have := cols row mem; omega, by simp⟩

theorem getD_flatten {values : List (List ℚ)} (cols : ∀ row ∈ values, row.length = m) (inside : j < m) (i : Nat) :
    values.flatten.getD (i * m + j) 0 = Table.entry values i j := by
  induction values generalizing i with
  | nil => simp [Table.entry]
  | cons row rest ih =>
    obtain ⟨length, cols⟩ := List.forall_mem_cons.mp cols
    rw [List.flatten_cons]
    cases i with
    | zero =>
      rw [Nat.zero_mul,Nat.zero_add,List.getD_append _ _ _ _ (by omega)]
      rfl
    | succ i =>
      have beyond : row.length ≤ (i + 1) * m + j := by
        rw [length,Nat.succ_mul]
        omega
      have left : (i + 1) * m + j - row.length = i * m + j := by
        rw [length,Nat.succ_mul]
        omega
      rw [List.getD_append_right _ _ _ _ beyond,left,ih cols]
      rfl

theorem filled_makeFloatTable (attr : List (List ℚ)) (rows cols : Nat) :
    rows ≤ (makeFloatTable attr rows cols).length ∧ ∀ row ∈ makeFloatTable attr rows cols, cols ≤ row.length := by
  rw [makeFloatTable]
  constructor
  · simp only [List.length_append,List.length_map,List.length_replicate]
    omega
  · intro row mem
    simp only [List.mem_append,List.mem_map,List.mem_replicate] at mem
    rcases mem with ⟨read, -, rfl⟩ | ⟨-, rfl⟩
    · simp only [List.length_append,List.length_replicate]
      omega
    · simp

end Made

namespace Table

/-- The values beyond the points that are kept continue the last line of the kept ones. -/
def Continues (values : List ℚ) (axis1 : TableAxis) : Prop :=
  ∀ i, axis1.kept ≤ i → i < axis1.size →
    interp axis1.axisValue (fun i => values.getD i 0) axis1.kept (axis1.axisValue i) = values.getD i 0

/-- For an input: a scalar, or one axis with several points that is the transition time and is kept, or is the load and
has one value. -/
def FitsInput : Table → Prop
  | table0 _ => True
  | table1 values axis1 => axis1.size ≠ 1 ∧ (axis1.var = .inputTransitionTime ∧ Continues values axis1 ∨
      axis1.var = .totalOutputNetCapacitance ∧ ∀ i < axis1.size, values.getD i 0 = values.getD 0 0)
  | table2 .. => False

/-- For an output: a scalar, or one axis with several points that is kept, or two axes: first the transition time and
then the load; or the other way around and the table is the same with its arguments exchanged; or twice one variable and
the table does not depend on the argument that is not it. -/
def FitsOutput : Table → Prop
  | table0 _ => True
  | table1 values axis1 => axis1.size ≠ 1 ∧ Continues values axis1
  | table2 values axis1 axis2 =>
    axis1.var = .inputTransitionTime ∧ axis2.var = .totalOutputNetCapacitance ∨
    (axis1.var = .totalOutputNetCapacitance ∧ axis2.var = .inputTransitionTime ∧
      ∀ p q, IsPoint axis1.axisValue axis2.axisValue axis1.size axis2.size p →
        IsPoint axis1.axisValue axis2.axisValue axis1.size axis2.size q →
        surface axis1.axisValue axis2.axisValue (Table.entry values) axis1.size axis2.size p q =
          surface axis1.axisValue axis2.axisValue (Table.entry values) axis1.size axis2.size q p) ∨
    (axis1.var = .inputTransitionTime ∧ axis2.var = .inputTransitionTime ∧
      ∀ i < axis1.size, ∀ j < axis2.size, Table.entry values i j = Table.entry values i 0) ∨
    (axis1.var = .totalOutputNetCapacitance ∧ axis2.var = .totalOutputNetCapacitance ∧
      ∀ j < axis2.size, ∀ i < axis1.size, Table.entry values i j = Table.entry values 0 j)

end Table

namespace Table

/-- The points of the axes ascend and there is an entry for each. -/
def Readable : Table → Prop
  | table0 _ => True
  | table1 values axis1 => Increasing axis1.axisValue axis1.size ∧ axis1.size ≤ values.length
  | table2 values axis1 axis2 =>
    (Increasing axis1.axisValue axis1.size ∧ Increasing axis2.axisValue axis2.size) ∧
      axis1.size ≤ values.length ∧ ∀ row ∈ values, axis2.size ≤ row.length

end Table

theorem readable_makeTable (attr : List (List ℚ)) (axis1 axis2 : Option TableAxis)
    (increasing : ∀ axis, axis1 = some axis ∨ axis2 = some axis → Increasing axis.axisValue axis.size) :
    (makeTable attr axis1 axis2).Readable := by
  match axis1, axis2 with
  | none, _ => trivial
  | some axis1, none =>
    obtain ⟨rows, cols⟩ := filled_makeFloatTable attr 1 axis1.size
    refine ⟨increasing axis1 (Or.inl rfl), ?_⟩
    generalize makeFloatTable attr 1 axis1.size = table at rows cols
    cases table with
    | nil => cases rows
    | cons row rest => exact cols row (List.mem_cons_self ..)
  | some axis1, some axis2 =>
    exact ⟨⟨increasing axis1 (Or.inl rfl), increasing axis2 (Or.inr rfl)⟩,
      filled_makeFloatTable attr axis1.size axis2.size⟩

section Exact

theorem findValue1_single {axis1 : TableAxis} (single : axis1.size = 1) (values : List ℚ) :
    Table.findValue1 values axis1 values.length = none := by
  rw [Table.findValue1,if_pos single,toSize,Nat.floor_natCast]
  by_cases fits : (-1 : ℚ) < values.length ∧ (values.length : ℚ) < 2 ^ 64
  · rw [if_pos fits,Option.bind_some]
    exact List.getElem?_eq_none le_rfl
  · rw [if_neg fits,Option.bind_none]

theorem axisValue_same (axis : TableAxis) (value : ℚ) :
    InternalPowerModel.axisValue axis value value = some value ∨
    InternalPowerModel.axisValue axis value value = none := by
  rw [InternalPowerModel.axisValue]
  split
  · exact Or.inl rfl
  · split
    · exact Or.inl rfl
    · exact Or.inr rfl

theorem power_single {axis1 : TableAxis} (single : axis1.size = 1) (values : List ℚ) :
    InternalPowerModel.power (.table1 values axis1) values.length values.length = none := by
  rw [InternalPowerModel.power]
  rcases axisValue_same axis1 values.length with same | none
  · rw [same,Option.bind_some,findValue1_single single]
  · rw [none,Option.bind_none]

theorem interp_kept_iff {values : List ℚ} {axis1 : TableAxis} (increasing : Increasing axis1.axisValue axis1.size)
    (nonempty : 1 ≤ axis1.kept) :
    (∀ t, interp axis1.axisValue (fun i => values.getD i 0) axis1.size t =
      interp axis1.axisValue (fun i => values.getD i 0) axis1.kept t) ↔ Table.Continues values axis1 :=
  (forall_congr' fun _ => eq_comm).trans (interp_prefix_iff increasing nonempty (kept_le axis1))

theorem input_agrees_iff {table : Table} (made : inputLUT table = some lut) (readable : table.Readable) :
    (∀ slew load, InternalPowerModel.power table slew load = some (lut.lookUpValue slew)) ↔ table.FitsInput := by
  cases table with
  | table0 value =>
    obtain rfl := Option.some.inj made
    simp [InternalPowerModel.power,OneDimensionalLUT.lookUpValue,Table.FitsInput]
  | table2 => cases made
  | table1 values axis1 =>
    obtain ⟨increasing, long⟩ := readable
    obtain ⟨nonempty, rfl⟩ := inputLUT_table1 made
    have kept := kept_le axis1
    have shorter : Increasing axis1.axisValue axis1.kept := fun i j less inside => increasing i j less (by omega)
    simp only [lookUpValue_eq_interp nonempty shorter,Table.FitsInput]
    by_cases single : axis1.size = 1
    · refine iff_of_false (fun same => ?_) (fun fits => fits.1 single)
      have := same values.length values.length
      rw [power_single single] at this
      cases this
    have host := findValue1_eq_interp values (by omega : 2 ≤ axis1.size) increasing long
    rw [and_iff_right single]
    by_cases slews : axis1.var = .inputTransitionTime
    · simp only [InternalPowerModel.power,InternalPowerModel.axisValue,slews,if_true,Option.bind_some,host,
        Option.some.injEq,forall_const,
        true_and,reduceCtorEq,false_and,or_false]
      exact interp_kept_iff increasing nonempty
    by_cases loads : axis1.var = .totalOutputNetCapacitance
    · simp only [InternalPowerModel.power,InternalPowerModel.axisValue,loads,reduceCtorEq,if_false,if_true,
        Option.bind_some,host,
        Option.some.injEq,false_and,true_and,false_or]
      constructor
      · intro same
        exact (interp_const_iff (by omega) increasing).mp fun s t => (same s s).trans (same s t).symm
      · intro constant slew load
        rw [interp_const (by omega) constant,interp_const nonempty fun i inside => constant i (by omega)]
    · simp [InternalPowerModel.power,InternalPowerModel.axisValue,slews,loads]

theorem output_agrees_iff {table : Table} (made : outputLUT table = some lut) (readable : table.Readable) :
    (∀ slew load, InternalPowerModel.power table slew load = some (lut.lookUpValue slew load)) ↔ table.FitsOutput := by
  cases table with
  | table0 value =>
    obtain rfl := Option.some.inj made
    simp [InternalPowerModel.power,TwoDimensionalLUT.lookUpValue,Table.FitsOutput]
  | table1 values axis1 =>
    obtain ⟨increasing, long⟩ := readable
    obtain ⟨loads, nonempty, rfl⟩ := outputLUT_table1 made
    have kept := kept_le axis1
    have shorter : Increasing axis1.axisValue axis1.kept := fun i j less inside => increasing i j less (by omega)
    have alone : Increasing (fun _ => (0 : ℚ)) 1 := fun i j less inside => by omega
    simp only [lookUpValue_eq_surface le_rfl nonempty alone shorter,surface,interp_one,Nat.zero_mul,Nat.zero_add,
      Table.FitsOutput]
    by_cases single : axis1.size = 1
    · refine iff_of_false (fun same => ?_) (fun fits => fits.1 single)
      have := same values.length values.length
      rw [power_single single] at this
      cases this
    have host := findValue1_eq_interp values (by omega : 2 ≤ axis1.size) increasing long
    rw [and_iff_right single]
    simp only [InternalPowerModel.power,InternalPowerModel.axisValue,loads,reduceCtorEq,if_false,if_true,
      Option.bind_some,host,
      Option.some.injEq,forall_const]
    exact interp_kept_iff increasing nonempty
  | table2 values axis1 axis2 =>
    obtain ⟨⟨increasing, increasing'⟩, filled, filled'⟩ := readable
    obtain ⟨nonempty, nonempty', rows, cols, rfl⟩ := outputLUT_table2 made filled filled'
    have device : ∀ slew load, TwoDimensionalLUT.lookUpValue
        ⟨false, 0, axis1.size, axis2.size, axis1.axisValue, axis2.axisValue, fun i =>
          values.flatten.getD i 0⟩ slew load =
        surface axis1.axisValue axis2.axisValue (Table.entry values) axis1.size axis2.size slew load := fun slew load =>
      (lookUpValue_eq_surface nonempty nonempty' increasing increasing' 0 slew load).trans
        (surface_congr nonempty nonempty' (fun i _ j inside => getD_flatten cols inside i) slew load)
    have host := findValue2_eq_surface nonempty nonempty' increasing increasing' rows cols
    simp only [device,InternalPowerModel.power,InternalPowerModel.axisValue,Table.FitsOutput]
    by_cases slews : axis1.var = .inputTransitionTime
    · by_cases slews' : axis2.var = .inputTransitionTime
      · simp only [slews,slews',host,if_true,Option.bind_eq_bind,Option.bind_some,Option.some.injEq,reduceCtorEq,
          true_and,false_and,
          and_false,false_or,or_false]
        rw [← surface_first_iff increasing increasing' nonempty nonempty']
        simp only [eq_comm]
      by_cases loads' : axis2.var = .totalOutputNetCapacitance
      · simp [slews,loads',host]
      · simp [slews,slews',loads']
    by_cases loads : axis1.var = .totalOutputNetCapacitance
    · by_cases slews' : axis2.var = .inputTransitionTime
      · simp only [loads,slews',host,if_true,if_false,Option.bind_eq_bind,Option.bind_some,Option.some.injEq,
          reduceCtorEq,true_and,
          false_and,and_false,false_or,or_false]
        rw [← surface_symm_iff increasing increasing' nonempty nonempty']
        simp only [eq_comm]
      by_cases loads' : axis2.var = .totalOutputNetCapacitance
      · simp only [loads,loads',host,if_true,if_false,Option.bind_eq_bind,Option.bind_some,Option.some.injEq,
          reduceCtorEq,true_and,
          false_and,and_false,false_or]
        rw [← surface_second_iff increasing increasing' nonempty nonempty']
        simp only [eq_comm]
      · simp [loads,slews',loads']
    · simp [slews,loads]

/-- The lookup tables of the device give what the Liberty tables give, for every slew and load, exactly when the tables
fit. -/
theorem lookUp_agrees_iff (attr : List (List ℚ)) (axis1 axis2 : Option TableAxis)
    (increasing : ∀ axis, axis1 = some axis ∨ axis2 = some axis → Increasing axis.axisValue axis.size) :
    (∀ lut, inputLUT (makeTable attr axis1 axis2) = some lut →
      ((∀ slew load, InternalPowerModel.power (makeTable attr axis1 axis2) slew load = some (lut.lookUpValue slew)) ↔
        (makeTable attr axis1 axis2).FitsInput)) ∧
    ∀ lut, outputLUT (makeTable attr axis1 axis2) = some lut →
      ((∀ slew load, InternalPowerModel.power (makeTable attr axis1 axis2) slew load =
        some (lut.lookUpValue slew load)) ↔
        (makeTable attr axis1 axis2).FitsOutput) := by
  have readable := readable_makeTable attr axis1 axis2 increasing
  exact ⟨fun _ made => input_agrees_iff made readable, fun _ made => output_agrees_iff made readable⟩

def unitAxis (var : TableAxisVariable) : TableAxis := ⟨var, [0, 1]⟩

theorem increasing_unitAxis (var : TableAxisVariable) : Increasing (unitAxis var).axisValue (unitAxis var).size := by
  intro i j less inside
  obtain ⟨rfl, rfl⟩ : i = 0 ∧ j = 1 := by
    have two : j < 2 := inside
    omega
  exact zero_lt_one

theorem lookUp_agrees_ordered :
    ∃ lut, outputLUT (makeTable [[1, 2], [3, 5]] (some (unitAxis .inputTransitionTime))
    (some (unitAxis .totalOutputNetCapacitance))) =
      some lut ∧ ∀ slew load, InternalPowerModel.power
        (makeTable [[1, 2], [3, 5]] (some (unitAxis .inputTransitionTime)) (some (unitAxis .totalOutputNetCapacitance)))
          slew load =
          some (lut.lookUpValue slew load) := by
  obtain ⟨lut, made⟩ := Option.isSome_iff_exists.mp
    (show (outputLUT (makeTable [[1, 2], [3, 5]] (some (unitAxis .inputTransitionTime))
    (some (unitAxis .totalOutputNetCapacitance)))).isSome by decide +kernel)
  have increasing : ∀ axis, some (unitAxis .inputTransitionTime) = some axis ∨
    some (unitAxis .totalOutputNetCapacitance) = some axis →
      Increasing axis.axisValue axis.size := by
    rintro axis (⟨⟨⟩⟩ | ⟨⟨⟩⟩) <;> exact increasing_unitAxis _
  exact ⟨lut, made, ((lookUp_agrees_iff _ _ _ increasing).2 lut made).mpr (Or.inl ⟨rfl, rfl⟩)⟩

/-- With the load as the first axis the slew is looked up among the loads. -/
theorem not_lookUp_agrees_swapped :
    ∃ lut, outputLUT (makeTable [[0, 0], [1, 0]] (some (unitAxis .totalOutputNetCapacitance))
    (some (unitAxis .inputTransitionTime))) =
      some lut ∧ ¬∀ slew load, InternalPowerModel.power
        (makeTable [[0, 0], [1, 0]] (some (unitAxis .totalOutputNetCapacitance)) (some (unitAxis .inputTransitionTime)))
          slew load =
          some (lut.lookUpValue slew load) := by
  have device : (outputLUT (makeTable [[0, 0], [1, 0]] (some (unitAxis .totalOutputNetCapacitance))
      (some (unitAxis .inputTransitionTime)))).map (fun lut => lut.lookUpValue 1 0) = some 1 := by decide +kernel
  have host : InternalPowerModel.power (makeTable [[0, 0], [1, 0]] (some (unitAxis .totalOutputNetCapacitance))
      (some (unitAxis .inputTransitionTime))) 1 0 = some 0 := by decide +kernel
  obtain ⟨lut, made, value⟩ := Option.map_eq_some_iff.mp device
  refine ⟨lut, made, fun same => ?_⟩
  have equal := same 1 0
  rw [host,value] at equal
  exact absurd equal (by decide)

end Exact

end GTPower
