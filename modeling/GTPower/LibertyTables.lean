import GTPower.LookupTable
import GTPower.Interpolation

/-! Internal power tables as the Liberty reader makes and evaluates them, and the lookup tables of the device that are
made from them. -/
namespace GTPower

inductive TableAxisVariable
  | totalOutputNetCapacitance
  | equalOrOppositeOutputNetCapacitance
  | inputNetTransition
  | inputTransitionTime
  | relatedPinTransition
  | constrainedPinTransition
  | outputPinTransition
  | connectDelay
  | relatedOutTotalOutputNetCapacitance
  | time
  | ivOutputVoltage
  | inputNoiseWidth
  | inputNoiseHeight
  | inputVoltage
  | outputVoltage
  | pathDepth
  | pathDistance
  | normalizedVoltage
  | unknown
deriving DecidableEq

structure TableAxis where
  var : TableAxisVariable
  values : List ℚ

namespace TableAxis

def size (axis : TableAxis) : Nat := axis.values.length

/-- Only read inside the axis. -/
def axisValue (axis : TableAxis) (i : Nat) : ℚ := axis.values.getD i 0

/-- The loop of the bisection; `>> 1` is a division that rounds down. -/
def bisect (value : ℚ) (axis : Nat → ℚ) (lower upper : Int) : Int :=
  if 1 < upper - lower then
    if axis ((upper + lower) / 2).toNat ≤ value then bisect value axis ((upper + lower) / 2) upper
    else bisect value axis lower ((upper + lower) / 2)
  else lower
termination_by (upper - lower).toNat

def findValueIndex (value : ℚ) (axis : Nat → ℚ) (size : Nat) : Nat :=
  if size ≤ 1 ∨ value ≤ axis 0 then 0
  else if axis (size - 1) ≤ value then size - 2
  else (bisect value axis (-1) size).toNat

def findAxisIndex (axis : TableAxis) (value : ℚ) : Nat := findValueIndex value axis.axisValue axis.size

/-- Where a value lies between the points of a segment. -/
def fraction (axis : TableAxis) (index : Nat) (value : ℚ) : ℚ :=
  (value - axis.axisValue index) / (axis.axisValue (index + 1) - axis.axisValue index)

end TableAxis

inductive Table
  | table0 (value : ℚ)
  | table1 (values : List ℚ) (axis1 : TableAxis)
  | table2 (values : List (List ℚ)) (axis1 axis2 : TableAxis)

section Reader

/-- Short rows and missing rows are filled with zeros. -/
def makeFloatTable (attr : List (List ℚ)) (rows cols : Nat) : List (List ℚ) :=
  let table := attr.map fun row => row ++ List.replicate (cols - row.length) 0
  table ++ List.replicate (rows - table.length) (List.replicate cols 0)

def makeTable (attr : List (List ℚ)) : Option TableAxis → Option TableAxis → Table
  | some axis1, some axis2 => .table2 (makeFloatTable attr axis1.size axis2.size) axis1 axis2
  | some axis1, none => .table1 ((makeFloatTable attr 1 axis1.size).headD []) axis1
  | none, _ => .table0 (((makeFloatTable attr 1 1).headD []).headD 0)

end Reader

/-- Truncation of a `float` to `size_t`, undefined for what does not fit. -/
def toSize (value : ℚ) : Option Nat := if -1 < value ∧ value < 2 ^ 64 then some ⌊value⌋₊ else none

namespace Table

/-- The entries a table of one axis has for a single point are indexed by the value itself. -/
def findValue1 (values : List ℚ) (axis1 : TableAxis) (axisValue1 : ℚ) : Option ℚ :=
  if axis1.size = 1 then (toSize axisValue1).bind fun index => values[index]?
  else do
    let axisIndex1 := axis1.findAxisIndex axisValue1
    let y1 ← values[axisIndex1]?
    let y2 ← values[axisIndex1 + 1]?
    let dx1 := axis1.fraction axisIndex1 axisValue1
    return (1 - dx1) * y1 + dx1 * y2

def value2 (values : List (List ℚ)) (axisIndex1 axisIndex2 : Nat) : Option ℚ :=
  (values[axisIndex1]?).bind fun row => row[axisIndex2]?

def findValue2 (values : List (List ℚ)) (axis1 axis2 : TableAxis) (axisValue1 axisValue2 : ℚ) : Option ℚ :=
  let axisIndex1 := axis1.findAxisIndex axisValue1
  let axisIndex2 := axis2.findAxisIndex axisValue2
  let dx1 := axis1.fraction axisIndex1 axisValue1
  let dx2 := axis2.fraction axisIndex2 axisValue2
  if axis1.size = 1 then
    if axis2.size = 1 then value2 values 0 0
    else do
      let y00 ← value2 values 0 axisIndex2
      let y01 ← value2 values 0 (axisIndex2 + 1)
      return (1 - dx2) * y00 + dx2 * y01
  else if axis2.size = 1 then do
    let y00 ← value2 values axisIndex1 0
    let y10 ← value2 values (axisIndex1 + 1) 0
    return (1 - dx1) * y00 + dx1 * y10
  else do
    let y00 ← value2 values axisIndex1 axisIndex2
    let y10 ← value2 values (axisIndex1 + 1) axisIndex2
    let y11 ← value2 values (axisIndex1 + 1) (axisIndex2 + 1)
    let y01 ← value2 values axisIndex1 (axisIndex2 + 1)
    return (1 - dx1) * (1 - dx2) * y00 + dx1 * (1 - dx2) * y10 + dx1 * dx2 * y11 + (1 - dx1) * dx2 * y01

end Table

namespace InternalPowerModel

/-- Other variables are a critical error. -/
def axisValue (axis : TableAxis) (inSlew loadCap : ℚ) : Option ℚ :=
  if axis.var = .inputTransitionTime then some inSlew
  else if axis.var = .totalOutputNetCapacitance then some loadCap
  else none

/-- For a scale factor of 1. -/
def power (table : Table) (inSlew loadCap : ℚ) : Option ℚ :=
  match table with
  | .table0 value => some value
  | .table1 values axis1 => (axisValue axis1 inSlew loadCap).bind (Table.findValue1 values axis1)
  | .table2 values axis1 axis2 => do
    let axisValue1 ← axisValue axis1 inSlew loadCap
    let axisValue2 ← axisValue axis2 inSlew loadCap
    Table.findValue2 values axis1 axis2 axisValue1 axisValue2

end InternalPowerModel

section Device

/-- A conversion to `short`. -/
def toLookupTableIdx (size : Nat) : Int := (size + 2 ^ 15) % 2 ^ 16 - 2 ^ 15

def StrictlyIncreasing (axis : Nat → ℚ) (dim : Nat) : Prop := ∀ i < dim, 1 ≤ i → axis (i - 1) < axis i

instance (axis : Nat → ℚ) (dim : Nat) : Decidable (StrictlyIncreasing axis dim) :=
  inferInstanceAs (Decidable (∀ i < dim, _))

def OneDimensionalLUT.make (size : Nat) (idx1InputTransitions lookupTable : Nat → ℚ) : Option OneDimensionalLUT :=
  let idx1Dim := toLookupTableIdx size
  if idx1Dim ≤ 0 then none
  else if StrictlyIncreasing idx1InputTransitions idx1Dim.toNat then some ⟨false, 0, idx1Dim.toNat,
    idx1InputTransitions, lookupTable⟩
  else none

def copyDeviceArrays (idx1Dim idx2Dim : Int) (idx1InputTransitions idx2OutputCapacitances lookupTable : Nat → ℚ) :
    Option TwoDimensionalLUT :=
  if idx1Dim ≤ 0 ∨ idx2Dim ≤ 0 then none
  else if StrictlyIncreasing idx1InputTransitions idx1Dim.toNat ∧
    StrictlyIncreasing idx2OutputCapacitances idx2Dim.toNat then
    some ⟨false, 0, idx1Dim.toNat, idx2Dim.toNat, idx1InputTransitions, idx2OutputCapacitances, lookupTable⟩
  else none

def TwoDimensionalLUT.make (size1 : Nat) (idx1InputTransitions : Nat → ℚ) (size2 : Nat)
    (idx2OutputCapacitances : Nat → ℚ) (lookupTable : List (List ℚ)) : Option TwoDimensionalLUT :=
  let idx1Dim := toLookupTableIdx size1
  let idx2Dim := toLookupTableIdx size2
  if idx1Dim ≤ 0 ∨ idx2Dim ≤ 0 then none
  else if idx1Dim ≠ lookupTable.length then none
  else if lookupTable.any fun row => idx2Dim ≠ row.length then none
  else copyDeviceArrays idx1Dim idx2Dim idx1InputTransitions idx2OutputCapacitances fun i =>
    lookupTable.flatten.getD i 0

/-- A table of one axis becomes a single row. -/
def TwoDimensionalLUT.makeRow (size2 : Nat) (idx2OutputCapacitances lookupTable : Nat → ℚ) : Option TwoDimensionalLUT :=
  copyDeviceArrays 1 (toLookupTableIdx size2) (fun _ => 0) idx2OutputCapacitances lookupTable

/-- The conversion in `getInputInternalPower`. -/
def inputLUT : Table → Option OneDimensionalLUT
  | .table1 values axis1 => OneDimensionalLUT.make axis1.size axis1.axisValue fun i => values.getD i 0
  | .table0 value => some ⟨true, value, 0, fun _ => 0, fun _ => 0⟩
  | .table2 .. => none

/-- The conversion in `getOutputInternalPower`. -/
def outputLUT : Table → Option TwoDimensionalLUT
  | .table2 values axis1 axis2 => TwoDimensionalLUT.make axis1.size axis1.axisValue axis2.size axis2.axisValue values
  | .table0 value => some ⟨true, value, 0, 0, fun _ => 0, fun _ => 0, fun _ => 0⟩
  | .table1 values axis1 =>
    if axis1.var ≠ .totalOutputNetCapacitance then none
    else TwoDimensionalLUT.makeRow axis1.size axis1.axisValue fun i => values.getD i 0

end Device

end GTPower
