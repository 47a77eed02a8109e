import GTPower.Event

/-! Interpolated energy tables and their conditional pairs as the device evaluates them. -/
namespace GTPower

/-- Neighbouring axis points of a value: the first segment below the axis, the last one above it. -/
def findSegment (axis : Nat → ℚ) (dim : Nat) (value : ℚ) : Nat × Nat :=
  if value ≤ axis 0 then (0, 1)
  else if axis (dim - 1) ≤ value then (dim - 2, dim - 1)
  else
    match (List.range' 1 (dim - 1)).find? fun i => value ≤ axis i with
    | some i => (i - 1, i)
    | none => (dim - 2, dim - 1)

def interpolate (value lowerAxis upperAxis lowerValue upperValue : ℚ) : ℚ :=
  lowerValue + (value - lowerAxis) / (upperAxis - lowerAxis) * (upperValue - lowerValue)

structure OneDimensionalLUT where
  isScalar : Bool
  scalarValue : ℚ
  idx1Dim : Nat
  idx1InputTransitions : Nat → ℚ
  lookupTable : Nat → ℚ

def OneDimensionalLUT.lookUpValue (lut : OneDimensionalLUT) (x0 : ℚ) : ℚ :=
  if lut.isScalar then lut.scalarValue
  else if lut.idx1Dim = 1 then lut.lookupTable 0
  else
    let x := lut.idx1InputTransitions
    let seg := findSegment x lut.idx1Dim x0
    let x01 := (x0 - x seg.1) / (x seg.2 - x seg.1)
    lut.lookupTable seg.1 + x01 * (lut.lookupTable seg.2 - lut.lookupTable seg.1)

structure TwoDimensionalLUT where
  isScalar : Bool
  scalarValue : ℚ
  idx1Dim : Nat
  idx2Dim : Nat
  idx1InputTransitions : Nat → ℚ
  idx2OutputCapacitances : Nat → ℚ
  lookupTable : Nat → ℚ

def TwoDimensionalLUT.lookUpValue (lut : TwoDimensionalLUT) (x0 y0 : ℚ) : ℚ :=
  let x := lut.idx1InputTransitions
  let y := lut.idx2OutputCapacitances
  let table := lut.lookupTable
  if lut.isScalar then lut.scalarValue
  else if lut.idx1Dim = 1 ∧ lut.idx2Dim = 1 then table 0
  else if lut.idx1Dim = 1 then
    let ys := findSegment y lut.idx2Dim y0
    interpolate y0 (y ys.1) (y ys.2) (table ys.1) (table ys.2)
  else if lut.idx2Dim = 1 then
    let xs := findSegment x lut.idx1Dim x0
    interpolate x0 (x xs.1) (x xs.2) (table (xs.1 * lut.idx2Dim)) (table (xs.2 * lut.idx2Dim))
  else
    let xs := findSegment x lut.idx1Dim x0
    let ys := findSegment y lut.idx2Dim y0
    let xDiff := x xs.2 - x xs.1
    let yDiff := y ys.2 - y ys.1
    let x01 := (x0 - x xs.1) / xDiff
    let x20 := (x xs.2 - x0) / xDiff
    let y01 := (y0 - y ys.1) / yDiff
    let y20 := (y ys.2 - y0) / yDiff
    x20 * y20 * table (xs.1 * lut.idx2Dim + ys.1) + x20 * y01 * table (xs.1 * lut.idx2Dim + ys.2) +
      x01 * y20 * table (xs.2 * lut.idx2Dim + ys.1) + x01 * y01 * table (xs.2 * lut.idx2Dim + ys.2)

/-- Rise and fall tables of one internal power group with the pin values its condition requires;
`invalidVcdEventVal` leaves a pin free. -/
structure LUTPair (α : Type) where
  riseTable : α
  fallTable : α
  whenSatisfiable : Bool
  whenState : Nat → Int

abbrev OneDimensionalLUTPair := LUTPair OneDimensionalLUT
abbrev TwoDimensionalLUTPair := LUTPair TwoDimensionalLUT

/-- An unknown value is compared as 0. -/
def LUTPair.matchPinStates (pair : LUTPair α) (pinStates : Fin n → Int) : Bool :=
  pair.whenSatisfiable && (List.finRange n).all fun pin =>
    !(pair.whenState pin != invalidVcdEventVal &&
      pair.whenState pin != if pinStates pin = 2 ∨ pinStates pin = 0 then 0 else 1)

def LUTPair.table (pair : LUTPair α) : RiseFall → α
  | .rise => pair.riseTable
  | .fall => pair.fallTable

def OneDimensionalLUTPair.lookUp (pair : OneDimensionalLUTPair) (transitionTime : ℚ) (riseFall : RiseFall) : ℚ :=
  (pair.table riseFall).lookUpValue transitionTime

def TwoDimensionalLUTPair.lookUp (pair : TwoDimensionalLUTPair) (transitionTime capacitance : ℚ)
    (riseFall : RiseFall) : ℚ :=
  (pair.table riseFall).lookUpValue transitionTime capacitance

end GTPower
