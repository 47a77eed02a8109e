import GTPower.FuncExpr
import GTPower.HashGroups
import Mathlib.Data.String.Basic
import Mathlib.Data.BitVec
import Mathlib.Algebra.BigOperators.Group.List.Basic

/-! Equivalent cells of Liberty libraries: their hashes, their comparison, and the sets they are put in. A pointer to an
expression may be null. Directions, roles and transitions are compared as objects, which are told apart by their
indices. -/
namespace GTPower.EquivCells

structure LibertyPort where
  name : String
  direction : PortDirection
  deriving DecidableEq

abbrev FuncPtr := Option (FuncExpr LibertyPort)

structure CellPort extends LibertyPort where
  function : FuncPtr
  tristateEnable : FuncPtr
  deriving DecidableEq

inductive PgType
  | unknown | primaryPower | primaryGround | backupPower | backupGround | internalPower | internalGround | nwell
    | pwell | deepnwell
  | deeppwell
  deriving DecidableEq

structure LibertyPgPort where
  name : String
  pgType : PgType
  deriving DecidableEq

structure Sequential where
  isRegister : Bool
  clock : FuncPtr
  data : FuncPtr
  clear : FuncPtr
  preset : FuncPtr
  clearPresetOutput : LogicValue
  clearPresetOutputInv : LogicValue
  output : Option LibertyPort
  outputInv : Option LibertyPort

inductive StateInputValue
  | low | high | dontCare | lowHigh | highLow | rise | fall | notRise | notFall
  deriving DecidableEq

inductive StateInternalValue
  | low | high | unspecified | lowHigh | highLow | unknown | hold
  deriving DecidableEq

structure StatetableRow where
  inputValues : List StateInputValue
  currentValues : List StateInternalValue
  nextValues : List StateInternalValue

structure Statetable where
  inputPorts : List LibertyPort
  internalPorts : List LibertyPort
  table : List StatetableRow

/-- Edges are the indices of transitions. -/
structure TimingArc where
  fromEdge : Option ℕ
  toEdge : ℕ
  deriving DecidableEq

/-- The role is its index. -/
structure TimingArcSet where
  fromPort : Option LibertyPort
  toPort : Option LibertyPort
  role : ℕ
  cond : FuncPtr
  sdfCond : Option String
  sdfCondStart : Option String
  sdfCondEnd : Option String
  modeName : Option String
  modeValue : Option String
  arcs : List TimingArc
  deriving DecidableEq

/-- Ports are found by name in a map that also has the bits of buses. Supply ports are in a map by their names, and of
equal timing arc sets only the last one was kept. -/
structure LibertyCell where
  ports : List CellPort
  findLibertyPort : String → Option CellPort
  pgPorts : List LibertyPgPort
  pgNames : (pgPorts.map LibertyPgPort.name).Nodup
  sequentials : List Sequential
  statetable : Option Statetable
  timingArcSets : List TimingArcSet
  arcSetsNodup : timingArcSets.Nodup
  dontUse : Bool

def LibertyCell.findPgPort (cell : LibertyCell) (name : String) : Option LibertyPgPort :=
  cell.pgPorts.find? (·.name == name)

section Hash

def PgType.index : PgType → ℕ
  | unknown => 0 | primaryPower => 1 | primaryGround => 2 | backupPower => 3 | backupGround => 4 | internalPower => 5
  | internalGround => 6 | nwell => 7 | pwell => 8 | deepnwell => 9 | deeppwell => 10

def StateInputValue.index : StateInputValue → ℕ
  | low => 0 | high => 1 | dontCare => 2 | lowHigh => 3 | highLow => 4 | rise => 5 | fall => 6 | notRise =>
    7 | notFall => 8

def StateInternalValue.index : StateInternalValue → ℕ
  | low => 0 | high => 1 | unspecified => 2 | lowHigh => 3 | highLow => 4 | unknown => 5 | hold => 6

/-- Of ASCII characters, in 64 bits. -/
def hashString (str : String) : BitVec 64 :=
  str.toList.foldl (fun hash ch => ((hash <<< 5) + hash) ^^^ BitVec.ofNat 64 ch.toNat) 5381

def hashPort (port : LibertyPort) : BitVec 32 :=
  (hashString port.name * 3 + BitVec.ofNat 64 port.direction.index * 5).setWidth 32

/-- An operator with the index i multiplies the hashes of its operands by 2 ^ i - 1. -/
def hashExpr : FuncExpr LibertyPort → BitVec 32
  | .port port => hashPort port * 17
  | .not left => hashExpr left * 31
  | .or left right => (hashExpr left + hashExpr right) * 3
  | .and left right => (hashExpr left + hashExpr right) * 7
  | .xor left right => (hashExpr left + hashExpr right) * 15
  -- without operands
  | .one => 0
  | .zero => 0

def hashFuncExpr : FuncPtr → BitVec 32
  | none => 0
  | some expr => hashExpr expr

def hashCellPorts (cell : LibertyCell) : BitVec 32 :=
  (cell.ports.map fun port => hashPort port.toLibertyPort + hashFuncExpr port.function * 3 +
    hashFuncExpr port.tristateEnable * 5).sum

def hashPgPort (port : LibertyPgPort) : BitVec 32 :=
  (hashString port.name * 3 + BitVec.ofNat 64 port.pgType.index * 5).setWidth 32

def hashCellPgPorts (cell : LibertyCell) : BitVec 32 := (cell.pgPorts.map hashPgPort).sum

/-- Undefined where an output is null, which the source does not test. -/
def hashSequential (seq : Sequential) : Option (BitVec 32) :=
  match seq.output, seq.outputInv with
  | some output, some outputInv =>
    some (BitVec.ofNat 32 seq.isRegister.toNat * 3 + hashFuncExpr seq.clock * 5 + hashFuncExpr seq.data * 7 +
      hashPort output * 9
      + hashPort outputInv * 11 + hashFuncExpr seq.clear * 13 + hashFuncExpr seq.preset * 17
      + BitVec.ofNat 32 seq.clearPresetOutput.index * 19 + BitVec.ofNat 32 seq.clearPresetOutputInv.index * 23)
  | _, _ => none

def hashStatetableRow (row : StatetableRow) : BitVec 32 :=
  (row.inputValues.map fun value => BitVec.ofNat 32 value.index * 9).sum
    + (row.currentValues.map fun value => BitVec.ofNat 32 value.index * 11).sum
    + (row.nextValues.map fun value => BitVec.ofNat 32 value.index * 13).sum

def hashStatetable (statetable : Statetable) : BitVec 32 :=
  (statetable.inputPorts.map hashPort).sum * 3 + (statetable.internalPorts.map hashPort).sum * 5
    + (statetable.table.map hashStatetableRow).sum * 7

def hashCellSequentials (cell : LibertyCell) : Option (BitVec 32) :=
  (cell.sequentials.mapM hashSequential).map fun hashes =>
    hashes.sum + match cell.statetable with
      | some statetable => hashStatetable statetable
      | none => 0

def hashCell (cell : LibertyCell) : Option (BitVec 32) :=
  (hashCellSequentials cell).map fun sequentials => hashCellPorts cell + hashCellPgPorts cell + sequentials

end Hash

section Equiv

def LibertyPort.equiv : Option LibertyPort → Option LibertyPort → Bool
  | none, none => true
  | some port1, some port2 => port1.name == port2.name && port1.direction == port2.direction
  | _, _ => false

def equivExpr : FuncExpr LibertyPort → FuncExpr LibertyPort → Bool
  | .port port1, .port port2 => LibertyPort.equiv (some port1) (some port2)
  | .not left1, .not left2 => equivExpr left1 left2
  | .or left1 right1, .or left2 right2 => equivExpr left1 left2 && equivExpr right1 right2
  | .and left1 right1, .and left2 right2 => equivExpr left1 left2 && equivExpr right1 right2
  | .xor left1 right1, .xor left2 right2 => equivExpr left1 left2 && equivExpr right1 right2
  | .one, .one => true
  | .zero, .zero => true
  | _, _ => false

def FuncExpr.equiv : FuncPtr → FuncPtr → Bool
  | none, none => true
  | some expr1, some expr2 => equivExpr expr1 expr2
  | _, _ => false

def equivCellPortsAndFuncs (cell1 cell2 : LibertyCell) : Bool :=
  cell1.ports.length == cell2.ports.length && cell1.ports.all fun port1 =>
    match cell2.findLibertyPort port1.name with
    | some port2 => LibertyPort.equiv (some port1.toLibertyPort) (some port2.toLibertyPort)
      && FuncExpr.equiv port1.function port2.function && FuncExpr.equiv port1.tristateEnable port2.tristateEnable
    | none => false

def LibertyPgPort.equiv (port1 port2 : LibertyPgPort) : Bool := port1.name == port2.name && port1.pgType == port2.pgType

def equivCellPgPorts (cell1 cell2 : LibertyCell) : Bool :=
  cell1.pgPorts.length == cell2.pgPorts.length && cell1.pgPorts.all fun port1 =>
    match cell2.findPgPort port1.name with
    | some port2 => LibertyPgPort.equiv port1 port2
    | none => false

/-- Two sequences of one length, compared in order. -/
def equivSeq {α : Type*} (equiv : α → α → Bool) : List α → List α → Bool
  | [], [] => true
  | a :: rest1, b :: rest2 => equiv a b && equivSeq equiv rest1 rest2
  | _, _ => false

def equivSequential (seq1 seq2 : Sequential) : Bool :=
  FuncExpr.equiv seq1.clock seq2.clock && FuncExpr.equiv seq1.data seq2.data &&
    LibertyPort.equiv seq1.output seq2.output
    && LibertyPort.equiv seq1.outputInv seq2.outputInv && FuncExpr.equiv seq1.clear seq2.clear
    && FuncExpr.equiv seq1.preset seq2.preset

def equivCellSequentials (cell1 cell2 : LibertyCell) : Bool :=
  equivSeq equivSequential cell1.sequentials cell2.sequentials

def equivCellPortSeq : List LibertyPort → List LibertyPort → Bool :=
  equivSeq fun port1 port2 => LibertyPort.equiv (some port1) (some port2)

def equivStatetableRow (row1 row2 : StatetableRow) : Bool :=
  equivSeq (· == ·) row1.inputValues row2.inputValues && equivSeq (· == ·) row1.currentValues row2.currentValues
    && equivSeq (· == ·) row1.nextValues row2.nextValues

def equivStatetableRows : List StatetableRow → List StatetableRow → Bool := equivSeq equivStatetableRow

def equivCellStatetables (cell1 cell2 : LibertyCell) : Bool :=
  match cell1.statetable, cell2.statetable with
  | none, none => true
  | some statetable1, some statetable2 =>
    equivCellPortSeq statetable1.inputPorts statetable2.inputPorts
      && equivCellPortSeq statetable1.internalPorts statetable2.internalPorts
      && equivStatetableRows statetable1.table statetable2.table
  | _, _ => false

def TimingArc.equiv (arc1 arc2 : TimingArc) : Bool := arc1.fromEdge == arc2.fromEdge && arc1.toEdge == arc2.toEdge

def TimingArcSet.equiv (set1 set2 : TimingArcSet) : Bool :=
  LibertyPort.equiv set1.fromPort set2.fromPort && LibertyPort.equiv set1.toPort set2.toPort && set1.role == set2.role
    && FuncExpr.equiv set1.cond set2.cond && set1.sdfCond == set2.sdfCond && set1.sdfCondStart == set2.sdfCondStart
    && set1.sdfCondEnd == set2.sdfCondEnd && equivSeq TimingArc.equiv set1.arcs set2.arcs

end Equiv

section Less

def LibertyPort.less : Option LibertyPort → Option LibertyPort → Bool
  | none, some _ => true
  | some port1, some port2 =>
    if port1.name = port2.name then port1.direction.index < port2.direction.index else port1.name < port2.name
  | _, none => false

def lessExpr : FuncExpr LibertyPort → FuncExpr LibertyPort → Bool
  | .port port1, .port port2 => LibertyPort.less (some port1) (some port2)
  | .not left1, .not left2 => lessExpr left1 left2
  | .or left1 right1, .or left2 right2 => if equivExpr left1 left2 then lessExpr right1 right2 else lessExpr left1 left2
  | .and left1 right1, .and left2 right2 => if equivExpr left1 left2 then lessExpr right1 right2
    else lessExpr left1 left2
  | .xor left1 right1, .xor left2 right2 => if equivExpr left1 left2 then lessExpr right1 right2
    else lessExpr left1 left2
  | expr1, expr2 => expr1.op < expr2.op

def FuncExpr.less : FuncPtr → FuncPtr → Bool
  | none, some _ => true
  | some expr1, some expr2 => lessExpr expr1 expr2
  | _, none => false

def stringLessIf : Option String → Option String → Bool
  | none, some _ => true
  | some str1, some str2 => str1 < str2
  | _, none => false

/-- A null edge counts as -1. -/
def TimingArc.fromIndex (arc : TimingArc) : ℤ :=
  match arc.fromEdge with
  | some index => index
  | none => -1

def arcsLessFrom : List TimingArc → List TimingArc → Bool
  | arc1 :: rest1, arc2 :: rest2 =>
    if arc1.fromIndex < arc2.fromIndex then true
    else if arc1.fromIndex > arc2.fromIndex then false
    else if arc1.toEdge < arc2.toEdge then true
    else if arc1.toEdge > arc2.toEdge then false
    else arcsLessFrom rest1 rest2
  | _, _ => false

def timingArcsLess (arcs1 arcs2 : List TimingArc) : Bool :=
  if arcs1.length < arcs2.length then true
  else if arcs1.length > arcs2.length then false
  else arcsLessFrom arcs1 arcs2

def timingArcSetLess (set1 set2 : TimingArcSet) : Bool :=
  if !LibertyPort.equiv set1.fromPort set2.fromPort then LibertyPort.less set1.fromPort set2.fromPort
  else if !LibertyPort.equiv set1.toPort set2.toPort then LibertyPort.less set1.toPort set2.toPort
  else if set1.role ≠ set2.role then set1.role < set2.role
  else if !FuncExpr.equiv set1.cond set2.cond then FuncExpr.less set1.cond set2.cond
  else if set1.sdfCond ≠ set2.sdfCond then stringLessIf set1.sdfCond set2.sdfCond
  else if set1.sdfCondStart ≠ set2.sdfCondStart then stringLessIf set1.sdfCondStart set2.sdfCondStart
  else if set1.sdfCondEnd ≠ set2.sdfCondEnd then stringLessIf set1.sdfCondEnd set2.sdfCondEnd
  else if set1.modeName ≠ set2.modeName then stringLessIf set1.modeName set2.modeName
  else if set1.modeValue ≠ set2.modeValue then stringLessIf set1.modeValue set2.modeValue
  else timingArcsLess set1.arcs set2.arcs

end Less

/-- In the set of a cell, ordered by `timingArcSetLess`. -/
def LibertyCell.findTimingArcSet (cell : LibertyCell) (key : TimingArcSet) : Option TimingArcSet :=
  cell.timingArcSets.find? fun arcSet => !timingArcSetLess arcSet key && !timingArcSetLess key arcSet

def equivCellTimingArcSets (cell1 cell2 : LibertyCell) : Bool :=
  cell1.timingArcSets.length == cell2.timingArcSets.length && cell1.timingArcSets.all fun arcSet1 =>
    match cell2.findTimingArcSet arcSet1 with
    | some arcSet2 => TimingArcSet.equiv arcSet1 arcSet2
    | none => false

def equivCells (cell1 cell2 : LibertyCell) : Bool :=
  equivCellPortsAndFuncs cell1 cell2 && equivCellPgPorts cell1 cell2 && equivCellSequentials cell1 cell2
    && equivCellStatetables cell1 cell2 && equivCellTimingArcSets cell1 cell2

section Source
variable {C : Type*} [DecidableEq C] (cellOf : C → LibertyCell)

/-- Cells are objects with their data. -/
def findEquivCell (s : HashGroups C (BitVec 32)) (cell : C) : Option (HashGroups C (BitVec 32)) :=
  if (cellOf cell).dontUse then some s
  else (hashCell (cellOf cell)).map fun hash =>
    s.add (fun match1 cell1 => equivCells (cellOf match1) (cellOf cell1)) hash cell

def findEquivCells (library : List C) (s : HashGroups C (BitVec 32)) : Option (HashGroups C (BitVec 32)) :=
  library.foldlM (findEquivCell cellOf) s

def equivCellSets (equivLibs : List (List C)) : Option (HashGroups C (BitVec 32)) :=
  equivLibs.foldlM (fun s library => findEquivCells cellOf library s) .empty

end Source

end GTPower.EquivCells
