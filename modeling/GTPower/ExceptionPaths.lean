import Mathlib.Algebra.BigOperators.Group.Finset.Basic
import Mathlib.Data.Finset.Sort
import Mathlib.Data.Option.Basic
import Mathlib.Data.Rat.Defs
import Mathlib.Data.Set.Function
import Mathlib.Logic.Function.Basic

/-! Timing exceptions: points with sets of objects, and the exceptions made of them. Objects are given by their ids. -/
namespace GTPower

section Points

inductive RiseFallBoth where
  | rise
  | fall
  | riseFall
  deriving DecidableEq, Repr

def RiseFallBoth.index : RiseFallBoth → UInt64
  | rise => 0
  | fall => 1
  | riseFall => 2

inductive MinMaxAll where
  | min
  | max
  | all
  deriving DecidableEq, Repr

inductive SdcObject where
  | pin (id : Nat)
  | clk (index : Nat)
  | net (id : Nat)
  | inst (id : Nat)
  deriving DecidableEq, Repr

/-- Edges are given by their two pins. -/
abbrev EdgePins := Nat × Nat

/-- A -from, -through or -to. A set that is missing, or that a point of its kind has not, is `none`. -/
structure ExceptionPt where
  pins : Option (Finset Nat)
  clks : Option (Finset Nat)
  nets : Option (Finset Nat)
  insts : Option (Finset Nat)
  edges : Finset EdgePins
  rf : RiseFallBoth
  hash : UInt64
  deriving DecidableEq

structure ExceptionTo extends ExceptionPt where
  endRf : RiseFallBoth
  deriving DecidableEq

def hashClk : UInt64 := 3
def hashPin : UInt64 := 5
def hashNet : UInt64 := 7
def hashInst : UInt64 := 11

def setKeys (set : Option (Finset Nat)) : Finset Nat := set.getD ∅

/-- A set is made when the first key is added. -/
def addKeys (keys into : Option (Finset Nat)) : Option (Finset Nat) :=
  if setKeys keys = ∅ then into else some (setKeys keys ∪ setKeys into)

def addedHash (factor : UInt64) (keys into : Option (Finset Nat)) : UInt64 :=
  UInt64.ofNat (∑ id ∈ setKeys keys \ setKeys into, id) * factor

namespace ExceptionPt

def HasObject (pt : ExceptionPt) : SdcObject → Prop
  | .pin id => id ∈ setKeys pt.pins
  | .clk index => index ∈ setKeys pt.clks
  | .net id => id ∈ setKeys pt.nets
  | .inst id => id ∈ setKeys pt.insts

instance (pt : ExceptionPt) : DecidablePred pt.HasObject := fun
  | .pin id => inferInstanceAs (Decidable (id ∈ setKeys pt.pins))
  | .clk index => inferInstanceAs (Decidable (index ∈ setKeys pt.clks))
  | .net id => inferInstanceAs (Decidable (id ∈ setKeys pt.nets))
  | .inst id => inferInstanceAs (Decidable (id ∈ setKeys pt.insts))

/-- Edges are derived from the other sets. -/
def equal (pt pt2 : ExceptionPt) : Bool :=
  setKeys pt2.pins = setKeys pt.pins && setKeys pt2.clks = setKeys pt.clks && setKeys pt2.nets = setKeys pt.nets &&
    setKeys pt2.insts = setKeys pt.insts && pt2.rf = pt.rf

/-- The other point with the objects of this one added. -/
def mergeInto (pt into : ExceptionPt) : ExceptionPt where
  pins := addKeys pt.pins into.pins
  clks := addKeys pt.clks into.clks
  nets := addKeys pt.nets into.nets
  insts := addKeys pt.insts into.insts
  edges := pt.edges ∪ into.edges
  rf := into.rf
  hash := into.hash + addedHash hashPin pt.pins into.pins + addedHash hashClk pt.clks into.clks +
    addedHash hashNet pt.nets into.nets + addedHash hashInst pt.insts into.insts

end ExceptionPt
end Points

section Paths

/-- The kinds of exceptions with the parameters of each. -/
inductive ExceptionType where
  | falsePath
  | loop
  | pathDelay (ignoreClkLatency : Bool) (delay : ℚ)
  | multiCycle (useEndClk : Bool) (pathMultiplier : Int)
  | filter
  | groupPath (name : Option (List Char)) (isDefault : Bool)
  deriving DecidableEq

namespace ExceptionType

def typePriority : ExceptionType → Nat
  | falsePath | loop => 4000
  | pathDelay .. => 3000
  | multiCycle .. => 2000
  | filter => 1000
  | groupPath .. => 0

def isPathDelay : ExceptionType → Bool
  | pathDelay .. => true
  | _ => false

def isMultiCycle : ExceptionType → Bool
  | multiCycle .. => true
  | _ => false

def isGroupPath : ExceptionType → Bool
  | groupPath .. => true
  | _ => false

def ignoreClkLatency : ExceptionType → Bool
  | pathDelay ignoreClkLatency _ => ignoreClkLatency
  | _ => false

def delay : ExceptionType → ℚ
  | pathDelay _ delay => delay
  | _ => 0

def pathMultiplier : ExceptionType → Int
  | multiCycle _ pathMultiplier => pathMultiplier
  | _ => 0

def name : ExceptionType → Option (List Char)
  | groupPath name _ => name
  | _ => none

def isDefault : ExceptionType → Bool
  | groupPath _ isDefault => isDefault
  | _ => false

end ExceptionType

/-- The through points are in their order; without any the list is empty. -/
structure ExceptionPath where
  type : ExceptionType
  fromPt : Option ExceptionPt
  thrus : List ExceptionPt
  toPt : Option ExceptionTo
  minMax : MinMaxAll
  priority : Nat
  comment : Option (List Char)
  deriving DecidableEq

inductive PtPos where
  | fromPt
  | thru (index : Nat)
  | toPt
  deriving DecidableEq, Repr

/-- Both missing, or equal up to the case of the letters. -/
def stringEqualIf : Option (List Char) → Option (List Char) → Bool
  | none, none => true
  | some str1, some str2 => str1.map Char.toLower = str2.map Char.toLower
  | _, _ => false

namespace ExceptionPath

def pt? (exception : ExceptionPath) : PtPos → Option ExceptionPt
  | .fromPt => exception.fromPt
  | .thru index => exception.thrus[index]?
  | .toPt => exception.toPt.map ExceptionTo.toExceptionPt

def positions (exception : ExceptionPath) : List PtPos :=
  (if exception.fromPt.isSome then [.fromPt] else []) ++ (List.range exception.thrus.length).map .thru ++
    if exception.toPt.isSome then [.toPt] else []

/-- The hash without the missing point. -/
def hash (exception : ExceptionPath) (missing : PtPos) : UInt64 :=
  (exception.positions.zipIdx.filter fun place => place.1 ≠ missing).foldl
    (fun hash place => hash + ((exception.pt? place.1).map ExceptionPt.hash).getD 0 * (32 * 2 ^ place.2 - 1))
    (UInt64.ofNat exception.type.typePriority)

/-- Whether an exception of this type overrides the other, whatever the points. -/
def overrides (exception exception2 : ExceptionPath) : Bool :=
  match exception.type with
  | .falsePath | .loop => exception2.priority = exception.priority && exception2.minMax = exception.minMax
  | .pathDelay .. =>
    exception2.type.isPathDelay && exception2.priority = exception.priority && exception2.minMax = exception.minMax
  | .multiCycle .. =>
    exception2.type.isMultiCycle && exception2.priority = exception.priority && exception2.minMax = exception.minMax
  | .filter => false
  | .groupPath name isDefault =>
    exception2.type.isGroupPath && isDefault = exception2.type.isDefault && name = exception2.type.name

/-- Whether the two may be merged, whatever the points. -/
def mergeable (exception exception2 : ExceptionPath) : Bool :=
  match exception.type with
  | .falsePath => stringEqualIf exception.comment exception2.comment && exception.overrides exception2
  | .loop | .filter => false
  | .pathDelay ignoreClkLatency delay =>
    stringEqualIf exception.comment exception2.comment && exception.overrides exception2 &&
      exception2.type.ignoreClkLatency = ignoreClkLatency && exception2.type.delay = delay &&
      exception.toPt.isNone && exception2.toPt.isNone
  | .multiCycle _ pathMultiplier =>
    stringEqualIf exception.comment exception2.comment && exception.overrides exception2 &&
      exception2.type.pathMultiplier = pathMultiplier
  | .groupPath name _ =>
    name = exception2.type.name && stringEqualIf exception.comment exception2.comment && exception.overrides exception2

/-- Two points that may be merged or are the same. The loop over the through points compares a point with itself. -/
def mergeableFrom (pt pt2 : Option ExceptionPt) (missing : Bool) : Bool :=
  match pt, pt2 with
  | none, none => true
  | some pt, some pt2 => pt.rf = pt2.rf && (missing || pt.equal pt2)
  | _, _ => false

def mergeableThrus (missing : Option Nat) : List ExceptionPt → List ExceptionPt → Nat → Bool
  | [], [], _ => true
  | thru :: thrus, thru2 :: thrus2, index =>
    thru.rf = thru2.rf && (missing = some index || thru.equal thru) && mergeableThrus missing thrus thrus2 (index + 1)
  | _, _, _ => false

def mergeableTo (pt pt2 : Option ExceptionTo) (missing : Bool) : Bool :=
  match pt, pt2 with
  | none, none => true
  | some pt, some pt2 => pt.rf = pt2.rf && pt.endRf = pt2.endRf && (missing || pt.equal pt2.toExceptionPt)
  | _, _ => false

/-- All points but the missing one of the second exception are the same. -/
def mergeablePts (exception exception2 : ExceptionPath) (missing : PtPos) : Bool :=
  mergeableFrom exception.fromPt exception2.fromPt (missing = .fromPt) &&
    mergeableThrus (match missing with | .thru index => some index | _ => none) exception.thrus exception2.thrus 0 &&
    mergeableTo exception.toPt exception2.toPt (missing = .toPt)

/-- The exception with the missing point of the other one merged into its own. -/
def mergePt (exception exception2 : ExceptionPath) : PtPos → ExceptionPath
  | .fromPt => { exception with
      fromPt := exception.fromPt.map fun pt => (exception2.fromPt.map fun pt2 => pt2.mergeInto pt).getD pt }
  | .thru index => { exception with
      thrus := exception.thrus.modify index fun pt =>
        (exception2.thrus[index]?.map fun pt2 => pt2.mergeInto pt).getD pt }
  | .toPt => { exception with
      toPt := exception.toPt.map fun pt =>
        (exception2.toPt.map fun pt2 => { pt with toExceptionPt := pt2.mergeInto pt.toExceptionPt }).getD pt }

end ExceptionPath
end Paths

section Tuples

/-- One object of a point with its transition; a point without objects stands for any. -/
structure TuplePt where
  object : Option SdcObject
  rf : RiseFallBoth

structure ExceptionTuple where
  type : ExceptionType
  minMax : MinMaxAll
  endRf : Option RiseFallBoth
  pts : PtPos → Option TuplePt

def ExceptionPt.NoObjects (pt : ExceptionPt) : Prop := ∀ object, ¬ pt.HasObject object

def ExceptionPt.Covers (pt : ExceptionPt) (tuple : TuplePt) : Prop :=
  tuple.rf = pt.rf ∧ match tuple.object with
    | some object => pt.HasObject object
    | none => pt.NoObjects

namespace ExceptionPath

/-- What a tuple may have at a place. -/
def options (exception : ExceptionPath) (pos : PtPos) : Set (Option TuplePt) :=
  { choice | Option.Rel ExceptionPt.Covers (exception.pt? pos) choice }

def covered (exception : ExceptionPath) : Set ExceptionTuple :=
  { tuple | tuple.type = exception.type ∧ tuple.minMax = exception.minMax ∧
    tuple.endRf = exception.toPt.map ExceptionTo.endRf ∧
    tuple.pts ∈ Set.univ.pi exception.options }

end ExceptionPath
end Tuples
end GTPower
