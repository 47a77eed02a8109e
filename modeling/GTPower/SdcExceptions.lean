import GTPower.ExceptionMerge
import Mathlib.Data.Finset.Union

/-! Adding, overriding, resetting and deleting exceptions, with the pins of path delays that are no clock pins, checks
or ports. -/
namespace GTPower

section Points

/-- The edges through hierarchical pins, nets and hierarchical instances. -/
structure ThruEdges where
  pin : Nat → Finset EdgePins
  net : Nat → Finset EdgePins
  inst : Nat → Finset EdgePins

def nonemptySet (set : Option (Finset Nat)) : Option (Finset Nat) := if setKeys set = ∅ then none else set

def setHash (factor : UInt64) (set : Option (Finset Nat)) : UInt64 := UInt64.ofNat (∑ id ∈ setKeys set, id) * factor

def makeExceptionFromTo (pins clks insts : Option (Finset Nat)) (rf : RiseFallBoth) : ExceptionPt where
  pins := nonemptySet pins
  clks := nonemptySet clks
  nets := none
  insts := nonemptySet insts
  edges := ∅
  rf := rf
  hash := setHash hashPin pins + setHash hashClk clks + setHash hashInst insts

def makeExceptionThru (edges : ThruEdges) (pins nets insts : Option (Finset Nat)) (rf : RiseFallBoth) :
    ExceptionPt where
  pins := nonemptySet pins
  clks := none
  nets := nonemptySet nets
  insts := nonemptySet insts
  edges := (setKeys pins).biUnion edges.pin ∪ (setKeys nets).biUnion edges.net ∪ (setKeys insts).biUnion edges.inst
  rf := rf
  hash := setHash hashPin pins + setHash hashNet nets + setHash hashInst insts + rf.index * 13

def deleteKeys (keys set : Option (Finset Nat)) : Option (Finset Nat) :=
  match keys, set with
  | some keys, some set => some (set \ keys)
  | _, _ => set

/-- The hash loses every key of the other set, also one that was not there. -/
def deletedHash (factor : UInt64) (keys set : Option (Finset Nat)) : UInt64 :=
  match keys, set with
  | some keys, some _ => UInt64.ofNat (∑ id ∈ keys, id) * factor
  | _, _ => 0

namespace ExceptionPt

def cloneFromTo (pt : ExceptionPt) : ExceptionPt := makeExceptionFromTo pt.pins pt.clks pt.insts pt.rf

def cloneThru (edges : ThruEdges) (pt : ExceptionPt) : ExceptionPt :=
  makeExceptionThru edges pt.pins pt.nets pt.insts pt.rf

def hasPins (pt : ExceptionPt) : Bool := setKeys pt.pins ≠ ∅
def hasClocks (pt : ExceptionPt) : Bool := setKeys pt.clks ≠ ∅
def hasInstances (pt : ExceptionPt) : Bool := setKeys pt.insts ≠ ∅
def hasObjects (pt : ExceptionPt) : Bool := pt.hasPins || pt.hasClocks || pt.hasInstances || setKeys pt.nets ≠ ∅

def deleteObjects (pt from2 : ExceptionPt) : ExceptionPt := { pt with
  pins := deleteKeys from2.pins pt.pins
  clks := deleteKeys from2.clks pt.clks
  nets := deleteKeys from2.nets pt.nets
  insts := deleteKeys from2.insts pt.insts
  edges := pt.edges \ from2.edges
  hash := pt.hash - deletedHash hashPin from2.pins pt.pins - deletedHash hashClk from2.clks pt.clks -
    deletedHash hashNet from2.nets pt.nets - deletedHash hashInst from2.insts pt.insts }

def deleteClock (pt : ExceptionPt) (clk : Nat) : ExceptionPt := { pt with
  clks := pt.clks.map fun clks => clks.erase clk
  hash := pt.hash - (pt.clks.map fun _ => UInt64.ofNat clk * hashClk).getD 0 }

def intersects (set set2 : Option (Finset Nat)) : Bool := setKeys set ∩ setKeys set2 ≠ ∅

def intersectsPts (pt pt2 : ExceptionPt) : Bool :=
  pt2.rf = pt.rf && (intersects pt.pins pt2.pins || intersects pt.clks pt2.clks || intersects pt.nets pt2.nets ||
    intersects pt.insts pt2.insts)

def expandFromTo (pt : ExceptionPt) : List ExceptionPt :=
  (setKeys pt.pins).sort.map (fun id => makeExceptionFromTo (some {id}) none none pt.rf) ++
    (setKeys pt.clks).sort.map (fun index => makeExceptionFromTo none (some {index}) none pt.rf) ++
    (setKeys pt.insts).sort.map fun id => makeExceptionFromTo none none (some {id}) pt.rf

def expandThru (edges : ThruEdges) (pt : ExceptionPt) : List ExceptionPt :=
  (setKeys pt.pins).sort.map (fun id => makeExceptionThru edges (some {id}) none none pt.rf) ++
    (setKeys pt.nets).sort.map (fun id => makeExceptionThru edges none (some {id}) none pt.rf) ++
    (setKeys pt.insts).sort.map fun id => makeExceptionThru edges none none (some {id}) pt.rf

end ExceptionPt

namespace ExceptionTo

def clone (pt : ExceptionTo) : ExceptionTo := { toExceptionPt := pt.cloneFromTo, endRf := pt.endRf }

def intersectsPts (pt pt2 : ExceptionTo) : Bool :=
  pt2.endRf = pt.endRf && pt.toExceptionPt.intersectsPts pt2.toExceptionPt

end ExceptionTo
end Points

section Paths

def fromThruToPriority (fromPt : Option ExceptionPt) (thrus : List ExceptionPt) (toPt : Option ExceptionTo) : Nat :=
  (if fromPt.any fun pt => pt.hasPins || pt.hasInstances then 64 else 0) +
    (if toPt.any fun pt => pt.hasPins || pt.hasInstances then 32 else 0) + (if thrus ≠ [] then 16 else 0) +
    (if fromPt.any ExceptionPt.hasClocks then 8 else 0) + if toPt.any fun pt => pt.hasClocks then 4 else 0

def ExceptionType.isForAll : ExceptionType → Bool
  | filter | loop | groupPath .. => true
  | _ => false

def ExceptionType.hasComment : ExceptionType → Bool
  | filter | loop => false
  | _ => true

/-- A loop path has no copy of its own but that of a false path. -/
def ExceptionType.copied : ExceptionType → ExceptionType
  | loop => falsePath
  | type => type

namespace ExceptionPath

/-- The constructors: filters, loop paths and path groups are for minimum and maximum, and filters and loop paths have
no comment. -/
def make (type : ExceptionType) (fromPt : Option ExceptionPt) (thrus : List ExceptionPt) (toPt : Option ExceptionTo)
    (minMax : MinMaxAll) (comment : Option (List Char)) : ExceptionPath where
  type := type
  fromPt := fromPt
  thrus := thrus
  toPt := toPt
  minMax := if type.isForAll then .all else minMax
  priority := type.typePriority + fromThruToPriority fromPt thrus toPt
  comment := if type.hasComment then comment else none

def clone (exception : ExceptionPath) (fromPt : Option ExceptionPt) (thrus : List ExceptionPt)
    (toPt : Option ExceptionTo) : ExceptionPath :=
  make exception.type.copied fromPt thrus toPt exception.minMax exception.comment

def intersectsThrus (thrus thrus2 : List ExceptionPt) : Bool :=
  (thrus.zip thrus2).all fun pts => pts.1.intersectsPts pts.2

def intersectsFrom (pt pt2 : Option ExceptionPt) : Bool :=
  match pt, pt2 with
  | none, none => true
  | some pt, some pt2 => pt.intersectsPts pt2
  | _, _ => false

def intersectsTo (pt pt2 : Option ExceptionTo) : Bool :=
  match pt, pt2 with
  | none, none => true
  | some pt, some pt2 => pt.intersectsPts pt2
  | _, _ => false

def intersectsPts (exception exception2 : ExceptionPath) : Bool :=
  intersectsFrom exception.fromPt exception2.fromPt && exception.thrus.length = exception2.thrus.length &&
    intersectsTo exception.toPt exception2.toPt && intersectsThrus exception.thrus exception2.thrus

/-- Only the points that are reset need to match. -/
def resetMatch (exception : ExceptionPath) (fromPt : Option ExceptionPt) (thrus : List ExceptionPt)
    (toPt : Option ExceptionTo) (minMax : MinMaxAll) : Bool :=
  exception.type ≠ .filter && (fromPt.isSome || thrus ≠ [] || toPt.isSome) &&
    (fromPt.all fun pt => exception.fromPt.any fun pt1 => pt1.intersectsPts pt) &&
    (thrus = [] || exception.thrus ≠ [] && intersectsThrus exception.thrus thrus) &&
    (toPt.all fun pt => exception.toPt.any fun pt1 => pt1.intersectsPts pt) &&
      (minMax = .all || exception.minMax = minMax)

/-- The iterator over the through points is shared: it is at its end when the first object was expanded. The result has
the expansions of the points that are left and what is then left. -/
def expandThrus (edges : ThruEdges) : Nat → List ExceptionPt → List ExceptionPt →
    List (List ExceptionPt) × List ExceptionPt
  | 0, left, expanded => ([expanded], left)
  | _ + 1, [], expanded => ([expanded], [])
  | fuel + 1, thru :: left, expanded =>
    (thru.expandThru edges).foldl (fun found single =>
      let more := expandThrus edges fuel found.2 (expanded ++ [single])
      (found.1 ++ more.1, more.2)) ([], left)

def expandException (edges : ThruEdges) (exception : ExceptionPath) : List ExceptionPath :=
  let fromPts := (exception.fromPt.map fun pt => pt.expandFromTo.map some).getD [none]
  let toPts := (exception.toPt.map fun pt => pt.expandFromTo.map fun single =>
    some { toExceptionPt := single, endRf := pt.endRf }).getD [none]
  fromPts.flatMap fun fromPt => (expandThrus edges exception.thrus.length exception.thrus []).1.flatMap fun thrus =>
    toPts.map fun toPt => exception.clone fromPt thrus toPt

/-- Copies of the exception without the objects of the other one, at one point each. In the copy without those of a
through point the other through points are copies of it, too. -/
def expandExceptionExcluding (edges : ThruEdges) (exception excluding : ExceptionPath) : List ExceptionPath :=
  let thrusCpy := exception.thrus.map (ExceptionPt.cloneThru edges)
  let toCpy := exception.toPt.map ExceptionTo.clone
  let fromCpy := exception.fromPt.map ExceptionPt.cloneFromTo
  let froms := match fromCpy, excluding.fromPt with
    | some pt, some pt2 =>
      let left := pt.deleteObjects pt2
      if left.hasObjects then [exception.clone (some left) thrusCpy toCpy] else []
    | _, _ => []
  let thrus := (exception.thrus.zip excluding.thrus).zipIdx.flatMap fun ((thru, thru2), index) =>
    let left := (thru.cloneThru edges).deleteObjects thru2
    if left.hasObjects then
      [exception.clone fromCpy ((List.replicate exception.thrus.length (thru.cloneThru edges)).set index left) toCpy]
    else []
  let tos := match toCpy, excluding.toPt with
    | some pt, some pt2 =>
      let left := pt.toExceptionPt.deleteObjects pt2.toExceptionPt
      if left.hasObjects then [exception.clone fromCpy thrusCpy (some { pt with toExceptionPt := left })] else []
    | _, _ => []
  froms ++ thrus ++ tos

end ExceptionPath
end Paths

section Lookups

def leastAddress (addresses : Finset Nat) : Option Nat :=
  if filled : addresses.Nonempty then some (addresses.min' filled) else none

namespace Sdc

def deleteException (st : Sdc) (address : Nat) (exception : ExceptionPath) : Sdc :=
  let st := st.unrecordException address exception
  { st with paths := Function.update st.paths address none }

def overridden (st : Sdc) (exception : ExceptionPath) (potential : Finset Nat) : Option (Finset Nat) :=
  if ∀ address ∈ potential, (st.paths address).isSome then
    some (potential.filter fun address => (st.paths address).any fun match' =>
      match'.overrides exception && match'.intersectsPts exception)
  else none

/-- The exceptions at a net of a first through point may have the net at a later point, and then no set of nets at the
first one. -/
def overriddenNet (st : Sdc) (exception : ExceptionPath) (net : Nat) : Option (Finset Nat) :=
  let potential := st.firstThru (.net net)
  if ∀ address ∈ potential, (st.paths address).any fun match' => match'.thrus.head?.any fun thru =>
    thru.nets.isSome then
    some (potential.filter fun address => (st.paths address).any fun match' =>
      (match'.thrus.head?.any fun thru => thru.HasObject (.net net)) && match'.overrides exception &&
        match'.intersectsPts exception)
  else none

def atObjects (map : SdcObject → Finset Nat) (pt : ExceptionPt) : Finset Nat :=
  (setKeys pt.pins).biUnion (fun id => map (.pin id)) ∪ (setKeys pt.insts).biUnion (fun id => map (.inst id)) ∪
    (setKeys pt.clks).biUnion fun index => map (.clk index)

def findMatchingExceptions (st : Sdc) (exception : ExceptionPath) : Option (Finset Nat) :=
  match exception.fromPt, exception.thrus, exception.toPt with
  | some pt, _, _ => st.overridden exception (atObjects st.firstFrom pt)
  | none, thru :: _, _ => do
    let matches' ← st.overridden exception (atObjects st.firstThru thru)
    (setKeys thru.nets).sort.foldlM (fun matches' net => (st.overriddenNet exception net).map (matches' ∪ ·)) matches'
  | none, [], some pt => st.overridden exception (atObjects st.firstTo pt.toExceptionPt)
  | none, [], none => some ∅

def deleteMatches (st : Sdc) (matches' : Finset Nat) : Option Sdc :=
  matches'.sort.foldlM (fun st address => (st.paths address).map (st.deleteException address)) st

def clockDeleted (clk : Nat) (pt : ExceptionPt) : Option ExceptionPt :=
  if clk ∈ setKeys pt.clks then some (pt.deleteClock clk) else none

/-- The exception with a changed point is recorded again, or deleted if the point has no objects left. -/
def rerecord (st : Sdc) (address : Nat) (exception changed : ExceptionPath) (pt : ExceptionPt) :
    Sdc × Option ExceptionPath :=
  let st := st.unrecordException address exception
  if pt.hasObjects then (st.recordException address changed, some changed)
  else (({ st with paths := Function.update st.paths address (some changed) }).deleteException address changed, none)

def deleteClockTo (st : Sdc) (clk address : Nat) (exception : ExceptionPath) : Sdc :=
  match exception.toPt, exception.toPt.bind fun pt => clockDeleted clk pt.toExceptionPt with
  | some toPt, some pt => (st.rerecord address exception { exception with
    toPt := some { toPt with toExceptionPt := pt } } pt).1
  | _, _ => st

def deleteClock (st : Sdc) (clk address : Nat) (exception : ExceptionPath) : Sdc :=
  match exception.fromPt.bind (clockDeleted clk) with
  | none => st.deleteClockTo clk address exception
  | some pt =>
    match st.rerecord address exception { exception with fromPt := some pt } pt with
    | (st, none) => st
    | (st, some exception) => st.deleteClockTo clk address exception

end Sdc
end Lookups

section Source

/-- What the source leaves open: the address of a new exception and the order of new exceptions in a set. -/
structure Allocator where
  address : Sdc → Nat
  fresh : ∀ st, address st ∉ st.exceptions
  order : Sdc → List ExceptionPath → List ExceptionPath
  perm : ∀ st exceptions, (order st exceptions).Perm exceptions

structure ResetRequest where
  fromPt : Option ExceptionPt
  thrus : List ExceptionPt
  toPt : Option ExceptionTo
  minMax : MinMaxAll

def ExceptionPath.Resets (exception : ExceptionPath) (request : ResetRequest) : Bool :=
  exception.resetMatch request.fromPt request.thrus request.toPt request.minMax

/-- Why a run has no result: a deleted exception or a missing set is used, or a recursion or a loop does not end in the
given rounds. -/
inductive SdcFault where
  | missing
  | rounds
deriving DecidableEq

def lookUp {α : Type} : Option α → Except SdcFault α
  | some found => .ok found
  | none => .error .missing

namespace PathDelays

structure Network where
  isRegClkPin : Nat → Bool
  hasLibertyCheckTo : Nat → Bool
  isTopLevelPort : Nat → Bool

def Network.internalStartpoint (network : Network) (pin : Nat) : Bool :=
  !(network.isRegClkPin pin || network.isTopLevelPort pin)

def Network.internalEndpoint (network : Network) (pin : Nat) : Bool :=
  !(network.hasLibertyCheckTo pin || network.isTopLevelPort pin)

/-- Besides the exceptions, the pins that have a set of first from or to exceptions, and the internal pins of path
delays. The sets stay when they are empty. -/
structure State where
  sdc : Sdc
  firstFromPins : Finset Nat
  firstToPins : Finset Nat
  internalStartpoints : Finset Nat
  internalEndpoints : Finset Nat

variable (alloc : Allocator) (edges : ThruEdges) (network : Network)

namespace State

def init : State := ⟨.init, ∅, ∅, ∅, ∅⟩

/-- A deleted exception cannot be read. -/
def anyPathDelay (paths : Nat → Option ExceptionPath) : List Nat → Option Bool
  | [] => some false
  | address :: rest => (paths address).bind fun exception => if exception.type.isPathDelay then some true
    else anyPathDelay paths rest

def pathDelayFrom (st : State) (pin : Nat) : Option Bool :=
  if pin ∈ st.firstFromPins then anyPathDelay st.sdc.paths (st.sdc.firstFrom (.pin pin)).sort else none

def pathDelayTo (st : State) (pin : Nat) : Option Bool :=
  if pin ∈ st.firstToPins then anyPathDelay st.sdc.paths (st.sdc.firstTo (.pin pin)).sort else none

def recordPathDelayInternalStartpoints (st : State) (exception : ExceptionPath) : State :=
  match exception.fromPt with
  | some pt => { st with
      internalStartpoints := st.internalStartpoints ∪
        (setKeys pt.pins).filter fun pin => network.internalStartpoint pin }
  | none => st

def recordPathDelayInternalEndpoints (st : State) (exception : ExceptionPath) : State :=
  match exception.toPt with
  | some pt => { st with
      internalEndpoints := st.internalEndpoints ∪
        (setKeys pt.pins).filter fun pin => network.internalEndpoint pin }
  | none => st

def unrecordStartpoint (st : State) (pin : Nat) : Option State :=
  if network.internalStartpoint pin then (st.pathDelayFrom pin).map fun isDelay =>
    if isDelay then st else { st with internalStartpoints := st.internalStartpoints.erase pin }
  else some st

def unrecordEndpoint (st : State) (pin : Nat) : Option State :=
  if network.internalEndpoint pin then (st.pathDelayTo pin).map fun isDelay =>
    if isDelay then st else { st with internalEndpoints := st.internalEndpoints.erase pin }
  else some st

def unrecordPathDelayInternalStartpoints (st : State) (fromPt : Option ExceptionPt) : Option State :=
  match fromPt with
  | some pt =>
    if pt.hasPins && st.internalStartpoints ≠ ∅ then (setKeys pt.pins).sort.foldlM (unrecordStartpoint network) st
      else some st
  | none => some st

def unrecordPathDelayInternalEndpoints (st : State) (exception : ExceptionPath) : Option State :=
  match exception.toPt with
  | some pt =>
    if pt.hasPins && st.internalEndpoints ≠ ∅ then (setKeys pt.pins).sort.foldlM (unrecordEndpoint network) st
      else some st
  | none => some st

/-- Pins of the first point get a set. Those of recorded exceptions have one. -/
def recordFirstPins (st : State) (exception : ExceptionPath) : State :=
  match exception.fromPt, exception.thrus, exception.toPt with
  | some pt, _, _ => { st with firstFromPins := st.firstFromPins ∪ setKeys pt.pins }
  | none, [], some pt => { st with firstToPins := st.firstToPins ∪ setKeys pt.pins }
  | _, _, _ => st

/-- Nothing is recorded before the matches are deleted. -/
def deleteMatchingExceptions (add : ExceptionPath → State → Except SdcFault State) (st : State)
    (exception : ExceptionPath) :
    Except SdcFault State := do
  let matches' ← lookUp (st.sdc.findMatchingExceptions exception)
  let expanded := matches'.sort.filterMap st.sdc.paths |>.flatMap fun match' =>
    match'.expandExceptionExcluding edges exception
  let sdc ← lookUp (st.sdc.deleteMatches matches')
  (alloc.order sdc expanded).foldlM (fun st exception => add exception st) { st with sdc := sdc }

def addException2 (add : ExceptionPath → State → Except SdcFault State) (exception : ExceptionPath) (st : State) :
    Except SdcFault State := do
  let st ←
    if exception.type.isMultiCycle || exception.type.isPathDelay then
      st.deleteMatchingExceptions alloc edges add exception
    else .ok st
  let sdc ← lookUp ((st.sdc.recordException (alloc.address st.sdc) exception).mergeException (alloc.address st.sdc))
  return { st.recordFirstPins exception with sdc := sdc }

/-- A -to with both pins or instances and clocks is split. -/
def addException1 (add : ExceptionPath → State → Except SdcFault State) (exception : ExceptionPath) (st : State) :
    Except SdcFault State :=
  match exception.toPt with
  | none => addException2 alloc edges add exception st
  | some pt =>
    if (pt.hasPins || pt.hasInstances) && pt.hasClocks then do
      let fromCpy := exception.fromPt.map ExceptionPt.cloneFromTo
      let thrusCpy := exception.thrus.map (ExceptionPt.cloneThru edges)
      let st ← addException2 alloc edges add (exception.clone fromCpy thrusCpy
        (some ⟨makeExceptionFromTo pt.pins none pt.insts pt.rf, pt.endRf⟩)) st
      addException2 alloc edges add (exception.clone fromCpy thrusCpy
        (some ⟨makeExceptionFromTo none pt.clks none pt.rf, pt.endRf⟩)) st
    else addException2 alloc edges add exception st

def recordPathDelay (st : State) (exception : ExceptionPath) : State :=
  if exception.type.isPathDelay then
    (st.recordPathDelayInternalStartpoints network exception).recordPathDelayInternalEndpoints network exception
  else st

/-- A -from with both pins or instances and clocks is split. -/
def addException : Nat → ExceptionPath → State → Except SdcFault State
  | 0, _, _ => .error .rounds
  | fuel + 1, exception, st =>
    let st := st.recordPathDelay network exception
    match exception.fromPt with
    | none => addException1 alloc edges (addException fuel) exception st
    | some pt =>
      if (pt.hasPins || pt.hasInstances) && pt.hasClocks && exception.type ≠ .filter then do
        let thrusCpy := exception.thrus.map (ExceptionPt.cloneThru edges)
        let toCpy := exception.toPt.map ExceptionTo.clone
        let st ← addException1 alloc edges (addException fuel) (exception.clone
          (some (makeExceptionFromTo pt.pins none pt.insts pt.rf)) thrusCpy toCpy) st
        addException1 alloc edges (addException fuel) (exception.clone
          (some (makeExceptionFromTo none pt.clks none pt.rf)) thrusCpy toCpy) st
      else addException1 alloc edges (addException fuel) exception st

def next (st : State) (address : Nat) : Option Nat := leastAddress (st.sdc.exceptions.filter (address < ·))

/-- A loop over the recorded exceptions. The iterator is moved before the body, and it is lost if the exception it is at
is erased. -/
def forExceptions (body : Nat → ExceptionPath → State → Except SdcFault State) : Nat → Option Nat → State →
    Except SdcFault State
  | _, none, st => .ok st
  | 0, some _, _ => .error .rounds
  | rounds + 1, some address, st =>
    if address ∈ st.sdc.exceptions then do
      let exception ← lookUp (st.sdc.paths address)
      forExceptions body rounds (st.next address) (← body address exception st)
    else .error .missing

variable (fuel : Nat) (request : ResetRequest)

/-- An expansion that is reset is deleted, any other one is added. -/
def resetExpansion (st : State) (expand : ExceptionPath) : Except SdcFault State :=
  if expand.Resets request then do
    let st ← lookUp (st.unrecordPathDelayInternalStartpoints network expand.fromPt)
    lookUp (st.unrecordPathDelayInternalEndpoints network expand)
  else addException alloc edges network fuel expand st

def resetException (address : Nat) (match' : ExceptionPath) (st : State) : Except SdcFault State :=
  if match'.Resets request then
    let st := { st with sdc := st.sdc.deleteException address match' }
    (alloc.order st.sdc (match'.expandException edges)).foldlM (resetExpansion alloc edges network fuel request) st
  else .ok st

def resetPath (rounds : Nat) (st : State) : Except SdcFault State :=
  forExceptions (resetException alloc edges network fuel request) rounds (leastAddress st.sdc.exceptions) st

def deleteExceptionsReferencing (rounds clk : Nat) (st : State) : Except SdcFault State :=
  forExceptions (fun address exception st => .ok { st with sdc := st.sdc.deleteClock clk address exception }) rounds
    (leastAddress st.sdc.exceptions) st

def deleteLoopExceptions (rounds : Nat) (st : State) : Except SdcFault State :=
  forExceptions (fun address exception st => .ok { st with
    sdc := if exception.type = .loop then st.sdc.deleteException address exception else st.sdc }) rounds
      (leastAddress st.sdc.exceptions) st

end State
end PathDelays

inductive SdcCall where
  | addException (type : ExceptionType) (fromPt : Option ExceptionPt) (thrus : List ExceptionPt)
    (toPt : Option ExceptionTo)
    (minMax : MinMaxAll) (comment : Option (List Char))
  | resetPath (request : ResetRequest)
  | deleteExceptionsReferencing (clk : Nat)
  | deleteLoopExceptions

def SdcCall.run (alloc : Allocator) (edges : ThruEdges) (network : PathDelays.Network) (fuel : Nat)
    (st : PathDelays.State) :
    SdcCall → Except SdcFault PathDelays.State
  | .addException type fromPt thrus toPt minMax comment =>
    st.addException alloc edges network fuel (.make type fromPt thrus toPt minMax comment)
  | .resetPath request => st.resetPath alloc edges network fuel request fuel
  | .deleteExceptionsReferencing clk => st.deleteExceptionsReferencing fuel clk
  | .deleteLoopExceptions => st.deleteLoopExceptions fuel

/-- Calls one after another from no exceptions. -/
def runSdc (alloc : Allocator) (edges : ThruEdges) (network : PathDelays.Network) (fuel : Nat) (calls : List SdcCall) :
    Except SdcFault PathDelays.State :=
  calls.foldlM (SdcCall.run alloc edges network fuel) .init

end Source
end GTPower
