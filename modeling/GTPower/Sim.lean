import GTPower.FuncExpr
import Mathlib.Data.List.Basic
import Mathlib.Data.List.Sublists

/-! Propagation of constants through a netlist. Sets are lists in the order in which the source visits them; a driver
and a load vertex of one bidirectional pin always get the same value and are one vertex here. Annotation of edges is
left out. -/
namespace GTPower

section Values
variable {ρ : Type*}

def LogicValue.zeroOne : LogicValue → Option Bool
  | .zero => some false
  | .one => some true
  | _ => none

namespace FuncExpr

def constValue : FuncExpr ρ → Option Bool
  | .zero => some false
  | .one => some true
  | _ => none

variable [DecidableEq ρ]

/-- The ports that are not known take the value one exactly in `ones`. -/
def substitute (known : ρ → Option Bool) (ones : List ρ) (r : ρ) : Bool := (known r).getD (decide (r ∈ ones))

/-- The function with the known ports substituted is the constant `bit`. -/
def isConstant (known : ρ → Option Bool) (expr : FuncExpr ρ) (bit : Bool) : Bool :=
  expr.ports.sublists.all fun ones => expr.eval (substitute known ones) == bit

theorem eval_of_isConstant {known : ρ → Option Bool} {expr : FuncExpr ρ} {bit : Bool} {env : ρ → Bool}
    (constant : expr.isConstant known bit = true) (agree : ∀ r b, known r = some b → env r = b) :
    expr.eval env = bit := by
  have mem : expr.ports.filter env ∈ expr.ports.sublists := List.mem_sublists.2 List.filter_sublist
  have value := List.all_eq_true.1 constant _ mem
  have same : ∀ r ∈ expr.ports, env r = substitute known (expr.ports.filter env) r := by
    intro r mem
    cases found : known r with
    | none => cases value : env r <;> simp [substitute,found,mem,value]
    | some b => simp [substitute,found,agree r b found]
  rw [eval_congr expr same]
  exact eq_of_beq value

end FuncExpr
end Values

namespace Sim
variable {π ι ρ : Type*}

def logicValueZeroOne (value : LogicValue) : Bool := value = .zero || value = .one

theorem logicValueZeroOne_of_zeroOne {value : LogicValue} {bit : Bool} (known : value.zeroOne = some bit) :
    logicValueZeroOne value = true := by
  cases value <;> simp_all [LogicValue.zeroOne,logicValueZeroOne]

/-- The netlist as the propagation reads it. The pins of an instance are the pins that belong to it; `connected` lists
the pins of the nets that a pin joins through the hierarchy, and `tied` is the value of a power or ground net. -/
structure Netlist (π ι ρ : Type*) where
  inst : π → ι
  pins : ι → List π
  mem_pins : ∀ pin i, pin ∈ pins i ↔ inst pin = i
  leafInsts : List ι
  isLeaf : ι → Bool
  isTop : ι → Bool
  direction : π → PortDirection
  libertyPort : π → Option ρ
  cellPorts : ι → List ρ
  findPin : ι → ρ → Option π
  portDirection : ρ → PortDirection
  function : ρ → Option (FuncExpr ρ)
  tristateEnable : ρ → Option (FuncExpr ρ)
  isClockGateOut : ρ → Bool
  isClockGateClock : ρ → Bool
  isClockGateEnable : ρ → Bool
  hasVertex : π → Bool
  connected : π → List π
  drivers : π → List π
  isInside : π → π → Bool
  tied : π → Option LogicValue
  constantPins : List (π × LogicValue)

namespace Netlist

variable (nl : Netlist π ι ρ)

def isHierarchical (pin : π) : Bool := !nl.isLeaf (nl.inst pin) && !nl.isTop (nl.inst pin)

def isDriver (pin : π) : Bool :=
  (nl.isLeaf (nl.inst pin) && (nl.direction pin).isAnyOutput) ||
    (nl.isTop (nl.inst pin) && (nl.direction pin).isAnyInput)

def isLoad (pin : π) : Bool :=
  (nl.isLeaf (nl.inst pin) && (nl.direction pin).isAnyInput) ||
    (nl.isTop (nl.inst pin) && (nl.direction pin).isAnyOutput)
    || (nl.direction pin).isUnknown

/-- A leaf pin that takes values from its net. -/
def isLeafInput (pin : π) : Bool := nl.isLeaf (nl.inst pin) && (nl.direction pin).isAnyInput

/-- The value of a port whose function is a constant; a tristate output is not forced. -/
def constFunc (pin : π) : Option Bool :=
  (nl.libertyPort pin).bind fun port =>
    if (nl.tristateEnable port).isNone then (nl.function port).bind FuncExpr.constValue else none

end Netlist

/-- A map from pins to values: each pin has at most one entry. -/
structure LogicValueMap (π : Type*) where
  entries : List (π × LogicValue)
  nodup : (entries.map Prod.fst).Nodup

structure Sdc (π : Type*) where
  logicValues : LogicValueMap π
  caseLogicValues : LogicValueMap π

section Constraints

variable [DecidableEq π]

def LogicValueMap.findKey (map : LogicValueMap π) (pin : π) : Option LogicValue :=
  (map.entries.find? fun entry => entry.1 = pin).map Prod.snd

theorem LogicValueMap.findKey_of_mem (map : LogicValueMap π) {pin : π} {value : LogicValue}
    (mem : (pin, value) ∈ map.entries) :
    map.findKey pin = some value := by
  cases found : map.entries.find? fun entry => entry.1 = pin with
  | none =>
    have := List.find?_eq_none.1 found _ mem
    simp at this
  | some entry =>
    have key : entry.1 = pin := by simpa using List.find?_some found
    have same := List.inj_on_of_nodup_map map.nodup (List.mem_of_find?_eq_some found) mem key
    simp [findKey,found,same]

/-- A value of case analysis wins over a logic value. -/
def Sdc.constraintValue (sdc : Sdc π) (pin : π) : Option LogicValue :=
  match sdc.caseLogicValues.findKey pin with
  | some value => some value
  | none => sdc.logicValues.findKey pin

theorem Sdc.constraintValue_case (sdc : Sdc π) {pin : π} {value : LogicValue}
    (mem : (pin, value) ∈ sdc.caseLogicValues.entries) :
    sdc.constraintValue pin = some value := by
  simp [constraintValue,sdc.caseLogicValues.findKey_of_mem mem]

theorem Sdc.constraintValue_logic (sdc : Sdc π) {pin : π} {value : LogicValue}
    (mem : (pin, value) ∈ sdc.logicValues.entries) :
    sdc.constraintValue pin = some value ∨ ∃ case, (pin, case) ∈ sdc.caseLogicValues.entries := by
  cases found : sdc.caseLogicValues.entries.find? fun entry => entry.1 = pin with
  | none =>
    left
    have none : sdc.caseLogicValues.findKey pin = none := by simp [LogicValueMap.findKey,found]
    simp [constraintValue,none,sdc.logicValues.findKey_of_mem mem]
  | some entry =>
    right
    have key : entry.1 = pin := by simpa using List.find?_some found
    exact ⟨entry.2, key ▸ List.mem_of_find?_eq_some found⟩

end Constraints

structure State (π ι : Type*) where
  simValue : π → LogicValue
  instancesWithConstPins : List ι
  evalQueue : List ι
  constFuncPins : List π
  constFuncPinsValid : Bool
  invalidInsts : List ι
  invalidDrvrPins : List π
  invalidLoadPins : List π
  valid : Bool
  incremental : Bool

section Propagation

variable [DecidableEq π] [DecidableEq ι] [DecidableEq ρ] (nl : Netlist π ι ρ) (sdc : Sdc π)

def State.initial : State π ι where
  simValue := fun _ => .unknown
  instancesWithConstPins := []
  evalQueue := []
  constFuncPins := []
  constFuncPinsValid := false
  invalidInsts := []
  invalidDrvrPins := []
  invalidLoadPins := []
  valid := false
  incremental := false

def setSimValue (st : State π ι) (pin : π) (value : LogicValue) : State π ι :=
  { st with simValue := fun other => if other = pin then value else st.simValue other }

/-- An instance gets a mark once a pin of it is constant. -/
def recordConst (st : State π ι) (i : ι) (value : LogicValue) : State π ι :=
  if logicValueZeroOne value then { st with instancesWithConstPins := st.instancesWithConstPins.insert i } else st

/-- The last instance of the queue is not queued again. -/
def enqueue (st : State π ι) (i : ι) : State π ι :=
  if st.evalQueue.getLast? = some i then st else { st with evalQueue := st.evalQueue ++ [i] }

/-- Sets a pin unless a constraint says otherwise. A driver that changes sets its loads. -/
def setPinValue : Nat → State π ι → π → LogicValue → Option (State π ι)
  | 0, _, _, _ => none
  | fuel + 1, st, pin, value =>
    if (sdc.constraintValue pin).any (· ≠ value) then some st
    else if nl.hasVertex pin && st.simValue pin ≠ value then
      let st := recordConst (setSimValue st pin value) (nl.inst pin) value
      if nl.isLeafInput pin then some (enqueue st (nl.inst pin))
      else if nl.isDriver pin then
        (nl.connected pin).foldlM
          (fun st pin1 => if pin1 ≠ pin ∧ nl.isLoad pin1 then setPinValue fuel st pin1 value else some st) st
      else some st
    else some st

/-- The values of the ports of an instance that are known. -/
def known (st : State π ι) (i : ι) (port : ρ) : Option Bool :=
  (nl.pins i).findSome? fun pin => if nl.libertyPort pin = some port then (st.simValue pin).zeroOne else none

def evalExpr (st : State π ι) (expr : FuncExpr ρ) (i : ι) : LogicValue :=
  if expr.isConstant (known nl st i) false then .zero
  else if expr.isConstant (known nl st i) true then .one
  else .unknown

/-- Whether a pin of a clock or an enable of the clock gate is zero. -/
def clockGateOff (st : State π ι) (i : ι) : Bool :=
  (nl.cellPorts i).any fun port =>
    (nl.isClockGateClock port || nl.isClockGateEnable port) && (nl.findPin i port).any fun pin =>
      st.simValue pin = .zero

def clockGateOutValue (st : State π ι) (i : ι) : LogicValue := if clockGateOff nl st i then .zero else .unknown

/-- The value of an output of an instance; registers are not looked through. -/
def outputValue (st : State π ι) (port : ρ) (i : ι) : LogicValue :=
  match nl.function port with
  | some expr =>
    match nl.tristateEnable port with
    | some triEnExpr => if evalExpr nl st triEnExpr i = .one then evalExpr nl st expr i else .unknown
    | none => evalExpr nl st expr i
  | none => if nl.isClockGateOut port then clockGateOutValue nl st i else .unknown

def evalPin (fuel : Nat) (i : ι) (st : State π ι) (pin : π) : Option (State π ι) :=
  match nl.libertyPort pin with
  | some port =>
    if (nl.portDirection port).isAnyOutput ∧ outputValue nl st port i ≠ st.simValue pin then
      setPinValue nl sdc fuel st pin (outputValue nl st port i)
    else some st
  | none => some st

def evalInstance (fuel : Nat) (st : State π ι) (i : ι) : Option (State π ι) :=
  (nl.pins i).foldlM (evalPin nl sdc fuel i) st

def propagateConstants : Nat → State π ι → Option (State π ι)
  | 0, _ => none
  | fuel + 1, st =>
    match st.evalQueue with
    | [] => some st
    | i :: rest => (evalInstance nl sdc fuel { st with evalQueue := rest } i).bind (propagateConstants fuel)

/-- Constants of nets that are tied high or low. -/
def enqueueConstantPinInputs (fuel : Nat) (st : State π ι) : Option (State π ι) :=
  nl.constantPins.foldlM (fun st entry => setPinValue nl sdc fuel st entry.1 entry.2) st

/-- The leaf inputs that a value of a hierarchical pin reaches: inside of an input, outside of an output. -/
def constraintReaches (pin pin1 : π) : Bool :=
  nl.isLeafInput pin1 && (if (nl.direction pin).isAnyOutput then !nl.isInside pin1 pin else nl.isInside pin1 pin)

def setConstraintConstPin (fuel : Nat) (st : State π ι) (entry : π × LogicValue) : Option (State π ι) :=
  if nl.isHierarchical entry.1 then
    (nl.connected entry.1).foldlM
      (fun st pin1 => if constraintReaches nl entry.1 pin1 then setPinValue nl sdc fuel st pin1 entry.2 else some st) st
  else setPinValue nl sdc fuel st entry.1 entry.2

def setConstraintConstPins (fuel : Nat) (st : State π ι) (map : LogicValueMap π) : Option (State π ι) :=
  map.entries.foldlM (setConstraintConstPin nl sdc fuel) st

def pinConstFuncValue (pin : π) : LogicValue :=
  match (nl.libertyPort pin).bind fun port => (nl.function port).bind FuncExpr.constValue with
  | some true => .one
  | some false => .zero
  | none => .unknown

def setConstFuncPins (fuel : Nat) (st : State π ι) : Option (State π ι) :=
  st.constFuncPins.foldlM (fun st pin => setPinValue nl sdc fuel st pin (pinConstFuncValue nl pin)) st

def seedConstants (fuel : Nat) (st : State π ι) : Option (State π ι) := do
  let st ← enqueueConstantPinInputs nl sdc fuel st
  let st ← setConstraintConstPins nl sdc fuel st sdc.logicValues
  let st ← setConstraintConstPins nl sdc fuel st sdc.caseLogicValues
  setConstFuncPins nl sdc fuel st

def recordConstPinFunc (st : State π ι) (pin : π) : State π ι :=
  if (nl.constFunc pin).isSome then { st with constFuncPins := st.constFuncPins.insert pin } else st

def ensureConstantFuncPins (st : State π ι) : State π ι :=
  if st.constFuncPinsValid then st
  else { (nl.leafInsts.flatMap nl.pins).foldl (recordConstPinFunc nl) st with constFuncPinsValid := true }

/-- Every pin of a marked instance becomes unknown. -/
def clearSimValues (st : State π ι) : State π ι :=
  { st with
    simValue := fun pin => if nl.inst pin ∈ st.instancesWithConstPins then .unknown else st.simValue pin
    instancesWithConstPins := [] }

/-- The vertex of a pin, or that of the driver of a hierarchical pin. -/
def logicValue (st : State π ι) (pin : π) : LogicValue :=
  if nl.hasVertex pin then st.simValue pin
  else if nl.isHierarchical pin then ((nl.drivers pin).head?.map st.simValue).getD .unknown
  else .unknown

def propagateToInvalidLoads (fuel : Nat) (st : State π ι) : Option (State π ι) := do
  let st ← st.invalidLoadPins.foldlM (fun st loadPin =>
    match nl.tied loadPin, (nl.drivers loadPin).head? with
    | some value, _ => setPinValue nl sdc fuel st loadPin value
    | none, some drvrPin => setPinValue nl sdc fuel st loadPin (logicValue nl st drvrPin)
    | none, none => some st) st
  some { st with invalidLoadPins := [] }

def propagateFromInvalidDrvrsToLoads (fuel : Nat) (st : State π ι) : Option (State π ι) := do
  let st ← st.invalidDrvrPins.foldlM (fun st drvrPin =>
    let value := if drvrPin ∈ st.constFuncPins then pinConstFuncValue nl drvrPin else logicValue nl st drvrPin
    (nl.connected drvrPin).foldlM
      (fun st loadPin => if loadPin ≠ drvrPin ∧ nl.isLoad loadPin then setPinValue nl sdc fuel st loadPin value
        else some st)
      st) st
  some { st with invalidDrvrPins := [] }

def seedFull (fuel : Nat) (st : State π ι) : Option (State π ι) := seedConstants nl sdc fuel (clearSimValues nl st)

def seedIncremental (fuel : Nat) (st : State π ι) : Option (State π ι) := do
  let st ← propagateToInvalidLoads nl sdc fuel { st with evalQueue := st.evalQueue ++ st.invalidInsts }
  propagateFromInvalidDrvrsToLoads nl sdc fuel st

def ensureConstantsPropagated (fuel : Nat) (st : State π ι) : Option (State π ι) :=
  if st.valid then some st
  else do
    let st := ensureConstantFuncPins nl st
    let st ← if st.incremental then seedIncremental nl sdc fuel st else seedFull nl sdc fuel st
    let st ← propagateConstants nl sdc fuel { st with invalidInsts := [] }
    some { st with valid := true, incremental := true }

def constantsInvalid (st : State π ι) : State π ι := { st with valid := false, incremental := false }

end Propagation
end Sim
end GTPower
