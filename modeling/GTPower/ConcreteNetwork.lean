import GTPower.FuncExpr
import GTPower.LinkedLists
import Mathlib.Data.Finset.Basic

/-! The netlist and the edits of it. Objects are addressed by numbers that are never used again; reading a deleted
object is undefined, which is `none` here, as is a loop over a list that does not end. -/
namespace GTPower

/-- A port with members has no pin index. -/
structure ConcretePort where
  name : String
  pinIndex : Option ℕ
  direction : PortDirection
  deriving DecidableEq

structure ConcreteCell where
  ports : List ConcretePort
  portBitCount : ℕ
  isLeaf : Bool

def ConcreteCell.findPort (cell : ConcreteCell) (name : String) : Option ConcretePort :=
  cell.ports.find? (·.name = name)

structure ConcreteInstance where
  cell : ConcreteCell
  pins : List (Option ℕ)

structure ConcretePin where
  inst : ℕ
  port : ConcretePort
  net : Option ℕ
  term : Option ℕ
  id : ℕ
  netNext : Option ℕ
  netPrev : Option ℕ

structure ConcreteTerm where
  pin : ℕ
  net : Option ℕ
  id : ℕ
  netNext : Option ℕ

structure ConcreteNet where
  pins : Option ℕ
  terms : Option ℕ
  mergedInto : Option ℕ

structure ConcreteNetwork where
  objectId : ℕ
  topInstance : Option ℕ
  instances : ℕ → Option ConcreteInstance
  nets : ℕ → Option ConcreteNet
  pins : ℕ → Option ConcretePin
  terms : ℕ → Option ConcreteTerm
  netDrvrPinMap : ℕ → Option (Finset ℕ)

def ConcreteInstance.findPin (cinst : ConcreteInstance) (port : ConcretePort) : Option ℕ := do
  let index ← port.pinIndex
  let slot ← cinst.pins[index]?
  slot

/-- The pins of an instance grow to the index of the pin. The index -1 of a port with members writes outside of them. -/
def ConcreteInstance.addPin (cinst : ConcreteInstance) (port : ConcretePort) (pin : Option ℕ) :
    Option ConcreteInstance := do
  let index ← port.pinIndex
  let pins := if index < cinst.pins.length then cinst.pins else cinst.pins ++
    List.replicate (index + 1 - cinst.pins.length) none
  some { cinst with pins := pins.set index pin }

def ConcreteInstance.deletePin (cinst : ConcreteInstance) (port : ConcretePort) : Option ConcreteInstance := do
  let index ← port.pinIndex
  if index < cinst.pins.length then some { cinst with pins := cinst.pins.set index none } else none

namespace ConcreteNetwork

section Objects

variable (st : ConcreteNetwork)

def setPin (pin : ℕ) (cpin : Option ConcretePin) : ConcreteNetwork :=
  { st with pins := Function.update st.pins pin cpin }

def setTerm (term : ℕ) (cterm : Option ConcreteTerm) : ConcreteNetwork :=
  { st with terms := Function.update st.terms term cterm }

def setNet (net : ℕ) (cnet : Option ConcreteNet) : ConcreteNetwork :=
  { st with nets := Function.update st.nets net cnet }

def setInstance (inst : ℕ) (cinst : ConcreteInstance) : ConcreteNetwork :=
  { st with instances := Function.update st.instances inst (some cinst) }

def modifyPin (pin : ℕ) (change : ConcretePin → ConcretePin) : Option ConcreteNetwork :=
  (st.pins pin).map fun cpin => st.setPin pin (some (change cpin))

/-- Nothing is written through a null pointer that is tested first. -/
def modifyPinIf (pin : Option ℕ) (change : ConcretePin → ConcretePin) : Option ConcreteNetwork :=
  match pin with
  | some pin => st.modifyPin pin change
  | none => some st

def modifyTerm (term : ℕ) (change : ConcreteTerm → ConcreteTerm) : Option ConcreteNetwork :=
  (st.terms term).map fun cterm => st.setTerm term (some (change cterm))

def modifyNet (net : ℕ) (change : ConcreteNet → ConcreteNet) : Option ConcreteNetwork :=
  (st.nets net).map fun cnet => st.setNet net (some (change cnet))

def newPin (inst : ℕ) (port : ConcretePort) (net : Option ℕ) : ConcreteNetwork × ℕ :=
  ({ st.setPin st.objectId (some ⟨inst, port, net, none, st.objectId, none, none⟩) with objectId := st.objectId + 1 },
    st.objectId)

def newTerm (pin : ℕ) (net : Option ℕ) : ConcreteNetwork × ℕ :=
  ({ st.setTerm st.objectId (some ⟨pin, net, st.objectId, none⟩) with objectId := st.objectId + 1 }, st.objectId)

def pinNext (pin : ℕ) : Option ℕ := (st.pins pin).bind (·.netNext)

def pinPrev (pin : ℕ) : Option ℕ := (st.pins pin).bind (·.netPrev)

def termNext (term : ℕ) : Option ℕ := (st.terms term).bind (·.netNext)

end Objects

section NetLists

variable (st : ConcreteNetwork)

/-- `ConcreteNet::addPin` -/
def netAddPin (net pin : ℕ) : Option ConcreteNetwork := do
  let cnet ← st.nets net
  let st ← st.modifyPinIf cnet.pins fun cpin => { cpin with netPrev := some pin }
  let st ← st.modifyPin pin fun cpin => { cpin with netNext := cnet.pins, netPrev := none }
  st.modifyNet net fun cnet => { cnet with pins := some pin }

/-- `ConcreteNet::deletePin` -/
def netDeletePin (net pin : ℕ) : Option ConcreteNetwork := do
  let cpin ← st.pins pin
  let st ← st.modifyPinIf cpin.netPrev fun prev => { prev with netNext := cpin.netNext }
  let st ← st.modifyPinIf cpin.netNext fun next => { next with netPrev := cpin.netPrev }
  let cnet ← st.nets net
  if cnet.pins = some pin then st.modifyNet net fun cnet => { cnet with pins := cpin.netNext } else some st

/-- `ConcreteNet::addTerm` -/
def netAddTerm (net term : ℕ) : Option ConcreteNetwork := do
  let cnet ← st.nets net
  let st ← st.modifyNet net fun cnet => { cnet with terms := some term }
  st.modifyTerm term fun cterm => { cterm with netNext := cnet.terms }

def netDeleteTermFrom (net term : ℕ) : ℕ → Option ℕ → Option ℕ → Option ConcreteNetwork
  | _, none, _ => some st
  | 0, some _, _ => none
  | fuel + 1, some netTerm, netPrevTerm => do
    let cterm ← st.terms netTerm
    if netTerm = term then
      match netPrevTerm with
      | some prev => st.modifyTerm prev fun c => { c with netNext := cterm.netNext }
      | none => st.modifyNet net fun cnet => { cnet with terms := cterm.netNext }
    else netDeleteTermFrom net term fuel cterm.netNext (some netTerm)

/-- `ConcreteNet::deleteTerm` -/
def netDeleteTerm (net term : ℕ) : Option ConcreteNetwork := do
  let cnet ← st.nets net
  st.netDeleteTermFrom net term st.objectId cnet.terms none

/-- The iterator is past a pin before the pin moves to the other list. -/
def mergePins (net : ℕ) : ℕ → Option ℕ → ConcreteNetwork → Option ConcreteNetwork
  | _, none, st => some st
  | 0, some _, _ => none
  | fuel + 1, some pin, st => do
    let cpin ← st.pins pin
    let st ← st.netAddPin net pin
    let st ← st.modifyPin pin fun c => { c with net := some net }
    mergePins net fuel cpin.netNext st

def mergeTerms (net : ℕ) : ℕ → Option ℕ → ConcreteNetwork → Option ConcreteNetwork
  | _, none, st => some st
  | 0, some _, _ => none
  | fuel + 1, some term, st => do
    let cterm ← st.terms term
    let st ← st.netAddTerm net term
    let st ← st.modifyTerm term fun c => { c with net := some net }
    mergeTerms net fuel cterm.netNext st

/-- `ConcreteNet::mergeInto` -/
def netMergeInto (net intoNet : ℕ) : Option ConcreteNetwork := do
  let cnet ← st.nets net
  let st ← mergePins intoNet st.objectId cnet.pins st
  let st ← st.modifyNet net fun cnet => { cnet with pins := none }
  let st ← mergeTerms intoNet st.objectId cnet.terms st
  st.modifyNet net fun cnet => { cnet with terms := none, mergedInto := some intoNet }

end NetLists

section Edits

variable (st : ConcreteNetwork)

/-- A port of a leaf instance that drives, or one of the top instance that is driven from outside. -/
def drives (inst : ℕ) (port : ConcretePort) : Bool :=
  match st.instances inst with
  | some cinst =>
    cinst.cell.isLeaf && port.direction.isAnyOutput || decide (st.topInstance = some inst) && port.direction.isAnyInput
  | none => false

def isDriver (pin : ℕ) : Bool :=
  match st.pins pin with
  | some cpin => st.drives cpin.inst cpin.port
  | none => false

def clearNetDrvrPinMap : ConcreteNetwork := { st with netDrvrPinMap := fun _ => none }

/-- The entry of one net follows a change of its pins when the net has no terminals; otherwise every entry goes. -/
def updateDrvrs (net : ℕ) (change : Finset ℕ → Finset ℕ) : Option ConcreteNetwork := do
  let cnet ← st.nets net
  if cnet.terms = none then
    some { st with netDrvrPinMap := Function.update st.netDrvrPinMap net ((st.netDrvrPinMap net).map change) }
  else some st.clearNetDrvrPinMap

def connectNetPin (net pin : ℕ) : Option ConcreteNetwork := do
  let st ← st.netAddPin net pin
  if st.isDriver pin then st.updateDrvrs net (insert pin) else some st

def disconnectNetPin (net pin : ℕ) : Option ConcreteNetwork := do
  let st ← st.netDeletePin net pin
  if st.isDriver pin then do
    let cpin ← st.pins pin
    let net ← cpin.net
    st.updateDrvrs net (·.erase pin)
  else some st

def disconnectNetPinIf (net : Option ℕ) (pin : ℕ) : Option ConcreteNetwork :=
  match net with
  | some net => st.disconnectNetPin net pin
  | none => some st

def netAddTermIf (net : Option ℕ) (term : ℕ) : Option ConcreteNetwork :=
  match net with
  | some net => st.netAddTerm net term
  | none => some st

def instAddPin (inst : ℕ) (port : ConcretePort) (pin : ℕ) : Option ConcreteNetwork := do
  let cinst ← st.instances inst
  let cinst ← cinst.addPin port (some pin)
  some (st.setInstance inst cinst)

def makeInstance (cell : ConcreteCell) : ConcreteNetwork :=
  { st.setInstance st.objectId ⟨cell, List.replicate cell.portBitCount none⟩ with objectId := st.objectId + 1 }

def makeNet : ConcreteNetwork := { st.setNet st.objectId (some ⟨none, none, none⟩) with objectId := st.objectId + 1 }

def makePin (inst : ℕ) (port : ConcretePort) (net : Option ℕ) : Option ConcreteNetwork := do
  let (st, pin) := st.newPin inst port net
  let st ← st.instAddPin inst port pin
  match net with
  | some net => st.connectNetPin net pin
  | none => some st

def makeTerm (pin : ℕ) (net : Option ℕ) : Option ConcreteNetwork := do
  let (st, term) := st.newTerm pin net
  let st ← st.netAddTermIf net term
  st.modifyPin pin fun cpin => { cpin with term := some term }

/-- The pin of the port, off the net it was on, or a new pin. -/
def connectedPin (inst : ℕ) (port : ConcretePort) (net : Option ℕ) : Option (ConcreteNetwork × ℕ) := do
  let cinst ← st.instances inst
  match cinst.findPin port with
  | some pin => do
    let cpin ← st.pins pin
    (st.disconnectNetPinIf cpin.net pin).map (·, pin)
  | none => do
    let (st, pin) := st.newPin inst port net
    (st.instAddPin inst port pin).map (·, pin)

def connect (inst : ℕ) (port : ConcretePort) (net : Option ℕ) : Option ConcreteNetwork := do
  let (st, pin) ← st.connectedPin inst port net
  if st.topInstance = some inst then do
    let (st, term) := st.newTerm pin net
    let st ← st.netAddTermIf net term
    st.modifyPin pin fun cpin => { cpin with term := some term, net := none }
  else do
    let st ← st.modifyPin pin fun cpin => { cpin with net := net }
    st.connectNetPin (← net) pin

def disconnectPin (pin : ℕ) : Option ConcreteNetwork := do
  let cpin ← st.pins pin
  if st.topInstance = some cpin.inst then
    match cpin.term with
    | some term => do
      let cterm ← st.terms term
      let st ← match cterm.net with
        | some net => (st.netDeleteTerm net term).map clearNetDrvrPinMap
        | none => some st
      let st ← st.modifyPin pin fun cpin => { cpin with term := none }
      some (st.setTerm term none)
    | none => some st
  else do
    let st ← st.disconnectNetPinIf cpin.net pin
    st.modifyPin pin fun cpin => { cpin with net := none }

def deletePin (pin : ℕ) : Option ConcreteNetwork := do
  let cpin ← st.pins pin
  let st ← st.disconnectNetPinIf cpin.net pin
  let cinst ← st.instances cpin.inst
  let cinst ← cinst.deletePin cpin.port
  some ((st.setInstance cpin.inst cinst).setPin pin none)

def mergeInto (net intoNet : ℕ) : Option ConcreteNetwork := (st.netMergeInto net intoNet).map clearNetDrvrPinMap

def forgetNet : ℕ → Option ℕ → ConcreteNetwork → Option ConcreteNetwork
  | _, none, st => some st
  | 0, some _, _ => none
  | fuel + 1, some pin, st => do
    let cpin ← st.pins pin
    let st ← st.modifyPin pin fun c => { c with net := none }
    forgetNet fuel cpin.netNext st

def deleteNet (net : ℕ) : Option ConcreteNetwork := do
  let cnet ← st.nets net
  let st ← forgetNet st.objectId cnet.pins st
  let st := { st with netDrvrPinMap := Function.update st.netDrvrPinMap net none }
  some (st.setNet net none)

/-- The pin of one slot goes to the port of its name in the new cell, or to nowhere. -/
def replacePin (cell : ConcreteCell) : ConcreteNetwork × List (Option ℕ) → Option ℕ →
    Option (ConcreteNetwork × List (Option ℕ))
  | (st, rpins), none => some (st, rpins)
  | (st, rpins), some pin => do
    let cpin ← st.pins pin
    match cell.findPort cpin.port.name with
    | some cport => do
      let index ← cport.pinIndex
      if index < rpins.length then
        some ({ st.setPin pin (some { cpin with port := cport, id := st.objectId }) with objectId := st.objectId + 1 },
          rpins.set index (some pin))
      else none
    | none => some (st, rpins)

/-- The loop runs over as many slots as the new cell has port bits. -/
def replaceCell (inst : ℕ) (cell : ConcreteCell) : Option ConcreteNetwork := do
  let cinst ← st.instances inst
  if cell.portBitCount ≤ cinst.pins.length then do
    let (st, rpins) ← (cinst.pins.take cell.portBitCount).foldlM (replacePin cell) (st,
      List.replicate cell.portBitCount none)
    some (st.setInstance inst ⟨cell, rpins⟩)
  else none

end Edits

section Drivers

variable (st : ConcreteNetwork)

/-- Collects the pins that are met after those met so far, each net once. -/
def visitConnectedPins : ℕ → ℕ → List ℕ × List ℕ → Option (List ℕ × List ℕ)
  | 0, _, _ => none
  | fuel + 1, net, (visitedNets, met) =>
    if net ∈ visitedNets then some (visitedNets, met)
    else do
      let cnet ← st.nets net
      -- up from the terminals
      let terms ← Linked.walk st.termNext st.objectId cnet.terms
      let found ← terms.foldlM (fun found term => do
        let cterm ← st.terms term
        let abovePin ← st.pins cterm.pin
        match abovePin.net with
        | some aboveNet => visitConnectedPins fuel aboveNet found
        | none => some (found.1, found.2 ++ [cterm.pin])) (net :: visitedNets, met)
      -- down from the pins
      let pins ← Linked.walk st.pinNext st.objectId cnet.pins
      pins.foldlM (fun found pin => do
        let cpin ← st.pins pin
        let found := (found.1, found.2 ++ [pin])
        match cpin.term with
        | some belowTerm => do
          let cterm ← st.terms belowTerm
          match cterm.net with
          | some belowNet => visitConnectedPins fuel belowNet found
          | none => some found
        | none => some found) found

def connectedPins (net : ℕ) : Option (List ℕ) := (st.visitConnectedPins (st.objectId + 1) net ([], [])).map (·.2)

def drivers (net : ℕ) : Option (Finset ℕ × ConcreteNetwork) :=
  match st.netDrvrPinMap net with
  | some drvrs => some (drvrs, st)
  | none => do
    let pins ← st.connectedPins net
    let drvrs := (pins.filter st.isDriver).toFinset
    some (drvrs, { st with netDrvrPinMap := Function.update st.netDrvrPinMap net (some drvrs) })

end Drivers

inductive Edit
  | makeInstance (cell : ConcreteCell)
  | makeNet
  | makePin (inst : ℕ) (port : ConcretePort) (net : Option ℕ)
  | makeTerm (pin : ℕ) (net : Option ℕ)
  | connect (inst : ℕ) (port : ConcretePort) (net : Option ℕ)
  | disconnectPin (pin : ℕ)
  | deletePin (pin : ℕ)
  | mergeInto (net intoNet : ℕ)
  | deleteNet (net : ℕ)
  | replaceCell (inst : ℕ) (cell : ConcreteCell)

def step (st : ConcreteNetwork) : Edit → Option ConcreteNetwork
  | .makeInstance cell => some (st.makeInstance cell)
  | .makeNet => some st.makeNet
  | .makePin inst port net => st.makePin inst port net
  | .makeTerm pin net => st.makeTerm pin net
  | .connect inst port net => st.connect inst port net
  | .disconnectPin pin => st.disconnectPin pin
  | .deletePin pin => st.deletePin pin
  | .mergeInto net intoNet => st.mergeInto net intoNet
  | .deleteNet net => st.deleteNet net
  | .replaceCell inst cell => st.replaceCell inst cell

/-- A network without nets, with a top instance or before it is linked. -/
def initial (top : Option ConcreteCell) : ConcreteNetwork :=
  let empty : ConcreteNetwork :=
    ⟨1, top.map fun _ => 0, fun _ => none, fun _ => none, fun _ => none, fun _ => none, fun _ => none⟩
  match top with
  | some cell => empty.setInstance 0 ⟨cell, List.replicate cell.portBitCount none⟩
  | none => empty

end ConcreteNetwork

end GTPower
