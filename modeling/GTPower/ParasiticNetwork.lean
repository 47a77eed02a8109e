import GTPower.KeyedSums
import Mathlib.Algebra.Order.Field.Rat
import Mathlib.Tactic.Ring
import Mathlib.Tactic.Linarith

/-! The nodes and devices of a parasitic network. A node is at its own address and is kept in the map of the subnodes or
that of the pins; devices refer to nodes by their addresses. -/
namespace GTPower.ParasiticNetworks
open KeyedSums

section Source
variable {ν π : Type}

structure ParasiticNode where
  cap : ℚ
  isExternal : Bool
  deriving DecidableEq

/-- The nodes at the ends of a capacitor may be missing. -/
structure ParasiticDevice where
  id : ℕ
  value : ℚ
  node1 : Option ℕ
  node2 : Option ℕ
  deriving DecidableEq

def ParasiticDevice.replaceNode (fromNode toNode : ℕ) (device : ParasiticDevice) : ParasiticDevice :=
  if device.node1 = some fromNode then { device with node1 := some toNode }
  else if device.node2 = some fromNode then { device with node2 := some toNode }
  else device

/-- The deleted nodes are not in `nodes`; addresses from `next` on are new. -/
structure ParasiticNetwork (ν π : Type) where
  net : ν
  nodes : ℕ → Option ParasiticNode
  next : ℕ
  subNodes : AList fun _ : ν × ℤ => ℕ
  pinNodes : AList fun _ : π => ℕ
  resistors : List ParasiticDevice
  capacitors : List ParasiticDevice
  maxNodeId : ℤ

structure Connectivity (ν π : Type) where
  pinNet : π → Option ν
  termNet : π → Option ν
  isTopLevelPort : π → Bool
  highestNetAbove : ν → ν

/-- Pins on the top level instance may have no net but that of their terminal. -/
def Connectivity.nodeNet (connectivity : Connectivity ν π) (pin : π) : Option ν :=
  match connectivity.pinNet pin with
  | some net => some net
  | none => if connectivity.isTopLevelPort pin then connectivity.termNet pin else none

def Connectivity.ownerNet (connectivity : Connectivity ν π) (pin : π) : Option ν :=
  match connectivity.pinNet pin with
  | some net => some (connectivity.highestNetAbove net)
  | none => if connectivity.isTopLevelPort pin then connectivity.termNet pin else none

namespace ParasiticNetwork
variable [DecidableEq ν] [DecidableEq π]

def make (net : ν) : ParasiticNetwork ν π := ⟨net, fun _ => none, 0, ∅, ∅, [], [], 0⟩

def newNode (st : ParasiticNetwork ν π) (isExternal : Bool) : ParasiticNetwork ν π :=
  { st with nodes := Function.update st.nodes st.next (some ⟨0, isExternal⟩), next := st.next + 1 }

def ensureSubNode (st : ParasiticNetwork ν π) (net : ν) (id : ℤ) : ParasiticNetwork ν π × ℕ :=
  match st.subNodes.lookup (net, id) with
  | some node => (st, node)
  | none => ({ st.newNode (net ≠ st.net) with
      subNodes := st.subNodes.insert (net, id) st.next
      maxNodeId := if net = st.net then max st.maxNodeId id else st.maxNodeId }, st.next)

def ensurePinNode (connectivity : Connectivity ν π) (st : ParasiticNetwork ν π) (pin : π) : ParasiticNetwork ν π × ℕ :=
  match st.pinNodes.lookup pin with
  | some node => (st, node)
  | none => ({ st.newNode (connectivity.ownerNet pin ≠ some st.net) with pinNodes := st.pinNodes.insert pin st.next },
    st.next)

def incrCap (st : ParasiticNetwork ν π) (node : ℕ) (cap : ℚ) : ParasiticNetwork ν π :=
  { st with nodes := Function.update st.nodes node ((st.nodes node).map fun n => { n with cap := n.cap + cap }) }

def addResistor (st : ParasiticNetwork ν π) (resistor : ParasiticDevice) : ParasiticNetwork ν π :=
  { st with resistors := st.resistors ++ [resistor] }

def addCapacitor (st : ParasiticNetwork ν π) (capacitor : ParasiticDevice) : ParasiticNetwork ν π :=
  { st with capacitors := st.capacitors ++ [capacitor] }

def nodeCap (st : ParasiticNetwork ν π) (node : ℕ) : ℚ :=
  ((st.nodes node).map fun n => if n.isExternal then 0 else n.cap).getD 0

def capacitance (st : ParasiticNetwork ν π) : ℚ :=
  total st.nodeCap st.subNodes + total st.nodeCap st.pinNodes + (st.capacitors.map ParasiticDevice.value).sum

/-- The devices of the node of the pin are handed over to a subnode. -/
def disconnectPin (st : ParasiticNetwork ν π) (pin : π) (net : ν) : ParasiticNetwork ν π :=
  match st.pinNodes.lookup pin with
  | some node =>
    let (made, subnode) := st.ensureSubNode net (st.maxNodeId + 1)
    { made with
      resistors := made.resistors.map (ParasiticDevice.replaceNode node subnode)
      capacitors := made.capacitors.map (ParasiticDevice.replaceNode node subnode)
      pinNodes := made.pinNodes.erase pin
      nodes := Function.update made.nodes node none }
  | none => st

end ParasiticNetwork
end Source

section Valid
variable {ν π : Type} [DecidableEq ν] [DecidableEq π]

def ParasiticDevice.Touches (device : ParasiticDevice) (node : ℕ) : Prop := device.node1 = some node ∨
    device.node2 = some node

instance (device : ParasiticDevice) (node : ℕ) : Decidable (device.Touches node) := inferInstanceAs (Decidable (_ ∨ _))

namespace ParasiticNetwork

/-- An entry of one of the maps refers to the node. -/
def Refers (st : ParasiticNetwork ν π) (node : ℕ) : Prop :=
  (∃ key, st.subNodes.lookup key = some node) ∨ ∃ pin, st.pinNodes.lookup pin = some node

/-- Every node has one entry in the maps, and devices are at nodes that are there. -/
structure Valid (st : ParasiticNetwork ν π) : Prop where
  live : ∀ node, (st.nodes node).isSome ↔ st.Refers node
  below : ∀ node, st.Refers node → node < st.next
  ownSub : ∀ key key' node, st.subNodes.lookup key = some node → st.subNodes.lookup key' = some node → key = key'
  ownPin : ∀ pin pin' node, st.pinNodes.lookup pin = some node → st.pinNodes.lookup pin' = some node → pin = pin'
  apart : ∀ key pin node, st.subNodes.lookup key = some node → st.pinNodes.lookup pin ≠ some node
  devices : ∀ device ∈ st.resistors ++ st.capacitors, ∀ node, device.Touches node → st.Refers node
  ids : ∀ id, (st.net, id) ∈ st.subNodes → id ≤ st.maxNodeId

variable {st : ParasiticNetwork ν π}

theorem Valid.make (net : ν) : (make net : ParasiticNetwork ν π).Valid where
  live node := by simp [ParasiticNetwork.make,Refers]
  below node refers := by simp [ParasiticNetwork.make,Refers] at refers
  ownSub key key' node here := by simp [ParasiticNetwork.make] at here
  ownPin pin pin' node here := by simp [ParasiticNetwork.make] at here
  apart key pin node here := by simp [ParasiticNetwork.make] at here
  devices device mem := by cases mem
  ids id mem := absurd mem (AList.notMem_empty _)

theorem Valid.next_free (valid : st.Valid) : st.nodes st.next = none := by
  by_contra some
  have refers := (valid.live st.next).1 (Option.isSome_iff_ne_none.2 some)
  exact absurd (valid.below _ refers) (lt_irrefl _)

section Made
variable {isExternal : Bool} {key : ν × ℤ} {pin : π} {id : ℤ}

theorem refers_insertSub (absent : key ∉ st.subNodes) (maxNodeId : ℤ) (node : ℕ) :
    ({ st.newNode isExternal with
    subNodes := st.subNodes.insert key st.next, maxNodeId := maxNodeId } : ParasiticNetwork ν π).Refers node ↔
      node = st.next ∨ st.Refers node := by
  have subs : (∃ key', (st.subNodes.insert key st.next).lookup key' = some node) ↔
      node = st.next ∨ ∃ key', st.subNodes.lookup key' = some node := exists_lookup_insert absent
  exact (or_congr_left subs).trans or_assoc

theorem refers_insertPin (absent : pin ∉ st.pinNodes) (node : ℕ) :
    ({ st.newNode isExternal with pinNodes := st.pinNodes.insert pin st.next } : ParasiticNetwork ν π).Refers node ↔
      node = st.next ∨ st.Refers node := by
  have pins : (∃ pin', (st.pinNodes.insert pin st.next).lookup pin' = some node) ↔
      node = st.next ∨ ∃ pin', st.pinNodes.lookup pin' = some node := exists_lookup_insert absent
  exact (or_congr_right pins).trans or_left_comm

omit [DecidableEq ν] [DecidableEq π] in
theorem newNode_isSome (node : ℕ) : ((st.newNode isExternal).nodes node).isSome ↔ node = st.next ∨
    (st.nodes node).isSome := by
  by_cases same : node = st.next
  · subst same
    simp [newNode]
  · simp [newNode,same]

theorem Valid.insertSub (valid : st.Valid) (absent : key ∉ st.subNodes) {maxNodeId : ℤ}
    (more : st.maxNodeId ≤ maxNodeId) (own : key.1 = st.net → key.2 ≤ maxNodeId) :
    ({ st.newNode isExternal with
    subNodes := st.subNodes.insert key st.next, maxNodeId := maxNodeId } : ParasiticNetwork ν π).Valid := by
  have refers := @refers_insertSub ν π _ _ st isExternal key absent maxNodeId
  have fresh (key' : ν × ℤ) : st.subNodes.lookup key' ≠ some st.next :=
    fun here => lt_irrefl _ (valid.below _ (.inl ⟨key', here⟩))
  constructor
  case live =>
    exact fun node => ((newNode_isSome node).trans (or_congr_right (valid.live node))).trans (refers node).symm
  case below =>
    intro node here
    rcases (refers node).1 here with rfl | here
    · exact Nat.lt_succ_self _
    · exact (valid.below node here).trans (Nat.lt_succ_self _)
  case ownSub => exact own_insert valid.ownSub fresh
  case ownPin => exact valid.ownPin
  case apart =>
    intro key' pin node here atPin
    rcases lookup_of_insert here with ⟨-, rfl⟩ | ⟨-, here⟩
    · exact absurd (valid.below _ (.inr ⟨pin, atPin⟩)) (lt_irrefl _)
    · exact valid.apart key' pin node here atPin
  case devices => exact fun device mem node touches => (refers node).2 (.inr (valid.devices device mem node touches))
  case ids =>
    intro id mem
    rcases (AList.mem_insert _).1 mem with same | old
    · rw [← same] at own
      exact own rfl
    · exact (valid.ids id old).trans more

theorem Valid.insertPin (valid : st.Valid) (absent : pin ∉ st.pinNodes) :
    ({ st.newNode isExternal with pinNodes := st.pinNodes.insert pin st.next } : ParasiticNetwork ν π).Valid := by
  have refers := @refers_insertPin ν π _ _ st isExternal pin absent
  have fresh (pin' : π) : st.pinNodes.lookup pin' ≠ some st.next :=
    fun here => lt_irrefl _ (valid.below _ (.inr ⟨pin', here⟩))
  constructor
  case live =>
    exact fun node => ((newNode_isSome node).trans (or_congr_right (valid.live node))).trans (refers node).symm
  case below =>
    intro node here
    rcases (refers node).1 here with rfl | here
    · exact Nat.lt_succ_self _
    · exact (valid.below node here).trans (Nat.lt_succ_self _)
  case ownSub => exact valid.ownSub
  case ownPin => exact own_insert valid.ownPin fresh
  case apart =>
    intro key pin' node here atPin
    rcases lookup_of_insert atPin with ⟨-, rfl⟩ | ⟨-, atPin⟩
    · exact absurd (valid.below _ (.inl ⟨key, here⟩)) (lt_irrefl _)
    · exact valid.apart key pin' node here atPin
  case devices => exact fun device mem node touches => (refers node).2 (.inr (valid.devices device mem node touches))
  case ids => exact valid.ids

theorem Valid.ensureSubNode (valid : st.Valid) (net : ν) (id : ℤ) : (st.ensureSubNode net id).1.Valid := by
  unfold ParasiticNetwork.ensureSubNode
  cases found : st.subNodes.lookup (net, id) with
  | some node => exact valid
  | none =>
    apply valid.insertSub (AList.lookup_eq_none.1 found)
    · split
      · exact le_max_left _ _
      · exact le_refl _
    · intro own
      rw [if_pos own]
      exact le_max_right _ _

theorem Valid.ensurePinNode (valid : st.Valid) (connectivity : Connectivity ν π) (pin : π) :
    (st.ensurePinNode connectivity pin).1.Valid := by
  unfold ParasiticNetwork.ensurePinNode
  cases found : st.pinNodes.lookup pin with
  | some node => exact valid
  | none => exact valid.insertPin (AList.lookup_eq_none.1 found)

theorem newNode_nodeCap (valid : st.Valid) (isExternal : Bool) : (st.newNode isExternal).nodeCap = st.nodeCap := by
  funext node
  by_cases same : node = st.next
  · subst same
    simp [nodeCap,newNode,valid.next_free]
  · simp [nodeCap,newNode,same]

theorem nodeCap_next (valid : st.Valid) : st.nodeCap st.next = 0 := by
  simp [nodeCap,valid.next_free]

theorem Valid.ensureSubNode_capacitance (valid : st.Valid) (net : ν) (id : ℤ) :
    (st.ensureSubNode net id).1.capacitance = st.capacitance := by
  unfold ParasiticNetwork.ensureSubNode
  cases found : st.subNodes.lookup (net, id) with
  | some node => rfl
  | none =>
    change total (st.newNode _).nodeCap (st.subNodes.insert (net, id) st.next) +
      total (st.newNode _).nodeCap st.pinNodes + _ = _
    rw [newNode_nodeCap valid,total_insert (AList.lookup_eq_none.1 found),nodeCap_next valid,zero_add]
    rfl

theorem Valid.ensurePinNode_capacitance (valid : st.Valid) (connectivity : Connectivity ν π) (pin : π) :
    (st.ensurePinNode connectivity pin).1.capacitance = st.capacitance := by
  unfold ParasiticNetwork.ensurePinNode
  cases found : st.pinNodes.lookup pin with
  | some node => rfl
  | none =>
    change total (st.newNode _).nodeCap st.subNodes + total (st.newNode _).nodeCap (st.pinNodes.insert pin st.next) +
      _ = _
    rw [newNode_nodeCap valid,total_insert (AList.lookup_eq_none.1 found),nodeCap_next valid,zero_add]
    rfl

end Made

section Caps
variable {node : ℕ} {cap : ℚ}

theorem Valid.incrCap (valid : st.Valid) (node : ℕ) (cap : ℚ) : (st.incrCap node cap).Valid where
  live other := by
    rw [← show st.Refers other ↔ (st.incrCap node cap).Refers other from Iff.rfl,← valid.live other]
    by_cases same : other = node
    · subst same
      simp [ParasiticNetwork.incrCap]
    · simp [ParasiticNetwork.incrCap,same]
  below := valid.below
  ownSub := valid.ownSub
  ownPin := valid.ownPin
  apart := valid.apart
  devices := valid.devices
  ids := valid.ids

theorem Valid.addResistor (valid : st.Valid) {resistor : ParasiticDevice}
    (there : ∀ node, resistor.Touches node → st.Refers node) :
    (st.addResistor resistor).Valid where
  live := valid.live
  below := valid.below
  ownSub := valid.ownSub
  ownPin := valid.ownPin
  apart := valid.apart
  devices device mem node touches := by
    rcases List.mem_append.1 mem with mem | mem
    · rcases List.mem_append.1 mem with mem | mem
      · exact valid.devices device (List.mem_append_left _ mem) node touches
      · rw [List.mem_singleton.1 mem] at touches
        exact there node touches
    · exact valid.devices device (List.mem_append_right _ mem) node touches
  ids := valid.ids

theorem Valid.addCapacitor (valid : st.Valid) {capacitor : ParasiticDevice}
    (there : ∀ node, capacitor.Touches node → st.Refers node) :
    (st.addCapacitor capacitor).Valid where
  live := valid.live
  below := valid.below
  ownSub := valid.ownSub
  ownPin := valid.ownPin
  apart := valid.apart
  devices device mem node touches := by
    rcases List.mem_append.1 mem with mem | mem
    · exact valid.devices device (List.mem_append_left _ mem) node touches
    · rcases List.mem_append.1 mem with mem | mem
      · exact valid.devices device (List.mem_append_right _ mem) node touches
      · rw [List.mem_singleton.1 mem] at touches
        exact there node touches
  ids := valid.ids

end Caps

/-- The networks the reader makes: its devices are at nodes it found or made. -/
inductive Built (connectivity : Connectivity ν π) : ParasiticNetwork ν π → Prop
  | make (net : ν) : Built connectivity (make net)
  | ensureSubNode {st : ParasiticNetwork ν π} (net : ν) (id : ℤ) : Built connectivity st →
    Built connectivity (st.ensureSubNode net id).1
  | ensurePinNode {st : ParasiticNetwork ν π} (pin : π) : Built connectivity st →
    Built connectivity (st.ensurePinNode connectivity pin).1
  | incrCap {st : ParasiticNetwork ν π} (node : ℕ) (cap : ℚ) : Built connectivity st →
    Built connectivity (st.incrCap node cap)
  | addResistor {st : ParasiticNetwork ν π} (resistor : ParasiticDevice) : Built connectivity st →
    (∀ node, resistor.Touches node → st.Refers node) →
      Built connectivity (st.addResistor resistor)
  | addCapacitor {st : ParasiticNetwork ν π} (capacitor : ParasiticDevice) : Built connectivity st →
    (∀ node, capacitor.Touches node → st.Refers node) →
      Built connectivity (st.addCapacitor capacitor)

theorem Built.valid {connectivity : Connectivity ν π} (built : Built connectivity st) : st.Valid := by
  induction built with
  | make net => exact Valid.make net
  | ensureSubNode net id _ valid => exact valid.ensureSubNode net id
  | ensurePinNode pin _ valid => exact valid.ensurePinNode connectivity pin
  | incrCap node cap _ valid => exact valid.incrCap node cap
  | addResistor resistor _ there valid => exact valid.addResistor there
  | addCapacitor capacitor _ there valid => exact valid.addCapacitor there

end ParasiticNetwork
end Valid

section Disconnect
variable {ν π : Type} [DecidableEq ν] [DecidableEq π]

/-- Both terminals may be at the node. -/
def ParasiticDevice.handOver (node subnode : ℕ) (device : ParasiticDevice) : ParasiticDevice :=
  { device with
    node1 := if device.node1 = some node then some subnode else device.node1
    node2 := if device.node2 = some node then some subnode else device.node2 }

def ParasiticDevice.IsLoop (device : ParasiticDevice) (node : ℕ) : Prop := device.node1 = some node ∧
    device.node2 = some node

instance (device : ParasiticDevice) (node : ℕ) : Decidable (device.IsLoop node) := inferInstanceAs (Decidable (_ ∧ _))

namespace ParasiticDevice
variable {device : ParasiticDevice} {node subnode : ℕ}

theorem replaceNode_value (node subnode : ℕ) (device : ParasiticDevice) :
    (device.replaceNode node subnode).value = device.value := by
  unfold replaceNode
  split
  · rfl
  · split <;> rfl

theorem replaceNode_eq_handOver (apart : ¬device.IsLoop node) :
    device.replaceNode node subnode = device.handOver node subnode := by
  unfold replaceNode handOver
  by_cases first : device.node1 = some node
  · have second : device.node2 ≠ some node := fun second => apart ⟨first, second⟩
    rw [if_pos first,if_pos first,if_neg second]
  · rw [if_neg first,if_neg first]
    by_cases second : device.node2 = some node
    · rw [if_pos second,if_pos second]
    · rw [if_neg second,if_neg second]

theorem replaceNode_touches_of_isLoop (loop : device.IsLoop node) : (device.replaceNode node subnode).Touches node := by
  rw [replaceNode,if_pos loop.1]
  exact .inr loop.2

theorem handOver_not_touches (differs : subnode ≠ node) : ¬(device.handOver node subnode).Touches node := by
  have left {terminal : Option ℕ} : (if terminal = some node then some subnode else terminal) ≠ some node := by
    split
    · exact fun same => differs (Option.some.inj same)
    · assumption
  rintro (first | second)
  · exact left first
  · exact left second

end ParasiticDevice

namespace ParasiticNetwork
variable {st : ParasiticNetwork ν π} {pin : π} {node : ℕ}

/-- The network of the pin is found by its net. -/
def disconnectPinBefore (st : ParasiticNetwork ν π) (pin : π) : ParasiticNetwork ν π := st.disconnectPin pin st.net

structure Disconnected (st st' : ParasiticNetwork ν π) (pin : π) : Prop where
  capacitance : st'.capacitance = st.capacitance
  handed : ∀ node, st.pinNodes.lookup pin = some node → ∃ subnode key, key ∉ st.subNodes ∧ st.nodes subnode = none ∧
    st'.subNodes.lookup key = some subnode ∧ st'.resistors = st.resistors.map (ParasiticDevice.handOver node subnode) ∧
      st'.capacitors = st.capacitors.map (ParasiticDevice.handOver node subnode)
  gone : ∀ node, st.pinNodes.lookup pin = some node → st'.nodes node = none ∧ ¬st'.Refers node ∧
    ∀ device ∈ st'.resistors ++ st'.capacitors, ¬device.Touches node

/-- The node of the pin has no capacitance of its own, and no device has both terminals there. -/
def Disconnectable (st : ParasiticNetwork ν π) (pin : π) : Prop :=
  ∀ node, st.pinNodes.lookup pin = some node → st.nodeCap node = 0 ∧ ∀ device ∈ st.resistors ++ st.capacitors,
    ¬device.IsLoop node

theorem Valid.next_id (valid : st.Valid) : (st.net, st.maxNodeId + 1) ∉ st.subNodes := by
  intro mem
  exact absurd (valid.ids _ mem) (by omega)

theorem Valid.disconnectPinBefore_eq (valid : st.Valid) (here : st.pinNodes.lookup pin = some node) :
    st.disconnectPinBefore pin =
      { net := st.net
        nodes := Function.update (st.newNode false).nodes node none
        next := st.next + 1
        subNodes := st.subNodes.insert (st.net, st.maxNodeId + 1) st.next
        pinNodes := st.pinNodes.erase pin
        resistors := st.resistors.map (ParasiticDevice.replaceNode node st.next)
        capacitors := st.capacitors.map (ParasiticDevice.replaceNode node st.next)
        maxNodeId := st.maxNodeId + 1 } := by
  have made : st.ensureSubNode st.net (st.maxNodeId + 1) = ({ st.newNode false with
      subNodes := st.subNodes.insert (st.net, st.maxNodeId + 1) st.next
      maxNodeId := st.maxNodeId + 1 }, st.next) := by
    have absent := AList.lookup_eq_none.2 valid.next_id
    have more : max st.maxNodeId (st.maxNodeId + 1) = st.maxNodeId + 1 := max_eq_right (by omega)
    have own : decide (st.net ≠ st.net) = false := decide_eq_false (fun differs => differs rfl)
    unfold ParasiticNetwork.ensureSubNode
    rw [absent]
    simp only [own,if_true,more]
  rw [disconnectPinBefore,disconnectPin,here]
  simp only [made]
  rfl

theorem Valid.disconnectPinBefore_capacitance (valid : st.Valid) (here : st.pinNodes.lookup pin = some node) :
    st.capacitance = st.nodeCap node + (st.disconnectPinBefore pin).capacitance := by
  have made : (st.newNode false).nodeCap = st.nodeCap := newNode_nodeCap valid false
  have kept {other : ℕ} (differs : other ≠ node) : (st.disconnectPinBefore pin).nodeCap other = st.nodeCap other := by
    have left : (st.disconnectPinBefore pin).nodes other = (st.newNode false).nodes other := by
      rw [valid.disconnectPinBefore_eq here]
      exact Function.update_of_ne differs _ _
    rw [← made,nodeCap,nodeCap,left]
  have subs : total (st.disconnectPinBefore pin).nodeCap (st.disconnectPinBefore pin).subNodes =
    total st.nodeCap st.subNodes := by
    have fresh : st.nodeCap st.next = 0 := nodeCap_next valid
    have differs : st.next ≠ node := fun same => absurd (valid.below node (.inr ⟨pin, here⟩)) (by omega)
    have same : total (st.disconnectPinBefore pin).nodeCap st.subNodes = total st.nodeCap st.subNodes := by
      apply total_congr
      intro key other found
      apply kept
      rintro rfl
      exact valid.apart key pin other found here
    calc total (st.disconnectPinBefore pin).nodeCap (st.disconnectPinBefore pin).subNodes
        = total (st.disconnectPinBefore pin).nodeCap (st.subNodes.insert (st.net, st.maxNodeId + 1) st.next) := by
          congr 1
          rw [valid.disconnectPinBefore_eq here]
      _ = (st.disconnectPinBefore pin).nodeCap st.next + total (st.disconnectPinBefore pin).nodeCap st.subNodes :=
        total_insert valid.next_id
      _ = total st.nodeCap st.subNodes := by rw [kept differs,fresh,zero_add,same]
  have pins : total st.nodeCap st.pinNodes = st.nodeCap node + total (st.disconnectPinBefore pin).nodeCap
    (st.disconnectPinBefore pin).pinNodes := by
    have erased : (st.disconnectPinBefore pin).pinNodes = st.pinNodes.erase pin := by
      rw [valid.disconnectPinBefore_eq here]
    rw [total_erase here,erased]
    congr 1
    apply total_congr
    intro pin' other found
    refine (kept ?_).symm
    rintro rfl
    have differs : pin' ≠ pin := by
      rintro rfl
      rw [AList.lookup_erase] at found
      cases found
    rw [AList.lookup_erase_ne differs] at found
    exact differs (valid.ownPin pin' pin other found here)
  have caps : ((st.disconnectPinBefore pin).capacitors.map ParasiticDevice.value).sum =
    (st.capacitors.map ParasiticDevice.value).sum := by
    rw [valid.disconnectPinBefore_eq here]
    simp only [List.map_map]
    congr 1
    apply List.map_congr_left
    exact fun device _ => ParasiticDevice.replaceNode_value node st.next device
  rw [capacitance,capacitance,subs,pins,caps]
  ring

theorem Valid.disconnectPinBefore_gone (valid : st.Valid) (here : st.pinNodes.lookup pin = some node) :
    (st.disconnectPinBefore pin).nodes node = none ∧ ¬(st.disconnectPinBefore pin).Refers node := by
  have less := valid.below node (.inr ⟨pin, here⟩)
  rw [valid.disconnectPinBefore_eq here]
  refine ⟨Function.update_self _ _ _, ?_⟩
  rintro (⟨key, found⟩ | ⟨pin', found⟩)
  · change (st.subNodes.insert (st.net, st.maxNodeId + 1) st.next).lookup key = some node at found
    rcases lookup_of_insert found with ⟨-, rfl⟩ | ⟨-, found⟩
    · exact absurd less (lt_irrefl _)
    · exact valid.apart key pin _ found here
  · change (st.pinNodes.erase pin).lookup pin' = some node at found
    by_cases same : pin' = pin
    · rw [same,AList.lookup_erase] at found
      cases found
    · rw [AList.lookup_erase_ne same] at found
      exact same (valid.ownPin pin' pin node found here)

omit [DecidableEq ν] [DecidableEq π] in
theorem map_replaceNode (apart : ∀ device ∈ st.resistors ++ st.capacitors, ¬device.IsLoop node) (subnode : ℕ) :
    st.resistors.map (ParasiticDevice.replaceNode node subnode) =
    st.resistors.map (ParasiticDevice.handOver node subnode) ∧
      st.capacitors.map (ParasiticDevice.replaceNode node subnode) =
        st.capacitors.map (ParasiticDevice.handOver node subnode) := by
  constructor
  · apply List.map_congr_left
    exact fun device mem => ParasiticDevice.replaceNode_eq_handOver (apart device (List.mem_append_left _ mem))
  · apply List.map_congr_left
    exact fun device mem => ParasiticDevice.replaceNode_eq_handOver (apart device (List.mem_append_right _ mem))

/-- A device with both terminals at the node keeps the second one. -/
theorem disconnectPinBefore_iff (valid : st.Valid) (pin : π) :
    Disconnected st (st.disconnectPinBefore pin) pin ↔ st.Disconnectable pin := by
  constructor
  · intro done node here
    constructor
    · have lost := valid.disconnectPinBefore_capacitance here
      rw [done.capacitance] at lost
      linarith
    · intro device mem loop
      have none := (done.gone node here).2.2
      rw [valid.disconnectPinBefore_eq here,← List.map_append] at none
      exact none _ (List.mem_map_of_mem mem) (ParasiticDevice.replaceNode_touches_of_isLoop loop)
  · intro fit
    constructor
    case capacitance =>
      cases found : st.pinNodes.lookup pin with
      | some node =>
        have lost := valid.disconnectPinBefore_capacitance found
        rw [(fit node found).1,zero_add] at lost
        exact lost.symm
      | none => rw [disconnectPinBefore,disconnectPin,found]
    case handed =>
      intro node here
      obtain ⟨resistors, capacitors⟩ := map_replaceNode (fit node here).2 st.next
      refine ⟨st.next, (st.net, st.maxNodeId + 1), valid.next_id, valid.next_free, ?_⟩
      rw [valid.disconnectPinBefore_eq here]
      exact ⟨AList.lookup_insert _, resistors, capacitors⟩
    case gone =>
      intro node here
      have differs : st.next ≠ node := fun same => absurd (valid.below node (.inr ⟨pin, here⟩)) (by omega)
      obtain ⟨deleted, apart⟩ := valid.disconnectPinBefore_gone here
      refine ⟨deleted, apart, ?_⟩
      obtain ⟨resistors, capacitors⟩ := map_replaceNode (fit node here).2 st.next
      rw [valid.disconnectPinBefore_eq here]
      change ∀ device ∈ st.resistors.map _ ++ st.capacitors.map _, _
      rw [resistors,capacitors,← List.map_append]
      intro device mem
      obtain ⟨old, -, rfl⟩ := List.mem_map.1 mem
      exact ParasiticDevice.handOver_not_touches differs

/-- A resistor from the pin to a subnode with a capacitance. -/
def joinedNetwork (connectivity : Connectivity ℕ ℕ) : ParasiticNetwork ℕ ℕ :=
  let (pinMade, node) := (make 0 : ParasiticNetwork ℕ ℕ).ensurePinNode connectivity 1
  let (made, subnode) := pinMade.ensureSubNode 0 1
  (made.incrCap subnode 2).addResistor ⟨0, 3, some node, some subnode⟩

/-- A resistor with both of its ends at the pin. -/
def loopedNetwork (connectivity : Connectivity ℕ ℕ) : ParasiticNetwork ℕ ℕ :=
  let (made, node) := (make 0 : ParasiticNetwork ℕ ℕ).ensurePinNode connectivity 1
  made.addResistor ⟨0, 3, some node, some node⟩

theorem joinedNetwork_built (connectivity : Connectivity ℕ ℕ) : Built connectivity (joinedNetwork connectivity) := by
  apply Built.addResistor
  · exact ((Built.make 0).ensurePinNode 1).ensureSubNode 0 1 |>.incrCap _ 2
  · rintro node (first | second)
    · exact .inr ⟨1, first⟩
    · exact .inl ⟨(0, 1), second⟩

theorem loopedNetwork_built (connectivity : Connectivity ℕ ℕ) : Built connectivity (loopedNetwork connectivity) := by
  apply Built.addResistor
  · exact (Built.make 0).ensurePinNode 1
  · rintro node (first | second)
    · exact .inr ⟨1, first⟩
    · exact .inr ⟨1, second⟩

def wire : Connectivity ℕ ℕ := ⟨fun _ => some 0, fun _ => none, fun _ => false, id⟩

theorem disconnectPinBefore_joined :
    Disconnected (joinedNetwork wire) ((joinedNetwork wire).disconnectPinBefore 1) 1 := by
  apply (disconnectPinBefore_iff (joinedNetwork_built wire).valid 1).2
  intro node here
  obtain rfl : 0 = node := Option.some.inj here
  decide +kernel

theorem disconnectPinBefore_dangling :
    Built wire (loopedNetwork wire) ∧
    ¬Disconnected (loopedNetwork wire) ((loopedNetwork wire).disconnectPinBefore 1) 1 := by
  refine ⟨loopedNetwork_built wire, fun done => ?_⟩
  exact (done.gone 0 rfl).2.2 _ (List.mem_singleton.2 rfl) (.inr rfl)

end ParasiticNetwork
end Disconnect

end GTPower.ParasiticNetworks
