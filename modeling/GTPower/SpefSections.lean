import GTPower.ParasiticNetwork
import Mathlib.Tactic.NormNum

/-! The entries of one net section, and what they add to the capacitances of the nodes. The node of an entry is made by
the first entry that names it. -/
namespace GTPower.SpefSections
open KeyedSums ParasiticNetworks

section Source
variable {ν π : Type}

/-- What the name of a node stands for. -/
inductive NodeRef (ν π : Type)
  | pin (pin : π)
  | sub (net : ν) (id : ℤ)
  deriving DecidableEq

inductive SpefTriple
  | single (value : ℚ)
  | triple (value1 value2 value3 : ℚ)

def SpefTriple.value (index : Fin 3) : SpefTriple → ℚ
  | single value => value
  | triple value1 value2 value3 => [value1, value2, value3].get index

/-- A name may stand for nothing. -/
inductive Entry (ν π : Type)
  | capacitor (node : Option (NodeRef ν π)) (cap : SpefTriple)
  | coupling (id : ℕ) (node1 node2 : Option (NodeRef ν π)) (cap : SpefTriple)
  | resistor (id : ℕ) (node1 node2 : Option (NodeRef ν π)) (res : SpefTriple)

/-- `net` is the net of the section, which need not be that of the network. -/
structure SpefReader (ν π : Type) where
  connectivity : Connectivity ν π
  net : ν
  tripleIndex : Fin 3
  capScale : ℚ
  resScale : ℚ
  couplingCapFactor : ℚ
  keepCouplingCaps : Bool

namespace SpefReader
variable [DecidableEq ν] [DecidableEq π] (reader : SpefReader ν π)

def findParasiticNode (st : ParasiticNetwork ν π) : Option (NodeRef ν π) → ParasiticNetwork ν π × Option ℕ
  | none => (st, none)
  | some (.pin pin) => let (made, node) := st.ensurePinNode reader.connectivity pin; (made, some node)
  | some (.sub net id) => let (made, node) := st.ensureSubNode net id; (made, some node)

def nodeNet : NodeRef ν π → Option ν
  | .pin pin => reader.connectivity.nodeNet pin
  | .sub net _ => some net

def makeCapacitor (st : ParasiticNetwork ν π) (ref : Option (NodeRef ν π)) (cap : SpefTriple) : ParasiticNetwork ν π :=
  match reader.findParasiticNode st ref with
  | (made, some node) => made.incrCap node (cap.value reader.tripleIndex * reader.capScale)
  | (made, none) => made

/-- The capacitance goes to a node of the net of the section. -/
def incrOwn (st : ParasiticNetwork ν π) (ref : Option (NodeRef ν π)) (node : Option ℕ) (cap : ℚ) :
    ParasiticNetwork ν π :=
  match ref, node with
  | some ref, some node => if reader.nodeNet ref = some reader.net then st.incrCap node cap else st
  | _, _ => st

def makeCouplingCapacitor (st : ParasiticNetwork ν π) (id : ℕ) (ref1 ref2 : Option (NodeRef ν π)) (cap : SpefTriple) :
    ParasiticNetwork ν π :=
  let (made1, node1) := reader.findParasiticNode st ref1
  let (made2, node2) := reader.findParasiticNode made1 ref2
  let cap1 := cap.value reader.tripleIndex * reader.capScale
  if 0 < cap1 then
    if reader.keepCouplingCaps then made2.addCapacitor ⟨id, cap1, node1, node2⟩
    else
      let scaledCap := cap1 * reader.couplingCapFactor
      reader.incrOwn (reader.incrOwn made2 ref1 node1 scaledCap) ref2 node2 scaledCap
  else made2

def makeResistor (st : ParasiticNetwork ν π) (id : ℕ) (ref1 ref2 : Option (NodeRef ν π)) (res : SpefTriple) :
    ParasiticNetwork ν π :=
  let (made1, node1) := reader.findParasiticNode st ref1
  let (made2, node2) := reader.findParasiticNode made1 ref2
  match node1, node2 with
  | some node1, some node2 => made2.addResistor ⟨id, res.value reader.tripleIndex * reader.resScale,
    some node1, some node2⟩
  | _, _ => made2

def readEntry (st : ParasiticNetwork ν π) : Entry ν π → ParasiticNetwork ν π
  | .capacitor node cap => reader.makeCapacitor st node cap
  | .coupling id node1 node2 cap => reader.makeCouplingCapacitor st id node1 node2 cap
  | .resistor id node1 node2 res => reader.makeResistor st id node1 node2 res

def readSection (st : ParasiticNetwork ν π) (entries : List (Entry ν π)) : ParasiticNetwork ν π :=
  entries.foldl reader.readEntry st

end SpefReader
end Source

section Nodes
variable {ν π : Type} [DecidableEq ν] [DecidableEq π] {reader : SpefReader ν π} {st st' : ParasiticNetwork ν π}
    {ref ref' : NodeRef ν π}
  {node : ℕ} {cap : ℚ}

def nodeAt (st : ParasiticNetwork ν π) : NodeRef ν π → Option ℕ
  | .pin pin => st.pinNodes.lookup pin
  | .sub net id => st.subNodes.lookup (net, id)

def capAt (st : ParasiticNetwork ν π) (node : ℕ) : ℚ := ((st.nodes node).map ParasiticNode.cap).getD 0

def isExternalAt (st : ParasiticNetwork ν π) (node : ℕ) : Bool := (st.nodes node).any ParasiticNode.isExternal

/-- What the network decides when it makes the node. -/
def IsExternal (connectivity : Connectivity ν π) (net : ν) : NodeRef ν π → Bool
  | .pin pin => connectivity.ownerNet pin ≠ some net
  | .sub net' _ => net' ≠ net

theorem nodeAt_unique (valid : st.Valid) (here : nodeAt st ref = some node) (here' : nodeAt st ref' = some node) :
    ref = ref' := by
  cases ref with
  | pin pin =>
    cases ref' with
    | pin pin' => rw [valid.ownPin pin pin' node here here']
    | sub net' id' => exact absurd here (valid.apart _ pin node here')
  | sub net id =>
    cases ref' with
    | pin pin' => exact absurd here' (valid.apart _ pin' node here)
    | sub net' id' =>
      obtain ⟨rfl, rfl⟩ := Prod.mk.inj (valid.ownSub _ _ node here here')
      rfl

theorem nodeAt_refers (here : nodeAt st ref = some node) : st.Refers node := by
  cases ref with
  | pin pin => exact .inr ⟨pin, here⟩
  | sub net id => exact .inl ⟨(net, id), here⟩

/-- The mark of a node is that of its reference. -/
structure Marked (connectivity : Connectivity ν π) (st : ParasiticNetwork ν π) : Prop extends st.Valid where
  mark : ∀ ref node, nodeAt st ref = some node → ∃ cap, st.nodes node = some ⟨cap, IsExternal connectivity st.net ref⟩

theorem Marked.make (connectivity : Connectivity ν π) (net : ν) : Marked connectivity (ParasiticNetwork.make net) where
  toValid := .make net
  mark ref node here := by
    cases ref with
    | pin pin => simp [nodeAt,ParasiticNetwork.make] at here
    | sub net id => simp [nodeAt,ParasiticNetwork.make] at here

theorem newNode_mark (marked : Marked reader.connectivity st) (isExternal : Bool) (ref : NodeRef ν π)
    (here : nodeAt st ref = some node) :
    ∃ cap, (st.newNode isExternal).nodes node = some ⟨cap, IsExternal reader.connectivity st.net ref⟩ := by
  have differs : node ≠ st.next := (marked.below node (nodeAt_refers here)).ne
  obtain ⟨cap, found⟩ := marked.mark ref node here
  exact ⟨cap, (Function.update_of_ne differs _ _).trans found⟩

theorem Marked.ensureSubNode (marked : Marked reader.connectivity st) (net : ν) (id : ℤ) :
    Marked reader.connectivity (st.ensureSubNode net id).1 where
  toValid := marked.toValid.ensureSubNode net id
  mark := by
    unfold ParasiticNetwork.ensureSubNode
    cases found : st.subNodes.lookup (net, id) with
    | some node => exact marked.mark
    | none =>
      intro ref node here
      cases ref with
      | pin pin => exact newNode_mark marked _ (.pin pin) here
      | sub net' id' =>
        rcases lookup_of_insert here with ⟨same, rfl⟩ | ⟨-, old⟩
        · obtain ⟨rfl, rfl⟩ := Prod.mk.inj same
          exact ⟨0, Function.update_self _ _ _⟩
        · exact newNode_mark marked _ (.sub net' id') old

theorem Marked.ensurePinNode (marked : Marked reader.connectivity st) (pin : π) :
    Marked reader.connectivity (st.ensurePinNode reader.connectivity pin).1 where
  toValid := marked.toValid.ensurePinNode reader.connectivity pin
  mark := by
    unfold ParasiticNetwork.ensurePinNode
    cases found : st.pinNodes.lookup pin with
    | some node => exact marked.mark
    | none =>
      intro ref node here
      cases ref with
      | sub net id => exact newNode_mark marked _ (.sub net id) here
      | pin pin' =>
        rcases lookup_of_insert here with ⟨rfl, rfl⟩ | ⟨-, old⟩
        · exact ⟨0, Function.update_self _ _ _⟩
        · exact newNode_mark marked _ (.pin pin') old

omit [DecidableEq ν] [DecidableEq π] in
theorem incrCap_nodes_self (node : ℕ) (cap : ℚ) :
    (st.incrCap node cap).nodes node = (st.nodes node).map fun n => { n with cap := n.cap + cap } :=
    Function.update_self _ _ _

omit [DecidableEq ν] [DecidableEq π] in
theorem incrCap_nodes_of_ne {other : ℕ} (differs : other ≠ node) (cap : ℚ) :
    (st.incrCap node cap).nodes other = st.nodes other :=
  Function.update_of_ne differs _ _

theorem Marked.incrCap (marked : Marked reader.connectivity st) (node : ℕ) (cap : ℚ) :
    Marked reader.connectivity (st.incrCap node cap) where
  toValid := marked.toValid.incrCap node cap
  mark ref other here := by
    obtain ⟨cap', found⟩ := marked.mark ref other here
    by_cases same : other = node
    · subst same
      refine ⟨cap' + cap, ?_⟩
      rw [incrCap_nodes_self,found]
      rfl
    · exact ⟨cap', (incrCap_nodes_of_ne same cap).trans found⟩

theorem Marked.isExternalAt (marked : Marked reader.connectivity st) (here : nodeAt st ref = some node) :
    isExternalAt st node = IsExternal reader.connectivity st.net ref := by
  obtain ⟨cap, found⟩ := marked.mark ref node here
  rw [SpefSections.isExternalAt,found]
  rfl

theorem capAt_incrCap (here : st.Refers node) (valid : st.Valid) (other : ℕ) :
    capAt (st.incrCap node cap) other = capAt st other + if other = node then cap else 0 := by
  by_cases same : other = node
  · subst same
    obtain ⟨found, eq⟩ := Option.isSome_iff_exists.1 ((valid.live other).2 here)
    rw [capAt,capAt,incrCap_nodes_self,eq,if_pos rfl]
    rfl
  · rw [capAt,capAt,incrCap_nodes_of_ne same,if_neg same,add_zero]

theorem nodeCap_incrCap (marked : Marked reader.connectivity st) (here : nodeAt st ref = some node) (cap : ℚ) :
    (st.incrCap node cap).nodeCap node = st.nodeCap node + if IsExternal reader.connectivity st.net ref then 0
    else cap := by
  obtain ⟨cap', found⟩ := marked.mark ref node here
  rw [ParasiticNetwork.nodeCap,ParasiticNetwork.nodeCap,incrCap_nodes_self,found]
  cases IsExternal reader.connectivity st.net ref <;> simp

theorem capacitance_incrCap (marked : Marked reader.connectivity st) (here : nodeAt st ref = some node) :
    (st.incrCap node cap).capacitance = st.capacitance + if IsExternal reader.connectivity st.net ref then 0
    else cap := by
  have changed := nodeCap_incrCap marked here cap
  have same (other : ℕ) (differs : other ≠ node) : (st.incrCap node cap).nodeCap other = st.nodeCap other := by
    rw [ParasiticNetwork.nodeCap,ParasiticNetwork.nodeCap,incrCap_nodes_of_ne differs]
  unfold ParasiticNetwork.capacitance
  change total (st.incrCap node cap).nodeCap st.subNodes + total (st.incrCap node cap).nodeCap st.pinNodes +
    (st.capacitors.map _).sum = _
  cases ref with
  | pin pin =>
    have subs : total (st.incrCap node cap).nodeCap st.subNodes = total st.nodeCap st.subNodes := by
      apply total_congr
      intro key other found
      apply same
      rintro rfl
      exact marked.apart key pin other found here
    rw [subs,total_change here (fun pin' found => marked.ownPin pin' pin node found here) same changed]
    ring
  | sub net id =>
    have pins : total (st.incrCap node cap).nodeCap st.pinNodes = total st.nodeCap st.pinNodes := by
      apply total_congr
      intro pin other found
      apply same
      rintro rfl
      exact marked.apart (net, id) pin other here found
    rw [pins,total_change here (fun key found => marked.ownSub key (net, id) node found here) same changed]
    ring

end Nodes

section Finds
variable {ν π : Type} [DecidableEq ν] [DecidableEq π] {reader : SpefReader ν π} {st : ParasiticNetwork ν π}

/-- What is there after a node is looked up, or made. -/
structure Finds (reader : SpefReader ν π) (st : ParasiticNetwork ν π) (ref : Option (NodeRef ν π))
    (after : ParasiticNetwork ν π) (node : Option ℕ) : Prop where
  marked : Marked reader.connectivity after
  net : after.net = st.net
  capAt : capAt after = SpefSections.capAt st
  capacitance : after.capacitance = st.capacitance
  keeps : ∀ ref node, nodeAt st ref = some node → nodeAt after ref = some node
  found : node = ref.bind (nodeAt after)
  present : ∀ named ∈ ref, (nodeAt after named).isSome

theorem newNode_capAt (valid : st.Valid) (isExternal : Bool) : capAt (st.newNode isExternal) = capAt st := by
  funext node
  unfold capAt ParasiticNetwork.newNode
  by_cases same : node = st.next
  · subst same
    simp [valid.next_free]
  · simp [same]

theorem ensureSubNode_finds (marked : Marked reader.connectivity st) (net : ν) (id : ℤ) :
    Finds reader st (some (.sub net id)) (st.ensureSubNode net id).1 (some (st.ensureSubNode net id).2) := by
  have here : nodeAt (st.ensureSubNode net id).1 (.sub net id) = some (st.ensureSubNode net id).2 := by
    unfold ParasiticNetwork.ensureSubNode
    cases found : st.subNodes.lookup (net, id) with
    | some node => exact found
    | none => exact AList.lookup_insert _
  constructor
  case marked => exact marked.ensureSubNode net id
  case net =>
    unfold ParasiticNetwork.ensureSubNode
    cases st.subNodes.lookup (net, id) <;> rfl
  case capAt =>
    unfold ParasiticNetwork.ensureSubNode
    cases st.subNodes.lookup (net, id) with
    | some node => rfl
    | none => exact newNode_capAt marked.toValid _
  case capacitance => exact marked.toValid.ensureSubNode_capacitance net id
  case keeps =>
    intro ref node before
    unfold ParasiticNetwork.ensureSubNode
    cases found : st.subNodes.lookup (net, id) with
    | some node' => exact before
    | none =>
      cases ref with
      | pin pin => exact before
      | sub net' id' =>
        have differs : (net', id') ≠ (net, id) := by
          intro same
          have before : st.subNodes.lookup (net', id') = some node := before
          rw [same,found] at before
          cases before
        exact (AList.lookup_insert_ne differs).trans before
  case found => exact here.symm
  case present =>
    intro named same
    rw [← Option.some.inj same,here]
    rfl

theorem ensurePinNode_finds (marked : Marked reader.connectivity st) (pin : π) :
    Finds reader st (some (.pin pin)) (st.ensurePinNode reader.connectivity pin).1
    (some (st.ensurePinNode reader.connectivity pin).2) := by
  have here : nodeAt (st.ensurePinNode reader.connectivity pin).1 (.pin pin) =
    some (st.ensurePinNode reader.connectivity pin).2 := by
    unfold ParasiticNetwork.ensurePinNode
    cases found : st.pinNodes.lookup pin with
    | some node => exact found
    | none => exact AList.lookup_insert _
  constructor
  case marked => exact marked.ensurePinNode pin
  case net =>
    unfold ParasiticNetwork.ensurePinNode
    cases st.pinNodes.lookup pin <;> rfl
  case capAt =>
    unfold ParasiticNetwork.ensurePinNode
    cases st.pinNodes.lookup pin with
    | some node => rfl
    | none => exact newNode_capAt marked.toValid _
  case capacitance => exact marked.toValid.ensurePinNode_capacitance reader.connectivity pin
  case keeps =>
    intro ref node before
    unfold ParasiticNetwork.ensurePinNode
    cases found : st.pinNodes.lookup pin with
    | some node' => exact before
    | none =>
      cases ref with
      | sub net id => exact before
      | pin pin' =>
        have differs : pin' ≠ pin := by
          intro same
          have before : st.pinNodes.lookup pin' = some node := before
          rw [same,found] at before
          cases before
        exact (AList.lookup_insert_ne differs).trans before
  case found => exact here.symm
  case present =>
    intro named same
    rw [← Option.some.inj same,here]
    rfl

theorem findParasiticNode_finds (marked : Marked reader.connectivity st) (ref : Option (NodeRef ν π)) :
    Finds reader st ref (reader.findParasiticNode st ref).1 (reader.findParasiticNode st ref).2 := by
  cases ref with
  | none =>
    exact ⟨marked, rfl, rfl, rfl, fun _ _ here => here, rfl, fun _ same => absurd same (Option.some_ne_none _).symm⟩
  | some ref =>
    cases ref with
    | pin pin => exact ensurePinNode_finds marked pin
    | sub net id => exact ensureSubNode_finds marked net id

end Finds

section Entries
variable {ν π : Type} [DecidableEq ν] [DecidableEq π] {reader : SpefReader ν π} {st : ParasiticNetwork ν π}

def SpefReader.scaled (reader : SpefReader ν π) (cap : SpefTriple) : ℚ := cap.value reader.tripleIndex * reader.capScale

/-- The node at an end of a coupling, when it belongs to the net of the network. -/
def onNet (st : ParasiticNetwork ν π) (ref : Option (NodeRef ν π)) : List ℕ :=
  (ref.bind (nodeAt st)).toList.filter fun node => !isExternalAt st node

def EntryCounts (reader : SpefReader ν π) (st : ParasiticNetwork ν π) (entry : Entry ν π) : Prop :=
  let after := reader.readEntry st entry
  match entry with
  | .capacitor _ cap => after.capacitance = st.capacitance + reader.scaled cap
  | .coupling _ ref1 ref2 cap =>
    let added := reader.couplingCapFactor * reader.scaled cap
    (∀ node, capAt after node = capAt st node + (onNet after ref1 ++ onNet after ref2).count node * added) ∧
      after.capacitance = st.capacitance + (onNet after ref1 ++ onNet after ref2).length * added
  | .resistor _ _ _ _ => after.capacitance = st.capacitance

def Fit (reader : SpefReader ν π) (net : ν) : Entry ν π → Prop
  | .capacitor ref cap => reader.scaled cap = 0 ∨ ∃ named ∈ ref, IsExternal reader.connectivity net named = false
  | .coupling _ ref1 ref2 cap => reader.couplingCapFactor * reader.scaled cap = 0 ∨
      ∀ named, named ∈ ref1 ∨ named ∈ ref2 →
        (0 < reader.scaled cap ∧ reader.nodeNet named = some reader.net ↔
          IsExternal reader.connectivity net named = false)
  | .resistor _ _ _ _ => True

/-- What goes to the node by way of one end of a coupling. -/
def share (counts : NodeRef ν π → Prop) [DecidablePred counts] (st : ParasiticNetwork ν π)
    (ref : Option (NodeRef ν π)) (cap : ℚ) (node : ℕ) : ℚ :=
  match ref with
  | some named => if nodeAt st named = some node ∧ counts named then cap else 0
  | none => 0

/-- What goes to any node by way of one end. -/
def part (counts : NodeRef ν π → Prop) [DecidablePred counts] (ref : Option (NodeRef ν π)) (cap : ℚ) : ℚ :=
  match ref with
  | some named => if counts named then cap else 0
  | none => 0

section Shares
variable {counts counts' : NodeRef ν π → Prop} [DecidablePred counts] [DecidablePred counts']
    {ref ref1 ref2 : Option (NodeRef ν π)}
  {named : NodeRef ν π} {node : ℕ} {cap : ℚ}

theorem share_eq (valid : st.Valid) (here : nodeAt st named = some node) :
    share counts st ref cap node = (if ref = some named then 1 else 0) * if counts named then cap else 0 := by
  cases ref with
  | none => simp [share]
  | some other =>
    by_cases same : other = named
    · subst same
      simp [share,here]
    · have differs : nodeAt st other ≠ some node := fun here' => same (nodeAt_unique valid here' here)
      simp [share,differs,same]

theorem share_nodes {st' : ParasiticNetwork ν π} (same : nodeAt st' = nodeAt st) (node : ℕ) :
    share counts st' ref cap node = share counts st ref cap node := by
  cases ref with
  | none => rfl
  | some named => simp only [share,same]

theorem share_congr (agree : ∀ named ∈ ref, (counts named ↔ counts' named)) (node : ℕ) :
    share counts st ref cap node = share counts' st ref cap node := by
  cases ref with
  | none => rfl
  | some named => simp only [share,agree named rfl]

theorem share_of_not (never : ∀ named, ¬counts named) (node : ℕ) : share counts st ref cap node = 0 := by
  cases ref with
  | none => rfl
  | some named => exact if_neg fun both => never named both.2

omit [DecidableEq ν] [DecidableEq π] in
theorem part_of_not (never : ∀ named, ¬counts named) : part counts ref cap = 0 := by
  cases ref with
  | none => rfl
  | some named => exact if_neg (never named)

omit [DecidableEq ν] [DecidableEq π] in
theorem part_congr (agree : ∀ named ∈ ref, (counts named ↔ counts' named)) :
    part counts ref cap = part counts' ref cap := by
  cases ref with
  | none => rfl
  | some named => simp only [part,agree named rfl]

theorem share_zero (node : ℕ) : share counts st ref 0 node = 0 := by
  cases ref <;> simp [share]

theorem shares_iff (valid : st.Valid) (made : ∀ named, named ∈ ref1 ∨ named ∈ ref2 → (nodeAt st named).isSome) :
    (∀ node, share counts st ref1 cap node + share counts st ref2 cap node =
        share counts' st ref1 cap node + share counts' st ref2 cap node) ↔
      cap = 0 ∨ ∀ named, named ∈ ref1 ∨ named ∈ ref2 → (counts named ↔ counts' named) := by
  constructor
  · intro same
    refine or_iff_not_imp_left.2 fun positive named mem => ?_
    obtain ⟨node, here⟩ := Option.isSome_iff_exists.1 (made named mem)
    have total := same node
    rw [share_eq valid here,share_eq valid here,share_eq valid here,share_eq valid here,← add_mul,← add_mul] at total
    have some : (if ref1 = some named then (1 : ℚ) else 0) + (if ref2 = some named then 1 else 0) ≠ 0 := by
      rcases mem with rfl | rfl
      · rw [if_pos rfl]
        split <;> norm_num
      · rw [if_pos rfl]
        split <;> norm_num
    have each := mul_left_cancel₀ some total
    by_cases first : counts named <;> by_cases second : counts' named <;> simp_all
  · rintro (rfl | agree) node
    · rw [share_zero,share_zero,share_zero,share_zero]
    · rw [share_congr (fun named mem => agree named (.inl mem)),share_congr (fun named mem => agree named (.inr mem))]

end Shares

/-- The nodes that count are those of the references that count. -/
theorem count_onNet (marked : Marked reader.connectivity st) (ref : Option (NodeRef ν π)) (cap : ℚ) (node : ℕ) :
    ((onNet st ref).count node : ℚ) * cap =
      share (fun named => IsExternal reader.connectivity st.net named = false) st ref cap node := by
  cases ref with
  | none => simp [onNet,share]
  | some named =>
    cases here : nodeAt st named with
    | none => simp [onNet,share,here]
    | some other =>
      have mark := marked.isExternalAt here
      by_cases same : other = node
      · subst same
        cases external : IsExternal reader.connectivity st.net named <;> simp [onNet,share,here,mark,external]
      · cases external : IsExternal reader.connectivity st.net named <;> simp [onNet,share,here,mark,external,same]

theorem length_onNet (marked : Marked reader.connectivity st) {ref : Option (NodeRef ν π)}
    (made : ∀ named ∈ ref, (nodeAt st named).isSome) (cap : ℚ) :
    ((onNet st ref).length : ℚ) * cap = part (fun named => IsExternal reader.connectivity st.net named = false)
    ref cap := by
  cases ref with
  | none => simp [onNet,part]
  | some named =>
    obtain ⟨other, here⟩ := Option.isSome_iff_exists.1 (made named rfl)
    have mark := marked.isExternalAt here
    cases external : IsExternal reader.connectivity st.net named <;> simp [onNet,part,here,mark,external]

/-- What a step that adds to the ends of a coupling does. -/
structure Adds (reader : SpefReader ν π) (counts : NodeRef ν π → Prop) [DecidablePred counts]
    (st st' : ParasiticNetwork ν π) (ref : Option (NodeRef ν π)) (cap : ℚ) : Prop where
  marked : Marked reader.connectivity st'
  net : st'.net = st.net
  nodes : nodeAt st' = nodeAt st
  capAt : ∀ node, capAt st' node = SpefSections.capAt st node + share counts st ref cap node
  capacitance : st'.capacitance = st.capacitance +
    part (fun named => counts named ∧ IsExternal reader.connectivity st.net named = false) ref cap

theorem incrOwn_adds (marked : Marked reader.connectivity st) {ref : Option (NodeRef ν π)}
    (made : ∀ named, named ∈ ref → (nodeAt st named).isSome) (cap : ℚ) :
    Adds reader (fun named => reader.nodeNet named = some reader.net) st
    (reader.incrOwn st ref (ref.bind (nodeAt st)) cap) ref cap := by
  cases ref with
  | none => exact ⟨marked, rfl, rfl, fun node => (add_zero _).symm, (add_zero _).symm⟩
  | some named =>
    obtain ⟨node, here⟩ := Option.isSome_iff_exists.1 (made named rfl)
    have found : (some named).bind (nodeAt st) = some node := here
    rw [found]
    by_cases owns : reader.nodeNet named = some reader.net
    · have eq : reader.incrOwn st (some named) (some node) cap = st.incrCap node cap := if_pos owns
      rw [eq]
      constructor
      case marked => exact marked.incrCap node cap
      case net => rfl
      case nodes => funext ref; cases ref <;> rfl
      case capAt =>
        intro other
        rw [capAt_incrCap (nodeAt_refers here) marked.toValid]
        simp only [share,here,owns,and_true,Option.some.injEq,eq_comm]
      case capacitance =>
        rw [capacitance_incrCap marked here]
        cases external : IsExternal reader.connectivity st.net named <;> simp [part,owns,external]
    · have eq : reader.incrOwn st (some named) (some node) cap = st := if_neg owns
      rw [eq]
      constructor
      case marked => exact marked
      case net => rfl
      case nodes => rfl
      case capAt => intro other; simp [share,owns]
      case capacitance => simp [part,owns]

def Counted (reader : SpefReader ν π) (cap : SpefTriple) (named : NodeRef ν π) : Prop :=
  0 < reader.scaled cap ∧ reader.nodeNet named = some reader.net

instance (cap : SpefTriple) : DecidablePred (Counted reader cap) := fun _ => inferInstanceAs (Decidable (_ ∧ _))

structure Couples (reader : SpefReader ν π) (st after : ParasiticNetwork ν π) (ref1 ref2 : Option (NodeRef ν π))
    (cap : SpefTriple) :
    Prop where
  marked : Marked reader.connectivity after
  net : after.net = st.net
  made : ∀ named, named ∈ ref1 ∨ named ∈ ref2 → (nodeAt after named).isSome
  capAt : ∀ node, capAt after node = SpefSections.capAt st node +
    (share (Counted reader cap) after ref1 (reader.couplingCapFactor * reader.scaled cap) node +
      share (Counted reader cap) after ref2 (reader.couplingCapFactor * reader.scaled cap) node)
  capacitance : after.capacitance = st.capacitance +
    (part (fun named => Counted reader cap named ∧ IsExternal reader.connectivity st.net named = false) ref1
        (reader.couplingCapFactor * reader.scaled cap) +
      part (fun named => Counted reader cap named ∧ IsExternal reader.connectivity st.net named = false) ref2
        (reader.couplingCapFactor * reader.scaled cap))

theorem Finds.bind_eq {ref : Option (NodeRef ν π)} {after after' : ParasiticNetwork ν π} {node : Option ℕ}
    (finds : Finds reader st ref after node)
    (keeps : ∀ ref node, nodeAt after ref = some node → nodeAt after' ref = some node) :
    node = ref.bind (nodeAt after') := by
  rw [finds.found]
  cases ref with
  | none => rfl
  | some named =>
    obtain ⟨node, here⟩ := Option.isSome_iff_exists.1 (finds.present named rfl)
    exact here.trans (keeps named node here).symm

theorem makeCouplingCapacitor_eq (drop : reader.keepCouplingCaps = false) (id : ℕ) (ref1 ref2 : Option (NodeRef ν π))
    (cap : SpefTriple) :
    reader.makeCouplingCapacitor st id ref1 ref2 cap =
      if 0 < reader.scaled cap then
        reader.incrOwn (reader.incrOwn (reader.findParasiticNode (reader.findParasiticNode st ref1).1 ref2).1 ref1
          (reader.findParasiticNode st ref1).2 (reader.couplingCapFactor * reader.scaled cap)) ref2
          (reader.findParasiticNode (reader.findParasiticNode st ref1).1 ref2).2
            (reader.couplingCapFactor * reader.scaled cap)
      else (reader.findParasiticNode (reader.findParasiticNode st ref1).1 ref2).1 := by
  unfold SpefReader.makeCouplingCapacitor
  rw [drop,mul_comm reader.couplingCapFactor]
  rfl

theorem makeCouplingCapacitor_couples (marked : Marked reader.connectivity st) (drop : reader.keepCouplingCaps = false)
    (id : ℕ) (ref1 ref2 : Option (NodeRef ν π)) (cap : SpefTriple) :
    Couples reader st (reader.makeCouplingCapacitor st id ref1 ref2 cap) ref1 ref2 cap := by
  have first := findParasiticNode_finds marked ref1
  have second := findParasiticNode_finds first.marked ref2
  rw [makeCouplingCapacitor_eq drop]
  generalize reader.findParasiticNode st ref1 = found1 at first second
  generalize reader.findParasiticNode found1.1 ref2 = found2 at second
  have made (named : NodeRef ν π) (mem : named ∈ ref1 ∨ named ∈ ref2) : (nodeAt found2.1 named).isSome := by
    rcases mem with mem | mem
    · obtain ⟨node, here⟩ := Option.isSome_iff_exists.1 (first.present named mem)
      rw [second.keeps named node here]
      rfl
    · exact second.present named mem
  have net := second.net.trans first.net
  have capAt := second.capAt.trans first.capAt
  have capacitance := second.capacitance.trans first.capacitance
  by_cases positive : 0 < reader.scaled cap
  · simp only [if_pos positive,first.bind_eq second.keeps,second.found]
    have one := incrOwn_adds second.marked (fun named mem => made named (.inl mem))
      (reader.couplingCapFactor * reader.scaled cap)
    have two := incrOwn_adds one.marked (fun named (mem : named ∈ ref2) => by
      rw [one.nodes]; exact made named (.inr mem))
      (reader.couplingCapFactor * reader.scaled cap)
    rw [one.nodes] at two
    have counted (named : NodeRef ν π) : reader.nodeNet named = some reader.net ↔ Counted reader cap named :=
      (and_iff_right positive).symm
    have nodes := two.nodes.trans one.nodes
    constructor
    case marked => exact two.marked
    case net => exact (two.net.trans one.net).trans net
    case made => intro named mem; rw [nodes]; exact made named mem
    case capAt =>
      intro node
      rw [two.capAt,one.capAt,capAt,share_nodes nodes,share_nodes nodes,share_nodes one.nodes,add_assoc,
        share_congr (fun named _ => counted named),share_congr (fun named (_ : named ∈ ref2) => counted named)]
    case capacitance =>
      have each (named : NodeRef ν π) :=
        and_congr_left (c := IsExternal reader.connectivity st.net named = false) fun _ => counted named
      rw [two.capacitance,one.capacitance,capacitance,one.net,net,add_assoc,part_congr (fun named _ => each named),
        part_congr (fun named (_ : named ∈ ref2) => each named)]
  · simp only [if_neg positive]
    have never (named : NodeRef ν π) : ¬Counted reader cap named := fun counted => positive counted.1
    constructor
    case marked => exact second.marked
    case net => exact net
    case made => exact made
    case capAt => intro node; rw [capAt,share_of_not never,share_of_not never,add_zero,add_zero]
    case capacitance =>
      rw [capacitance,part_of_not (fun named both => never named both.1),
        part_of_not (fun named both => never named both.1),add_zero,add_zero]

theorem makeCapacitor_adds (marked : Marked reader.connectivity st) (ref : Option (NodeRef ν π)) (cap : SpefTriple) :
    Marked reader.connectivity (reader.makeCapacitor st ref cap) ∧ (reader.makeCapacitor st ref cap).net = st.net ∧
      (reader.makeCapacitor st ref cap).capacitance =
        st.capacitance + part (fun named => IsExternal reader.connectivity st.net named = false) ref
          (reader.scaled cap) := by
  have finds := findParasiticNode_finds marked ref
  unfold SpefReader.makeCapacitor
  generalize reader.findParasiticNode st ref = found at finds
  obtain ⟨made, node⟩ := found
  cases ref with
  | none =>
    obtain rfl : node = none := finds.found
    exact ⟨finds.marked, finds.net, finds.capacitance.trans (add_zero _).symm⟩
  | some named =>
    obtain ⟨other, here⟩ := Option.isSome_iff_exists.1 (finds.present named rfl)
    obtain rfl : node = some other := finds.found.trans here
    refine ⟨finds.marked.incrCap other _, finds.net, ?_⟩
    have net : made.net = st.net := finds.net
    have capacitance : made.capacitance = st.capacitance := finds.capacitance
    change (made.incrCap other (reader.scaled cap)).capacitance = _
    rw [capacitance_incrCap finds.marked here,net,capacitance]
    cases external : IsExternal reader.connectivity st.net named <;> simp [part,external]

theorem Marked.addResistor (marked : Marked reader.connectivity st) {resistor : ParasiticDevice}
    (there : ∀ node, resistor.Touches node → st.Refers node) :
    Marked reader.connectivity (st.addResistor resistor) where
  toValid := marked.toValid.addResistor there
  mark ref := by
    intro node here
    apply marked.mark ref node
    cases ref <;> exact here

theorem makeResistor_adds (marked : Marked reader.connectivity st) (id : ℕ) (ref1 ref2 : Option (NodeRef ν π))
    (res : SpefTriple) :
    Marked reader.connectivity (reader.makeResistor st id ref1 ref2 res) ∧
    (reader.makeResistor st id ref1 ref2 res).net = st.net ∧
      (reader.makeResistor st id ref1 ref2 res).capacitance = st.capacitance := by
  have first := findParasiticNode_finds marked ref1
  have second := findParasiticNode_finds first.marked ref2
  unfold SpefReader.makeResistor
  generalize reader.findParasiticNode st ref1 = found1 at first second
  generalize made : reader.findParasiticNode found1.1 ref2 = found2 at second
  have node1 := first.bind_eq second.keeps
  have node2 := second.found
  have net := second.net.trans first.net
  have capacitance := second.capacitance.trans first.capacitance
  obtain ⟨st1, node1'⟩ := found1
  obtain ⟨st2, node2'⟩ := found2
  simp only at made node1 node2 net capacitance second
  simp only [made]
  cases node1' with
  | none => exact ⟨second.marked, net, capacitance⟩
  | some end1 =>
    cases node2' with
    | none => exact ⟨second.marked, net, capacitance⟩
    | some end2 =>
      obtain ⟨named1, -, here1⟩ := Option.bind_eq_some_iff.1 node1.symm
      obtain ⟨named2, -, here2⟩ := Option.bind_eq_some_iff.1 node2.symm
      refine ⟨second.marked.addResistor ?_, net, capacitance⟩
      rintro node (touches | touches)
      · rw [← Option.some.inj touches]
        exact nodeAt_refers here1
      · rw [← Option.some.inj touches]
        exact nodeAt_refers here2

theorem readEntry_marked (marked : Marked reader.connectivity st) (drop : reader.keepCouplingCaps = false)
    (entry : Entry ν π) :
    Marked reader.connectivity (reader.readEntry st entry) ∧ (reader.readEntry st entry).net = st.net := by
  cases entry with
  | capacitor ref cap =>
    obtain ⟨marked, net, -⟩ := makeCapacitor_adds marked ref cap
    exact ⟨marked, net⟩
  | coupling id ref1 ref2 cap =>
    have couples := makeCouplingCapacitor_couples marked drop id ref1 ref2 cap
    exact ⟨couples.marked, couples.net⟩
  | resistor id ref1 ref2 res =>
    obtain ⟨marked, net, -⟩ := makeResistor_adds marked id ref1 ref2 res
    exact ⟨marked, net⟩

/-- An entry adds what it should just when the reader and the network agree on the nodes. -/
theorem entryCounts_iff (marked : Marked reader.connectivity st) (drop : reader.keepCouplingCaps = false)
    (entry : Entry ν π) :
    EntryCounts reader st entry ↔ Fit reader st.net entry := by
  cases entry with
  | capacitor ref cap =>
    have adds : (reader.readEntry st (.capacitor ref cap)).capacitance = _ := (makeCapacitor_adds marked ref cap).2.2
    simp only [EntryCounts,Fit]
    rw [adds,add_right_inj]
    constructor
    · intro whole
      cases ref with
      | none => exact .inl whole.symm
      | some named =>
        by_cases external : IsExternal reader.connectivity st.net named = false
        · exact .inr ⟨named, rfl, external⟩
        · exact .inl (whole.symm.trans (if_neg external))
    · rintro (zero | ⟨named, rfl, external⟩)
      · rw [zero]
        cases ref with
        | none => rfl
        | some named => exact ite_self _
      · exact if_pos external
  | coupling id ref1 ref2 cap =>
    have couples : Couples reader st (reader.readEntry st (.coupling id ref1 ref2 cap)) ref1 ref2 cap :=
      makeCouplingCapacitor_couples marked drop id ref1 ref2 cap
    simp only [EntryCounts,Fit]
    generalize reader.readEntry st (.coupling id ref1 ref2 cap) = after at couples
    have agree := @shares_iff ν π _ _ after (Counted reader cap) (fun named =>
      IsExternal reader.connectivity st.net named = false)
      _ _ ref1 ref2 (reader.couplingCapFactor * reader.scaled cap) couples.marked.toValid couples.made
    have each (node : ℕ) :
        capAt after node = capAt st node + ((onNet after ref1 ++ onNet after ref2).count node : ℕ) *
            (reader.couplingCapFactor * reader.scaled cap) ↔
          share (Counted reader cap) after ref1 (reader.couplingCapFactor * reader.scaled cap) node +
              share (Counted reader cap) after ref2 (reader.couplingCapFactor * reader.scaled cap) node =
            share (fun named => IsExternal reader.connectivity st.net named = false) after ref1
                (reader.couplingCapFactor * reader.scaled cap) node +
              share (fun named => IsExternal reader.connectivity st.net named = false) after ref2
                (reader.couplingCapFactor * reader.scaled cap) node := by
      rw [couples.capAt,add_right_inj,List.count_append,Nat.cast_add,add_mul,count_onNet couples.marked,
        count_onNet couples.marked,
        couples.net]
    constructor
    · intro counts
      exact agree.1 fun node => (each node).1 (counts.1 node)
    · intro fit
      refine ⟨fun node => (each node).2 (agree.2 fit node), ?_⟩
      rw [couples.capacitance,List.length_append,Nat.cast_add,add_mul,
        length_onNet couples.marked (fun named mem => couples.made named (.inl mem)),
        length_onNet couples.marked (fun named mem => couples.made named (.inr mem)),couples.net]
      rcases fit with zero | fit
      · rw [zero]
        cases ref1 <;> cases ref2 <;> simp [part]
      · have both (named : NodeRef ν π) (mem : named ∈ ref1 ∨ named ∈ ref2) :
            Counted reader cap named ∧ IsExternal reader.connectivity st.net named = false ↔
              IsExternal reader.connectivity st.net named = false := and_iff_right_of_imp (fit named mem).2
        rw [part_congr fun named mem => both named (.inl mem),@part_congr _ _ _ _ _ _ ref2 _ fun named mem =>
          both named (.inr mem)]
  | resistor id ref1 ref2 res => exact ⟨fun _ => trivial, fun _ => (makeResistor_adds marked id ref1 ref2 res).2.2⟩

/-- What the entries of a section add to the capacitance of the network: a coupling once for each of its ends on the
net. -/
def expected (reader : SpefReader ν π) (net : ν) : Entry ν π → ℚ
  | .capacitor _ cap => reader.scaled cap
  | .coupling _ ref1 ref2 cap =>
    part (fun named => IsExternal reader.connectivity net named = false) ref1
    (reader.couplingCapFactor * reader.scaled cap) +
      part (fun named => IsExternal reader.connectivity net named = false) ref2
        (reader.couplingCapFactor * reader.scaled cap)
  | .resistor _ _ _ _ => 0

structure SectionCounts (reader : SpefReader ν π) (st : ParasiticNetwork ν π) (entries : List (Entry ν π)) : Prop where
  entry : ∀ front entry back, entries = front ++ entry :: back → EntryCounts reader (reader.readSection st front) entry
  capacitance : (reader.readSection st entries).capacitance = st.capacitance +
    (entries.map (expected reader st.net)).sum

theorem EntryCounts.capacitance (marked : Marked reader.connectivity st) (drop : reader.keepCouplingCaps = false)
    {entry : Entry ν π} (counts : EntryCounts reader st entry) :
    (reader.readEntry st entry).capacitance = st.capacitance + expected reader st.net entry := by
  cases entry with
  | capacitor ref cap => exact counts
  | coupling id ref1 ref2 cap =>
    have couples : Couples reader st (reader.readEntry st (.coupling id ref1 ref2 cap)) ref1 ref2 cap :=
      makeCouplingCapacitor_couples marked drop id ref1 ref2 cap
    rw [counts.2,List.length_append,Nat.cast_add,add_mul,
      length_onNet couples.marked (fun named mem => couples.made named (.inl mem)),
      length_onNet couples.marked (fun named mem => couples.made named (.inr mem)),couples.net]
    rfl
  | resistor id ref1 ref2 res =>
    have kept : (reader.readEntry st (.resistor id ref1 ref2 res)).capacitance = st.capacitance := counts
    exact kept.trans (add_zero _).symm

theorem readSection_marked (marked : Marked reader.connectivity st) (drop : reader.keepCouplingCaps = false)
    (entries : List (Entry ν π)) :
    Marked reader.connectivity (reader.readSection st entries) ∧ (reader.readSection st entries).net = st.net := by
  induction entries generalizing st with
  | nil => exact ⟨marked, rfl⟩
  | cons entry rest ih =>
    obtain ⟨next, net⟩ := readEntry_marked marked drop entry
    obtain ⟨last, same⟩ := ih next
    exact ⟨last, same.trans net⟩

theorem readSection_capacitance (marked : Marked reader.connectivity st) (drop : reader.keepCouplingCaps = false)
    {entries : List (Entry ν π)} (fit : ∀ entry ∈ entries, Fit reader st.net entry) :
    (reader.readSection st entries).capacitance = st.capacitance + (entries.map (expected reader st.net)).sum := by
  induction entries generalizing st with
  | nil => exact (add_zero _).symm
  | cons entry rest ih =>
    obtain ⟨next, net⟩ := readEntry_marked marked drop entry
    have counts := (entryCounts_iff marked drop entry).2 (fit entry List.mem_cons_self)
    have later : ∀ entry' ∈ rest, Fit reader (reader.readEntry st entry).net entry' := by
      rw [net]
      exact fun entry' mem => fit entry' (List.mem_cons_of_mem _ mem)
    calc (reader.readSection st (entry :: rest)).capacitance
        = (reader.readEntry st entry).capacitance + (rest.map (expected reader (reader.readEntry st entry).net)).sum :=
          ih next later
      _ = st.capacitance + ((entry :: rest).map (expected reader st.net)).sum := by
        rw [counts.capacitance marked drop,net,List.map_cons,List.sum_cons,add_assoc]

/-- The reader tests the net of the node itself, the network the highest one above it. -/
theorem sectionCounts_iff (marked : Marked reader.connectivity st) (drop : reader.keepCouplingCaps = false)
    (entries : List (Entry ν π)) :
    SectionCounts reader st entries ↔ ∀ entry ∈ entries, Fit reader st.net entry := by
  constructor
  · intro counts entry mem
    obtain ⟨front, back, split⟩ := List.append_of_mem mem
    obtain ⟨there, net⟩ := readSection_marked marked drop front
    rw [← net]
    exact (entryCounts_iff there drop entry).1 (counts.entry front entry back split)
  · intro fit
    refine ⟨?_, readSection_capacitance marked drop fit⟩
    rintro front entry back rfl
    obtain ⟨there, net⟩ := readSection_marked marked drop front
    apply (entryCounts_iff there drop entry).2
    rw [net]
    exact fit entry (List.mem_append_right _ List.mem_cons_self)

/-- Net 1 is inside an instance that net 0 is connected to. -/
def nested : Connectivity ℕ ℕ := ⟨fun pin => some pin, fun _ => none, fun _ => false, fun _ => 0⟩

def nestedReader : SpefReader ℕ ℕ := ⟨nested, 0, 0, 1, 1, 1, false⟩

theorem sectionCounts_flat :
    SectionCounts nestedReader (ParasiticNetwork.make 0)
      [.capacitor (some (.pin 0)) (.single 2), .coupling 1 (some (.sub 0 1)) (some (.sub 5 1)) (.single 3)] := by
  apply (sectionCounts_iff (Marked.make nested 0) rfl _).2
  intro entry mem
  rcases List.mem_pair.1 mem with rfl | rfl
  · exact .inr ⟨.pin 0, rfl, by decide⟩
  · refine .inr fun named ends => ?_
    rcases ends with ends | ends
    · obtain rfl := Option.some.inj ends
      exact ⟨fun _ => by decide, fun _ => ⟨by norm_num [SpefReader.scaled,SpefTriple.value,nestedReader], rfl⟩⟩
    · obtain rfl := Option.some.inj ends
      refine ⟨fun both => absurd both.2 ?_, fun internal => absurd internal ?_⟩ <;> decide

theorem nested_coupling_lost :
    ¬SectionCounts nestedReader (ParasiticNetwork.make 0)
    [.coupling 1 (some (.pin 1)) (some (.sub 5 1)) (.single 3)] := by
  intro counts
  have total := counts.capacitance
  revert total
  decide +kernel

end Entries

end GTPower.SpefSections
