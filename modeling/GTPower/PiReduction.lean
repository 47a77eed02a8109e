import GTPower.SpanningTree

/-! The pi model of an RC network. -/
namespace GTPower.ReduceParasitics
open RcTrees

variable {N R P : Type*} [DecidableEq N] [DecidableEq R]

/-- A network of nonnegative resistances and capacitances. -/
structure Nonneg (red : ReduceToPi N R P) : Prop where
  value : ∀ r ∈ red.resistors, 0 ≤ red.value r
  capacitors : ∀ c ∈ red.capacitors, 0 ≤ c.value
  multiplier : 0 ≤ red.couplingCapMultiplier
  nodeGndCap : ∀ node, 0 ≤ red.nodeGndCap node
  pinCapacitance : ∀ pin, 0 ≤ red.pins.pinCapacitance pin
  portExtCap : ∀ pin, 0 ≤ red.pins.portExtCap pin

/-- From the driver, through nodes that are not external. -/
def Reached (red : ReduceToPi N R P) (drvrNode node : N) : Prop :=
  ¬red.isExternal drvrNode ∧
    Relation.ReflTransGen (fun u v => ∃ r ∈ red.resistorMap u, red.otherNode r u = v ∧ ¬red.isExternal v) drvrNode node

variable {red : ReduceToPi N R P}

omit [DecidableEq R] in
theorem Nonneg.nodeCap (nonneg : Nonneg red) (node : N) : 0 ≤ red.nodeCap node := by
  have coupling : 0 ≤ ((red.capacitorMap node).map (·.value)).sum := by
    apply List.sum_nonneg
    intro value mem
    obtain ⟨c, here, rfl⟩ := List.mem_map.1 mem
    obtain ⟨c', known, here⟩ := List.mem_flatMap.1 here
    have same : c = c' := by
      rcases List.mem_append.1 here with here | here
      all_goals
        split at here
        · exact List.mem_singleton.1 here
        · cases here
    exact same ▸ nonneg.capacitors c' known
  have pin : 0 ≤ red.pinCapacitance node := by
    unfold ReduceToPi.pinCapacitance
    have pins := nonneg.pinCapacitance
    have ports := nonneg.portExtCap
    grind
  exact add_nonneg (add_nonneg (nonneg.nodeGndCap node) (mul_nonneg coupling nonneg.multiplier)) pin

section Joined
variable {loops : Finset R} {visited : Finset N} {node : N} {fromRes : Option R} {l : List R} {b : Branches N R}

omit [DecidableEq R] in
theorem Joined.resistors_mem (joined : Joined red loops visited node fromRes l b) (known : ∀ r ∈ l, r ∈ red.resistors) :
    ∀ r ∈ b.resistors, r ∈ red.resistors := by
  induction joined with
  | nil => exact fun _ mem => absurd mem List.not_mem_nil
  | skip skipped tail ih => exact ih fun r mem => known r (.tail _ mem)
  | external outside tail ih => exact ih fun r mem => known r (.tail _ mem)
  | walk free unused unvisited inside inner tail ihi iht =>
    intro r mem
    simp only [Branches.resistors,List.mem_cons,List.mem_append] at mem
    rcases mem with rfl | mem | mem
    · exact known r (.head _)
    · exact ihi (fun r mem => (red.mem_resistorMap.1 mem).1) r mem
    · exact iht (fun r mem => known r (.tail _ mem)) r mem

omit [DecidableEq R] in
theorem Joined.reached {drvrNode : N} (joined : Joined red loops visited node fromRes l b)
    (known : ∀ r ∈ l, r ∈ red.resistorMap node) (start : Reached red drvrNode node) :
    ∀ u ∈ b.nodes, Reached red drvrNode u := by
  induction joined with
  | nil => exact fun _ mem => absurd mem List.not_mem_nil
  | skip skipped tail ih => exact ih (fun r mem => known r (.tail _ mem)) start
  | external outside tail ih => exact ih (fun r mem => known r (.tail _ mem)) start
  | @walk visited node fromRes r rest below b free unused unvisited inside inner tail ihi iht =>
    have next : Reached red drvrNode (red.otherNode r node) :=
      ⟨start.1, start.2.tail ⟨r, known r (.head _), rfl, inside⟩⟩
    intro u mem
    simp only [Branches.nodes,List.mem_cons,List.mem_append] at mem
    rcases mem with rfl | mem | mem
    · exact next
    · exact ihi (fun _ mem => mem) next u mem
    · exact iht (fun r mem => known r (.tail _ mem)) start u mem

end Joined

omit [DecidableEq R] in
theorem ready_start : Ready red (Search.start : Search N R) := by
  constructor <;> simp [Search.start,Search.left]

/-- The search from a driver that is not external, with the tree that it walks. -/
structure Searched (red : ReduceToPi N R P) (drvrNode : N) (out : Reduced) (s : Search N R) (b : Branches N R) :
    Prop where
  ready : Ready red s
  visited : s.visitedNodes = ∅
  out_eq : out = ⟨(Moments.cap (red.nodeCap drvrNode)).add (b.moments red.nodeCap red.value),
    red.nodeCap drvrNode + b.total red.nodeCap⟩
  values : s.nodeValues.Perm ((drvrNode, red.nodeCap drvrNode + b.total red.nodeCap) :: b.loads red.nodeCap)
  joined : Joined red s.loopResistors {drvrNode} drvrNode none (red.resistorMap drvrNode) b

omit [DecidableEq R] in
theorem Searched.left {drvrNode : N} {out : Reduced} {s : Search N R} {b : Branches N R}
    (searched : Searched red drvrNode out s b) : s.left.Perm (drvrNode :: b.nodes) := by
  have perm := searched.values.map Prod.fst
  rwa [List.map_cons,Branches.loads_fst] at perm

theorem reducePi_external {drvrNode : N} (outside : red.isExternal drvrNode) :
    red.reducePi drvrNode = some (.ofCap 0, .start, none) := by
  unfold ReduceToPi.reducePi ReduceToPi.callDepth
  show red.reducePiDfs (2 * red.resistors.length + 1 + 1) drvrNode none 0 .start = _
  unfold ReduceToPi.reducePiDfs
  exact if_pos outside

theorem reducePi_searched {drvrNode : N} (inside : ¬red.isExternal drvrNode) :
    ∃ out s b, red.reducePi drvrNode = some (out, s, some b) ∧ Searched red drvrNode out s b := by
  have mem : drvrNode ∈ red.nodesFrom drvrNode := List.mem_toFinset.2 (.head _)
  have unvisited : drvrNode ∉ (Search.start : Search N R).visitedNodes := Finset.notMem_empty _
  have enough : (red.nodesFrom drvrNode \ (Search.start : Search N R).visitedNodes).card < red.callDepth := by
    simpa [Search.start] using red.card_nodesFrom drvrNode
  have ends : ∃ out s walked, red.reducePiDfs red.callDepth drvrNode none 0 .start = some (out, s, walked) ∧
      s.visitedNodes = (Search.start : Search N R).visitedNodes := reducePiDfs_terminates mem unvisited enough
  obtain ⟨out, s, walked, run, kept⟩ := ends
  cases reducePiDfs_walked run with
  | external outside => exact absurd outside inside
  | @node _ s₁ b srcResistance _ loop =>
    have entered : Entered red drvrNode none (red.resistorMap drvrNode)
      ((Search.start : Search N R).enter drvrNode srcResistance) := by
      apply Entered.enter ready_start _ inside
      · intro r _ same
        cases same
      · exact fun _ _ _ => List.not_mem_nil
      · exact List.not_mem_nil
    have spanned := loop.spanned entered
    have eq : out = ⟨(Moments.cap (red.nodeCap drvrNode)).add (b.moments red.nodeCap red.value),
      red.nodeCap drvrNode + b.total red.nodeCap⟩ :=
      loop.reduced_eq
    refine ⟨out, _, b, run, spanned.finish loop.visitedNodes_eq inside unvisited, kept, eq, ?_, spanned.joined⟩
    have values : s₁.nodeValues.Perm (b.loads red.nodeCap) := by
      have perm := loop.nodeValues_perm
      rwa [show ((Search.start : Search N R).enter drvrNode srcResistance).nodeValues = [] from rfl,
        List.append_nil] at perm
    simp only [Search.finish,Search.setDownstreamCap,Search.leave,eq]
    exact values.cons _

omit [DecidableEq R] in
theorem Searched.mem_left {drvrNode : N} {out : Reduced} {s : Search N R} {b : Branches N R}
    (searched : Searched red drvrNode out s b)
    (inside : ¬red.isExternal drvrNode) (node : N) : node ∈ s.left ↔ Reached red drvrNode node := by
  have start : Reached red drvrNode drvrNode := ⟨inside, .refl⟩
  constructor
  · intro mem
    rcases List.mem_cons.1 (searched.left.mem_iff.1 mem) with rfl | mem
    · exact start
    · exact searched.joined.reached (fun _ mem => mem) start node mem
  · rintro ⟨-, path⟩
    induction path with
    | refl => exact searched.left.mem_iff.2 (.head _)
    | tail path step ih =>
      obtain ⟨r, here, rfl, inside'⟩ := step
      rcases searched.ready.complete _ ih r here with outside | left | visited
      · exact absurd outside inside'
      · exact left
      · rw [searched.visited] at visited
        exact absurd visited (Finset.notMem_empty _)

omit [DecidableEq R] in
theorem Searched.passive {drvrNode : N} {out : Reduced} {s : Search N R} {b : Branches N R}
    (searched : Searched red drvrNode out s b) (nonneg : Nonneg red) : out.y.Passive := by
  rw [searched.out_eq]
  apply (Moments.passive_cap (nonneg.nodeCap drvrNode)).add
  apply Branches.moments_passive nonneg.nodeCap
  intro r mem
  exact nonneg.value r (searched.joined.resistors_mem (fun r mem => (red.mem_resistorMap.1 mem).1) r mem)

omit [DecidableEq R] in
theorem Searched.y1_eq {drvrNode : N} {out : Reduced} {s : Search N R} {b : Branches N R}
    (searched : Searched red drvrNode out s b) :
    out.y.y1 = (s.left.map red.nodeCap).sum := by
  rw [(searched.left.map red.nodeCap).sum_eq,searched.out_eq]
  simp only [Moments.add,Moments.cap,Branches.moments_y1,Branches.total_eq_sum,List.map_cons,List.sum_cons]

/-- The search ends having visited once each node that can be reached, and its pi model has their capacitance. -/
theorem reduceToPi_conserves (nonneg : Nonneg red) (drvrNode : N) :
    ∃ out s walked pi, red.reducePi drvrNode = some (out, s, walked) ∧ s.left.Nodup ∧
      (∀ node, node ∈ s.left ↔ Reached red drvrNode node) ∧ red.reduceToPi drvrNode = some pi ∧
      pi.c1 + pi.c2 = (s.left.map red.nodeCap).sum ∧ 0 ≤ pi.c1 ∧ 0 ≤ pi.c2 ∧ 0 ≤ pi.rpi := by
  unfold ReduceToPi.reduceToPi
  by_cases outside : red.isExternal drvrNode
  · have run := reducePi_external outside
    refine ⟨_, _, _, ⟨0, 0, 0⟩, run, List.nodup_nil, ?_, by rw [run]; rfl, add_zero _, le_rfl, le_rfl, le_rfl⟩
    exact fun node => ⟨fun mem => absurd mem List.not_mem_nil, fun reached => absurd outside reached.1⟩
  · obtain ⟨out, s, b, run, searched⟩ := reducePi_searched outside
    obtain ⟨pi, defined, sum, nonneg⟩ := piModel_passive (searched.passive nonneg)
    refine ⟨out, s, b, pi, run, searched.ready.nodup, searched.mem_left outside, ?_, sum.trans searched.y1_eq, nonneg⟩
    rw [run]
    exact defined

/-- Parallel resistors, a loop, a resistor of a node to itself, and one to an external node. -/
def meshNetwork : ReduceToPi ℕ ℕ ℕ where
  resistors := [0, 1, 2, 3, 4, 5]
  nodup := by decide
  node1 r := [0, 1, 1, 2, 2, 1].getD r 0
  node2 r := [1, 0, 2, 0, 2, 3].getD r 0
  value _ := 1
  capacitors := [⟨1, 2, 1⟩]
  nodeGndCap node := if node = 0 then 0 else 2
  isExternal node := node = 3
  pin node := if node = 2 ∨ node = 3 then some node else none
  includesPinCaps := false
  pins := {
    libertyPort _ := true, pinCapacitance _ := 1, isTopLevelPort _ := false, portExtCap _ := 0, isLoad _ := true }
  couplingCapMultiplier := 1

theorem meshNetwork_nonneg : Nonneg meshNetwork where
  value _ _ := zero_le_one
  capacitors c mem := by
    rw [List.mem_singleton.1 mem]
    exact zero_le_one
  multiplier := zero_le_one
  nodeGndCap node := by
    show 0 ≤ if node = 0 then (0 : ℚ) else 2
    split <;> norm_num
  pinCapacitance _ := zero_le_one
  portExtCap _ := le_rfl

theorem reduceToPi_conserves_mesh : Nonneg meshNetwork ∧
    ∃ out s walked pi, meshNetwork.reducePi 0 = some (out, s, walked) ∧ s.left.Nodup ∧
      (∀ node, node ∈ s.left ↔ Reached meshNetwork 0 node) ∧ meshNetwork.reduceToPi 0 = some pi ∧
      pi.c1 + pi.c2 = (s.left.map meshNetwork.nodeCap).sum ∧ 0 ≤ pi.c1 ∧ 0 ≤ pi.c2 ∧ 0 ≤ pi.rpi :=
  ⟨meshNetwork_nonneg, reduceToPi_conserves meshNetwork_nonneg 0⟩

example : meshNetwork.reduceToPi 0 = some ⟨192 / 631, 398161 / 274625, 4225 / 631⟩ := by decide +kernel

end GTPower.ReduceParasitics
