import GTPower.PiReduction

/-! The Elmore delays of an RC network, from a second search over the marks and the capacitances of the first. -/
namespace GTPower.ReduceParasitics
open RcTrees

variable {N R P : Type*} [DecidableEq N] [DecidableEq R]

namespace ReduceToPi
variable (red : ReduceToPi N R P)

def loadPin (node : N) : Option P := (red.pin node).filter red.pins.isLoad

/-- The loop over the resistors of a node. It returns the calls of setElmore, and the branches beside them. -/
def followElmore (dfs : N → Option R → ℚ → Search N R → Option (List (P × ℚ) × Search N R × Branches N R)) (node : N)
    (fromRes : Option R) (elmore : ℚ) : List R → Search N R → Option (List (P × ℚ) × Search N R × Branches N R)
  | [], s => some ([], s, .nil)
  | resistor :: rest, s =>
    let onode := red.otherNode resistor node
    if some resistor ≠ fromRes ∧ onode ∉ s.visitedNodes ∧ resistor ∉ s.loopResistors then
      (dfs onode (some resistor) (elmore + red.value resistor * s.downstreamCap onode) s).bind fun (calls, s, below) =>
        (followElmore dfs node fromRes elmore rest s).map fun (more, s, branches) =>
          (calls ++ more, s, .cons resistor onode below branches)
    else followElmore dfs node fromRes elmore rest s

def reduceElmoreDfs : ℕ → N → Option R → ℚ → Search N R → Option (List (P × ℚ) × Search N R × Branches N R)
  | 0, _, _, _, _ => none
  | fuel + 1, node, fromRes, elmore, s =>
    let here := if fromRes.isSome then ((red.loadPin node).map fun pin => (pin, elmore)).toList else []
    (red.followElmore (reduceElmoreDfs fuel) node fromRes elmore (red.resistorMap node) (s.visit node)).map
      fun (calls, s, branches) => (here ++ calls, s.leave node, branches)

/-- The calls of setElmore, what the first search walked and what the second one walked. -/
def reduceElmore (drvrNode : N) : Option (List (P × ℚ) × Option (Branches N R) × Branches N R) :=
  (red.reducePi drvrNode).bind fun (_, s, walked) =>
    (red.reduceElmoreDfs red.callDepth drvrNode none 0 s).map fun (calls, _, branches) => (calls, walked, branches)

/-- The delay of each load pin: over the resistors on its path, resistance times the capacitance at or below. -/
def elmores (elmore : ℚ) (b : Branches N R) : List (P × ℚ) :=
  (b.paths red.nodeCap).filterMap fun (node, path) =>
    (red.loadPin node).map fun pin => (pin, elmore + (path.map fun (r, cap) => red.value r * cap).sum)

end ReduceToPi

/-- The second search walks the tree of the first, each node once, and sets the delays of its loads. -/
def ElmoreSet (red : ReduceToPi N R P) (drvrNode : N) : Prop :=
  ∃ b, red.reduceElmore drvrNode = some (red.elmores 0 b, some b, b) ∧ (drvrNode :: b.nodes).Nodup

variable {red : ReduceToPi N R P} {node : N} {fromRes : Option R} {r : R} {l rest : List R} {s s' : Search N R}
  {b below : Branches N R} {calls : List (P × ℚ)} {elmore : ℚ}

omit [DecidableEq R] in
theorem elmores_cons (elmore : ℚ) (r : R) (node : N) (below b : Branches N R) :
    red.elmores elmore (.cons r node below b) =
      ((red.loadPin node).map fun pin =>
        (pin, elmore + red.value r * (red.nodeCap node + below.total red.nodeCap))).toList ++
        red.elmores (elmore + red.value r * (red.nodeCap node + below.total red.nodeCap)) below ++
          red.elmores elmore b := by
  have step : ∀ path : N × List (R × ℚ),
      (red.loadPin path.1).map (fun pin =>
        (pin, elmore + (((r, red.nodeCap node + below.total red.nodeCap) :: path.2).map fun (r, cap) =>
          red.value r * cap).sum)) =
      (red.loadPin path.1).map (fun pin =>
        (pin, elmore + red.value r * (red.nodeCap node + below.total red.nodeCap) + (path.2.map fun (r, cap) =>
          red.value r * cap).sum)) := by
    intro path
    simp only [List.map_cons,List.sum_cons,add_assoc]
  unfold ReduceToPi.elmores
  simp only [Branches.paths,List.cons_append,List.filterMap_cons,List.filterMap_append,List.filterMap_map,
    Function.comp_def,step]
  cases red.loadPin node with
  | none => rfl
  | some pin => simp

omit [DecidableEq R] in
theorem Search.leave_visit (unvisited : node ∉ s.visitedNodes) : (s.visit node).leave node = s := by
  cases s
  simp only [Search.visit,Search.leave] at *
  rw [Finset.erase_insert unvisited]

section Equations
variable {dfs : N → Option R → ℚ → Search N R → Option (List (P × ℚ) × Search N R × Branches N R)} {s₁ : Search N R}
  {more : List (P × ℚ)}

theorem followElmore_skip (skips : ¬(some r ≠ fromRes ∧ red.otherNode r node ∉ s.visitedNodes ∧ r ∉ s.loopResistors)) :
    red.followElmore dfs node fromRes elmore (r :: rest) s = red.followElmore dfs node fromRes elmore rest s :=
  if_neg skips

theorem followElmore_walk (walks : some r ≠ fromRes ∧ red.otherNode r node ∉ s.visitedNodes ∧ r ∉ s.loopResistors) :
    red.followElmore dfs node fromRes elmore (r :: rest) s = some (calls, s', b) ↔ ∃ first s₁ below more b',
      dfs (red.otherNode r node) (some r) (elmore + red.value r * s.downstreamCap (red.otherNode r node)) s =
        some (first, s₁, below) ∧
        red.followElmore dfs node fromRes elmore rest s₁ = some (more, s', b') ∧ calls = first ++ more ∧
        b = .cons r (red.otherNode r node) below b' := by
  have unfolded : red.followElmore dfs node fromRes elmore (r :: rest) s =
      (dfs (red.otherNode r node) (some r) (elmore + red.value r * s.downstreamCap (red.otherNode r node)) s).bind
        fun (calls, s, below) =>
        (red.followElmore dfs node fromRes elmore rest s).map fun (more, s, branches) =>
          (calls ++ more, s, .cons r (red.otherNode r node) below branches) := if_pos walks
  rw [unfolded]
  constructor
  · intro run
    obtain ⟨⟨first, s₁, below⟩, call, after⟩ := Option.bind_eq_some_iff.1 run
    obtain ⟨⟨more, s₂, b'⟩, tail, same⟩ := Option.map_eq_some_iff.1 after
    cases same
    exact ⟨first, s₁, below, more, b', call, tail, rfl, rfl⟩
  · rintro ⟨first, s₁, below, more, b', call, tail, rfl, rfl⟩
    exact Option.bind_eq_some_iff.2 ⟨_, call, Option.map_eq_some_iff.2 ⟨_, tail, rfl⟩⟩

theorem reduceElmoreDfs_succ {fuel : ℕ} : red.reduceElmoreDfs (fuel + 1) node fromRes elmore s = some (calls, s', b) ↔
    ∃ more s₁,
    red.followElmore (red.reduceElmoreDfs fuel) node fromRes elmore (red.resistorMap node) (s.visit node) =
    some (more, s₁, b) ∧
      calls = (if fromRes.isSome then ((red.loadPin node).map fun pin => (pin, elmore)).toList else []) ++ more ∧
        s' = s₁.leave node := by
  rw [ReduceToPi.reduceElmoreDfs,Option.map_eq_some_iff]
  constructor
  · rintro ⟨⟨more, s₁, b'⟩, loop, same⟩
    cases same
    exact ⟨more, s₁, loop, rfl, rfl⟩
  · rintro ⟨more, s₁, loop, rfl, rfl⟩
    exact ⟨_, loop, rfl⟩

end Equations

/-- Where no external node is met, the second search walks the branches that the first one left unmarked. -/
theorem followElmore_joined {drvrNode : N} {loops : Finset R} {visited : Finset N}
    (joined : Joined red loops visited node fromRes l b)
    {fuel : ℕ} (marks : s.loopResistors = loops) (path : s.visitedNodes = visited)
    (loads : ∀ load ∈ b.loads red.nodeCap, s.downstreamCap load.1 = load.2) (known : ∀ r ∈ l, r ∈ red.resistorMap node)
    (inside : ∀ r ∈ l, ¬red.isExternal (red.otherNode r node))
    (below : ∀ u ∈ b.nodes, ∀ r ∈ red.resistorMap u, ¬red.isExternal (red.otherNode r u))
    (enough : (red.nodesFrom drvrNode \ visited).card ≤ fuel) :
    red.followElmore (red.reduceElmoreDfs fuel) node fromRes elmore l s = some (red.elmores elmore b, s, b) := by
  induction joined generalizing fuel elmore s with
  | nil => rfl
  | @skip visited node fromRes r rest b skipped tail ih =>
    have skips : ¬(some r ≠ fromRes ∧ red.otherNode r node ∉ s.visitedNodes ∧ r ∉ s.loopResistors) := by
      rw [marks,path]
      tauto
    rw [followElmore_skip skips]
    exact ih marks path loads (fun r mem => known r (.tail _ mem)) (fun r mem => inside r (.tail _ mem)) below enough
  | external outside tail ih => exact absurd outside (inside _ (.head _))
  | @walk visited node fromRes r rest branches b free unused unvisited inside' inner tail ihi iht =>
    have walks : some r ≠ fromRes ∧ red.otherNode r node ∉ s.visitedNodes ∧ r ∉ s.loopResistors := by
      rw [marks,path]
      exact ⟨unused, unvisited, free⟩
    simp only [Branches.loads,Branches.nodes,List.mem_cons,List.mem_append] at loads below
    have value : s.downstreamCap (red.otherNode r node) = red.nodeCap (red.otherNode r node) +
      branches.total red.nodeCap := loads _ (.inl rfl)
    have mem : red.otherNode r node ∈ red.nodesFrom drvrNode := red.otherNode_mem_nodesFrom (known r (.head _))
    have fewer := card_sdiff_insert_lt mem unvisited
    obtain ⟨fuel, rfl⟩ : ∃ fuel', fuel = fuel' + 1 := Nat.exists_eq_add_one.2 (by omega)
    have visits : (s.visit (red.otherNode r node)).visitedNodes = insert (red.otherNode r node) visited := by
      rw [← path]
      rfl
    have call : red.followElmore (red.reduceElmoreDfs fuel) (red.otherNode r node) (some r)
        (elmore + red.value r * s.downstreamCap (red.otherNode r node)) (red.resistorMap (red.otherNode r node))
          (s.visit (red.otherNode r node)) =
        some (red.elmores (elmore + red.value r * s.downstreamCap (red.otherNode r node)) branches,
          s.visit (red.otherNode r node), branches) :=
      ihi marks visits (fun load mem => loads load (.inr (.inl mem))) (fun _ mem => mem) (below _ (.inl rfl))
        (fun u mem => below u (.inr (.inl mem))) (by omega)
    have after : red.followElmore (red.reduceElmoreDfs (fuel + 1)) node fromRes elmore rest s =
      some (red.elmores elmore b, s, b) :=
      iht marks path (fun load mem => loads load (.inr (.inr mem))) (fun r mem => known r (.tail _ mem))
        (fun r mem => inside r (.tail _ mem)) (fun u mem => below u (.inr (.inr mem))) enough
    have first := reduceElmoreDfs_succ.2 ⟨_, _, call, rfl, (Search.leave_visit walks.2.1).symm⟩
    refine (followElmore_walk walks).2 ⟨_, _, _, _, _, first, after, ?_, rfl⟩
    rw [elmores_cons,← value]
    rfl

theorem followElmore_same {dfs : N → Option R → ℚ → Search N R → Option (List (P × ℚ) × Search N R × Branches N R)}
    (same : ∀ {onode r elmore s calls s' b}, onode ∉ s.visitedNodes →
      dfs onode (some r) elmore s = some (calls, s', b) → s' = s)
    (run : red.followElmore dfs node fromRes elmore l s = some (calls, s', b)) : s' = s := by
  induction l generalizing s calls b with
  | nil =>
    cases run
    rfl
  | cons r rest ih =>
    by_cases walks : some r ≠ fromRes ∧ red.otherNode r node ∉ s.visitedNodes ∧ r ∉ s.loopResistors
    · obtain ⟨first, s₁, below, more, b', call, tail, -, -⟩ := (followElmore_walk walks).1 run
      exact (ih tail).trans (same walks.2.1 call)
    · rw [followElmore_skip walks] at run
      exact ih run

theorem reduceElmoreDfs_same {fuel : ℕ} (unvisited : node ∉ s.visitedNodes)
    (run : red.reduceElmoreDfs fuel node fromRes elmore s = some (calls, s', b)) : s' = s := by
  induction fuel generalizing node fromRes elmore s calls s' b with
  | zero => cases run
  | succ fuel ih =>
    obtain ⟨more, s₁, loop, -, rfl⟩ := reduceElmoreDfs_succ.1 run
    rw [followElmore_same (fun new call => ih new call) loop,Search.leave_visit unvisited]

omit [DecidableEq R] in
theorem Joined.inside {loops : Finset R} {visited : Finset N} (joined : Joined red loops visited node fromRes l b) :
    ∀ u ∈ b.nodes, ¬red.isExternal u := by
  induction joined with
  | nil => exact fun _ mem => absurd mem List.not_mem_nil
  | skip skipped tail ih => exact ih
  | external outside tail ih => exact ih
  | walk free unused unvisited inside inner tail ihi iht =>
    intro u mem
    simp only [Branches.nodes,List.mem_cons,List.mem_append] at mem
    rcases mem with rfl | mem | mem
    · exact inside
    · exact ihi u mem
    · exact iht u mem

/-- The second search walks into every external node that it meets. -/
theorem Joined.no_external {loops : Finset R} {visited : Finset N} (joined : Joined red loops visited node fromRes l b)
    {fuel : ℕ} (marks : s.loopResistors = loops) (path : s.visitedNodes = visited)
    (ends : ∀ r ∈ loops, ∀ u, r ∈ red.resistorMap u → ¬red.isExternal u) (inside : ∀ u ∈ visited, ¬red.isExternal u)
    (known : ∀ r ∈ l, r ∈ red.resistorMap node) (came : ∀ r ∈ l, some r = fromRes → red.otherNode r node ∈ visited)
    (here : node ∈ visited)
    (run : red.followElmore (red.reduceElmoreDfs fuel) node fromRes elmore l s = some (calls, s', b)) :
    (∀ r ∈ l, ¬red.isExternal (red.otherNode r node)) ∧ ∀ u ∈ b.nodes, ∀ r ∈ red.resistorMap u,
    ¬red.isExternal (red.otherNode r u) := by
  induction joined generalizing fuel elmore s calls s' with
  | nil => exact ⟨fun _ mem => absurd mem List.not_mem_nil, fun _ mem => absurd mem List.not_mem_nil⟩
  | @skip visited node fromRes r rest b skipped tail ih =>
    have skips : ¬(some r ≠ fromRes ∧ red.otherNode r node ∉ s.visitedNodes ∧ r ∉ s.loopResistors) := by
      rw [marks,path]
      tauto
    rw [followElmore_skip skips] at run
    obtain ⟨others, below⟩ :=
      ih marks path inside (fun r mem => known r (.tail _ mem)) (fun r mem => came r (.tail _ mem)) here run
    refine ⟨List.forall_mem_cons.2 ⟨?_, others⟩, below⟩
    rcases skipped with marked | met | again
    · exact ends r marked _ (red.otherNode_mem (known r (.head _)))
    · exact inside _ met
    · exact inside _ (came r (.head _) again)
  | @external visited node fromRes r rest b outside tail ih =>
    have walks : some r ≠ fromRes ∧ red.otherNode r node ∉ s.visitedNodes ∧ r ∉ s.loopResistors := by
      rw [marks,path]
      refine ⟨fun again => inside _ (came r (.head _) again) outside, fun met => inside _ met outside, fun marked => ?_⟩
      exact ends r marked _ (red.otherNode_mem (known r (.head _))) outside
    obtain ⟨first, s₁, below, more, b', call, after, -, rfl⟩ := (followElmore_walk walks).1 run
    exact absurd outside (tail.inside _ (.head _))
  | @walk visited node fromRes r rest branches b free unused unvisited inside' inner tail ihi iht =>
    have walks : some r ≠ fromRes ∧ red.otherNode r node ∉ s.visitedNodes ∧ r ∉ s.loopResistors := by
      rw [marks,path]
      exact ⟨unused, unvisited, free⟩
    obtain ⟨first, s₁, below, more, b', call, after, -, same⟩ := (followElmore_walk walks).1 run
    cases same
    obtain rfl := reduceElmoreDfs_same walks.2.1 call
    obtain ⟨others, after'⟩ :=
      iht marks path inside (fun r mem => known r (.tail _ mem)) (fun r mem => came r (.tail _ mem)) here after
    cases fuel with
    | zero => cases call
    | succ fuel =>
      obtain ⟨more, s₂, loop, -, -⟩ := reduceElmoreDfs_succ.1 call
      have visits : (s₁.visit (red.otherNode r node)).visitedNodes = insert (red.otherNode r node) visited := by
        rw [← path]
        rfl
      have marks' : (s₁.visit (red.otherNode r node)).loopResistors = loops := marks
      have insides : ∀ u ∈ insert (red.otherNode r node) visited, ¬red.isExternal u := by
        intro u mem
        rcases Finset.mem_insert.1 mem with rfl | mem
        · exact inside'
        · exact inside u mem
      have origin : ∀ r' ∈ red.resistorMap (red.otherNode r node), some r' = some r →
          red.otherNode r' (red.otherNode r node) ∈ insert (red.otherNode r node) visited := by
        intro r' _ again
        cases again
        rw [red.otherNode_otherNode (known r (.head _))]
        exact Finset.mem_insert_of_mem here
      obtain ⟨first', below'⟩ := ihi marks' visits insides (fun _ mem => mem) origin (Finset.mem_insert_self _ _) loop
      refine ⟨List.forall_mem_cons.2 ⟨inside', others⟩, fun u mem => ?_⟩
      simp only [Branches.nodes,List.mem_cons,List.mem_append] at mem
      rcases mem with rfl | mem | mem
      · exact first'
      · exact below' u mem
      · exact after' u mem

omit [DecidableEq R] in
/-- The capacitances that the first search sets are those at or below the nodes. -/
theorem Searched.downstreamCap {drvrNode : N} {out : Reduced} (searched : Searched red drvrNode out s b) :
    ∀ load ∈ b.loads red.nodeCap, s.downstreamCap load.1 = load.2 := by
  intro load mem
  have known : load ∈ s.nodeValues := searched.values.mem_iff.2 (.tail _ mem)
  have nodup : (s.nodeValues.map Prod.fst).Nodup := searched.ready.nodup
  obtain ⟨before, after, split⟩ := List.append_of_mem known
  have found : s.nodeValues.lookup load.1 = some load.2 := by
    apply List.lookup_eq_some_iff.2
    refine ⟨before, after, split, ?_⟩
    intro earlier mem'
    rw [split,List.map_append,List.map_cons] at nodup
    have disjoint : earlier.1 ∉ load.1 :: after.map Prod.fst :=
      List.disjoint_of_nodup_append nodup (List.mem_map_of_mem mem')
    rw [List.mem_cons,not_or] at disjoint
    simpa using Ne.symm disjoint.1
  simp only [Search.downstreamCap,found,Option.getD_some]

/-- The Elmore delays are those of the tree exactly when no node of the tree has a resistor to an external node. -/
theorem elmoreSet_iff (red : ReduceToPi N R P) (drvrNode : N) : ElmoreSet red drvrNode ↔
    ¬red.isExternal drvrNode ∧ ∀ node, Reached red drvrNode node →
    ∀ r ∈ red.resistorMap node, ¬red.isExternal (red.otherNode r node) := by
  by_cases outside : red.isExternal drvrNode
  · constructor
    · rintro ⟨b, runs, -⟩
      rw [ReduceToPi.reduceElmore,reducePi_external outside] at runs
      obtain ⟨elmore, -, same⟩ := Option.map_eq_some_iff.1 runs
      exact absurd (congrArg (·.2.1) same) (by simp)
    · exact fun condition => absurd outside condition.1
  obtain ⟨out, s, b, run, searched⟩ := reducePi_searched outside
  have start : Reached red drvrNode drvrNode := ⟨outside, .refl⟩
  have unvisited : drvrNode ∉ s.visitedNodes := by
    rw [searched.visited]
    exact Finset.notMem_empty _
  have marks : (s.visit drvrNode).loopResistors = s.loopResistors := rfl
  have visits : (s.visit drvrNode).visitedNodes = {drvrNode} := by
    rw [Search.visit,searched.visited]
    rfl
  constructor
  · rintro ⟨b', runs, -⟩
    refine ⟨outside, ?_⟩
    rw [ReduceToPi.reduceElmore,run] at runs
    obtain ⟨⟨calls, s', branches⟩, second, same⟩ := Option.map_eq_some_iff.1 runs
    obtain rfl : b = b' := Option.some.inj (congrArg (·.2.1) same)
    obtain rfl : branches = b := congrArg (·.2.2) same
    obtain ⟨more, s₁, loop, -, -⟩ := reduceElmoreDfs_succ.1 second
    have ends : ∀ r ∈ s.loopResistors, ∀ u, r ∈ red.resistorMap u → ¬red.isExternal u :=
      fun r mem u here => searched.ready.inside u (searched.ready.ends r mem u here)
    have inside : ∀ u ∈ ({drvrNode} : Finset N), ¬red.isExternal u := by
      intro u mem
      rw [Finset.mem_singleton.1 mem]
      exact outside
    obtain ⟨first, below⟩ :=
      searched.joined.no_external marks visits ends inside (fun _ mem => mem) (fun _ _ same => by cases same)
      (Finset.mem_singleton_self _) loop
    intro node reached
    rcases List.mem_cons.1 (searched.left.mem_iff.1 ((searched.mem_left outside node).2 reached)) with rfl | mem
    · exact first
    · exact below node mem
  · rintro ⟨-, noneExternal⟩
    have enough : (red.nodesFrom drvrNode \ {drvrNode}).card ≤ 2 * red.resistors.length + 1 := by
      have bound := red.card_nodesFrom drvrNode
      have sub := Finset.card_le_card (Finset.sdiff_subset (s := red.nodesFrom drvrNode) (t := {drvrNode}))
      unfold ReduceToPi.callDepth at bound
      omega
    have loop : red.followElmore (red.reduceElmoreDfs (2 * red.resistors.length + 1)) drvrNode none 0
      (red.resistorMap drvrNode)
        (s.visit drvrNode) = some (red.elmores 0 b, s.visit drvrNode, b) := by
      apply followElmore_joined searched.joined marks visits searched.downstreamCap (fun _ mem => mem)
        (noneExternal drvrNode start) _ enough
      exact fun u mem => noneExternal u ((searched.mem_left outside u).1 (searched.left.mem_iff.2 (.tail _ mem)))
    refine ⟨b, ?_, searched.left.nodup_iff.1 searched.ready.nodup⟩
    rw [ReduceToPi.reduceElmore,run]
    exact Option.map_eq_some_iff.2 ⟨_, reduceElmoreDfs_succ.2 ⟨_, _, loop, rfl, rfl⟩, rfl⟩

/-- A load at an external node gets a delay. -/
theorem elmore_external : ¬ElmoreSet meshNetwork 0 := by
  rintro ⟨b, runs, -⟩
  have computed : meshNetwork.reduceElmore 0 = some ([(2, 11), (3, 7)], some (.cons 0 1 (.cons 2 2 .nil .nil) .nil),
      .cons 0 1 (.cons 2 2 .nil (.cons 5 3 .nil .nil)) .nil) := by decide +kernel
  rw [computed] at runs
  have first := Option.some.inj (congrArg (·.2.1) (Option.some.inj runs))
  have second := congrArg (·.2.2) (Option.some.inj runs)
  exact absurd (first.trans second.symm) (by decide)

end GTPower.ReduceParasitics
