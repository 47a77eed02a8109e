import GTPower.ReduceParasitics

/-! What one search of an RC network walks: a tree of the nodes it reaches, with every other resistor between them
marked. -/
namespace GTPower.ReduceParasitics
open RcTrees

variable {N R P : Type*} [DecidableEq N]

section Ends
variable {red : ReduceToPi N R P} {r : R} {u v : N}

theorem ReduceToPi.mem_resistorMap : r ∈ red.resistorMap u ↔ r ∈ red.resistors ∧
    (red.node1 r = u ∨ red.node2 r = u) := by
  simp only [ReduceToPi.resistorMap,List.mem_flatMap,List.mem_append]
  constructor
  · rintro ⟨r', known, here | here⟩
    all_goals
      split at here
      · rw [List.mem_singleton.1 here]
        exact ⟨known, by tauto⟩
      · cases here
  · rintro ⟨known, here | here⟩
    · exact ⟨r, known, .inl (by simp [here])⟩
    · exact ⟨r, known, .inr (by simp [here])⟩

theorem ReduceToPi.otherNode_mem (here : r ∈ red.resistorMap u) : r ∈ red.resistorMap (red.otherNode r u) := by
  obtain ⟨known, first | second⟩ := red.mem_resistorMap.1 here
  · apply red.mem_resistorMap.2
    simp [otherNode,first,known]
  · apply red.mem_resistorMap.2
    refine ⟨known, ?_⟩
    unfold otherNode
    split <;> simp_all

theorem ReduceToPi.otherNode_otherNode (here : r ∈ red.resistorMap u) : red.otherNode r (red.otherNode r u) = u := by
  obtain ⟨-, ends⟩ := red.mem_resistorMap.1 here
  unfold otherNode
  grind

theorem ReduceToPi.end_cases (here : r ∈ red.resistorMap u) (there : r ∈ red.resistorMap v) : v = u ∨
    v = red.otherNode r u := by
  obtain ⟨-, atU⟩ := red.mem_resistorMap.1 here
  obtain ⟨-, atV⟩ := red.mem_resistorMap.1 there
  unfold otherNode
  grind

/-- Only a resistor of a node to itself comes twice. -/
theorem ReduceToPi.resistorMap_pairwise (u : N) : (red.resistorMap u).Pairwise fun a b => a ≠ b ∨
    red.otherNode a u = u := by
  unfold resistorMap
  rw [List.pairwise_flatMap]
  constructor
  · intro r known
    by_cases first : red.node1 r = u
    · by_cases second : red.node2 r = u
      · simp [first,second,otherNode]
      · simp [first,second]
    · by_cases second : red.node2 r = u
      · simp [first,second]
      · simp [first,second]
  · apply red.nodup.imp
    intro a b apart x atA y atB
    left
    intro same
    apply apart
    have ofA : x = a := by grind
    have ofB : y = b := by grind
    rw [← ofA,← ofB,same]

/-- The nodes a search from the driver can meet. -/
def ReduceToPi.nodesFrom (red : ReduceToPi N R P) (drvrNode : N) : Finset N :=
  (drvrNode :: red.resistors.flatMap fun r => [red.node1 r, red.node2 r]).toFinset

theorem ReduceToPi.card_nodesFrom (drvrNode : N) : (red.nodesFrom drvrNode).card < red.callDepth := by
  have bound := List.toFinset_card_le (drvrNode :: red.resistors.flatMap fun r => [red.node1 r, red.node2 r])
  have length : (red.resistors.flatMap fun r => [red.node1 r, red.node2 r]).length = 2 * red.resistors.length := by
    induction red.resistors with
    | nil => rfl
    | cons r rest ih => simp only [List.flatMap_cons,List.length_append,ih,List.length_cons,List.length_nil]; omega
  simp only [List.length_cons,length] at bound
  unfold nodesFrom callDepth
  omega

theorem ReduceToPi.otherNode_mem_nodesFrom {drvrNode u : N} {r : R} (here : r ∈ red.resistorMap u) :
    red.otherNode r u ∈ red.nodesFrom drvrNode := by
  have known := (red.mem_resistorMap.1 here).1
  apply List.mem_toFinset.2
  apply List.mem_cons_of_mem
  apply List.mem_flatMap.2 ⟨r, known, _⟩
  unfold otherNode
  split <;> simp

end Ends

variable [DecidableEq R]

/-- A run of the loop over the resistors of a node, with the runs of its calls. The resistance from the driver is left
open. -/
inductive Follows (red : ReduceToPi N R P) : N → Option R → List R → Reduced → Search N R → Reduced → Search N R →
    Branches N R → Prop
  | nil {node fromRes out s} : Follows red node fromRes [] out s out s .nil
  | skip {node fromRes r rest out s out' s' b} (skipped : r ∈ s.loopResistors ∨ red.otherNode r node = node ∨
    some r = fromRes)
      (tail : Follows red node fromRes rest out s out' s' b) : Follows red node fromRes (r :: rest) out s out' s' b
  | loop {node fromRes r rest out s out' s' b} (new : r ∉ s.loopResistors) (other : red.otherNode r node ≠ node)
      (unused : some r ≠ fromRes) (visited : red.otherNode r node ∈ s.visitedNodes)
      (tail : Follows red node fromRes rest out (s.markLoopResistor r) out' s' b) :
      Follows red node fromRes (r :: rest) out s out' s' b
  | external {node fromRes r rest out s out' s' b} (unvisited : red.otherNode r node ∉ s.visitedNodes)
      (outside : red.isExternal (red.otherNode r node))
      (tail : Follows red node fromRes rest (out.addSeries (red.value r) (.ofCap 0)) { s with maxResistance := 0 }
        out' s' b) :
      Follows red node fromRes (r :: rest) out s out' s' b
  | walk {node fromRes r rest out s below s₁ branches out' s' b} (srcResistance : ℚ) (new : r ∉ s.loopResistors)
      (unused : some r ≠ fromRes) (unvisited : red.otherNode r node ∉ s.visitedNodes)
      (inside : ¬red.isExternal (red.otherNode r node))
      (inner : Follows red (red.otherNode r node) (some r) (red.resistorMap (red.otherNode r node))
        (.ofCap (red.nodeCap (red.otherNode r node))) (s.enter (red.otherNode r node) srcResistance) below s₁ branches)
      (tail : Follows red node fromRes rest (out.addSeries (red.value r) below)
        (s₁.finish (red.otherNode r node) below.dwnCap) out' s' b) :
      Follows red node fromRes (r :: rest) out s out' s' (.cons r (red.otherNode r node) branches b)

/-- A run of a call. -/
inductive Walked (red : ReduceToPi N R P) (node : N) (fromRes : Option R) (s : Search N R) : Reduced → Search N R →
    Option (Branches N R) → Prop
  | external (outside : red.isExternal node) : Walked red node fromRes s (.ofCap 0) { s with maxResistance := 0 } none
  | node {out s' b} (srcResistance : ℚ) (inside : ¬red.isExternal node)
      (loop : Follows red node fromRes (red.resistorMap node) (.ofCap (red.nodeCap node))
        (s.enter node srcResistance) out s' b) :
      Walked red node fromRes s out (s'.finish node out.dwnCap) (some b)

section Runs
variable {red : ReduceToPi N R P}

theorem followResistors_follows
    {dfs : N → Option R → ℚ → Search N R → Option (Reduced × Search N R × Option (Branches N R))}
    (calls : ∀ onode r src s out s' walked, dfs onode (some r) src s = some (out, s', walked) →
      Walked red onode (some r) s out s' walked) {node : N} {fromRes : Option R} {src : ℚ} {l : List R}
    {out out' : Reduced} {s s' : Search N R} {b : Branches N R}
    (run : red.followResistors dfs node fromRes src l out s = some (out', s', b)) :
    Follows red node fromRes l out s out' s' b := by
  induction l generalizing out s b with
  | nil =>
    cases run
    exact .nil
  | cons r rest ih =>
    simp only [ReduceToPi.followResistors] at run
    by_cases marked : r ∈ s.loopResistors
    · rw [if_pos marked] at run
      exact .skip (.inl marked) (ih run)
    rw [if_neg marked] at run
    by_cases skipped : red.otherNode r node = node ∨ some r = fromRes
    · rw [if_pos skipped] at run
      exact .skip (.inr skipped) (ih run)
    rw [if_neg skipped] at run
    rw [not_or] at skipped
    by_cases visited : red.otherNode r node ∈ s.visitedNodes
    · rw [if_pos visited] at run
      exact .loop marked skipped.1 skipped.2 visited (ih run)
    rw [if_neg visited] at run
    obtain ⟨⟨below, s₁, walked⟩, call, after⟩ := Option.bind_eq_some_iff.1 run
    obtain ⟨⟨out₂, s₂, branches⟩, tail, same⟩ := Option.map_eq_some_iff.1 after
    cases same
    cases calls _ _ _ _ _ _ _ call with
    | external outside => exact .external visited outside (ih tail)
    | node srcResistance inside loop => exact .walk srcResistance marked skipped.2 visited inside loop (ih tail)

theorem reducePiDfs_walked {fuel : ℕ} {node : N} {fromRes : Option R} {src : ℚ} {s s' : Search N R} {out : Reduced}
    {walked : Option (Branches N R)} (run : red.reducePiDfs fuel node fromRes src s = some (out, s', walked)) :
    Walked red node fromRes s out s' walked := by
  induction fuel generalizing node fromRes src s out s' walked with
  | zero => cases run
  | succ fuel ih =>
    unfold ReduceToPi.reducePiDfs at run
    by_cases outside : red.isExternal node
    · rw [if_pos outside] at run
      cases run
      exact .external outside
    rw [if_neg outside] at run
    obtain ⟨⟨out₁, s₁, branches⟩, loop, same⟩ := Option.map_eq_some_iff.1 run
    cases same
    exact .node src outside (followResistors_follows (fun _ _ _ _ _ _ _ call => ih call) loop)

theorem Follows.visitedNodes_eq {node : N} {fromRes : Option R} {l : List R} {out out' : Reduced} {s s' : Search N R}
    {b : Branches N R} (run : Follows red node fromRes l out s out' s' b) : s'.visitedNodes = s.visitedNodes := by
  induction run with
  | nil => rfl
  | skip skipped tail ih => exact ih
  | loop new other unused visited tail ih => exact ih
  | external unvisited outside tail ih => exact ih
  | walk srcResistance new unused unvisited inside inner tail ihi iht =>
    rw [iht,Search.finish_visitedNodes,ihi]
    exact Finset.erase_insert unvisited

theorem Follows.reduced_eq {node : N} {fromRes : Option R} {l : List R} {out out' : Reduced} {s s' : Search N R}
    {b : Branches N R} (run : Follows red node fromRes l out s out' s' b) :
    out' = ⟨out.y.add (b.moments red.nodeCap red.value), out.dwnCap + b.total red.nodeCap⟩ := by
  induction run with
  | nil => simp [Branches.moments,Branches.total,Moments.add_cap_zero]
  | skip skipped tail ih => exact ih
  | loop new other unused visited tail ih => exact ih
  | external unvisited outside tail ih =>
    rw [ih]
    simp [Reduced.addSeries,Reduced.ofCap,Moments.series,Moments.add,Moments.cap]
  | walk srcResistance new unused unvisited inside inner tail ihi iht =>
    rw [iht,ihi]
    simp only [Reduced.addSeries,Reduced.ofCap,Branches.moments,Branches.total,Moments.add_assoc,add_assoc]

theorem Follows.nodeValues_perm {node : N} {fromRes : Option R} {l : List R} {out out' : Reduced} {s s' : Search N R}
    {b : Branches N R} (run : Follows red node fromRes l out s out' s' b) :
    s'.nodeValues.Perm (b.loads red.nodeCap ++ s.nodeValues) := by
  induction run with
  | nil => exact .rfl
  | skip skipped tail ih => exact ih
  | loop new other unused visited tail ih => exact ih
  | external unvisited outside tail ih => exact ih
  | @walk node fromRes r rest out s below s₁ branches out' s' b srcResistance new unused unvisited inside inner
    tail ihi iht =>
    have value : below.dwnCap = red.nodeCap (red.otherNode r node) + branches.total red.nodeCap := by
      rw [inner.reduced_eq]
      rfl
    simp only [Branches.loads,List.cons_append,← value]
    have others : (b.loads red.nodeCap ++ s₁.nodeValues).Perm (branches.loads red.nodeCap ++ b.loads red.nodeCap ++
      s.nodeValues) := by
      rw [List.append_assoc]
      exact (ihi.append_left _).trans (List.perm_append_comm_assoc _ _ _)
    exact iht.trans (List.perm_middle.trans (others.cons _))

theorem Follows.left_perm {node : N} {fromRes : Option R} {l : List R} {out out' : Reduced} {s s' : Search N R}
    {b : Branches N R} (run : Follows red node fromRes l out s out' s' b) : s'.left.Perm (b.nodes ++ s.left) := by
  have perm := run.nodeValues_perm.map Prod.fst
  rwa [List.map_append,Branches.loads_fst] at perm

end Runs

section Termination
variable {red : ReduceToPi N R P}

theorem card_sdiff_insert_lt {all visited : Finset N} {node : N} (mem : node ∈ all) (unvisited : node ∉ visited) :
    (all \ insert node visited).card < (all \ visited).card := by
  apply Finset.card_lt_card
  apply Finset.ssubset_iff_subset_ne.2
  constructor
  · exact Finset.sdiff_subset_sdiff le_rfl (Finset.subset_insert _ _)
  · intro same
    have inside : node ∈ all \ visited := Finset.mem_sdiff.2 ⟨mem, unvisited⟩
    rw [← same] at inside
    exact (Finset.mem_sdiff.1 inside).2 (Finset.mem_insert_self _ _)

theorem followResistors_terminates
    {dfs : N → Option R → ℚ → Search N R → Option (Reduced × Search N R × Option (Branches N R))} {node : N}
    {visited : Finset N}
    (calls : ∀ r ∈ red.resistorMap node, ∀ src s, red.otherNode r node ∉ s.visitedNodes → s.visitedNodes = visited →
      ∃ out s' walked, dfs (red.otherNode r node) (some r) src s = some (out, s', walked) ∧ s'.visitedNodes = visited)
    {fromRes : Option R} {src : ℚ} {l : List R} (here : ∀ r ∈ l, r ∈ red.resistorMap node) (out : Reduced)
    {s : Search N R} (same : s.visitedNodes = visited) :
    ∃ out' s' b, red.followResistors dfs node fromRes src l out s = some (out', s', b) ∧ s'.visitedNodes = visited := by
  induction l generalizing out s with
  | nil => exact ⟨out, s, .nil, rfl, same⟩
  | cons r rest ih =>
    obtain ⟨first, others⟩ := List.forall_mem_cons.1 here
    simp only [ReduceToPi.followResistors]
    by_cases marked : r ∈ s.loopResistors
    · rw [if_pos marked]
      exact ih others out same
    rw [if_neg marked]
    by_cases skipped : red.otherNode r node = node ∨ some r = fromRes
    · rw [if_pos skipped]
      exact ih others out same
    rw [if_neg skipped]
    by_cases met : red.otherNode r node ∈ s.visitedNodes
    · rw [if_pos met]
      exact ih others out same
    rw [if_neg met]
    obtain ⟨below, s₁, walked, call, kept⟩ := calls r first (src + red.value r) s met same
    obtain ⟨out₂, s₂, b, tail, after⟩ := ih others (out.addSeries (red.value r) below) kept
    exact ⟨_, _, _, Option.bind_eq_some_iff.2 ⟨_, call, Option.map_eq_some_iff.2 ⟨_, tail, rfl⟩⟩, after⟩

/-- A call ends when its fuel exceeds the number of nodes that are not visited. -/
theorem reducePiDfs_terminates {drvrNode : N} {fuel : ℕ} {node : N} {fromRes : Option R} {src : ℚ} {s : Search N R}
    (mem : node ∈ red.nodesFrom drvrNode) (unvisited : node ∉ s.visitedNodes)
    (enough : (red.nodesFrom drvrNode \ s.visitedNodes).card < fuel) :
    ∃ out s' walked, red.reducePiDfs fuel node fromRes src s = some (out, s', walked) ∧
    s'.visitedNodes = s.visitedNodes := by
  induction fuel generalizing node fromRes src s with
  | zero => exact absurd enough (Nat.not_lt_zero _)
  | succ fuel ih =>
    unfold ReduceToPi.reducePiDfs
    by_cases outside : red.isExternal node
    · rw [if_pos outside]
      exact ⟨_, _, _, rfl, rfl⟩
    rw [if_neg outside]
    have fewer := card_sdiff_insert_lt mem unvisited
    have calls : ∀ r ∈ red.resistorMap node, ∀ src s', red.otherNode r node ∉ s'.visitedNodes →
        s'.visitedNodes = insert node s.visitedNodes → ∃ out s'' walked,
          red.reducePiDfs fuel (red.otherNode r node) (some r) src s' = some (out, s'', walked) ∧
            s''.visitedNodes = insert node s.visitedNodes := by
      intro r here src s' fresh same
      have left : (red.nodesFrom drvrNode \ s'.visitedNodes).card < fuel := by
        rw [same]
        omega
      obtain ⟨out, s'', walked, call, kept⟩ := ih (red.otherNode_mem_nodesFrom here) fresh left
      exact ⟨out, s'', walked, call, kept.trans same⟩
    obtain ⟨out, s₁, b, loop, kept⟩ :=
      followResistors_terminates calls (fun _ here => here) (.ofCap (red.nodeCap node)) (s := s.enter node src) rfl
    refine ⟨_, _, _, by rw [loop]; rfl, ?_⟩
    rw [Search.finish_visitedNodes,kept]
    exact Finset.erase_insert unvisited

end Termination

end GTPower.ReduceParasitics
