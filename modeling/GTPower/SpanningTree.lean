import GTPower.LoopSearch

/-! The tree that a search of an RC network walks. Between nodes that it has met, a resistor is in the tree or
marked. -/
namespace GTPower.ReduceParasitics
open RcTrees

variable {N R P : Type*} [DecidableEq N]

/-- A search that may enter the nodes it has not met. -/
structure Ready (red : ReduceToPi N R P) (s : Search N R) : Prop where
  nodup : s.left.Nodup
  apart : ∀ u ∈ s.left, u ∉ s.visitedNodes
  inside : ∀ u, u ∈ s.left ∨ u ∈ s.visitedNodes → ¬red.isExternal u
  complete : ∀ u ∈ s.left, ∀ r ∈ red.resistorMap u,
    red.isExternal (red.otherNode r u) ∨ red.otherNode r u ∈ s.left ∨ red.otherNode r u ∈ s.visitedNodes
  ends : ∀ r ∈ s.loopResistors, ∀ u, r ∈ red.resistorMap u → u ∈ s.left ∨ u ∈ s.visitedNodes

/-- A search at a node that has some of its resistors to follow. -/
structure Entered (red : ReduceToPi N R P) (node : N) (fromRes : Option R) (l : List R) (s : Search N R) : Prop where
  ready : Ready red s
  here : node ∈ s.visitedNodes
  known : ∀ r ∈ l, r ∈ red.resistorMap node
  came : ∀ r ∈ l, some r = fromRes → red.otherNode r node ∈ s.visitedNodes
  once : l.Pairwise fun a b => a ≠ b ∨ red.otherNode a node = node
  fresh : ∀ r ∈ l, r ∉ s.loopResistors → some r ≠ fromRes → red.otherNode r node ∉ s.left

/-- The branches at a node for given marks and visited nodes. A resistor to an external node gives none. -/
inductive Joined (red : ReduceToPi N R P) (loops : Finset R) : Finset N → N → Option R → List R → Branches N R → Prop
  | nil {visited node fromRes} : Joined red loops visited node fromRes [] .nil
  | skip {visited node fromRes r rest b} (skipped : r ∈ loops ∨ red.otherNode r node ∈ visited ∨ some r = fromRes)
      (tail : Joined red loops visited node fromRes rest b) : Joined red loops visited node fromRes (r :: rest) b
  | external {visited node fromRes r rest b} (outside : red.isExternal (red.otherNode r node))
      (tail : Joined red loops visited node fromRes rest b) : Joined red loops visited node fromRes (r :: rest) b
  | walk {visited node fromRes r rest below b} (free : r ∉ loops) (unused : some r ≠ fromRes)
      (unvisited : red.otherNode r node ∉ visited) (inside : ¬red.isExternal (red.otherNode r node))
      (inner : Joined red loops (insert (red.otherNode r node) visited) (red.otherNode r node) (some r)
        (red.resistorMap (red.otherNode r node)) below)
      (tail : Joined red loops visited node fromRes rest b) :
      Joined red loops visited node fromRes (r :: rest) (.cons r (red.otherNode r node) below b)

/-- What a loop over resistors of a node leaves behind. -/
structure Spanned (red : ReduceToPi N R P) (node : N) (fromRes : Option R) (l : List R) (s s' : Search N R)
    (b : Branches N R) : Prop where
  ready : Ready red s'
  kept : s.loopResistors ⊆ s'.loopResistors
  grown : ∀ r ∈ s'.loopResistors, r ∈ s.loopResistors ∨ (r ∈ l ∧ red.otherNode r node ≠ node ∧ some r ≠ fromRes) ∨
    ∃ u ∈ b.nodes, r ∈ red.resistorMap u
  marked : ∀ u ∈ b.nodes, ∀ r ∈ red.resistorMap u, red.otherNode r u ∈ s.visitedNodes → red.otherNode r u ≠ node →
    r ∈ s'.loopResistors
  handled : ∀ r ∈ l, red.otherNode r node ∈ s.visitedNodes → r ∈ s'.loopResistors ∨ red.otherNode r node = node ∨
    some r = fromRes
  complete : ∀ r ∈ l, red.isExternal (red.otherNode r node) ∨ red.otherNode r node ∈ s'.left ∨
    red.otherNode r node ∈ s'.visitedNodes
  joined : Joined red s'.loopResistors s.visitedNodes node fromRes l b
  free : ∀ r ∈ b.resistors, r ∉ s'.loopResistors
  ends : ∀ r ∈ b.resistors, ∀ u, r ∈ red.resistorMap u → u = node ∨ u ∈ b.nodes

variable {red : ReduceToPi N R P} {node : N} {fromRes : Option R} {r : R} {l rest : List R} {out out' : Reduced}
    {s s₁ s' : Search N R}
  {b below : Branches N R} {loops loops' visited : Finset _}

theorem Joined.mono {visited : Finset N} (joined : Joined red loops visited node fromRes l b) (sub : loops ⊆ loops')
    (free : ∀ r ∈ b.resistors, r ∉ loops') : Joined red loops' visited node fromRes l b := by
  induction joined with
  | nil => exact .nil
  | skip skipped tail ih => exact .skip (skipped.imp_left (sub ·)) (ih free)
  | external outside tail ih => exact .external outside (ih free)
  | walk _ unused unvisited inside inner tail ihi iht =>
    simp only [Branches.resistors,List.mem_cons,List.mem_append,forall_eq_or_imp] at free
    exact .walk free.1 unused unvisited inside (ihi fun r mem => free.2 r (.inl mem)) (iht fun r mem =>
      free.2 r (.inr mem))

theorem Ready.enter (ready : Ready red s) {u : N} (new : u ∉ s.left) (inside : ¬red.isExternal u) (src : ℚ) :
    Ready red (s.enter u src) where
  nodup := ready.nodup
  apart v mem := by
    intro visited
    rcases Finset.mem_insert.1 visited with rfl | before
    · exact new mem
    · exact ready.apart v mem before
  inside v met := by
    rcases met with done | visited
    · exact ready.inside v (.inl done)
    rcases Finset.mem_insert.1 visited with rfl | before
    · exact inside
    · exact ready.inside v (.inr before)
  complete v mem r here := (ready.complete v mem r here).imp_right (Or.imp_right Finset.mem_insert_of_mem)
  ends r mem v here := (ready.ends r mem v here).imp_right Finset.mem_insert_of_mem

theorem Ready.mark [DecidableEq R] (ready : Ready red s) (known : r ∈ red.resistorMap node)
    (here : node ∈ s.visitedNodes)
    (there : red.otherNode r node ∈ s.visitedNodes) : Ready red (s.markLoopResistor r) where
  nodup := ready.nodup
  apart := ready.apart
  inside := ready.inside
  complete := ready.complete
  ends r' mem v at' := by
    rcases Finset.mem_insert.1 mem with rfl | before
    · rcases red.end_cases known at' with rfl | rfl
      · exact .inr here
      · exact .inr there
    · exact ready.ends r' before v at'

namespace Entered

theorem tail (entered : Entered red node fromRes (r :: rest) s) : Entered red node fromRes rest s where
  ready := entered.ready
  here := entered.here
  known r' mem := entered.known r' (.tail _ mem)
  came r' mem := entered.came r' (.tail _ mem)
  once := entered.once.of_cons
  fresh r' mem := entered.fresh r' (.tail _ mem)

theorem mark [DecidableEq R] (entered : Entered red node fromRes (r :: rest) s)
    (there : red.otherNode r node ∈ s.visitedNodes) :
    Entered red node fromRes rest (s.markLoopResistor r) where
  ready := entered.ready.mark (entered.known r (.head _)) entered.here there
  here := entered.here
  known r' mem := entered.known r' (.tail _ mem)
  came r' mem := entered.came r' (.tail _ mem)
  once := entered.once.of_cons
  fresh r' mem unmarked := entered.fresh r' (.tail _ mem) fun before => unmarked (Finset.mem_insert_of_mem before)

theorem external (entered : Entered red node fromRes (r :: rest) s) :
    Entered red node fromRes rest { s with maxResistance := 0 } where
  ready := ⟨entered.ready.nodup, entered.ready.apart, entered.ready.inside, entered.ready.complete, entered.ready.ends⟩
  here := entered.here
  known r' mem := entered.known r' (.tail _ mem)
  came r' mem := entered.came r' (.tail _ mem)
  once := entered.once.of_cons
  fresh r' mem := entered.fresh r' (.tail _ mem)

theorem enter {u : N} {came : Option R} (ready : Ready red s) (new : u ∉ s.left) (inside : ¬red.isExternal u)
    (origin : ∀ r ∈ red.resistorMap u, some r = came → red.otherNode r u ∈ s.visitedNodes)
    (fresh : ∀ r ∈ red.resistorMap u, some r ≠ came → red.otherNode r u ∉ s.left) (src : ℚ) :
    Entered red u came (red.resistorMap u) (s.enter u src) where
  ready := ready.enter new inside src
  here := Finset.mem_insert_self _ _
  known _ mem := mem
  came r mem same := Finset.mem_insert_of_mem (origin r mem same)
  once := red.resistorMap_pairwise u
  fresh r mem _ := fresh r mem

theorem inner (entered : Entered red node fromRes (r :: rest) s) (new : r ∉ s.loopResistors) (unused : some r ≠ fromRes)
    (unvisited : red.otherNode r node ∉ s.visitedNodes) (inside : ¬red.isExternal (red.otherNode r node)) (src : ℚ) :
    Entered red (red.otherNode r node) (some r) (red.resistorMap (red.otherNode r node))
    (s.enter (red.otherNode r node) src) := by
  have known := entered.known r (.head _)
  have unleft := entered.fresh r (.head _) new unused
  apply enter entered.ready unleft inside
  · intro r' here same
    cases same
    rw [red.otherNode_otherNode known]
    exact entered.here
  · -- a node that was left has met its neighbours
    intro r' here _ left
    have back := entered.ready.complete _ left r' (red.otherNode_mem here)
    rw [red.otherNode_otherNode here] at back
    rcases back with outside | done | visited
    · exact inside outside
    · exact unleft done
    · exact unvisited visited

end Entered

theorem Spanned.finish {u : N} {came : Option R} {src : ℚ} {done : Reduced}
    (spanned : Spanned red u came (red.resistorMap u) (s.enter u src) s₁ below)
    (same : s₁.visitedNodes = (s.enter u src).visitedNodes) (inside : ¬red.isExternal u)
    (unvisited : u ∉ s.visitedNodes) : Ready red (s₁.finish u done.dwnCap) := by
  have left : (s₁.finish u done.dwnCap).left = u :: s₁.left := rfl
  have visited : (s₁.finish u done.dwnCap).visitedNodes = s.visitedNodes := by
    rw [Search.finish_visitedNodes,same]
    exact Finset.erase_insert unvisited
  have before : ∀ {v}, v ∈ s₁.visitedNodes ↔ v = u ∨ v ∈ s.visitedNodes := by
    intro v
    rw [same]
    exact Finset.mem_insert
  have met : ∀ v, v ∈ s₁.left ∨ v ∈ s₁.visitedNodes → v ∈ u :: s₁.left ∨ v ∈ s.visitedNodes := by
    intro v met
    rw [before] at met
    simp only [List.mem_cons]
    tauto
  constructor
  · rw [left]
    exact List.nodup_cons.2 ⟨fun mem => spanned.ready.apart u mem (before.2 (.inl rfl)), spanned.ready.nodup⟩
  · rw [left,visited]
    intro v mem
    rcases List.mem_cons.1 mem with rfl | mem
    · exact unvisited
    · exact fun early => spanned.ready.apart v mem (before.2 (.inr early))
  · rw [left,visited]
    rintro v (mem | early)
    · rcases List.mem_cons.1 mem with rfl | mem
      · exact inside
      · exact spanned.ready.inside v (.inl mem)
    · exact spanned.ready.inside v (.inr (before.2 (.inr early)))
  · rw [left,visited]
    intro v mem r' here
    rcases List.mem_cons.1 mem with rfl | mem
    · exact (spanned.complete r' here).imp_right (met _)
    · exact (spanned.ready.complete v mem r' here).imp_right (met _)
  · rw [left,visited]
    exact fun r' mem v here => met v (spanned.ready.ends r' mem v here)

section Steps

theorem Spanned.nil (entered : Entered red node fromRes [] s) : Spanned red node fromRes [] s s .nil where
  ready := entered.ready
  kept := le_rfl
  grown _ mem := .inl mem
  marked _ mem := absurd mem List.not_mem_nil
  handled _ mem := absurd mem List.not_mem_nil
  complete _ mem := absurd mem List.not_mem_nil
  joined := .nil
  free _ mem := absurd mem List.not_mem_nil
  ends _ mem := absurd mem List.not_mem_nil

theorem Spanned.pass {s₀ : Search N R} (tail : Spanned red node fromRes rest s₀ s' b)
    (visited : s₀.visitedNodes = s.visitedNodes) (kept : s.loopResistors ⊆ s₀.loopResistors)
    (loops : ∀ r' ∈ s₀.loopResistors, r' ∈ s.loopResistors ∨ (r' = r ∧ red.otherNode r node ≠ node ∧ some r ≠ fromRes))
    (handled : red.otherNode r node ∈ s.visitedNodes → r ∈ s'.loopResistors ∨ red.otherNode r node = node ∨
      some r = fromRes)
    (complete : red.isExternal (red.otherNode r node) ∨ red.otherNode r node ∈ s'.left ∨
      red.otherNode r node ∈ s'.visitedNodes)
    (joined : Joined red s'.loopResistors s.visitedNodes node fromRes (r :: rest) b) :
    Spanned red node fromRes (r :: rest) s s' b where
  ready := tail.ready
  kept := kept.trans tail.kept
  grown r' mem := by
    rcases tail.grown r' mem with before | ⟨here, apart⟩ | below
    · rcases loops r' before with before | ⟨rfl, apart⟩
      · exact .inl before
      · exact .inr (.inl ⟨.head _, apart⟩)
    · exact .inr (.inl ⟨.tail _ here, apart⟩)
    · exact .inr (.inr below)
  marked u mem r' here early := tail.marked u mem r' here (visited ▸ early)
  handled r' mem early := by
    rcases List.mem_cons.1 mem with rfl | mem
    · exact handled early
    · exact tail.handled r' mem (visited ▸ early)
  complete r' mem := by
    rcases List.mem_cons.1 mem with rfl | mem
    · exact complete
    · exact tail.complete r' mem
  joined := joined
  free := tail.free
  ends := tail.ends

variable {src : ℚ} {done : Reduced}

/-- After the call for the other node of a resistor, the rest of the resistors can be followed. -/
theorem Entered.after (entered : Entered red node fromRes (r :: rest) s)
    (unvisited : red.otherNode r node ∉ s.visitedNodes) (inside : ¬red.isExternal (red.otherNode r node))
    (call : Spanned red (red.otherNode r node) (some r) (red.resistorMap (red.otherNode r node))
      (s.enter (red.otherNode r node) src) s₁ below)
    (same : s₁.visitedNodes = (s.enter (red.otherNode r node) src).visitedNodes)
    (left : s₁.left.Perm (below.nodes ++ s.left)) :
    Entered red node fromRes rest (s₁.finish (red.otherNode r node) done.dwnCap) := by
  have visited : (s₁.finish (red.otherNode r node) done.dwnCap).visitedNodes = s.visitedNodes := by
    rw [Search.finish_visitedNodes,same]
    exact Finset.erase_insert unvisited
  have known := entered.known r (.head _)
  have apart : red.otherNode r node ≠ node := by
    intro eq
    rw [eq] at unvisited
    exact unvisited entered.here
  refine ⟨call.finish same inside unvisited, visited ▸ entered.here, fun r' mem => entered.known r' (.tail _ mem), ?_,
    entered.once.of_cons, ?_⟩
  · rw [visited]
    exact fun r' mem => entered.came r' (.tail _ mem)
  intro r' mem unmarked unused' met
  have known' := entered.known r' (.tail _ mem)
  have unmarked₁ : r' ∉ s₁.loopResistors := unmarked
  have back := red.otherNode_otherNode known'
  rcases List.mem_cons.1 met with here | met
  · -- at the node of the call, the resistor was marked or is the one that led there
    have there := red.otherNode_mem known'
    rw [here] at there back
    have early : red.otherNode r' (red.otherNode r node) ∈ (s.enter (red.otherNode r node) src).visitedNodes := by
      rw [back]
      exact Finset.mem_insert_of_mem entered.here
    rcases call.handled r' there early with marked | self | again
    · exact unmarked₁ marked
    · exact apart (self.symm.trans back)
    · cases again
      rcases List.rel_of_pairwise_cons entered.once mem with differs | self
      · exact differs rfl
      · exact apart self
  rcases List.mem_append.1 (left.mem_iff.1 met) with mem' | before
  · -- below it, the resistor was marked as one to a visited node
    apply unmarked₁
    apply call.marked _ mem' r' (red.otherNode_mem known')
    · rw [back]
      exact Finset.mem_insert_of_mem entered.here
    · rw [back]
      exact apart.symm
  · exact entered.fresh r' (.tail _ mem) (fun early => unmarked₁ (call.kept early)) unused' before

theorem Spanned.walk (entered : Entered red node fromRes (r :: rest) s) (new : r ∉ s.loopResistors)
    (unused : some r ≠ fromRes) (unvisited : red.otherNode r node ∉ s.visitedNodes)
    (inside : ¬red.isExternal (red.otherNode r node))
    (call : Spanned red (red.otherNode r node) (some r) (red.resistorMap (red.otherNode r node))
      (s.enter (red.otherNode r node) src) s₁ below)
    (same : s₁.visitedNodes = (s.enter (red.otherNode r node) src).visitedNodes)
    (left : s₁.left.Perm (below.nodes ++ s.left))
    (tail : Spanned red node fromRes rest (s₁.finish (red.otherNode r node) done.dwnCap) s' b)
    (left' : s'.left.Perm (b.nodes ++ red.otherNode r node :: s₁.left)) (same' : s'.visitedNodes = s.visitedNodes) :
    Spanned red node fromRes (r :: rest) s s' (.cons r (red.otherNode r node) below b) := by
  have apart : red.otherNode r node ≠ node := by
    intro eq
    rw [eq] at unvisited
    exact unvisited entered.here
  have known := entered.known r (.head _)
  have back := red.otherNode_otherNode known
  have before : (s₁.finish (red.otherNode r node) done.dwnCap).visitedNodes = s.visitedNodes := by
    rw [Search.finish_visitedNodes,same]
    exact Finset.erase_insert unvisited
  have early {u : N} (mem : u ∈ s.visitedNodes) : u ∈ (s.enter (red.otherNode r node) src).visitedNodes :=
    Finset.mem_insert_of_mem mem
  have unleft : node ∉ s₁.left := by
    intro mem
    apply call.ready.apart node mem
    rw [same]
    exact early entered.here
  have disjoint : ∀ u ∈ b.nodes, u ≠ red.otherNode r node ∧ u ∉ below.nodes := by
    intro u mem
    have apart' : u ∉ red.otherNode r node :: s₁.left :=
      List.disjoint_of_nodup_append (left'.nodup_iff.1 tail.ready.nodup) mem
    rw [List.mem_cons,not_or,left.mem_iff,List.mem_append,not_or] at apart'
    exact ⟨apart'.1, apart'.2.1⟩
  have unleft' : node ∉ below.nodes := fun mem => unleft (left.mem_iff.2 (List.mem_append_left _ mem))
  have free : r ∉ s'.loopResistors := by
    intro marked
    rcases tail.grown r marked with inner | ⟨again, -, -⟩ | ⟨u, mem, here⟩
    · rcases call.grown r inner with earlier | ⟨-, -, differs⟩ | ⟨u, mem, here⟩
      · exact new earlier
      · exact differs rfl
      · rcases red.end_cases known here with rfl | rfl
        · exact unleft' mem
        · apply call.ready.apart _ (left.mem_iff.2 (List.mem_append_left _ mem))
          rw [same]
          exact Finset.mem_insert_self _ _
    · rcases List.rel_of_pairwise_cons entered.once again with differs | self
      · exact differs rfl
      · exact apart self
    · rcases red.end_cases known here with rfl | rfl
      · apply tail.ready.apart _ (left'.mem_iff.2 (List.mem_append_left _ mem))
        rw [same']
        exact entered.here
      · exact (disjoint _ mem).1 rfl
  have freeBelow : ∀ t ∈ below.resistors, t ∉ s'.loopResistors := by
    intro t mem marked
    rcases tail.grown t marked with inner | ⟨again, -, -⟩ | ⟨u, mem', here⟩
    · exact call.free t mem inner
    · rcases call.ends t mem node (entered.known t (.tail _ again)) with self | inside
      · exact apart self.symm
      · exact unleft' inside
    · rcases call.ends t mem u here with self | inside
      · exact (disjoint u mem').1 self
      · exact (disjoint u mem').2 inside
  constructor
  · exact tail.ready
  · exact call.kept.trans tail.kept
  · intro r' marked
    rcases tail.grown r' marked with inner | ⟨mem, differs⟩ | ⟨u, mem, here⟩
    · rcases call.grown r' inner with earlier | ⟨here, -, -⟩ | ⟨u, mem, here⟩
      · exact .inl earlier
      · exact .inr (.inr ⟨_, .head _, here⟩)
      · exact .inr (.inr ⟨u, by simp [Branches.nodes,mem], here⟩)
    · exact .inr (.inl ⟨.tail _ mem, differs⟩)
    · exact .inr (.inr ⟨u, by simp [Branches.nodes,mem], here⟩)
  · intro u mem r' here visited differs
    simp only [Branches.nodes,List.mem_cons,List.mem_append] at mem
    have notHere : red.otherNode r' u ≠ red.otherNode r node := by
      intro eq
      rw [eq] at visited
      exact unvisited visited
    rcases mem with rfl | mem | mem
    · rcases call.handled r' here (early visited) with marked | self | again
      · exact tail.kept marked
      · exact absurd self notHere
      · cases again
        exact absurd back differs
    · exact tail.kept (call.marked u mem r' here (early visited) notHere)
    · exact tail.marked u mem r' here (before ▸ visited) differs
  · intro r' mem visited
    rcases List.mem_cons.1 mem with rfl | mem
    · exact absurd visited unvisited
    · exact tail.handled r' mem (before ▸ visited)
  · intro r' mem
    rcases List.mem_cons.1 mem with rfl | mem
    · exact .inr (.inl (left'.mem_iff.2 (by simp)))
    · exact tail.complete r' mem
  · exact .walk free unused unvisited inside (call.joined.mono tail.kept freeBelow) (before ▸ tail.joined)
  · intro t mem
    simp only [Branches.resistors,List.mem_cons,List.mem_append] at mem
    rcases mem with rfl | mem | mem
    · exact free
    · exact freeBelow t mem
    · exact tail.free t mem
  · intro t mem u here
    simp only [Branches.resistors,List.mem_cons,List.mem_append] at mem
    simp only [Branches.nodes,List.mem_cons,List.mem_append]
    rcases mem with rfl | mem | mem
    · exact (red.end_cases known here).imp_right .inl
    · exact .inr ((call.ends t mem u here).imp_right .inl)
    · exact (tail.ends t mem u here).imp_right fun mem => .inr (.inr mem)

end Steps

theorem Follows.spanned [DecidableEq R] (run : Follows red node fromRes l out s out' s' b)
    (entered : Entered red node fromRes l s) :
    Spanned red node fromRes l s s' b := by
  induction run with
  | nil => exact .nil entered
  | @skip node fromRes r rest out s out' s' b skipped tail ih =>
    have spanned := ih entered.tail
    have visited := tail.visitedNodes_eq
    have met : ∀ u, u ∈ s.visitedNodes → u ∈ s'.visitedNodes := fun u mem => visited ▸ mem
    apply spanned.pass rfl le_rfl (fun r' mem => .inl mem) (fun _ => skipped.imp_left (spanned.kept ·))
    · right
      rcases skipped with marked | self | again
      · exact spanned.ready.ends r (spanned.kept marked) _ (red.otherNode_mem (entered.known r (.head _)))
      · rw [self]
        exact .inr (met _ entered.here)
      · exact .inr (met _ (entered.came r (.head _) again))
    · apply Joined.skip _ spanned.joined
      rcases skipped with marked | self | again
      · exact .inl (spanned.kept marked)
      · rw [self]
        exact .inr (.inl entered.here)
      · exact .inr (.inr again)
  | @loop node fromRes r rest out s out' s' b new other unused visited tail ih =>
    have spanned := ih (entered.mark visited)
    have marked : r ∈ s'.loopResistors := spanned.kept (Finset.mem_insert_self _ _)
    have met : red.otherNode r node ∈ s'.visitedNodes := by
      rw [tail.visitedNodes_eq]
      exact visited
    have loops : ∀ r' ∈ (s.markLoopResistor r).loopResistors,
        r' ∈ s.loopResistors ∨ (r' = r ∧ red.otherNode r node ≠ node ∧ some r ≠ fromRes) := by
      intro r' mem
      rcases Finset.mem_insert.1 mem with rfl | before
      · exact .inr ⟨rfl, other, unused⟩
      · exact .inl before
    have kept : s.loopResistors ⊆ (s.markLoopResistor r).loopResistors := Finset.subset_insert _ _
    exact spanned.pass rfl kept loops (fun _ => .inl marked) (.inr (.inr met)) (.skip (.inl marked) spanned.joined)
  | @external node fromRes r rest out s out' s' b unvisited outside tail ih =>
    have spanned := ih entered.external
    exact spanned.pass rfl le_rfl (fun r' mem => .inl mem) (fun visited => absurd visited unvisited) (.inl outside)
      (.external outside spanned.joined)
  | @walk node fromRes r rest out s below s₁ branches out' s' b srcResistance new unused unvisited inside inner
    tail ihi iht =>
    have call := ihi (entered.inner new unused unvisited inside srcResistance)
    have same := inner.visitedNodes_eq
    have left := inner.left_perm
    have after : Entered red node fromRes rest (s₁.finish (red.otherNode r node) below.dwnCap) :=
      entered.after unvisited inside call same left
    have same' : s'.visitedNodes = s.visitedNodes :=
      (Follows.walk srcResistance new unused unvisited inside inner tail).visitedNodes_eq
    exact .walk entered new unused unvisited inside call same left (iht after) tail.left_perm same'

end GTPower.ReduceParasitics
