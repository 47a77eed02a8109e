import GTPower.IndependentEvents

/-! Reduced ordered decision diagrams with complemented edges. The edge to the branch for 1 is never complemented, and
the only constant is 1. -/
namespace DecisionDiagram

inductive Node where
  | one
  | ite (var : Nat) (high : Node) (complement : Bool) (low : Node)
  deriving DecidableEq, Repr

/-- An edge into a node, complemented or not. -/
structure Edge where
  complement : Bool
  node : Node
  deriving DecidableEq, Repr

def Edge.one : Edge := ⟨false, .one⟩

def Edge.zero : Edge := ⟨true, .one⟩

def Edge.not (edge : Edge) : Edge := { edge with complement := !edge.complement }

namespace Node

def eval (env : Nat → Bool) : Node → Bool
  | one => true
  | ite var high complement low => if env var then high.eval env else complement ^^ low.eval env

def vars : Node → List Nat
  | one => []
  | ite var high _ low => var :: (high.vars ++ low.vars)

def size : Node → Nat
  | one => 0
  | ite _ high _ low => high.size + low.size + 1

/-- The variables grow along every path, from `least` on. -/
def Ordered : Nat → Node → Prop
  | _, one => True
  | least, ite var high _ low => least ≤ var ∧ high.Ordered (var + 1) ∧ low.Ordered (var + 1)

/-- No node has the same branch twice. -/
def Reduced : Node → Prop
  | one => True
  | ite _ high complement low => ¬ (complement = false ∧ high = low) ∧ high.Reduced ∧ low.Reduced

variable {node high low : Node}

theorem Ordered.least_le (ordered : node.Ordered least) (mem : var ∈ node.vars) : least ≤ var := by
  induction node generalizing least with
  | one => simp [vars] at mem
  | ite top high complement low highIh lowIh =>
    obtain ⟨above, highOrdered, lowOrdered⟩ := ordered
    rcases List.mem_cons.mp mem with rfl | inside
    · exact above
    · rcases List.mem_append.mp inside with inHigh | inLow
      · have := highIh highOrdered inHigh
        omega
      · have := lowIh lowOrdered inLow
        omega

theorem eval_congr (agree : ∀ var ∈ node.vars, env var = env' var) : node.eval env = node.eval env' := by
  induction node with
  | one => rfl
  | ite top high complement low highIh lowIh =>
    have here := agree top List.mem_cons_self
    have highSame := highIh fun var mem => agree var (List.mem_cons_of_mem _ (List.mem_append_left _ mem))
    have lowSame := lowIh fun var mem => agree var (List.mem_cons_of_mem _ (List.mem_append_right _ mem))
    rw [eval,eval,here,highSame,lowSame]

theorem Ordered.eval_update (ordered : node.Ordered least) (before : var < least) (env : Nat → Bool) (value : Bool) :
    node.eval (Function.update env var value) = node.eval env := by
  apply eval_congr
  intro other mem
  have := ordered.least_le mem
  exact Function.update_of_ne (by omega) ..

theorem eval_true (node : Node) : node.eval (fun _ => true) = true := by
  induction node with
  | one => rfl
  | ite top high complement low highIh lowIh => exact highIh

theorem Ordered.eval_high (ordered : (ite var high complement low).Ordered least) (env : Nat → Bool) :
    (ite var high complement low).eval (Function.update env var true) = high.eval env := by
  rw [eval,Function.update_self,if_pos rfl]
  exact ordered.2.1.eval_update (Nat.lt_succ_self var) env true

theorem Ordered.eval_low (ordered : (ite var high complement low).Ordered least) (env : Nat → Bool) :
    (ite var high complement low).eval (Function.update env var false) = (complement ^^ low.eval env) := by
  rw [eval,Function.update_self,if_neg Bool.false_ne_true]
  exact congrArg (complement ^^ ·) (ordered.2.2.eval_update (Nat.lt_succ_self var) env false)

/-- The variable of a reduced node matters where its branches have different functions as soon as they differ. -/
theorem Ordered.top_matters (ordered : (ite var high complement low).Ordered least)
    (reduced : (ite var high complement low).Reduced) (unique : (∀ env, high.eval env = low.eval env) → high = low) :
    ∃ env, (ite var high complement low).eval (Function.update env var true) ≠
      (ite var high complement low).eval (Function.update env var false) := by
  by_contra unchanged
  have same : ∀ env, high.eval env = (complement ^^ low.eval env) := by
    intro env
    by_contra differ
    refine unchanged ⟨env, ?_⟩
    rw [ordered.eval_high,ordered.eval_low]
    exact differ
  have plain : complement = false := by
    have all := same fun _ => true
    rw [eval_true,eval_true] at all
    simpa using all.symm
  refine reduced.1 ⟨plain, unique fun env => ?_⟩
  rw [same env,plain,Bool.false_xor]

theorem canonical {a b : Node} (orderedA : a.Ordered leastA) (reducedA : a.Reduced) (orderedB : b.Ordered leastB)
    (reducedB : b.Reduced) (same : ∀ env, a.eval env = b.eval env) : a = b := by
  -- A variable that matters in one of them matters in the other, so that the tops are the same variable.
  induction whole : a.size + b.size using Nat.strongRecOn generalizing a b leastA leastB with
  | ind total ih =>
    have matters : ∀ {least var high complement low}, (ite var high complement low).Ordered least →
        (ite var high complement low).Reduced → high.size + low.size < total →
        ∃ env, (ite var high complement low).eval (Function.update env var true) ≠
          (ite var high complement low).eval (Function.update env var false) := by
      intro least var high complement low ordered reduced smaller
      exact ordered.top_matters reduced fun same =>
        ih _ smaller ordered.2.1 reduced.2.1 ordered.2.2 reduced.2.2 same rfl
    cases a with
    | one =>
      cases b with
      | one => rfl
      | ite var high complement low =>
        simp only [size] at whole
        obtain ⟨env, differ⟩ := matters orderedB reducedB (by omega)
        rw [← same,← same] at differ
        exact (differ rfl).elim
    | ite var high complement low =>
      simp only [size] at whole
      obtain ⟨env, differ⟩ := matters orderedA reducedA (by omega)
      cases b with
      | one =>
        rw [same,same] at differ
        exact (differ rfl).elim
      | ite var' high' complement' low' =>
        simp only [size] at whole
        rcases Nat.lt_trichotomy var var' with before | rfl | after
        · have lower : (ite var' high' complement' low').Ordered var' := ⟨Nat.le_refl _, orderedB.2⟩
          rw [same,same,lower.eval_update before,lower.eval_update before] at differ
          exact (differ rfl).elim
        · have highSame : ∀ env, high.eval env = high'.eval env := by
            intro env
            rw [← orderedA.eval_high,same,orderedB.eval_high]
          have lowSame : ∀ env, (complement ^^ low.eval env) = (complement' ^^ low'.eval env) := by
            intro env
            rw [← orderedA.eval_low,same,orderedB.eval_low]
          have complements : complement = complement' := by
            have all := lowSame fun _ => true
            rw [eval_true,eval_true] at all
            simpa using all
          subst complements
          have highs := ih _ (by omega) orderedA.2.1 reducedA.2.1 orderedB.2.1 reducedB.2.1 highSame rfl
          have lows := ih _ (by omega) orderedA.2.2 reducedA.2.2 orderedB.2.2 reducedB.2.2
            (fun env => Bool.xor_right_inj.mp (lowSame env)) rfl
          rw [highs,lows]
        · have lower : (ite var high complement low).Ordered var := ⟨Nat.le_refl _, orderedA.2⟩
          obtain ⟨env, differ⟩ := matters orderedB reducedB (by omega)
          rw [← same,← same,lower.eval_update after,lower.eval_update after] at differ
          exact (differ rfl).elim

theorem Ordered.matters (ordered : node.Ordered least) (reduced : node.Reduced) (mem : var ∈ node.vars) :
    ∃ env, node.eval (Function.update env var true) ≠ node.eval (Function.update env var false) := by
  induction node generalizing least with
  | one => simp [vars] at mem
  | ite top high complement low highIh lowIh =>
    rcases List.mem_cons.mp mem with rfl | inside
    · exact ordered.top_matters reduced (canonical ordered.2.1 reduced.2.1 ordered.2.2 reduced.2.2)
    · have branch : ∀ (below : Node), below.Ordered (top + 1) → var ∈ below.vars → var ≠ top := by
        intro below belowOrdered mem
        have := belowOrdered.least_le mem
        omega
      rcases List.mem_append.mp inside with inHigh | inLow
      · obtain ⟨env, differ⟩ := highIh ordered.2.1 reduced.2.1 inHigh
        have other := branch high ordered.2.1 inHigh
        refine ⟨Function.update env top true, ?_⟩
        rw [Function.update_comm other.symm,Function.update_comm other.symm,ordered.eval_high,ordered.eval_high]
        exact differ
      · obtain ⟨env, differ⟩ := lowIh ordered.2.2 reduced.2.2 inLow
        have other := branch low ordered.2.2 inLow
        refine ⟨Function.update env top false, ?_⟩
        rw [Function.update_comm other.symm,Function.update_comm other.symm,ordered.eval_low,ordered.eval_low]
        exact fun same => differ (Bool.xor_right_inj.mp same)

/-- Value of a node from those of its branches, for weights of the two values of a variable. -/
def weight {R : Type*} [Ring R] (duty : Nat → R) : Node → R
  | one => 1
  | ite var high complement low =>
    (1 - duty var) * (if complement then 1 - low.weight duty else low.weight duty) + duty var * high.weight duty

end Node

namespace Edge

def eval (env : Nat → Bool) (edge : Edge) : Bool := edge.complement ^^ edge.node.eval env

def weight {R : Type*} [Ring R] (duty : Nat → R) (edge : Edge) : R :=
  if edge.complement then 1 - edge.node.weight duty else edge.node.weight duty

variable {edge : Edge}

/-- What the operations on diagrams keep. -/
structure Canonical (edge : Edge) : Prop where
  ordered : edge.node.Ordered 0
  reduced : edge.node.Reduced

theorem eval_not (env : Nat → Bool) (edge : Edge) : edge.not.eval env = !edge.eval env := by
  rw [eval,eval,Edge.not]
  cases edge.complement <;> simp

theorem Canonical.not (canonical : edge.Canonical) : edge.not.Canonical := ⟨canonical.ordered, canonical.reduced⟩

theorem eval_congr (agree : ∀ var ∈ edge.node.vars, env var = env' var) : edge.eval env = edge.eval env' := by
  rw [eval,eval,Node.eval_congr agree]

theorem Canonical.matters (canonical : edge.Canonical) (mem : var ∈ edge.node.vars) :
    ∃ env, edge.eval (Function.update env var true) ≠ edge.eval (Function.update env var false) := by
  obtain ⟨env, differ⟩ := canonical.ordered.matters canonical.reduced mem
  exact ⟨env, fun same => differ (Bool.xor_right_inj.mp same)⟩

end Edge

section Labels
variable {ι R : Type*} [DecidableEq ι] [CommRing R] (label : Nat → Option ι)

/-- The value of a variable as that of the bit it is labelled with. -/
def readings (env : ι → Bool) (var : Nat) : Bool := (label var).any env

def duties (duty : ι → R) (var : Nat) : R := ((label var).map duty).getD 0

/-- Every variable of a node is labelled with a bit of the set, no two with the same one. -/
structure Labelled (bits : Finset ι) (vars : List Nat) : Prop where
  named : ∀ var ∈ vars, ∃ bit ∈ bits, label var = some bit
  unique : ∀ var ∈ vars, ∀ var' ∈ vars, label var = label var' → var = var'

variable {label} {bits : Finset ι} {bit : ι}

omit [DecidableEq ι] in
theorem Labelled.mono (labelled : Labelled label bits vars) (sub : ∀ var ∈ vars', var ∈ vars) :
    Labelled label bits vars' :=
  ⟨fun var mem => labelled.named var (sub var mem), fun var mem var' mem' =>
    labelled.unique var (sub var mem) var' (sub var' mem')⟩

theorem Labelled.erase (labelled : Labelled label bits vars) (sub : ∀ below ∈ vars', below ∈ vars) (mem : var ∈ vars)
    (later : ∀ below ∈ vars', var < below) (here : label var = some bit) : Labelled label (bits.erase bit) vars' := by
  refine ⟨fun below inside => ?_, (labelled.mono sub).unique⟩
  obtain ⟨other, found, named⟩ := labelled.named below (sub below inside)
  refine ⟨other, Finset.mem_erase.mpr ⟨?_, found⟩, named⟩
  rintro rfl
  have := labelled.unique var mem below (sub below inside) (here.trans named.symm)
  have := later below inside
  omega

theorem readings_update (labelled : Labelled label bits vars) (mem : var ∈ vars) (here : label var = some bit)
    (env : ι → Bool) (value : Bool) (other : Nat) (inside : other ∈ vars) :
    readings label (Function.update env bit value) other = Function.update (readings label env) var value other := by
  obtain ⟨bit', -, named⟩ := labelled.named other inside
  by_cases same : other = var
  · subst same
    rw [Function.update_self,readings,here]
    exact Function.update_self ..
  · have differ : bit' ≠ bit := by
      rintro rfl
      exact same (labelled.unique other inside var mem (named.trans here.symm))
    rw [Function.update_of_ne same,readings,readings,named]
    exact Function.update_of_ne differ ..

/-- The value worked out along the nodes is the probability of the function. -/
theorem Node.Ordered.weight_eq {node : Node} (ordered : node.Ordered least) (labelled : Labelled label bits node.vars)
    (duty : ι → R) :
    node.weight (duties label duty) = Independent.probability bits duty fun env => node.eval (readings label env) := by
  induction node generalizing least bits with
  | one => exact (Independent.probability_true bits duty).symm
  | ite var high complement low highIh lowIh =>
    have top : var ∈ (Node.ite var high complement low).vars := List.mem_cons_self
    obtain ⟨bit, mem, here⟩ := labelled.named var top
    have inHigh : ∀ below ∈ high.vars, below ∈ (Node.ite var high complement low).vars := fun below inside =>
      List.mem_cons_of_mem _ (List.mem_append_left _ inside)
    have inLow : ∀ below ∈ low.vars, below ∈ (Node.ite var high complement low).vars := fun below inside =>
      List.mem_cons_of_mem _ (List.mem_append_right _ inside)
    have highs := highIh ordered.2.1 (labelled.erase inHigh top (fun below inside => ordered.2.1.least_le inside) here)
    have lows := lowIh ordered.2.2 (labelled.erase inLow top (fun below inside => ordered.2.2.least_le inside) here)
    have updated : ∀ env value,
      (Node.ite var high complement low).eval (readings label (Function.update env bit value)) =
        (Node.ite var high complement low).eval (Function.update (readings label env) var value) := fun env value =>
      Node.eval_congr fun other inside => readings_update labelled top here env value other inside
    have fresh : bit ∉ bits.erase bit := Finset.notMem_erase bit bits
    have share : duties label duty var = duty bit := by
      rw [duties,here]
      rfl
    rw [← Finset.insert_erase mem,Independent.probability_insert fresh]
    simp only [updated,ordered.eval_high,ordered.eval_low]
    rw [Node.weight,highs,share]
    congr 2
    cases complement with
    | false =>
      rw [if_neg Bool.false_ne_true,lows]
      simp only [Bool.false_xor]
    | true =>
      rw [if_pos rfl,lows,← Independent.probability_not]
      simp only [Bool.true_xor]

theorem Edge.Canonical.weight_eq {edge : Edge} (canonical : edge.Canonical)
    (labelled : Labelled label bits edge.node.vars) (duty : ι → R) :
    edge.weight (duties label duty) = Independent.probability bits duty fun env => edge.eval (readings label env) := by
  have node := canonical.ordered.weight_eq labelled duty
  rw [Edge.weight,node]
  cases held : edge.complement with
  | false =>
    rw [if_neg Bool.false_ne_true]
    simp only [Edge.eval,held,Bool.false_xor]
  | true =>
    rw [if_pos rfl,← Independent.probability_not]
    simp only [Edge.eval,held,Bool.true_xor]

end Labels

section Construction

/-- The node of a variable over two edges, where it is needed. -/
def branch (var : Nat) (high low : Edge) : Edge :=
  if high = low then high
  else ⟨high.complement, .ite var high.node (high.complement ^^ low.complement) low.node⟩

/-- The diagram of a function of `count` variables from `least` on; the others are taken to be 0. -/
def expansion : Nat → Nat → ((Nat → Bool) → Bool) → Edge
  | 0, _, function => if function fun _ => false then Edge.one else Edge.zero
  | count + 1, least, function =>
    branch least (expansion count (least + 1) fun env => function (Function.update env least true))
      (expansion count (least + 1) fun env => function (Function.update env least false))

theorem branch_ordered (high : Edge) (low : Edge) (highOrdered : high.node.Ordered (var + 1))
    (lowOrdered : low.node.Ordered (var + 1)) :
    (branch var high low).node.Ordered var := by
  have weaken : ∀ {node : Node} {least : Nat}, node.Ordered (least + 1) → node.Ordered least := by
    intro node least ordered
    cases node with
    | one => trivial
    | ite top high complement low => exact ⟨by have := ordered.1; omega, ordered.2⟩
  rw [branch]
  by_cases same : high = low
  · rw [if_pos same]
    exact weaken highOrdered
  · rw [if_neg same]
    exact ⟨Nat.le_refl var, highOrdered, lowOrdered⟩

theorem branch_reduced (high : Edge) (low : Edge) (highReduced : high.node.Reduced) (lowReduced : low.node.Reduced) :
    (branch var high low).node.Reduced := by
  rw [branch]
  by_cases same : high = low
  · rw [if_pos same]
    exact highReduced
  · rw [if_neg same]
    refine ⟨fun twice => same ?_, highReduced, lowReduced⟩
    obtain ⟨highComplement, highNode⟩ := high
    obtain ⟨lowComplement, lowNode⟩ := low
    obtain ⟨plain, rfl⟩ := twice
    have complements : highComplement = lowComplement := by
      cases highComplement <;> cases lowComplement <;> simp_all
    rw [complements]

theorem branch_eval (var : Nat) (high low : Edge) (env : Nat → Bool) :
    (branch var high low).eval env = if env var then high.eval env else low.eval env := by
  rw [branch]
  by_cases same : high = low
  · rw [if_pos same,← same,ite_self]
  · rw [if_neg same,Edge.eval,Node.eval]
    cases env var with
    | true => rfl
    | false =>
      simp only [Bool.false_eq_true,if_false]
      rw [Edge.eval,← Bool.xor_assoc,← Bool.xor_assoc,Bool.xor_self,Bool.false_xor]

theorem expansion_ordered (count least : Nat) (function : (Nat → Bool) → Bool) :
    (expansion count least function).node.Ordered least := by
  induction count generalizing least function with
  | zero =>
    rw [expansion]
    split <;> trivial
  | succ count ih => exact branch_ordered _ _ (ih _ _) (ih _ _)

theorem expansion_reduced (count least : Nat) (function : (Nat → Bool) → Bool) :
    (expansion count least function).node.Reduced := by
  induction count generalizing least function with
  | zero =>
    rw [expansion]
    split <;> trivial
  | succ count ih => exact branch_reduced _ _ (ih _ _) (ih _ _)

theorem expansion_eval (count least : Nat) (function : (Nat → Bool) → Bool) (env : Nat → Bool) :
    (expansion count least function).eval env = function fun var => decide (least ≤ var ∧ var < least + count) &&
    env var := by
  induction count generalizing least function with
  | zero =>
    have none : (fun var => decide (least ≤ var ∧ var < least + 0) && env var) = fun _ => false := by
      funext var
      have outside : ¬ (least ≤ var ∧ var < least + 0) := by omega
      rw [decide_eq_false outside,Bool.false_and]
    rw [none,expansion]
    cases function fun _ => false <;> rfl
  | succ count ih =>
    have shape : ∀ value, env least = value →
      Function.update (fun var => decide (least + 1 ≤ var ∧ var < least + 1 + count) && env var) least
        value = fun var => decide (least ≤ var ∧ var < least + (count + 1)) && env var := by
      intro value here
      funext var
      by_cases same : var = least
      · subst same
        rw [Function.update_self,here,decide_eq_true ⟨Nat.le_refl var, by omega⟩,Bool.true_and]
      · have range : (least + 1 ≤ var ∧ var < least + 1 + count) ↔ least ≤ var ∧ var < least + (count + 1) := by omega
        rw [Function.update_of_ne same,decide_eq_decide.mpr range]
    rw [expansion,branch_eval,ih,ih]
    cases here : env least with
    | true =>
      rw [if_pos rfl,shape true here]
    | false =>
      rw [if_neg Bool.false_ne_true,shape false here]

theorem expansion_canonical (count : Nat) (function : (Nat → Bool) → Bool) : (expansion count 0 function).Canonical :=
  ⟨expansion_ordered count 0 function, expansion_reduced count 0 function⟩

end Construction
end DecisionDiagram
