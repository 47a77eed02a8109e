import GTPower.DecisionDiagram
import GTPower.WhenState

/-! Probabilistic evaluation of a function on its decision diagram: the duty of the function, and its activity as that
of the ports, each as often as the function follows the port. -/
namespace GTPower.BddEvaluation

open DecisionDiagram

structure Cudd where
  bddIthVar : Nat → Edge
  bddOr : Edge → Edge → Edge
  bddAnd : Edge → Edge → Edge
  bddXor : Edge → Edge → Edge
  bddBooleanDiff : Edge → Nat → Edge

/-- A result of an operation: a reduced ordered diagram of a function. -/
structure Of (function : (Nat → Bool) → Bool) (bdd : Edge) : Prop where
  canonical : bdd.Canonical
  eval : ∀ env, bdd.eval env = function env

/-- What the package documents of its operations. -/
structure Cudd.Correct (cudd : Cudd) : Prop where
  ithVar : ∀ index, Of (fun env => env index) (cudd.bddIthVar index)
  or : ∀ {f g : Edge}, f.Canonical → g.Canonical → Of (fun env => f.eval env || g.eval env) (cudd.bddOr f g)
  and : ∀ {f g : Edge}, f.Canonical → g.Canonical → Of (fun env => f.eval env && g.eval env) (cudd.bddAnd f g)
  xor : ∀ {f g : Edge}, f.Canonical → g.Canonical → Of (fun env => f.eval env ^^ g.eval env) (cudd.bddXor f g)
  booleanDiff : ∀ {f : Edge} (index : Nat), f.Canonical →
    Of (fun env => f.eval (Function.update env index true) ^^ f.eval (Function.update env index false))
      (cudd.bddBooleanDiff f index)

section Construction
variable {κ : Type} [DecidableEq κ] (cudd : Cudd)

/-- Node of a port. The index of a variable is the number of ports before it. -/
def ensureNode (port : κ) (ports : List κ) : Edge × List κ :=
  if port ∈ ports then (cudd.bddIthVar (ports.idxOf port), ports) else (cudd.bddIthVar ports.length, ports ++ [port])

/-- Diagram of an expression, with the ports that have a variable so far. A subexpression always has a node. -/
def funcBdd : FuncExpr κ → List κ → Edge × List κ
  | .port port, ports => ensureNode cudd port ports
  | .not left, ports =>
    let left := funcBdd left ports
    (left.1.not, left.2)
  | .or left right, ports =>
    let left := funcBdd left ports
    let right := funcBdd right left.2
    (cudd.bddOr left.1 right.1, right.2)
  | .and left right, ports =>
    let left := funcBdd left ports
    let right := funcBdd right left.2
    (cudd.bddAnd left.1 right.1, right.2)
  | .xor left right, ports =>
    let left := funcBdd left ports
    let right := funcBdd right left.2
    (cudd.bddXor left.1 right.1, right.2)
  | .one, ports => (Edge.one, ports)
  | .zero, ports => (Edge.zero, ports)

end Construction

/-- Transitions in a clock cycle and the part of the time at 1. -/
structure ActivityDuty where
  activity : ℚ
  duty : ℚ
  deriving DecidableEq

/-- The ports of an instance: which of them are internal, and which have a pin to be found. -/
structure InstPorts (κ : Type) where
  isInternal : κ → Bool
  findLinkPin : κ → Bool

/-- Activities of an instance: of the pins of its ports, and of its sequential ports. -/
structure Activities (κ : Type) where
  findActivity : κ → ActivityDuty
  findSeqActivity : κ → ActivityDuty

section Evaluation
variable {κ : Type} [DecidableEq κ] (cudd : Cudd) (inst : InstPorts κ) (activities : Activities κ) (ports : List κ)

/-- Duty of an edge, complemented or not. `none` is a variable without a port. The variables keep their order, so that
the index of a variable is its place. -/
def evalBddDuty (complement : Bool) : Node → Option ℚ
  | .one => some (if complement then 0 else 1)
  | .ite index high lowComplement low =>
    (evalBddDuty lowComplement low).bind fun duty0 =>
      (evalBddDuty false high).bind fun duty1 =>
        (ports[index]?).map fun port =>
          if inst.isInternal port then (activities.findSeqActivity port).duty
          else if inst.findLinkPin port then
            let varDuty := (activities.findActivity port).duty
            let duty := duty0 * (1 - varDuty) + duty1 * varDuty
            if complement then 1 - duty else duty
          else 0

def evalBddActivity (bdd : Edge) : Option ℚ :=
  ports.zipIdx.foldlM (fun activity portVar =>
    if inst.findLinkPin portVar.1 then
      let diff := cudd.bddBooleanDiff bdd portVar.2
      (evalBddDuty inst activities ports diff.complement diff.node).map fun diffDuty =>
        activity + (activities.findActivity portVar.1).activity * diffDuty
    else some activity) 0

/-- Activity and duty of an expression that is no internal port. -/
def evalFunc (expr : FuncExpr κ) : Option ActivityDuty :=
  let bdd := funcBdd cudd expr []
  (evalBddDuty inst activities bdd.2 bdd.1.complement bdd.1.node).bind fun duty =>
    (evalBddActivity cudd inst activities bdd.2 bdd.1).map fun activity => ⟨activity, duty⟩

def evalActivity (expr : FuncExpr κ) : Option ActivityDuty :=
  match expr with
  | .port port => if inst.isInternal port then some (activities.findSeqActivity port)
    else evalFunc cudd inst activities expr
  | _ => evalFunc cudd inst activities expr

end Evaluation

section Meaning
variable {κ : Type} [DecidableEq κ]

def exprPorts : FuncExpr κ → Finset κ
  | .port port => {port}
  | .not left => exprPorts left
  | .or left right => exprPorts left ∪ exprPorts right
  | .and left right => exprPorts left ∪ exprPorts right
  | .xor left right => exprPorts left ∪ exprPorts right
  | .one => ∅
  | .zero => ∅

/-- The values of a function on both sides of a port. -/
def booleanDiff (port : κ) (function : (κ → Bool) → Bool) (env : κ → Bool) : Bool :=
  function (Function.update env port true) ^^ function (Function.update env port false)

def DependsOn (function : (κ → Bool) → Bool) (port : κ) : Prop := ∃ env, booleanDiff port function env = true

/-- Activity of a port: of the sequential port where it is internal, else of its pin. -/
def portActivity (inst : InstPorts κ) (activities : Activities κ) (port : κ) : ActivityDuty :=
  if inst.isInternal port then activities.findSeqActivity port else activities.findActivity port

structure Activities.Valid (activities : Activities κ) : Prop where
  pins : ∀ port, 0 ≤ (activities.findActivity port).duty ∧ (activities.findActivity port).duty ≤ 1
  seqs : ∀ port, 0 ≤ (activities.findSeqActivity port).duty ∧ (activities.findSeqActivity port).duty ≤ 1

/-- Probability of a function when the ports of the expression are independent. -/
def probability (inst : InstPorts κ) (activities : Activities κ) (expr : FuncExpr κ) (function : (κ → Bool) → Bool) :
    ℚ :=
  Independent.probability (exprPorts expr) (fun port => (portActivity inst activities port).duty) function

/-- For all activities the duty is the probability of 1, and the activity that of the ports, each by the probability
that the function follows it. -/
def EvaluatesRight (cudd : Cudd) (inst : InstPorts κ) (expr : FuncExpr κ) : Prop :=
  ∀ activities : Activities κ, activities.Valid →
    let bdd := funcBdd cudd expr []
    evalBddDuty inst activities bdd.2 bdd.1.complement bdd.1.node = some (probability inst activities expr fun env =>
      FuncExpr.eval env expr) ∧
    evalBddActivity cudd inst activities bdd.2 bdd.1 =
      some (∑ port ∈ exprPorts expr, (portActivity inst activities port).activity *
      probability inst activities expr (booleanDiff port fun env => FuncExpr.eval env expr))

end Meaning

/-- A diagram over the variables of distinct ports that is the function of their values. -/
structure Represents {κ : Type} [DecidableEq κ] (ports : List κ) (bdd : Edge) (function : (κ → Bool) → Bool) :
    Prop where
  nodup : ports.Nodup
  canonical : bdd.Canonical
  eval : ∀ env, bdd.eval env = function fun port => env (ports.idxOf port)
  locally : ∀ env env', (∀ port ∈ ports, env port = env' port) → function env = function env'

section Represented
variable {κ : Type} [DecidableEq κ] {cudd : Cudd} {inst : InstPorts κ} {activities : Activities κ} {ports : List κ}
    {bdd : Edge}
  {function : (κ → Bool) → Bool}

theorem booleanDiff_eq_false_iff (function : (κ → Bool) → Bool) (port : κ) (env : κ → Bool) :
    booleanDiff port function env = false ↔
    function (Function.update env port true) = function (Function.update env port false) := by
  simp [booleanDiff]

namespace Represents

theorem eval_update (represents : Represents ports bdd function) (mem : port ∈ ports) (env : Nat → Bool)
    (value : Bool) :
    bdd.eval (Function.update env (ports.idxOf port) value) =
      function (Function.update (fun other => env (ports.idxOf other)) port value) := by
  rw [represents.eval]
  refine represents.locally _ _ fun other inside => ?_
  by_cases same : other = port
  · subst same
    rw [Function.update_self,Function.update_self]
  · have differ : ports.idxOf other ≠ ports.idxOf port := fun places => same ((List.idxOf_inj inside).mp places)
    rw [Function.update_of_ne same,Function.update_of_ne differ]

theorem depends (represents : Represents ports bdd function) (mem : var ∈ bdd.node.vars) :
    ∃ port, ports[var]? = some port ∧ DependsOn function port := by
  obtain ⟨env, differ⟩ := represents.canonical.matters mem
  have inside : var < ports.length := by
    by_contra outside
    refine differ ?_
    rw [represents.eval,represents.eval]
    refine represents.locally _ _ fun port inside => ?_
    have place := List.idxOf_lt_length_of_mem inside
    have other : ports.idxOf port ≠ var := by omega
    rw [Function.update_of_ne other,Function.update_of_ne other]
  have place : ports.idxOf ports[var] = var := represents.nodup.idxOf_getElem var inside
  refine ⟨ports[var], List.getElem?_eq_getElem inside, fun other => env (ports.idxOf other), ?_⟩
  by_contra unchanged
  refine differ ?_
  have both := (booleanDiff_eq_false_iff _ _ _).mp (Bool.eq_false_iff.mpr unchanged)
  rw [← represents.eval_update (List.getElem_mem inside),← represents.eval_update (List.getElem_mem inside),
    place] at both
  exact both

theorem labelled (represents : Represents ports bdd function) : Labelled (ports[·]?) ports.toFinset bdd.node.vars where
  named := fun var mem => by
    obtain ⟨port, here, -⟩ := represents.depends mem
    exact ⟨port, List.mem_toFinset.mpr (List.mem_of_getElem? here), here⟩
  unique := fun var mem var' mem' same => by
    obtain ⟨port, here, -⟩ := represents.depends mem
    obtain ⟨inside, -⟩ := List.getElem?_eq_some_iff.mp here
    exact (List.getElem?_inj inside represents.nodup).mp same

theorem eval_readings (represents : Represents ports bdd function) (env : κ → Bool) :
    bdd.eval (readings (ports[·]?) env) = function env := by
  rw [represents.eval]
  refine represents.locally _ _ fun port mem => ?_
  rw [readings,List.getElem?_idxOf mem]
  rfl

theorem diff (correct : cudd.Correct) (represents : Represents ports bdd function) (mem : port ∈ ports) :
    Represents ports (cudd.bddBooleanDiff bdd (ports.idxOf port)) (booleanDiff port function) := by
  have made := correct.booleanDiff (ports.idxOf port) represents.canonical
  refine ⟨represents.nodup, made.canonical, fun env => ?_, fun env env' agree => ?_⟩
  · rw [made.eval,represents.eval_update mem,represents.eval_update mem]
    rfl
  · have both : ∀ value, function (Function.update env port value) = function (Function.update env' port value) := by
      intro value
      refine represents.locally _ _ fun other inside => ?_
      by_cases same : other = port
      · subst same
        rw [Function.update_self,Function.update_self]
      · rw [Function.update_of_ne same,Function.update_of_ne same]
        exact agree other inside
    rw [booleanDiff,both,both]
    rfl

end Represents

def Evaluated (inst : InstPorts κ) (port : κ) : Prop := inst.isInternal port = false ∧ inst.findLinkPin port = true

omit [DecidableEq κ] in
/-- Over the variables of such ports the duty of an edge is its value for their duties. -/
theorem evalBddDuty_weight (evaluated : ∀ var ∈ node.vars, ∃ port, ports[var]? = some port ∧ Evaluated inst port)
    (complement : Bool) :
    evalBddDuty inst activities ports complement node =
      some ((⟨complement, node⟩ : Edge).weight (duties (ports[·]?) fun port =>
        (portActivity inst activities port).duty)) := by
  induction node generalizing complement with
  | one => cases complement <;> simp [evalBddDuty,Edge.weight,Node.weight]
  | ite index high lowComplement low highIh lowIh =>
    obtain ⟨port, here, outer, pin⟩ := evaluated index List.mem_cons_self
    have highs := highIh (fun var mem => evaluated var (List.mem_cons_of_mem _ (List.mem_append_left _ mem))) false
    have lows := lowIh (fun var mem => evaluated var (List.mem_cons_of_mem _ (List.mem_append_right _ mem)))
      lowComplement
    have share : duties (ports[·]?) (fun port => (portActivity inst activities port).duty) index =
      (activities.findActivity port).duty := by
      rw [duties,here,Option.map_some,Option.getD_some,portActivity,outer,if_neg Bool.false_ne_true]
    rw [evalBddDuty,lows,highs,here]
    simp only [Option.bind_some,Option.map_some,outer,pin,Bool.false_eq_true,if_false,if_true,Edge.weight,
      Node.weight,share]
    congr 1
    have order : ∀ a b c : ℚ, a * (1 - c) + b * c = (1 - c) * a + c * b := fun a b c => by ring
    rw [order]

theorem Represents.evalBddDuty_eq (activities : Activities κ) (represents : Represents ports bdd function)
    (evaluated : ∀ port, DependsOn function port → Evaluated inst port) :
    evalBddDuty inst activities ports bdd.complement bdd.node =
      some (Independent.probability ports.toFinset (fun port => (portActivity inst activities port).duty)
        function) := by
  have inside : ∀ var ∈ bdd.node.vars, ∃ port, ports[var]? = some port ∧ Evaluated inst port := by
    intro var mem
    obtain ⟨port, here, dependsOn⟩ := represents.depends mem
    exact ⟨port, here, evaluated port dependsOn⟩
  rw [evalBddDuty_weight inside,represents.canonical.weight_eq represents.labelled]
  simp only [represents.eval_readings]

/-- What the construction of an expression leaves, whatever ports are added later. -/
structure Built (expr : FuncExpr κ) (ports : List κ) (built : Edge × List κ) : Prop where
  grows : ports <+: built.2
  nodup : built.2.Nodup
  mem : ∀ port, port ∈ built.2 ↔ port ∈ ports ∨ port ∈ exprPorts expr
  canonical : built.1.Canonical
  eval : ∀ later, built.2 <+: later → ∀ env, built.1.eval env = FuncExpr.eval (fun port => env (later.idxOf port)) expr

theorem idxOf_later {later : List κ} (grows : ports <+: later) (mem : port ∈ ports) :
    later.idxOf port = ports.idxOf port := by
  obtain ⟨added, rfl⟩ := grows
  exact List.idxOf_append_of_mem mem

theorem built_ensureNode (correct : cudd.Correct) (nodup : ports.Nodup) (port : κ) :
    Built (.port port) ports (ensureNode cudd port ports) := by
  rw [ensureNode]
  by_cases known : port ∈ ports
  · have made := correct.ithVar (ports.idxOf port)
    rw [if_pos known]
    refine ⟨List.prefix_rfl, nodup, fun other => ?_, made.canonical, fun later grows env => ?_⟩
    · rw [exprPorts,Finset.mem_singleton]
      exact ⟨.inl, fun either => either.elim id fun same => same ▸ known⟩
    · rw [made.eval,FuncExpr.eval,idxOf_later grows known]
  · have made := correct.ithVar ports.length
    have place : (ports ++ [port]).idxOf port = ports.length := by
      rw [List.idxOf_append_of_notMem known]
      simp
    rw [if_neg known]
    refine ⟨List.prefix_append _ _, ?_, fun other => ?_, made.canonical, fun later grows env => ?_⟩
    · exact List.nodup_append'.mpr ⟨nodup, List.nodup_singleton port, by simpa using known⟩
    · rw [List.mem_append,List.mem_singleton,exprPorts,Finset.mem_singleton]
    · rw [made.eval,FuncExpr.eval,idxOf_later grows (List.mem_append_right _ (List.mem_singleton_self port)),place]

theorem Built.both {left right expr : FuncExpr κ} {first second : Edge × List κ} {op : Bool → Bool → Bool}
    (built : Built left ports first) (built' : Built right first.2 second)
    (made : Of (fun env => op (first.1.eval env) (second.1.eval env)) result)
    (all : exprPorts expr = exprPorts left ∪ exprPorts right)
    (meaning : ∀ env : κ → Bool, FuncExpr.eval env expr = op (FuncExpr.eval env left) (FuncExpr.eval env right)) :
    Built expr ports (result, second.2) := by
  refine ⟨built.grows.trans built'.grows, built'.nodup, fun port => ?_, made.canonical, fun later grows env => ?_⟩
  · rw [built'.mem,built.mem,all,Finset.mem_union,or_assoc]
  · rw [made.eval,built.eval later (built'.grows.trans grows),built'.eval later grows,meaning]

theorem built_funcBdd (correct : cudd.Correct) (expr : FuncExpr κ) (nodup : ports.Nodup) :
    Built expr ports (funcBdd cudd expr ports) := by
  have constant : ∀ {ports : List κ}, ports.Nodup → ∀ (expr : FuncExpr κ) (bdd : Edge), exprPorts expr = ∅ →
    bdd.Canonical →
      (∀ (env : Nat → Bool) (env' : κ → Bool), bdd.eval env = FuncExpr.eval env' expr) →
        Built expr ports (bdd, ports) := by
    intro ports nodup expr bdd none canonical meaning
    exact ⟨List.prefix_rfl, nodup, fun port => by simp [none], canonical, fun later grows env => meaning env _⟩
  induction expr generalizing ports with
  | port port => exact built_ensureNode correct nodup port
  | not left ih =>
    have built := ih nodup
    refine ⟨built.grows, built.nodup, built.mem, built.canonical.not, fun later grows env => ?_⟩
    rw [funcBdd,Edge.eval_not,built.eval later grows,FuncExpr.eval]
  | or left right leftIh rightIh =>
    have built := leftIh nodup
    have built' := rightIh built.nodup
    exact built.both built' (correct.or built.canonical built'.canonical) rfl fun _ => rfl
  | and left right leftIh rightIh =>
    have built := leftIh nodup
    have built' := rightIh built.nodup
    exact built.both built' (correct.and built.canonical built'.canonical) rfl fun _ => rfl
  | xor left right leftIh rightIh =>
    have built := leftIh nodup
    have built' := rightIh built.nodup
    exact built.both built' (correct.xor built.canonical built'.canonical) rfl fun _ => rfl
  | one => exact constant nodup _ _ rfl ⟨trivial, trivial⟩ fun _ _ => rfl
  | zero => exact constant nodup _ _ rfl ⟨trivial, trivial⟩ fun _ _ => rfl

theorem mem_ports {expr : FuncExpr κ} {port : κ} : port ∈ expr.ports ↔ port ∈ exprPorts expr := by
  induction expr <;> simp_all [FuncExpr.ports,exprPorts]

theorem evalExpr_congr (expr : FuncExpr κ) (agree : ∀ port ∈ exprPorts expr, env port = env' port) :
    FuncExpr.eval env expr = FuncExpr.eval env' expr :=
  FuncExpr.eval_congr expr fun port mem => agree port (mem_ports.mp mem)

theorem funcBdd_toFinset (correct : cudd.Correct) (expr : FuncExpr κ) :
    (funcBdd cudd expr []).2.toFinset = exprPorts expr := by
  ext port
  rw [List.mem_toFinset,(built_funcBdd correct expr List.nodup_nil).mem]
  simp

theorem represents_funcBdd (correct : cudd.Correct) (expr : FuncExpr κ) :
    Represents (funcBdd cudd expr []).2 (funcBdd cudd expr []).1 fun env => FuncExpr.eval env expr := by
  have built := built_funcBdd correct expr List.nodup_nil
  refine ⟨built.nodup, built.canonical, built.eval _ List.prefix_rfl, fun env env' agree =>
    evalExpr_congr expr fun port mem => ?_⟩
  exact agree port ((built.mem port).mpr (.inr mem))

theorem dependsOn_of_diff (dependsOn : DependsOn (booleanDiff port function) other) : DependsOn function other := by
  by_contra unchanged
  have same : ∀ env, function (Function.update env other true) = function (Function.update env other false) := by
    intro env
    refine (booleanDiff_eq_false_iff _ _ _).mp (Bool.eq_false_iff.mpr fun differ => unchanged ⟨env, differ⟩)
  obtain ⟨env, differ⟩ := dependsOn
  refine Bool.eq_false_iff.mp ((booleanDiff_eq_false_iff _ _ _).mpr ?_) differ
  by_cases here : other = port
  · subst here
    simp only [booleanDiff,Function.update_idem]
  · have swapped : ∀ value value', Function.update (Function.update env other value) port value' =
        Function.update (Function.update env port value') other value :=
          fun value value' => Function.update_comm here _ _ _
    simp only [booleanDiff,swapped,same]

theorem probability_diff_of_independent (independent : ¬ DependsOn function port) (bits : Finset κ) (duty : κ → ℚ) :
    Independent.probability bits duty (booleanDiff port function) = 0 := by
  have never : booleanDiff port function = fun _ => false := by
    funext env
    exact Bool.eq_false_iff.mpr fun differ => independent ⟨env, differ⟩
  rw [never,Independent.probability_false]

theorem foldlM_sum {β : Type} (l : List β) (step : ℚ → β → Option ℚ) (term : β → ℚ)
    (each : ∀ item ∈ l, ∀ sum, step sum item = some (sum + term item)) (sum : ℚ) :
    l.foldlM step sum = some (sum + (l.map term).sum) := by
  induction l generalizing sum with
  | nil => simp
  | cons item rest ih =>
    rw [List.foldlM_cons,each item List.mem_cons_self]
    refine (ih (fun other mem => each other (List.mem_cons_of_mem _ mem)) _).trans ?_
    rw [List.map_cons,List.sum_cons,add_assoc]

theorem zipIdx_idxOf (nodup : ports.Nodup) (mem : portVar ∈ ports.zipIdx) : portVar.1 ∈ ports ∧
    portVar.2 = ports.idxOf portVar.1 := by
  obtain ⟨inside, here⟩ := List.getElem?_eq_some_iff.mp (List.mem_zipIdx_iff_getElem?.mp mem)
  rw [← here]
  exact ⟨List.getElem_mem inside, (nodup.idxOf_getElem portVar.2 inside).symm⟩

/-- The activity is that of the ports, each by the probability that the function follows it. -/
theorem Represents.evalBddActivity_eq (correct : cudd.Correct) (represents : Represents ports bdd function)
    (evaluated : ∀ port, DependsOn function port → Evaluated inst port) :
    evalBddActivity cudd inst activities ports bdd =
    some (∑ port ∈ ports.toFinset, (portActivity inst activities port).activity *
      Independent.probability ports.toFinset (fun port => (portActivity inst activities port).duty)
        (booleanDiff port function)) := by
  have each : ∀ portVar ∈ ports.zipIdx, ∀ sum : ℚ, (if inst.findLinkPin portVar.1 then
      (evalBddDuty inst activities ports (cudd.bddBooleanDiff bdd portVar.2).complement
        (cudd.bddBooleanDiff bdd portVar.2).node).map
        fun diffDuty => sum + (activities.findActivity portVar.1).activity * diffDuty
      else some sum) = some (sum + (portActivity inst activities portVar.1).activity *
        Independent.probability ports.toFinset (fun port => (portActivity inst activities port).duty)
          (booleanDiff portVar.1 function)) := by
    intro portVar mem sum
    obtain ⟨inside, place⟩ := zipIdx_idxOf represents.nodup mem
    have diff := (represents.diff correct inside).evalBddDuty_eq activities fun port dependsOn =>
      evaluated port (dependsOn_of_diff dependsOn)
    rw [place,diff,Option.map_some]
    by_cases dependsOn : DependsOn function portVar.1
    · obtain ⟨outer, pin⟩ := evaluated portVar.1 dependsOn
      rw [if_pos pin,portActivity,outer,if_neg Bool.false_ne_true]
    · rw [probability_diff_of_independent dependsOn,mul_zero,mul_zero,add_zero,ite_self]
  have whole := foldlM_sum ports.zipIdx _ (fun portVar => (portActivity inst activities portVar.1).activity *
    Independent.probability ports.toFinset (fun port => (portActivity inst activities port).duty)
      (booleanDiff portVar.1 function)) each 0
  have terms : ∀ term : κ → ℚ, (ports.zipIdx.map fun portVar => term portVar.1).sum = ∑ port ∈ ports.toFinset,
    term port := by
    intro term
    have names : ports.zipIdx.map (fun portVar => term portVar.1) = (ports.zipIdx.map Prod.fst).map term :=
      List.map_map.symm
    rw [List.sum_toFinset term represents.nodup,names,List.zipIdx_map_fst]
  rw [terms fun port => (portActivity inst activities port).activity *
    Independent.probability ports.toFinset (fun port => (portActivity inst activities port).duty)
      (booleanDiff port function),zero_add] at whole
  exact whole

omit [DecidableEq κ] in
theorem evalBddActivity_still
    (still : ∀ port, inst.findLinkPin port = true → (activities.findActivity port).activity = 0)
    (ran : evalBddActivity cudd inst activities ports bdd = some activity) : activity = 0 := by
  have onward : ∀ (l : List (κ × Nat)) (sum result : ℚ), l.foldlM (fun activity portVar =>
      if inst.findLinkPin portVar.1 then
        (evalBddDuty inst activities ports (cudd.bddBooleanDiff bdd portVar.2).complement
          (cudd.bddBooleanDiff bdd portVar.2).node).map
          fun diffDuty => activity + (activities.findActivity portVar.1).activity * diffDuty
      else some activity) sum = some result → result = sum := by
    intro l
    induction l with
    | nil =>
      intro sum result ran
      exact (Option.some.inj ran).symm
    | cons portVar rest ih =>
      intro sum result ran
      rw [List.foldlM_cons] at ran
      obtain ⟨next, step, ran⟩ := Option.bind_eq_some_iff.mp ran
      rw [ih next result ran]
      by_cases pin : inst.findLinkPin portVar.1 = true
      · rw [if_pos pin] at step
        obtain ⟨diffDuty, -, rfl⟩ := Option.map_eq_some_iff.mp step
        rw [still portVar.1 pin,zero_mul,add_zero]
      · rw [if_neg pin] at step
        exact (Option.some.inj step).symm
  exact onward ports.zipIdx 0 activity ran

end Represented

section Wrong
variable {κ : Type} [DecidableEq κ] {inst : InstPorts κ} {expr : FuncExpr κ} {port : κ} {env : κ → Bool}

/-- The duties follow one environment, and one port alone switches: with its sequential activity where it is
internal. -/
def switchingAlone (inst : InstPorts κ) (port : κ) (env : κ → Bool) : Activities κ where
  findActivity := fun other =>
    ⟨if other = port ∧ inst.isInternal port = false then 1 else 0, if env other then 1 else 0⟩
  findSeqActivity := fun other => ⟨if other = port then 1 else 0, if env other then 1 else 0⟩

theorem switchingAlone_valid (inst : InstPorts κ) (port : κ) (env : κ → Bool) :
    (switchingAlone inst port env).Valid := by
  have bounds : ∀ other, (0 : ℚ) ≤ (if env other then 1 else 0) ∧ (if env other then (1 : ℚ) else 0) ≤ 1 := by
    intro other
    cases env other <;> simp
  exact ⟨bounds, bounds⟩

theorem portActivity_switchingAlone (inst : InstPorts κ) (port other : κ) (env : κ → Bool) :
    portActivity inst (switchingAlone inst port env) other =
    ⟨if other = port then 1 else 0, if env other then 1 else 0⟩ := by
  rw [portActivity]
  by_cases same : other = port
  · subst same
    cases internal : inst.isInternal other <;> simp [switchingAlone,internal]
  · cases inst.isInternal other <;> simp [switchingAlone,same]

theorem mem_exprPorts (differ : booleanDiff port (fun env => FuncExpr.eval env expr) env = true) :
    port ∈ exprPorts expr := by
  by_contra outside
  refine Bool.eq_false_iff.mp ((booleanDiff_eq_false_iff _ _ _).mpr (evalExpr_congr expr fun other inside => ?_)) differ
  have other : other ≠ port := fun same => outside (same ▸ inside)
  rw [Function.update_of_ne other,Function.update_of_ne other]

/-- With the duties of an environment in which the function follows a port, it does so for certain. -/
theorem probability_follows (differ : booleanDiff port (fun env => FuncExpr.eval env expr) env = true) :
    Independent.probability (exprPorts expr) (fun other => if env other then (1 : ℚ) else 0)
      (booleanDiff port fun env => FuncExpr.eval env expr) = 1 := by
  have agree : booleanDiff port (fun env => FuncExpr.eval env expr) (fun other => decide (other ∈ exprPorts expr) &&
    env other) = true := by
    rw [← differ,booleanDiff,booleanDiff]
    have both : ∀ set, FuncExpr.eval (Function.update (fun other => decide (other ∈ exprPorts expr) && env other)
      port set) expr =
        FuncExpr.eval (Function.update env port set) expr := by
      intro set
      refine evalExpr_congr expr fun other inside => ?_
      by_cases same : other = port
      · subst same
        rw [Function.update_self,Function.update_self]
      · rw [Function.update_of_ne same,Function.update_of_ne same,decide_eq_true inside,Bool.true_and]
    rw [both,both]
  rw [Independent.probability_certain,if_pos agree]

/-- The sum over the ports is then the activity of that port. -/
theorem activity_follows (differ : booleanDiff port (fun env => FuncExpr.eval env expr) env = true) :
    ∑ other ∈ exprPorts expr, (portActivity inst (switchingAlone inst port env) other).activity *
      probability inst (switchingAlone inst port env) expr (booleanDiff other fun env => FuncExpr.eval env expr) =
        1 := by
  simp only [probability,portActivity_switchingAlone]
  rw [Finset.sum_eq_single_of_mem port (mem_exprPorts differ) fun other _ apart => by
    rw [if_neg apart,zero_mul],if_pos rfl,one_mul]
  exact probability_follows differ

end Wrong

/-- The evaluation is right exactly for functions that depend on no internal port and on no port without a pin. -/
theorem evaluatesRight_iff {κ : Type} [DecidableEq κ] {cudd : Cudd} (correct : cudd.Correct) (inst : InstPorts κ)
    (expr : FuncExpr κ) :
    EvaluatesRight cudd inst expr ↔
      ∀ port, DependsOn (fun env => FuncExpr.eval env expr) port → inst.isInternal port = false ∧
        inst.findLinkPin port = true := by
  have represents := represents_funcBdd correct expr
  have all := funcBdd_toFinset correct expr
  constructor
  · intro right port ⟨env, differ⟩
    by_contra bad
    have evaluated := (right (switchingAlone inst port env) (switchingAlone_valid inst port env)).2
    have still : ∀ other, inst.findLinkPin other = true →
      ((switchingAlone inst port env).findActivity other).activity = 0 := by
      intro other pin
      refine if_neg fun both => bad ⟨both.2, ?_⟩
      rw [← both.1]
      exact pin
    exact one_ne_zero ((activity_follows differ).symm.trans (evalBddActivity_still still evaluated))
  · intro evaluated activities _
    refine ⟨?_, ?_⟩
    · rw [represents.evalBddDuty_eq activities evaluated,all]
      rfl
    · rw [represents.evalBddActivity_eq correct evaluated,all]
      rfl

section Examples

def bound (bdd : Edge) : Nat := bdd.node.vars.foldr (fun var most => max (var + 1) most) 0

theorem lt_bound (mem : var ∈ bdd.node.vars) : var < bound bdd := by
  rw [bound]
  generalize bdd.node.vars = vars at mem
  induction vars with
  | nil => cases mem
  | cons head rest ih =>
    rw [List.foldr_cons]
    rcases List.mem_cons.mp mem with rfl | inside
    · omega
    · have := ih inside
      omega

/-- The operations by expansion of the functions. -/
def expanding : Cudd where
  bddIthVar index := expansion (index + 1) 0 fun env => env index
  bddOr f g := expansion (max (bound f) (bound g)) 0 fun env => f.eval env || g.eval env
  bddAnd f g := expansion (max (bound f) (bound g)) 0 fun env => f.eval env && g.eval env
  bddXor f g := expansion (max (bound f) (bound g)) 0 fun env => f.eval env ^^ g.eval env
  bddBooleanDiff f index := expansion (bound f) 0 fun env =>
    f.eval (Function.update env index true) ^^ f.eval (Function.update env index false)

theorem of_expansion (count : Nat) (function : (Nat → Bool) → Bool)
    (below : ∀ env env', (∀ var < count, env var = env' var) → function env = function env') :
    Of function (expansion count 0 function) := by
  refine ⟨expansion_canonical count function, fun env => ?_⟩
  rw [expansion_eval]
  refine below _ _ fun var inside => ?_
  rw [decide_eq_true ⟨Nat.zero_le var, by omega⟩,Bool.true_and]

theorem eval_below (long : bound bdd ≤ count) (agree : ∀ var < count, env var = env' var) :
    bdd.eval env = bdd.eval env' :=
  Edge.eval_congr fun var mem => agree var (Nat.lt_of_lt_of_le (lt_bound mem) long)

theorem correct_expanding : expanding.Correct where
  ithVar index := of_expansion _ _ fun env env' agree => agree index (Nat.lt_succ_self index)
  or _ _ := of_expansion _ _ fun env env' agree => by
    rw [eval_below (Nat.le_max_left ..) agree,eval_below (Nat.le_max_right ..) agree]
  and _ _ := of_expansion _ _ fun env env' agree => by
    rw [eval_below (Nat.le_max_left ..) agree,eval_below (Nat.le_max_right ..) agree]
  xor _ _ := of_expansion _ _ fun env env' agree => by
    rw [eval_below (Nat.le_max_left ..) agree,eval_below (Nat.le_max_right ..) agree]
  booleanDiff := fun {f} index _ => of_expansion _ _ fun env env' agree => by
    have updated : ∀ value, ∀ var < bound f, Function.update env index value var =
      Function.update env' index value var := by
      intro value var inside
      by_cases same : var = index
      · subst same
        rw [Function.update_self,Function.update_self]
      · rw [Function.update_of_ne same,Function.update_of_ne same]
        exact agree var inside
    rw [eval_below (Nat.le_refl _) (updated true),eval_below (Nat.le_refl _) (updated false)]

inductive FlopPort where
  | a
  | b
  | iq
  deriving DecidableEq

def flopPorts : InstPorts FlopPort := ⟨fun port => port = .iq, fun port => port ≠ .iq⟩

/-- `A * !B` is evaluated right. -/
theorem evaluatesRight_inputs : EvaluatesRight expanding flopPorts (.and (.port .a) (.not (.port .b))) := by
  refine (evaluatesRight_iff correct_expanding flopPorts _).mpr fun port ⟨env, differ⟩ => ?_
  cases port with
  | a => exact ⟨rfl, rfl⟩
  | b => exact ⟨rfl, rfl⟩
  | iq => simp [booleanDiff,FuncExpr.eval] at differ

def quarters : Activities FlopPort := ⟨fun _ => ⟨1 / 2, 1 / 4⟩, fun _ => ⟨1 / 2, 1 / 4⟩⟩

/-- `!IQ` is given the duty of `IQ`, and no activity. -/
theorem internal_negated : evalActivity expanding flopPorts quarters (.not (.port .iq)) = some ⟨0, 1 / 4⟩ ∧
    probability flopPorts quarters (.not (.port .iq)) (fun env => FuncExpr.eval env (.not (.port .iq))) = 3 / 4 ∧
    ¬ EvaluatesRight expanding flopPorts (.not (.port .iq)) := by
  have right : probability flopPorts quarters (.not (.port .iq)) (fun env => FuncExpr.eval env (.not (.port .iq))) =
    3 / 4 := by decide +kernel
  refine ⟨by decide +kernel, right, fun all => ?_⟩
  have valid : quarters.Valid := ⟨fun _ => by norm_num [quarters], fun _ => by norm_num [quarters]⟩
  have duty := (all quarters valid).1
  have evaluated : evalBddDuty flopPorts quarters (funcBdd expanding (.not (.port FlopPort.iq)) []).2
      (funcBdd expanding (.not (.port FlopPort.iq)) []).1.complement
        (funcBdd expanding (.not (.port FlopPort.iq)) []).1.node =
      some (1 / 4) := by decide +kernel
  rw [evaluated,right] at duty
  norm_num at duty

end Examples
end GTPower.BddEvaluation
