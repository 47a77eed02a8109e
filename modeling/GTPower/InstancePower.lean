import GTPower.ActivityBounds
import GTPower.Event
import GTPower.Expectations
import GTPower.Unateness

/-! Power of an instance from the activities of its pins: switching, internal and leakage. Leakage is a mean over the
states of the inputs, and each power pin shares out the energies at an output by the activities that lead there. -/

namespace GTPower.PowerActivity

/-- A leakage group; one without a condition always leaks. -/
structure LeakagePower (K : Type) where
  cond : Option (FuncExpr K)
  power : ℚ

/-- A group of internal energies of a port, by the edge, the slew and the load. -/
structure InternalPower (K P : Type) where
  relatedPort : Option K
  relatedPgPin : Option P
  cond : Option (FuncExpr K)
  power : RiseFall → ℚ → ℚ → ℚ

/-- What is read of the cells of instances, their pins and the corner. `sense` is that of the first arcs between two
ports, and an infinite slew is `none`. -/
structure Cells (V I K P : Type) where
  isAnyOutput : I → K → Bool
  isAnyInput : I → K → Bool
  internalPowers : I → K → List (InternalPower K P)
  leakagePowers : I → List (LeakagePower K)
  leakagePower : I → Option ℚ
  sense : I → K → K → Option Unateness.TimingSense
  loadCap : V → ℚ
  getSlew : V → RiseFall → Option ℚ
  portVoltage : I → K → ℚ
  findClk : V → Option ℚ

def opposite : RiseFall → RiseFall
  | .rise => .fall
  | .fall => .rise

structure InstPower where
  internal : ℚ
  switching : ℚ
  leakage : ℚ
  deriving DecidableEq

def findExprOutPort {K : Type} (isAnyOutput : K → Bool) : FuncExpr K → Option K
  | .port port => if isAnyOutput port then some port else none
  | .not left => findExprOutPort isAnyOutput left
  | .or left right => (findExprOutPort isAnyOutput left).or (findExprOutPort isAnyOutput right)
  | .and left right => (findExprOutPort isAnyOutput left).or (findExprOutPort isAnyOutput right)
  | .xor left right => (findExprOutPort isAnyOutput left).or (findExprOutPort isAnyOutput right)
  | .one => none
  | .zero => none

/-- Mean of the energies of the edges whose slew is finite. -/
def averageEnergy {K P : Type} (pwr : InternalPower K P) (slew : RiseFall → Option ℚ) (loadCap : ℚ) : ℚ :=
  let energies := [RiseFall.rise, RiseFall.fall].filterMap fun rf => (slew rf).map fun slew => pwr.power rf slew loadCap
  if energies.isEmpty then 0 else energies.sum / energies.length

namespace Design
variable {V E I K W P : Type} [DecidableEq K] [DecidableEq P] (design : Design V E I K)
  (cells : Cells V I K P) (cudd : BddEvaluation.Cudd) (settings : Settings V W) (m : Maps V I K W) (i : I)

section Leakage

/-- The duties of conditions that leak less than the cell are taken from the duty of the cell. -/
def findLeakagePower : ℚ :=
  let conds := (cells.leakagePowers i).filterMap fun leak =>
    leak.cond.map fun cond => (leak.power, (design.evalActivity cudd settings m i cond).duty)
  let unconds := (cells.leakagePowers i).filter fun leak => leak.cond.isNone
  let condLeakage := (conds.map fun cond => cond.1 * cond.2).sum
  let condDutySum := ((conds.filter fun cond => 0 < cond.1).map fun cond => cond.2).sum
  let leakage := if !conds.isEmpty then condLeakage else if !unconds.isEmpty then (unconds.map fun leak =>
    leak.power).sum else 0
  match cells.leakagePower i with
  | some cellLeakage => leakage + cellLeakage * (1 - condDutySum)
  | none => leakage

end Leakage

section Internal

/-- Duty of the states in which a function follows a port. -/
def evalDiffDuty (func : FuncExpr K) (port : K) : ℚ :=
  let bdd := BddEvaluation.funcBdd cudd func []
  let diff := cudd.bddBooleanDiff bdd.1 (bdd.2.idxOf port)
  (BddEvaluation.evalBddDuty (design.instPorts i) (design.activities settings m i) bdd.2 diff.complement
    diff.node).getD 0

def findInputDuty (func : Option (FuncExpr K)) (pwr : InternalPower K P) : ℚ :=
  match pwr.relatedPort.bind fun port => (design.findPin i port).map fun v => (port, v) with
  | some (port, v) =>
    match func.filter fun func => port ∈ BddEvaluation.exprPorts func, pwr.cond with
    | some func, _ => design.evalDiffDuty cudd settings m i func port
    | none, some cond => (design.evalActivity cudd settings m i cond).duty
    | none, none => if design.isClock v then 1 else 1 / 2
  | none => 0

def isPositiveUnate (source target : K) : Bool :=
  match cells.sense i source target with
  | some sense => sense = .positiveUnate || sense = .nonUnate
  | none => true

/-- The slew of the related pin that makes an edge at an output; without a pin it is 0. -/
def relatedSlew (toPort : K) (pwr : InternalPower K P) (toRf : RiseFall) : Option ℚ :=
  match pwr.relatedPort with
  | some port =>
    match design.findPin i port with
    | some v => cells.getSlew v (if isPositiveUnate cells i port toPort then toRf else opposite toRf)
    | none => some 0
  | none => some 0

/-- How much a group counts by the activity of its related pin. -/
def pwrDuty (func : Option (FuncExpr K)) (pwr : InternalPower K P) : ℚ :=
  match pwr.relatedPort.bind (design.findPin i) with
  | some v => (design.findActivity settings m v).activity * design.findInputDuty cudd settings m i func pwr
  | none => 0

def pgDutySum (func : Option (FuncExpr K)) (pwrs : List (InternalPower K P)) (pg : Option P) : ℚ :=
  ((pwrs.filter fun pwr => pwr.relatedPort.isSome && pwr.relatedPgPin = pg).map
    (design.pwrDuty cudd settings m i func)).sum

/-- The share of a group among those with its power pin. -/
def pwrWeight (func : Option (FuncExpr K)) (pwrs : List (InternalPower K P)) (pwr : InternalPower K P) : ℚ :=
  let dutySum := design.pgDutySum cudd settings m i func pwrs pwr.relatedPgPin
  if dutySum ≠ 0 ∧ (pwr.relatedPort.bind (design.findPin i)).isSome then design.pwrDuty cudd settings m i func pwr /
    dutySum else 0

def findOutputInternalPower (toPort : K) (toActivity loadCap : ℚ) : ℚ :=
  let pwrs := cells.internalPowers i toPort
  (pwrs.map fun pwr => design.pwrWeight cudd settings m i (design.function i toPort) pwrs pwr *
    averageEnergy pwr (design.relatedSlew cells i toPort pwr) loadCap * toActivity).sum

/-- Duty of a condition at an input; one that names an output is met where the output follows the input. -/
def inputPwrDuty (port : K) (pwr : InternalPower K P) : ℚ :=
  match pwr.cond with
  | some cond =>
    match ((findExprOutPort (cells.isAnyOutput i) cond).bind (design.function i)).filter fun func =>
      port ∈ BddEvaluation.exprPorts func with
    | some func => design.evalDiffDuty cudd settings m i func port
    | none => (design.evalActivity cudd settings m i cond).duty
  | none => 1

def findInputInternalPower (v : V) (port : K) (activity loadCap : ℚ) : ℚ :=
  ((cells.internalPowers i port).map fun pwr =>
    averageEnergy pwr (cells.getSlew v) loadCap * design.inputPwrDuty cells cudd settings m i port pwr * activity).sum

end Internal

section Instance

def findInstClk : Option ℚ := (design.pins i).findSome? cells.findClk

/-- Transitions in a second where the clock has a period. -/
def findClkedActivity (v : V) : ℚ :=
  let activity := (design.findActivity settings m v).activity
  match (cells.findClk v).or (design.findInstClk cells i) with
  | some period => if 0 < period then activity / period else activity
  | none => activity

def pinLoadCap (v : V) (port : K) : ℚ := if cells.isAnyOutput i port then cells.loadCap v else 0

def findPinInternalPower (v : V) (port : K) : ℚ :=
  let activity := design.findClkedActivity cells settings m i v
  (if cells.isAnyOutput i port then design.findOutputInternalPower cells cudd settings m i port activity
    (pinLoadCap cells i v port) else 0) +
    if cells.isAnyInput i port then design.findInputInternalPower cells cudd settings m i v port activity
      (pinLoadCap cells i v port) else 0

def findInternalPower : ℚ :=
  ((design.pins i).map fun v =>
    (design.libertyPort v).elim 0 (design.findPinInternalPower cells cudd settings m i v)).sum

def findPinSwitchingPower (v : V) (port : K) : ℚ :=
  if cells.isAnyOutput i port then
    1 / 2 * pinLoadCap cells i v port * cells.portVoltage i port * cells.portVoltage i port *
      design.findClkedActivity cells settings m i v
  else 0

def findSwitchingPower : ℚ :=
  ((design.pins i).map fun v => (design.libertyPort v).elim 0 (design.findPinSwitchingPower cells settings m i v)).sum

def power : InstPower where
  internal := design.findInternalPower cells cudd settings m i
  switching := design.findSwitchingPower cells settings m i
  leakage := design.findLeakagePower cells cudd settings m i

end Instance

variable {design cells cudd settings m i}

section Duties
open BddEvaluation

def IsInput (design : Design V E I K) (i : I) (port : K) : Prop := design.isInternal i port = false ∧
    (design.findPin i port).isSome = true

instance (design : Design V E I K) (i : I) (port : K) : Decidable (design.IsInput i port) :=
  inferInstanceAs (Decidable (design.isInternal i port = false ∧ (design.findPin i port).isSome = true))

def pinActivity (design : Design V E I K) (settings : Settings V W) (m : Maps V I K W) (i : I) (port : K) : ℚ :=
  ((design.activities settings m i).findActivity port).activity

def pinDuty (design : Design V E I K) (settings : Settings V W) (m : Maps V I K W) (i : I) (port : K) : ℚ :=
  ((design.activities settings m i).findActivity port).duty

variable {expr : FuncExpr K} {port : K}

theorem probability_ports (inputs : ∀ port ∈ exprPorts expr, design.IsInput i port) (event : (K → Bool) → Bool) :
    Independent.probability (exprPorts expr) (fun port =>
    (portActivity (design.instPorts i) (design.activities settings m i) port).duty) event =
      Independent.probability (exprPorts expr) (design.pinDuty settings m i) event := by
  refine Independent.probability_congr fun port mem => ?_
  have outer : (design.instPorts i).isInternal port = false := (inputs port mem).1
  rw [portActivity,outer,if_neg Bool.false_ne_true]
  rfl

/-- A function of inputs has its probability as duty, and the activities of the inputs that it follows. -/
theorem evalActivity_inputs (correct : cudd.Correct) (inputs : ∀ port ∈ exprPorts expr, design.IsInput i port) :
    design.evalActivity cudd settings m i expr = .plain
      (∑ port ∈ exprPorts expr, design.pinActivity settings m i port *
        Independent.probability (exprPorts expr) (design.pinDuty settings m i) (booleanDiff port fun env =>
          FuncExpr.eval env expr))
      (Independent.probability (exprPorts expr) (design.pinDuty settings m i) fun env => FuncExpr.eval env expr)
        .propagated := by
  have represents := represents_funcBdd correct expr
  have evaluated : ∀ port, BddEvaluation.DependsOn (fun env => FuncExpr.eval env expr) port →
    Evaluated (design.instPorts i) port := by
    intro port depends
    obtain ⟨env, differ⟩ := depends
    exact inputs port (mem_exprPorts differ)
  have duty := represents.evalBddDuty_eq (design.activities settings m i) evaluated
  have activity : evalBddActivity cudd (design.instPorts i) (design.activities settings m i) _ _ = _ :=
    represents.evalBddActivity_eq correct evaluated
  rw [funcBdd_toFinset correct,probability_ports inputs] at duty
  rw [funcBdd_toFinset correct] at activity
  have terms : ∀ port ∈ exprPorts expr,
    (portActivity (design.instPorts i) (design.activities settings m i) port).activity =
      design.pinActivity settings m i port := by
    intro port mem
    have outer : (design.instPorts i).isInternal port = false := (inputs port mem).1
    rw [portActivity,outer,if_neg Bool.false_ne_true]
    rfl
  have bdd : design.evalBdd cudd settings m i expr = .plain
      (∑ port ∈ exprPorts expr, design.pinActivity settings m i port *
        Independent.probability (exprPorts expr) (design.pinDuty settings m i) (booleanDiff port fun env =>
          FuncExpr.eval env expr))
      (Independent.probability (exprPorts expr) (design.pinDuty settings m i) fun env => FuncExpr.eval env expr)
        .propagated := by
    have found : evalFunc cudd (design.instPorts i) (design.activities settings m i) expr = some
        ⟨∑ port ∈ exprPorts expr, design.pinActivity settings m i port *
          Independent.probability (exprPorts expr) (design.pinDuty settings m i) (booleanDiff port fun env =>
            FuncExpr.eval env expr),
          Independent.probability (exprPorts expr) (design.pinDuty settings m i) fun env =>
            FuncExpr.eval env expr⟩ := by
      rw [evalFunc,duty,activity]
      refine congrArg some (congrArg₂ BddEvaluation.ActivityDuty.mk (Finset.sum_congr rfl fun port mem => ?_) rfl)
      rw [terms port mem,probability_ports inputs]
    rw [evalBdd,found]
  cases expr with
  | port port =>
    have outer := (inputs port (Finset.mem_singleton_self port)).1
    rw [← bdd,evalActivity,outer,if_neg Bool.false_ne_true]
  | _ => exact bdd

/-- The duty of a difference is the probability that the function follows the port. -/
theorem evalDiffDuty_inputs (correct : cudd.Correct) (inputs : ∀ port ∈ exprPorts expr, design.IsInput i port)
    (mem : port ∈ exprPorts expr) : design.evalDiffDuty cudd settings m i expr port =
      Independent.probability (exprPorts expr) (design.pinDuty settings m i) (booleanDiff port fun env =>
        FuncExpr.eval env expr) := by
  have known : port ∈ (funcBdd cudd expr []).2 := by
    rw [← List.mem_toFinset,funcBdd_toFinset correct]
    exact mem
  have represents := (represents_funcBdd correct expr).diff correct known
  have duty : evalBddDuty (design.instPorts i) _ _ _ _ = _ :=
    represents.evalBddDuty_eq (design.activities settings m i) fun other depends => by
    obtain ⟨env, differ⟩ := dependsOn_of_diff depends
    exact inputs other (mem_exprPorts differ)
  rw [funcBdd_toFinset correct,probability_ports inputs] at duty
  rw [evalDiffDuty,duty]
  rfl

end Duties

section Leakage
open BddEvaluation

/-- The condition of a group holds in a state of the inputs. -/
def holds (env : K → Bool) (leak : LeakagePower K) : Bool := leak.cond.any (FuncExpr.eval env)

/-- Leakage of a state: of the groups whose condition holds, and of the cell where none of these leaks. Groups without a
condition count where no group has one. -/
def stateLeakage (leaks : List (LeakagePower K)) (cellLeakage : Option ℚ) (env : K → Bool) : ℚ :=
  let holding := leaks.filter (holds env)
  (if leaks.any fun leak => leak.cond.isSome then (holding.map fun leak => leak.power).sum
    else (leaks.map fun leak => leak.power).sum) +
    cellLeakage.elim 0 fun cell => if holding.any fun leak => 0 < leak.power then 0 else cell

/-- No two groups of positive power leak in one state. -/
def Exclusive (leaks : List (LeakagePower K)) : Prop :=
  ∀ env, ((leaks.filter (holds env)).filter fun leak => 0 < leak.power).length ≤ 1

variable {leaks : List (LeakagePower K)} {bits : Finset K}

/-- Where the conditions are over the bits, the duty of a condition is the mean of the states in which it holds. -/
theorem duty_cond (correct : cudd.Correct) {leak : LeakagePower K} {cond : FuncExpr K} (here : leak.cond = some cond)
    (sub : exprPorts cond ⊆ bits) (inputs : ∀ port ∈ bits, design.IsInput i port) :
    (design.evalActivity cudd settings m i cond).duty =
      Independent.expectation bits (design.pinDuty settings m i) fun env => if holds env leak then 1 else 0 := by
  have duty : (design.evalActivity cudd settings m i cond).duty = _ :=
    congrArg (fun a : PwrActivity W => a.duty) (evalActivity_inputs correct fun port mem => inputs port (sub mem))
  have grow : Independent.probability bits (design.pinDuty settings m i) (fun env => FuncExpr.eval env cond) = _ :=
    Independent.probability_grow sub _ fun env env' agree => evalExpr_congr cond agree
  rw [duty]
  refine grow.symm.trans ((Independent.probability_eq_expectation _).trans ?_)
  simp only [holds,here,Option.any_some]

omit [DecidableEq K] in
theorem sum_conds (leaks : List (LeakagePower K)) (term : ℚ → ℚ → ℚ) (duty : FuncExpr K → ℚ) :
    ((leaks.filterMap fun leak => leak.cond.map fun cond => (leak.power, duty cond)).map fun cond =>
    term cond.1 cond.2).sum =
      (leaks.map fun leak => leak.cond.elim 0 fun cond => term leak.power (duty cond)).sum := by
  induction leaks with
  | nil => rfl
  | cons leak rest ih =>
    cases here : leak.cond with
    | none => simp [here,ih]
    | some cond => simp [here,ih]

theorem sum_filter {α : Type} (items : List α) (kept : α → Bool) (term : α → ℚ) :
    ((items.filter kept).map term).sum = (items.map fun item => if kept item then term item else 0).sum := by
  rw [List.sum_map_ite,List.map_const',List.sum_replicate,smul_zero,add_zero]
  simp only [Bool.decide_eq_true]

/-- A number for each group that holds, weighted by the duties of the conditions, is the mean of the sum of a state. -/
theorem sum_duties (correct : cudd.Correct)
    (covers : ∀ leak ∈ leaks, ∀ cond, leak.cond = some cond → exprPorts cond ⊆ bits)
    (inputs : ∀ port ∈ bits, design.IsInput i port) (factor : LeakagePower K → ℚ) :
    (leaks.map fun leak => leak.cond.elim 0 fun cond =>
    factor leak * (design.evalActivity cudd settings m i cond).duty).sum =
      Independent.expectation bits (design.pinDuty settings m i) fun env =>
        ((leaks.filter (holds env)).map factor).sum := by
  simp only [sum_filter,Independent.expectation_list]
  refine congrArg List.sum (List.map_congr_left fun leak mem => ?_)
  cases here : leak.cond with
  | none =>
    have never : ∀ env, holds env leak = false := fun env => by rw [holds,here,Option.any_none]
    simp only [never,Bool.false_eq_true,if_false,Option.elim_none]
    exact (Independent.expectation_const 0).symm
  | some cond =>
    have scaled : ∀ env, (if holds env leak = true then factor leak else 0) = factor leak * if holds env leak =
      true then 1 else 0 :=
      fun env => (mul_ite_zero _ _ _).trans (by rw [mul_one]) |>.symm
    simp only [scaled,Independent.expectation_mul,Option.elim_some]
    rw [duty_cond correct here (covers leak mem cond here) inputs]

omit [DecidableEq K] in
/-- The duty that is left to the cell counts the states in which no group of positive power leaks. -/
theorem left_to_cell (exclusive : Exclusive leaks) (env : K → Bool) :
    1 - ((leaks.filter (holds env)).map fun leak => if 0 < leak.power then (1 : ℚ) else 0).sum =
      if (leaks.filter (holds env)).any fun leak => 0 < leak.power then 0 else 1 := by
  have few := exclusive env
  have counted : ((leaks.filter (holds env)).map fun leak => if 0 < leak.power then (1 : ℚ) else 0).sum =
      ((leaks.filter (holds env)).filter fun leak => 0 < leak.power).length := by
    have ones := sum_filter (leaks.filter (holds env)) (fun leak => 0 < leak.power) fun _ => 1
    rw [List.map_const',List.sum_replicate,nsmul_one] at ones
    simp only [decide_eq_true_eq] at ones
    exact ones.symm
  rw [counted]
  split
  · next some =>
    obtain ⟨leak, mem, positive⟩ := List.any_eq_true.1 some
    have nonempty : 0 < ((leaks.filter (holds env)).filter fun leak => 0 < leak.power).length :=
      List.length_pos_of_mem (List.mem_filter.2 ⟨mem, positive⟩)
    have one : ((leaks.filter (holds env)).filter fun leak => 0 < leak.power).length = 1 := le_antisymm few nonempty
    rw [one,Nat.cast_one,sub_self]
  · next none =>
    have empty : (leaks.filter (holds env)).filter (fun leak => 0 < leak.power) = [] := by
      refine List.filter_eq_nil_iff.2 fun leak mem positive => none ?_
      exact List.any_eq_true.2 ⟨leak, mem, positive⟩
    rw [empty,List.length_nil,Nat.cast_zero,sub_zero]

omit [DecidableEq K] in
theorem leakage_kinds (leaks : List (LeakagePower K)) (duty : FuncExpr K → ℚ) :
    let conds := leaks.filterMap fun leak => leak.cond.map fun cond => (leak.power, duty cond)
    let unconds := leaks.filter fun leak => leak.cond.isNone
    (if !conds.isEmpty then (conds.map fun cond => cond.1 * cond.2).sum
      else if !unconds.isEmpty then (unconds.map fun leak => leak.power).sum else 0) =
      if leaks.any fun leak => leak.cond.isSome then (conds.map fun cond => cond.1 * cond.2).sum
        else (leaks.map fun leak => leak.power).sum := by
  intro conds unconds
  by_cases some : leaks.any fun leak => leak.cond.isSome
  · obtain ⟨leak, mem, isSome⟩ := List.any_eq_true.1 some
    obtain ⟨cond, here⟩ := Option.isSome_iff_exists.1 isSome
    have inside : (leak.power, duty cond) ∈ conds := List.mem_filterMap.2 ⟨leak, mem, by rw [here,Option.map_some]⟩
    have nonempty : conds.isEmpty = false := List.isEmpty_eq_false_iff.2 (List.ne_nil_of_mem inside)
    rw [if_pos some,nonempty,Bool.not_false,if_pos rfl]
  · have none : ∀ leak ∈ leaks, leak.cond = none := by
      intro leak mem
      by_contra isSome
      exact some (List.any_eq_true.2 ⟨leak, mem, Option.isSome_iff_ne_none.2 isSome⟩)
    have empty : conds = [] := List.filterMap_eq_nil_iff.2 fun leak mem => by rw [none leak mem,Option.map_none]
    have all : unconds = leaks := List.filter_eq_self.2 fun leak mem => by rw [none leak mem,Option.isNone_none]
    rw [if_neg some,empty,all]
    cases leaks with
    | nil => rfl
    | cons leak rest => rfl

omit [DecidableEq P] in
theorem findLeakagePower_expectation (correct : cudd.Correct)
    (covers : ∀ leak ∈ cells.leakagePowers i, ∀ cond, leak.cond = some cond → exprPorts cond ⊆ bits)
    (inputs : ∀ port ∈ bits, design.IsInput i port) (exclusive : Exclusive (cells.leakagePowers i)) :
    design.findLeakagePower cells cudd settings m i =
      Independent.expectation bits (design.pinDuty settings m i)
        (stateLeakage (cells.leakagePowers i) (cells.leakagePower i)) := by
  unfold findLeakagePower
  generalize cells.leakagePowers i = leaks at covers exclusive
  have leaking := (sum_conds leaks (fun power duty => power * duty) fun cond =>
    (design.evalActivity cudd settings m i cond).duty).trans
    (sum_duties correct covers inputs fun leak => leak.power)
  have dutySum : (((leaks.filterMap fun leak => leak.cond.map fun cond =>
    (leak.power, (design.evalActivity cudd settings m i cond).duty)).filter
      fun cond => 0 < cond.1).map fun cond => cond.2).sum =
        Independent.expectation bits (design.pinDuty settings m i) fun env =>
        ((leaks.filter (holds env)).map fun leak => if 0 < leak.power then (1 : ℚ) else 0).sum := by
    refine (sum_filter _ _ _).trans
      ((sum_conds leaks (fun power duty => if decide (0 < power) = true then duty else 0) _).trans ?_)
    refine Eq.trans ?_ (sum_duties correct covers inputs fun leak => if 0 < leak.power then 1 else 0)
    refine congrArg List.sum (List.map_congr_left fun leak _ => ?_)
    simp only [decide_eq_true_eq,ite_mul,one_mul,zero_mul]
  have kinds := leakage_kinds leaks fun cond => (design.evalActivity cudd settings m i cond).duty
  have groups : (if leaks.any fun leak => leak.cond.isSome then
      Independent.expectation bits (design.pinDuty settings m i) fun env =>
        ((leaks.filter (holds env)).map fun leak => leak.power).sum
      else (leaks.map fun leak => leak.power).sum) =
        Independent.expectation bits (design.pinDuty settings m i) fun env =>
        if leaks.any fun leak => leak.cond.isSome then ((leaks.filter (holds env)).map fun leak => leak.power).sum
        else (leaks.map fun leak => leak.power).sum := by
    split
    · rfl
    · exact (Independent.expectation_const _).symm
  dsimp only at kinds ⊢
  rw [kinds,leaking,dutySum,groups]
  unfold stateLeakage
  dsimp only
  rw [Independent.expectation_add]
  cases cells.leakagePower i with
  | none =>
    simp only [Option.elim_none]
    rw [Independent.expectation_const,add_zero]
  | some cell =>
    have rest : (1 : ℚ) - Independent.expectation bits (design.pinDuty settings m i) (fun env =>
        ((leaks.filter (holds env)).map fun leak => if 0 < leak.power then (1 : ℚ) else 0).sum) =
          Independent.expectation bits (design.pinDuty settings m i) fun env =>
            if (leaks.filter (holds env)).any fun leak => 0 < leak.power then 0 else 1 := by
      simp only [← left_to_cell exclusive]
      exact (Independent.expectation_sub_const _ _).symm
    simp only [Option.elim_some]
    rw [rest,← Independent.expectation_mul]
    simp only [mul_ite,mul_zero,mul_one]

end Leakage

section Shares
open BddEvaluation
variable {func : Option (FuncExpr K)} {pwrs : List (InternalPower K P)} {pwr : InternalPower K P} {pg : Option P}

theorem evalDiffDuty_nonneg (settled : SettingsValid design settings) (valid : MapsValid design m) (func : FuncExpr K)
    (port : K) :
    0 ≤ design.evalDiffDuty cudd settings m i func port := by
  unfold evalDiffDuty
  dsimp only
  generalize found : evalBddDuty _ _ _ _ _ = duty
  cases duty with
  | none => exact le_rfl
  | some duty => exact (evalBddDuty_mem (readsValid_activities settled valid i) found).1

omit [DecidableEq P] in
theorem findInputDuty_nonneg (settled : SettingsValid design settings) (valid : MapsValid design m)
    (func : Option (FuncExpr K)) (pwr : InternalPower K P) : 0 ≤ design.findInputDuty cudd settings m i func pwr := by
  unfold findInputDuty
  split
  · split
    · exact evalDiffDuty_nonneg settled valid _ _
    · exact (valid_evalActivity settled valid i _).low
    · split <;> norm_num
  · exact le_rfl

omit [DecidableEq P] in
theorem pwrDuty_nonneg (settled : SettingsValid design settings) (valid : MapsValid design m)
    (func : Option (FuncExpr K)) (pwr : InternalPower K P) : 0 ≤ design.pwrDuty cudd settings m i func pwr := by
  unfold pwrDuty
  split
  · exact mul_nonneg (valid_findActivity settled valid _).activity (findInputDuty_nonneg settled valid func pwr)
  · exact le_rfl

omit [DecidableEq P] in
theorem pwrDuty_unrelated (unrelated : (pwr.relatedPort.bind (design.findPin i)).isSome = false) :
    design.pwrDuty cudd settings m i func pwr = 0 := by
  have none := Option.isSome_eq_false_iff.1 unrelated
  rw [pwrDuty,Option.isNone_iff_eq_none.1 none]

theorem pgDutySum_eq (pg : Option P) : design.pgDutySum cudd settings m i func pwrs pg =
    ((pwrs.filter fun pwr => pwr.relatedPgPin = pg).map (design.pwrDuty cudd settings m i func)).sum := by
  rw [pgDutySum,sum_filter,sum_filter]
  refine congrArg List.sum (List.map_congr_left fun pwr _ => ?_)
  cases related : pwr.relatedPort with
  | some port => simp
  | none =>
    have zero : design.pwrDuty cudd settings m i func pwr = 0 := pwrDuty_unrelated (by rw [related]; rfl)
    simp [zero]

theorem pwrWeight_eq (here : pwr.relatedPgPin = pg) (active : design.pgDutySum cudd settings m i func pwrs pg ≠ 0) :
    design.pwrWeight cudd settings m i func pwrs pwr =
      design.pwrDuty cudd settings m i func pwr / design.pgDutySum cudd settings m i func pwrs pg := by
  subst here
  unfold pwrWeight
  dsimp only
  cases related : (pwr.relatedPort.bind (design.findPin i)).isSome with
  | true => rw [if_pos ⟨active, rfl⟩]
  | false => rw [if_neg (fun both => Bool.false_ne_true both.2),pwrDuty_unrelated related,zero_div]

theorem pwrWeight_still (here : pwr.relatedPgPin = pg) (still : design.pgDutySum cudd settings m i func pwrs pg = 0) :
    design.pwrWeight cudd settings m i func pwrs pwr = 0 := by
  subst here
  exact if_neg fun both => both.1 still

theorem pwrWeight_nonneg (settled : SettingsValid design settings) (valid : MapsValid design m)
    (func : Option (FuncExpr K)) (pwrs : List (InternalPower K P)) (pwr : InternalPower K P) :
    0 ≤ design.pwrWeight cudd settings m i func pwrs pwr := by
  have sum : 0 ≤ design.pgDutySum cudd settings m i func pwrs pwr.relatedPgPin := by
    refine List.sum_nonneg fun term mem => ?_
    obtain ⟨other, _, rfl⟩ := List.mem_map.1 mem
    exact pwrDuty_nonneg settled valid func other
  unfold pwrWeight
  dsimp only
  split
  · exact div_nonneg (pwrDuty_nonneg settled valid func pwr) sum
  · exact le_rfl

theorem sum_pwrWeight (func : Option (FuncExpr K)) (pwrs : List (InternalPower K P)) (pg : Option P) :
    ((pwrs.filter fun pwr => pwr.relatedPgPin = pg).map (design.pwrWeight cudd settings m i func pwrs)).sum =
      if design.pgDutySum cudd settings m i func pwrs pg = 0 then 0 else 1 := by
  split
  · next still =>
    refine List.sum_eq_zero fun term mem => ?_
    obtain ⟨pwr, inside, rfl⟩ := List.mem_map.1 mem
    exact pwrWeight_still (of_decide_eq_true (List.mem_filter.1 inside).2) still
  · next active =>
    have shares : ((pwrs.filter fun pwr => pwr.relatedPgPin = pg).map (design.pwrWeight cudd settings m i func pwrs)) =
        (pwrs.filter fun pwr => pwr.relatedPgPin = pg).map fun pwr =>
          design.pwrDuty cudd settings m i func pwr / design.pgDutySum cudd settings m i func pwrs pg := by
      refine List.map_congr_left fun pwr mem => pwrWeight_eq (of_decide_eq_true (List.mem_filter.1 mem).2) active
    have total : design.pgDutySum cudd settings m i func pwrs pg = _ := pgDutySum_eq pg
    rw [shares]
    simp only [div_eq_mul_inv]
    rw [List.sum_map_mul_right,← total,mul_inv_cancel₀ active]

theorem sum_by_key {α β : Type} [DecidableEq β] (key : α → β) (keys : Finset β) (items : List α)
    (inside : ∀ item ∈ items, key item ∈ keys)
    (term : α → ℚ) : (items.map term).sum = ∑ k ∈ keys, ((items.filter fun item => key item = k).map term).sum := by
  induction items with
  | nil => simp
  | cons item rest ih =>
    have split : ∀ k, (((item :: rest).filter fun item => key item = k).map term).sum =
        (if key item = k then term item else 0) + ((rest.filter fun item => key item = k).map term).sum := by
      intro k
      simp only [sum_filter,List.map_cons,List.sum_cons,decide_eq_true_eq]
    rw [Finset.sum_congr rfl fun k _ => split k,Finset.sum_add_distrib,Finset.sum_ite_eq,
      if_pos (inside item List.mem_cons_self),
      ← ih fun other mem => inside other (List.mem_cons_of_mem _ mem),List.map_cons,List.sum_cons]

theorem weighted_le (settled : SettingsValid design settings) (valid : MapsValid design m) (func : Option (FuncExpr K))
    (pwrs : List (InternalPower K P)) {energy : InternalPower K P → ℚ} {most : Option P → ℚ}
    (nonneg : ∀ pg, 0 ≤ most pg) (bound : ∀ pwr ∈ pwrs, energy pwr ≤ most pwr.relatedPgPin) :
    (pwrs.map fun pwr => design.pwrWeight cudd settings m i func pwrs pwr * energy pwr).sum ≤
      ∑ pg ∈ (pwrs.map fun pwr => pwr.relatedPgPin).toFinset, most pg := by
  rw [sum_by_key (fun pwr : InternalPower K P => pwr.relatedPgPin) _ pwrs fun pwr mem =>
    List.mem_toFinset.2 (List.mem_map_of_mem mem)]
  refine Finset.sum_le_sum fun pg _ => ?_
  calc ((pwrs.filter fun pwr => pwr.relatedPgPin = pg).map fun pwr => design.pwrWeight cudd settings m i func pwrs pwr *
    energy pwr).sum
      ≤ ((pwrs.filter fun pwr => pwr.relatedPgPin = pg).map fun pwr =>
        design.pwrWeight cudd settings m i func pwrs pwr * most pg).sum := by
        refine List.sum_le_sum fun pwr mem => ?_
        obtain ⟨inside, here⟩ := List.mem_filter.1 mem
        refine mul_le_mul_of_nonneg_left ?_ (pwrWeight_nonneg settled valid func pwrs pwr)
        exact of_decide_eq_true here ▸ bound pwr inside
    _ = (if design.pgDutySum cudd settings m i func pwrs pg = 0 then 0 else 1) * most pg := by
        rw [List.sum_map_mul_right,sum_pwrWeight]
    _ ≤ most pg := by
        split
        · rw [zero_mul]
          exact nonneg pg
        · rw [one_mul]

theorem findOutputInternalPower_eq (toPort : K) (toActivity loadCap : ℚ) :
    design.findOutputInternalPower cells cudd settings m i toPort toActivity loadCap = toActivity *
    ((cells.internalPowers i toPort).map fun pwr =>
      design.pwrWeight cudd settings m i (design.function i toPort) (cells.internalPowers i toPort) pwr *
        averageEnergy pwr (design.relatedSlew cells i toPort pwr) loadCap).sum := by
  rw [findOutputInternalPower,← List.sum_map_mul_left]
  exact congrArg List.sum (List.map_congr_left fun pwr _ => mul_comm _ _)

/-- Activity of an input that gets through a function. -/
def follows (design : Design V E I K) (settings : Settings V W) (m : Maps V I K W) (i : I) (expr : FuncExpr K)
    (port : K) : ℚ :=
  design.pinActivity settings m i port *
    Independent.probability (exprPorts expr) (design.pinDuty settings m i) (booleanDiff port fun env =>
      FuncExpr.eval env expr)

omit [DecidableEq P] in
theorem pwrDuty_follows (correct : cudd.Correct) {expr : FuncExpr K}
    (inputs : ∀ port ∈ exprPorts expr, design.IsInput i port) {port : K} (related : pwr.relatedPort = some port)
    (mem : port ∈ exprPorts expr) :
    design.pwrDuty cudd settings m i (some expr) pwr = design.follows settings m i expr port := by
  obtain ⟨v, found⟩ := Option.isSome_iff_exists.1 (inputs port mem).2
  have filtered : (some expr).filter (fun func => decide (port ∈ exprPorts func)) = some expr := by
    rw [Option.filter_some,if_pos (decide_eq_true mem)]
  have duty : design.findInputDuty cudd settings m i (some expr) pwr =
    design.evalDiffDuty cudd settings m i expr port := by
    simp only [findInputDuty,related,Option.bind_some,found,Option.map_some,filtered]
  have activity : design.pinActivity settings m i port = (design.findActivity settings m v).activity := by
    simp only [pinActivity,activities,found]
  rw [pwrDuty,related,Option.bind_some,found,follows,activity]
  dsimp only
  rw [duty,evalDiffDuty_inputs correct inputs mem]

end Shares

end Design

namespace Power
variable {V E I K W P : Type} [DecidableEq V] [DecidableEq I] [DecidableEq K] [DecidableEq P]
    {cudd : BddEvaluation.Cudd}
open Design BddEvaluation

/-- Whatever was set and propagated, the leakage of an instance is the mean over independent inputs of what leaks in a
state of them, so that no state leaks more or less throughout. -/
theorem leakage_expected {design : Design V E I K} (registered : design.Registered) (cells : Cells V I K P)
    (correct : cudd.Correct) (clocks : ∀ v, 0 ≤ design.clockDuty v ∧ design.clockDuty v ≤ 1) (events : List (Event V W))
    (numbers : ∀ event ∈ events, event.Valid)
    {p : Power V I K W} (run : (initial : Power V I K W).run design cudd events = some p) {i : I} {bits : Finset K}
    (covers : ∀ leak ∈ cells.leakagePowers i, ∀ cond, leak.cond = some cond → exprPorts cond ⊆ bits)
    (inputs : ∀ port ∈ bits, design.IsInput i port) (exclusive : Design.Exclusive (cells.leakagePowers i)) :
    (design.power cells cudd p.settings p.maps i).leakage =
    Independent.expectation bits (design.pinDuty p.settings p.maps i)
        (Design.stateLeakage (cells.leakagePowers i) (cells.leakagePower i)) ∧
      ∀ least most, (∀ env, least ≤ Design.stateLeakage (cells.leakagePowers i) (cells.leakagePower i) env ∧
        Design.stateLeakage (cells.leakagePowers i) (cells.leakagePower i) env ≤ most) →
        least ≤ (design.power cells cudd p.settings p.maps i).leakage ∧
          (design.power cells cudd p.settings p.maps i).leakage ≤ most := by
  obtain ⟨settled, valid⟩ := valid_run registered clocks events numbers run
  have mean : (design.power cells cudd p.settings p.maps i).leakage = _ :=
    findLeakagePower_expectation correct covers inputs exclusive
  have duties : ∀ port ∈ bits, 0 ≤ design.pinDuty p.settings p.maps i port ∧
    design.pinDuty p.settings p.maps i port ≤ 1 :=
    fun port _ => (readsValid_activities settled valid i).pin port
  refine ⟨mean, fun least most bound => ?_⟩
  rw [mean]
  exact ⟨Independent.le_expectation duties fun env => (bound env).1, Independent.expectation_le duties fun env =>
    (bound env).2⟩

/-- Whatever was set and propagated, a power pin shares a whole energy out at an output or none, so that a transition
there takes no more than the greatest energy of each power pin and no less than the least. -/
theorem internal_shared {design : Design V E I K} (registered : design.Registered) (cells : Cells V I K P)
    (cudd : BddEvaluation.Cudd)
    (clocks : ∀ v, 0 ≤ design.clockDuty v ∧ design.clockDuty v ≤ 1) (events : List (Event V W))
    (numbers : ∀ event ∈ events, event.Valid)
    {p : Power V I K W} (run : (initial : Power V I K W).run design cudd events = some p) (i : I) (toPort : K) :
    let pwrs := cells.internalPowers i toPort
    let weight := design.pwrWeight cudd p.settings p.maps i (design.function i toPort) pwrs
    (∀ pwr, 0 ≤ weight pwr) ∧ (∀ pg, ((pwrs.filter fun pwr => pwr.relatedPgPin = pg).map weight).sum = 1 ∨
        ∀ pwr ∈ pwrs, pwr.relatedPgPin = pg → weight pwr = 0) ∧
      ∀ (toActivity loadCap : ℚ) (least most : Option P → ℚ), 0 ≤ toActivity → (∀ pg, least pg ≤ 0 ∧ 0 ≤ most pg) →
        (∀ pwr ∈ pwrs,
        least pwr.relatedPgPin ≤ averageEnergy pwr (design.relatedSlew cells i toPort pwr) loadCap ∧
          averageEnergy pwr (design.relatedSlew cells i toPort pwr) loadCap ≤ most pwr.relatedPgPin) →
        toActivity * ∑ pg ∈ (pwrs.map fun pwr => pwr.relatedPgPin).toFinset, least pg ≤
            design.findOutputInternalPower cells cudd p.settings p.maps i toPort toActivity loadCap ∧
          design.findOutputInternalPower cells cudd p.settings p.maps i toPort toActivity loadCap ≤
            toActivity * ∑ pg ∈ (pwrs.map fun pwr => pwr.relatedPgPin).toFinset, most pg := by
  obtain ⟨settled, valid⟩ := valid_run registered clocks events numbers run
  intro pwrs weight
  refine ⟨pwrWeight_nonneg settled valid _ _, fun pg => ?_, fun toActivity loadCap least most nonneg signs bound => ?_⟩
  · by_cases still : design.pgDutySum cudd p.settings p.maps i (design.function i toPort) pwrs pg = 0
    · exact Or.inr fun pwr _ here => pwrWeight_still here still
    · exact Or.inl ((sum_pwrWeight _ pwrs pg).trans (if_neg still))
  · rw [findOutputInternalPower_eq]
    have upper : (pwrs.map fun pwr => weight pwr * _).sum ≤ _ :=
      weighted_le settled valid (design.function i toPort) pwrs (fun pg => (signs pg).2) fun pwr mem =>
        (bound pwr mem).2
    have lower : (pwrs.map fun pwr => weight pwr * _).sum ≤ ∑ pg ∈ (pwrs.map fun pwr => pwr.relatedPgPin).toFinset,
      -least pg :=
      weighted_le settled valid (design.function i toPort) pwrs (fun pg => neg_nonneg.2 (signs pg).1) fun pwr mem =>
        neg_le_neg (bound pwr mem).1
    simp only [mul_neg,Finset.sum_neg_distrib,← neg_one_mul (_ * _),List.sum_map_mul_left] at lower
    rw [neg_one_mul] at lower
    exact ⟨mul_le_mul_of_nonneg_left (neg_le_neg_iff.1 lower) nonneg, mul_le_mul_of_nonneg_left upper nonneg⟩

omit [DecidableEq P] in
theorem sum_relates {pwrs : List (InternalPower K P)} {ports : List K}
    (relates : pwrs.map InternalPower.relatedPort = ports.map some) (distinct : ports.Nodup) (term : K → ℚ) :
    (pwrs.map fun pwr => pwr.relatedPort.elim 0 term).sum = ∑ port ∈ ports.toFinset, term port := by
  have joined : pwrs.map (fun pwr => pwr.relatedPort.elim 0 term) = (pwrs.map InternalPower.relatedPort).map fun port =>
    port.elim 0 term := by
    rw [List.map_map]
    rfl
  rw [joined,relates,List.map_map,List.sum_toFinset term distinct]
  rfl

omit [DecidableEq V] [DecidableEq I] in
/-- The energy at an output with a group for each input of its function: each input counts by its activity that gets
through, relative to what the function makes of all of them. -/
theorem internal_follows {design : Design V E I K} (cells : Cells V I K P) (correct : cudd.Correct)
    (settings : Settings V W)
    (m : Maps V I K W) (i : I) {toPort : K} {func : FuncExpr K} (function : design.function i toPort = some func)
    (inputs : ∀ port ∈ exprPorts func, design.IsInput i port) {ports : List K} (distinct : ports.Nodup)
    (all : ports.toFinset = exprPorts func)
    (relates : (cells.internalPowers i toPort).map InternalPower.relatedPort = ports.map some) {pg : Option P}
    (one : ∀ pwr ∈ cells.internalPowers i toPort, pwr.relatedPgPin = pg)
    (active : (design.evalActivity cudd settings m i func).activity ≠ 0) (toActivity loadCap : ℚ) :
    design.findOutputInternalPower cells cudd settings m i toPort toActivity loadCap =
      toActivity / (design.evalActivity cudd settings m i func).activity *
        ((cells.internalPowers i toPort).map fun pwr =>
        pwr.relatedPort.elim 0 (design.follows settings m i func) *
          averageEnergy pwr (design.relatedSlew cells i toPort pwr) loadCap).sum := by
  have shared : ∀ pwr ∈ cells.internalPowers i toPort,
      design.pwrDuty cudd settings m i (some func) pwr = pwr.relatedPort.elim 0 (design.follows settings m i func) := by
    intro pwr mem
    obtain ⟨port, inside, related⟩ := List.mem_map.1 (relates ▸ List.mem_map_of_mem mem)
    have known : port ∈ exprPorts func := all ▸ List.mem_toFinset.2 inside
    rw [← related]
    exact pwrDuty_follows correct inputs related.symm known
  have total : design.pgDutySum cudd settings m i (some func) (cells.internalPowers i toPort) pg =
      (design.evalActivity cudd settings m i func).activity := by
    have whole : (cells.internalPowers i toPort).filter (fun pwr => pwr.relatedPgPin = pg) =
      cells.internalPowers i toPort :=
      List.filter_eq_self.2 fun pwr mem => decide_eq_true (one pwr mem)
    rw [pgDutySum_eq,whole,List.map_congr_left shared,sum_relates relates distinct,all,
      evalActivity_inputs correct inputs]
    rfl
  rw [findOutputInternalPower_eq,function,div_mul_eq_mul_div,mul_div_assoc]
  congr 1
  rw [div_eq_mul_inv,← List.sum_map_mul_right]
  refine congrArg List.sum (List.map_congr_left fun pwr mem => ?_)
  rw [pwrWeight_eq (one pwr mem) (total ▸ active),total,shared pwr mem]
  ring

end Power

section Witnesses
open BddEvaluation

/-- The gate leaks most with both inputs at 1, and spends more where the second one switches. -/
def gateCells : Cells Pin Inst Port Unit where
  isAnyOutput _ port := port = .z ∨ port = .q
  isAnyInput _ port := port = .a ∨ port = .b ∨ port = .d ∨ port = .ck
  internalPowers
    | .gate, .z => [⟨some .a, none, none, fun _ _ _ => 2⟩, ⟨some .b, none, none, fun _ _ _ => 3⟩]
    | _, _ => []
  leakagePowers
    | .gate => [⟨some (.and (.port .a) (.port .b)), 4⟩, ⟨some (.not (.or (.port .a) (.port .b))), 1⟩]
    | _ => []
  leakagePower
    | .gate => some 2
    | _ => none
  sense _ _ _ := some .positiveUnate
  loadCap _ := 1
  getSlew _ _ := some 1
  portVoltage _ _ := 1
  findClk _ := none

theorem exclusive_gate : Design.Exclusive (gateCells.leakagePowers .gate) := by
  intro env
  cases first : env .a <;> cases second : env .b <;> simp [gateCells,Design.holds,FuncExpr.eval,first,second]

theorem inputs_gate : ∀ port ∈ ({.a, .b} : Finset Port), feedback.IsInput .gate port := by decide

/-- The gate leaks between the least and the greatest leakage of its states. -/
theorem leakage_expected_gate :
    ∃ p, (Power.initial : Power Pin Inst Port Unit).run feedback expanding annotated = some p ∧
    1 ≤ (feedback.power gateCells expanding p.settings p.maps .gate).leakage ∧
    (feedback.power gateCells expanding p.settings p.maps .gate).leakage ≤ 4 := by
  obtain ⟨p, run, _⟩ := Option.map_eq_some_iff.1 run_annotated
  have covers : ∀ leak ∈ gateCells.leakagePowers .gate, ∀ cond, leak.cond = some cond →
    exprPorts cond ⊆ ({.a, .b} : Finset Port) := by
    intro leak mem cond here
    simp only [gateCells,List.mem_cons,List.not_mem_nil,or_false] at mem
    rcases mem with rfl | rfl <;> cases here <;> decide
  have mean := Power.leakage_expected lawful_feedback.toRegistered gateCells correct_expanding clocks_feedback annotated
    numbers_annotated run covers
    inputs_gate exclusive_gate
  refine ⟨p, run, mean.2 1 4 fun env => ?_⟩
  cases first : env .a <;> cases second : env .b <;>
    norm_num [gateCells,Design.stateLeakage,Design.holds,FuncExpr.eval,first,second,List.filter_cons]

/-- A transition at the gate takes no more than the greater energy. -/
theorem internal_shared_gate :
    ∃ p, (Power.initial : Power Pin Inst Port Unit).run feedback expanding annotated = some p ∧
    feedback.findOutputInternalPower gateCells expanding p.settings p.maps .gate .z 1 1 ≤ 3 := by
  obtain ⟨p, run, _⟩ := Option.map_eq_some_iff.1 run_annotated
  have shared := Power.internal_shared lawful_feedback.toRegistered gateCells expanding clocks_feedback annotated
    numbers_annotated run .gate .z
  have bound := (shared.2.2 1 1 (fun _ => 0) (fun _ => 3) zero_le_one (fun _ => by norm_num) (by decide +kernel)).2
  refine ⟨p, run, bound.trans ?_⟩
  decide +kernel

/-- Both inputs get through the gate as often. -/
theorem internal_follows_gate : feedback.findOutputInternalPower gateCells expanding
    (⟨.plain (1 / 2) (1 / 2) .global, .unknown, fun _ => none⟩ : Settings Pin Unit) .empty .gate .z 1 1 = 5 / 2 := by
  have inputs : ∀ port ∈ exprPorts (.or (.port .a) (.port .b) : FuncExpr Port), feedback.IsInput .gate port := by decide
  have distinct : [Port.a, .b].Nodup := by decide
  have one : ∀ pwr ∈ gateCells.internalPowers .gate .z, pwr.relatedPgPin = none := by decide
  refine (Power.internal_follows gateCells correct_expanding _ _ _ rfl inputs distinct rfl rfl one (by decide +kernel)
    _ _).trans ?_
  decide +kernel

end Witnesses

end GTPower.PowerActivity
