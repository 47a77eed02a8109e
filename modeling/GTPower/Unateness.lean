import GTPower.BddEvaluation

/-! Timing senses of a function in a port, by the structure of its expression. -/
namespace GTPower.Unateness

open BddEvaluation (booleanDiff)

inductive TimingSense
  | positiveUnate
  | negativeUnate
  | nonUnate
  | none
  | unknown
  deriving DecidableEq

namespace TimingSense

def not : TimingSense → TimingSense
  | positiveUnate => negativeUnate
  | negativeUnate => positiveUnate
  | nonUnate => nonUnate
  | none => none
  | unknown => unknown

/-- Sense of a conjunction or a disjunction. -/
def merge (leftSense rightSense : TimingSense) : TimingSense :=
  if leftSense = rightSense then leftSense
  else if leftSense = nonUnate ∨ rightSense = nonUnate ∨ leftSense = positiveUnate ∧ rightSense = negativeUnate ∨
      leftSense = negativeUnate ∧ rightSense = positiveUnate then nonUnate
  else if leftSense = none ∨ leftSense = unknown then rightSense
  else if rightSense = none ∨ rightSense = unknown then leftSense
  else unknown

def isUnateOrNon (sense : TimingSense) : Bool := sense = positiveUnate ∨ sense = negativeUnate ∨ sense = nonUnate

def xor (leftSense rightSense : TimingSense) : TimingSense :=
  if leftSense.isUnateOrNon || rightSense.isUnateOrNon then nonUnate else unknown

/-- Values of a function of the sense, with the port at 0 and at 1. -/
def Allows : TimingSense → Bool → Bool → Prop
  | positiveUnate, low, high => low ≤ high
  | negativeUnate, low, high => high ≤ low
  | nonUnate, _, _ => True
  | none, low, high => low = high
  | unknown, low, high => low = high

instance : ∀ (sense : TimingSense) (low high : Bool), Decidable (sense.Allows low high)
  | positiveUnate, low, high => inferInstanceAs (Decidable (low ≤ high))
  | negativeUnate, low, high => inferInstanceAs (Decidable (high ≤ low))
  | nonUnate, _, _ => inferInstanceAs (Decidable True)
  | none, low, high => inferInstanceAs (Decidable (low = high))
  | unknown, low, high => inferInstanceAs (Decidable (low = high))

variable {left right : TimingSense} {low high low' high' : Bool}

theorem Allows.not (allows : left.Allows low high) : left.not.Allows (!low) (!high) := by
  cases left <;> revert allows <;> cases low <;> cases high <;> decide

theorem Allows.and (first : left.Allows low high) (second : right.Allows low' high') :
    (left.merge right).Allows (low && low') (high && high') := by
  cases left <;> cases right <;> revert first second <;> revert low high low' high' <;> decide

theorem Allows.or (first : left.Allows low high) (second : right.Allows low' high') :
    (left.merge right).Allows (low || low') (high || high') := by
  cases left <;> cases right <;> revert first second <;> revert low high low' high' <;> decide

theorem Allows.xor (first : left.Allows low high) (second : right.Allows low' high') :
    (left.xor right).Allows (low ^^ low') (high ^^ high') := by
  cases left <;> cases right <;> revert first second <;> revert low high low' high' <;> decide

end TimingSense

variable {κ : Type} [DecidableEq κ]

/-- No subexpression is missing. -/
def portTimingSense (port : κ) : FuncExpr κ → TimingSense
  | .port name => if port = name then .positiveUnate else .none
  | .not left => (portTimingSense port left).not
  | .or left right => (portTimingSense port left).merge (portTimingSense port right)
  | .and left right => (portTimingSense port left).merge (portTimingSense port right)
  | .xor left right => (portTimingSense port left).xor (portTimingSense port right)
  | .one => .none
  | .zero => .none

def NonDecreasing (function : (κ → Bool) → Bool) (port : κ) : Prop :=
  ∀ env, function (Function.update env port false) ≤ function (Function.update env port true)

def NonIncreasing (function : (κ → Bool) → Bool) (port : κ) : Prop :=
  ∀ env, function (Function.update env port true) ≤ function (Function.update env port false)

theorem portTimingSense_allows (expr : FuncExpr κ) (port : κ) (env : κ → Bool) :
    (portTimingSense port expr).Allows (expr.eval (Function.update env port false))
    (expr.eval (Function.update env port true)) := by
  induction expr with
  | port name =>
    unfold portTimingSense
    split
    · next same =>
      subst same
      simp [FuncExpr.eval,TimingSense.Allows]
    · next other => simp [FuncExpr.eval,TimingSense.Allows,Function.update_of_ne (Ne.symm other)]
  | not left ih => exact ih.not
  | or left right ihl ihr => exact ihl.or ihr
  | and left right ihl ihr => exact ihl.and ihr
  | xor left right ihl ihr => exact ihl.xor ihr
  | one => exact rfl
  | zero => exact rfl

theorem not_dependsOn_iff {function : (κ → Bool) → Bool} {port : κ} :
    ¬BddEvaluation.DependsOn function port ↔ ∀ env, function (Function.update env port false) =
    function (Function.update env port true) := by
  unfold BddEvaluation.DependsOn booleanDiff
  rw [not_exists]
  apply forall_congr'
  intro env
  cases function (Function.update env port false) <;> cases function (Function.update env port true) <;> decide

/-- The senses are sound: a unate function is monotone, one without a sense does not depend on the port, and one that
does has a sense that says so. -/
theorem portTimingSense_sound (expr : FuncExpr κ) (port : κ) :
    (portTimingSense port expr = .positiveUnate → NonDecreasing (FuncExpr.eval · expr) port) ∧
      (portTimingSense port expr = .negativeUnate → NonIncreasing (FuncExpr.eval · expr) port) ∧
      (portTimingSense port expr = .none → ¬BddEvaluation.DependsOn (FuncExpr.eval · expr) port) ∧
      (BddEvaluation.DependsOn (FuncExpr.eval · expr) port → portTimingSense port expr = .positiveUnate ∨
        portTimingSense port expr = .negativeUnate ∨
        portTimingSense port expr = .nonUnate) := by
  have allows := portTimingSense_allows expr port
  refine ⟨fun sense env => ?_, fun sense env => ?_, fun sense => ?_, fun depends => ?_⟩
  · simpa [sense,TimingSense.Allows] using allows env
  · simpa [sense,TimingSense.Allows] using allows env
  · rw [not_dependsOn_iff]
    intro env
    simpa [sense,TimingSense.Allows] using allows env
  · cases sense : portTimingSense port expr with
    | positiveUnate => exact .inl rfl
    | negativeUnate => exact .inr (.inl rfl)
    | nonUnate => exact .inr (.inr rfl)
    | none =>
      refine absurd depends (not_dependsOn_iff.2 fun env => ?_)
      simpa [sense,TimingSense.Allows] using allows env
    | unknown =>
      refine absurd depends (not_dependsOn_iff.2 fun env => ?_)
      simpa [sense,TimingSense.Allows] using allows env

end GTPower.Unateness
