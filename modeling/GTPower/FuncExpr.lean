import Mathlib.Data.Nat.Notation
import Mathlib.Tactic.TypeStar

/-! What the models of cells share: directions of ports, logic values, and functions over the ports of a cell. -/
namespace GTPower

inductive PortDirection
  | input | output | tristate | bidirect | internal | ground | power | unknown
  deriving DecidableEq, Repr

namespace PortDirection

def isAnyInput (dir : PortDirection) : Bool := dir = input || dir = bidirect

def isAnyOutput (dir : PortDirection) : Bool := dir = output || dir = tristate || dir = bidirect

def isUnknown (dir : PortDirection) : Bool := dir = unknown

def index : PortDirection → ℕ
  | input => 0 | output => 1 | tristate => 2 | bidirect => 3 | internal => 4 | ground => 5 | power => 6 | unknown => 7

end PortDirection

inductive LogicValue
  | zero | one | unknown | rise | fall
  deriving DecidableEq, Repr

def LogicValue.index : LogicValue → ℕ
  | zero => 0 | one => 1 | unknown => 2 | rise => 3 | fall => 4

/-- A function over the ports of a cell. -/
inductive FuncExpr (κ : Type*) where
  | port (port : κ)
  | not (left : FuncExpr κ)
  | or (left right : FuncExpr κ)
  | and (left right : FuncExpr κ)
  | xor (left right : FuncExpr κ)
  | one
  | zero
  deriving DecidableEq

namespace FuncExpr
variable {κ : Type*}

def op : FuncExpr κ → ℕ
  | .port _ => 0
  | .not _ => 1
  | .or _ _ => 2
  | .and _ _ => 3
  | .xor _ _ => 4
  | .one => 5
  | .zero => 6

/-- The value, given those of the ports. -/
def eval (env : κ → Bool) : FuncExpr κ → Bool
  | .port name => env name
  | .not left => !eval env left
  | .or left right => eval env left || eval env right
  | .and left right => eval env left && eval env right
  | .xor left right => eval env left ^^ eval env right
  | .one => true
  | .zero => false

def ports : FuncExpr κ → List κ
  | .port name => [name]
  | .not left => ports left
  | .or left right => ports left ++ ports right
  | .and left right => ports left ++ ports right
  | .xor left right => ports left ++ ports right
  | .one => []
  | .zero => []

theorem eval_congr (expr : FuncExpr κ) {env env' : κ → Bool} (agree : ∀ name ∈ expr.ports, env name = env' name) :
    expr.eval env = expr.eval env' := by
  induction expr with
  | port name => exact agree name (by simp [ports])
  | not left ih => rw [eval,eval,ih agree]
  | or left right ihl ihr | and left right ihl ihr | xor left right ihl ihr =>
    have first := ihl fun name mem => agree name (by simp [ports,mem])
    have second := ihr fun name mem => agree name (by simp [ports,mem])
    simp [eval,first,second]
  | one => rfl
  | zero => rfl

end FuncExpr
end GTPower
