import GTPower.RcTrees
import Mathlib.Data.Finset.Card
import Mathlib.Logic.Relation
import Mathlib.Algebra.Order.Field.Rat
import Mathlib.Algebra.Order.BigOperators.Group.List

/-! The reduction of an RC network to a pi model: a search from the driver that cuts loops and sums the moments of the
admittance. -/
namespace GTPower.ReduceParasitics
open RcTrees

structure ParasiticCapacitor (N : Type*) where
  node1 : N
  node2 : N
  value : ℚ

/-- Nodes and resistors are identities, as the pointers of the source. -/
structure ParasiticNetwork (N R P : Type*) where
  resistors : List R
  nodup : resistors.Nodup
  node1 : R → N
  node2 : R → N
  value : R → ℚ
  capacitors : List (ParasiticCapacitor N)
  nodeGndCap : N → ℚ
  isExternal : N → Bool
  pin : N → Option P
  includesPinCaps : Bool

/-- What the design and its constraints say of a pin, for one transition, corner and min_max. -/
structure PinCaps (P : Type*) where
  libertyPort : P → Bool
  pinCapacitance : P → ℚ
  isTopLevelPort : P → Bool
  portExtCap : P → ℚ
  isLoad : P → Bool

structure ReduceToPi (N R P : Type*) extends ParasiticNetwork N R P where
  pins : PinCaps P
  couplingCapMultiplier : ℚ

structure Search (N R : Type*) where
  visitedNodes : Finset N
  /-- Every write, the last one first. -/
  nodeValues : List (N × ℚ)
  loopResistors : Finset R
  maxResistance : ℚ

variable {N R P : Type*} [DecidableEq N]

namespace Search

def start : Search N R := ⟨∅, [], ∅, 0⟩

def visit (s : Search N R) (node : N) : Search N R := { s with visitedNodes := insert node s.visitedNodes }

def leave (s : Search N R) (node : N) : Search N R := { s with visitedNodes := s.visitedNodes.erase node }

def setDownstreamCap (s : Search N R) (node : N) (cap : ℚ) : Search N R :=
  { s with nodeValues := (node, cap) :: s.nodeValues }

/-- What `reducePiDfs` does before the loop over the resistors of a node. -/
def enter (s : Search N R) (node : N) (srcResistance : ℚ) : Search N R :=
  { s with maxResistance := max s.maxResistance srcResistance }.visit node

/-- What `reducePiDfs` does after the loop over the resistors of a node. -/
def finish (s : Search N R) (node : N) (dwnCap : ℚ) : Search N R := (s.setDownstreamCap node dwnCap).leave node

def markLoopResistor [DecidableEq R] (s : Search N R) (resistor : R) : Search N R :=
  { s with loopResistors := insert resistor s.loopResistors }

@[simp]
theorem enter_visitedNodes (s : Search N R) (node : N) (src : ℚ) :
    (s.enter node src).visitedNodes = insert node s.visitedNodes := rfl

@[simp]
theorem finish_visitedNodes (s : Search N R) (node : N) (cap : ℚ) :
    (s.finish node cap).visitedNodes = s.visitedNodes.erase node := rfl

def downstreamCap (s : Search N R) (node : N) : ℚ := (s.nodeValues.lookup node).getD 0

def left (s : Search N R) : List N := s.nodeValues.map Prod.fst

end Search

/-- The moments and the downstream capacitance that a call returns. -/
structure Reduced where
  y : Moments ℚ
  dwnCap : ℚ
  deriving DecidableEq

namespace Reduced

def ofCap (cap : ℚ) : Reduced := ⟨.cap cap, cap⟩

def addSeries (out : Reduced) (r : ℚ) (below : Reduced) : Reduced :=
  ⟨out.y.add (below.y.series r), out.dwnCap + below.dwnCap⟩

end Reduced

namespace ReduceToPi
variable (red : ReduceToPi N R P)

def resistorMap (node : N) : List R :=
  red.resistors.flatMap fun r => (if red.node1 r = node then [r] else []) ++ if red.node2 r = node then [r] else []

def capacitorMap (node : N) : List (ParasiticCapacitor N) :=
  red.capacitors.flatMap fun c => (if c.node1 = node then [c] else []) ++ if c.node2 = node then [c] else []

def otherNode (resistor : R) (node : N) : N :=
  if node = red.node1 resistor then red.node2 resistor else red.node1 resistor

def pinCapacitance (node : N) : ℚ :=
  match red.pin node with
  | none => 0
  | some pin =>
    if red.pins.libertyPort pin then if red.includesPinCaps then 0 else red.pins.pinCapacitance pin
    else if red.pins.isTopLevelPort pin then red.pins.portExtCap pin else 0

def nodeCap (node : N) : ℚ :=
  red.nodeGndCap node + ((red.capacitorMap node).map (·.value)).sum * red.couplingCapMultiplier +
    red.pinCapacitance node

/-- What a call walked, if it walked anything, goes to the front of the branches. -/
def hang (resistor : R) (onode : N) (branches : Branches N R) : Option (Branches N R) → Branches N R
  | none => branches
  | some below => .cons resistor onode below branches

variable [DecidableEq R]

/-- The loop over the resistors of a node. The branches that were walked are returned beside the values of the
source. -/
def followResistors (dfs : N → Option R → ℚ → Search N R → Option (Reduced × Search N R × Option (Branches N R)))
    (node : N) (fromRes : Option R) (srcResistance : ℚ) : List R → Reduced → Search N R →
    Option (Reduced × Search N R × Branches N R)
  | [], out, s => some (out, s, .nil)
  | resistor :: rest, out, s =>
    if resistor ∈ s.loopResistors then followResistors dfs node fromRes srcResistance rest out s
    else
      let onode := red.otherNode resistor node
      if onode = node ∨ some resistor = fromRes then followResistors dfs node fromRes srcResistance rest out s
      else if onode ∈ s.visitedNodes then
        followResistors dfs node fromRes srcResistance rest out (s.markLoopResistor resistor)
      else
        let r := red.value resistor
        (dfs onode (some resistor) (srcResistance + r) s).bind fun (below, s, walked) =>
          (followResistors dfs node fromRes srcResistance rest (out.addSeries r below) s).map fun (out, s, branches) =>
            (out, s, hang resistor onode branches walked)

/-- The fuel bounds the depth of the calls. -/
def reducePiDfs : ℕ → N → Option R → ℚ → Search N R → Option (Reduced × Search N R × Option (Branches N R))
  | 0, _, _, _, _ => none
  | fuel + 1, node, fromRes, srcResistance, s =>
    if red.isExternal node then some (.ofCap 0, { s with maxResistance := 0 }, none)
    else
      (red.followResistors (reducePiDfs fuel) node fromRes srcResistance (red.resistorMap node)
        (.ofCap (red.nodeCap node))
        (s.enter node srcResistance)).map fun (out, s, branches) => (out, s.finish node out.dwnCap, some branches)

def callDepth : ℕ := 2 * red.resistors.length + 2

def reducePi (drvrNode : N) : Option (Reduced × Search N R × Option (Branches N R)) :=
  red.reducePiDfs red.callDepth drvrNode none 0 .start

end ReduceToPi

structure PiModel where
  c2 : ℚ
  rpi : ℚ
  c1 : ℚ
  deriving DecidableEq

/-- Undefined where the source divides by zero. -/
def piModel (y : Moments ℚ) : Option PiModel :=
  if y.y2 = 0 ∧ y.y3 = 0 then some ⟨0, 0, y.y1⟩
  else if y.y3 = 0 ∨ y.y2 * y.y2 * y.y2 = 0 then none
  else some ⟨y.y1 - y.y2 * y.y2 / y.y3, -y.y3 * y.y3 / (y.y2 * y.y2 * y.y2), y.y2 * y.y2 / y.y3⟩

def ReduceToPi.reduceToPi [DecidableEq R] (red : ReduceToPi N R P) (drvrNode : N) : Option PiModel :=
  (red.reducePi drvrNode).bind fun (out, _, _) => piModel out.y

theorem piModel_passive {y : Moments ℚ} (passive : y.Passive) :
    ∃ pi, piModel y = some pi ∧ pi.c1 + pi.c2 = y.y1 ∧ 0 ≤ pi.c1 ∧ 0 ≤ pi.c2 ∧ 0 ≤ pi.rpi := by
  by_cases zero : y.y2 = 0 ∧ y.y3 = 0
  · exact ⟨⟨0, 0, y.y1⟩, if_pos zero, add_zero _, passive.y1_nonneg, le_rfl, le_rfl⟩
  · have y2 : y.y2 ≠ 0 := fun y2 => zero ⟨y2, passive.vanish y2⟩
    have y3 : y.y3 ≠ 0 := fun y3 => zero ⟨passive.y2_eq_zero y3, y3⟩
    have y3_pos : 0 < y.y3 := lt_of_le_of_ne passive.y3_nonneg y3.symm
    have cube : y.y2 * y.y2 * y.y2 < 0 :=
      mul_neg_of_pos_of_neg (mul_self_pos.2 y2) (lt_of_le_of_ne passive.y2_nonpos y2)
    have defined : ¬(y.y3 = 0 ∨ y.y2 * y.y2 * y.y2 = 0) := not_or.2 ⟨y3, cube.ne⟩
    have bound : y.y2 * y.y2 / y.y3 ≤ y.y1 := (div_le_iff₀ y3_pos).2 passive.sq_le
    have square : -y.y3 * y.y3 ≤ 0 := by nlinarith
    unfold piModel
    rw [if_neg zero,if_neg defined]
    exact ⟨_, rfl, add_sub_cancel _ _, div_nonneg (mul_self_nonneg _) passive.y3_nonneg, sub_nonneg.2 bound,
      div_nonneg_of_nonpos square cube.le⟩

end GTPower.ReduceParasitics
