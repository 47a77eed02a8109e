import Mathlib.Algebra.Order.Field.Basic
import Mathlib.Algebra.BigOperators.Group.List.Basic
import Mathlib.Tactic.Linarith
import Mathlib.Tactic.Ring

/-! Trees of resistors with a capacitance at each node: the moments of their admittance, and the capacitances below
their resistors. -/
namespace GTPower.RcTrees

@[ext]
structure Moments (K : Type*) where
  y1 : K
  y2 : K
  y3 : K
  deriving DecidableEq

namespace Moments
variable {K : Type*} [Field K]

def cap (c : K) : Moments K := ⟨c, 0, 0⟩

def add (m m' : Moments K) : Moments K := ⟨m.y1 + m'.y1, m.y2 + m'.y2, m.y3 + m'.y3⟩

def series (m : Moments K) (r : K) : Moments K :=
  ⟨m.y1, m.y2 - r * m.y1 * m.y1, m.y3 - 2 * r * m.y1 * m.y2 + r * r * m.y1 * m.y1 * m.y1⟩

theorem add_assoc (m m' m'' : Moments K) : (m.add m').add m'' = m.add (m'.add m'') := by
  ext <;> simp [add] <;> ring

theorem add_cap_zero (m : Moments K) : m.add (cap 0) = m := by
  ext <;> simp [add,cap]

variable [LinearOrder K] [IsStrictOrderedRing K]

/-- Moments of nonnegative resistances and capacitances. -/
structure Passive (m : Moments K) : Prop where
  y1_nonneg : 0 ≤ m.y1
  y2_nonpos : m.y2 ≤ 0
  y3_nonneg : 0 ≤ m.y3
  sq_le : m.y2 * m.y2 ≤ m.y1 * m.y3
  vanish : m.y2 = 0 → m.y3 = 0

variable {m m' : Moments K}

omit [IsStrictOrderedRing K] in
theorem passive_cap {c : K} (nonneg : 0 ≤ c) : (cap c).Passive where
  y1_nonneg := nonneg
  y2_nonpos := le_rfl
  y3_nonneg := le_rfl
  sq_le := by simp [cap]
  vanish _ := rfl

theorem mul_le_of_sq_le {a b c d e f : K} (a0 : 0 ≤ a) (c0 : 0 ≤ c) (d0 : 0 ≤ d) (f0 : 0 ≤ f) (first : b * b ≤ a * c)
    (second : e * e ≤ d * f) : 2 * (b * e) ≤ a * f + d * c := by
  have mean : 0 ≤ a * f + d * c := by positivity
  have square : (2 * (b * e)) ^ 2 ≤ (a * f + d * c) ^ 2 := by
    have product : (b * b) * (e * e) ≤ (a * c) * (d * f) :=
      mul_le_mul first second (mul_self_nonneg e) (mul_nonneg a0 c0)
    calc (2 * (b * e)) ^ 2 = 4 * ((b * b) * (e * e)) := by ring
      _ ≤ 4 * ((a * c) * (d * f)) := by linarith
      _ ≤ (a * f + d * c) ^ 2 := by nlinarith [sq_nonneg (a * f - d * c)]
  exact le_of_sq_le_sq square mean

theorem Passive.add (passive : m.Passive) (passive' : m'.Passive) : (m.add m').Passive where
  y1_nonneg := add_nonneg passive.y1_nonneg passive'.y1_nonneg
  y2_nonpos := add_nonpos passive.y2_nonpos passive'.y2_nonpos
  y3_nonneg := add_nonneg passive.y3_nonneg passive'.y3_nonneg
  sq_le := by
    have cross := mul_le_of_sq_le passive.y1_nonneg passive.y3_nonneg passive'.y1_nonneg passive'.y3_nonneg
      passive.sq_le passive'.sq_le
    simp only [Moments.add]
    linarith [passive.sq_le, passive'.sq_le]
  vanish sum := by
    have first : m.y2 = 0 := by
      have total : m.y2 + m'.y2 = 0 := sum
      linarith [passive.y2_nonpos, passive'.y2_nonpos]
    have second : m'.y2 = 0 := by
      have total : m.y2 + m'.y2 = 0 := sum
      linarith [passive.y2_nonpos, passive'.y2_nonpos]
    show m.y3 + m'.y3 = 0
    rw [passive.vanish first,passive'.vanish second,add_zero]

theorem Passive.series (passive : m.Passive) {r : K} (nonneg : 0 ≤ r) : (m.series r).Passive where
  y1_nonneg := passive.y1_nonneg
  y2_nonpos := by
    have drop : 0 ≤ r * m.y1 * m.y1 := mul_nonneg (mul_nonneg nonneg passive.y1_nonneg) passive.y1_nonneg
    have below := passive.y2_nonpos
    simp only [Moments.series]
    linarith
  y3_nonneg := by
    have first : 0 ≤ r * m.y1 * -m.y2 :=
      mul_nonneg (mul_nonneg nonneg passive.y1_nonneg) (neg_nonneg.2 passive.y2_nonpos)
    have second : 0 ≤ r * r * m.y1 * m.y1 * m.y1 := by
      have y1 := passive.y1_nonneg
      positivity
    have y3 := passive.y3_nonneg
    simp only [Moments.series]
    linarith
  sq_le := by
    have sq := passive.sq_le
    simp only [Moments.series]
    nlinarith
  vanish sum := by
    have drop : 0 ≤ r * m.y1 * m.y1 := mul_nonneg (mul_nonneg nonneg passive.y1_nonneg) passive.y1_nonneg
    have below := passive.y2_nonpos
    have total : m.y2 - r * m.y1 * m.y1 = 0 := sum
    have y2 : m.y2 = 0 := by linarith
    have none : r * m.y1 * m.y1 = 0 := by linarith
    simp only [Moments.series]
    rw [passive.vanish y2,y2]
    calc 0 - 2 * r * m.y1 * 0 + r * r * m.y1 * m.y1 * m.y1 = r * m.y1 * (r * m.y1 * m.y1) := by ring
      _ = 0 := by rw [none,mul_zero]

theorem Passive.y2_eq_zero (passive : m.Passive) (y3 : m.y3 = 0) : m.y2 = 0 := by
  have sq := passive.sq_le
  rw [y3,mul_zero] at sq
  exact mul_self_eq_zero.1 (le_antisymm sq (mul_self_nonneg _))

end Moments

/-- What hangs at a node: resistors, the nodes they lead to, and what hangs at these. -/
inductive Branches (N R : Type*)
  | nil
  | cons (resistor : R) (node : N) (below rest : Branches N R)
  deriving DecidableEq

namespace Branches
variable {N R K : Type*}

def nodes : Branches N R → List N
  | nil => []
  | cons _ node below rest => node :: (nodes below ++ nodes rest)

def resistors : Branches N R → List R
  | nil => []
  | cons resistor _ below rest => resistor :: (resistors below ++ resistors rest)

variable [Field K] (capacitance : N → K) (resistance : R → K)

def total : Branches N R → K
  | nil => 0
  | cons _ node below rest => capacitance node + total below + total rest

def moments : Branches N R → Moments K
  | nil => .cap 0
  | cons resistor node below rest =>
    (((Moments.cap (capacitance node)).add (moments below)).series (resistance resistor)).add (moments rest)

/-- Every node with the capacitance at or below it. -/
def loads : Branches N R → List (N × K)
  | nil => []
  | cons _ node below rest => (node, capacitance node + total capacitance below) :: (loads below ++ loads rest)

/-- Every node with the resistors on the path to it, each with the capacitance at or below it. -/
def paths : Branches N R → List (N × List (R × K))
  | nil => []
  | cons resistor node below rest =>
    let step := (resistor, capacitance node + total capacitance below)
    (node, [step]) :: ((paths below).map fun path => (path.1, step :: path.2)) ++ paths rest

theorem total_eq_sum (b : Branches N R) : b.total capacitance = (b.nodes.map capacitance).sum := by
  induction b with
  | nil => rfl
  | cons resistor node below rest ihb ihr =>
    simp only [total,nodes,List.map_cons,List.map_append,List.sum_cons,List.sum_append,ihb,ihr]
    ring

theorem moments_y1 (b : Branches N R) : (b.moments capacitance resistance).y1 = b.total capacitance := by
  induction b with
  | nil => rfl
  | cons resistor node below rest ihb ihr => simp [moments,total,Moments.add,Moments.series,Moments.cap,ihb,ihr]

theorem loads_fst (b : Branches N R) : (b.loads capacitance).map Prod.fst = b.nodes := by
  induction b with
  | nil => rfl
  | cons resistor node below rest ihb ihr => simp [loads,nodes,ihb,ihr]

variable [LinearOrder K] [IsStrictOrderedRing K] {capacitance resistance}

theorem moments_passive (caps : ∀ n, 0 ≤ capacitance n) (b : Branches N R)
    (ress : ∀ r ∈ b.resistors, 0 ≤ resistance r) :
    (b.moments capacitance resistance).Passive := by
  induction b with
  | nil => exact Moments.passive_cap le_rfl
  | cons resistor node below rest ihb ihr =>
    simp only [resistors,List.mem_cons,List.mem_append,forall_eq_or_imp] at ress
    obtain ⟨here, others⟩ := ress
    have atNode := (Moments.passive_cap (caps node)).add (ihb fun r mem => others r (.inl mem))
    exact (atNode.series here).add (ihr fun r mem => others r (.inr mem))

end Branches

end GTPower.RcTrees
