import Mathlib.Algebra.Order.Field.Basic
import Mathlib.Data.Nat.Find
import Mathlib.Tactic.Ring
import Mathlib.Tactic.LinearCombination
import Mathlib.Tactic.Linarith

/-! Piecewise linear interpolation over the points of an axis, extended along the first and the last segment, and its
product over two axes. -/
namespace GTPower.Interpolation

variable {K : Type*}

section Segments
variable [LinearOrder K]

/-- Segment `i`, extended beyond an end of the axis, reaches `t`. -/
structure InSegment (axis : ℕ → K) (size i : ℕ) (t : K) : Prop where
  inside : i + 1 < size
  low : i = 0 ∨ axis i ≤ t
  high : i + 2 = size ∨ t ≤ axis (i + 1)

def Increasing (axis : ℕ → K) (size : ℕ) : Prop := ∀ i j, i < j → j < size → axis i < axis j

/-- The last segment that starts at or below `t`. -/
def segment (axis : ℕ → K) (size : ℕ) (t : K) : ℕ := Nat.findGreatest (fun i => axis i ≤ t) (size - 2)

def IsPoint (xs ys : ℕ → K) (n m : ℕ) (t : K) : Prop := (∃ i < n, t = xs i) ∨ ∃ j < m, t = ys j

variable {axis xs ys : ℕ → K} {size n m i j : ℕ} {p : K}

theorem Increasing.le (increasing : Increasing axis size) (order : i ≤ j) (inside : j < size) : axis i ≤ axis j := by
  rcases Nat.eq_or_lt_of_le order with rfl | less
  · exact le_rfl
  · exact le_of_lt (increasing i j less inside)

theorem segment_le (axis : ℕ → K) (size : ℕ) (t : K) : segment axis size t ≤ size - 2 := Nat.findGreatest_le _

theorem segment_high (several : 2 ≤ size) (axis : ℕ → K) (t : K) :
    segment axis size t + 2 = size ∨ t < axis (segment axis size t + 1) := by
  have within := segment_le axis size t
  rcases Nat.eq_or_lt_of_le within with last | more
  · exact Or.inl (by omega)
  · exact Or.inr (not_le.mp (Nat.findGreatest_is_greatest (P := fun i => axis i ≤ t) (Nat.lt_succ_self _) more))

theorem inSegment_segment (several : 2 ≤ size) (axis : ℕ → K) (t : K) :
    InSegment axis size (segment axis size t) t where
  inside := by
    have within := segment_le axis size t
    omega
  low := by
    by_cases first : segment axis size t = 0
    · exact Or.inl first
    · exact Or.inr (Nat.findGreatest_of_ne_zero rfl first)
  high := (segment_high several axis t).imp_right le_of_lt

/-- A point of one of the axes in a segment of each. -/
structure Common (xs ys : ℕ → K) (n m i j : ℕ) (p : K) : Prop where
  point : IsPoint xs ys n m p
  first : InSegment xs n i p
  second : InSegment ys m j p

theorem Common.symm (common : Common xs ys n m i j p) : Common ys xs m n j i p :=
  ⟨common.point.symm, common.second, common.first⟩

end Segments

section Lines
variable [Field K] {axis value axis' value' : ℕ → K} {i j : ℕ}

/-- The line through the points `i` and `i + 1`. -/
def line (axis value : ℕ → K) (i : ℕ) (t : K) : K :=
  value i + (t - axis i) / (axis (i + 1) - axis i) * (value (i + 1) - value i)

@[simp] theorem line_left (axis value : ℕ → K) (i : ℕ) : line axis value i (axis i) = value i := by simp [line]

theorem line_eq_line {p q : K} (apart : p ≠ q) (atP : line axis value i p = line axis' value' j p)
    (atQ : line axis value i q = line axis' value' j q) (t : K) : line axis value i t = line axis' value' j t := by
  simp only [line,div_eq_mul_inv] at *
  have slope : (value (i + 1) - value i) * (axis (i + 1) - axis i)⁻¹ = (value' (j + 1) - value' j) *
    (axis' (j + 1) - axis' j)⁻¹ := by
    apply mul_left_cancel₀ (sub_ne_zero.mpr apart)
    linear_combination atP - atQ
  linear_combination atP + (t - p) * slope

end Lines

variable [Field K] [LinearOrder K]

def interp (axis value : ℕ → K) (size : ℕ) (t : K) : K :=
  if size = 1 then value 0 else line axis value (segment axis size t) t

/-- Interpolation over the second axis in every row, then over the first axis. -/
def surface (xs ys : ℕ → K) (value : ℕ → ℕ → K) (n m : ℕ) (s t : K) : K :=
  interp xs (fun i => interp ys (value i) m t) n s

section Interp
variable {axis value value' : ℕ → K} {size i j : ℕ} {t : K}

theorem line_right (apart : axis i < axis (i + 1)) : line axis value i (axis (i + 1)) = value (i + 1) := by
  have nonzero : axis (i + 1) - axis i ≠ 0 := sub_ne_zero.mpr apart.ne'
  rw [line,div_self nonzero]
  ring

theorem line_unique [IsStrictOrderedRing K] (increasing : Increasing axis size) (first : InSegment axis size i t)
    (second : InSegment axis size j t) : line axis value i t = line axis value j t := by
  have border : ∀ {i j}, i < j → InSegment axis size i t → InSegment axis size j t →
    line axis value i t = line axis value j t := by
    intro i j less first second
    have inside := second.inside
    have below : t ≤ axis (i + 1) := first.high.resolve_left (by omega)
    have above : axis j ≤ t := second.low.resolve_left (by omega)
    have next : j = i + 1 := by
      by_contra apart
      have := increasing (i + 1) j (by omega) (by omega)
      exact absurd (above.trans below) (not_le.mpr this)
    subst next
    obtain rfl : t = axis (i + 1) := le_antisymm below above
    rw [line_left,line_right (increasing i (i + 1) (Nat.lt_succ_self i) (by omega))]
  rcases Nat.lt_trichotomy i j with less | rfl | more
  · exact border less first second
  · rfl
  · exact (border more second first).symm

@[simp] theorem interp_one (axis value : ℕ → K) (t : K) : interp axis value 1 t = value 0 := if_pos rfl

theorem interp_congr (nonempty : 1 ≤ size) (same : ∀ i < size, value i = value' i) :
    interp axis value size t = interp axis value' size t := by
  rcases Nat.eq_or_lt_of_le nonempty with rfl | several
  · simpa using same 0 Nat.one_pos
  · have inside := (inSegment_segment several axis t).inside
    rw [interp,interp,if_neg several.ne',if_neg several.ne',line,line,same _ (by omega),same _ inside]

theorem interp_const (nonempty : 1 ≤ size) (same : ∀ i < size, value i = c) : interp axis value size t = c := by
  have constant : interp axis (fun _ => c) size t = c := by simp [interp,line]
  rw [interp_congr nonempty same,constant]

variable [IsStrictOrderedRing K]

theorem interp_eq_line (increasing : Increasing axis size) (reached : InSegment axis size i t) :
    interp axis value size t = line axis value i t := by
  have inside := reached.inside
  rw [interp,if_neg (by omega)]
  exact line_unique increasing (inSegment_segment (by omega) axis t) reached

theorem interp_point (increasing : Increasing axis size) (inside : i < size) :
    interp axis value size (axis i) = value i := by
  rcases Nat.lt_or_ge (i + 1) size with more | last
  · have reached : InSegment axis size i (axis i) :=
      ⟨more, Or.inr le_rfl, Or.inr (increasing.le (Nat.le_succ i) more)⟩
    rw [interp_eq_line increasing reached,line_left]
  · cases i with
    | zero =>
      obtain rfl : size = 1 := by omega
      exact interp_one ..
    | succ i =>
      have apart := increasing i (i + 1) (Nat.lt_succ_self i) inside
      have reached : InSegment axis size i (axis (i + 1)) := ⟨inside, Or.inr apart.le, Or.inr le_rfl⟩
      rw [interp_eq_line increasing reached,line_right apart]

theorem interp_const_iff (nonempty : 1 ≤ size) (increasing : Increasing axis size) :
    (∀ s t, interp axis value size s = interp axis value size t) ↔ ∀ i < size, value i = value 0 := by
  constructor
  · intro constant i inside
    have first : interp axis value size (axis 0) = value 0 :=
      interp_point increasing (Nat.lt_of_lt_of_le Nat.one_pos nonempty)
    exact (interp_point increasing inside).symm.trans ((constant _ _).trans first)
  · intro same s t
    rw [interp_const nonempty same,interp_const nonempty same]

end Interp

section Agree
variable [IsStrictOrderedRing K] {xs ys u w : ℕ → K} {value : ℕ → ℕ → K} {n m i j : ℕ}

/-- A segment that ends before another one starts: one of them is extended over the other. -/
theorem common_apart (xsIncreasing : Increasing xs n) (ysIncreasing : Increasing ys m) (inside : i + 1 < n)
    (inside' : j + 1 < m) (high : i + 2 = n ∨ t < xs (i + 1)) (low : j = 0 ∨ ys j ≤ t) (apart : xs (i + 1) ≤ ys j) :
    ∃ p q, p ≠ q ∧ Common xs ys n m i j p ∧ Common xs ys n m i j q := by
  have xsApart := xsIncreasing i (i + 1) (Nat.lt_succ_self i) inside
  have ysApart := ysIncreasing j (j + 1) (Nat.lt_succ_self j) inside'
  rcases high with last | before
  · have reach : ∀ p, ys j ≤ p → InSegment xs n i p := fun p low => ⟨inside, Or.inr (by linarith), Or.inl last⟩
    exact ⟨ys j, ys (j + 1), ysApart.ne,
      ⟨Or.inr ⟨j, by omega, rfl⟩, reach _ le_rfl, ⟨inside', Or.inr le_rfl, Or.inr ysApart.le⟩⟩,
      ⟨Or.inr ⟨j + 1, inside', rfl⟩, reach _ ysApart.le, ⟨inside', Or.inr ysApart.le, Or.inr le_rfl⟩⟩⟩
  · have start : j = 0 := low.resolve_right (by intro low; linarith)
    have reach : ∀ p, p ≤ ys j → InSegment ys m j p := fun p high => ⟨inside', Or.inl start, Or.inr (by linarith)⟩
    exact ⟨xs i, xs (i + 1), xsApart.ne,
      ⟨Or.inl ⟨i, by omega, rfl⟩, ⟨inside, Or.inr le_rfl, Or.inr xsApart.le⟩, reach _ (by linarith)⟩,
      ⟨Or.inl ⟨i + 1, inside, rfl⟩, ⟨inside, Or.inr xsApart.le, Or.inr le_rfl⟩, reach _ apart⟩⟩

theorem common_points (xsIncreasing : Increasing xs n) (ysIncreasing : Increasing ys m) (several : 2 ≤ n)
    (several' : 2 ≤ m) (t : K) :
    ∃ p q, p ≠ q ∧ Common xs ys n m (segment xs n t) (segment ys m t) p ∧
    Common xs ys n m (segment xs n t) (segment ys m t) q := by
  obtain ⟨inside, low, -⟩ := inSegment_segment several xs t
  obtain ⟨inside', low', -⟩ := inSegment_segment several' ys t
  have high := segment_high several xs t
  have high' := segment_high several' ys t
  generalize segment xs n t = i at *
  generalize segment ys m t = j at *
  rcases le_or_gt (xs (i + 1)) (ys j) with left | overlap
  · exact common_apart xsIncreasing ysIncreasing inside inside' high low' left
  rcases le_or_gt (ys (j + 1)) (xs i) with right | overlap'
  · obtain ⟨p, q, apart, atP, atQ⟩ := common_apart ysIncreasing xsIncreasing inside' inside high' low right
    exact ⟨p, q, apart, atP.symm, atQ.symm⟩
  have xsApart := xsIncreasing i (i + 1) (Nat.lt_succ_self i) inside
  have ysApart := ysIncreasing j (j + 1) (Nat.lt_succ_self j) inside'
  have between : ∀ p, IsPoint xs ys n m p → max (xs i) (ys j) ≤ p → p ≤ min (xs (i + 1)) (ys (j + 1)) →
    Common xs ys n m i j p :=
    fun p point low high => ⟨point,
      ⟨inside, Or.inr ((le_max_left ..).trans low), Or.inr (high.trans (min_le_left ..))⟩,
      ⟨inside', Or.inr ((le_max_right ..).trans low), Or.inr (high.trans (min_le_right ..))⟩⟩
  have less : max (xs i) (ys j) < min (xs (i + 1)) (ys (j + 1)) :=
    max_lt (lt_min xsApart overlap') (lt_min overlap ysApart)
  refine ⟨_, _, less.ne, between _ ?_ le_rfl less.le, between _ ?_ less.le le_rfl⟩
  · rcases max_choice (xs i) (ys j) with same | same <;> rw [same]
    · exact Or.inl ⟨i, by omega, rfl⟩
    · exact Or.inr ⟨j, by omega, rfl⟩
  · rcases min_choice (xs (i + 1)) (ys (j + 1)) with same | same <;> rw [same]
    · exact Or.inl ⟨i + 1, inside, rfl⟩
    · exact Or.inr ⟨j + 1, inside', rfl⟩

/-- Interpolations over two axes that agree at the points of both agree everywhere. -/
theorem interp_eq_interp (xsIncreasing : Increasing xs n) (ysIncreasing : Increasing ys m) (nonempty : 1 ≤ n)
    (nonempty' : 1 ≤ m) (agree : ∀ p, IsPoint xs ys n m p → interp xs u n p = interp ys w m p) (t : K) :
    interp xs u n t = interp ys w m t := by
  rcases Nat.eq_or_lt_of_le nonempty with rfl | several
  · rw [interp_one,interp_const nonempty' fun j inside => ?_]
    exact (interp_point ysIncreasing inside).symm.trans ((agree _ (Or.inr ⟨j, inside, rfl⟩)).symm.trans (interp_one ..))
  rcases Nat.eq_or_lt_of_le nonempty' with rfl | several'
  · rw [interp_one,interp_const nonempty fun i inside => ?_]
    exact (interp_point xsIncreasing inside).symm.trans ((agree _ (Or.inl ⟨i, inside, rfl⟩)).trans (interp_one ..))
  obtain ⟨p, q, apart, atP, atQ⟩ := common_points xsIncreasing ysIncreasing several several' t
  have lines : ∀ {p}, Common xs ys n m (segment xs n t) (segment ys m t) p →
      line xs u (segment xs n t) p = line ys w (segment ys m t) p := fun common => by
    rw [← interp_eq_line xsIncreasing common.first,← interp_eq_line ysIncreasing common.second]
    exact agree _ common.point
  rw [interp,interp,if_neg several.ne',if_neg several'.ne']
  exact line_eq_line apart (lines atP) (lines atQ) t

theorem interp_prefix_iff (increasing : Increasing xs n) (nonempty : 1 ≤ m) (short : m ≤ n) :
    (∀ t, interp xs u m t = interp xs u n t) ↔ ∀ i, m ≤ i → i < n → interp xs u m (xs i) = u i := by
  have increasing' : Increasing xs m := fun i j less inside => increasing i j less (by omega)
  constructor
  · intro same i _ inside
    rw [same,interp_point increasing inside]
  · intro extended
    apply interp_eq_interp increasing' increasing nonempty (by omega)
    have atPoint : ∀ i < n, interp xs u m (xs i) = interp xs u n (xs i) := fun i inside => by
      rw [interp_point increasing inside]
      rcases Nat.lt_or_ge i m with low | high
      · exact interp_point increasing' low
      · exact extended i high inside
    rintro p (⟨i, inside, rfl⟩ | ⟨i, inside, rfl⟩)
    · exact atPoint i (by omega)
    · exact atPoint i inside

end Agree

section Surface
variable [IsStrictOrderedRing K] {xs ys : ℕ → K} {value value' : ℕ → ℕ → K} {n m : ℕ}

omit [IsStrictOrderedRing K] in
theorem surface_comm (xs ys : ℕ → K) (value : ℕ → ℕ → K) (n m : ℕ) (s t : K) :
    surface xs ys value n m s t = surface ys xs (fun j i => value i j) m n t s := by
  rw [surface,surface]
  by_cases one : n = 1 <;> by_cases one' : m = 1
  · simp [one,one']
  · simp [one]
  · simp [one']
  · simp only [interp,if_neg one,if_neg one',line]
    ring

omit [IsStrictOrderedRing K] in
theorem surface_congr (nonempty : 1 ≤ n) (nonempty' : 1 ≤ m) (same : ∀ i < n, ∀ j < m, value i j = value' i j)
    (s t : K) :
    surface xs ys value n m s t = surface xs ys value' n m s t :=
  interp_congr nonempty fun i inside => interp_congr nonempty' (same i inside)

theorem surface_point (xsIncreasing : Increasing xs n) (ysIncreasing : Increasing ys m) (inside : i < n)
    (inside' : j < m) :
    surface xs ys value n m (xs i) (ys j) = value i j := by
  rw [surface,interp_point xsIncreasing inside,interp_point ysIncreasing inside']

/-- A surface does not change when its arguments are exchanged if it does not at the points of its axes. -/
theorem surface_symm_iff (xsIncreasing : Increasing xs n) (ysIncreasing : Increasing ys m) (nonempty : 1 ≤ n)
    (nonempty' : 1 ≤ m) :
    (∀ s t, surface xs ys value n m s t = surface xs ys value n m t s) ↔
      ∀ p q, IsPoint xs ys n m p → IsPoint xs ys n m q → surface xs ys value n m p q = surface xs ys value n m q p := by
  refine ⟨fun symm p q _ _ => symm p q, fun points => ?_⟩
  -- At a point as second argument both sides are interpolations in the first one.
  have atPoint : ∀ q, IsPoint xs ys n m q → ∀ s, surface xs ys value n m s q = surface xs ys value n m q s := by
    intro q point s
    rw [surface_comm xs ys value n m q s]
    apply interp_eq_interp xsIncreasing ysIncreasing nonempty nonempty'
    intro p point'
    have same := points p q point' point
    rwa [surface_comm xs ys value n m q p] at same
  intro s t
  symm
  rw [surface_comm xs ys value n m s t]
  apply interp_eq_interp xsIncreasing ysIncreasing nonempty nonempty'
  intro q point
  have same := (atPoint q point s).symm
  rwa [surface_comm xs ys value n m s q] at same

theorem surface_first_iff (xsIncreasing : Increasing xs n) (ysIncreasing : Increasing ys m) (nonempty : 1 ≤ n)
    (nonempty' : 1 ≤ m) :
    (∀ s t, surface xs ys value n m s t = surface xs ys value n m s s) ↔ ∀ i < n, ∀ j < m, value i j = value i 0 := by
  constructor
  · intro constant i inside j inside'
    have first := (constant (xs i) (ys j)).trans (constant (xs i) (ys 0)).symm
    rwa [surface_point xsIncreasing ysIncreasing inside inside',
      surface_point xsIncreasing ysIncreasing inside (by omega)] at first
  · intro rows s t
    apply interp_congr nonempty
    intro i inside
    rw [interp_const nonempty' (rows i inside),interp_const nonempty' (rows i inside)]

theorem surface_second_iff (xsIncreasing : Increasing xs n) (ysIncreasing : Increasing ys m) (nonempty : 1 ≤ n)
    (nonempty' : 1 ≤ m) :
    (∀ s t, surface xs ys value n m s t = surface xs ys value n m t t) ↔ ∀ j < m, ∀ i < n, value i j = value 0 j := by
  have rows : (∀ s t, surface ys xs (fun j i => value i j) m n s t = surface ys xs (fun j i => value i j) m n s s) ↔
    _ :=
    surface_first_iff ysIncreasing xsIncreasing nonempty' nonempty
  rw [← rows]
  simp only [surface_comm xs ys value]
  exact ⟨fun constant s t => constant t s, fun constant s t => constant t s⟩

end Surface

end GTPower.Interpolation
