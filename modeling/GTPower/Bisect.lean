import Mathlib

/-! Half-open binary search for the first index at which a predicate stops holding.
The searched range is explicit, so an empty or inverted range returns its right end. -/
namespace GTPower.Bisect

/-- The loop `while (left < right)` with a bound on its rounds. -/
def search (below : Nat → Bool) : Nat → Nat → Nat → Nat
  | 0, _, right => right
  | fuel + 1, left, right =>
    if left < right then
      let mid := left + (right - left) / 2
      if below mid then search below fuel (mid + 1) right else search below fuel left mid
    else right

def lowerBound (below : Nat → Bool) (left right : Nat) : Nat := search below (right - left) left right

/-- Once `below` fails inside the range it keeps failing. -/
def Partitioned (below : Nat → Bool) (left right : Nat) : Prop :=
  ∀ i j, left ≤ i → i ≤ j → j < right → below j → below i

theorem Partitioned.mono (split : Partitioned below left right) (low : left ≤ left') (high : right' ≤ right) :
    Partitioned below left' right' :=
  fun i j hi hij hj h => split i j (by omega) hij (by omega) h

theorem search_of_le (empty : right ≤ left) : search below fuel left right = right := by
  cases fuel with
  | zero => rfl
  | succ fuel => simp [search,Nat.not_lt.mpr empty]

theorem search_spec (split : Partitioned below left right) (order : left ≤ right) (enough : right - left ≤ fuel) :
    left ≤ search below fuel left right ∧ search below fuel left right ≤ right ∧
    (∀ i, left ≤ i → i < search below fuel left right → below i) ∧
    ∀ i, search below fuel left right ≤ i → i < right → ¬ below i := by
  induction fuel generalizing left right with
  | zero =>
    simp only [search]
    exact ⟨order, Nat.le_refl _, fun i low high => by omega, fun i low high => by omega⟩
  | succ fuel ih =>
    by_cases more : left < right
    · have mid_lt : left + (right - left) / 2 < right := by omega
      by_cases test : below (left + (right - left) / 2)
      · have found := @ih (left + (right - left) / 2 + 1) right (split.mono (by omega) (Nat.le_refl _))
          (by omega) (by omega)
        simp only [search,more,test,if_true]
        refine ⟨by omega, found.2.1, fun i low high => ?_, found.2.2.2⟩
        by_cases early : i ≤ left + (right - left) / 2
        · exact split i _ low early mid_lt test
        · exact found.2.2.1 i (by omega) high
      · have found := @ih left (left + (right - left) / 2) (split.mono (Nat.le_refl _) (by omega))
          (by omega) (by omega)
        simp only [search,more,test,if_true]
        refine ⟨found.1, Nat.le_trans found.2.1 (by omega), found.2.2.1, fun i low high => ?_⟩
        by_cases early : i < left + (right - left) / 2
        · exact found.2.2.2 i low early
        · exact fun h => test (split _ i (by omega) (by omega) high h)
    · rw [search_of_le (by omega)]
      exact ⟨order, Nat.le_refl _, fun i low high => by omega, fun i low high => by omega⟩

theorem lowerBound_of_le (empty : right ≤ left) : lowerBound below left right = right := search_of_le empty

theorem le_lowerBound (split : Partitioned below left right) (order : left ≤ right) :
    left ≤ lowerBound below left right := (search_spec split order (Nat.le_refl _)).1

theorem lowerBound_le (split : Partitioned below left right) (order : left ≤ right) :
    lowerBound below left right ≤ right := (search_spec split order (Nat.le_refl _)).2.1

/-- Inside the range, being left of the found index is the same as satisfying the predicate. -/
theorem lt_lowerBound_iff (split : Partitioned below left right) (low : left ≤ i) (high : i < right) :
    i < lowerBound below left right ↔ below i := by
  have spec := search_spec split (by omega : left ≤ right) (Nat.le_refl (right - left))
  exact ⟨fun h => spec.2.2.1 i low h,
    fun h => Nat.lt_of_not_le fun reached => spec.2.2.2 i reached high h⟩

theorem lowerBound_eq (split : Partitioned below left right) (low : left ≤ k) (high : k ≤ right)
    (before : ∀ i, left ≤ i → i < k → below i) (after : ∀ i, k ≤ i → i < right → ¬ below i) :
    lowerBound below left right = k := by
  have lower := le_lowerBound split (by omega)
  have upper := lowerBound_le split (by omega)
  rcases Nat.lt_trichotomy (lowerBound below left right) k with h | h | h
  · have reached := before _ lower h
    exact absurd ((lt_lowerBound_iff split lower (by omega)).mpr reached) (Nat.lt_irrefl _)
  · exact h
  · exact absurd ((lt_lowerBound_iff split low (by omega)).mp h) (after k (Nat.le_refl _) (by omega))

theorem lowerBound_mono (split : Partitioned below left right) (split' : Partitioned below' left right)
    (order : left ≤ right) (weaker : ∀ i, left ≤ i → i < right → below i → below' i) :
    lowerBound below left right ≤ lowerBound below' left right := by
  have upper := lowerBound_le split' order
  have lower := le_lowerBound split' order
  have bounded := lowerBound_le split order
  apply Nat.le_of_not_lt
  intro h
  have holds := (lt_lowerBound_iff split lower (by omega)).mp h
  exact absurd ((lt_lowerBound_iff split' lower (by omega)).mpr (weaker _ lower (by omega) holds))
    (Nat.lt_irrefl _)

end GTPower.Bisect
