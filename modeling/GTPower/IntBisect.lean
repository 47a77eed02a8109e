import GTPower.Bisect

/-! The half-open search over integers. It is the search over naturals seen from the left end of the range. -/
namespace GTPower.Bisect

/-- The loop `while (left < right)` with a bound on its rounds. -/
def searchInt (below : Int → Bool) : Nat → Int → Int → Int
  | 0, _, right => right
  | fuel + 1, left, right =>
    if left < right then
      let mid := left + (right - left) / 2
      if below mid then searchInt below fuel (mid + 1) right else searchInt below fuel left mid
    else right

def lowerBoundInt (below : Int → Bool) (left right : Int) : Int := searchInt below (right - left).toNat left right

/-- Once `below` fails inside the range it keeps failing. -/
def PartitionedInt (below : Int → Bool) (left right : Int) : Prop :=
  ∀ i j, left ≤ i → i ≤ j → j < right → below j → below i

theorem searchInt_eq (below : Int → Bool) (base : Int) (fuel left right : Nat) :
    searchInt below fuel (base + left) (base + right) = base + search (fun k => below (base + k)) fuel left right := by
  induction fuel generalizing left right with
  | zero => rfl
  | succ fuel ih =>
    by_cases more : left < right
    · have middle : base + left + (base + right - (base + left)) / 2 = base + (left + (right - left) / 2 : Nat) := by
        omega
      have after : base + ((left + (right - left) / 2 : Nat) : Int) + 1 = base +
        (left + (right - left) / 2 + 1 : Nat) := by
        omega
      rw [searchInt,search,if_pos (by omega),if_pos more]
      dsimp only
      rw [middle,after,ih,ih]
      split <;> rfl
    · rw [searchInt,search,if_neg (by omega),if_neg more]

theorem lowerBoundInt_eq (order : left ≤ right) : lowerBoundInt below left right =
    left + lowerBound (fun k => below (left + k)) 0 (right - left).toNat := by
  have shifted := searchInt_eq below left (right - left).toNat 0 (right - left).toNat
  have last : left + ((right - left).toNat : Int) = right := by omega
  rw [last,Int.natCast_zero,add_zero] at shifted
  exact shifted

theorem lowerBoundInt_of_le (empty : right ≤ left) : lowerBoundInt below left right = right := by
  have rounds : (right - left).toNat = 0 := by omega
  rw [lowerBoundInt,rounds,searchInt]

theorem lowerBoundInt_natCast (below : Int → Bool) (left right : Nat) :
    lowerBoundInt below left right = lowerBound (fun k => below k) left right := by
  have rounds : ((right : Int) - left).toNat = right - left := by omega
  have same := searchInt_eq below 0 (right - left) left right
  simp only [zero_add] at same
  rw [lowerBoundInt,rounds,same,lowerBound]

section Spec
variable {below : Int → Bool} {left right : Int}

theorem PartitionedInt.shift (split : PartitionedInt below left right) (order : left ≤ right) :
    Partitioned (fun k => below (left + k)) 0 (right - left).toNat := by
  intro i j _ less inside before
  exact split (left + i) (left + j) (by omega) (by omega) (by omega) before

theorem le_lowerBoundInt (order : left ≤ right) : left ≤ lowerBoundInt below left right := by
  rw [lowerBoundInt_eq order]
  omega

theorem lowerBoundInt_le (split : PartitionedInt below left right) (order : left ≤ right) :
    lowerBoundInt below left right ≤ right := by
  have bound := lowerBound_le (split.shift order) (Nat.zero_le _)
  rw [lowerBoundInt_eq order]
  omega

/-- Inside the range, being left of the found index is the same as satisfying the predicate. -/
theorem lt_lowerBoundInt_iff (split : PartitionedInt below left right) (low : left ≤ i) (high : i < right) :
    i < lowerBoundInt below left right ↔ below i := by
  have found := lt_lowerBound_iff (split.shift (by omega)) (Nat.zero_le (i - left).toNat) (by omega)
  have here : left + ((i - left).toNat : Int) = i := by omega
  rw [here] at found
  rw [← found,lowerBoundInt_eq (by omega)]
  omega

/-- For a value that never falls, the search for its first index at or above a target ends at the least such
index of the closed range, and at the right end when there is none. -/
theorem lowerBoundInt_least {f : Int → Int} (mono : Monotone f) (target left right : Int) :
    (∀ i, left ≤ i → i ≤ right → target ≤ f i → IsLeast {i | left ≤ i ∧ i ≤ right ∧ target ≤ f i}
      (lowerBoundInt (fun mid => f mid < target) left right)) ∧
    ((∀ i, left ≤ i → i ≤ right → f i < target) → lowerBoundInt (fun mid => f mid < target) left right = right) := by
  have split : PartitionedInt (fun mid => f mid < target) left right := by
    intro i j _ order _ before
    have := mono order
    simp only [decide_eq_true_eq] at before ⊢
    omega
  constructor
  · intro i low high reached
    have order : left ≤ right := by omega
    have first : left ≤ lowerBoundInt (fun mid => f mid < target) left right := le_lowerBoundInt order
    have last := lowerBoundInt_le split order
    have before : ∀ j, left ≤ j → j < right →
      (j < lowerBoundInt (fun mid => f mid < target) left right ↔ f j < target) :=
      fun j low high => (lt_lowerBoundInt_iff split low high).trans decide_eq_true_iff
    have least : ∀ j, left ≤ j → j ≤ right → target ≤ f j →
      lowerBoundInt (fun mid => f mid < target) left right ≤ j := by
      intro j low high enough
      rcases Int.lt_or_eq_of_le high with inside | rfl
      · have := before j low inside
        omega
      · exact last
    refine ⟨⟨first, last, ?_⟩, fun j ⟨low, high, enough⟩ => least j low high enough⟩
    rcases Int.lt_or_eq_of_le last with inside | ends
    · have := before _ first inside
      omega
    · have same : i = right := by
        have := least i low high reached
        omega
      rw [ends]
      exact same ▸ reached
  · intro none
    rcases Int.lt_or_le left right with order | empty
    · have found := lt_lowerBoundInt_iff split (i := right - 1) (by omega) (by omega)
      have early := none (right - 1) (by omega) (by omega)
      have last := lowerBoundInt_le split (Int.le_of_lt order)
      simp only [decide_eq_true_eq] at found
      omega
    · exact lowerBoundInt_of_le empty

end Spec
end GTPower.Bisect
