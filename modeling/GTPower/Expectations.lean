import Mathlib.Algebra.Order.BigOperators.Ring.Finset
import Mathlib.Algebra.BigOperators.Field
import GTPower.IndependentEvents

/-! Means of values over independent bits. -/
namespace Independent

section Means
variable {ι R : Type*} [DecidableEq ι] [CommRing R] {bits wider : Finset ι} {duty : ι → R}

/-- Mean of a value over the environments of some bits. -/
def expectation (bits : Finset ι) (duty : ι → R) (value : (ι → Bool) → R) : R :=
  ∑ ones ∈ bits.powerset, weight bits duty ones * value (environment ones)

theorem probability_eq_expectation (event : (ι → Bool) → Bool) :
    probability bits duty event = expectation bits duty fun env => if event env then 1 else 0 := by
  refine Finset.sum_congr rfl fun ones _ => ?_
  dsimp only
  split
  · rw [mul_one]
  · rw [mul_zero]

theorem weight_congr {duty' : ι → R} (same : ∀ bit ∈ bits, duty bit = duty' bit) {ones : Finset ι} (sub : ones ⊆ bits) :
    weight bits duty ones = weight bits duty' ones := by
  rw [weight,weight]
  congr 1
  · exact Finset.prod_congr rfl fun bit mem => same bit (sub mem)
  · exact Finset.prod_congr rfl fun bit mem => by rw [same bit (Finset.mem_sdiff.1 mem).1]

theorem probability_congr {duty' : ι → R} {event : (ι → Bool) → Bool} (same : ∀ bit ∈ bits, duty bit = duty' bit) :
    probability bits duty event = probability bits duty' event := by
  refine Finset.sum_congr rfl fun ones mem => ?_
  rw [weight_congr same (Finset.mem_powerset.1 mem)]

theorem expectation_const (value : R) : expectation bits duty (fun _ => value) = value := by
  have whole := probability_true bits duty
  simp only [probability,if_true] at whole
  rw [expectation,← Finset.sum_mul,whole,one_mul]

theorem expectation_add (first second : (ι → Bool) → R) :
    expectation bits duty (fun env => first env + second env) = expectation bits duty first +
    expectation bits duty second := by
  rw [expectation,expectation,expectation,← Finset.sum_add_distrib]
  exact Finset.sum_congr rfl fun ones _ => mul_add _ _ _

theorem expectation_mul (factor : R) (value : (ι → Bool) → R) :
    expectation bits duty (fun env => factor * value env) = factor * expectation bits duty value := by
  rw [expectation,expectation,Finset.mul_sum]
  exact Finset.sum_congr rfl fun ones _ => mul_left_comm _ _ _

theorem expectation_sub_const (whole : R) (value : (ι → Bool) → R) :
    expectation bits duty (fun env => whole - value env) = whole - expectation bits duty value := by
  have negated : expectation bits duty _ = _ := expectation_mul (-1) value
  have added : expectation bits duty _ = _ := expectation_add (fun _ => whole) fun env => -1 * value env
  rw [expectation_const,negated] at added
  simp only [neg_one_mul,← sub_eq_add_neg] at added
  exact added

theorem expectation_list {β : Type*} (items : List β) (value : β → (ι → Bool) → R) :
    expectation bits duty (fun env => (items.map fun item => value item env).sum) =
    (items.map fun item => expectation bits duty (value item)).sum := by
  induction items with
  | nil => exact expectation_const 0
  | cons item rest ih =>
    simp only [List.map_cons,List.sum_cons]
    rw [expectation_add,ih]

theorem probability_grow (sub : bits ⊆ wider) (event : (ι → Bool) → Bool)
    (locally : ∀ env env', (∀ bit ∈ bits, env bit = env' bit) → event env = event env') :
    probability wider duty event = probability bits duty event := by
  obtain ⟨more, apart, rfl⟩ : ∃ more, Disjoint bits more ∧ bits ∪ more = wider :=
    ⟨wider \ bits, Finset.disjoint_sdiff, Finset.union_sdiff_of_subset sub⟩
  clear sub
  induction more using Finset.induction_on with
  | empty => rw [Finset.union_empty]
  | insert bit more fresh ih =>
    rw [Finset.disjoint_insert_right] at apart
    have outside : bit ∉ bits ∪ more := by simp [apart.1,fresh]
    have same : ∀ value, (fun env => event (Function.update env bit value)) = event := by
      intro value
      funext env
      refine locally _ _ fun other mem => Function.update_of_ne ?_ _ _
      rintro rfl
      exact apart.1 mem
    rw [Finset.union_insert,probability_insert outside,same,same,ih apart.2]
    ring

end Means

section Bounds
variable {ι R : Type*} [DecidableEq ι] [CommRing R] [LinearOrder R] [IsStrictOrderedRing R] {bits : Finset ι}
    {duty : ι → R}
  {value : (ι → Bool) → R} {bound : R}

theorem weight_nonneg (duties : ∀ bit ∈ bits, 0 ≤ duty bit ∧ duty bit ≤ 1) {ones : Finset ι} (sub : ones ⊆ bits) :
    0 ≤ weight bits duty ones := by
  refine mul_nonneg (Finset.prod_nonneg fun bit mem => (duties bit (sub mem)).1) (Finset.prod_nonneg fun bit mem => ?_)
  exact sub_nonneg.mpr (duties bit (Finset.mem_sdiff.1 mem).1).2

theorem expectation_le (duties : ∀ bit ∈ bits, 0 ≤ duty bit ∧ duty bit ≤ 1) (most : ∀ env, value env ≤ bound) :
    expectation bits duty value ≤ bound := by
  calc expectation bits duty value ≤ expectation bits duty (fun _ => bound) := by
        refine Finset.sum_le_sum fun ones mem => ?_
        exact mul_le_mul_of_nonneg_left (most _) (weight_nonneg duties (Finset.mem_powerset.1 mem))
    _ = bound := expectation_const bound

theorem le_expectation (duties : ∀ bit ∈ bits, 0 ≤ duty bit ∧ duty bit ≤ 1) (least : ∀ env, bound ≤ value env) :
    bound ≤ expectation bits duty value := by
  calc bound = expectation bits duty (fun _ => bound) := (expectation_const bound).symm
    _ ≤ expectation bits duty value := by
        refine Finset.sum_le_sum fun ones mem => ?_
        exact mul_le_mul_of_nonneg_left (least _) (weight_nonneg duties (Finset.mem_powerset.1 mem))

end Bounds

end Independent
