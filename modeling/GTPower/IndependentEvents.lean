import Mathlib.Algebra.BigOperators.Group.Finset.Powerset
import Mathlib.Algebra.BigOperators.Ring.Finset
import Mathlib.Tactic.Ring

/-! Independent bits that are 1 with given probabilities, and the probability of an event of theirs as the sum over the
sets of bits that are 1. -/
namespace Independent

variable {ι R : Type*} [DecidableEq ι] [CommRing R]

/-- Probability that the bits of a set are 1 and the others are 0. -/
def weight (bits : Finset ι) (duty : ι → R) (ones : Finset ι) : R :=
  (∏ bit ∈ ones, duty bit) * ∏ bit ∈ bits \ ones, (1 - duty bit)

/-- The environment in which the bits of a set are 1. -/
def environment (ones : Finset ι) (bit : ι) : Bool := decide (bit ∈ ones)

def probability (bits : Finset ι) (duty : ι → R) (event : (ι → Bool) → Bool) : R :=
  ∑ ones ∈ bits.powerset, if event (environment ones) then weight bits duty ones else 0

variable {bits : Finset ι} {duty : ι → R} {event : (ι → Bool) → Bool} {bit : ι}

theorem probability_empty : probability ∅ duty event = if event fun _ => false then 1 else 0 := by
  have none : environment (∅ : Finset ι) = fun _ => false := by
    funext bit
    simp [environment]
  simp [probability,weight,none]

theorem weight_insert_zero (fresh : bit ∉ bits) (sub : ones ⊆ bits) :
    weight (insert bit bits) duty ones = (1 - duty bit) * weight bits duty ones := by
  have outside : bit ∉ ones := fun mem => fresh (sub mem)
  rw [weight,Finset.insert_sdiff_of_notMem _ outside,Finset.prod_insert fun mem =>
    fresh (Finset.mem_sdiff.mp mem).1,weight]
  ring

theorem weight_insert_one (fresh : bit ∉ bits) (sub : ones ⊆ bits) :
    weight (insert bit bits) duty (insert bit ones) = duty bit * weight bits duty ones := by
  have outside : bit ∉ ones := fun mem => fresh (sub mem)
  rw [weight,Finset.prod_insert outside,Finset.insert_sdiff_insert,Finset.sdiff_insert_of_notMem fresh,weight]
  ring

theorem environment_zero (outside : bit ∉ ones) : Function.update (environment ones) bit false = environment ones := by
  apply Function.update_eq_self_iff.mpr
  simp [environment,outside]

theorem environment_one (ones : Finset ι) (bit : ι) :
    environment (insert bit ones) = Function.update (environment ones) bit true := by
  funext other
  by_cases same : other = bit
  · subst same
    simp [environment]
  · rw [Function.update_of_ne same]
    simp [environment,same]

theorem probability_insert (fresh : bit ∉ bits) : probability (insert bit bits) duty event =
    (1 - duty bit) * probability bits duty (fun env => event (Function.update env bit false)) +
      duty bit * probability bits duty (fun env => event (Function.update env bit true)) := by
  rw [probability,Finset.sum_powerset_insert fresh,probability,probability,Finset.mul_sum,Finset.mul_sum]
  congr 1
  · refine Finset.sum_congr rfl fun ones mem => ?_
    have sub := Finset.mem_powerset.mp mem
    rw [environment_zero fun inside => fresh (sub inside),weight_insert_zero fresh sub,mul_ite,mul_zero]
  · refine Finset.sum_congr rfl fun ones mem => ?_
    rw [environment_one,weight_insert_one fresh (Finset.mem_powerset.mp mem),mul_ite,mul_zero]

theorem probability_true (bits : Finset ι) (duty : ι → R) : probability bits duty (fun _ => true) = 1 := by
  induction bits using Finset.induction_on with
  | empty => rw [probability_empty,if_pos rfl]
  | insert bit bits fresh ih =>
    rw [probability_insert fresh,ih]
    ring

theorem probability_not (bits : Finset ι) (duty : ι → R) (event : (ι → Bool) → Bool) :
    probability bits duty (fun env => !event env) = 1 - probability bits duty event := by
  have whole := probability_true bits duty
  rw [eq_sub_iff_add_eq,← whole,probability,probability,probability,← Finset.sum_add_distrib]
  refine Finset.sum_congr rfl fun ones _ => ?_
  cases event (environment ones) <;> simp

theorem probability_false (bits : Finset ι) (duty : ι → R) : probability bits duty (fun _ => false) = 0 := by
  have flipped := probability_not bits duty fun _ => true
  rw [probability_true,sub_self] at flipped
  exact flipped

theorem probability_certain (bits : Finset ι) (env : ι → Bool) (event : (ι → Bool) → Bool) :
    probability bits (fun bit => if env bit then (1 : R) else 0) event =
      if event fun bit => decide (bit ∈ bits) && env bit then 1 else 0 := by
  induction bits using Finset.induction_on generalizing event with
  | empty =>
    rw [probability_empty]
    simp
  | insert bit bits fresh ih =>
    have grown : (fun other => decide (other ∈ insert bit bits) && env other) =
        Function.update (fun other => decide (other ∈ bits) && env other) bit (env bit) := by
      funext other
      by_cases same : other = bit
      · subst same
        simp
      · rw [Function.update_of_ne same]
        simp [same]
    rw [probability_insert fresh,ih,ih,grown]
    cases env bit <;> simp

end Independent
