import Mathlib.Data.List.Basic
import Mathlib.Order.Basic
import Mathlib.Order.Lattice

/-! Two chains of falling levels, walked down side by side until they are at the same key. The higher of the two moves,
both when they are level. -/
namespace GTPower.TwoWalks

section Meet
variable {α κ : Type*} [DecidableEq κ] (key : α → κ) (level : α → Int)

def meet : List α → List α → Option (α × α)
  | [], _ => none
  | _ :: _, [] => none
  | a :: as, b :: bs =>
    if key a = key b then some (a, b)
    else if level a < level b then meet (a :: as) bs
    else if level b < level a then meet as (b :: bs)
    else meet as bs
  termination_by as bs => as.length + bs.length

/-- Levels fall strictly along the chain. -/
def Falling (as : List α) : Prop := as.Pairwise fun a b => level b < level a

variable {key level}

theorem Falling.tail (falling : Falling level (a :: as)) : Falling level as := (List.pairwise_cons.mp falling).2

theorem Falling.head (falling : Falling level (a :: as)) (mem : c ∈ a :: as) : c = a ∨ c ∈ as ∧ level c < level a := by
  rcases List.mem_cons.mp mem with rfl | later
  · exact Or.inl rfl
  · exact Or.inr ⟨later, (List.pairwise_cons.mp falling).1 c later⟩

theorem Falling.le_head (falling : Falling level (a :: as)) (mem : c ∈ a :: as) : level c ≤ level a := by
  rcases falling.head mem with rfl | ⟨-, less⟩
  · exact Int.le_refl _
  · exact Int.le_of_lt less

theorem meet_swap (as bs : List α) : meet key level bs as = (meet key level as bs).map Prod.swap := by
  fun_induction meet key level as bs with
  | case1 bs => cases bs <;> simp [meet]
  | case2 a as => simp [meet]
  | case3 a as b bs same =>
    rw [meet,if_pos same.symm]
    rfl
  | case4 a as b bs differ less ih => rw [meet,if_neg (Ne.symm differ),if_neg (by omega),if_pos less,ih]
  | case5 a as b bs differ notLess less ih => rw [meet,if_neg (Ne.symm differ),if_pos less,ih]
  | case6 a as b bs differ notLess notGreater ih =>
    rw [meet,if_neg (Ne.symm differ),if_neg notGreater,if_neg notLess,ih]

theorem mem_of_meet (as bs : List α) (met : meet key level as bs = some (a', b')) : a' ∈ as ∧ b' ∈ bs ∧
    key a' = key b' := by
  fun_induction meet key level as bs with
  | case1 bs => cases met
  | case2 a as => cases met
  | case3 a as b bs same =>
    obtain ⟨rfl, rfl⟩ := Prod.mk.inj (Option.some.inj met)
    exact ⟨List.mem_cons_self .., List.mem_cons_self .., same⟩
  | case4 a as b bs _ _ ih =>
    obtain ⟨left, right, same⟩ := ih met
    exact ⟨left, List.mem_cons_of_mem _ right, same⟩
  | case5 a as b bs _ _ _ ih =>
    obtain ⟨left, right, same⟩ := ih met
    exact ⟨List.mem_cons_of_mem _ left, right, same⟩
  | case6 a as b bs _ _ _ ih =>
    obtain ⟨left, right, same⟩ := ih met
    exact ⟨List.mem_cons_of_mem _ left, List.mem_cons_of_mem _ right, same⟩

theorem meet_of_level (as bs : List α) (falling : Falling level as) (falling' : Falling level bs) (mem : c ∈ as)
    (mem' : d ∈ bs) (same : key c = key d) (level' : level c = level d) :
    ∃ a b, meet key level as bs = some (a, b) ∧ level c ≤ level a ∧ level d ≤ level b := by
  fun_induction meet key level as bs with
  | case1 bs => exact absurd mem List.not_mem_nil
  | case2 a as => exact absurd mem' List.not_mem_nil
  | case3 a as b bs met => exact ⟨a, b, rfl, falling.le_head mem, falling'.le_head mem'⟩
  | case4 a as b bs _ less ih =>
    have low := falling.le_head mem
    rcases falling'.head mem' with rfl | ⟨later, -⟩
    · omega
    · exact ih falling falling'.tail mem later
  | case5 a as b bs _ _ less ih =>
    have low := falling'.le_head mem'
    rcases falling.head mem with rfl | ⟨later, -⟩
    · omega
    · exact ih falling.tail falling' later mem'
  | case6 a as b bs differ _ _ ih =>
    rcases falling.head mem with rfl | ⟨later, less⟩
    · rcases falling'.head mem' with rfl | ⟨-, less'⟩
      · exact absurd same differ
      · omega
    · rcases falling'.head mem' with rfl | ⟨later', -⟩
      · omega
      · exact ih falling.tail falling'.tail later later'

/-- Where the two chains have their shared keys at one level each, the walks end at the highest of them. -/
theorem meet_highest (falling : Falling level as) (falling' : Falling level bs)
    (aligned : ∀ c ∈ as, ∀ d ∈ bs, key c = key d → level c = level d) :
    (∀ a b, meet key level as bs = some (a, b) → ∀ c ∈ as, ∀ d ∈ bs, key c = key d → level c ≤ level a ∧
    level d ≤ level b) ∧
    (meet key level as bs = none → ∀ c ∈ as, ∀ d ∈ bs, key c ≠ key d) := by
  have reached := fun c mem d mem' same => meet_of_level as bs falling falling' mem mem' same
    (aligned c mem d mem' same)
  constructor
  · intro a b met c mem d mem' same
    obtain ⟨a', b', met', left, right⟩ := reached c mem d mem' same
    obtain ⟨rfl, rfl⟩ := Prod.mk.inj (Option.some.inj (met.symm.trans met'))
    exact ⟨left, right⟩
  · intro none c mem d mem' same
    obtain ⟨a, b, met, -⟩ := reached c mem d mem' same
    rw [none] at met
    cases met

end Meet
end GTPower.TwoWalks
