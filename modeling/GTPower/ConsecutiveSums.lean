import Mathlib.Algebra.BigOperators.Group.List.Basic
import Mathlib.Logic.Relation

/-! Sums of a weight over the consecutive entries of a list. Lists are cut anywhere, and entries that repeat the one
before them are put in, without a change of the sum. -/
namespace Consecutive

section Total
variable {β γ : Type*} [AddCommMonoid γ] (weight : β → β → γ)

/-- Weights of the entries with the ones before them, the first one with `prev`. -/
def total : β → List β → γ
  | _, [] => 0
  | prev, entry :: rest => weight prev entry + total entry rest

def final (prev : β) (entries : List β) : β := entries.getLast?.getD prev

@[simp] theorem total_nil (prev : β) : total weight prev [] = 0 := rfl

@[simp] theorem total_cons (prev entry : β) (rest : List β) :
    total weight prev (entry :: rest) = weight prev entry + total weight entry rest := rfl

theorem final_cons (prev entry : β) (rest : List β) : final prev (entry :: rest) = final entry rest := by
  unfold final
  cases rest with
  | nil => rfl
  | cons next rest => simp [List.getLast?_eq_some_getLast]

theorem total_append (prev : β) (front back : List β) :
    total weight prev (front ++ back) = total weight prev front + total weight (final prev front) back := by
  induction front generalizing prev with
  | nil => simp [final]
  | cons entry rest ih => rw [List.cons_append,total_cons,total_cons,ih,final_cons,add_assoc]

theorem total_self (still : ∀ entry, weight entry entry = 0) (entry : β) (rest : List β) :
    total weight entry (entry :: rest) = total weight entry rest := by
  rw [total_cons,still,zero_add]

theorem total_zip (entry : β) (rest : List β) :
    total weight entry rest = (((entry :: rest).zip rest).map fun pair => weight pair.1 pair.2).sum := by
  induction rest generalizing entry with
  | nil => simp
  | cons next rest ih => rw [total_cons,ih,List.zip_cons_cons,List.map_cons,List.sum_cons]

end Total

section Insert
variable {α β γ : Type*} [AddCommMonoid γ] (weight : β → β → γ) (shown : α → β)

/-- One entry is put in that shows the same as the entry before it. -/
inductive Inserted : List α → List α → Prop where
  | intro (front back : List α) (last entry : α) (same : shown entry = shown last) :
    Inserted (front ++ last :: back) (front ++ last :: entry :: back)

variable {shown}

theorem Inserted.head (inserted : Inserted shown entries entries') :
    (entries'.map shown).head? = (entries.map shown).head? := by
  obtain ⟨front, back, last, entry, same⟩ := inserted
  cases front <;> rfl

theorem Inserted.total_eq (still : ∀ value, weight value value = 0) (inserted : Inserted shown entries entries')
    (prev : β) :
    total weight prev (entries'.map shown) = total weight prev (entries.map shown) := by
  obtain ⟨front, back, last, entry, same⟩ := inserted
  rw [List.map_append,List.map_append,total_append,total_append]
  simp only [List.map_cons,total_cons,same,still,zero_add]

end Insert
end Consecutive
