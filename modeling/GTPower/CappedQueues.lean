import Mathlib.Algebra.Order.BigOperators.Group.Finset
import Mathlib.Data.List.Sort
import Mathlib.Logic.Function.Basic

/-! Sorted queues whose elements are taken one after the other, at most so many of each kind. Elements may be dropped
from a queue that are refused when it is their turn, or whose turn comes after as many are taken as are wanted. -/
namespace GTPower.CappedQueues

section Counts
variable {κ : Type*} [DecidableEq κ]

def bump (counts : κ → ℕ) (k : κ) : κ → ℕ := Function.update counts k (counts k + 1)

variable {cap limit : ℕ} {counts counts' : κ → ℕ} {j k : κ}

@[simp] theorem bump_self : bump counts k k = counts k + 1 := by simp [bump]

@[simp] theorem bump_of_ne (distinct : j ≠ k) : bump counts k j = counts j := by simp [bump,distinct]

theorem le_bump (counts : κ → ℕ) (k j : κ) : counts j ≤ bump counts k j := by
  by_cases same : j = k
  · subst same
    simp
  · simp [same]

theorem bump_mono (below : ∀ j, counts j ≤ counts' j) (k j : κ) : bump counts k j ≤ bump counts' k j := by
  by_cases same : j = k
  · subst same
    simpa using below j
  · simpa [same] using below j

theorem bump_comm (counts : κ → ℕ) (j k : κ) : bump (bump counts j) k = bump (bump counts k) j := by
  by_cases same : j = k
  · rw [same]
  · have apart := Ne.symm same
    rw [bump,bump_of_ne apart,bump,bump,bump_of_ne same]
    exact Function.update_comm same ..

def taken (cap : ℕ) (counts : κ → ℕ) (kinds : Finset κ) : ℕ := ∑ k ∈ kinds, min cap (counts k)

omit [DecidableEq κ] in
theorem taken_mono (below : ∀ j, counts j ≤ counts' j) (kinds : Finset κ) :
    taken cap counts kinds ≤ taken cap counts' kinds :=
  Finset.sum_le_sum fun j _ => min_le_min_left cap (below j)

omit [DecidableEq κ] in
theorem taken_congr (same : ∀ j, min cap (counts j) = min cap (counts' j)) (kinds : Finset κ) :
    taken cap counts kinds = taken cap counts' kinds :=
  Finset.sum_congr rfl fun j _ => same j

theorem min_bump_of_le (full : cap ≤ counts k) (j : κ) : min cap (bump counts k j) = min cap (counts j) := by
  by_cases same : j = k
  · subst same
    rw [bump_self,min_eq_left full,min_eq_left (full.trans (Nat.le_succ _))]
  · rw [bump_of_ne same]

theorem min_bump_congr (same : ∀ j, min cap (counts j) = min cap (counts' j)) (k j : κ) :
    min cap (bump counts k j) = min cap (bump counts' k j) := by
  by_cases here : j = k
  · subst here
    have equal := same j
    rw [bump_self,bump_self]
    omega
  · rw [bump_of_ne here,bump_of_ne here]
    exact same j

theorem taken_bump_le (counts : κ → ℕ) (k : κ) (kinds : Finset κ) :
    taken cap (bump counts k) kinds ≤ taken cap counts kinds + 1 := by
  have others : ∀ j ≠ k, min cap (bump counts k j) = min cap (counts j) := fun j distinct => by rw [bump_of_ne distinct]
  unfold taken
  by_cases mem : k ∈ kinds
  · have after := Finset.add_sum_erase kinds (fun j => min cap (bump counts k j)) mem
    have before := Finset.add_sum_erase kinds (fun j => min cap (counts j)) mem
    have rest : ∑ j ∈ kinds.erase k, min cap (bump counts k j) = ∑ j ∈ kinds.erase k, min cap (counts j) :=
      Finset.sum_congr rfl fun j mem' => others j (Finset.ne_of_mem_erase mem')
    simp only [bump_self] at after
    omega
  · have rest : ∑ j ∈ kinds, min cap (bump counts k j) = ∑ j ∈ kinds, min cap (counts j) :=
      Finset.sum_congr rfl fun j mem' => others j (ne_of_mem_of_not_mem mem' mem)
    omega

theorem le_taken_bump (least : counts k < cap) (kinds : Finset κ) :
    taken cap counts kinds + 1 ≤ taken cap (bump counts k) (insert k kinds) := by
  have others : ∑ j ∈ kinds.erase k, min cap (bump counts k j) = ∑ j ∈ kinds.erase k, min cap (counts j) :=
    Finset.sum_congr rfl fun j mem => by rw [bump_of_ne (Finset.ne_of_mem_erase mem)]
  have after := Finset.add_sum_erase (insert k kinds) (fun j => min cap (bump counts k j))
    (Finset.mem_insert_self k kinds)
  rw [Finset.erase_insert_eq_erase] at after
  simp only [bump_self] at after
  unfold taken
  by_cases mem : k ∈ kinds
  · have before := Finset.add_sum_erase kinds (fun j => min cap (counts j)) mem
    omega
  · rw [Finset.erase_eq_of_notMem mem] at others after
    omega

/-- An element of the kind is refused, or its turn does not come. -/
def Full (cap limit : ℕ) (counts : κ → ℕ) (k : κ) : Prop := cap ≤ counts k ∨ ∃ kinds, limit ≤ taken cap counts kinds

omit [DecidableEq κ] in
theorem Full.mono (full : Full cap limit counts k) (below : ∀ j, counts j ≤ counts' j) : Full cap limit counts' k := by
  rcases full with refused | ⟨kinds, many⟩
  · exact .inl (refused.trans (below k))
  · exact .inr ⟨kinds, many.trans (taken_mono below kinds)⟩

theorem Full.of_bump (full : Full cap limit counts j) (after : Full cap limit (bump counts j) k) :
    Full cap limit counts k := by
  rcases full with refused | many
  · have same := min_bump_of_le refused
    rcases after with refused' | ⟨kinds, many⟩
    · left
      have equal := same k
      omega
    · exact .inr ⟨kinds, by rw [← taken_congr same]; exact many⟩
  · exact .inr many

end Counts

section Thinned
variable {α κ : Type*} [DecidableEq κ]

/-- The first queue is the second one without elements that are full when their turn comes. -/
inductive Thinned (cap limit : ℕ) (kind : α → κ) : (κ → ℕ) → List α → List α → Prop
  | nil {counts : κ → ℕ} : Thinned cap limit kind counts [] []
  | keep {counts : κ → ℕ} {a : α} {l l' : List α} (rest : Thinned cap limit kind (bump counts (kind a)) l l') :
      Thinned cap limit kind counts (a :: l) (a :: l')
  | drop {counts : κ → ℕ} {a : α} {l l' : List α} (full : Full cap limit counts (kind a))
    (rest : Thinned cap limit kind counts l l') :
      Thinned cap limit kind counts l (a :: l')

variable {cap limit : ℕ} {kind : α → κ} {counts counts' : κ → ℕ} {l l' l'' : List α} {a : α}

theorem Thinned.refl (counts : κ → ℕ) (l : List α) : Thinned cap limit kind counts l l := by
  induction l generalizing counts with
  | nil => exact .nil
  | cons a l ih => exact .keep (ih _)

theorem Thinned.subset (thin : Thinned cap limit kind counts l l') : ∀ a ∈ l, a ∈ l' := by
  induction thin with
  | nil => exact fun a mem => mem
  | keep rest ih =>
    intro a mem
    rcases List.mem_cons.1 mem with rfl | mem
    · exact List.mem_cons_self
    · exact List.mem_cons_of_mem _ (ih a mem)
  | drop full rest ih => exact fun a mem => List.mem_cons_of_mem _ (ih a mem)

theorem Thinned.mono (thin : Thinned cap limit kind counts l l') (below : ∀ j, counts j ≤ counts' j) :
    Thinned cap limit kind counts' l l' := by
  induction thin generalizing counts' with
  | nil => exact .nil
  | keep rest ih => exact .keep (ih (bump_mono below _))
  | drop full rest ih => exact .drop (full.mono below) (ih below)

theorem Thinned.of_bump {k : κ} (full : Full cap limit counts k) (thin : Thinned cap limit kind (bump counts k) l l') :
    Thinned cap limit kind counts l l' := by
  generalize after : bump counts k = counts' at thin
  induction thin generalizing counts with
  | nil => exact .nil
  | @keep _ a _ _ rest ih =>
    subst after
    exact .keep (ih (full.mono (le_bump counts (kind a))) (bump_comm counts (kind a) k))
  | drop refused rest ih =>
    subst after
    exact .drop (full.of_bump refused) (ih full rfl)

theorem Thinned.trans (thin : Thinned cap limit kind counts l l') (thin' : Thinned cap limit kind counts l' l'') :
    Thinned cap limit kind counts l l'' := by
  induction thin' generalizing l with
  | nil => exact thin
  | keep rest ih =>
    cases thin with
    | keep first => exact .keep (ih first)
    | drop full first => exact .drop full (.of_bump full (ih (first.mono (le_bump _ _))))
  | drop full rest ih => exact .drop full (ih thin)

theorem Thinned.insert [LinearOrder α] (thin : Thinned cap limit kind counts l l')
    (sorted : l'.Pairwise (· ≤ ·)) (a : α) :
    Thinned cap limit kind counts (l.orderedInsert (· ≤ ·) a) (l'.orderedInsert (· ≤ ·) a) := by
  induction thin with
  | nil => exact .keep .nil
  | @keep counts b l l' rest ih =>
    rw [List.orderedInsert_cons,List.orderedInsert_cons]
    split
    · exact .keep (.keep (rest.mono (bump_mono (le_bump counts (kind a)) (kind b))))
    · exact .keep (ih (List.pairwise_cons.1 sorted).2)
  | @drop counts b l l' full rest ih =>
    obtain ⟨first, sorted'⟩ := List.pairwise_cons.1 sorted
    rw [List.orderedInsert_cons]
    split
    · rename_i least
      have front : l.orderedInsert (· ≤ ·) a = a :: l := by
        cases l with
        | nil => rfl
        | cons c l => exact List.orderedInsert_cons_of_le _ _ (least.trans (first c (rest.subset c List.mem_cons_self)))
      rw [front]
      exact .keep (.drop (full.mono (le_bump counts (kind a))) (rest.mono (le_bump counts (kind a))))
    · exact .drop full (ih sorted')

end Thinned

end GTPower.CappedQueues
