import Mathlib.Data.Set.Prod
import Mathlib.Logic.Function.Basic

/-! Boxes: products of a set for every place. -/
namespace Boxes

variable {ι α : Type}

theorem exists_mem {X : ι → Set α} (nonempty : ∀ i, (X i).Nonempty) : ∃ f, f ∈ Set.univ.pi X :=
  ⟨fun i => (nonempty i).some, fun i _ => (nonempty i).some_mem⟩

theorem pi_subset_iff {X Y : ι → Set α} (nonempty : ∀ i, (X i).Nonempty) :
    Set.univ.pi X ⊆ Set.univ.pi Y ↔ ∀ i, X i ⊆ Y i := by
  have inhabited : (Set.univ.pi X).Nonempty := exists_mem nonempty
  rw [Set.pi_subset_pi_iff,or_iff_left inhabited.ne_empty]
  exact forall_congr' fun i => by simp

variable [DecidableEq ι]

theorem mem_pi_update {X : ι → Set α} {place : ι} {set : Set α} {f : ι → α} :
    f ∈ Set.univ.pi (Function.update X place set) ↔ f place ∈ set ∧ ∀ i ≠ place, f i ∈ X i := by
  constructor
  · intro mem
    refine ⟨by simpa using mem place trivial, fun i differ => ?_⟩
    simpa [differ] using mem i trivial
  · rintro ⟨here, others⟩ i -
    by_cases same : i = place
    · subst same
      simpa using here
    · simpa [same] using others i same

/-- Two boxes fill the second one with another set at one place if they differ only there, or if the first box is inside
of it. -/
theorem union_eq_update_iff {X Y : ι → Set α} (nonemptyX : ∀ i, (X i).Nonempty) (nonemptyY : ∀ i, (Y i).Nonempty)
    {place : ι} {set : Set α} (nonempty : set.Nonempty) :
    Set.univ.pi X ∪ Set.univ.pi Y = Set.univ.pi (Function.update Y place set) ↔
      ((∀ i ≠ place, X i = Y i) ∧ X place ∪ Y place = set) ∨ ((∀ i, X i ⊆ Y i) ∧ set = Y place) := by
  constructor
  · intro same
    have left : Set.univ.pi X ⊆ Set.univ.pi (Function.update Y place set) := same ▸ Set.subset_union_left
    have right : Set.univ.pi Y ⊆ Set.univ.pi (Function.update Y place set) := same ▸ Set.subset_union_right
    have left := (pi_subset_iff nonemptyX).mp left
    have right := (pi_subset_iff nonemptyY).mp right
    have inside : X place ∪ Y place ⊆ set := by
      have left := left place
      have right := right place
      rw [Function.update_self] at left right
      exact Set.union_subset left right
    have smaller : ∀ i ≠ place, X i ⊆ Y i := fun i differ => by simpa [differ] using left i
    -- A member of the new set with members of the second box at all other places.
    have build : ∀ z ∈ set, ∀ f ∈ Set.univ.pi Y, Function.update f place z ∈ Set.univ.pi X ∪ Set.univ.pi Y := by
      intro z member f box
      rw [same,mem_pi_update]
      exact ⟨by simpa using member, fun i differ => by simpa [differ] using box i trivial⟩
    by_cases others : ∀ i ≠ place, X i = Y i
    · refine Or.inl ⟨others, inside.antisymm fun z member => ?_⟩
      obtain ⟨f, box⟩ := exists_mem nonemptyY
      rcases build z member f box with here | here
      · exact Or.inl (by simpa using here place trivial)
      · exact Or.inr (by simpa using here place trivial)
    · push Not at others
      obtain ⟨i, differ, unequal⟩ := others
      obtain ⟨y, inY, outX⟩ : ∃ y ∈ Y i, y ∉ X i := by
        by_contra none
        push Not at none
        exact unequal ((smaller i differ).antisymm none)
      obtain ⟨f, box⟩ := exists_mem nonemptyY
      have box' : Function.update f i y ∈ Set.univ.pi Y := by
        intro j _
        by_cases here : j = i
        · subst here
          simpa using inY
        · simpa [here] using box j trivial
      have covers : set ⊆ Y place := by
        intro z member
        rcases build z member _ box' with here | here
        · refine absurd ?_ outX
          simpa [differ] using here i trivial
        · simpa using here place trivial
      have whole : set = Y place := covers.antisymm (Set.subset_union_right.trans inside)
      refine Or.inr ⟨fun j => ?_, whole⟩
      by_cases here : j = place
      · subst here
        exact (Set.subset_union_left.trans inside).trans covers
      · exact smaller j here
  · rintro (⟨others, rfl⟩ | ⟨smaller, rfl⟩)
    · ext f
      rw [mem_pi_update,Set.mem_union]
      constructor
      · rintro (box | box)
        · exact ⟨Or.inl (box place trivial), fun i differ => others i differ ▸ box i trivial⟩
        · exact ⟨Or.inr (box place trivial), fun i _ => box i trivial⟩
      · rintro ⟨here | here, rest⟩
        · left
          intro i _
          by_cases same : i = place
          · exact same ▸ here
          · exact (others i same).symm ▸ rest i same
        · right
          intro i _
          by_cases same : i = place
          · exact same ▸ here
          · exact rest i same
    · rw [Function.update_eq_self]
      exact Set.union_eq_self_of_subset_left ((pi_subset_iff nonemptyX).mpr smaller)

end Boxes
