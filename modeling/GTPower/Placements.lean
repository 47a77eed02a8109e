import Mathlib.Data.List.Nodup
import Mathlib.Data.List.Range
import Mathlib.Data.List.Perm.Basic

/-! Members put at their places of a vector. Where every place has one member, nothing is left out and no place is left
empty. -/
namespace GTPower.Placements

variable {α : Type*} {place : α → ℕ} {members : List α} {vector : List (Option α)} {size : ℕ}

def put (place : α → ℕ) (vector : List (Option α)) (members : List α) : List (Option α) :=
  members.foldl (fun vector member => vector.set (place member) (some member)) vector

theorem length_put (vector : List (Option α)) : (put place vector members).length = vector.length := by
  induction members generalizing vector with
  | nil => rfl
  | cons member rest ih => exact (ih _).trans (List.length_set ..)

theorem put_apart {k : ℕ} (apart : ∀ member ∈ members, place member ≠ k) :
    (put place vector members)[k]? = vector[k]? := by
  induction members generalizing vector with
  | nil => rfl
  | cons member rest ih =>
    have first := apart member List.mem_cons_self
    exact (ih fun member' mem => apart member' (List.mem_cons_of_mem _ mem)).trans (List.getElem?_set_ne first)

theorem put_mem (distinct : (members.map place).Nodup) {member : α} (mem : member ∈ members)
    (inside : place member < vector.length) :
    (put place vector members)[place member]? = some (some member) := by
  induction members generalizing vector with
  | nil => cases mem
  | cons first rest ih =>
    obtain ⟨fresh, distinct⟩ := List.nodup_cons.1 distinct
    rcases List.mem_cons.1 mem with rfl | later
    · have apart (other : α) (mem : other ∈ rest) : place other ≠ place member := by
        intro same
        rw [← same] at fresh
        exact fresh (List.mem_map_of_mem mem)
      have here : (vector.set (place member) (some member))[place member]? = some (some member) := by
        rw [List.getElem?_set_self inside]
      exact (put_apart apart).trans here
    · exact ih distinct later (by rw [List.length_set]; exact inside)

/-- Where the places of the members are all places there are, each of them once. -/
theorem put_perm (all : (members.map place).Perm (List.range size)) :
    ∃ bits : List α, bits.Perm members ∧ put place (List.replicate size none) members = bits.map some := by
  have distinct : (members.map place).Nodup := all.nodup_iff.2 List.nodup_range
  have length : (put place (List.replicate size none) members).length = size :=
    (length_put _).trans List.length_replicate
  have filled (k : ℕ) (inside : k < size) : ∃ member ∈ members, place member = k ∧
      (put place (List.replicate size none) members)[k]? = some (some member) := by
    obtain ⟨member, mem, rfl⟩ := List.mem_map.1 (all.mem_iff.2 (List.mem_range.2 inside))
    exact ⟨member, mem, rfl, put_mem distinct mem (by rw [List.length_replicate]; exact inside)⟩
  obtain ⟨bits, whole⟩ : ∃ bits : List α, put place (List.replicate size none) members = bits.map some := by
    have each : ∀ slot ∈ put place (List.replicate size none) members, ∃ member, some member = slot := by
      intro slot mem
      obtain ⟨k, bound, rfl⟩ := List.mem_iff_getElem.1 mem
      obtain ⟨member, -, -, here⟩ := filled k (length ▸ bound)
      rw [List.getElem?_eq_getElem bound,Option.some.injEq] at here
      exact ⟨member, here.symm⟩
    generalize put place (List.replicate size none) members = slots at each
    induction slots with
    | nil => exact ⟨[], rfl⟩
    | cons slot slots ih =>
      obtain ⟨member, rfl⟩ := each slot List.mem_cons_self
      obtain ⟨bits, rfl⟩ := ih fun slot mem => each slot (List.mem_cons_of_mem _ mem)
      exact ⟨member :: bits, rfl⟩
  have at_ (k : ℕ) (inside : k < size) : ∃ member ∈ members, place member = k ∧ bits[k]? = some member := by
    obtain ⟨member, mem, here, slot⟩ := filled k inside
    rw [whole,List.getElem?_map] at slot
    obtain ⟨member', found, same⟩ := Option.map_eq_some_iff.1 slot
    exact ⟨member, mem, here, found.trans same⟩
  have places : bits.map place = List.range size := by
    have bound : bits.length = size := by rw [← length,whole,List.length_map]
    apply List.ext_getElem?
    intro k
    by_cases inside : k < size
    · obtain ⟨member, -, here, found⟩ := at_ k inside
      rw [List.getElem?_map,found,List.getElem?_range inside]
      exact congrArg some here
    · rw [List.getElem?_eq_none (by rw [List.length_map]; omega),
        List.getElem?_eq_none (by rw [List.length_range]; omega)]
  have distinctBits : bits.Nodup := List.Nodup.of_map place (by rw [places]; exact List.nodup_range)
  refine ⟨bits, (List.perm_ext_iff_of_nodup distinctBits (List.Nodup.of_map place distinct)).2 fun member =>
    ⟨fun mem => ?_, fun mem => ?_⟩, whole⟩
  · obtain ⟨k, found⟩ := List.mem_iff_getElem?.1 mem
    have inside : k < size := by
      have bound := (List.getElem?_eq_some_iff.1 found).1
      rw [← List.length_map place,places,List.length_range] at bound
      exact bound
    obtain ⟨member', mem', -, found'⟩ := at_ k inside
    rw [Option.some.inj (found.symm.trans found')]
    exact mem'
  · obtain ⟨member', mem', here, found⟩ :=
      at_ (place member) (List.mem_range.1 (all.mem_iff.1 (List.mem_map_of_mem mem)))
    rw [← List.inj_on_of_nodup_map distinct mem' mem here]
    exact List.mem_of_getElem? found

end GTPower.Placements
