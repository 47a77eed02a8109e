import Mathlib.Data.List.AList
import Mathlib.Algebra.BigOperators.Group.List.Basic

/-! Sums over the values of a finite map. -/
namespace GTPower.KeyedSums

variable {κ α M : Type*} [DecidableEq κ] [AddCommMonoid M] {map : AList fun _ : κ => α} {key key' : κ}
    {value value' : α} {f f' : α → M}

theorem lookup_of_insert (here : (map.insert key value).lookup key' = some value') :
    (key' = key ∧ value' = value) ∨ (key' ≠ key ∧ map.lookup key' = some value') := by
  by_cases same : key' = key
  · subst same
    rw [AList.lookup_insert,Option.some.injEq] at here
    exact .inl ⟨rfl, here.symm⟩
  · rw [AList.lookup_insert_ne same] at here
    exact .inr ⟨same, here⟩

theorem exists_lookup_insert (absent : key ∉ map) :
    (∃ key', (map.insert key value).lookup key' = some value') ↔ value' = value ∨
    ∃ key', map.lookup key' = some value' := by
  constructor
  · rintro ⟨key', here⟩
    rcases lookup_of_insert here with ⟨-, same⟩ | ⟨-, old⟩
    · exact .inl same
    · exact .inr ⟨key', old⟩
  · rintro (rfl | ⟨key', here⟩)
    · exact ⟨key, AList.lookup_insert _⟩
    · refine ⟨key', ?_⟩
      have differs : key' ≠ key := by
        rintro rfl
        exact absent (AList.lookup_isSome.1 (by rw [here]; rfl))
      exact (AList.lookup_insert_ne differs).trans here

/-- A new value at one key keeps every value at its own key. -/
theorem own_insert (own : ∀ key key' found, map.lookup key = some found → map.lookup key' = some found → key = key')
    (fresh : ∀ key', map.lookup key' ≠ some value) (key₁ key₂ : κ) (found : α)
    (here : (map.insert key value).lookup key₁ = some found)
    (here' : (map.insert key value).lookup key₂ = some found) : key₁ = key₂ := by
  rcases lookup_of_insert here with ⟨rfl, rfl⟩ | ⟨-, old⟩ <;> rcases lookup_of_insert here' with ⟨rfl, same⟩ | ⟨-, old'⟩
  · rfl
  · exact absurd old' (fresh key₂)
  · exact absurd (same ▸ old) (fresh key₁)
  · exact own key₁ key₂ found old old'

def total (f : α → M) (map : AList fun _ : κ => α) : M := (map.entries.map fun entry => f entry.2).sum

omit [DecidableEq κ] in
@[simp] theorem total_empty (f : α → M) : total f (∅ : AList fun _ : κ => α) = 0 := rfl

theorem total_insert_erase (map : AList fun _ : κ => α) (key : κ) (value : α) :
    total f (map.insert key value) = f value + total f (map.erase key) := by
  rw [total,AList.entries_insert,List.map_cons,List.sum_cons]
  rfl

theorem total_insert (absent : key ∉ map) : total f (map.insert key value) = f value + total f map := by
  rw [total,AList.entries_insert_of_notMem absent,List.map_cons,List.sum_cons]
  rfl

theorem total_erase (here : map.lookup key = some value) : total f map = f value + total f (map.erase key) := by
  have mem : key ∈ map := AList.lookup_isSome.1 (by rw [here]; rfl)
  obtain ⟨value', front, back, absent, whole, erased⟩ := List.exists_of_kerase (AList.mem_keys.1 mem)
  have same : value' = value := by
    have found : List.dlookup key map.entries = some value := here
    rw [whole,List.dlookup_append,List.dlookup_eq_none.2 absent,Option.none_or,List.dlookup_cons_eq] at found
    exact Option.some.inj found
  have left : (map.erase key).entries = front ++ back := erased
  rw [total,total,whole,left,same]
  simp only [List.map_append,List.map_cons,List.sum_append,List.sum_cons]
  exact add_left_comm _ _ _

theorem erase_of_lookup_none (absent : map.lookup key = none) : map.erase key = map :=
  AList.ext (List.kerase_of_notMem_keys (AList.lookup_eq_none.1 absent))

theorem total_lookup (map : AList fun _ : κ => α) (key : κ) :
    total f map = ((map.lookup key).map f).getD 0 + total f (map.erase key) := by
  cases found : map.lookup key with
  | some value => exact total_erase found
  | none =>
    rw [erase_of_lookup_none found]
    exact (zero_add _).symm

theorem total_congr (same : ∀ key value, map.lookup key = some value → f value = f' value) :
    total f map = total f' map := by
  rw [total,total]
  congr 1
  apply List.map_congr_left
  intro entry mem
  exact same entry.1 entry.2 (AList.mem_lookup_iff.2 mem)

theorem total_change (here : map.lookup key = some value) (own : ∀ key', map.lookup key' = some value → key' = key)
    (same : ∀ other, other ≠ value → f' other = f other) {added : M} (changed : f' value = f value + added) :
    total f' map = total f map + added := by
  have others : total f' (map.erase key) = total f (map.erase key) := by
    apply total_congr
    intro key' other found
    apply same
    rintro rfl
    have differs : key' ≠ key := by
      rintro rfl
      rw [AList.lookup_erase] at found
      cases found
    rw [AList.lookup_erase_ne differs] at found
    exact differs (own key' found)
  rw [total_erase here,@total_erase _ _ _ _ _ map key value f here,others,changed]
  exact add_right_comm _ _ _

end GTPower.KeyedSums
