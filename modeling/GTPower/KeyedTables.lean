import Mathlib.Data.List.Basic
import Mathlib.Data.List.Pairwise

/-! Tables with one entry for each key, where a new name of a key takes the place of the old one. -/
namespace GTPower.KeyedTables

section Tables
variable {T K V : Type*}

def find? [DecidableEq K] (key : T → K) (table : List (T × V)) (name : T) : Option (T × V) :=
  table.find? fun entry => decide (key entry.1 = key name)

/-- The entry of the old name with another name and value. -/
def replace [DecidableEq T] (table : List (T × V)) (old name : T) (value : V) : List (T × V) :=
  table.map fun entry => if entry.1 = old then (name, value) else entry

def Keyed (key : T → K) (table : List (T × V)) : Prop := table.Pairwise fun entry other => key entry.1 ≠ key other.1

variable {key : T → K} {table : List (T × V)} {entry other : T × V} {old name : T} {kept value : V}

theorem Keyed.nil : Keyed key ([] : List (T × V)) := List.Pairwise.nil

theorem Keyed.eq (keyed : Keyed key table) (mem : entry ∈ table) (mem' : other ∈ table)
    (same : key entry.1 = key other.1) :
    entry = other := by
  have symm : Std.Symm fun entry other : T × V => key entry.1 ≠ key other.1 := ⟨fun _ _ => Ne.symm⟩
  by_contra differ
  exact List.Pairwise.forall keyed mem mem' differ same

section Find
variable [DecidableEq K]

theorem find?_some (found : find? key table name = some entry) : entry ∈ table ∧ key entry.1 = key name := by
  rw [find?] at found
  exact ⟨List.mem_of_find?_eq_some found, by simpa using List.find?_some found⟩

theorem find?_none : find? key table name = none ↔ ∀ entry ∈ table, key entry.1 ≠ key name := by
  simp [find?]

theorem Keyed.push (keyed : Keyed key table) (fresh : find? key table name = none) (value : V) :
    Keyed key (table ++ [(name, value)]) := by
  apply List.pairwise_append.mpr ⟨keyed, List.pairwise_singleton _ _, _⟩
  intro entry mem last atEnd
  rw [List.mem_singleton.mp atEnd]
  exact find?_none.mp fresh entry mem

end Find

section Replace
variable [DecidableEq T]

theorem Keyed.replace (keyed : Keyed key table) (same : key old = key name) (value : V) :
    Keyed key (replace table old name value) := by
  have renamed (entry : T × V) : key (if entry.1 = old then (name, value) else entry).1 = key entry.1 := by
    split
    case isTrue here => rw [here,same]
    case isFalse => rfl
  apply List.pairwise_map.mpr
  apply keyed.imp
  intro entry other differ
  rw [renamed,renamed]
  exact differ

theorem mem_replace (mem : (old, kept) ∈ table) :
    entry ∈ KeyedTables.replace table old name value ↔ entry = (name, value) ∨ entry ∈ table ∧ entry.1 ≠ old := by
  rw [KeyedTables.replace,List.mem_map]
  constructor
  · rintro ⟨before, inside, rfl⟩
    split
    case isTrue => exact Or.inl rfl
    case isFalse differ => exact Or.inr ⟨inside, differ⟩
  · rintro (rfl | ⟨inside, differ⟩)
    · exact ⟨_, mem, if_pos rfl⟩
    · exact ⟨entry, inside, if_neg differ⟩

end Replace

/-! A value is offered under a name; it is taken when it is better than the value of its key. -/
section Offer
variable [DecidableEq T] [DecidableEq K]

def offer (key : T → K) (better : V → V → Bool) (table : List (T × V)) (name : T) (value : V) : List (T × V) :=
  match find? key table name with
  | none => table ++ [(name, value)]
  | some (old, kept) => if better value kept then replace table old name value else table

def Accepts (key : T → K) (better : V → V → Bool) (table : List (T × V)) (name : T) (value : V) : Prop :=
  ∀ entry ∈ table, key entry.1 = key name → better value entry.2 = true

variable {better : V → V → Bool}

theorem Keyed.offer (keyed : Keyed key table) (name : T) (value : V) :
    Keyed key (offer key better table name value) := by
  rw [KeyedTables.offer]
  split
  case h_1 fresh => exact keyed.push fresh value
  case h_2 old kept found =>
    split
    case isTrue => exact keyed.replace (find?_some found).2 value
    case isFalse => exact keyed

/-- What stays is what the value does not beat, and the value comes in when it beats the entry of its key. -/
theorem Keyed.mem_offer (keyed : Keyed key table) : entry ∈ KeyedTables.offer key better table name value ↔
    entry ∈ table ∧ ¬(key entry.1 = key name ∧ better value entry.2 = true) ∨
      entry = (name, value) ∧ Accepts key better table name value := by
  rw [KeyedTables.offer]
  split
  case h_1 fresh =>
    have apart := find?_none.mp fresh
    have accepts : Accepts key better table name value := fun entry mem same => absurd same (apart entry mem)
    rw [List.mem_append,List.mem_singleton,and_iff_left accepts]
    exact or_congr_left (iff_self_and.mpr fun mem beaten => apart entry mem beaten.1)
  case h_2 old kept found =>
    obtain ⟨mem, same⟩ := find?_some found
    have here {entry : T × V} (mem' : entry ∈ table) (same' : key entry.1 = key name) : entry = (old, kept) :=
      keyed.eq mem' mem (same'.trans same.symm)
    split
    case isTrue beats =>
      have accepts : Accepts key better table name value := fun entry mem' same' => by rw [here mem' same']; exact beats
      rw [mem_replace mem,and_iff_left accepts,or_comm]
      apply or_congr_left
      apply and_congr_right
      intro mem'
      constructor
      · intro differ beaten
        exact differ (congrArg Prod.fst (here mem' beaten.1))
      · intro unbeaten isOld
        have same' : key entry.1 = key name := isOld ▸ same
        exact unbeaten ⟨same', by rw [here mem' same']; exact beats⟩
    case isFalse loses =>
      constructor
      · intro mem'
        exact Or.inl ⟨mem', fun beaten => loses (by rw [here mem' beaten.1] at beaten; exact beaten.2)⟩
      · rintro (⟨mem', _⟩ | ⟨_, accepts⟩)
        · exact mem'
        · exact absurd (accepts _ mem same) loses

omit [DecidableEq T] [DecidableEq K] in
theorem Keyed.accepts (keyed : Keyed key table) (mem : entry ∈ table)
    (beaten : key entry.1 = key name ∧ better value entry.2 = true) : Accepts key better table name value := by
  intro other mem' same
  rw [keyed.eq mem' mem (same.trans beaten.1.symm)]
  exact beaten.2

theorem Keyed.offer_cases (keyed : Keyed key table) (better : V → V → Bool) (name : T) (value : V)
    (mem : entry ∈ table) :
    entry ∈ KeyedTables.offer key better table name value ∨
      (key entry.1 = key name ∧ better value entry.2 = true) ∧
        (name, value) ∈ KeyedTables.offer key better table name value := by
  by_cases beaten : key entry.1 = key name ∧ better value entry.2 = true
  · exact Or.inr ⟨beaten, keyed.mem_offer.mpr (Or.inr ⟨rfl, keyed.accepts mem beaten⟩)⟩
  · exact Or.inl (keyed.mem_offer.mpr (Or.inl ⟨mem, beaten⟩))

theorem Keyed.exists_offer (keyed : Keyed key table) (name : T) (irrefl : ¬better value value = true) :
    ∃ entry ∈ KeyedTables.offer key better table name value, key entry.1 = key name ∧ ¬better value entry.2 = true := by
  by_cases accepted : Accepts key better table name value
  · exact ⟨(name, value), keyed.mem_offer.mpr (Or.inr ⟨rfl, accepted⟩), rfl, irrefl⟩
  · simp only [Accepts,not_forall] at accepted
    obtain ⟨entry, mem, same, worse⟩ := accepted
    exact ⟨entry, keyed.mem_offer.mpr (Or.inl ⟨mem, fun beaten => worse beaten.2⟩), same, worse⟩

end Offer

section Delete
variable [DecidableEq K]

def delete (key : T → K) (table : List (T × V)) (name : T) : List (T × V) :=
  table.eraseP fun entry => decide (key entry.1 = key name)

theorem Keyed.delete (keyed : Keyed key table) (name : T) : Keyed key (delete key table name) :=
  keyed.sublist List.eraseP_sublist

theorem Keyed.delete_eq (keyed : Keyed key table) :
    KeyedTables.delete key table name = table.filter fun entry => decide (key entry.1 ≠ key name) := by
  induction table with
  | nil => rfl
  | cons entry table ih =>
    obtain ⟨apart, rest⟩ := List.pairwise_cons.mp keyed
    rw [KeyedTables.delete]
    by_cases same : key entry.1 = key name
    · rw [List.eraseP_cons_of_pos (by simpa using same),List.filter_cons_of_neg (by simpa using same),eq_comm,
        List.filter_eq_self]
      intro other mem
      exact decide_eq_true fun same' => apart other mem (same.trans same'.symm)
    · rw [List.eraseP_cons_of_neg (by simpa using same),List.filter_cons_of_pos (by simpa using same)]
      exact congrArg _ (ih rest)

theorem Keyed.mem_delete (keyed : Keyed key table) :
    entry ∈ KeyedTables.delete key table name ↔ entry ∈ table ∧ key entry.1 ≠ key name := by
  rw [keyed.delete_eq,List.mem_filter,decide_eq_true_iff]

theorem Keyed.mem_foldl_delete (drop : T × V → Bool) (visited : List (T × V)) (keyed : Keyed key table) :
    entry ∈ visited.foldl (fun kept other => if drop other then KeyedTables.delete key kept other.1 else kept) table ↔
      entry ∈ table ∧ ∀ other ∈ visited, drop other = true → key entry.1 ≠ key other.1 := by
  induction visited generalizing table with
  | nil => simp
  | cons other visited ih =>
    rw [List.foldl_cons,List.forall_mem_cons]
    cases dropped : drop other with
    | false =>
      rw [if_neg Bool.false_ne_true,ih keyed]
      simp
    | true =>
      simp [ih (keyed.delete _),keyed.mem_delete,and_assoc]

/-- When the entries that are deleted are visited in the table itself, each is judged on its own. -/
theorem Keyed.mem_foldl_delete_self (drop : T × V → Bool) (keyed : Keyed key table) :
    entry ∈ table.foldl (fun kept other => if drop other then KeyedTables.delete key kept other.1 else kept) table ↔
      entry ∈ table ∧ drop entry = false := by
  rw [keyed.mem_foldl_delete]
  apply and_congr_right
  intro mem
  constructor
  · intro stays
    exact Bool.eq_false_iff.mpr fun dropped => stays entry mem dropped rfl
  · intro stays other mem' dropped same
    rw [keyed.eq mem mem' same,dropped] at stays
    exact Bool.noConfusion stays

end Delete

end Tables
end GTPower.KeyedTables
