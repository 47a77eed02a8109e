import Mathlib.Data.List.Nodup
import Mathlib.Logic.Function.Basic

/-! Objects in numbered slots, with the slots that were emptied kept for reuse. -/
namespace GTPower

/-- Slots below `next` have been handed out; `free` has the emptied ones, the one emptied last first. -/
structure SlotTable (α : Type*) where
  entry : ℕ → Option α
  next : ℕ
  free : List ℕ

namespace SlotTable
variable {α : Type*} {table : SlotTable α}

def empty : SlotTable α := ⟨fun _ => none, 0, []⟩

def index (table : SlotTable α) : ℕ :=
  match table.free with
  | [] => table.next
  | i :: _ => i

def put (table : SlotTable α) (object : α) : SlotTable α :=
  match table.free with
  | [] => { table with entry := Function.update table.entry table.next (some object), next := table.next + 1 }
  | i :: rest => { table with entry := Function.update table.entry i (some object), free := rest }

/-- Empties a slot that has an object of the kind. -/
def deleteAt (kind : α → Bool) (table : SlotTable α) (i : ℕ) : SlotTable α :=
  if (table.entry i).any kind then { table with entry := Function.update table.entry i none, free := i :: table.free }
    else table

def deleteAll (table : SlotTable α) (kind : α → Bool) : SlotTable α :=
  (List.range table.next).foldl (deleteAt kind) table

def find? (table : SlotTable α) (kind : α → Bool) : Option α :=
  (List.range table.next).findSome? fun i => (table.entry i).filter kind

/-- Exactly the empty slots among those handed out are free, once each. -/
structure Valid (table : SlotTable α) : Prop where
  nodup : table.free.Nodup
  mem_free : ∀ i, i ∈ table.free ↔ i < table.next ∧ table.entry i = none
  outside : ∀ i, table.next ≤ i → table.entry i = none

theorem valid_empty : (empty : SlotTable α).Valid where
  nodup := List.nodup_nil
  mem_free i := by simp [empty]
  outside _ _ := rfl

theorem Valid.lt_next (valid : table.Valid) (filled : table.entry i = some object) : i < table.next := by
  by_contra outside
  rw [valid.outside i (Nat.not_lt.mp outside)] at filled
  cases filled

theorem Valid.entry_index (valid : table.Valid) : table.entry table.index = none := by
  rw [index]
  cases reuse : table.free with
  | nil => exact valid.outside _ (Nat.le_refl _)
  | cons i rest => exact ((valid.mem_free i).mp (reuse ▸ List.mem_cons_self ..)).2

@[simp] theorem entry_put (table : SlotTable α) (object : α) :
    (table.put object).entry = Function.update table.entry table.index (some object) := by
  rw [put,index]
  cases table.free <;> rfl

/-- The new object is in the slot it was put in, the other ones are where they were. -/
theorem Valid.entry_put_iff (valid : table.Valid) (object other : α) (i : ℕ) :
    (table.put object).entry i = some other ↔ i = table.index ∧ other = object ∨ table.entry i = some other := by
  rw [entry_put]
  by_cases here : i = table.index
  · simp [here,valid.entry_index,eq_comm]
  · simp [here]

theorem Valid.put (valid : table.Valid) (object : α) : (table.put object).Valid := by
  rw [SlotTable.put]
  cases reuse : table.free with
  | nil =>
    have filled : ∀ i < table.next, table.entry i ≠ none := fun i inside none => by
      have mem := (valid.mem_free i).mpr ⟨inside, none⟩
      rw [reuse] at mem
      cases mem
    refine ⟨by simp, fun i => ?_, fun i outside => ?_⟩
    · by_cases here : i = table.next
      · simp [here]
      · have old : i < table.next + 1 → i < table.next := by omega
        simp only [List.not_mem_nil,Function.update_of_ne here,false_iff,not_and]
        exact fun inside => filled i (old inside)
    · have beyond : table.next + 1 ≤ i := outside
      have apart : i ≠ table.next := by omega
      simp only [Function.update_of_ne apart]
      exact valid.outside i (by omega)
  | cons first rest =>
    have nodup := valid.nodup
    rw [reuse,List.nodup_cons] at nodup
    obtain ⟨inside, -⟩ := (valid.mem_free first).mp (reuse ▸ List.mem_cons_self ..)
    refine ⟨nodup.2, fun i => ?_, fun i outside => ?_⟩
    · have free := valid.mem_free i
      rw [reuse,List.mem_cons] at free
      by_cases here : i = first
      · simp [here,nodup.1]
      · simp only [Function.update_of_ne here]
        rw [← free,or_iff_right here]
    · have beyond : table.next ≤ i := outside
      have apart : i ≠ first := by omega
      simp only [Function.update_of_ne apart]
      exact valid.outside i beyond

theorem entry_deleteAt (kind : α → Bool) (table : SlotTable α) (i j : ℕ) :
    (table.deleteAt kind i).entry j = if j = i then (table.entry j).filter (!kind ·) else table.entry j := by
  rw [deleteAt]
  cases slot : table.entry i with
  | none =>
    by_cases here : j = i
    · simp [here,slot]
    · simp [here]
  | some object =>
    by_cases here : j = i
    · by_cases deleted : kind object = true
      · simp [here,deleted,slot,Option.filter]
      · simp [here,deleted,slot,Option.filter]
    · by_cases deleted : kind object = true
      · simp [here,deleted]
      · simp [here,deleted]

theorem Valid.deleteAt (valid : table.Valid) (kind : α → Bool) (i : ℕ) : (table.deleteAt kind i).Valid := by
  rw [SlotTable.deleteAt]
  by_cases deleted : (table.entry i).any kind = true
  · rw [if_pos deleted]
    obtain ⟨object, filled, -⟩ := Option.any_eq_true _ _ |>.mp deleted
    have inside := valid.lt_next filled
    refine ⟨List.nodup_cons.mpr ⟨fun mem => ?_, valid.nodup⟩, fun j => ?_, fun j outside => ?_⟩
    · have none := ((valid.mem_free i).mp mem).2
      rw [filled] at none
      cases none
    · by_cases here : j = i
      · simp [here,inside]
      · simp only [List.mem_cons,here,false_or,Function.update_of_ne here]
        exact valid.mem_free j
    · have beyond : table.next ≤ j := outside
      have apart : j ≠ i := by omega
      simp only [Function.update_of_ne apart]
      exact valid.outside j beyond
  · rw [if_neg deleted]
    exact valid

theorem Valid.foldl_deleteAt (valid : table.Valid) (kind : α → Bool) (slots : List ℕ) :
    (slots.foldl (SlotTable.deleteAt kind) table).Valid := by
  induction slots generalizing table with
  | nil => exact valid
  | cons i rest ih => exact ih (valid.deleteAt kind i)

theorem Valid.deleteAll (valid : table.Valid) (kind : α → Bool) : (table.deleteAll kind).Valid :=
  valid.foldl_deleteAt kind _

theorem entry_foldl_deleteAt (kind : α → Bool) (table : SlotTable α) (slots : List ℕ) (j : ℕ) :
    (slots.foldl (deleteAt kind) table).entry j = if j ∈ slots then (table.entry j).filter (!kind ·)
    else table.entry j := by
  induction slots generalizing table with
  | nil => simp
  | cons i rest ih =>
    rw [List.foldl_cons,ih,entry_deleteAt]
    by_cases here : j = i
    · by_cases later : j ∈ rest <;> simp [here]
    · by_cases later : j ∈ rest <;> simp [here,later]

theorem Valid.entry_deleteAll_iff (valid : table.Valid) (kind : α → Bool) (object : α) (j : ℕ) :
    (table.deleteAll kind).entry j = some object ↔ table.entry j = some object ∧ kind object = false := by
  rw [SlotTable.deleteAll,entry_foldl_deleteAt]
  by_cases inside : j < table.next
  · simp [inside,Option.filter_eq_some_iff]
  · simp [inside,valid.outside j (Nat.not_lt.mp inside)]

theorem find?_spec {kind : α → Bool} (found : table.find? kind = some object) : (∃ i, table.entry i = some object) ∧
    kind object = true := by
  obtain ⟨i, -, here⟩ := List.exists_of_findSome?_eq_some found
  obtain ⟨filled, holds⟩ := Option.filter_eq_some_iff.mp here
  exact ⟨⟨i, filled⟩, holds⟩

end SlotTable

end GTPower
