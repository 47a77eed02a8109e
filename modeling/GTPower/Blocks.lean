import Mathlib

/-! Blocks of items laid out one after the other in a buffer. A block keeps what was written to it
whatever is written to the other blocks. -/
namespace GTPower.Blocks

section Write
variable {α : Type*}

def write : (Nat → α) → Nat → List α → Nat → α
  | buffer, _, [] => buffer
  | buffer, base, item :: rest => write (Function.update buffer base item) (base + 1) rest

def read (buffer : Nat → α) (start stop : Nat) : List α := (List.range' start (stop - start)).map buffer

theorem write_outside (buffer : Nat → α) (items : List α) (outside : k < base ∨ base + items.length ≤ k) :
    write buffer base items k = buffer k := by
  induction items generalizing buffer base with
  | nil => rfl
  | cons item rest ih =>
    rw [List.length_cons] at outside
    rw [write,ih _ (by omega),Function.update_of_ne (by omega)]

theorem read_write (buffer : Nat → α) (base : Nat) (items : List α) :
    read (write buffer base items) base (base + items.length) = items := by
  rw [read,Nat.add_sub_cancel_left]
  induction items generalizing buffer base with
  | nil => rfl
  | cons item rest ih =>
    rw [List.length_cons,List.range'_succ,List.map_cons,write]
    congr 1
    · rw [write_outside _ _ (Or.inl (Nat.lt_succ_self _)),Function.update_self]
    · exact ih _ _

theorem write_replicate (buffer : Nat → α) (item : α) (low : base ≤ k) (high : k < base + count) :
    write buffer base (List.replicate count item) k = item := by
  induction count generalizing buffer base with
  | zero => omega
  | succ count ih =>
    rw [List.replicate_succ,write]
    by_cases here : k = base
    · rw [here,write_outside _ _ (Or.inl (Nat.lt_succ_self _)),Function.update_self]
    · exact ih _ (by omega) (by omega)

theorem read_congr (same : ∀ k, start ≤ k → k < stop → buffer k = buffer' k) :
    read buffer start stop = read buffer' start stop := by
  apply List.map_congr_left
  intro k mem
  have := List.mem_range'_1.mp mem
  exact same k this.1 (by omega)

end Write

section Place
variable {κ α : Type*} (size : κ → Nat)

def place : Nat → List κ → List (κ × Nat)
  | _, [] => []
  | offset, key :: rest => (key, offset) :: place (offset + size key) rest

def total (keys : List κ) : Nat := (keys.map size).sum

def fill (content : κ → List α) (buffer : Nat → α) (placed : List (κ × Nat)) : Nat → α :=
  placed.foldl (fun buffer block => write buffer block.2 (content block.1)) buffer

variable {size}

theorem place_append (keys keys' : List κ) :
    place size offset (keys ++ keys') = place size offset keys ++ place size (offset + total size keys) keys' := by
  induction keys generalizing offset with
  | nil => simp [place,total]
  | cons key rest ih => simp [place,ih,total,Nat.add_assoc]

theorem place_congr {size' : κ → Nat} (same : ∀ key ∈ keys, size key = size' key) (offset : Nat) :
    place size offset keys = place size' offset keys := by
  induction keys generalizing offset with
  | nil => rfl
  | cons key rest ih =>
    rw [place,place,same key (List.mem_cons_self ..),ih fun other mem => same other (List.mem_cons_of_mem _ mem)]

theorem fill_congr {content content' : κ → List α} (buffer : Nat → α) (placed : List (κ × Nat))
    (same : ∀ block ∈ placed, content block.1 = content' block.1) :
    fill content buffer placed = fill content' buffer placed := by
  induction placed generalizing buffer with
  | nil => rfl
  | cons block rest ih =>
    rw [fill,List.foldl_cons,same block (List.mem_cons_self ..)]
    exact ih _ fun other mem => same other (List.mem_cons_of_mem _ mem)

theorem fill_append (content : κ → List α) (buffer : Nat → α) (placed placed' : List (κ × Nat)) :
    fill content buffer (placed ++ placed') = fill content (fill content buffer placed) placed' := List.foldl_append ..

theorem mem_of_mem_place (mem : block ∈ place size offset keys) : block.1 ∈ keys := by
  induction keys generalizing offset with
  | nil => cases mem
  | cons key rest ih =>
    rcases List.mem_cons.mp mem with rfl | later
    · exact List.mem_cons_self ..
    · exact List.mem_cons_of_mem _ (ih later)

theorem place_keys (size : κ → Nat) (offset : Nat) (keys : List κ) : (place size offset keys).map Prod.fst = keys := by
  induction keys generalizing offset with
  | nil => rfl
  | cons key rest ih => rw [place,List.map_cons,ih]

theorem place_inside (mem : block ∈ place size offset keys) :
    offset ≤ block.2 ∧ block.2 + size block.1 ≤ offset + total size keys := by
  induction keys generalizing offset with
  | nil => cases mem
  | cons key rest ih =>
    simp only [total,List.map_cons,List.sum_cons]
    rcases List.mem_cons.mp mem with rfl | later
    · exact ⟨Nat.le_refl _, by dsimp only; omega⟩
    · have := ih later
      simp only [total] at this
      omega

theorem place_ordered (size : κ → Nat) (offset : Nat) (keys : List κ) :
    (place size offset keys).Pairwise fun a b => a.2 + size a.1 ≤ b.2 := by
  induction keys generalizing offset with
  | nil => exact List.Pairwise.nil
  | cons key rest ih => exact List.pairwise_cons.mpr ⟨fun block mem => (place_inside mem).1, ih _⟩

theorem place_disjoint (size : κ → Nat) (distinct : keys.Nodup) (mem : (key, start) ∈ place size offset keys)
    (mem' : (key', start') ∈ place size offset keys) (differ : key ≠ key') :
    start + size key ≤ start' ∨ start' + size key' ≤ start := by
  induction keys generalizing offset with
  | nil => cases mem
  | cons first rest ih =>
    obtain ⟨head, -⟩ := List.pairwise_cons.mp (place_ordered size offset (first :: rest))
    obtain ⟨fresh, distinct⟩ := List.nodup_cons.mp distinct
    rcases List.mem_cons.mp mem with here | later <;> rcases List.mem_cons.mp mem' with here' | later'
    · cases here; cases here'
      exact absurd rfl differ
    · cases here
      exact Or.inl (head _ later')
    · cases here'
      exact Or.inr (head _ later)
    · exact ih distinct later later'

theorem mem_place (size : κ → Nat) (offset : Nat) (mem : key ∈ keys) :
    ∃ start, (key, start) ∈ place size offset keys := by
  rw [← place_keys size offset keys] at mem
  obtain ⟨⟨key', start⟩, member, rfl⟩ := List.mem_map.mp mem
  exact ⟨start, member⟩

theorem fill_outside (content : κ → List α) (buffer : Nat → α) (placed : List (κ × Nat))
    (outside : ∀ block ∈ placed, k < block.2 ∨ block.2 + (content block.1).length ≤ k) :
    fill content buffer placed k = buffer k := by
  induction placed generalizing buffer with
  | nil => rfl
  | cons block rest ih =>
    rw [fill,List.foldl_cons]
    have tail := ih (write buffer block.2 (content block.1)) fun other mem => outside other (List.mem_cons_of_mem _ mem)
    rw [fill] at tail
    rw [tail,write_outside _ _ (outside block (List.mem_cons_self ..))]

theorem read_fill (content : κ → List α) (buffer : Nat → α) (placed : List (κ × Nat))
    (ordered : placed.Pairwise fun a b => a.2 + (content a.1).length ≤ b.2) (mem : (key, start) ∈ placed) :
    read (fill content buffer placed) start (start + (content key).length) = content key := by
  induction placed generalizing buffer with
  | nil => cases mem
  | cons block rest ih =>
    obtain ⟨head, ordered⟩ := List.pairwise_cons.mp ordered
    rcases List.mem_cons.mp mem with here | later
    · cases here
      refine Eq.trans (read_congr fun k low high => ?_) (read_write buffer start (content key))
      exact fill_outside content _ rest fun other member => Or.inl (Nat.lt_of_lt_of_le high (head other member))
    · exact ih (write buffer block.2 (content block.1)) ordered later

end Place
end GTPower.Blocks
