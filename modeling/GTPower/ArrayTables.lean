import GTPower.LinkedLists
import Mathlib.Algebra.Order.BigOperators.Group.List
import Mathlib.Algebra.Ring.Nat
import Mathlib.Data.List.Nodup
import Mathlib.Logic.Function.Basic

/-! Arrays of objects in blocks. Destroyed arrays are kept in a list for each count, threaded through the first objects
of the arrays. Ids and indices are words of 32 bits. -/
namespace GTPower.ArrayTables
open Linked

section Source

def wordModulus : ℕ := 2 ^ 32

abbrev Address := ℕ × ℕ

/-- Blocks are given by their sizes. -/
structure ArrayTable where
  size : ℕ
  freeBlockIdx : ℕ
  freeIdx : ℕ
  blocks : List ℕ
  freeList : List ℕ
  objects : Address → ℕ

namespace ArrayTable

def idxBits : ℕ := 7

def blockSize : ℕ := 2 ^ idxBits

def blockIdMax : ℕ := 2 ^ (32 - idxBits)

def init (objects : Address → ℕ) : ArrayTable := ⟨0, 0, 0, [], [], objects⟩

def address (id : ℕ) : Address := (id >>> idxBits, id &&& (blockSize - 1))

def pointer (id : ℕ) : Option Address := if id = 0 then none else some (address id)

/-- Object id zero is reserved. The program ends when there are too many blocks. -/
def makeBlock (table : ArrayTable) (size : ℕ) : Option ArrayTable :=
  if blockIdMax ≤ table.blocks.length + 1 then none
  else some { table with
    blocks := table.blocks ++ [size]
    freeBlockIdx := table.blocks.length
    freeIdx := if 0 < table.blocks.length then 0 else 1 }

/-- First block starts at idx 1. -/
def newBlockSize (table : ArrayTable) (count : ℕ) : ℕ :=
  if table.blocks.length = 0 ∧ blockSize - 1 < count then (count + 1) % wordModulus
  else if blockSize < count then count
  else blockSize

def blockIsFull (table : ArrayTable) (count : ℕ) : Prop :=
  table.freeIdx = 0 ∧ table.freeBlockIdx = 0 ∨ table.blocks.getD table.freeBlockIdx 0 ≤
    (table.freeIdx + count) % wordModulus

instance (table : ArrayTable) (count : ℕ) : Decidable (table.blockIsFull count) := inferInstanceAs (Decidable (_ ∨ _))

def isFree (table : ArrayTable) (count : ℕ) : Prop := count < table.freeList.length ∧ table.freeList.getD count 0 ≠ 0

instance (table : ArrayTable) (count : ℕ) : Decidable (table.isFree count) := inferInstanceAs (Decidable (_ ∧ _))

def makeFree (table : ArrayTable) (count : ℕ) : ArrayTable :=
  { table with
    freeList := table.freeList.set count (table.objects (address (table.freeList.getD count 0)))
    size := table.size + count }

/-- The id of the next object of the block. -/
def freeId (table : ArrayTable) : ℕ := (table.freeBlockIdx <<< idxBits % wordModulus + table.freeIdx) % wordModulus

def makeNext (table : ArrayTable) (count : ℕ) : ArrayTable :=
  { table with
    freeIdx := (table.freeIdx + count) % wordModulus
    size := table.size + count }

def ensureRoom (table : ArrayTable) (count : ℕ) : Option ArrayTable :=
  if table.blockIsFull count then table.makeBlock (table.newBlockSize count) else some table

/-- The table, the array and its id. -/
def make (table : ArrayTable) (count : ℕ) : Option (ArrayTable × Address × ℕ) :=
  if table.isFree count then
    some (table.makeFree count, address (table.freeList.getD count 0), table.freeList.getD count 0)
  else
    (table.ensureRoom count).map fun table => (table.makeNext count, (table.freeBlockIdx, table.freeIdx), table.freeId)

def resize (freeList : List ℕ) (size : ℕ) : List ℕ := freeList.take size ++ List.replicate (size - freeList.length) 0

/-- Prepend id to the free list. Reading past the end of the list is undefined. -/
def destroy (table : ArrayTable) (id count : ℕ) : Option ArrayTable :=
  let freeList := if table.freeList.length ≤ count then resize table.freeList ((count + 1) % wordModulus)
    else table.freeList
  if id ≠ 0 ∧ count < freeList.length then
    some { table with
      objects := Function.update table.objects (address id) (freeList.getD count 0)
      freeList := freeList.set count id
      size := table.size - count }
  else none

def clear (table : ArrayTable) : ArrayTable :=
  { table with size := 0, freeBlockIdx := 0, freeIdx := 0, blocks := [], freeList := [] }

end ArrayTable

structure MadeArray where
  id : ℕ
  count : ℕ
  array : Address
  deriving DecidableEq

structure Client where
  table : ArrayTable
  live : List MadeArray

inductive Call
  | make (count : ℕ)
  | destroy (made : MadeArray)
  | write (made : MadeArray) (offset value : ℕ)
  | clear

namespace Client

def init (objects : Address → ℕ) : Client := ⟨.init objects, []⟩

/-- Only live arrays are destroyed or written. -/
def step (st : Client) : Call → Option Client
  | .make count =>
    if 1 ≤ count ∧ count < wordModulus then
      (st.table.make count).map fun made => ⟨made.1, ⟨made.2.2, count, made.2.1⟩ :: st.live⟩
    else none
  | .destroy made => if made ∈ st.live then (st.table.destroy made.id made.count).map fun table =>
    ⟨table, st.live.erase made⟩ else none
  | .write made offset value =>
    if made ∈ st.live ∧ offset < made.count then
      some { st with table := { st.table with
        objects := Function.update st.table.objects (made.array.1, made.array.2 + offset) value } }
    else none
  | .clear => some ⟨st.table.clear, []⟩

end Client
end Source

section Meaning

def Apart (made made' : MadeArray) : Prop :=
  made.array.1 ≠ made'.array.1 ∨ made.array.2 + made.count ≤ made'.array.2 ∨ made'.array.2 + made'.count ≤ made.array.2

def InsideBlock (table : ArrayTable) (made : MadeArray) : Prop :=
  ∃ size, table.blocks[made.array.1]? = some size ∧ made.array.2 + made.count ≤ size

/-- The arrays that are live are arrays of their own, and can be destroyed. -/
structure Client.Sound (st : Client) : Prop where
  inside : ∀ made ∈ st.live, InsideBlock st.table made
  apart : st.live.Pairwise Apart
  ids : (st.live.map (·.id)).Nodup
  nonzero : ∀ made ∈ st.live, made.id ≠ 0
  pointers : ∀ made ∈ st.live, ArrayTable.pointer made.id = some made.array
  destroyed : ∀ made ∈ st.live, (st.table.destroy made.id made.count).isSome
  size : st.table.size = (st.live.map (·.count)).sum

/-- The index after a new array is a word, unless the array is a destroyed one. -/
def Client.InRange (st : Client) : Call → Prop
  | .make count => st.table.isFree count ∨
    (if st.table.blocks.length = 0 then 1 else st.table.freeIdx) + count < wordModulus
  | _ => True

inductive Client.Reached : Client → Prop
  | init (objects : Address → ℕ) : Reached (init objects)
  | step {st st' : Client} {call : Call} (reached : Reached st) (range : st.InRange call) (next : st.step call =
    some st') : Reached st'

end Meaning

section Invariants
variable {table table' : ArrayTable} {made made' : MadeArray} {freed : ℕ → List MadeArray} {st st' : Client}
    {count size : ℕ}

theorem Apart.symm (apart : Apart made made') : Apart made' made := by
  unfold Apart at *
  omega

def link (id : ℕ) : Option ℕ := if id = 0 then none else some id

theorem link_eq_some {id : ℕ} : link id = some id ↔ id ≠ 0 := by
  unfold link
  split <;> simp [*]

namespace ArrayTable

def next (table : ArrayTable) (id : ℕ) : Option ℕ := link (table.objects (address id))

def Below (table : ArrayTable) (made : MadeArray) : Prop :=
  made.array.1 < table.freeBlockIdx ∨ made.array.1 = table.freeBlockIdx ∧ made.array.2 + made.count ≤ table.freeIdx

structure Placed (table : ArrayTable) (made : MadeArray) : Prop where
  nonzero : made.id ≠ 0
  address : address made.id = made.array
  count : 1 ≤ made.count
  fewer : made.count + 1 < wordModulus
  inside : InsideBlock table made
  below : table.Below made

/-- A block that is larger than others is full. -/
structure Blocks (table : ArrayTable) : Prop where
  few : table.blocks.length < blockIdMax
  last : table.freeBlockIdx + 1 = table.blocks.length
  positive : 1 ≤ table.freeIdx
  fits : ∃ size, table.blocks[table.freeBlockIdx]? = some size ∧ table.freeIdx ≤ size ∧ size < wordModulus ∧
    (size = blockSize ∨ table.freeIdx = size)

structure NoBlocks (table : ArrayTable) : Prop where
  blocks : table.blocks = []
  freeBlockIdx : table.freeBlockIdx = 0
  freeIdx : table.freeIdx = 0

def Shape (table : ArrayTable) : Prop := table.NoBlocks ∨ table.Blocks

theorem address_eq (id : ℕ) : address id = (id / blockSize, id % blockSize) := by
  unfold address blockSize
  rw [Nat.shiftRight_eq_div_pow,Nat.and_two_pow_sub_one_eq_mod]

theorem address_freeId (few : table.freeBlockIdx < blockIdMax) (inner : table.freeIdx < blockSize) :
    table.freeId = table.freeBlockIdx * blockSize + table.freeIdx ∧
    address table.freeId = (table.freeBlockIdx, table.freeIdx) := by
  have id : table.freeId = table.freeBlockIdx * blockSize + table.freeIdx := by
    unfold freeId
    rw [Nat.shiftLeft_eq]
    unfold blockIdMax blockSize idxBits wordModulus at *
    omega
  refine ⟨id, ?_⟩
  rw [id,address_eq]
  unfold blockSize idxBits at *
  rw [Prod.mk.injEq]
  omega

end ArrayTable

open ArrayTable in
/-- The ghost state of a client: the destroyed arrays of each count, the last one first. -/
structure Client.Invariant (st : Client) (freed : ℕ → List MadeArray) : Prop where
  shape : st.table.Shape
  once : st.live.Nodup
  counts : ∀ count, ∀ made ∈ freed count, made.count = count
  released : ∀ made ∈ st.live, made ∉ freed made.count
  placed : ∀ made, made ∈ st.live ∨ made ∈ freed made.count → st.table.Placed made
  apart : ∀ made made', made ∈ st.live ∨ made ∈ freed made.count → made' ∈ st.live ∨ made' ∈ freed made'.count →
    made ≠ made' → Apart made made'
  lists : ∀ count, IsList st.table.next (link (st.table.freeList.getD count 0)) ((freed count).map (·.id))
  size : st.table.size = (st.live.map (·.count)).sum

namespace ArrayTable

theorem Placed.array_ne (placed : table.Placed made) (placed' : table.Placed made') (apart : Apart made made') :
    made.array ≠ made'.array := by
  intro same
  have count := placed.count
  have count' := placed'.count
  unfold Apart at apart
  rw [same] at apart
  omega

theorem Placed.id_ne (placed : table.Placed made) (placed' : table.Placed made') (apart : Apart made made') :
    made.id ≠ made'.id := by
  intro same
  apply placed.array_ne placed' apart
  rw [← placed.address,← placed'.address,same]

theorem Placed.congr (placed : table.Placed made) (blocks : table'.blocks = table.blocks)
    (freeBlockIdx : table'.freeBlockIdx = table.freeBlockIdx)
    (freeIdx : table'.freeIdx = table.freeIdx) : table'.Placed made := by
  refine ⟨placed.nonzero, placed.address, placed.count, placed.fewer, ?_, ?_⟩
  · unfold InsideBlock
    rw [blocks]
    exact placed.inside
  · unfold Below
    rw [freeBlockIdx,freeIdx]
    exact placed.below

theorem Shape.congr (shape : table.Shape) (blocks : table'.blocks = table.blocks)
    (freeBlockIdx : table'.freeBlockIdx = table.freeBlockIdx) (freeIdx : table'.freeIdx = table.freeIdx) :
    table'.Shape := by
  rcases shape with no | some
  · exact .inl ⟨blocks.trans no.blocks, freeBlockIdx.trans no.freeBlockIdx, freeIdx.trans no.freeIdx⟩
  · right
    obtain ⟨few, last, positive, fits⟩ := some
    refine ⟨?_, ?_, ?_, ?_⟩
    · rw [blocks]; exact few
    · rw [blocks,freeBlockIdx]; exact last
    · rw [freeIdx]; exact positive
    · rw [blocks,freeBlockIdx,freeIdx]; exact fits

end ArrayTable

namespace Client

theorem invariant_init (objects : Address → ℕ) : (init objects).Invariant fun _ => [] where
  shape := .inl ⟨rfl, rfl, rfl⟩
  once := .nil
  counts := by simp
  released := by simp
  placed := by simp [init]
  apart := by simp [init]
  lists := by
    intro count
    simp [init,ArrayTable.init,link,IsList]
  size := rfl

theorem invariant_clear (st : Client) : Invariant ⟨st.table.clear, []⟩ fun _ => [] where
  shape := .inl ⟨rfl, rfl, rfl⟩
  once := .nil
  counts := by simp
  released := by simp
  placed := by simp
  apart := by simp
  lists := by
    intro count
    simp [ArrayTable.clear,link,IsList]
  size := rfl

theorem Invariant.freed_apart (inv : st.Invariant freed) (live : made ∈ st.live) (mem : made' ∈ freed count) :
    st.table.Placed made' ∧ Apart made made' := by
  have counted := inv.counts count made' mem
  have free : made' ∈ freed made'.count := by rw [counted]; exact mem
  have distinct : made ≠ made' := by
    rintro rfl
    exact inv.released made live free
  exact ⟨inv.placed made' (.inr free), inv.apart made made' (.inl live) (.inr free) distinct⟩

theorem Invariant.write (inv : st.Invariant freed) (live : made ∈ st.live) {offset : ℕ} (inside : offset < made.count)
    (value : ℕ) :
    Invariant ⟨{ st.table with
    objects := Function.update st.table.objects (made.array.1, made.array.2 + offset) value }, st.live⟩ freed where
  shape := inv.shape.congr rfl rfl rfl
  once := inv.once
  counts := inv.counts
  released := inv.released
  placed := fun made' issued => (inv.placed made' issued).congr rfl rfl rfl
  apart := inv.apart
  lists := by
    intro count
    apply (inv.lists count).congr
    intro id mem
    obtain ⟨made', mem', rfl⟩ := List.mem_map.1 mem
    obtain ⟨placed', apart⟩ := inv.freed_apart live mem'
    have other : ArrayTable.address made'.id ≠ (made.array.1, made.array.2 + offset) := by
      rw [placed'.address]
      intro same
      have count' := placed'.count
      unfold Apart at apart
      rw [same] at apart
      simp only at apart
      omega
    exact congrArg link (Function.update_of_ne other _ _)
  size := inv.size

theorem getD_set_self {freeList : List ℕ} (inside : count < freeList.length) (id : ℕ) :
    (freeList.set count id).getD count 0 = id := by
  rw [List.getD_eq_getElem?_getD,List.getElem?_set_self inside]
  rfl

theorem getD_set_ne {freeList : List ℕ} {count' : ℕ} (other : count' ≠ count) (id : ℕ) :
    (freeList.set count id).getD count' 0 = freeList.getD count' 0 := by
  rw [List.getD_eq_getElem?_getD,List.getElem?_set_ne (Ne.symm other),← List.getD_eq_getElem?_getD]

theorem getD_resize (freeList : List ℕ) (more : freeList.length ≤ count) (index : ℕ) :
    (ArrayTable.resize freeList (count + 1)).getD index 0 = freeList.getD index 0 := by
  unfold ArrayTable.resize
  rw [List.take_of_length_le (by omega),List.getD_eq_getElem?_getD,List.getD_eq_getElem?_getD,List.getElem?_append]
  split
  · rfl
  · rename_i past
    rw [List.getElem?_eq_none (Nat.not_lt.1 past),List.getElem?_replicate]
    split <;> rfl

theorem length_resize (freeList : List ℕ) (more : freeList.length ≤ count) :
    (ArrayTable.resize freeList (count + 1)).length = count + 1 := by
  unfold ArrayTable.resize
  rw [List.length_append,List.length_take,List.length_replicate]
  omega

theorem destroy_eq (placed : st.table.Placed made) : ∃ freeList : List ℕ, made.count < freeList.length ∧
    (∀ index, freeList.getD index 0 = st.table.freeList.getD index 0) ∧
    st.table.destroy made.id made.count = some { st.table with
      objects := Function.update st.table.objects (ArrayTable.address made.id) (freeList.getD made.count 0)
      freeList := freeList.set made.count made.id
      size := st.table.size - made.count } := by
  generalize grown : (if st.table.freeList.length ≤ made.count then ArrayTable.resize st.table.freeList
    ((made.count + 1) % wordModulus)
    else st.table.freeList) = freeList
  have list : made.count < freeList.length ∧ ∀ index, freeList.getD index 0 = st.table.freeList.getD index 0 := by
    subst grown
    by_cases more : st.table.freeList.length ≤ made.count
    · rw [if_pos more,Nat.mod_eq_of_lt placed.fewer]
      exact ⟨by rw [length_resize _ more]; exact Nat.lt_succ_self _, getD_resize _ more⟩
    · rw [if_neg more]
      exact ⟨Nat.not_le.1 more, fun _ => rfl⟩
  refine ⟨freeList, list.1, list.2, ?_⟩
  unfold ArrayTable.destroy
  rw [grown]
  exact if_pos ⟨placed.nonzero, list.1⟩

theorem mem_pushFreed : made' ∈ Function.update freed made.count (made :: freed made.count) count ↔
    made' = made ∧ count = made.count ∨ made' ∈ freed count := by
  by_cases same : count = made.count
  · subst same
    rw [Function.update_self,List.mem_cons]
    exact or_congr_left (and_iff_left rfl).symm
  · rw [Function.update_of_ne same]
    exact (or_iff_right fun both => same both.2).symm

theorem Invariant.destroy (inv : st.Invariant freed) (live : made ∈ st.live) :
    ∃ table', st.table.destroy made.id made.count = some table' ∧
    Invariant ⟨table', st.live.erase made⟩ (Function.update freed made.count (made :: freed made.count)) := by
  have placed := inv.placed made (.inl live)
  have issued : ∀ made', made' ∈ st.live.erase made ∨
    made' ∈ Function.update freed made.count (made :: freed made.count) made'.count →
      made' ∈ st.live ∨ made' ∈ freed made'.count := by
    rintro made' (mem | mem)
    · exact .inl (List.mem_of_mem_erase mem)
    · rcases mem_pushFreed.1 mem with ⟨rfl, -⟩ | mem
      · exact .inl live
      · exact .inr mem
  obtain ⟨freeList, inside, same, destroyed⟩ := destroy_eq placed
  refine ⟨_, destroyed, ?_⟩
  refine ⟨inv.shape.congr rfl rfl rfl, inv.once.erase made, ?_, ?_, ?_, ?_, ?_, ?_⟩
  · intro count made' mem
    rcases mem_pushFreed.1 mem with ⟨rfl, here⟩ | mem
    · exact here.symm
    · exact inv.counts count made' mem
  · intro made' mem mem'
    rw [inv.once.mem_erase_iff] at mem
    rcases mem_pushFreed.1 mem' with here | mem'
    · exact mem.1 here.1
    · exact inv.released made' mem.2 mem'
  · intro made' mem
    exact (inv.placed made' (issued made' mem)).congr rfl rfl rfl
  · intro made' made'' mem mem'
    exact inv.apart made' made'' (issued made' mem) (issued made'' mem')
  · intro count
    have others : ∀ id ∈ (freed count).map (·.id), link (Function.update st.table.objects (ArrayTable.address made.id)
        (freeList.getD made.count 0) (ArrayTable.address id)) = st.table.next id := by
      intro id mem
      obtain ⟨made', mem', rfl⟩ := List.mem_map.1 mem
      obtain ⟨placed', apart⟩ := inv.freed_apart live mem'
      have other : ArrayTable.address made'.id ≠ ArrayTable.address made.id := by
        rw [placed.address,placed'.address]
        exact placed'.array_ne placed apart.symm
      exact congrArg link (Function.update_of_ne other _ _)
    have rest := (inv.lists count).congr others
    by_cases here : count = made.count
    · subst here
      rw [Function.update_self,List.map_cons]
      refine ⟨?_, ?_⟩
      · rw [getD_set_self inside]
        exact link_eq_some.2 placed.nonzero
      · have follows : link (Function.update st.table.objects (ArrayTable.address made.id) (freeList.getD made.count 0)
            (ArrayTable.address made.id)) = link (st.table.freeList.getD made.count 0) := by
          rw [Function.update_self,same]
        rw [← follows] at rest
        exact rest
    · rw [Function.update_of_ne here]
      have head : (freeList.set made.count made.id).getD count 0 = st.table.freeList.getD count 0 :=
        (getD_set_ne here _).trans (same count)
      exact head.symm ▸ rest
  · have sum := ((List.perm_cons_erase live).map (·.count)).sum_eq
    rw [List.map_cons,List.sum_cons] at sum
    change st.table.size - made.count = _
    rw [inv.size,sum]
    exact Nat.add_sub_cancel_left ..

theorem mem_popFreed {rest : List MadeArray} {count' : ℕ} (chain : freed count = made :: rest)
    (mem : made' ∈ Function.update freed count rest count') : made' ∈ freed count' := by
  by_cases here : count' = count
  · subst here
    rw [Function.update_self] at mem
    rw [chain]
    exact List.mem_cons_of_mem made mem
  · rw [Function.update_of_ne here] at mem
    exact mem

theorem Invariant.makeFree (inv : st.Invariant freed) (free : st.table.isFree count) : ∃ freed',
    Invariant ⟨st.table.makeFree count,
    ⟨st.table.freeList.getD count 0, count, ArrayTable.address (st.table.freeList.getD count 0)⟩ :: st.live⟩
      freed' := by
  have list := inv.lists count
  have head := list.head_eq
  rw [link_eq_some.2 free.2] at head
  cases chain : freed count with
  | nil =>
    rw [chain] at head
    cases head
  | cons made rest =>
    rw [chain] at head
    replace head : st.table.freeList.getD count 0 = made.id := Option.some.inj head
    have mem : made ∈ freed count := by rw [chain]; exact List.mem_cons_self
    have counted := inv.counts count made mem
    have destroyed : made ∈ freed made.count := by rw [counted]; exact mem
    have placed := inv.placed made (.inr destroyed)
    have same : (⟨st.table.freeList.getD count 0, count,
      ArrayTable.address (st.table.freeList.getD count 0)⟩ : MadeArray) = made := by
      rw [head,placed.address,← counted]
    have fresh : made ∉ st.live := fun live => inv.released made live destroyed
    have ids := list.nodup
    rw [chain,List.map_cons,List.nodup_cons] at ids
    have gone : made ∉ rest := fun mem => ids.1 (List.mem_map_of_mem mem)
    rw [same]
    have issued : ∀ made', made' ∈ made :: st.live ∨ made' ∈ Function.update freed count rest made'.count →
        made' ∈ st.live ∨ made' ∈ freed made'.count := by
      rintro made' (mem' | mem')
      · rcases List.mem_cons.1 mem' with rfl | live
        · exact .inr destroyed
        · exact .inl live
      · exact .inr (mem_popFreed chain mem')
    refine ⟨Function.update freed count rest, inv.shape.congr rfl rfl rfl, List.nodup_cons.2 ⟨fresh, inv.once⟩, ?_, ?_,
      ?_, ?_, ?_, ?_⟩
    · intro count' made' mem'
      exact inv.counts count' made' (mem_popFreed chain mem')
    · intro made' live mem'
      rcases List.mem_cons.1 live with rfl | live
      · rw [counted,Function.update_self] at mem'
        exact gone mem'
      · exact inv.released made' live (mem_popFreed chain mem')
    · intro made' mem'
      exact (inv.placed made' (issued made' mem')).congr rfl rfl rfl
    · intro made' made'' mem' mem''
      exact inv.apart made' made'' (issued made' mem') (issued made'' mem'')
    · intro count'
      by_cases here : count' = count
      · subst here
        rw [Function.update_self]
        have follows : (st.table.freeList.set count'
          (st.table.objects (ArrayTable.address (st.table.freeList.getD count' 0)))).getD count' 0 =
            st.table.objects (ArrayTable.address made.id) := by
          rw [getD_set_self free.1,head]
        rw [chain] at list
        exact follows.symm ▸ list.2
      · rw [Function.update_of_ne here]
        have head' : (st.table.freeList.set count
          (st.table.objects (ArrayTable.address (st.table.freeList.getD count 0)))).getD count' 0 =
            st.table.freeList.getD count' 0 := getD_set_ne here _
        exact head'.symm ▸ inv.lists count'
    · change st.table.size + count = _
      rw [inv.size,List.map_cons,List.sum_cons,counted,Nat.add_comm]

end Client

namespace ArrayTable

/-- A table with room for an array after the others. -/
structure Ready (table : ArrayTable) (count : ℕ) : Prop where
  few : table.blocks.length < blockIdMax
  last : table.freeBlockIdx + 1 = table.blocks.length
  inner : table.freeIdx < blockSize
  nonzero : table.freeBlockIdx = 0 → 1 ≤ table.freeIdx
  room : ∃ size, table.blocks[table.freeBlockIdx]? = some size ∧ table.freeIdx + count ≤ size ∧ size < wordModulus ∧
    (size = blockSize ∨ table.freeIdx + count = size)

structure Keeps (table table' : ArrayTable) : Prop where
  size : table'.size = table.size
  freeList : table'.freeList = table.freeList
  objects : table'.objects = table.objects
  blocks : ∀ made, InsideBlock table made → InsideBlock table' made
  below : ∀ made, table.Placed made → table'.Below made

theorem length_of_last {blocks : List ℕ} {last : ℕ} (length : last + 1 = blocks.length) : blocks.length ≠ 0 := by omega

theorem makeBlock_ready (positive : 1 ≤ count)
    (range : (if table.blocks.length = 0 then 1 else table.freeIdx) + count < wordModulus)
    (made : table.makeBlock (table.newBlockSize count) = some table') : table'.Ready count ∧ table.Keeps table' := by
  unfold makeBlock at made
  split at made
  · cases made
  · rename_i few
    obtain rfl := (Option.some.inj made).symm
    have inside : ∀ made size, InsideBlock table made → InsideBlock { table with
        blocks := table.blocks ++ [size]
        freeBlockIdx := table.blocks.length
        freeIdx := if 0 < table.blocks.length then 0 else 1 } made := by
      rintro made size ⟨size', block, fits⟩
      exact ⟨size', by rw [List.getElem?_append_left (List.getElem?_eq_some_iff.1 block).1]; exact block, fits⟩
    have earlier : ∀ made, table.Placed made → made.array.1 < table.blocks.length := by
      intro made placed
      obtain ⟨size, block, -⟩ := placed.inside
      exact (List.getElem?_eq_some_iff.1 block).1
    refine ⟨⟨?_, ?_, ?_, ?_, ⟨table.newBlockSize count, ?_, ?_⟩⟩,
      ⟨rfl, rfl, rfl, fun made => inside made _, fun made placed => .inl (earlier made placed)⟩⟩
    · simpa using few
    · simp
    · change (if 0 < table.blocks.length then 0 else 1) < blockSize
      split <;> decide
    · intro first
      change table.blocks.length = 0 at first
      change 1 ≤ if 0 < table.blocks.length then 0 else 1
      simp [first]
    · exact List.getElem?_concat_length
    · change (if 0 < table.blocks.length then 0 else 1) + count ≤ table.newBlockSize count ∧
        table.newBlockSize count < wordModulus ∧
        (table.newBlockSize count = blockSize ∨ (if 0 < table.blocks.length then 0 else 1) + count =
          table.newBlockSize count)
      have block : blockSize = 128 := rfl
      unfold newBlockSize wordModulus at *
      rw [block]
      by_cases first : table.blocks.length = 0
      · have none : ¬0 < table.blocks.length := by omega
        rw [if_pos first] at range
        rw [if_neg none]
        by_cases large : 128 - 1 < count
        · rw [if_pos ⟨first, large⟩]
          omega
        · rw [if_neg (fun both => large both.2),if_neg (by omega)]
          omega
      · have some : 0 < table.blocks.length := by omega
        rw [if_neg first] at range
        rw [if_pos some,if_neg (fun both => first both.1)]
        split <;> omega

theorem ensureRoom_ready (shape : table.Shape) (positive : 1 ≤ count)
    (range : (if table.blocks.length = 0 then 1 else table.freeIdx) + count < wordModulus)
    (room : table.ensureRoom count = some table') : table'.Ready count ∧ table.Keeps table' := by
  unfold ensureRoom at room
  by_cases full : table.blockIsFull count
  · rw [if_pos full] at room
    exact makeBlock_ready positive range room
  · rw [if_neg full] at room
    cases room
    rcases shape with no | blocks
    · exact absurd (.inl ⟨no.freeIdx, no.freeBlockIdx⟩) full
    · obtain ⟨few, last, one, size, block, fits, word, kind⟩ := blocks
      rw [if_neg (length_of_last last)] at range
      unfold blockIsFull at full
      rw [List.getD_eq_getElem?_getD,block,Nat.mod_eq_of_lt range,Option.getD_some] at full
      have least : size = blockSize := by omega
      exact ⟨⟨few, last, by omega, fun _ => one, ⟨size, block, by omega, word, .inl least⟩⟩,
        ⟨rfl, rfl, rfl, fun _ inside => inside, fun _ placed => placed.below⟩⟩

end ArrayTable

namespace Client

theorem makeNext_freeIdx {table : ArrayTable} (ready : table.Ready count) :
    (table.makeNext count).freeIdx = table.freeIdx + count := by
  obtain ⟨size, -, room, word, -⟩ := ready.room
  exact Nat.mod_eq_of_lt (by omega)

theorem makeNext_placed {table : ArrayTable} (positive : 1 ≤ count) (fewer : count + 1 < wordModulus)
    (ready : table.Ready count) :
    (table.makeNext count).Placed ⟨table.freeId, count, (table.freeBlockIdx, table.freeIdx)⟩ := by
  have newIdx := makeNext_freeIdx ready
  obtain ⟨few, last, inner, nonzero, size, block, room, word, kind⟩ := ready
  obtain ⟨id, address⟩ := ArrayTable.address_freeId (by omega) inner
  refine ⟨?_, address, positive, fewer, ⟨size, block, room⟩, .inr ⟨rfl, newIdx.ge⟩⟩
  change table.freeId ≠ 0
  rw [id]
  unfold ArrayTable.blockSize ArrayTable.idxBits
  omega

theorem keeps_makeNext {table : ArrayTable} (ready : table.Ready count) (keeps : st.table.Keeps table)
    (placed : st.table.Placed made) :
    (table.makeNext count).Placed made ∧ Apart made ⟨table.freeId, count, (table.freeBlockIdx, table.freeIdx)⟩ := by
  refine ⟨⟨placed.nonzero, placed.address, placed.count, placed.fewer, keeps.blocks made placed.inside, ?_⟩, ?_⟩
  · unfold ArrayTable.Below
    rw [makeNext_freeIdx ready]
    rcases keeps.below made placed with earlier | ⟨same, before⟩
    · exact .inl earlier
    · exact .inr ⟨same, before.trans (Nat.le_add_right ..)⟩
  · rcases keeps.below made placed with earlier | ⟨same, before⟩
    · exact .inl earlier.ne
    · exact .inr (.inl before)

theorem Invariant.makeNext (inv : st.Invariant freed) (positive : 1 ≤ count) (fewer : count + 1 < wordModulus)
    {table : ArrayTable} (ready : table.Ready count) (keeps : st.table.Keeps table) :
    Invariant ⟨table.makeNext count, ⟨table.freeId, count, (table.freeBlockIdx, table.freeIdx)⟩ :: st.live⟩ freed := by
  have place := makeNext_placed positive fewer ready
  have newIdx := makeNext_freeIdx ready
  have places : ∀ made, st.table.Placed made →
      (table.makeNext count).Placed made ∧ Apart made ⟨table.freeId, count, (table.freeBlockIdx, table.freeIdx)⟩ :=
    fun made placed => keeps_makeNext ready keeps placed
  obtain ⟨few, last, inner, nonzero, size, block, room, word, kind⟩ := ready
  generalize isNew : (⟨table.freeId, count, (table.freeBlockIdx, table.freeIdx)⟩ : MadeArray) = new at place places
  have fresh : ∀ made, st.table.Placed made → made ≠ new := by
    intro made placed same
    have apart := (places made placed).2
    rw [same] at apart
    have one := place.count
    unfold Apart at apart
    omega
  have cases : ∀ made, made ∈ new :: st.live ∨ made ∈ freed made.count → made = new ∨
    (made ∈ st.live ∨ made ∈ freed made.count) := by
    rintro made (mem | mem)
    · rcases List.mem_cons.1 mem with rfl | live
      · exact .inl rfl
      · exact .inr (.inl live)
    · exact .inr (.inr mem)
  refine ⟨.inr ⟨few, last, ?_, ⟨size, block, ?_, word, ?_⟩⟩, ?_, inv.counts, ?_, ?_, ?_, ?_, ?_⟩
  · rw [newIdx]
    omega
  · rw [newIdx]
    exact room
  · rw [newIdx]
    exact kind
  · apply List.nodup_cons.2 ⟨?_, inv.once⟩
    intro live
    exact fresh new (inv.placed new (.inl live)) rfl
  · intro made mem mem'
    rcases List.mem_cons.1 mem with rfl | live
    · exact fresh made (inv.placed made (.inr mem')) rfl
    · exact inv.released made live mem'
  · intro made mem
    rcases cases made mem with rfl | issued
    · exact place
    · exact (places made (inv.placed made issued)).1
  · intro made made' mem mem' distinct
    rcases cases made mem with rfl | issued
    · rcases cases made' mem' with rfl | issued'
      · exact absurd rfl distinct
      · exact (places made' (inv.placed made' issued')).2.symm
    · rcases cases made' mem' with rfl | issued'
      · exact (places made (inv.placed made issued)).2
      · exact inv.apart made made' issued issued' distinct
  · intro count'
    have same : (table.makeNext count).next = st.table.next := by
      funext id
      change link (table.objects _) = link (st.table.objects _)
      rw [keeps.objects]
    change IsList (table.makeNext count).next (link (table.freeList.getD count' 0)) _
    rw [same,keeps.freeList]
    exact inv.lists count'
  · change table.size + count = _
    subst isNew
    rw [keeps.size,inv.size,List.map_cons,List.sum_cons,Nat.add_comm]

theorem Invariant.step {call : Call} (inv : st.Invariant freed) (range : st.InRange call)
    (next : st.step call = some st') :
    ∃ freed', st'.Invariant freed' := by
  cases call with
  | make count =>
    simp only [Client.step] at next
    split at next
    · rename_i positive
      obtain ⟨⟨table, array, id⟩, made, rfl⟩ := Option.map_eq_some_iff.1 next
      unfold ArrayTable.make at made
      by_cases free : st.table.isFree count
      · rw [if_pos free] at made
        cases made
        exact inv.makeFree free
      · rw [if_neg free] at made
        obtain ⟨table', room, made⟩ := Option.map_eq_some_iff.1 made
        cases made
        have word := range.resolve_left free
        obtain ⟨ready, keeps⟩ := ArrayTable.ensureRoom_ready inv.shape positive.1 word room
        refine ⟨freed, inv.makeNext positive.1 ?_ ready keeps⟩
        rcases inv.shape with no | blocks
        · rw [no.blocks] at word
          exact Nat.add_comm 1 count ▸ word
        · have one := blocks.positive
          rw [if_neg (ArrayTable.length_of_last blocks.last)] at word
          omega
    · cases next
  | destroy made =>
    simp only [Client.step] at next
    split at next
    · rename_i live
      obtain ⟨table', destroyed, inv'⟩ := inv.destroy live
      rw [destroyed] at next
      cases next
      exact ⟨_, inv'⟩
    · cases next
  | write made offset value =>
    simp only [Client.step] at next
    split at next
    · rename_i live
      cases next
      exact ⟨freed, inv.write live.1 live.2 value⟩
    · cases next
  | clear =>
    cases next
    exact ⟨_, invariant_clear st⟩

theorem Invariant.sound (inv : st.Invariant freed) : st.Sound := by
  have apart : ∀ made ∈ st.live, ∀ made' ∈ st.live, made ≠ made' → Apart made made' :=
    fun made live made' live' => inv.apart made made' (.inl live) (.inl live')
  refine ⟨fun made live => (inv.placed made (.inl live)).inside, ?_, ?_, fun made live =>
    (inv.placed made (.inl live)).nonzero, ?_, ?_, inv.size⟩
  · exact inv.once.imp_of_mem fun live live' distinct => apart _ live _ live' distinct
  · rw [List.nodup_map_iff_inj_on inv.once]
    intro made live made' live' same
    by_contra distinct
    exact (inv.placed made (.inl live)).id_ne (inv.placed made' (.inl live'))
      (apart made live made' live' distinct) same
  · intro made live
    have placed := inv.placed made (.inl live)
    rw [ArrayTable.pointer,if_neg placed.nonzero,placed.address]
  · intro made live
    obtain ⟨table, destroyed, -⟩ := inv.destroy live
    rw [destroyed]
    rfl

/-- The index is too great for the block that the array is made in. -/
theorem Invariant.not_sound {call : Call} (inv : st.Invariant freed) (range : ¬st.InRange call)
    (next : st.step call = some st') : ¬st'.Sound := by
  cases call with
  | make count =>
    simp only [Client.step] at next
    split at next
    · rename_i positive
      obtain ⟨⟨table, array, id⟩, made, rfl⟩ := Option.map_eq_some_iff.1 next
      obtain ⟨free, word⟩ := not_or.1 range
      unfold ArrayTable.make at made
      rw [if_neg free] at made
      obtain ⟨table', room, made⟩ := Option.map_eq_some_iff.1 made
      cases made
      intro sound
      obtain ⟨size', block', inside⟩ := sound.inside _ List.mem_cons_self
      change table'.blocks[table'.freeBlockIdx]? = some size' at block'
      change table'.freeIdx + count ≤ size' at inside
      rcases inv.shape with no | ⟨few, last, one, size, block, fits, small, kind⟩
      · rw [no.blocks,List.length_nil,if_pos rfl] at word
        unfold ArrayTable.ensureRoom at room
        rw [if_pos (.inl ⟨no.freeIdx, no.freeBlockIdx⟩)] at room
        unfold ArrayTable.makeBlock at room
        split at room
        · cases room
        · cases room
          have large : ArrayTable.blockSize - 1 < count := by
            have block : ArrayTable.blockSize = 128 := rfl
            unfold wordModulus at word
            omega
          have zero : (count + 1) % wordModulus = 0 := by
            have all : count + 1 = wordModulus := by omega
            rw [all,Nat.mod_self]
          simp only [ArrayTable.newBlockSize,no.blocks,List.length_nil,List.nil_append,List.getElem?_cons_zero,
            Option.some.injEq,
            large,true_and,if_true,zero] at block'
          omega
      · rw [if_neg (ArrayTable.length_of_last last)] at word
        have wrapped : (st.table.freeIdx + count) % wordModulus = st.table.freeIdx + count - wordModulus := by
          rw [Nat.mod_eq_sub_mod (Nat.not_lt.1 word),Nat.mod_eq_of_lt (by omega)]
        have notFull : ¬st.table.blockIsFull count := by
          unfold ArrayTable.blockIsFull
          rw [List.getD_eq_getElem?_getD,block,wrapped,Option.getD_some]
          omega
        unfold ArrayTable.ensureRoom at room
        rw [if_neg notFull] at room
        cases room
        rw [block] at block'
        cases block'
        omega
    · cases next
  | destroy made => exact absurd trivial range
  | write made offset value => exact absurd trivial range
  | clear => exact absurd trivial range

theorem Reached.invariant (reached : st.Reached) : ∃ freed, st.Invariant freed := by
  induction reached with
  | init objects => exact ⟨_, invariant_init objects⟩
  | step _ range next ih =>
    obtain ⟨freed, inv⟩ := ih
    exact inv.step range next

/-- In a run of calls in range the arrays are sound, and a call after it leaves them so exactly where it is in range. -/
theorem Reached.arraysApart (reached : st.Reached) :
    st.Sound ∧ ∀ call st', st.step call = some st' → (st'.Sound ↔ st.InRange call) := by
  obtain ⟨freed, inv⟩ := reached.invariant
  refine ⟨inv.sound, ?_⟩
  intro call st' next
  constructor
  · intro sound
    by_contra range
    exact inv.not_sound range next sound
  · intro range
    obtain ⟨freed', inv'⟩ := inv.step range next
    exact inv'.sound

def oneArray : Client := ⟨⟨3, 0, 4, [128], [], fun _ => 0⟩, [⟨1, 3, (0, 1)⟩]⟩

theorem oneArray_reached : oneArray.Reached := by
  apply Reached.step (.init fun _ => 0)
  · change (init fun _ => 0).InRange (.make 3)
    exact .inr (by decide)
  · rfl

theorem oneArray_sound : oneArray.Sound := oneArray_reached.arraysApart.1

/-- An index past the end of the words begins again in the block. -/
def overlong : Client := ⟨⟨4294967296, 0, 1, [128], [], fun _ => 0⟩, [⟨2, 4294967295, (0, 2)⟩, ⟨1, 1, (0, 1)⟩]⟩

theorem overlong_made : ((init fun _ => 0).step (.make 1)).bind (·.step (.make 4294967295)) = some overlong ∧
    ¬overlong.Sound := by
  refine ⟨rfl, ?_⟩
  intro sound
  obtain ⟨size, block, inside⟩ := sound.inside _ List.mem_cons_self
  cases block
  exact absurd inside (by decide)

end Client
end Invariants

end GTPower.ArrayTables
