import GTPower.LinkedLists
import Mathlib.Algebra.BigOperators.Group.Finset.Basic
import Mathlib.Algebra.Ring.Int.Defs

/-! The edges of the timing graph, threaded on the out list of their first vertex and on the in list of their second
one. A field of the objects is a function of their ids; reading or writing a deleted object is `none`, as is a loop over
a list that does not end. -/
namespace GTPower.EdgeLists
open Linked

section Table

/-- Ids that are free are handed out again, the last one first. -/
structure ObjectTable where
  size : ℕ
  free : List ℕ
  blocks : ℕ

namespace ObjectTable

def blockObjectCount : ℕ := 128

def blockIdMax : ℕ := 2 ^ 25

def empty : ObjectTable := ⟨0, [], 0⟩

/-- Id zero is reserved. The program ends when there are too many blocks. -/
def makeBlock (table : ObjectTable) : Option ObjectTable :=
  let last := if 0 < table.blocks then 0 else 1
  let ids := (List.range' last (blockObjectCount - last)).map fun i => table.blocks * blockObjectCount + i
  if blockIdMax ≤ table.blocks + 1 then none
    else some { table with blocks := table.blocks + 1, free := ids ++ table.free }

def pop (table : ObjectTable) : Option (ObjectTable × ℕ) :=
  match table.free with
  | [] => none
  | id :: free => some ({ table with size := table.size + 1, free := free }, id)

def make (table : ObjectTable) : Option (ObjectTable × ℕ) :=
  (if table.free = [] then table.makeBlock else some table).bind pop

def destroy (table : ObjectTable) (id : ℕ) : ObjectTable :=
  { table with size := table.size - 1, free := id :: table.free }

end ObjectTable
end Table

section Source

structure Edge where
  fromVertex : ℕ
  toVertex : ℕ
  arcCount : ℕ
  deriving DecidableEq

structure Graph where
  vertices : ℕ → Bool
  edges : ℕ → Option Edge
  outEdges : ℕ → Option ℕ
  inEdges : ℕ → Option ℕ
  vertexOutNext : ℕ → Option ℕ
  vertexOutPrev : ℕ → Option ℕ
  vertexInLink : ℕ → Option ℕ
  vertexTable : ObjectTable
  edgeTable : ObjectTable
  arcCount : ℤ

namespace Graph

def empty : Graph :=
  ⟨fun _ => false, fun _ => none, fun _ => none, fun _ => none, fun _ => none, fun _ => none, fun _ =>
    none, .empty, .empty, 0⟩

def setOutEdges (st : Graph) (vertex : ℕ) (edge : Option ℕ) : Option Graph :=
  if st.vertices vertex then some { st with outEdges := Function.update st.outEdges vertex edge } else none

def setInEdges (st : Graph) (vertex : ℕ) (edge : Option ℕ) : Option Graph :=
  if st.vertices vertex then some { st with inEdges := Function.update st.inEdges vertex edge } else none

def setOutNext (st : Graph) (edge : ℕ) (next : Option ℕ) : Option Graph :=
  if (st.edges edge).isSome then some { st with vertexOutNext := Function.update st.vertexOutNext edge next } else none

def setOutPrev (st : Graph) (edge : ℕ) (prev : Option ℕ) : Option Graph :=
  if (st.edges edge).isSome then some { st with vertexOutPrev := Function.update st.vertexOutPrev edge prev } else none

/-- Nothing is written when there is no edge. -/
def setOutPrevIf (st : Graph) (edge : Option ℕ) (prev : Option ℕ) : Option Graph :=
  match edge with
  | some edge => st.setOutPrev edge prev
  | none => some st

def setInLink (st : Graph) (edge : ℕ) (next : Option ℕ) : Option Graph :=
  if (st.edges edge).isSome then some { st with vertexInLink := Function.update st.vertexInLink edge next } else none

def makeVertex (st : Graph) : Option (Graph × ℕ) := do
  let (table, vertex) ← st.vertexTable.make
  some ({ st with
    vertexTable := table
    vertices := Function.update st.vertices vertex true
    inEdges := Function.update st.inEdges vertex none
    outEdges := Function.update st.outEdges vertex none }, vertex)

def makeEdge (st : Graph) (fromVertex toVertex : ℕ) (arcCount : ℕ) : Option (Graph × ℕ) := do
  let (table, edge) ← st.edgeTable.make
  let st := { st with
    edgeTable := table
    edges := Function.update st.edges edge (some ⟨fromVertex, toVertex, arcCount⟩)
    arcCount := st.arcCount + arcCount }
  -- Add out edge to from vertex.
  let next := st.outEdges fromVertex
  let st ← st.setOutNext edge next
  let st ← st.setOutPrev edge none
  let st ← st.setOutPrevIf next (some edge)
  let st ← st.setOutEdges fromVertex (some edge)
  -- Add in edge to to vertex.
  let st ← st.setInLink edge (st.inEdges toVertex)
  let st ← st.setInEdges toVertex (some edge)
  some (st, edge)

def prevInEdge (st : Graph) (edge : ℕ) : ℕ → Option ℕ → Option ℕ → Option (Option ℕ)
  | _, none, prev => some prev
  | 0, some _, _ => none
  | fuel + 1, some i, prev =>
    if i = edge then some prev
    else if (st.edges i).isSome then st.prevInEdge edge fuel (st.vertexInLink i) (some i) else none

/-- No list is longer than the ids there are. -/
def fuel (st : Graph) : ℕ := st.edgeTable.blocks * ObjectTable.blockObjectCount

def deleteInEdge (st : Graph) (vertex edge : ℕ) : Option Graph := do
  let prev ← st.prevInEdge edge st.fuel (st.inEdges vertex) none
  match prev with
  | some prev => st.setInLink prev (st.vertexInLink edge)
  | none => st.setInEdges vertex (st.vertexInLink edge)

def deleteOutEdge (st : Graph) (vertex edge : ℕ) : Option Graph := do
  let next := st.vertexOutNext edge
  let prev := st.vertexOutPrev edge
  let st ← match prev with
    | some prev => st.setOutNext prev next
    | none => st.setOutEdges vertex next
  st.setOutPrevIf next prev

/-- The arcs of the edge are taken off the count first. -/
def destroyEdge (st : Graph) (edge : ℕ) (arcCount : ℕ) : Graph :=
  { st with
    arcCount := st.arcCount - arcCount
    edges := Function.update st.edges edge none
    edgeTable := st.edgeTable.destroy edge }

def deleteEdge (st : Graph) (edge : ℕ) : Option Graph := do
  let data ← st.edges edge
  let st ← st.deleteOutEdge data.fromVertex edge
  let st ← st.deleteInEdge data.toVertex edge
  some (st.destroyEdge edge data.arcCount)

/-- Delete edges to vertex. -/
def deleteInEdges : ℕ → Option ℕ → Graph → Option Graph
  | _, none, st => some st
  | 0, some _, _ => none
  | fuel + 1, some edge, st => do
    let data ← st.edges edge
    let next := st.vertexInLink edge
    let st ← st.deleteOutEdge data.fromVertex edge
    deleteInEdges fuel next (st.destroyEdge edge data.arcCount)

/-- Delete edges from vertex. -/
def deleteOutEdges : ℕ → Option ℕ → Graph → Option Graph
  | _, none, st => some st
  | 0, some _, _ => none
  | fuel + 1, some edge, st => do
    let data ← st.edges edge
    let next := st.vertexOutNext edge
    let st ← st.deleteInEdge data.toVertex edge
    deleteOutEdges fuel next (st.destroyEdge edge data.arcCount)

def deleteVertex (st : Graph) (vertex : ℕ) : Option Graph := do
  guard (st.vertices vertex)
  let st ← deleteInEdges st.fuel (st.inEdges vertex) st
  let st ← deleteOutEdges st.fuel (st.outEdges vertex) st
  some { st with vertices := Function.update st.vertices vertex false, vertexTable := st.vertexTable.destroy vertex }

inductive Call
  | makeVertex
  | makeEdge (fromVertex toVertex arcCount : ℕ)
  | deleteEdge (edge : ℕ)
  | deleteVertex (vertex : ℕ)

def step (st : Graph) : Call → Option Graph
  | .makeVertex => st.makeVertex.map Prod.fst
  | .makeEdge fromVertex toVertex arcCount => (st.makeEdge fromVertex toVertex arcCount).map Prod.fst
  | .deleteEdge edge => st.deleteEdge edge
  | .deleteVertex vertex => st.deleteVertex vertex

/-- The calls there can be: their objects are there, and the table is not exhausted. -/
def Legal (st : Graph) : Call → Prop
  | .makeVertex => (st.vertexTable.make).isSome
  | .makeEdge fromVertex toVertex _ => st.vertices fromVertex ∧ st.vertices toVertex ∧ (st.edgeTable.make).isSome
  | .deleteEdge edge => (st.edges edge).isSome
  | .deleteVertex vertex => st.vertices vertex

inductive Reachable : Graph → Prop
  | empty : Reachable empty
  | call {st st' : Graph} (call : Call) : Reachable st → st.Legal call → st.step call = some st' → Reachable st'

end Graph
end Source

section Ids
variable {table table' : ObjectTable} {used : ℕ → Prop} {id : ℕ}

/-- The free ids are apart from the used ones, and later blocks have other ids. -/
structure ObjectTable.Issued (table : ObjectTable) (used : ℕ → Prop) : Prop where
  distinct : table.free.Nodup
  apart : ∀ id ∈ table.free, ¬used id
  below : ∀ id, used id ∨ id ∈ table.free → id < table.blocks * ObjectTable.blockObjectCount

theorem ObjectTable.Issued.empty (none : ∀ id, ¬used id) : ObjectTable.empty.Issued used where
  distinct := .nil
  apart id mem := by cases mem
  below id either := either.elim (fun use => absurd use (none id)) fun mem => by cases mem

theorem ObjectTable.Issued.congr {used' : ℕ → Prop} (issued : table.Issued used) (same : ∀ id, used' id ↔ used id) :
    table.Issued used' where
  distinct := issued.distinct
  apart id mem use := issued.apart id mem ((same id).1 use)
  below id either := issued.below id (either.imp_left (same id).1)

theorem ObjectTable.Issued.makeBlock (issued : table.Issued used) (made : table.makeBlock = some table')
    (emptied : table.free = []) :
    table'.Issued used := by
  unfold ObjectTable.makeBlock at made
  simp only at made
  split at made
  · cases made
  · obtain rfl := Option.some.inj made
    have lower : ∀ id ∈ (List.range' (if 0 < table.blocks then 0 else 1) (ObjectTable.blockObjectCount - if 0 <
      table.blocks then 0 else 1)).map
        (fun i => table.blocks * ObjectTable.blockObjectCount + i),
        table.blocks * ObjectTable.blockObjectCount ≤ id ∧ id < (table.blocks + 1) * ObjectTable.blockObjectCount := by
      intro id mem
      obtain ⟨i, range, rfl⟩ := List.mem_map.1 mem
      have bound := (List.mem_range'_1.1 range).2
      have some : (if 0 < table.blocks then 0 else 1) ≤ ObjectTable.blockObjectCount := by split <;> decide
      rw [Nat.add_mul]
      omega
    constructor
    case distinct =>
      simp only [emptied,List.append_nil]
      exact List.Nodup.map (fun i j same => Nat.add_left_cancel same) List.nodup_range'
    case apart =>
      intro id mem use
      simp only [emptied,List.append_nil] at mem
      exact absurd (issued.below id (.inl use)) (Nat.not_lt.2 (lower id mem).1)
    case below =>
      rintro id (use | mem)
      · refine (issued.below id (.inl use)).trans ?_
        simp only [Nat.add_mul,Nat.one_mul]
        exact Nat.lt_add_of_pos_right (by decide)
      · simp only [emptied,List.append_nil] at mem
        exact (lower id mem).2

theorem ObjectTable.Issued.make (issued : table.Issued used) (made : table.make = some (table', id)) :
    ¬used id ∧ table'.Issued fun other => other = id ∨ used other := by
  obtain ⟨mid, blocks, made⟩ := Option.bind_eq_some_iff.1 made
  have issued : mid.Issued used := by
    split at blocks
    · exact issued.makeBlock blocks ‹_›
    · rw [← Option.some.inj blocks]
      exact issued
  cases free : mid.free with
  | nil => simp [ObjectTable.pop,free] at made
  | cons first free' =>
    simp only [ObjectTable.pop,free,Option.some.injEq,Prod.mk.injEq] at made
    obtain ⟨rfl, rfl⟩ := made
    obtain ⟨fresh, distinct⟩ := List.nodup_cons.1 (free ▸ issued.distinct)
    have inside : first ∈ mid.free := by rw [free]; exact List.mem_cons_self
    have later {other : ℕ} (mem : other ∈ free') : other ∈ mid.free := by rw [free]; exact List.mem_cons_of_mem _ mem
    refine ⟨issued.apart first inside, distinct, ?_, ?_⟩
    · rintro other mem (rfl | use)
      · exact fresh mem
      · exact issued.apart other (later mem) use
    · rintro other ((rfl | use) | mem)
      · exact issued.below other (.inr inside)
      · exact issued.below other (.inl use)
      · exact issued.below other (.inr (later mem))

theorem ObjectTable.Issued.destroy (issued : table.Issued used) (use : used id) : (table.destroy id).Issued fun other =>
    other ≠ id ∧ used other where
  distinct := List.nodup_cons.2 ⟨fun mem => issued.apart id mem use, issued.distinct⟩
  apart other mem both := by
    rcases List.mem_cons.1 mem with same | mem
    · exact both.1 same
    · exact issued.apart other mem both.2
  below other either := by
    rcases either with both | mem
    · exact issued.below other (.inl both.2)
    · rcases List.mem_cons.1 mem with rfl | mem
      · exact issued.below other (.inl use)
      · exact issued.below other (.inr mem)

end Ids

section Threads
variable {st st' : Graph} {outFrom inFrom outFrom' inFrom' : ℕ → Option ℕ} {on on' : ℕ →
    Prop} {out inn out' inn' : ℕ → List ℕ}
  {live : Finset ℕ} {edge vertex : ℕ} {data : Edge}

namespace Graph

def fromOf (st : Graph) (edge : ℕ) : Option ℕ := (st.edges edge).map Edge.fromVertex

def toOf (st : Graph) (edge : ℕ) : Option ℕ := (st.edges edge).map Edge.toVertex

def arcsOf (st : Graph) (edge : ℕ) : ℤ := ((st.edges edge).map fun data => (data.arcCount : ℤ)).getD 0

/-- Deleted vertices have no lists. -/
def outHead (st : Graph) (vertex : ℕ) : Option ℕ := if st.vertices vertex then st.outEdges vertex else none

def inHead (st : Graph) (vertex : ℕ) : Option ℕ := if st.vertices vertex then st.inEdges vertex else none

/-- The lists start where `outFrom` and `inFrom` say, and those of the vertices that are `on` are linked backwards. -/
structure Threads (st : Graph) (outFrom inFrom : ℕ → Option ℕ) (on : ℕ → Prop) (out inn : ℕ → List ℕ)
    (live : Finset ℕ) : Prop where
  outs : Chains outFrom st.vertexOutNext st.fromOf out
  ins : Chains inFrom st.vertexInLink st.toOf inn
  backs : Backs st.vertexOutPrev out on
  mem_live : ∀ edge, edge ∈ live ↔ (st.edges edge).isSome
  arcs : st.arcCount = ∑ edge ∈ live, st.arcsOf edge
  ends : ∀ edge data, st.edges edge = some data → st.vertices data.fromVertex ∧ st.vertices data.toVertex
  edgeIds : st.edgeTable.Issued fun edge => (st.edges edge).isSome
  vertexIds : st.vertexTable.Issued fun vertex => st.vertices vertex

theorem Threads.empty : Threads empty empty.outHead empty.inHead (fun _ => True) (fun _ => []) (fun _ => []) ∅ where
  outs := ⟨fun _ => rfl, fun k a => by simp [Graph.empty,fromOf]⟩
  ins := ⟨fun _ => rfl, fun k a => by simp [Graph.empty,toOf]⟩
  backs _ _ := trivial
  mem_live edge := by simp [Graph.empty]
  arcs := rfl
  ends edge data here := by cases here
  edgeIds := .empty fun _ => Bool.false_ne_true
  vertexIds := .empty fun _ => Bool.false_ne_true

theorem Threads.out_live (threads : Threads st outFrom inFrom on out inn live) (mem : edge ∈ out vertex) :
    (st.edges edge).isSome := by
  have owned := (threads.outs.owner vertex edge).1 mem
  obtain ⟨data, here, -⟩ := Option.map_eq_some_iff.1 owned
  rw [here]
  rfl

theorem Threads.in_live (threads : Threads st outFrom inFrom on out inn live) (mem : edge ∈ inn vertex) :
    (st.edges edge).isSome := by
  have owned := (threads.ins.owner vertex edge).1 mem
  obtain ⟨data, here, -⟩ := Option.map_eq_some_iff.1 owned
  rw [here]
  rfl

theorem Threads.destroy (threads : Threads st outFrom inFrom on out inn live) (st' : Graph)
    (outFrom' inFrom' : ℕ → Option ℕ) (here : st.edges edge = some data)
    (outs : Chains outFrom' st'.vertexOutNext (fun b => if b = edge then none else st.fromOf b) out')
    (ins : Chains inFrom' st'.vertexInLink (fun b => if b = edge then none else st.toOf b) inn')
    (backs : Backs st'.vertexOutPrev out' on') (edges : st'.edges = st.edges) (vertices : st'.vertices = st.vertices)
    (edgeTable : st'.edgeTable = st.edgeTable) (vertexTable : st'.vertexTable = st.vertexTable)
    (arcCount : st'.arcCount = st.arcCount) :
    Threads (st'.destroyEdge edge data.arcCount) outFrom' inFrom' on' out' inn' (live.erase edge) := by
  have gone (b : ℕ) : (st'.destroyEdge edge data.arcCount).edges b = if b = edge then none else st.edges b := by
    rw [← edges]
    exact Function.update_apply _ _ _ _
  have alive : edge ∈ live := (threads.mem_live edge).2 (by rw [here]; rfl)
  constructor
  case outs =>
    have same : (st'.destroyEdge edge data.arcCount).fromOf = fun b => if b = edge then none else st.fromOf b := by
      funext b
      change ((st'.destroyEdge edge data.arcCount).edges b).map Edge.fromVertex = _
      rw [gone]
      split <;> rfl
    rw [same]
    exact outs
  case ins =>
    have same : (st'.destroyEdge edge data.arcCount).toOf = fun b => if b = edge then none else st.toOf b := by
      funext b
      change ((st'.destroyEdge edge data.arcCount).edges b).map Edge.toVertex = _
      rw [gone]
      split <;> rfl
    rw [same]
    exact ins
  case backs => exact backs
  case mem_live =>
    intro b
    rw [Finset.mem_erase,threads.mem_live,gone]
    split <;> simp_all
  case arcs =>
    have count : st.arcsOf edge = data.arcCount := by rw [arcsOf,here]; rfl
    have total : (st'.destroyEdge edge data.arcCount).arcCount = st.arcCount - data.arcCount := by rw [← arcCount]; rfl
    rw [total,threads.arcs,← Finset.add_sum_erase live _ alive,count,add_sub_cancel_left]
    apply Finset.sum_congr rfl
    intro b mem
    rw [arcsOf,arcsOf,gone,if_neg (Finset.ne_of_mem_erase mem)]
  case ends =>
    intro b data' found
    rw [gone] at found
    split at found
    · cases found
    · have both := threads.ends b data' found
      rw [← vertices] at both
      exact both
  case edgeIds =>
    change (st'.edgeTable.destroy edge).Issued _
    rw [edgeTable]
    refine (threads.edgeIds.destroy (by rw [here]; rfl)).congr fun b => ?_
    rw [gone]
    split <;> simp_all
  case vertexIds =>
    change st'.vertexTable.Issued fun vertex => st'.vertices vertex = true
    rw [vertexTable,vertices]
    exact threads.vertexIds

end Graph
end Threads

section Writes
variable {st : Graph} {edge vertex : ℕ} {l : List ℕ} {head before : Option ℕ}

namespace Graph

theorem update_eq_ite (f : ℕ → Option ℕ) (a : ℕ) (value : Option ℕ) : Function.update f a value = fun b =>
    if some a = some b then value else f b := by
  funext b
  simp only [Function.update_apply,Option.some.injEq,eq_comm]

theorem deleteOutEdge_eq (onVertex : st.vertices vertex) (list : IsList st.vertexOutNext (st.outEdges vertex) l)
    (back : BackFrom st.vertexOutPrev none l) (mem : edge ∈ l) (alive : ∀ b ∈ l, (st.edges b).isSome) :
    st.deleteOutEdge vertex edge = some { st with
      outEdges := if st.outEdges vertex = some edge then Function.update st.outEdges vertex (st.vertexOutNext edge)
        else st.outEdges
      vertexOutNext := fun b => if precedes edge none l = some b then st.vertexOutNext edge else st.vertexOutNext b
      vertexOutPrev := fun b => if st.vertexOutNext edge = some b then st.vertexOutPrev edge
        else st.vertexOutPrev b } := by
  have prev := back.prev_eq mem
  have after (st' : Graph) (edges : st'.edges = st.edges) (prevs : st'.vertexOutPrev = st.vertexOutPrev) :
      st'.setOutPrevIf (st.vertexOutNext edge) (st.vertexOutPrev edge) = some { st' with
        vertexOutPrev := fun b => if st.vertexOutNext edge = some b then st.vertexOutPrev edge
          else st.vertexOutPrev b } := by
    cases follows : st.vertexOutNext edge with
    | none => simp only [setOutPrevIf,reduceCtorEq,if_false,← prevs]
    | some next =>
      have there : (st'.edges next).isSome := by rw [edges]; exact alive next (list.next_mem mem follows)
      simp only [setOutPrevIf,setOutPrev,there,if_true,update_eq_ite,prevs]
  rcases @precedes_cases _ _ none _ _ mem with ⟨eq, first⟩ | ⟨b, inside, eq, later⟩
  · have starts : st.outEdges vertex = some edge := list.head_eq.trans first
    have wrote : st.setOutEdges vertex (st.vertexOutNext edge) =
        some { st with outEdges := Function.update st.outEdges vertex (st.vertexOutNext edge) } := if_pos onVertex
    unfold deleteOutEdge
    simp only [prev,eq,wrote,starts,reduceCtorEq,if_false,if_true,Option.bind_eq_bind,Option.bind_some]
    rw [eq] at prev
    rw [← prev]
    exact after _ rfl rfl
  · have away : st.outEdges vertex ≠ some edge := fun starts => later (list.head_eq.symm.trans starts)
    have wrote : st.setOutNext b (st.vertexOutNext edge) =
        some { st with vertexOutNext := Function.update st.vertexOutNext b (st.vertexOutNext edge) } :=
          if_pos (alive b inside)
    unfold deleteOutEdge
    simp only [prev,eq,wrote,away,if_false,Option.bind_eq_bind,Option.bind_some,update_eq_ite]
    rw [eq] at prev
    rw [← prev]
    exact after _ rfl rfl

theorem prevInEdge_eq {fuel : ℕ} (before : Option ℕ) (list : IsList st.vertexInLink head l) (mem : edge ∈ l)
    (alive : ∀ b ∈ l, (st.edges b).isSome)
    (enough : l.length ≤ fuel) : st.prevInEdge edge fuel head before = some (precedes edge before l) := by
  induction l generalizing head before fuel with
  | nil => cases mem
  | cons first rest ih =>
    obtain ⟨rfl, list⟩ := list
    cases fuel with
    | zero => cases enough
    | succ fuel =>
      by_cases same : first = edge
      · simp [prevInEdge,precedes,same]
      · have inside : edge ∈ rest := List.mem_of_ne_of_mem (Ne.symm same) mem
        have later := ih (some first) list inside (fun b mem => alive b (List.mem_cons_of_mem _ mem))
          (Nat.le_of_succ_le_succ enough)
        simpa [prevInEdge,precedes,same,alive first List.mem_cons_self] using later

theorem deleteInEdge_eq (onVertex : st.vertices vertex) (list : IsList st.vertexInLink (st.inEdges vertex) l)
    (mem : edge ∈ l) (alive : ∀ b ∈ l, (st.edges b).isSome) (enough : l.length ≤ st.fuel) :
    st.deleteInEdge vertex edge = some { st with
      inEdges := if st.inEdges vertex = some edge then Function.update st.inEdges vertex (st.vertexInLink edge)
        else st.inEdges
      vertexInLink := fun b => if precedes edge none l = some b then st.vertexInLink edge else st.vertexInLink b } := by
  have found := prevInEdge_eq none list mem alive enough
  unfold deleteInEdge
  rcases @precedes_cases _ _ none _ _ mem with ⟨eq, first⟩ | ⟨b, inside, eq, later⟩
  · have starts : st.inEdges vertex = some edge := list.head_eq.trans first
    have wrote : st.setInEdges vertex (st.vertexInLink edge) =
        some { st with inEdges := Function.update st.inEdges vertex (st.vertexInLink edge) } := if_pos onVertex
    rw [found,eq,if_pos starts]
    simp only [wrote,reduceCtorEq,if_false,Option.bind_eq_bind,Option.bind_some]
  · have away : st.inEdges vertex ≠ some edge := fun starts => later (list.head_eq.symm.trans starts)
    have wrote : st.setInLink b (st.vertexInLink edge) =
        some { st with vertexInLink := Function.update st.vertexInLink b (st.vertexInLink edge) } :=
          if_pos (alive b inside)
    simp only [found,eq,wrote,away,if_false,Option.bind_eq_bind,Option.bind_some,update_eq_ite]

end Graph
end Writes

section Unlinks
variable {st st₁ : Graph} {outFrom inFrom : ℕ → Option ℕ} {on : ℕ → Prop} {out inn : ℕ →
    List ℕ} {live : Finset ℕ} {edge vertex : ℕ}
  {data : Edge}

namespace Graph

/-- Only out lists differ between the two states. -/
structure OutFrame (st st' : Graph) : Prop where
  edges : st'.edges = st.edges
  vertices : st'.vertices = st.vertices
  inEdges : st'.inEdges = st.inEdges
  link : st'.vertexInLink = st.vertexInLink
  edgeTable : st'.edgeTable = st.edgeTable
  vertexTable : st'.vertexTable = st.vertexTable
  arcCount : st'.arcCount = st.arcCount

/-- Only in lists differ between the two states. -/
structure InFrame (st st' : Graph) : Prop where
  edges : st'.edges = st.edges
  vertices : st'.vertices = st.vertices
  outEdges : st'.outEdges = st.outEdges
  next : st'.vertexOutNext = st.vertexOutNext
  prev : st'.vertexOutPrev = st.vertexOutPrev
  edgeTable : st'.edgeTable = st.edgeTable
  vertexTable : st'.vertexTable = st.vertexTable
  arcCount : st'.arcCount = st.arcCount

theorem OutFrame.inHead {st' : Graph} (frame : OutFrame st st') : st'.inHead = st.inHead := by
  unfold Graph.inHead
  rw [frame.vertices,frame.inEdges]

theorem InFrame.outHead {st' : Graph} (frame : InFrame st st') : st'.outHead = st.outHead := by
  unfold Graph.outHead
  rw [frame.vertices,frame.outEdges]

theorem Threads.unlinkOut (threads : Threads st st.outHead inFrom on out inn live) (here : st.edges edge = some data)
    (running : on data.fromVertex) :
    ∃ st', st.deleteOutEdge data.fromVertex edge = some st' ∧ OutFrame st st' ∧
      Chains st'.outHead st'.vertexOutNext (fun b => if b = edge then none else st.fromOf b)
        (Function.update out data.fromVertex ((out data.fromVertex).erase edge)) ∧
      Backs st'.vertexOutPrev (Function.update out data.fromVertex ((out data.fromVertex).erase edge)) on := by
  have owned : st.fromOf edge = some data.fromVertex := by rw [fromOf,here]; rfl
  have onVertex := (threads.ends edge data here).1
  have mem := (threads.outs.owner _ edge).2 owned
  have head : st.outHead data.fromVertex = st.outEdges data.fromVertex := if_pos onVertex
  have list := threads.outs.chain data.fromVertex
  have back := threads.backs _ running
  refine ⟨_, deleteOutEdge_eq onVertex (head ▸ list) back mem (fun b inside => threads.out_live inside),
    ⟨rfl, rfl, rfl, rfl, rfl, rfl, rfl⟩, ?_, ?_⟩
  · apply threads.outs.unlink owned (fun j => ?_) (fun b => rfl) (fun b => rfl)
    rw [head]
    unfold outHead
    by_cases same : j = data.fromVertex
    · subst same
      by_cases first : st.outEdges data.fromVertex = some edge <;> simp [onVertex,first]
    · by_cases first : st.outEdges data.fromVertex = some edge <;> simp [same,first]
  · exact threads.backs.unlink threads.outs owned fun b => rfl

theorem Threads.unlinkIn (threads : Threads st outFrom inFrom on out inn live) (here : st.edges edge = some data)
    (frame : OutFrame st st₁) (head : inFrom data.toVertex = st.inHead data.toVertex) :
    ∃ st', st₁.deleteInEdge data.toVertex edge = some st' ∧ InFrame st₁ st' ∧
      (∀ j, st'.inHead j = if j = data.toVertex then if inFrom j = some edge then st.vertexInLink edge else inFrom j
        else st.inHead j) ∧
      ∀ inFrom', (∀ j, inFrom' j = if j = data.toVertex then if inFrom j = some edge then st.vertexInLink edge
        else inFrom j else inFrom j) →
        Chains inFrom' st'.vertexInLink (fun b => if b = edge then none else st.toOf b)
          (Function.update inn data.toVertex ((inn data.toVertex).erase edge)) := by
  have owned : st.toOf edge = some data.toVertex := by rw [toOf,here]; rfl
  have onVertex := (threads.ends edge data here).2
  have onVertex₁ : st₁.vertices data.toVertex = true := by rw [frame.vertices]; exact onVertex
  have mem := (threads.ins.owner _ edge).2 owned
  have first : inFrom data.toVertex = st.inEdges data.toVertex := head.trans (if_pos onVertex)
  have list := threads.ins.chain data.toVertex
  have alive (b : ℕ) (inside : b ∈ inn data.toVertex) : (st.edges b).isSome := threads.in_live inside
  have enough : (inn data.toVertex).length ≤ st.fuel :=
    length_le_of_lt list.nodup fun b inside => threads.edgeIds.below b (.inl (alive b inside))
  have list₁ : IsList st₁.vertexInLink (st₁.inEdges data.toVertex) (inn data.toVertex) := by
    rw [frame.link,frame.inEdges,← first]
    exact list
  refine ⟨_, deleteInEdge_eq onVertex₁ list₁ mem (by rw [frame.edges]; exact alive) (by
    rw [fuel,frame.edgeTable]; exact enough),
    ⟨rfl, rfl, rfl, rfl, rfl, rfl, rfl, rfl⟩, fun j => ?_, fun inFrom' heads => ?_⟩
  · simp only [inHead,frame.vertices,frame.inEdges,frame.link,← first]
    by_cases same : j = data.toVertex
    · subst same
      by_cases starts : inFrom data.toVertex = some edge <;> simp [onVertex,starts,first.symm]
    · by_cases starts : inFrom data.toVertex = some edge <;> simp [same,starts]
  · simp only [frame.link]
    refine threads.ins.unlink owned (fun j => ?_) (fun b => rfl) (fun b => rfl)
    rw [heads]
    by_cases same : j = data.toVertex
    · rw [same]
    · rw [if_neg same,if_neg same]

theorem OutFrame.refl (st : Graph) : OutFrame st st := ⟨rfl, rfl, rfl, rfl, rfl, rfl, rfl⟩

end Graph
end Unlinks

section Calls
variable {st st' : Graph} {outFrom inFrom : ℕ → Option ℕ} {on : ℕ → Prop} {out inn : ℕ →
    List ℕ} {live : Finset ℕ} {edge vertex : ℕ}
  {data : Edge} {cur : Option ℕ}

namespace Graph

/-- All lists start at their vertices and are linked backwards. -/
def Sound (st : Graph) : Prop := ∃ out inn live, Threads st st.outHead st.inHead (fun _ => True) out inn live

theorem Sound.deleteEdge (sound : st.Sound) (here : st.edges edge = some data) : ∃ st', st.deleteEdge edge = some st' ∧
    st'.Sound := by
  obtain ⟨out, inn, live, threads⟩ := sound
  obtain ⟨st₁, run₁, frame₁, outs, backs⟩ := threads.unlinkOut here trivial
  obtain ⟨st₂, run₂, frame₂, heads, ins⟩ := threads.unlinkIn here frame₁ rfl
  have outs₂ : Chains st₂.outHead st₂.vertexOutNext (fun b => if b = edge then none else st.fromOf b)
      (Function.update out data.fromVertex ((out data.fromVertex).erase edge)) := by
    rw [frame₂.outHead,frame₂.next]
    exact outs
  have backs₂ : Backs st₂.vertexOutPrev (Function.update out data.fromVertex ((out data.fromVertex).erase edge))
    fun _ => True := by
    rw [frame₂.prev]
    exact backs
  have done := threads.destroy st₂ st₂.outHead st₂.inHead here outs₂ (ins _ heads) backs₂
    (frame₂.edges.trans frame₁.edges)
    (frame₂.vertices.trans frame₁.vertices) (frame₂.edgeTable.trans frame₁.edgeTable)
      (frame₂.vertexTable.trans frame₁.vertexTable)
    (frame₂.arcCount.trans frame₁.arcCount)
  exact ⟨st₂.destroyEdge edge data.arcCount, by simp [Graph.deleteEdge,here,run₁,run₂], _, _, _, done⟩

theorem deleteInEdges_spec {fuel : ℕ}
    (threads : Threads st st.outHead (Function.update st.inHead vertex cur) (fun _ => True) out inn live)
    (enough : (inn vertex).length ≤ fuel) :
    ∃ st' out' inn' live', deleteInEdges fuel cur st = some st' ∧
      Threads st' st'.outHead (Function.update st'.inHead vertex none) (fun _ => True) out' inn' live' ∧
      st'.vertices = st.vertices ∧ st'.fuel = st.fuel := by
  induction fuel generalizing st cur out inn live with
  | zero =>
    have list := threads.ins.chain vertex
    rw [Function.update_self,List.length_eq_zero_iff.1 (Nat.le_zero.1 enough)] at list
    obtain rfl : cur = none := list
    exact ⟨st, out, inn, live, rfl, threads, rfl, rfl⟩
  | succ fuel ih =>
    cases cur with
    | none => exact ⟨st, out, inn, live, rfl, threads, rfl, rfl⟩
    | some edge =>
      have first : Function.update st.inHead vertex (some edge) vertex = some edge := Function.update_self _ _ _
      have mem := threads.ins.head_mem first
      obtain ⟨data, here, at_⟩ := Option.map_eq_some_iff.1 ((threads.ins.owner vertex edge).1 mem)
      obtain ⟨st₁, run, frame, outs, backs⟩ := threads.unlinkOut here trivial
      have dropped : ∀ j, Function.update st.inHead vertex (st.vertexInLink edge) j =
          if j = vertex then st.vertexInLink edge else Function.update st.inHead vertex (some edge) j := fun j => by
        by_cases same : j = vertex <;> simp [same]
      have ins := threads.ins.pop first dropped fun b => rfl
      have next := threads.destroy st₁ st₁.outHead (Function.update st.inHead vertex (st.vertexInLink edge))
        here outs (by rw [frame.link]; exact ins) backs frame.edges frame.vertices frame.edgeTable frame.vertexTable
          frame.arcCount
      rw [← frame.inHead] at next
      have shorter : (Function.update inn vertex (inn vertex).tail vertex).length ≤ fuel := by
        rw [Function.update_self,List.length_tail]
        omega
      obtain ⟨st', out', inn', live', rest, done, vertices, fuels⟩ := ih next shorter
      refine ⟨st', out', inn', live', ?_, done, vertices.trans frame.vertices, fuels.trans ?_⟩
      · simp [deleteInEdges,here,run,rest]
      · change st₁.edgeTable.blocks * _ = _
        rw [frame.edgeTable]
        rfl

theorem deleteOutEdges_spec {fuel : ℕ}
    (threads : Threads st (Function.update st.outHead vertex cur) (Function.update st.inHead vertex none) (· ≠ vertex)
      out inn live) (enough : (out vertex).length ≤ fuel) :
    ∃ st' out' inn' live', deleteOutEdges fuel cur st = some st' ∧
      Threads st' (Function.update st'.outHead vertex none) (Function.update st'.inHead vertex none) (· ≠ vertex) out'
        inn' live' ∧
      st'.vertices = st.vertices := by
  induction fuel generalizing st cur out inn live with
  | zero =>
    have list := threads.outs.chain vertex
    rw [Function.update_self,List.length_eq_zero_iff.1 (Nat.le_zero.1 enough)] at list
    obtain rfl : cur = none := list
    exact ⟨st, out, inn, live, rfl, threads, rfl⟩
  | succ fuel ih =>
    cases cur with
    | none => exact ⟨st, out, inn, live, rfl, threads, rfl⟩
    | some edge =>
      have first : Function.update st.outHead vertex (some edge) vertex = some edge := Function.update_self _ _ _
      have mem := threads.outs.head_mem first
      obtain ⟨data, here, at_⟩ := Option.map_eq_some_iff.1 ((threads.outs.owner vertex edge).1 mem)
      -- Self loops were deleted with the edges to the vertex.
      have apart : data.toVertex ≠ vertex := by
        intro same
        have empty := threads.ins.chain vertex
        rw [Function.update_self] at empty
        have inside := (threads.ins.owner vertex edge).2 (by rw [toOf,here,← same]; rfl)
        cases whole : inn vertex with
        | nil => rw [whole] at inside; cases inside
        | cons a rest => rw [whole] at empty; cases empty.1
      obtain ⟨st₁, run, frame, heads, ins⟩ := threads.unlinkIn here (OutFrame.refl st) (Function.update_of_ne apart _ _)
      have dropped : ∀ j, Function.update st.outHead vertex (st.vertexOutNext edge) j =
          if j = vertex then st.vertexOutNext edge else Function.update st.outHead vertex (some edge) j := fun j => by
        by_cases same : j = vertex <;> simp [same]
      have outs := threads.outs.pop first dropped fun b => rfl
      have inHeads : ∀ j, Function.update st₁.inHead vertex none j =
          if j = data.toVertex then
            if Function.update st.inHead vertex none j = some edge then st.vertexInLink edge
              else Function.update st.inHead vertex none j
          else Function.update st.inHead vertex none j := by
        intro j
        by_cases same : j = vertex
        · subst same
          rw [Function.update_self,Function.update_self,if_neg (Ne.symm apart)]
        · rw [Function.update_of_ne same,heads,Function.update_of_ne same]
      have backs : Backs st.vertexOutPrev (Function.update out vertex (out vertex).tail) (· ≠ vertex) := by
        intro j running
        rw [Function.update_of_ne running]
        exact threads.backs j running
      rw [← frame.prev] at backs
      have next := threads.destroy st₁ (Function.update st.outHead vertex (st.vertexOutNext edge)) _
        here (by rw [frame.next]; exact outs) (ins _ inHeads) backs frame.edges frame.vertices frame.edgeTable
        frame.vertexTable frame.arcCount
      rw [← frame.outHead] at next
      have shorter : (Function.update out vertex (out vertex).tail vertex).length ≤ fuel := by
        rw [Function.update_self,List.length_tail]
        omega
      obtain ⟨st', out', inn', live', rest, done, vertices⟩ := ih next shorter
      refine ⟨st', out', inn', live', ?_, done, vertices.trans frame.vertices⟩
      simp [deleteOutEdges,here,run,rest]

theorem Threads.out_eq_nil (threads : Threads st outFrom inFrom on out inn live) (none : outFrom vertex = none) :
    out vertex = [] := by
  have list := threads.outs.chain vertex
  rw [none] at list
  cases whole : out vertex with
  | nil => rfl
  | cons a rest => rw [whole] at list; cases list.1

theorem Threads.in_eq_nil (threads : Threads st outFrom inFrom on out inn live) (none : inFrom vertex = none) :
    inn vertex = [] := by
  have list := threads.ins.chain vertex
  rw [none] at list
  cases whole : inn vertex with
  | nil => rfl
  | cons a rest => rw [whole] at list; cases list.1

theorem Threads.out_length (threads : Threads st outFrom inFrom on out inn live) : (out vertex).length ≤ st.fuel :=
  length_le_of_lt (threads.outs.chain vertex).nodup fun _ mem => threads.edgeIds.below _ (.inl (threads.out_live mem))

theorem Threads.in_length (threads : Threads st outFrom inFrom on out inn live) : (inn vertex).length ≤ st.fuel :=
  length_le_of_lt (threads.ins.chain vertex).nodup fun _ mem => threads.edgeIds.below _ (.inl (threads.in_live mem))

theorem Sound.deleteVertex (sound : st.Sound) (onVertex : st.vertices vertex) :
    ∃ st', st.deleteVertex vertex = some st' ∧ st'.Sound := by
  obtain ⟨out, inn, live, threads⟩ := sound
  have inHead : Function.update st.inHead vertex (st.inEdges vertex) = st.inHead :=
    Function.update_eq_self_iff.2 (if_pos onVertex).symm
  have first := threads
  rw [← inHead] at first
  obtain ⟨st₁, out₁, inn₁, live₁, run₁, threads₁, vertices₁, fuel₁⟩ := deleteInEdges_spec first first.in_length
  have onVertex₁ : st₁.vertices vertex = true := by rw [vertices₁]; exact onVertex
  have outHead : Function.update st₁.outHead vertex (st₁.outEdges vertex) = st₁.outHead :=
    Function.update_eq_self_iff.2 (if_pos onVertex₁).symm
  have second : Threads st₁ (Function.update st₁.outHead vertex (st₁.outEdges vertex))
    (Function.update st₁.inHead vertex none) (· ≠ vertex)
      out₁ inn₁ live₁ := by
    rw [outHead]
    exact { threads₁ with backs := fun j _ => threads₁.backs j trivial }
  obtain ⟨st₂, out₂, inn₂, live₂, run₂, threads₂, vertices₂⟩ := deleteOutEdges_spec second second.out_length
  have noOut := threads₂.out_eq_nil (Function.update_self _ _ _)
  have noIn := threads₂.in_eq_nil (Function.update_self _ _ _)
  refine ⟨{ st₂ with
    vertices := Function.update st₂.vertices vertex false
    vertexTable := st₂.vertexTable.destroy vertex }, ?_, out₂, inn₂, live₂, ?_⟩
  · simp [Graph.deleteVertex,onVertex,run₁,run₂]
  · have outHead₂ : Graph.outHead { st₂ with
        vertices := Function.update st₂.vertices vertex false
        vertexTable := st₂.vertexTable.destroy vertex } =
        Function.update st₂.outHead vertex none := by
      funext j
      by_cases same : j = vertex <;> simp [Graph.outHead,same]
    have inHead₂ : Graph.inHead { st₂ with
        vertices := Function.update st₂.vertices vertex false
        vertexTable := st₂.vertexTable.destroy vertex } =
        Function.update st₂.inHead vertex none := by
      funext j
      by_cases same : j = vertex <;> simp [Graph.inHead,same]
    rw [outHead₂,inHead₂]
    constructor
    case outs => exact threads₂.outs
    case ins => exact threads₂.ins
    case backs =>
      intro j _
      by_cases same : j = vertex
      · rw [same,noOut]
        trivial
      · exact threads₂.backs j same
    case mem_live => exact threads₂.mem_live
    case arcs => exact threads₂.arcs
    case ends =>
      intro edge data here
      obtain ⟨onFrom, onTo⟩ := threads₂.ends edge data here
      have notFrom : data.fromVertex ≠ vertex := by
        intro same
        have mem := (threads₂.outs.owner vertex edge).2 (by rw [fromOf,here,← same]; rfl)
        rw [noOut] at mem
        cases mem
      have notTo : data.toVertex ≠ vertex := by
        intro same
        have mem := (threads₂.ins.owner vertex edge).2 (by rw [toOf,here,← same]; rfl)
        rw [noIn] at mem
        cases mem
      exact ⟨(Function.update_of_ne notFrom _ _).trans onFrom, (Function.update_of_ne notTo _ _).trans onTo⟩
    case edgeIds => exact threads₂.edgeIds
    case vertexIds =>
      have used : st₂.vertices vertex = true := by rw [vertices₂]; exact onVertex₁
      refine (threads₂.vertexIds.destroy used).congr fun v => ?_
      by_cases same : v = vertex <;> simp [same]

theorem Sound.makeVertex (sound : st.Sound) {table : ObjectTable} (made : st.vertexTable.make = some (table, vertex)) :
    ∃ st', st.makeVertex = some (st', vertex) ∧ st'.Sound := by
  obtain ⟨out, inn, live, threads⟩ := sound
  obtain ⟨fresh, issued⟩ := threads.vertexIds.make made
  have run : st.makeVertex = some ({ st with
    vertexTable := table
    vertices := Function.update st.vertices vertex true
    inEdges := Function.update st.inEdges vertex none
    outEdges := Function.update st.outEdges vertex none }, vertex) := by simp [Graph.makeVertex,made]
  refine ⟨_, run, out, inn, live, ?_⟩
  constructor
  case outs =>
    refine ⟨fun j => ?_, threads.outs.owner⟩
    have list := threads.outs.chain j
    by_cases same : j = vertex
    · subst same
      simpa [Graph.outHead,fresh] using list
    · simpa [Graph.outHead,same] using list
  case ins =>
    refine ⟨fun j => ?_, threads.ins.owner⟩
    have list := threads.ins.chain j
    by_cases same : j = vertex
    · subst same
      simpa [Graph.inHead,fresh] using list
    · simpa [Graph.inHead,same] using list
  case backs => exact threads.backs
  case mem_live => exact threads.mem_live
  case arcs => exact threads.arcs
  case ends =>
    intro edge data here
    obtain ⟨onFrom, onTo⟩ := threads.ends edge data here
    constructor
    · by_cases same : data.fromVertex = vertex <;> simp [same,onFrom]
    · by_cases same : data.toVertex = vertex <;> simp [same,onTo]
  case edgeIds => exact threads.edgeIds
  case vertexIds =>
    refine issued.congr fun v => ?_
    by_cases same : v = vertex <;> simp [same]

theorem makeEdge_eq {table : ObjectTable} {fromVertex toVertex arcCount : ℕ}
    (made : st.edgeTable.make = some (table, edge)) (onFrom : st.vertices fromVertex) (onTo : st.vertices toVertex)
    (fresh : (st.edges edge).isSome = false) (alive : ∀ b, st.outEdges fromVertex = some b → (st.edges b).isSome) :
    st.makeEdge fromVertex toVertex arcCount = some ({ st with
      edgeTable := table
      edges := Function.update st.edges edge (some ⟨fromVertex, toVertex, arcCount⟩)
      arcCount := st.arcCount + arcCount
      vertexOutNext := Function.update st.vertexOutNext edge (st.outEdges fromVertex)
      vertexOutPrev := fun b => if b = edge then none else if st.outEdges fromVertex = some b then some edge
        else st.vertexOutPrev b
      outEdges := Function.update st.outEdges fromVertex (some edge)
      vertexInLink := Function.update st.vertexInLink edge (st.inEdges toVertex)
      inEdges := Function.update st.inEdges toVertex (some edge) }, edge) := by
  unfold Graph.makeEdge
  rw [made]
  cases first : st.outEdges fromVertex with
  | none =>
    simp [first,setOutNext,setOutPrev,setOutPrevIf,setOutEdges,setInLink,setInEdges,onFrom,onTo,funext_iff,
      Function.update_apply]
  | some b =>
    have there := alive b first
    have differs : b ≠ edge := by
      rintro rfl
      rw [fresh] at there
      cases there
    have prevs : Function.update (Function.update st.vertexOutPrev edge none) b (some edge) =
        fun c => if c = edge then none else if some b = some c then some edge else st.vertexOutPrev c := by
      funext c
      by_cases same : c = edge
      · subst same
        simp [differs.symm]
      · by_cases next : c = b
        · simp [next,differs]
        · simp [same,next,Ne.symm next]
    simp [first,setOutNext,setOutPrev,setOutPrevIf,setOutEdges,setInLink,setInEdges,onFrom,onTo,differs,there,prevs]

theorem Sound.makeEdge (sound : st.Sound) {table : ObjectTable} {fromVertex toVertex : ℕ} (arcCount : ℕ)
    (made : st.edgeTable.make = some (table, edge)) (onFrom : st.vertices fromVertex) (onTo : st.vertices toVertex) :
    ∃ st', st.makeEdge fromVertex toVertex arcCount = some (st', edge) ∧ st'.Sound := by
  obtain ⟨out, inn, live, threads⟩ := sound
  obtain ⟨fresh, issued⟩ := threads.edgeIds.make made
  have fresh : (st.edges edge).isSome = false := Bool.eq_false_iff.2 fresh
  have outHead : st.outHead fromVertex = st.outEdges fromVertex := if_pos onFrom
  have inHead : st.inHead toVertex = st.inEdges toVertex := if_pos onTo
  have alive (b : ℕ) (first : st.outEdges fromVertex = some b) : (st.edges b).isSome :=
    threads.out_live (threads.outs.head_mem (outHead.trans first))
  have none : st.edges edge = none := Option.isNone_iff_eq_none.1 (by simpa using fresh)
  refine ⟨_, makeEdge_eq made onFrom onTo fresh alive, Function.update out fromVertex (edge :: out fromVertex),
    Function.update inn toVertex (edge :: inn toVertex), insert edge live, ?_⟩
  constructor
  case outs =>
    refine threads.outs.push (k := fromVertex) (by rw [fromOf,none]; rfl) (fun j => ?_) (fun b => ?_) fun b => ?_
    · by_cases same : j = fromVertex <;> simp [Graph.outHead,same,onFrom]
    · rw [outHead]
      exact Function.update_apply _ _ _ _
    · by_cases same : b = edge <;> simp [fromOf,same]
  case ins =>
    refine threads.ins.push (k := toVertex) (by rw [toOf,none]; rfl) (fun j => ?_) (fun b => ?_) fun b => ?_
    · by_cases same : j = toVertex <;> simp [Graph.inHead,same,onTo]
    · rw [inHead]
      exact Function.update_apply _ _ _ _
    · by_cases same : b = edge <;> simp [toOf,same]
  case backs =>
    refine threads.backs.push threads.outs (by rw [fromOf,none]; rfl) trivial fun b => ?_
    rw [outHead]
  case mem_live =>
    intro b
    rw [Finset.mem_insert,threads.mem_live]
    by_cases same : b = edge <;> simp [same]
  case arcs =>
    have absent : edge ∉ live := by
      rw [threads.mem_live,fresh]
      exact Bool.false_ne_true
    rw [Finset.sum_insert absent,threads.arcs,add_comm]
    refine congr (congrArg HAdd.hAdd ?_) ?_
    · simp [arcsOf]
    · apply Finset.sum_congr rfl
      intro b mem
      have differs : b ≠ edge := fun same => absent (same ▸ mem)
      simp [arcsOf,differs]
  case ends =>
    intro b data here
    by_cases same : b = edge
    · subst same
      obtain rfl := Option.some.inj ((Function.update_self b _ _).symm.trans here)
      exact ⟨onFrom, onTo⟩
    · exact threads.ends b data ((Function.update_of_ne same _ _).symm.trans here)
  case edgeIds =>
    refine issued.congr fun b => ?_
    by_cases same : b = edge <;> simp [same]
  case vertexIds => exact threads.vertexIds

theorem Sound.step (sound : st.Sound) {call : Call} (legal : st.Legal call) : ∃ st', st.step call = some st' ∧
    st'.Sound := by
  cases call with
  | makeVertex =>
    obtain ⟨⟨table, vertex⟩, made⟩ := Option.isSome_iff_exists.1 legal
    obtain ⟨st', run, sound⟩ := sound.makeVertex made
    exact ⟨st', by rw [Graph.step,run]; rfl, sound⟩
  | makeEdge fromVertex toVertex arcCount =>
    obtain ⟨onFrom, onTo, some⟩ := legal
    obtain ⟨⟨table, edge⟩, made⟩ := Option.isSome_iff_exists.1 some
    obtain ⟨st', run, sound⟩ := sound.makeEdge arcCount made onFrom onTo
    exact ⟨st', by rw [Graph.step,run]; rfl, sound⟩
  | deleteEdge edge =>
    obtain ⟨data, here⟩ := Option.isSome_iff_exists.1 legal
    exact sound.deleteEdge here
  | deleteVertex vertex => exact sound.deleteVertex legal

theorem Reachable.sound (reachable : Reachable st) : st.Sound := by
  induction reachable with
  | empty => exact ⟨_, _, _, .empty⟩
  | call call _ legal run sound =>
    obtain ⟨st', ran, sound⟩ := sound.step legal
    obtain rfl := Option.some.inj (ran.symm.trans run)
    exact sound

/-- The lists of the vertices, and that every edge is in its two lists once and in no others. -/
structure Listed (st : Graph) (out inn : ℕ → List ℕ) : Prop where
  outList : ∀ vertex, st.vertices vertex → IsList st.vertexOutNext (st.outEdges vertex) (out vertex) ∧
    BackFrom st.vertexOutPrev none (out vertex)
  inList : ∀ vertex, st.vertices vertex → IsList st.vertexInLink (st.inEdges vertex) (inn vertex)
  once : ∀ edge data, st.edges edge = some data → st.vertices data.fromVertex ∧ st.vertices data.toVertex ∧
    ∀ vertex, (out vertex).count edge = (if data.fromVertex = vertex then 1 else 0) ∧
      (inn vertex).count edge = if data.toVertex = vertex then 1 else 0
  deleted : ∀ edge, st.edges edge = none → ∀ vertex, edge ∉ out vertex ∧ edge ∉ inn vertex

structure WellFormed (st : Graph) : Prop where
  lists : ∃ out inn, st.Listed out inn
  arcs : ∃ live : Finset ℕ, (∀ edge, edge ∈ live ↔ (st.edges edge).isSome) ∧ st.arcCount = ∑ edge ∈ live, st.arcsOf edge

theorem Sound.wellFormed (sound : st.Sound) : st.WellFormed := by
  obtain ⟨out, inn, live, threads⟩ := sound
  refine ⟨⟨out, inn, ?_⟩, live, threads.mem_live, threads.arcs⟩
  constructor
  case outList =>
    intro vertex onVertex
    have list := threads.outs.chain vertex
    rw [Graph.outHead,if_pos onVertex] at list
    exact ⟨list, threads.backs vertex trivial⟩
  case inList =>
    intro vertex onVertex
    have list := threads.ins.chain vertex
    rw [Graph.inHead,if_pos onVertex] at list
    exact list
  case once =>
    intro edge data here
    obtain ⟨onFrom, onTo⟩ := threads.ends edge data here
    refine ⟨onFrom, onTo, fun vertex => ⟨?_, ?_⟩⟩
    · rw [threads.outs.count,fromOf,here]
      simp
    · rw [threads.ins.count,toOf,here]
      simp
  case deleted =>
    intro edge gone vertex
    constructor
    · intro mem
      have alive := threads.out_live mem
      rw [gone] at alive
      cases alive
    · intro mem
      have alive := threads.in_live mem
      rw [gone] at alive
      cases alive

/-- After every sequence of calls, and no call comes to a deleted object. -/
theorem reachable_wellFormed (reachable : Reachable st) : st.WellFormed ∧ ∀ call, st.Legal call →
    (st.step call).isSome := by
  refine ⟨reachable.sound.wellFormed, fun call legal => ?_⟩
  obtain ⟨st', run, -⟩ := reachable.sound.step legal
  rw [run]
  rfl

/-- A vertex with a self loop is made and deleted. -/
theorem reachable_loop : ∃ st, Reachable st ∧ (st.WellFormed ∧ ∀ call, st.Legal call → (st.step call).isSome) ∧
    st.arcCount = 0 := by
  have one : Reachable _ := .call .makeVertex .empty rfl rfl
  have two : Reachable _ := .call (.makeEdge 1 1 2) one ⟨rfl, rfl, rfl⟩ rfl
  have three : Reachable _ := .call (.deleteVertex 1) two rfl rfl
  exact ⟨_, three, reachable_wellFormed three, rfl⟩

end Graph
end Calls

end GTPower.EdgeLists
