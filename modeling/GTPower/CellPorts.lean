import GTPower.BusNames
import GTPower.KeyedSums
import GTPower.Placements
import Mathlib.Algebra.Order.Group.Multiset
import Mathlib.Data.Char
import Mathlib.Data.List.Lex
import Mathlib.Data.List.ReduceOption
import Mathlib.Data.Set.Function

/-! The ports of a cell and the indices of their pins. Ports are at their own addresses; buses have their bits as
members, and the bits of a cell are numbered as they are made. -/
namespace GTPower.CellPorts
open BusNames KeyedSums Placements

section Source

/-- Buses have no pin index. A place of the members may be empty. -/
structure ConcretePort where
  name : List Char
  isBus : Bool
  fromIndex : ℤ
  toIndex : ℤ
  members : List (Option ℕ)
  pinIndex : ℤ

def ConcretePort.isBusBit (port : ConcretePort) : Bool := port.fromIndex ≠ -1 && port.fromIndex = port.toIndex

def ConcretePort.setBusBitIndex (index : ℤ) (port : ConcretePort) : ConcretePort :=
  { port with fromIndex := index, toIndex := index }

structure ConcreteCell where
  portAt : ℕ → Option ConcretePort
  next : ℕ
  ports : List ℕ
  portMap : List Char → Option ℕ
  portBitCount : ℕ
  busBrktLeft : Char
  busBrktRight : Char

def escape : Char := Char.ofNat 92

/-- Helper of `groupBusPorts`. -/
structure BusPort where
  fromIndex : ℤ
  toIndex : ℤ
  members : List ℕ

def BusPort.empty : BusPort := ⟨2 ^ 31 - 1, -2 ^ 31, []⟩

def BusPort.addBusBit (busPort : BusPort) (port : ℕ) (index : ℤ) : BusPort :=
  ⟨min busPort.fromIndex index, max busPort.toIndex index, busPort.members ++ [port]⟩

namespace ConcreteCell

def empty (busBrktLeft busBrktRight : Char) : ConcreteCell :=
  ⟨fun _ => none, 0, [], fun _ => none, 0, busBrktLeft, busBrktRight⟩

def newPort (cell : ConcreteCell) (port : ConcretePort) : ConcreteCell × ℕ :=
  ({ cell with portAt := Function.update cell.portAt cell.next (some port), next := cell.next + 1 }, cell.next)

def modify (cell : ConcreteCell) (id : ℕ) (change : ConcretePort → ConcretePort) : ConcreteCell :=
  { cell with portAt := Function.update cell.portAt id ((cell.portAt id).map change) }

/-- The index of the pin is the next one. -/
def numberPort (cell : ConcreteCell) (id : ℕ) : ConcreteCell :=
  { cell.modify id (fun port => { port with pinIndex := cell.portBitCount }) with
    portBitCount := cell.portBitCount + 1 }

def addPortBit (cell : ConcreteCell) (id : ℕ) (name : List Char) : ConcreteCell :=
  { cell with portMap := Function.update cell.portMap name (some id) }.numberPort id

def addPort (cell : ConcreteCell) (id : ℕ) (port : ConcretePort) : ConcreteCell :=
  let cell := { cell with portMap := Function.update cell.portMap port.name (some id), ports := cell.ports ++ [id] }
  if port.isBus then cell else cell.numberPort id

def makePort (cell : ConcreteCell) (name : List Char) : ConcreteCell :=
  let port : ConcretePort := ⟨name, false, -1, -1, [], -1⟩
  let (cell, id) := cell.newPort port
  cell.addPort id port

/-- The bit of a bus, which is not one of `ports`. -/
def makeBitPort (cell : ConcreteCell) (bitName : List Char) (bitIndex : ℤ) : ConcreteCell × ℕ :=
  let (cell, id) := cell.newPort ⟨bitName, false, bitIndex, bitIndex, [], -1⟩
  (cell.addPortBit id bitName, id)

def makeBusPortBit (busPort : ℕ) (busName : List Char) (cell : ConcreteCell) (bitIndex : ℤ) : ConcreteCell :=
  let bitName := busName ++ cell.busBrktLeft :: intText bitIndex ++ [cell.busBrktRight]
  let (cell, id) := cell.makeBitPort bitName bitIndex
  let cell := cell.modify busPort fun port => { port with members := port.members ++ [some id] }
  cell.addPortBit id bitName

def busIndices (fromIndex toIndex : ℤ) : List ℤ :=
  if fromIndex < toIndex then (List.range (toIndex - fromIndex + 1).toNat).map fun i : ℕ => fromIndex + i
  else (List.range (fromIndex - toIndex + 1).toNat).map fun i : ℕ => fromIndex - i

def makeBusPort (cell : ConcreteCell) (name : List Char) (fromIndex toIndex : ℤ) : ConcreteCell :=
  let port : ConcretePort := ⟨name, true, fromIndex, toIndex, [], -1⟩
  let (cell, id) := cell.newPort port
  (busIndices fromIndex toIndex).foldl (makeBusPortBit id name) (cell.addPort id port)

def makeBusPortOf (cell : ConcreteCell) (name : List Char) (fromIndex toIndex : ℤ) (members : List (Option ℕ)) :
    ConcreteCell :=
  let port : ConcretePort := ⟨name, true, fromIndex, toIndex, members, -1⟩
  let (cell, id) := cell.newPort port
  cell.addPort id port

abbrev BusMap := AList fun _ : List Char => BusPort

/-- Bits of buses are removed from the ports. -/
def scanPort (brktLeft brktRight : Char) (scanned : ConcreteCell × BusMap) (id : ℕ) : ConcreteCell × BusMap :=
  let (cell, busMap) := scanned
  match cell.portAt id with
  | none => scanned
  | some port =>
    match parseBusIndex port.name [brktLeft] [brktRight] escape with
    | some (busName, index) =>
      if port.isBusBit then scanned
      else
        (cell.modify id (ConcretePort.setBusBitIndex index),
          busMap.insert busName (((busMap.lookup busName).getD .empty).addBusBit id index))
    | none => ({ cell with ports := cell.ports ++ [id] }, busMap)

def busBitIndex (cell : ConcreteCell) (id : ℕ) : ℤ := ((cell.portAt id).map ConcretePort.toIndex).getD (-1)

/-- A place that no bit has stays empty, and of two bits at one place the last one stays. -/
def makeGroup (portMsbFirst : List Char → Bool) (cell : ConcreteCell) (busName : List Char) (busPort : BusPort) :
    ConcreteCell :=
  let size := (busPort.toIndex - busPort.fromIndex + 1).toNat
  let msbFirst := portMsbFirst busName
  let memberIndex (bit : ℕ) : ℕ :=
    (if msbFirst then busPort.toIndex - cell.busBitIndex bit else cell.busBitIndex bit - busPort.fromIndex).toNat
  let members := put memberIndex (List.replicate size none) busPort.members
  if msbFirst then cell.makeBusPortOf busName busPort.toIndex busPort.fromIndex members
  else cell.makeBusPortOf busName busPort.fromIndex busPort.toIndex members

/-- The buses are made in the order of their names. -/
def groupBusPorts (cell : ConcreteCell) (brktLeft brktRight : Char) (portMsbFirst : List Char → Bool) : ConcreteCell :=
  let (scanned, busMap) := cell.ports.foldl (scanPort brktLeft brktRight) ({ cell with ports := [] }, ∅)
  (busMap.entries.mergeSort fun entry entry' => entry.1 ≤ entry'.1).foldl
    (fun cell entry => cell.makeGroup portMsbFirst entry.1 entry.2) scanned

end ConcreteCell

/-- The place of the iteration in the ports, and in the members of a bus. -/
structure PortBitIterator where
  ports : List ℕ
  members : Option (List (Option ℕ))
  next : Option ℕ

namespace PortBitIterator

def findNextPort (cell : ConcreteCell) : List ℕ → PortBitIterator
  | [] => ⟨[], none, none⟩
  | id :: ports =>
    match cell.portAt id with
    | none => ⟨ports, none, none⟩
    | some port =>
      if port.isBus then
        match port.members with
        | [] => ⟨ports, some [], none⟩
        | member :: members => ⟨ports, some members, member⟩
      else ⟨ports, none, some id⟩

def findNext (cell : ConcreteCell) (iter : PortBitIterator) : PortBitIterator :=
  match iter.members with
  | some (member :: members) => ⟨iter.ports, some members, member⟩
  | _ => findNextPort cell iter.ports

/-- What a loop over the iterator meets: it ends at the first `next` that is null. -/
def collect (cell : ConcreteCell) : ℕ → PortBitIterator → Option (List ℕ)
  | 0, _ => none
  | fuel + 1, iter =>
    match iter.next with
    | none => some []
    | some id => (collect cell fuel (findNext cell iter)).map (id :: ·)

end PortBitIterator

def portBitIterator (cell : ConcreteCell) : PortBitIterator := PortBitIterator.findNext cell ⟨cell.ports, none, none⟩

inductive Call
  | makePort (name : List Char)
  | makeBusPort (name : List Char) (fromIndex toIndex : ℤ)
  | groupBusPorts (brktLeft brktRight : Char) (portMsbFirst : List Char → Bool)

def ConcreteCell.step (cell : ConcreteCell) : Call → ConcreteCell
  | .makePort name => cell.makePort name
  | .makeBusPort name fromIndex toIndex => cell.makeBusPort name fromIndex toIndex
  | .groupBusPorts brktLeft brktRight portMsbFirst => cell.groupBusPorts brktLeft brktRight portMsbFirst

def ConcreteCell.run (cell : ConcreteCell) (calls : List Call) : ConcreteCell := calls.foldl ConcreteCell.step cell

end Source

section Listing
variable {cell cell' : ConcreteCell} {bits : List ℕ} {id : ℕ} {port : ConcretePort}

namespace ConcreteCell

def IsBit (cell : ConcreteCell) (id : ℕ) : Prop := ∃ port, cell.portAt id = some port ∧ port.isBus = false

def pinIndex (cell : ConcreteCell) (id : ℕ) : ℤ := ((cell.portAt id).map ConcretePort.pinIndex).getD (-1)

/-- What the iteration has of one of the ports. -/
def slotsOf (cell : ConcreteCell) (id : ℕ) : List (Option ℕ) :=
  match cell.portAt id with
  | some port => if port.isBus then port.members else [some id]
  | none => []

structure Listing (cell : ConcreteCell) (bits : List ℕ) : Prop where
  fresh : ∀ id, (cell.portAt id).isSome → id < cell.next
  distinct : cell.ports.Nodup
  live : ∀ id ∈ cell.ports, ∃ port, cell.portAt id = some port ∧ (port.isBus = false → port.fromIndex = -1) ∧
    (port.isBus = true → port.members ≠ [])
  slots : cell.ports.flatMap cell.slotsOf = bits.map some

/-- All bits are met, and numbered from zero on. -/
structure Numbered (cell : ConcreteCell) (bits : List ℕ) : Prop extends Listing cell bits where
  all : ∀ id, id ∈ bits ↔ cell.IsBit id
  indices : (bits.map cell.pinIndex).Perm ((List.range cell.portBitCount).map fun i : ℕ => (i : ℤ))

theorem Numbered.empty (busBrktLeft busBrktRight : Char) : (empty busBrktLeft busBrktRight).Numbered [] where
  fresh id there := by cases there
  distinct := .nil
  live id mem := by cases mem
  slots := rfl
  all id := by
    constructor
    · intro mem
      cases mem
    · rintro ⟨port, there, -⟩
      cases there
  indices := .nil

end ConcreteCell

open CellPorts.ConcreteCell PortBitIterator

section Iterator
variable {iter : PortBitIterator} {slot : Option ℕ} {rest : List (Option ℕ)}

def PortBitIterator.pending (cell : ConcreteCell) (iter : PortBitIterator) : List (Option ℕ) :=
  iter.members.getD [] ++ iter.ports.flatMap cell.slotsOf

def PortBitIterator.Live (cell : ConcreteCell) (iter : PortBitIterator) : Prop :=
  ∀ id ∈ iter.ports, ∃ port, cell.portAt id = some port ∧ (port.isBus = true → port.members ≠ [])

theorem findNext_nil (live : iter.Live cell) (nothing : iter.pending cell = []) : (findNext cell iter).next = none := by
  obtain ⟨ports, members, next⟩ := iter
  obtain ⟨noMembers, noPorts⟩ := List.append_eq_nil_iff.1 nothing
  have ended : findNext cell ⟨ports, members, next⟩ = findNextPort cell ports := by
    cases members with
    | none => rfl
    | some members =>
      obtain rfl : members = [] := noMembers
      rfl
  rw [ended]
  cases ports with
  | nil => rfl
  | cons id ports =>
    obtain ⟨port, here, whole⟩ := live id List.mem_cons_self
    have first := (List.flatMap_eq_nil_iff.1 noPorts) id List.mem_cons_self
    rw [slotsOf,here] at first
    cases bus : port.isBus with
    | false => simp [bus] at first
    | true => exact absurd (by simpa [bus] using first) (whole bus)

theorem findNext_cons (live : iter.Live cell) (coming : iter.pending cell = slot :: rest) :
    (findNext cell iter).next = slot ∧ (findNext cell iter).pending cell = rest ∧ (findNext cell iter).Live cell := by
  obtain ⟨ports, members, next⟩ := iter
  have fromPorts (coming : ports.flatMap cell.slotsOf = slot :: rest) :
      (findNextPort cell ports).next = slot ∧ (findNextPort cell ports).pending cell = rest ∧
        (findNextPort cell ports).Live cell := by
    cases ports with
    | nil => cases coming
    | cons id ports =>
      obtain ⟨port, here, whole⟩ := live id List.mem_cons_self
      have later : ∀ id ∈ ports, ∃ port, cell.portAt id = some port ∧ (port.isBus = true → port.members ≠ []) :=
        fun id mem => live id (List.mem_cons_of_mem _ mem)
      rw [List.flatMap_cons,slotsOf,here] at coming
      cases bus : port.isBus with
      | false =>
        simp only [bus,Bool.false_eq_true,if_false,List.singleton_append,List.cons.injEq] at coming
        obtain ⟨rfl, rfl⟩ := coming
        simp only [findNextPort,here,bus,Bool.false_eq_true,if_false]
        exact ⟨trivial, rfl, later⟩
      | true =>
        cases members : port.members with
        | nil => exact absurd members (whole bus)
        | cons member members =>
          simp only [bus,if_true,members,List.cons_append,List.cons.injEq] at coming
          obtain ⟨rfl, rfl⟩ := coming
          simp only [findNextPort,here,bus,if_true,members]
          exact ⟨trivial, rfl, later⟩
  cases members with
  | none => exact fromPorts coming
  | some members =>
    cases members with
    | nil => exact fromPorts coming
    | cons member members =>
      obtain ⟨rfl, rfl⟩ := List.cons.inj coming
      exact ⟨rfl, rfl, live⟩

theorem collect_eq (live : iter.Live cell) (whole : iter.pending cell = bits.map some) :
    collect cell (bits.length + 1) (findNext cell iter) = some bits := by
  induction bits generalizing iter with
  | nil =>
    rw [collect,findNext_nil live whole]
  | cons bit bits ih =>
    obtain ⟨next, pending, live⟩ := findNext_cons live whole
    rw [List.length_cons,collect,next]
    simp only [ih live pending,Option.map_some]

theorem Listing.collect (listing : cell.Listing bits) : collect cell (bits.length + 1) (portBitIterator cell) =
    some bits := by
  change PortBitIterator.collect cell _ (findNext cell ⟨cell.ports, none, none⟩) = _
  refine collect_eq (fun id mem => ?_) listing.slots
  obtain ⟨port, here, -, whole⟩ := listing.live id mem
  exact ⟨port, here, whole⟩

end Iterator

/-- The iterator meets every bit once, and the bits are numbered from zero on. -/
structure Exact (cell : ConcreteCell) (bits : List ℕ) : Prop where
  yields : ∃ fuel, PortBitIterator.collect cell fuel (portBitIterator cell) = some bits
  once : bits.Nodup
  every : ∀ id, id ∈ bits ↔ cell.IsBit id
  onto : Set.BijOn cell.pinIndex {id | id ∈ bits} {i | 0 ≤ i ∧ i < cell.portBitCount}

theorem Numbered.exact (numbered : cell.Numbered bits) : Exact cell bits := by
  have counts : ((List.range cell.portBitCount).map fun i : ℕ => (i : ℤ)).Nodup :=
    List.nodup_range.map fun i j same => by simpa using same
  have distinct : (bits.map cell.pinIndex).Nodup := numbered.indices.nodup_iff.2 counts
  constructor
  case yields => exact ⟨_, Listing.collect numbered.toListing⟩
  case once => exact List.Nodup.of_map _ distinct
  case every => exact numbered.all
  case onto =>
    refine ⟨fun id mem => ?_, fun id mem id' mem' same => List.inj_on_of_nodup_map distinct mem mem' same,
      fun i range => ?_⟩
    · obtain ⟨i, below, same⟩ := List.mem_map.1 (numbered.indices.mem_iff.1 (List.mem_map_of_mem mem))
      have below := List.mem_range.1 below
      rw [← same]
      exact ⟨by omega, by omega⟩
    · have mem : i ∈ (List.range cell.portBitCount).map fun i : ℕ => (i : ℤ) := by
        refine List.mem_map.2 ⟨i.toNat, List.mem_range.2 ?_, ?_⟩
        · have low : 0 ≤ i := range.1
          have high : i < cell.portBitCount := range.2
          omega
        · exact Int.toNat_of_nonneg range.1
      obtain ⟨id, inside, same⟩ := List.mem_map.1 (numbered.indices.mem_iff.2 mem)
      exact ⟨id, inside, same⟩

end Listing

section Made
variable {cell : ConcreteCell} {bits new : List ℕ} {id : ℕ} {port : ConcretePort} {name : List Char}
    {fromIndex toIndex : ℤ}

namespace ConcreteCell

theorem Listing.absent (listing : cell.Listing bits) : cell.portAt cell.next = none := by
  by_contra there
  exact absurd (listing.fresh _ (Option.isSome_iff_ne_none.2 there)) (Nat.lt_irrefl _)

theorem Listing.mem_lt (listing : cell.Listing bits) (mem : id ∈ cell.ports) : id < cell.next := by
  obtain ⟨port, here, -⟩ := listing.live id mem
  exact listing.fresh id (by rw [here]; rfl)

theorem Listing.add (listing : cell.Listing bits) {cell' : ConcreteCell}
    (portAt : cell'.portAt = Function.update cell.portAt cell.next (some port)) (next : cell'.next = cell.next + 1)
    (ports : cell'.ports = cell.ports ++ [cell.next])
    (whole : (port.isBus = false → port.fromIndex = -1) ∧ (port.isBus = true → port.members ≠ []))
    (slots : (if port.isBus then port.members else [some cell.next]) = new.map some) : cell'.Listing (bits ++ new) := by
  have other {id : ℕ} (mem : id ∈ cell.ports) : cell'.portAt id = cell.portAt id := by
    rw [portAt]
    exact Function.update_of_ne (listing.mem_lt mem).ne _ _
  have here : cell'.portAt cell.next = some port := by rw [portAt]; exact Function.update_self _ _ _
  constructor
  case fresh =>
    intro id there
    rw [next]
    by_cases same : id = cell.next
    · omega
    · rw [portAt,Function.update_of_ne same] at there
      exact (listing.fresh id there).trans (Nat.lt_succ_self _)
  case distinct =>
    rw [ports]
    refine List.nodup_append.2 ⟨listing.distinct, List.nodup_singleton _, fun id mem id' mem' => ?_⟩
    rw [List.mem_singleton.1 mem']
    exact (listing.mem_lt mem).ne
  case live =>
    intro id mem
    rw [ports] at mem
    rcases List.mem_append.1 mem with mem | mem
    · rw [other mem]
      exact listing.live id mem
    · rw [List.mem_singleton.1 mem]
      exact ⟨port, here, whole⟩
  case slots =>
    have old : cell.ports.flatMap cell'.slotsOf = cell.ports.flatMap cell.slotsOf := by
      apply List.flatMap_congr
      intro id mem
      rw [slotsOf,slotsOf,other mem]
    rw [ports,List.flatMap_append,old,listing.slots,List.flatMap_singleton,slotsOf,here,List.map_append]
    exact congrArg _ slots

theorem makePort_eq (cell : ConcreteCell) (name : List Char) :
    cell.makePort name = { cell with
      portAt := Function.update cell.portAt cell.next (some ⟨name, false, -1, -1, [], cell.portBitCount⟩)
      next := cell.next + 1
      ports := cell.ports ++ [cell.next]
      portMap := Function.update cell.portMap name (some cell.next)
      portBitCount := cell.portBitCount + 1 } := by
  simp [makePort,newPort,addPort,numberPort,modify]

theorem makeBusPortOf_eq (cell : ConcreteCell) (name : List Char) (fromIndex toIndex : ℤ) (members : List (Option ℕ)) :
    cell.makeBusPortOf name fromIndex toIndex members = { cell with
      portAt := Function.update cell.portAt cell.next (some ⟨name, true, fromIndex, toIndex, members, -1⟩)
      next := cell.next + 1
      ports := cell.ports ++ [cell.next]
      portMap := Function.update cell.portMap name (some cell.next) } := by
  simp [makeBusPortOf,newPort,addPort]

theorem Numbered.makePort (numbered : cell.Numbered bits) (name : List Char) :
    (cell.makePort name).Numbered (bits ++ [cell.next]) := by
  have below {id : ℕ} (mem : id ∈ bits) : id ≠ cell.next := by
    obtain ⟨port, here, -⟩ := (numbered.all id).1 mem
    exact (numbered.fresh id (by rw [here]; rfl)).ne
  have here : (cell.makePort name).portAt cell.next = some ⟨name, false, -1, -1, [], cell.portBitCount⟩ := by
    rw [makePort_eq]
    exact Function.update_self _ _ _
  have other {id : ℕ} (differs : id ≠ cell.next) : (cell.makePort name).portAt id = cell.portAt id := by
    rw [makePort_eq]
    exact Function.update_of_ne differs _ _
  have count : (cell.makePort name).portBitCount = cell.portBitCount + 1 := by rw [makePort_eq]
  constructor
  case toListing =>
    rw [makePort_eq]
    exact numbered.add rfl rfl rfl ⟨fun _ => rfl, fun bus => by cases bus⟩ rfl
  case all =>
    intro id
    rw [List.mem_append,List.mem_singleton]
    by_cases same : id = cell.next
    · subst same
      exact ⟨fun _ => ⟨_, here, rfl⟩, fun _ => .inr rfl⟩
    · rw [IsBit,other same]
      exact (or_iff_left same).trans (numbered.all id)
  case indices =>
    rw [count,List.map_append,List.range_succ,List.map_append]
    refine List.Perm.append ?_ (List.Perm.of_eq ?_)
    · refine List.Perm.trans (List.Perm.of_eq ?_) numbered.indices
      apply List.map_congr_left
      intro id mem
      rw [pinIndex,pinIndex,other (below mem)]
    · rw [List.map_singleton,pinIndex,here]
      rfl

end ConcreteCell
end Made

section Scan
variable {cell : ConcreteCell} {brktLeft brktRight : Char} {bits front back : List ℕ}
    {scanned : ConcreteCell × ConcreteCell.BusMap} {id : ℕ}
  {name : List Char} {index : ℤ} {port : ConcretePort}

namespace ConcreteCell

/-- The bus and the index that the name of a port stands for. -/
def parsed (cell : ConcreteCell) (brktLeft brktRight : Char) (id : ℕ) : Option (List Char × ℤ) :=
  (cell.portAt id).bind fun port => parseBusIndex port.name [brktLeft] [brktRight] escape

/-- The ports that are named like the bits of a bus are bits of it, one for every index there is between two others. -/
structure Groupable (cell : ConcreteCell) (brktLeft brktRight : Char) : Prop where
  scalar : ∀ id ∈ cell.ports, (cell.parsed brktLeft brktRight id).isSome → cell.IsBit id
  once : ∀ id ∈ cell.ports, ∀ id' ∈ cell.ports, (cell.parsed brktLeft brktRight id).isSome →
    cell.parsed brktLeft brktRight id = cell.parsed brktLeft brktRight id' → id = id'
  dense : ∀ name, ∀ id ∈ cell.ports, ∀ id' ∈ cell.ports, ∀ low high, cell.parsed brktLeft brktRight id =
    some (name, low) →
    cell.parsed brktLeft brktRight id' = some (name, high) → ∀ index, low ≤ index → index ≤ high →
      ∃ bit ∈ cell.ports, cell.parsed brktLeft brktRight bit = some (name, index)

theorem parsed_isInt (here : cell.parsed brktLeft brktRight id = some (name, index)) : IsInt index := by
  obtain ⟨port, -, parse⟩ := Option.bind_eq_some_iff.1 here
  obtain ⟨pair, -, same⟩ := Option.bind_eq_some_iff.1 parse
  obtain ⟨-, rfl⟩ := Prod.mk.inj (Option.some.inj same)
  exact isInt_atoi _

def group (busMap : BusMap) (name : List Char) : BusPort := (busMap.lookup name).getD .empty

/-- What is known of the ports in `front` that belong to one bus. -/
structure Grouped (cell : ConcreteCell) (brktLeft brktRight : Char) (front : List ℕ) (busMap : BusMap)
    (name : List Char) : Prop where
  members : ∀ id, id ∈ (group busMap name).members ↔ id ∈ front ∧
    ∃ index, cell.parsed brktLeft brktRight id = some (name, index)
  between : ∀ id ∈ front, ∀ index, cell.parsed brktLeft brktRight id = some (name, index) →
    (group busMap name).fromIndex ≤ index ∧ index ≤ (group busMap name).toIndex
  attained : name ∈ busMap →
    (∃ id ∈ front, cell.parsed brktLeft brktRight id = some (name, (group busMap name).fromIndex)) ∧
    ∃ id ∈ front, cell.parsed brktLeft brktRight id = some (name, (group busMap name).toIndex)
  empty : name ∉ busMap → group busMap name = .empty

structure Scanned (cell : ConcreteCell) (brktLeft brktRight : Char) (front : List ℕ) (scanned : ConcreteCell × BusMap) :
    Prop where
  next : scanned.1.next = cell.next
  count : scanned.1.portBitCount = cell.portBitCount
  ports : scanned.1.ports = front.filter fun id => (cell.parsed brktLeft brktRight id).isNone
  kept : ∀ id, (id ∈ front → cell.parsed brktLeft brktRight id = none) → scanned.1.portAt id = cell.portAt id
  changed : ∀ id ∈ front, ∀ name index, cell.parsed brktLeft brktRight id = some (name, index) →
    scanned.1.portAt id = (cell.portAt id).map (ConcretePort.setBusBitIndex index)
  total : total (fun busPort => (busPort.members : Multiset ℕ)) scanned.2 =
    (front.filter fun id => (cell.parsed brktLeft brktRight id).isSome : List ℕ)
  groups : ∀ name, Grouped cell brktLeft brktRight front scanned.2 name

theorem Scanned.nil (cell : ConcreteCell) (brktLeft brktRight : Char) :
    Scanned cell brktLeft brktRight [] ({ cell with ports := [] }, ∅) where
  next := rfl
  count := rfl
  ports := rfl
  kept _ _ := rfl
  changed _ mem := by cases mem
  total := rfl
  groups name := by
    constructor
    case members => exact fun id => ⟨fun mem => (by cases mem), fun mem => (by cases mem.1)⟩
    case between => exact fun id mem => by cases mem
    case attained => exact fun mem => absurd mem (AList.notMem_empty name)
    case empty => exact fun _ => rfl

theorem group_insert (busMap : BusMap) (name other : List Char) (busPort : BusPort) :
    group (busMap.insert name busPort) other = if other = name then busPort else group busMap other := by
  unfold group
  by_cases same : other = name
  · subst same
    rw [AList.lookup_insert,if_pos rfl]
    rfl
  · rw [AList.lookup_insert_ne same,if_neg same]

theorem Grouped.add (grouped : Grouped cell brktLeft brktRight front scanned.2 name)
    (here : cell.parsed brktLeft brktRight id = some (name, index)) :
    Grouped cell brktLeft brktRight (front ++ [id]) (scanned.2.insert name ((group scanned.2 name).addBusBit id index))
    name := by
  obtain ⟨low, high⟩ := parsed_isInt here
  have own : group (scanned.2.insert name ((group scanned.2 name).addBusBit id index)) name =
    (group scanned.2 name).addBusBit id index := by
    rw [group_insert,if_pos rfl]
  constructor
  case members =>
    intro other
    rw [own,BusPort.addBusBit,List.mem_append,List.mem_append,List.mem_singleton,grouped.members]
    constructor
    · rintro (⟨mem, parse⟩ | rfl)
      · exact ⟨.inl mem, parse⟩
      · exact ⟨.inr rfl, index, here⟩
    · rintro ⟨mem | rfl, parse⟩
      · exact .inl ⟨mem, parse⟩
      · exact .inr rfl
  case between =>
    intro other mem index' parse
    rw [own]
    rcases List.mem_append.1 mem with mem | mem
    · obtain ⟨lower, upper⟩ := grouped.between other mem index' parse
      exact ⟨(min_le_left _ _).trans lower, upper.trans (le_max_left _ _)⟩
    · rw [List.mem_singleton.1 mem,here] at parse
      obtain rfl : index = index' := (Prod.mk.inj (Option.some.inj parse)).2
      exact ⟨min_le_right _ _, le_max_right _ _⟩
  case attained =>
    intro _
    rw [own]
    have self : id ∈ front ++ [id] := List.mem_append_right _ (List.mem_singleton.2 rfl)
    by_cases known : name ∈ scanned.2
    · obtain ⟨⟨first, memFirst, atFirst⟩, last, memLast, atLast⟩ := grouped.attained known
      constructor
      · rcases min_choice (group scanned.2 name).fromIndex index with least | least
        · exact ⟨first, List.mem_append_left _ memFirst, by rw [atFirst,BusPort.addBusBit,least]⟩
        · exact ⟨id, self, by rw [here,BusPort.addBusBit,least]⟩
      · rcases max_choice (group scanned.2 name).toIndex index with most | most
        · exact ⟨last, List.mem_append_left _ memLast, by rw [atLast,BusPort.addBusBit,most]⟩
        · exact ⟨id, self, by rw [here,BusPort.addBusBit,most]⟩
    · have none := grouped.empty known
      have least : min (2 ^ 31 - 1) index = index := min_eq_right (by omega)
      have most : max (-2 ^ 31) index = index := max_eq_right (by omega)
      rw [none]
      exact ⟨⟨id, self, by rw [here,BusPort.addBusBit,BusPort.empty,least]⟩, id, self, by
        rw [here,BusPort.addBusBit,BusPort.empty,most]⟩
  case empty => exact fun absent => absurd ((AList.mem_insert _).2 (.inl rfl)) absent

theorem Grouped.other (grouped : Grouped cell brktLeft brktRight front scanned.2 name)
    (apart : ∀ index, cell.parsed brktLeft brktRight id ≠ some (name, index)) {busMap : BusMap}
    (same : group busMap name = group scanned.2 name)
    (known : name ∈ busMap ↔ name ∈ scanned.2) : Grouped cell brktLeft brktRight (front ++ [id]) busMap name := by
  have inFront {other : ℕ} {index : ℤ} (mem : other ∈ front ++ [id]) (parse : cell.parsed brktLeft brktRight other =
    some (name, index)) :
      other ∈ front := by
    rcases List.mem_append.1 mem with mem | mem
    · exact mem
    · rw [List.mem_singleton.1 mem] at parse
      exact absurd parse (apart index)
  constructor
  case members =>
    intro other
    rw [same,grouped.members]
    constructor
    · exact fun both => ⟨List.mem_append_left _ both.1, both.2⟩
    · rintro ⟨mem, index, parse⟩
      exact ⟨inFront mem parse, index, parse⟩
  case between =>
    intro other mem index parse
    rw [same]
    exact grouped.between other (inFront mem parse) index parse
  case attained =>
    intro mem
    rw [same]
    obtain ⟨⟨first, memFirst, atFirst⟩, last, memLast, atLast⟩ := grouped.attained (known.1 mem)
    exact ⟨⟨first, List.mem_append_left _ memFirst, atFirst⟩, last, List.mem_append_left _ memLast, atLast⟩
  case empty =>
    intro absent
    rw [same]
    exact grouped.empty fun mem => absent (known.2 mem)

theorem Scanned.skip (scan : Scanned cell brktLeft brktRight front scanned) (fresh : id ∉ front)
    (here : cell.portAt id = some port) (none : cell.parsed brktLeft brktRight id = none) :
    Scanned cell brktLeft brktRight (front ++ [id]) (scanPort brktLeft brktRight scanned id) := by
  have there : scanned.1.portAt id = some port := (scan.kept id fun mem => absurd mem fresh).trans here
  have parse : parseBusIndex port.name [brktLeft] [brktRight] escape = Option.none := by
    rw [parsed,here] at none
    exact none
  have step : scanPort brktLeft brktRight scanned id =
    ({ scanned.1 with ports := scanned.1.ports ++ [id] }, scanned.2) := by
    unfold scanPort
    simp only [there,parse]
  rw [step]
  constructor
  case next => exact scan.next
  case count => exact scan.count
  case ports =>
    rw [List.filter_append,List.filter_singleton,none]
    exact congrArg (· ++ [id]) scan.ports
  case kept => exact fun other outside => scan.kept other fun mem => outside (List.mem_append_left _ mem)
  case changed =>
    intro other mem name index parse
    rcases List.mem_append.1 mem with mem | mem
    · exact scan.changed other mem name index parse
    · rw [List.mem_singleton.1 mem,none] at parse
      cases parse
  case total =>
    rw [List.filter_append,List.filter_singleton,none]
    simpa using scan.total
  case groups =>
    exact fun name => (scan.groups name).other (by rw [none]; exact fun _ same => by cases same) rfl Iff.rfl

theorem Scanned.take (scan : Scanned cell brktLeft brktRight front scanned) (fresh : id ∉ front)
    (here : cell.portAt id = some port) (scalar : port.fromIndex = -1)
    (parse : cell.parsed brktLeft brktRight id = some (name, index)) :
    Scanned cell brktLeft brktRight (front ++ [id]) (scanPort brktLeft brktRight scanned id) := by
  have there : scanned.1.portAt id = some port := (scan.kept id fun mem => absurd mem fresh).trans here
  have named : parseBusIndex port.name [brktLeft] [brktRight] escape = some (name, index) := by
    rw [parsed,here] at parse
    exact parse
  have notBit : port.isBusBit = false := by simp [ConcretePort.isBusBit,scalar]
  have step : scanPort brktLeft brktRight scanned id = (scanned.1.modify id (ConcretePort.setBusBitIndex index),
      scanned.2.insert name ((group scanned.2 name).addBusBit id index)) := by
    unfold scanPort
    simp only [there,named,notBit,Bool.false_eq_true,if_false]
    rfl
  rw [step]
  constructor
  case next => exact scan.next
  case count => exact scan.count
  case ports =>
    rw [List.filter_append,List.filter_singleton,parse]
    exact scan.ports.trans (List.append_nil _).symm
  case kept =>
    intro other outside
    have differs : other ≠ id := by
      rintro rfl
      rw [outside (List.mem_append_right _ (List.mem_singleton.2 rfl))] at parse
      cases parse
    exact (Function.update_of_ne differs _ _).trans (scan.kept other fun mem => outside (List.mem_append_left _ mem))
  case changed =>
    intro other mem name' index' parse'
    rcases List.mem_append.1 mem with mem | mem
    · have differs : other ≠ id := fun same => fresh (same ▸ mem)
      exact (Function.update_of_ne differs _ _).trans (scan.changed other mem name' index' parse')
    · obtain rfl := List.mem_singleton.1 mem
      rw [parse] at parse'
      obtain ⟨-, rfl⟩ := Prod.mk.inj (Option.some.inj parse')
      refine (Function.update_self _ _ _).trans ?_
      rw [there,here]
  case total =>
    have old := scan.total
    rw [total_lookup _ name] at old
    rw [total_insert_erase,List.filter_append,List.filter_singleton,parse]
    have members : ((scanned.2.lookup name).map fun busPort => (busPort.members : Multiset ℕ)).getD 0 =
        ((group scanned.2 name).members : Multiset ℕ) := by
      unfold group
      cases scanned.2.lookup name <;> rfl
    rw [members] at old
    simp only [BusPort.addBusBit,Option.isSome_some,cond_true,← Multiset.coe_add]
    rw [← old,add_right_comm]
  case groups =>
    intro other
    by_cases same : other = name
    · subst same
      exact (scan.groups other).add parse
    · refine (scan.groups other).other ?_ ?_ ?_
      · rw [parse]
        rintro index' eq
        exact same (Prod.mk.inj (Option.some.inj eq)).1.symm
      · rw [group_insert,if_neg same]
      · rw [AList.mem_insert]
        exact or_iff_right same

theorem Groupable.scan (groupable : cell.Groupable brktLeft brktRight) (listing : cell.Listing bits) :
    Scanned cell brktLeft brktRight cell.ports
    (cell.ports.foldl (scanPort brktLeft brktRight) ({ cell with ports := [] }, ∅)) := by
  have each : ∀ back front scanned, cell.ports = front ++ back → Scanned cell brktLeft brktRight front scanned →
      Scanned cell brktLeft brktRight cell.ports (back.foldl (scanPort brktLeft brktRight) scanned) := by
    intro back
    induction back with
    | nil =>
      intro front scanned whole scan
      rw [whole,List.append_nil]
      exact scan
    | cons id back ih =>
      intro front scanned whole scan
      have mem : id ∈ cell.ports := by rw [whole]; exact List.mem_append_right _ List.mem_cons_self
      have fresh : id ∉ front := by
        have distinct := listing.distinct
        rw [whole] at distinct
        intro inside
        exact (List.nodup_append.1 distinct).2.2 id inside id List.mem_cons_self rfl
      obtain ⟨port, here, scalar, -⟩ := listing.live id mem
      refine ih (front ++ [id]) _ (by rw [whole,List.append_assoc]; rfl) ?_
      cases parse : cell.parsed brktLeft brktRight id with
      | none => exact scan.skip fresh here parse
      | some pair =>
        obtain ⟨port', here', bit⟩ := groupable.scalar id mem (by rw [parse]; rfl)
        obtain rfl := Option.some.inj (here.symm.trans here')
        exact scan.take fresh here (scalar bit) parse
  exact each cell.ports [] _ rfl (.nil cell brktLeft brktRight)

end ConcreteCell
end Scan

section Groups
variable {cell scanned : ConcreteCell} {brktLeft brktRight : Char} {bits kept done : List ℕ}
    {busMap : ConcreteCell.BusMap}
  {portMsbFirst : List Char → Bool} {name : List Char} {busPort : BusPort}

namespace ConcreteCell

theorem Groupable.places (groupable : cell.Groupable brktLeft brktRight)
    (grouped : Grouped cell brktLeft brktRight cell.ports busMap name) (mem : name ∈ busMap)
    (distinct : (group busMap name).members.Nodup) {busIndex : ℕ → ℤ}
    (indices : ∀ id ∈ cell.ports, ∀ index, cell.parsed brktLeft brktRight id = some (name, index) → busIndex id = index)
    (msbFirst : Bool) :
    ((group busMap name).members.map fun bit =>
      (if msbFirst then (group busMap name).toIndex - busIndex bit else busIndex bit -
        (group busMap name).fromIndex).toNat).Perm
      (List.range ((group busMap name).toIndex - (group busMap name).fromIndex + 1).toNat) := by
  obtain ⟨⟨first, memFirst, atFirst⟩, last, memLast, atLast⟩ := grouped.attained mem
  have known (bit : ℕ) (inside : bit ∈ (group busMap name).members) : bit ∈ cell.ports ∧
      cell.parsed brktLeft brktRight bit = some (name, busIndex bit) ∧
      (group busMap name).fromIndex ≤ busIndex bit ∧ busIndex bit ≤ (group busMap name).toIndex := by
    obtain ⟨there, index, parse⟩ := (grouped.members bit).1 inside
    rw [indices bit there index parse]
    exact ⟨there, parse, grouped.between bit there index parse⟩
  refine (List.perm_ext_iff_of_nodup ?_ List.nodup_range).2 fun place => ?_
  · refine List.Nodup.map_on (fun bit inside bit' inside' same => ?_) distinct
    obtain ⟨there, parse, lower, upper⟩ := known bit inside
    obtain ⟨there', parse', lower', upper'⟩ := known bit' inside'
    have index : busIndex bit = busIndex bit' := by
      cases msbFirst <;> simp only [Bool.false_eq_true,if_false,if_true] at same <;> omega
    refine groupable.once bit there bit' there' (by rw [parse]; rfl) ?_
    rw [parse,parse',index]
  · rw [List.mem_map,List.mem_range]
    constructor
    · rintro ⟨bit, inside, rfl⟩
      obtain ⟨-, -, lower, upper⟩ := known bit inside
      cases msbFirst <;> simp only [Bool.false_eq_true,if_false,if_true] <;> omega
    · intro below
      have some (index : ℤ) (low : (group busMap name).fromIndex ≤ index) (high : index ≤ (group busMap name).toIndex) :
          ∃ bit ∈ (group busMap name).members, busIndex bit = index := by
        obtain ⟨bit, there, parse⟩ := groupable.dense name first memFirst last memLast _ _ atFirst atLast index low high
        exact ⟨bit, (grouped.members bit).2 ⟨there, index, parse⟩, indices bit there index parse⟩
      cases msbFirst with
      | true =>
        obtain ⟨bit, inside, index⟩ := some ((group busMap name).toIndex - place) (by omega) (by omega)
        refine ⟨bit, inside, ?_⟩
        simp only [if_true]
        omega
      | false =>
        obtain ⟨bit, inside, index⟩ := some ((group busMap name).fromIndex + place) (by omega) (by omega)
        refine ⟨bit, inside, ?_⟩
        simp only [Bool.false_eq_true,if_false]
        omega

structure SameBits (cell cell' : ConcreteCell) : Prop where
  count : cell'.portBitCount = cell.portBitCount
  bit : ∀ id, cell'.IsBit id ↔ cell.IsBit id
  index : ∀ id, cell.IsBit id → cell'.pinIndex id = cell.pinIndex id

theorem SameBits.trans {cell' cell'' : ConcreteCell} (first : SameBits cell cell') (second : SameBits cell' cell'') :
    SameBits cell cell'' where
  count := second.count.trans first.count
  bit id := (second.bit id).trans (first.bit id)
  index id bit := (second.index id ((first.bit id).2 bit)).trans (first.index id bit)

theorem sameBits_makeBusPortOf (listing : cell.Listing bits) (name : List Char) (fromIndex toIndex : ℤ)
    (members : List (Option ℕ)) :
    SameBits cell (cell.makeBusPortOf name fromIndex toIndex members) := by
  have here : (cell.makeBusPortOf name fromIndex toIndex members).portAt cell.next =
    some ⟨name, true, fromIndex, toIndex, members, -1⟩ := by
    rw [makeBusPortOf_eq]
    exact Function.update_self _ _ _
  have other {id : ℕ} (differs : id ≠ cell.next) : (cell.makeBusPortOf name fromIndex toIndex members).portAt id =
    cell.portAt id := by
    rw [makeBusPortOf_eq]
    exact Function.update_of_ne differs _ _
  have apart {id : ℕ} (bit : cell.IsBit id) : id ≠ cell.next := by
    rintro rfl
    obtain ⟨port, there, -⟩ := bit
    cases listing.absent.symm.trans there
  constructor
  case count => rw [makeBusPortOf_eq]
  case bit =>
    intro id
    constructor
    · rintro ⟨port, there, scalar⟩
      by_cases same : id = cell.next
      · rw [same,here] at there
        rw [← Option.some.inj there] at scalar
        cases scalar
      · exact ⟨port, (other same).symm.trans there, scalar⟩
    · intro bit
      rw [IsBit,other (apart bit)]
      exact bit
  case index =>
    intro id bit
    rw [pinIndex,pinIndex,other (apart bit)]

theorem Groupable.makeGroup (groupable : cell.Groupable brktLeft brktRight) (portMsbFirst : List Char → Bool)
    (listing : scanned.Listing bits) (grouped : Grouped cell brktLeft brktRight cell.ports busMap name)
    (here : busMap.lookup name = some busPort) (distinct : busPort.members.Nodup)
    (indices : ∀ id ∈ cell.ports, ∀ index, cell.parsed brktLeft brktRight id = some (name, index) →
      scanned.busBitIndex id = index) :
    ∃ new, new.Perm busPort.members ∧ (scanned.makeGroup portMsbFirst name busPort).Listing (bits ++ new) ∧
      SameBits scanned (scanned.makeGroup portMsbFirst name busPort) ∧
      ∀ id, (scanned.portAt id).isSome →
        (scanned.makeGroup portMsbFirst name busPort).portAt id = scanned.portAt id := by
  have mem : name ∈ busMap := AList.lookup_isSome.1 (by rw [here]; rfl)
  have own : group busMap name = busPort := by rw [group,here]; rfl
  obtain ⟨⟨first, memFirst, atFirst⟩, -⟩ := grouped.attained mem
  have inside : first ∈ busPort.members := by
    rw [← own]
    exact (grouped.members first).2 ⟨memFirst, _, atFirst⟩
  have places := groupable.places grouped mem (by rw [own]; exact distinct) indices (portMsbFirst name)
  rw [own] at places
  obtain ⟨new, perm, whole⟩ := put_perm places
  have nonempty : new ≠ [] := by
    rintro rfl
    rw [List.nil_perm.1 perm] at inside
    cases inside
  have made (fromIndex toIndex : ℤ) :
    (scanned.makeBusPortOf name fromIndex toIndex (new.map some)).Listing (bits ++ new) ∧
      SameBits scanned (scanned.makeBusPortOf name fromIndex toIndex (new.map some)) ∧
      ∀ id, (scanned.portAt id).isSome →
        (scanned.makeBusPortOf name fromIndex toIndex (new.map some)).portAt id = scanned.portAt id := by
    refine ⟨?_, sameBits_makeBusPortOf listing name fromIndex toIndex _, fun id there => ?_⟩
    · rw [makeBusPortOf_eq]
      exact listing.add rfl rfl rfl ⟨fun scalar => (by cases scalar), fun _ same =>
        nonempty (List.map_eq_nil_iff.1 same)⟩ rfl
    · rw [makeBusPortOf_eq]
      exact Function.update_of_ne (listing.fresh id there).ne _ _
  refine ⟨new, perm, ?_⟩
  unfold ConcreteCell.makeGroup
  simp only
  rw [whole]
  cases portMsbFirst name with
  | true => exact made _ _
  | false => exact made _ _

theorem SameBits.refl (cell : ConcreteCell) : SameBits cell cell := ⟨rfl, fun _ => Iff.rfl, fun _ _ => rfl⟩

theorem Groupable.makeGroups (groupable : cell.Groupable brktLeft brktRight) (portMsbFirst : List Char → Bool)
    (entries : List (Sigma fun _ : List Char => BusPort))
    (grouped : ∀ name, Grouped cell brktLeft brktRight cell.ports busMap name)
    (all : ∀ entry ∈ entries, busMap.lookup entry.1 = some entry.2 ∧ entry.2.members.Nodup)
    (listing : scanned.Listing bits) (there : ∀ id ∈ cell.ports, (scanned.portAt id).isSome)
    (indices : ∀ name, ∀ id ∈ cell.ports, ∀ index, cell.parsed brktLeft brktRight id = some (name, index) →
      scanned.busBitIndex id = index) :
    ∃ new, new.Perm (entries.flatMap fun entry => entry.2.members) ∧
      (entries.foldl (fun cell entry => cell.makeGroup portMsbFirst entry.1 entry.2) scanned).Listing (bits ++ new) ∧
      SameBits scanned (entries.foldl (fun cell entry => cell.makeGroup portMsbFirst entry.1 entry.2) scanned) := by
  induction entries generalizing scanned bits with
  | nil => exact ⟨[], .nil, by rw [List.append_nil]; exact listing, .refl _⟩
  | cons entry entries ih =>
    obtain ⟨here, distinct⟩ := all entry List.mem_cons_self
    obtain ⟨first, perm, made, same, others⟩ := groupable.makeGroup portMsbFirst listing (grouped entry.1) here distinct
      (indices entry.1)
    have kept (id : ℕ) (mem : id ∈ cell.ports) := others id (there id mem)
    obtain ⟨later, perm', made', same'⟩ := ih (fun entry mem => all entry (List.mem_cons_of_mem _ mem)) made
      (fun id mem => by rw [kept id mem]; exact there id mem)
      (fun name id mem index parse => by rw [busBitIndex,kept id mem]; exact indices name id mem index parse)
    refine ⟨first ++ later, ?_, ?_, same.trans same'⟩
    · rw [List.flatMap_cons]
      exact perm.append perm'
    · rw [← List.append_assoc]
      exact made'

def bitsOf (cell : ConcreteCell) (id : ℕ) : List ℕ := (cell.slotsOf id).reduceOption

theorem Listing.bits_eq (listing : cell.Listing bits) : cell.ports.flatMap cell.bitsOf = bits := by
  have whole := congrArg List.reduceOption listing.slots
  have back : (bits.map some).reduceOption = bits := by
    rw [List.reduceOption,List.filterMap_map]
    exact List.filterMap_some
  rw [← back,← whole,List.reduceOption,List.filterMap_flatMap]
  rfl

theorem Listing.slotsOf_eq (listing : cell.Listing bits) {id : ℕ} (mem : id ∈ cell.ports) :
    cell.slotsOf id = (cell.bitsOf id).map some := by
  have each : ∀ slot ∈ cell.slotsOf id, slot.isSome := by
    intro slot inside
    have within : slot ∈ bits.map some := by
      rw [← listing.slots]
      exact List.mem_flatMap.2 ⟨id, mem, inside⟩
    obtain ⟨bit, -, rfl⟩ := List.mem_map.1 within
    rfl
  unfold bitsOf
  generalize cell.slotsOf id = slots at each
  induction slots with
  | nil => rfl
  | cons slot slots ih =>
    obtain ⟨bit, rfl⟩ := Option.isSome_iff_exists.1 (each slot List.mem_cons_self)
    rw [List.reduceOption_cons_of_some,List.map_cons,← ih fun slot inside => each slot (List.mem_cons_of_mem _ inside)]

theorem sum_coe_eq (entries : List (Sigma fun _ : List Char => BusPort)) :
    (entries.map fun entry => (entry.2.members : Multiset ℕ)).sum =
    (entries.flatMap fun entry => entry.2.members : List ℕ) := by
  induction entries with
  | nil => rfl
  | cons entry entries ih =>
    rw [List.map_cons,List.sum_cons,ih,List.flatMap_cons]
    rfl

theorem Scanned.same (scan : Scanned cell brktLeft brktRight cell.ports (scanned, busMap)) (id : ℕ) :
    ∃ index : Option ℤ, scanned.portAt id = (cell.portAt id).map fun port => index.elim port fun index =>
    port.setBusBitIndex index := by
  by_cases mem : id ∈ cell.ports
  · cases parse : cell.parsed brktLeft brktRight id with
    | none => exact ⟨none, (scan.kept id fun _ => parse).trans Option.map_id'.symm⟩
    | some pair => exact ⟨some pair.2, scan.changed id mem pair.1 pair.2 parse⟩
  · exact ⟨none, (scan.kept id fun inside => absurd inside mem).trans Option.map_id'.symm⟩

theorem Scanned.sameBits (scan : Scanned cell brktLeft brktRight cell.ports (scanned, busMap)) :
    SameBits cell scanned where
  count := scan.count
  bit id := by
    obtain ⟨index, same⟩ := scan.same id
    unfold IsBit
    rw [same]
    cases cell.portAt id with
    | none => exact ⟨fun ⟨_, there, _⟩ => (by cases there), fun ⟨_, there, _⟩ => (by cases there)⟩
    | some port => cases index <;> simp [ConcretePort.setBusBitIndex]
  index id _ := by
    obtain ⟨index, same⟩ := scan.same id
    rw [pinIndex,pinIndex,same]
    cases cell.portAt id with
    | none => rfl
    | some port => cases index <;> rfl

theorem Scanned.listing (scan : Scanned cell brktLeft brktRight cell.ports (scanned, busMap))
    (listing : cell.Listing bits) :
    scanned.Listing ((cell.ports.filter fun id => (cell.parsed brktLeft brktRight id).isNone).flatMap cell.bitsOf) := by
  have ports : scanned.ports = cell.ports.filter fun id => (cell.parsed brktLeft brktRight id).isNone := scan.ports
  have unchanged {id : ℕ} (mem : id ∈ scanned.ports) : id ∈ cell.ports ∧ scanned.portAt id = cell.portAt id := by
    rw [ports,List.mem_filter] at mem
    exact ⟨mem.1, scan.kept id fun _ => Option.isNone_iff_eq_none.1 mem.2⟩
  constructor
  case fresh =>
    intro id there
    obtain ⟨index, same⟩ := scan.same id
    rw [same,Option.isSome_map] at there
    exact (listing.fresh id there).trans_eq scan.next.symm
  case distinct =>
    rw [ports]
    exact listing.distinct.filter _
  case live =>
    intro id mem
    rw [(unchanged mem).2]
    exact listing.live id (unchanged mem).1
  case slots =>
    rw [← ports,List.map_flatMap]
    apply List.flatMap_congr
    intro id mem
    rw [← listing.slotsOf_eq (unchanged mem).1,slotsOf,slotsOf,(unchanged mem).2]

theorem Numbered.groupBusPorts (numbered : cell.Numbered bits) (groupable : cell.Groupable brktLeft brktRight)
    (portMsbFirst : List Char → Bool) :
    ∃ bits', (cell.groupBusPorts brktLeft brktRight portMsbFirst).Numbered bits' := by
  have scan := groupable.scan numbered.toListing
  unfold ConcreteCell.groupBusPorts
  generalize cell.ports.foldl (scanPort brktLeft brktRight) ({ cell with ports := [] }, ∅) = pair at scan
  obtain ⟨scanned, busMap⟩ := pair
  simp only
  have sorted := List.mergeSort_perm busMap.entries fun entry entry' => decide (entry.1 ≤ entry'.1)
  generalize busMap.entries.mergeSort (fun entry entry' => decide (entry.1 ≤ entry'.1)) = entries at sorted
  have taken : (entries.flatMap fun entry => entry.2.members).Perm
      (cell.ports.filter fun id => (cell.parsed brktLeft brktRight id).isSome) := by
    refine (sorted.flatMap_right _).trans (Multiset.coe_eq_coe.1 ?_)
    rw [← sum_coe_eq]
    exact scan.total
  have distinct : (entries.flatMap fun entry => entry.2.members).Nodup := taken.nodup_iff.2 (numbered.distinct.filter _)
  have all : ∀ entry ∈ entries, busMap.lookup entry.1 = some entry.2 ∧ entry.2.members.Nodup := fun entry mem =>
    ⟨AList.mem_lookup_iff.2 (sorted.mem_iff.1 mem), (List.nodup_flatMap.1 distinct).1 entry mem⟩
  obtain ⟨new, perm, listing, same⟩ := groupable.makeGroups portMsbFirst entries scan.groups all
    (scan.listing numbered.toListing)
    (fun id mem => by
      obtain ⟨port, here, -⟩ := numbered.live id mem
      obtain ⟨index, same⟩ := scan.same id
      rw [same,here]
      rfl)
    (fun name id mem index parse => by
      obtain ⟨port, here, -⟩ := numbered.live id mem
      rw [busBitIndex,scan.changed id mem name index parse,here]
      rfl)
  have same := scan.sameBits.trans same
  -- The ports that were taken are bits.
  have scalars : (cell.ports.filter fun id => (cell.parsed brktLeft brktRight id).isSome).flatMap cell.bitsOf =
      cell.ports.filter fun id => (cell.parsed brktLeft brktRight id).isSome := by
    have each : ∀ id ∈ cell.ports.filter (fun id => (cell.parsed brktLeft brktRight id).isSome),
      cell.bitsOf id = [id] := by
      intro id mem
      obtain ⟨inside, parse⟩ := List.mem_filter.1 mem
      obtain ⟨port, here, scalar⟩ := groupable.scalar id inside parse
      rw [bitsOf,slotsOf,here]
      simp only [scalar,Bool.false_eq_true,if_false]
      rfl
    rw [List.flatMap_congr each]
    exact List.flatMap_singleton' _
  have whole : ((cell.ports.filter fun id => (cell.parsed brktLeft brktRight id).isNone).flatMap cell.bitsOf ++
    new).Perm bits := by
    have split := List.filter_append_perm (fun id => (cell.parsed brktLeft brktRight id).isNone) cell.ports
    have others : (cell.ports.filter fun id => !(cell.parsed brktLeft brktRight id).isNone) =
        cell.ports.filter fun id => (cell.parsed brktLeft brktRight id).isSome := by
      apply List.filter_congr
      intro id _
      cases cell.parsed brktLeft brktRight id <;> rfl
    rw [others] at split
    have flat := split.flatMap_right cell.bitsOf
    rw [List.flatMap_append,scalars,numbered.bits_eq] at flat
    exact ((perm.trans taken).append_left _).trans flat
  refine ⟨_, listing, fun id => ?_, ?_⟩
  · rw [whole.mem_iff,numbered.all,same.bit]
  · rw [same.count]
    refine (whole.map _).trans (List.Perm.trans (List.Perm.of_eq ?_) numbered.indices)
    apply List.map_congr_left
    intro id mem
    exact same.index id ((numbered.all id).1 mem)

/-- The calls after which the bits are still met and numbered. -/
def Fit (cell : ConcreteCell) : Call → Prop
  | .makePort _ => True
  | .makeBusPort _ _ _ => False
  | .groupBusPorts brktLeft brktRight _ => cell.Groupable brktLeft brktRight

theorem Numbered.step (numbered : cell.Numbered bits) {call : Call} (fit : cell.Fit call) :
    ∃ bits', (cell.step call).Numbered bits' := by
  cases call with
  | makePort name => exact ⟨_, numbered.makePort name⟩
  | makeBusPort name fromIndex toIndex => cases fit
  | groupBusPorts brktLeft brktRight portMsbFirst => exact numbered.groupBusPorts fit portMsbFirst

def AllFit (cell : ConcreteCell) : List Call → Prop
  | [] => True
  | call :: calls => cell.Fit call ∧ (cell.step call).AllFit calls

theorem AllFit.front {front back : List Call} (fit : cell.AllFit (front ++ back)) : cell.AllFit front := by
  induction front generalizing cell with
  | nil => trivial
  | cons call front ih => exact ⟨fit.1, ih fit.2⟩

theorem Numbered.run {calls : List Call} (numbered : cell.Numbered bits) (fit : cell.AllFit calls) :
    ∃ bits', (cell.run calls).Numbered bits' := by
  induction calls generalizing cell bits with
  | nil => exact ⟨bits, numbered⟩
  | cons call calls ih =>
    obtain ⟨bits', numbered'⟩ := numbered.step fit.1
    exact ih numbered' fit.2

/-- Every bit has its own slot in every state of a run whose calls fit. -/
theorem run_exact (busBrktLeft busBrktRight : Char) (calls : List Call)
    (fit : (empty busBrktLeft busBrktRight).AllFit calls) (front back : List Call) (reached : calls = front ++ back) :
    ∃ bits, Exact ((empty busBrktLeft busBrktRight).run front) bits := by
  subst reached
  obtain ⟨bits, numbered⟩ := (Numbered.empty busBrktLeft busBrktRight).run fit.front
  exact ⟨bits, Numbered.exact numbered⟩

def twoBits : List Call := [.makePort "a[0]".toList, .makePort "a[1]".toList]

theorem twoBits_groupable : ((empty '[' ']').run twoBits).Groupable '[' ']' := by
  have zero : ((empty '[' ']').run twoBits).parsed '[' ']' 0 = some ("a".toList, 0) := by decide +kernel
  have one : ((empty '[' ']').run twoBits).parsed '[' ']' 1 = some ("a".toList, 1) := by decide +kernel
  have ports : ((empty '[' ']').run twoBits).ports = [0, 1] := rfl
  constructor
  case scalar =>
    rw [ports]
    intro id mem _
    rcases List.mem_pair.1 mem with rfl | rfl <;> exact ⟨_, rfl, rfl⟩
  case once =>
    rw [ports]
    intro id mem id' mem' _ same
    rcases List.mem_pair.1 mem with rfl | rfl <;> rcases List.mem_pair.1 mem' with rfl | rfl <;> simp_all
  case dense =>
    rw [ports]
    intro name id mem id' mem' low high atLow atHigh index lower upper
    have both : name = "a".toList ∧ 0 ≤ low ∧ high ≤ 1 := by
      rcases List.mem_pair.1 mem with rfl | rfl <;> rcases List.mem_pair.1 mem' with rfl | rfl <;> simp_all
    obtain ⟨rfl, bottom, top⟩ := both
    have index : index = 0 ∨ index = 1 := by omega
    rcases index with rfl | rfl
    · exact ⟨0, by simp, zero⟩
    · exact ⟨1, by simp, one⟩

theorem run_exact_grouped :
    ∃ bits, Exact ((empty '[' ']').run (twoBits ++ [.groupBusPorts '[' ']' fun _ => true, .makePort "b".toList]))
    bits := by
  refine run_exact '[' ']' (twoBits ++ [.groupBusPorts '[' ']' fun _ => true, .makePort "b".toList]) ?_ _ []
    (List.append_nil _).symm
  exact And.intro trivial (And.intro trivial (And.intro twoBits_groupable (And.intro trivial trivial)))

/-- The bits of a bus are numbered twice. -/
theorem run_inexact : ¬∃ bits, Exact ((empty '[' ']').run [.makeBusPort "a".toList 0 0]) bits := by
  rintro ⟨bits, exact⟩
  obtain ⟨fuel, yields⟩ := exact.yields
  have only : bits = [1] := by
    rcases fuel with _ | _ | fuel
    · cases yields
    · cases yields
    · exact (Option.some.inj yields).symm
  subst only
  obtain ⟨bit, mem, index⟩ := exact.onto.surjOn (show (0 : ℤ) ∈ _ from ⟨le_refl 0, by decide +kernel⟩)
  rw [List.mem_singleton.1 mem] at index
  revert index
  decide +kernel

end ConcreteCell
end Groups

end GTPower.CellPorts
