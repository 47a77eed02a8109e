import GTPower.SdcExceptions
import Mathlib.Algebra.BigOperators.Group.Finset.Piecewise

/-! Hashes of exception points. They are kept up to date object by object. An object that is added is looked up first,
an object that is deleted is not, so deleting one that is not there takes it out of the hash all the same. -/
namespace GTPower.PointHashes

section Source

inductive PtClass where
  | exceptionFrom
  | exceptionThru
  | exceptionTo
  deriving DecidableEq, Repr

/-- A set with a key, made with its first key. -/
def insertKey (id : Nat) (set : Option (Finset Nat)) : Option (Finset Nat) := some (insert id (setKeys set))

/-- Only a new key is added to the hash. -/
def insertedHash (factor : UInt64) (id : Nat) (set : Option (Finset Nat)) : UInt64 :=
  if id ∈ setKeys set then 0 else UInt64.ofNat id * factor

def eraseKey (id : Nat) (set : Option (Finset Nat)) : Option (Finset Nat) := set.map fun keys => keys.erase id

/-- A key is taken from the hash when there is a set, whether it has the key or not. -/
def erasedHash (factor : UInt64) (id : Nat) (set : Option (Finset Nat)) : UInt64 :=
  (set.map fun _ => UInt64.ofNat id * factor).getD 0

variable (pt : ExceptionPt)

def addPin (id : Nat) : ExceptionPt :=
  { pt with pins := insertKey id pt.pins, hash := pt.hash + insertedHash hashPin id pt.pins }

def addClock (index : Nat) : ExceptionPt :=
  { pt with clks := insertKey index pt.clks, hash := pt.hash + insertedHash hashClk index pt.clks }

def addNet (id : Nat) : ExceptionPt :=
  { pt with nets := insertKey id pt.nets, hash := pt.hash + insertedHash hashNet id pt.nets }

def addInstance (id : Nat) : ExceptionPt :=
  { pt with insts := insertKey id pt.insts, hash := pt.hash + insertedHash hashInst id pt.insts }

/-- Edges are derived from the other sets and have no part in the hash. -/
def addEdge (edge : EdgePins) : ExceptionPt := { pt with edges := insert edge pt.edges }

def deletePin (id : Nat) : ExceptionPt :=
  { pt with pins := eraseKey id pt.pins, hash := pt.hash - erasedHash hashPin id pt.pins }

def deleteNet (id : Nat) : ExceptionPt :=
  { pt with nets := eraseKey id pt.nets, hash := pt.hash - erasedHash hashNet id pt.nets }

def deleteInstance (id : Nat) : ExceptionPt :=
  { pt with insts := eraseKey id pt.insts, hash := pt.hash - erasedHash hashInst id pt.insts }

def deleteEdge (edge : EdgePins) : ExceptionPt := { pt with edges := pt.edges.erase edge }

/-- The overloads of a class: through points have no clocks, the others have no nets. -/
def add (cls : PtClass) : SdcObject → ExceptionPt
  | .pin id => addPin pt id
  | .clk index => if cls = .exceptionThru then pt else addClock pt index
  | .net id => if cls = .exceptionThru then addNet pt id else pt
  | .inst id => addInstance pt id

/-- `none` where the class has no such function. -/
def delete (cls : PtClass) : SdcObject → Option ExceptionPt
  | .pin id => some (deletePin pt id)
  | .clk index => if cls = .exceptionThru then none else some (pt.deleteClock index)
  | .net id => if cls = .exceptionThru then some (deleteNet pt id) else none
  | .inst id => some (deleteInstance pt id)

/-- The hash from scratch. The constructor of the common base of -from and -to calls its own version, which leaves out
the transition. -/
def findHash (cls : PtClass) : UInt64 :=
  if cls = .exceptionThru then
    setHash hashPin pt.pins + setHash hashNet pt.nets + setHash hashInst pt.insts + pt.rf.index * 13
  else setHash hashPin pt.pins + setHash hashClk pt.clks + setHash hashInst pt.insts

end Source

section Calls

abbrev Points := Nat → Option (PtClass × ExceptionPt)

inductive PointCall where
  | makeFrom (address : Nat) (pins clks insts : Option (Finset Nat)) (rf : RiseFallBoth)
  | makeTo (address : Nat) (pins clks insts : Option (Finset Nat)) (rf : RiseFallBoth)
  | makeThru (address : Nat) (pins nets insts : Option (Finset Nat)) (rf : RiseFallBoth)
  | add (address : Nat) (object : SdcObject)
  | addEdge (address : Nat) (edge : EdgePins)
  | delete (address : Nat) (object : SdcObject)
  | deleteEdge (address : Nat) (edge : EdgePins)
  | deleteObjects (address other : Nat)
  | mergeInto (address other : Nat)

/-- `none` for a missing point, points of different classes and a function the class does not have. -/
def call (edges : ThruEdges) (points : Points) : PointCall → Option Points
  | .makeFrom address pins clks insts rf =>
    some (Function.update points address (some (.exceptionFrom, makeExceptionFromTo pins clks insts rf)))
  | .makeTo address pins clks insts rf =>
    some (Function.update points address (some (.exceptionTo, makeExceptionFromTo pins clks insts rf)))
  | .makeThru address pins nets insts rf =>
    some (Function.update points address (some (.exceptionThru, makeExceptionThru edges pins nets insts rf)))
  | .add address object => do
    let (cls, pt) ← points address
    return Function.update points address (some (cls, add pt cls object))
  | .addEdge address edge => do
    let (cls, pt) ← points address
    return Function.update points address (some (cls, if cls = .exceptionThru then addEdge pt edge else pt))
  | .delete address object => do
    let (cls, pt) ← points address
    let pt ← delete pt cls object
    return Function.update points address (some (cls, pt))
  | .deleteEdge address edge => do
    let (cls, pt) ← points address
    if cls = .exceptionThru then return Function.update points address (some (cls, deleteEdge pt edge)) else none
  | .deleteObjects address other => do
    let (cls, pt) ← points address
    let (cls2, pt2) ← points other
    if cls = cls2 ∧ address ≠ other then return Function.update points address (some (cls, pt.deleteObjects pt2))
    else none
  | .mergeInto address other => do
    let (cls, pt) ← points address
    let (cls2, pt2) ← points other
    -- The edges go over to the other point.
    if cls = cls2 ∧ address ≠ other then
      return Function.update (Function.update points address (some (cls, { pt with edges := ∅ }))) other
        (some (cls2, pt.mergeInto pt2))
    else none

/-- States of the points after calls that are allowed where they are made. -/
inductive Reached (edges : ThruEdges) (allowed : Points → PointCall → Prop) : Points → Prop where
  | init : Reached edges allowed fun _ => none
  | step (before : Reached edges allowed points) (may : allowed points made) (after : call edges points made =
    some points') :
    Reached edges allowed points'

/-- The set is missing, or the keys are among its own, up to a key that adds nothing to a hash. -/
def KeysPresent (keys : Finset Nat) (set : Option (Finset Nat)) : Prop :=
  ∀ own, set = some own → ∀ id ∈ keys, id = 0 ∨ id ∈ own

/-- The object is one of the point, or the point has no set of its kind. -/
def ObjectPresent (pt : ExceptionPt) : SdcObject → Prop
  | .pin id => KeysPresent {id} pt.pins
  | .clk index => KeysPresent {index} pt.clks
  | .net id => KeysPresent {id} pt.nets
  | .inst id => KeysPresent {id} pt.insts

/-- Objects that are deleted, one by one or all those of another point, are there. -/
def DeletesPresent (points : Points) : PointCall → Prop
  | .delete address object => ∀ cls pt, points address = some (cls, pt) → ObjectPresent pt object
  | .deleteObjects address other => ∀ cls pt cls2 pt2, points address = some (cls, pt) →
    points other = some (cls2, pt2) →
    KeysPresent (setKeys pt2.pins) pt.pins ∧ KeysPresent (setKeys pt2.clks) pt.clks ∧
      KeysPresent (setKeys pt2.nets) pt.nets ∧ KeysPresent (setKeys pt2.insts) pt.insts
  | _ => True

end Calls

section Keys
variable {set keys : Option (Finset Nat)} {factor : UInt64} {id : Nat} {own : Finset Nat}

theorem ofNat_sum_insert (fresh : id ∉ own) : UInt64.ofNat (∑ k ∈ insert id own, k) =
    UInt64.ofNat (∑ k ∈ own, k) + UInt64.ofNat id := by
  rw [Finset.sum_insert fresh,Nat.add_comm,UInt64.ofNat_add]

theorem setHash_insertKey (factor : UInt64) (id : Nat) (set : Option (Finset Nat)) :
    setHash factor (insertKey id set) = setHash factor set + insertedHash factor id set := by
  rw [setHash,insertKey,insertedHash]
  change UInt64.ofNat (∑ k ∈ insert id (setKeys set), k) * factor = _
  by_cases old : id ∈ setKeys set
  · rw [Finset.insert_eq_of_mem old,if_pos old,setHash,UInt64.add_zero]
  · rw [ofNat_sum_insert old,if_neg old,setHash,UInt64.add_mul]

theorem setHash_addKeys (factor : UInt64) (keys into : Option (Finset Nat)) :
    setHash factor (addKeys keys into) = setHash factor into + addedHash factor keys into := by
  have union : setKeys keys ∪ setKeys into = setKeys into ∪ setKeys keys \ setKeys into := by
    rw [Finset.union_sdiff_self_eq_union,Finset.union_comm]
  rw [setHash,setKeys_addKeys,union,Finset.sum_union Finset.disjoint_sdiff,UInt64.ofNat_add,UInt64.add_mul]
  rfl

theorem sum_sdiff_present {keys own : Finset Nat} (present : ∀ id ∈ keys, id = 0 ∨ id ∈ own) :
    ∑ id ∈ own \ keys, id + ∑ id ∈ keys, id = ∑ id ∈ own, id := by
  have there : ∑ id ∈ keys, id = ∑ id ∈ own ∩ keys, id := by
    apply (Finset.sum_subset Finset.inter_subset_right _).symm
    intro id mem absent
    rcases present id mem with zero | old
    · exact zero
    · exact absurd (Finset.mem_inter.mpr ⟨old, mem⟩) absent
  rw [there,Nat.add_comm]
  exact Finset.sum_inter_add_sum_sdiff own keys fun id => id

theorem setHash_deleteKeys (present : KeysPresent (setKeys keys) set) (factor : UInt64) :
    setHash factor (deleteKeys keys set) = setHash factor set - deletedHash factor keys set := by
  cases set with
  | none =>
    cases keys with
    | none => exact (UInt64.sub_zero _).symm
    | some keys => exact (UInt64.sub_zero _).symm
  | some own =>
    cases keys with
    | none => exact (UInt64.sub_zero _).symm
    | some keys =>
      have total := congrArg UInt64.ofNat (sum_sdiff_present (present own rfl))
      rw [UInt64.ofNat_add] at total
      have split : setHash factor (some own) = (UInt64.ofNat (∑ id ∈ own \ keys, id) + UInt64.ofNat (∑ id ∈ keys, id)) *
        factor :=
        congrArg (· * factor) total.symm
      rw [split,UInt64.add_mul]
      exact (UInt64.add_sub_cancel _ _).symm

theorem setHash_eraseKey (present : KeysPresent {id} set) (factor : UInt64) :
    setHash factor (eraseKey id set) = setHash factor set - erasedHash factor id set := by
  have single : setHash factor (deleteKeys (some {id}) set) = setHash factor set - deletedHash factor (some {id}) set :=
    setHash_deleteKeys (show KeysPresent (setKeys (some {id})) set from present) factor
  cases set with
  | none => exact single
  | some own =>
    have erased : deleteKeys (some {id}) (some own) = eraseKey id (some own) :=
      congrArg some (Finset.sdiff_singleton_eq_erase id own)
    have one : deletedHash factor (some {id}) (some own) = erasedHash factor id (some own) := by
      change UInt64.ofNat (∑ k ∈ ({id} : Finset Nat), k) * factor = _
      rw [Finset.sum_singleton]
      rfl
    rw [← erased,single,one]

end Keys

section Points
variable {cls : PtClass} {pt pt2 : ExceptionPt}

/-- A point without the sets its class does not have, with the hash of the others. -/
structure Hashed (cls : PtClass) (pt : ExceptionPt) : Prop where
  clks : cls = .exceptionThru → pt.clks = none
  nets : cls ≠ .exceptionThru → pt.nets = none
  hash : pt.hash = findHash pt cls

/-- The hash of all sets without the transition. -/
def allHash (pt : ExceptionPt) : UInt64 :=
  setHash hashPin pt.pins + setHash hashClk pt.clks + setHash hashNet pt.nets + setHash hashInst pt.insts

theorem findHash_eq (clks : cls = .exceptionThru → pt.clks = none) (nets : cls ≠ .exceptionThru → pt.nets = none) :
    findHash pt cls = allHash pt + if cls = .exceptionThru then pt.rf.index * 13 else 0 := by
  have empty : ∀ factor, setHash factor none = 0 := fun factor => UInt64.zero_mul
  rw [findHash,allHash]
  by_cases thru : cls = .exceptionThru
  · rw [if_pos thru,if_pos thru,clks thru,empty,UInt64.add_zero]
  · rw [if_neg thru,if_neg thru,nets thru,empty,UInt64.add_zero,UInt64.add_zero]

theorem Hashed.moved (hashed : Hashed cls pt) (clks : cls = .exceptionThru → pt2.clks = none)
    (nets : cls ≠ .exceptionThru → pt2.nets = none) (rf : pt2.rf = pt.rf)
    (moves : pt2.hash + allHash pt = pt.hash + allHash pt2) : Hashed cls pt2 := by
  have total := hashed.hash.trans (findHash_eq hashed.clks hashed.nets)
  refine ⟨clks, nets, ?_⟩
  rw [findHash_eq clks nets,rf]
  grind

theorem findHash_equal (cls : PtClass) (same : pt.equal pt2) : findHash pt cls = findHash pt2 cls := by
  simp only [ExceptionPt.equal,Bool.and_eq_true,decide_eq_true_eq] at same
  obtain ⟨⟨⟨⟨pins, clks⟩, nets⟩, insts⟩, rf⟩ := same
  simp only [findHash,setHash,pins,clks,nets,insts,rf]

theorem Hashed.equal (hashed : Hashed cls pt) (hashed2 : Hashed cls pt2) (same : pt.equal pt2) :
    pt.hash = pt2.hash := by
  rw [hashed.hash,hashed2.hash,findHash_equal cls same]

theorem setKeys_nonemptySet (set : Option (Finset Nat)) : setKeys (nonemptySet set) = setKeys set := by
  unfold nonemptySet
  split
  case isTrue empty => rw [empty]; rfl
  case isFalse => rfl

theorem setHash_nonemptySet (factor : UInt64) (set : Option (Finset Nat)) :
    setHash factor (nonemptySet set) = setHash factor set := by
  rw [setHash,setKeys_nonemptySet,setHash]

theorem hashed_makeFromTo (cls : PtClass) (fromTo : cls ≠ .exceptionThru) (pins clks insts : Option (Finset Nat))
    (rf : RiseFallBoth) :
    Hashed cls (makeExceptionFromTo pins clks insts rf) where
  clks thru := absurd thru fromTo
  nets _ := rfl
  hash := by
    rw [findHash,if_neg fromTo]
    simp only [makeExceptionFromTo,setHash_nonemptySet]

theorem hashed_makeThru (edges : ThruEdges) (pins nets insts : Option (Finset Nat)) (rf : RiseFallBoth) :
    Hashed .exceptionThru (makeExceptionThru edges pins nets insts rf) where
  clks _ := rfl
  nets fromTo := absurd rfl fromTo
  hash := by
    rw [findHash,if_pos rfl]
    simp only [makeExceptionThru,setHash_nonemptySet]

theorem Hashed.withEdges (hashed : Hashed cls pt) (edges : Finset EdgePins) : Hashed cls { pt with edges := edges } :=
  ⟨hashed.clks, hashed.nets, hashed.hash⟩

theorem Hashed.add (hashed : Hashed cls pt) (object : SdcObject) : Hashed cls (add pt cls object) := by
  cases object with
  | pin id =>
    refine hashed.moved hashed.clks hashed.nets rfl ?_
    simp only [PointHashes.add,addPin,allHash,setHash_insertKey]
    grind
  | clk index =>
    simp only [PointHashes.add]
    split
    case isTrue => exact hashed
    case isFalse fromTo =>
      refine hashed.moved (fun thru => absurd thru fromTo) hashed.nets rfl ?_
      simp only [addClock,allHash,setHash_insertKey]
      grind
  | net id =>
    simp only [PointHashes.add]
    split
    case isTrue thru =>
      refine hashed.moved hashed.clks (fun fromTo => absurd thru fromTo) rfl ?_
      simp only [addNet,allHash,setHash_insertKey]
      grind
    case isFalse => exact hashed
  | inst id =>
    refine hashed.moved hashed.clks hashed.nets rfl ?_
    simp only [PointHashes.add,addInstance,allHash,setHash_insertKey]
    grind

theorem Hashed.delete (hashed : Hashed cls pt) (object : SdcObject) (present : ObjectPresent pt object)
    (deleted : delete pt cls object = some pt2) : Hashed cls pt2 := by
  cases object with
  | pin id =>
    obtain rfl := Option.some.inj deleted
    refine hashed.moved hashed.clks hashed.nets rfl ?_
    simp only [deletePin,allHash,setHash_eraseKey present]
    grind
  | clk index =>
    simp only [PointHashes.delete] at deleted
    split at deleted
    case isTrue => cases deleted
    case isFalse fromTo =>
      obtain rfl := Option.some.inj deleted
      refine hashed.moved (fun thru => absurd thru fromTo) hashed.nets rfl ?_
      have erased : setHash hashClk (pt.deleteClock index).clks = _ := setHash_eraseKey present hashClk
      have less : (pt.deleteClock index).hash = pt.hash - erasedHash hashClk index pt.clks := rfl
      rw [less,allHash,allHash,erased]
      simp only [ExceptionPt.deleteClock]
      grind
  | net id =>
    simp only [PointHashes.delete] at deleted
    split at deleted
    case isTrue thru =>
      obtain rfl := Option.some.inj deleted
      refine hashed.moved hashed.clks (fun fromTo => absurd thru fromTo) rfl ?_
      simp only [deleteNet,allHash,setHash_eraseKey present]
      grind
    case isFalse => cases deleted
  | inst id =>
    obtain rfl := Option.some.inj deleted
    refine hashed.moved hashed.clks hashed.nets rfl ?_
    simp only [deleteInstance,allHash,setHash_eraseKey present]
    grind

theorem addKeys_none (keys : Option (Finset Nat)) (empty : keys = none) : addKeys keys none = none := by
  rw [empty]
  rfl

theorem Hashed.mergeInto (hashed : Hashed cls pt) (hashed2 : Hashed cls pt2) : Hashed cls (pt.mergeInto pt2) := by
  have clks : cls = .exceptionThru → (pt.mergeInto pt2).clks = none := by
    intro thru
    simp only [ExceptionPt.mergeInto,hashed2.clks thru]
    exact addKeys_none _ (hashed.clks thru)
  have nets : cls ≠ .exceptionThru → (pt.mergeInto pt2).nets = none := by
    intro fromTo
    simp only [ExceptionPt.mergeInto,hashed2.nets fromTo]
    exact addKeys_none _ (hashed.nets fromTo)
  refine hashed2.moved clks nets rfl ?_
  simp only [ExceptionPt.mergeInto,allHash,setHash_addKeys]
  grind

theorem deleteKeys_none (keys : Option (Finset Nat)) : deleteKeys keys none = none := by
  cases keys <;> rfl

theorem Hashed.deleteObjects (hashed : Hashed cls pt) (pins : KeysPresent (setKeys pt2.pins) pt.pins)
    (clks : KeysPresent (setKeys pt2.clks) pt.clks) (nets : KeysPresent (setKeys pt2.nets) pt.nets)
    (insts : KeysPresent (setKeys pt2.insts) pt.insts) : Hashed cls (pt.deleteObjects pt2) := by
  have noClks : cls = .exceptionThru → (pt.deleteObjects pt2).clks = none := by
    intro thru
    simp only [ExceptionPt.deleteObjects,hashed.clks thru,deleteKeys_none]
  have noNets : cls ≠ .exceptionThru → (pt.deleteObjects pt2).nets = none := by
    intro fromTo
    simp only [ExceptionPt.deleteObjects,hashed.nets fromTo,deleteKeys_none]
  refine hashed.moved noClks noNets rfl ?_
  simp only [ExceptionPt.deleteObjects,allHash,setHash_deleteKeys pins,setHash_deleteKeys clks,setHash_deleteKeys nets,
    setHash_deleteKeys insts]
  grind

end Points

section Exact
variable {cls : PtClass} {pt pt2 : ExceptionPt} {set : Option (Finset Nat)} {factor : UInt64} {id : Nat}

theorem Hashed.moves (hashed : Hashed cls pt) (hashed2 : Hashed cls pt2) (rf : pt2.rf = pt.rf) :
    pt2.hash + allHash pt = pt.hash + allHash pt2 := by
  rw [hashed.hash,hashed2.hash,findHash_eq hashed.clks hashed.nets,findHash_eq hashed2.clks hashed2.nets,rf]
  grind

/-- An id of 32 bits other than zero never disappears in its product with the factor of a kind. -/
theorem ofNat_mul_ne_zero (positive : 0 < factor.toNat) (odd : factor.toNat < 2 ^ 32) (small : id < 2 ^ 32)
    (some : id ≠ 0) :
    UInt64.ofNat id * factor ≠ 0 := by
  intro zero
  have value := congrArg UInt64.toNat zero
  have less : id * factor.toNat < 2 ^ 32 * 2 ^ 32 := Nat.mul_lt_mul'' small odd
  have own : (UInt64.ofNat id).toNat = id := UInt64.toNat_ofNat_of_lt (Nat.lt_trans small (by decide))
  rw [UInt64.toNat_mul,own,Nat.mod_eq_of_lt (by omega)] at value
  exact Nat.mul_ne_zero some (Nat.ne_of_gt positive) value

/-- Deleting a key keeps a hash with its set only when the key is there. -/
theorem keysPresent_of_eraseKey (factor : UInt64) (positive : 0 < factor.toNat) (odd : factor.toNat < 2 ^ 32)
    (small : id < 2 ^ 32) (kept : setHash factor (eraseKey id set) = setHash factor set - erasedHash factor id set) :
    KeysPresent {id} set := by
  rintro own rfl other mem
  rw [Finset.mem_singleton.mp mem]
  by_contra absent
  obtain ⟨some, absent⟩ := not_or.mp absent
  apply ofNat_mul_ne_zero positive odd small some
  have same : eraseKey id (Option.some own) = Option.some own := congrArg Option.some (Finset.erase_eq_of_notMem absent)
  have taken : erasedHash factor id (Option.some own) = UInt64.ofNat id * factor := rfl
  rw [same,taken] at kept
  grind

def key : SdcObject → Nat
  | .pin id => id
  | .clk index => index
  | .net id => id
  | .inst id => id

/-- One deletion keeps the hash that of the sets exactly when the object is there. -/
theorem delete_hashed_iff (hashed : Hashed cls pt) (object : SdcObject) (small : key object < 2 ^ 32)
    (deleted : delete pt cls object = some pt2) : Hashed cls pt2 ↔ ObjectPresent pt object := by
  refine ⟨fun hashed2 => ?_, fun present => hashed.delete object present deleted⟩
  cases object with
  | pin id =>
    obtain rfl := Option.some.inj deleted
    have moves := hashed.moves hashed2 rfl
    simp only [deletePin,allHash] at moves
    exact keysPresent_of_eraseKey hashPin (by decide) (by decide) small (by grind)
  | clk index =>
    simp only [PointHashes.delete] at deleted
    split at deleted
    case isTrue => cases deleted
    case isFalse =>
      obtain rfl := Option.some.inj deleted
      have moves := hashed.moves hashed2 rfl
      have less : (pt.deleteClock index).hash = pt.hash - erasedHash hashClk index pt.clks := rfl
      have erased : (pt.deleteClock index).clks = eraseKey index pt.clks := rfl
      rw [less,allHash,allHash,erased] at moves
      simp only [ExceptionPt.deleteClock] at moves
      exact keysPresent_of_eraseKey hashClk (by decide) (by decide) small (by grind)
  | net id =>
    simp only [PointHashes.delete] at deleted
    split at deleted
    case isTrue =>
      obtain rfl := Option.some.inj deleted
      have moves := hashed.moves hashed2 rfl
      simp only [deleteNet,allHash] at moves
      exact keysPresent_of_eraseKey hashNet (by decide) (by decide) small (by grind)
    case isFalse => cases deleted
  | inst id =>
    obtain rfl := Option.some.inj deleted
    have moves := hashed.moves hashed2 rfl
    simp only [deleteInstance,allHash] at moves
    exact keysPresent_of_eraseKey hashInst (by decide) (by decide) small (by grind)

end Exact

section Runs
variable {edges : ThruEdges} {points points' points2 : Points} {cls : PtClass} {pt pt2 : ExceptionPt}

def AllHashed (points : Points) : Prop := ∀ address cls pt, points address = some (cls, pt) → Hashed cls pt

theorem AllHashed.update (all : AllHashed points) (hashed : Hashed cls pt) (address : Nat) :
    AllHashed (Function.update points address (some (cls, pt))) := by
  intro other cls' pt' found
  by_cases here : other = address
  · rw [here,Function.update_self] at found
    obtain ⟨rfl, rfl⟩ := Prod.mk.inj (Option.some.inj found)
    exact hashed
  · rw [Function.update_of_ne here] at found
    exact all other cls' pt' found

theorem call_hashed (all : AllHashed points) (made : PointCall) (present : DeletesPresent points made)
    (after : call edges points made = some points') : AllHashed points' := by
  cases made with
  | makeFrom address pins clks insts rf =>
    obtain rfl := Option.some.inj after
    exact all.update (hashed_makeFromTo _ (by decide) _ _ _ _) _
  | makeTo address pins clks insts rf =>
    obtain rfl := Option.some.inj after
    exact all.update (hashed_makeFromTo _ (by decide) _ _ _ _) _
  | makeThru address pins nets insts rf =>
    obtain rfl := Option.some.inj after
    exact all.update (hashed_makeThru _ _ _ _ _) _
  | add address object =>
    obtain ⟨⟨cls, pt⟩, found, after⟩ := Option.bind_eq_some_iff.mp after
    obtain rfl := Option.some.inj after
    exact all.update ((all _ _ _ found).add object) _
  | addEdge address edge =>
    obtain ⟨⟨cls, pt⟩, found, after⟩ := Option.bind_eq_some_iff.mp after
    obtain rfl := Option.some.inj after
    apply all.update
    split
    case isTrue => exact (all _ _ _ found).withEdges _
    case isFalse => exact all _ _ _ found
  | delete address object =>
    obtain ⟨⟨cls, pt⟩, found, after⟩ := Option.bind_eq_some_iff.mp after
    obtain ⟨pt', deleted, after⟩ := Option.bind_eq_some_iff.mp after
    obtain rfl := Option.some.inj after
    exact all.update ((all _ _ _ found).delete object (present _ _ found) deleted) _
  | deleteEdge address edge =>
    obtain ⟨⟨cls, pt⟩, found, after⟩ := Option.bind_eq_some_iff.mp after
    dsimp only at after
    split at after
    case isTrue =>
      obtain rfl := Option.some.inj after
      exact all.update ((all _ _ _ found).withEdges _) _
    case isFalse => cases after
  | deleteObjects address other =>
    obtain ⟨⟨cls, pt⟩, found, after⟩ := Option.bind_eq_some_iff.mp after
    obtain ⟨⟨cls2, pt2⟩, found2, after⟩ := Option.bind_eq_some_iff.mp after
    dsimp only at after
    split at after
    case isTrue =>
      obtain rfl := Option.some.inj after
      obtain ⟨pins, clks, nets, insts⟩ := present _ _ _ _ found found2
      exact all.update ((all _ _ _ found).deleteObjects pins clks nets insts) _
    case isFalse => cases after
  | mergeInto address other =>
    obtain ⟨⟨cls, pt⟩, found, after⟩ := Option.bind_eq_some_iff.mp after
    obtain ⟨⟨cls2, pt2⟩, found2, after⟩ := Option.bind_eq_some_iff.mp after
    dsimp only at after
    split at after
    case isTrue same =>
      obtain rfl := Option.some.inj after
      obtain ⟨rfl, -⟩ := same
      exact (all.update ((all _ _ _ found).withEdges _) _).update ((all _ _ _ found).mergeInto (all _ _ _ found2)) _
    case isFalse => cases after

theorem reached_hashed (reached : Reached edges DeletesPresent points) : AllHashed points := by
  induction reached with
  | init => exact fun _ _ _ none => by cases none
  | step _ present after all => exact call_hashed all _ present after

/-- Exceptions of one kind are filed under one hash without a point when their other points are equal. -/
theorem pathHash_eq {exception exception2 : ExceptionPath} (missing : PtPos)
    (positions : exception.positions = exception2.positions)
    (type : exception.type.typePriority = exception2.type.typePriority)
    (equal : ∀ pos ∈ exception.positions, pos ≠ missing → ∃ cls pt pt2, exception.pt? pos = some pt ∧
      exception2.pt? pos = some pt2 ∧ Hashed cls pt ∧ Hashed cls pt2 ∧ pt.equal pt2) :
    exception.hash missing = exception2.hash missing := by
  rw [ExceptionPath.hash,ExceptionPath.hash,type,positions]
  apply List.foldl_ext
  intro hash place mem
  obtain ⟨inside, other⟩ := List.mem_filter.mp mem
  obtain ⟨cls, pt, pt2, here, here2, hashed, hashed2, same⟩ := equal place.1
    (positions ▸ List.fst_mem_of_mem_zipIdx inside) (of_decide_eq_true other)
  rw [here,here2,Option.map_some,Option.map_some,hashed.equal hashed2 same]

/-- While only objects are deleted that are there, equal points of a class have equal hashes, whatever was done to
either. -/
theorem hash_of_equal (reached : Reached edges DeletesPresent points) (reached2 : Reached edges DeletesPresent points2)
    (found : points address = some (cls, pt)) (found2 : points2 address2 = some (cls, pt2)) (same : pt.equal pt2) :
    pt.hash = pt2.hash :=
  (reached_hashed reached _ _ _ found).equal (reached_hashed reached2 _ _ _ found2) same

def noEdges : ThruEdges := ⟨fun _ => ∅, fun _ => ∅, fun _ => ∅⟩

def pinPair (first second : Nat) : ExceptionPt := makeExceptionFromTo (some {first, second}) none none .riseFall

def onePin : ExceptionPt := makeExceptionFromTo (some {1}) none none .riseFall

def pairPoints : Points := Function.update (fun _ => none) 0 (some (.exceptionFrom, pinPair 1 2))

def pinPoints : Points := Function.update (fun _ => none) 0 (some (.exceptionFrom, onePin))

theorem reached_pairPoints (may : allowed (fun _ => none) (.makeFrom 0 (some {1, 2}) none none .riseFall)) :
    Reached noEdges allowed pairPoints := Reached.step Reached.init may rfl

theorem reached_pinPoints (may : allowed (fun _ => none) (.makeFrom 0 (some {1}) none none .riseFall)) :
    Reached noEdges allowed pinPoints := Reached.step Reached.init may rfl

/-- A pin of two is deleted, and a point is made with the other. -/
theorem hash_of_equal_deletedPin : (deletePin (pinPair 1 2) 2).hash = onePin.hash := by
  have present : DeletesPresent pairPoints (.delete 0 (.pin 2)) := by
    rintro cls pt found
    obtain ⟨-, rfl⟩ := Prod.mk.inj
      (Option.some.inj (show some (PtClass.exceptionFrom, pinPair 1 2) = some (cls, pt) from found))
    rintro own same id mem
    obtain rfl := Option.some.inj (show some {1, 2} = some own from same)
    right
    rw [Finset.mem_singleton.mp mem]
    decide
  have deleted : Reached noEdges DeletesPresent
      (Function.update pairPoints 0 (some (.exceptionFrom, deletePin (pinPair 1 2) 2))) :=
    Reached.step (reached_pairPoints trivial) present rfl
  exact hash_of_equal deleted (reached_pinPoints trivial) (Function.update_self ..)
    (Function.update_self ..) (by decide)

/-- The objects of a second point are deleted from a first one. The pin they share goes, and the other pin of the second
is taken from the hash too. -/
theorem deleteObjects_drifts :
    ¬ ∀ (edges : ThruEdges) (points points2 : Points) (address address2 : Nat) (cls : PtClass)
    (pt pt2 : ExceptionPt), Reached edges (fun _ _ => True) points → Reached edges (fun _ _ => True) points2 →
    points address = some (cls, pt) → points2 address2 = some (cls, pt2) → pt.equal pt2 → pt.hash = pt2.hash := by
  intro claimed
  have second : Reached noEdges (fun _ _ => True) (Function.update pairPoints 1 (some (.exceptionFrom, pinPair 2 3))) :=
    Reached.step (reached_pairPoints trivial) trivial
      (rfl : call noEdges pairPoints (.makeFrom 1 (some {2, 3}) none none .riseFall) = _)
  have deleted : Reached noEdges (fun _ _ => True) (Function.update
      (Function.update pairPoints 1 (some (.exceptionFrom, pinPair 2 3))) 0
      (some (.exceptionFrom, (pinPair 1 2).deleteObjects (pinPair 2 3)))) :=
    Reached.step second trivial (rfl : call noEdges _ (.deleteObjects 0 1) = _)
  have same := claimed noEdges _ _ 0 0 .exceptionFrom _ onePin deleted (reached_pinPoints trivial)
    (Function.update_self ..)
    (Function.update_self ..) (by decide)
  revert same
  decide

end Runs
end GTPower.PointHashes
