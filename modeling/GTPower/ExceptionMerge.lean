import GTPower.Boxes
import GTPower.ExceptionPaths
import Mathlib.Data.Finset.Max

/-! Recording exceptions and merging those that differ in one point. -/
namespace GTPower

section Source

/-- Exceptions are kept at addresses, and sets of them go up the addresses. The maps from the pins, instances, clocks
and nets of the first points are one map from objects each. -/
structure Sdc where
  paths : Nat → Option ExceptionPath
  exceptions : Finset Nat
  exceptionId : Nat
  firstFrom : SdcObject → Finset Nat
  firstThru : SdcObject → Finset Nat
  firstThruEdge : EdgePins → Finset Nat
  firstTo : SdcObject → Finset Nat
  mergeHash : UInt32 → Finset Nat

def recordKeys {κ : Type} (keys : κ → Prop) [DecidablePred keys] (address : Nat) (map : κ → Finset Nat) : κ →
    Finset Nat :=
  fun key => if keys key then insert address (map key) else map key

def unrecordKeys {κ : Type} (keys : κ → Prop) [DecidablePred keys] (address : Nat) (map : κ → Finset Nat) : κ →
    Finset Nat :=
  fun key => if keys key then (map key).erase address else map key

/-- Hashes are cut to the keys of the map. -/
def ExceptionPath.mergeKeys (exception : ExceptionPath) : List UInt32 :=
  exception.positions.map fun missing => (exception.hash missing).toUInt32

/-- Nets are taken of all through points. -/
def recordThruKeys (thru : ExceptionPt) (thrus : List ExceptionPt) : SdcObject → Prop
  | .net id => ∃ pt ∈ thru :: thrus, pt.HasObject (.net id)
  | object => thru.HasObject object

instance (thru : ExceptionPt) (thrus : List ExceptionPt) : DecidablePred (recordThruKeys thru thrus) := fun
  | .net id => inferInstanceAs (Decidable (∃ pt ∈ thru :: thrus, pt.HasObject (.net id)))
  | .pin id => inferInstanceAs (Decidable (thru.HasObject (.pin id)))
  | .clk index => inferInstanceAs (Decidable (thru.HasObject (.clk index)))
  | .inst id => inferInstanceAs (Decidable (thru.HasObject (.inst id)))

namespace Sdc

def init : Sdc := ⟨fun _ => none, ∅, 0, fun _ => ∅, fun _ => ∅, fun _ => ∅, fun _ => ∅, fun _ => ∅⟩

def recordMergeHashes (st : Sdc) (address : Nat) (exception : ExceptionPath) : Sdc :=
  { st with mergeHash := recordKeys (· ∈ exception.mergeKeys) address st.mergeHash }

def unrecordMergeHashes (st : Sdc) (address : Nat) (exception : ExceptionPath) : Sdc :=
  { st with mergeHash := unrecordKeys (· ∈ exception.mergeKeys) address st.mergeHash }

def recordExceptionFirstPts (st : Sdc) (address : Nat) (exception : ExceptionPath) : Sdc :=
  match exception.fromPt, exception.thrus, exception.toPt with
  | some pt, _, _ => { st with firstFrom := recordKeys pt.HasObject address st.firstFrom }
  | none, thru :: thrus, _ => { st with
      firstThru := recordKeys (recordThruKeys thru thrus) address st.firstThru
      firstThruEdge := recordKeys (· ∈ thru.edges) address st.firstThruEdge }
  | none, [], some pt => { st with firstTo := recordKeys pt.HasObject address st.firstTo }
  | none, [], none => st

def unrecordExceptionFirstPts (st : Sdc) (address : Nat) (exception : ExceptionPath) : Sdc :=
  match exception.fromPt, exception.thrus, exception.toPt with
  | some pt, _, _ => { st with firstFrom := unrecordKeys pt.HasObject address st.firstFrom }
  | none, thru :: _, _ => { st with
      firstThru := unrecordKeys thru.HasObject address st.firstThru
      firstThruEdge := unrecordKeys (· ∈ thru.edges) address st.firstThruEdge }
  | none, [], some pt => { st with firstTo := unrecordKeys pt.HasObject address st.firstTo }
  | none, [], none => st

/-- A new exception, or one that was unrecorded, at its address. -/
def recordException (st : Sdc) (address : Nat) (exception : ExceptionPath) : Sdc :=
  (({ st with
      paths := Function.update st.paths address (some exception)
      exceptions := insert address st.exceptions
      exceptionId := st.exceptionId + 1 }).recordMergeHashes address exception).recordExceptionFirstPts
        address exception

def unrecordException (st : Sdc) (address : Nat) (exception : ExceptionPath) : Sdc :=
  let st := (st.unrecordMergeHashes address exception).unrecordExceptionFirstPts address exception
  { st with exceptions := st.exceptions.erase address }

/-- The first match of the set at the hash without a point, at the first point there is one for. -/
def findMergeMatch (st : Sdc) (address : Nat) (exception : ExceptionPath) : Option (PtPos × Nat) :=
  exception.positions.findSome? fun missing =>
    let matches' := (st.mergeHash (exception.hash missing).toUInt32).filter fun other => other ≠ address ∧
      (st.paths other).any fun match' => exception.mergeable match' && match'.mergeablePts exception missing
    if found : matches'.Nonempty then some (missing, matches'.min' found) else none

/-- The exception is merged into the match and deleted. The maps of the first points are only updated for a first
point. -/
def mergeInto (st : Sdc) (address : Nat) (exception : ExceptionPath) (missing : PtPos) (other : Nat)
    (match' : ExceptionPath) : Sdc :=
  let merged := match'.mergePt exception missing
  let st := (st.unrecordException address exception).unrecordMergeHashes other match'
  let st := ({ st with paths := Function.update st.paths other (some merged) }).recordMergeHashes other merged
  let st := if exception.positions.head? = some missing then st.recordExceptionFirstPts other merged else st
  { st with paths := Function.update st.paths address none }

/-- The state after one merge and the address of the match; `none` where there is no match. -/
def mergeOnce (st : Sdc) (address : Nat) : Option (Sdc × Nat) := do
  let exception ← st.paths address
  let (missing, other) ← st.findMergeMatch address exception
  let match' ← st.paths other
  return (st.mergeInto address exception missing other match', other)

/-- `none` where the loop does not end in so many rounds. -/
def mergeLoop : Nat → Sdc → Nat → Option Sdc
  | 0, _, _ => none
  | fuel + 1, st, address =>
    match st.mergeOnce address with
    | none => some st
    | some (st, merged) => mergeLoop fuel st merged

/-- Each round deletes an exception. -/
def mergeException (st : Sdc) (address : Nat) : Option Sdc := mergeLoop (st.exceptions.card + 1) st address

end Sdc
end Source

section Covering

theorem setKeys_addKeys (keys into : Option (Finset Nat)) :
    setKeys (addKeys keys into) = setKeys keys ∪ setKeys into := by
  unfold addKeys
  split
  · rename_i empty
    rw [empty,Finset.empty_union]
  · rfl

namespace ExceptionPt

@[simp] theorem mergeInto_hasObject (pt into : ExceptionPt) (object : SdcObject) :
    (pt.mergeInto into).HasObject object ↔ pt.HasObject object ∨ into.HasObject object := by
  cases object <;> simp [HasObject,mergeInto,setKeys_addKeys]

theorem exists_covers (pt : ExceptionPt) : ∃ tuple, pt.Covers tuple := by
  by_cases none : pt.NoObjects
  · exact ⟨⟨.none, pt.rf⟩, rfl, none⟩
  · unfold NoObjects at none
    push Not at none
    obtain ⟨object, has⟩ := none
    exact ⟨⟨some object, pt.rf⟩, rfl, has⟩

end ExceptionPt

namespace ExceptionPath

theorem options_nonempty (exception : ExceptionPath) (pos : PtPos) : (exception.options pos).Nonempty := by
  unfold options
  cases exception.pt? pos with
  | none => exact ⟨none, .none⟩
  | some pt =>
    obtain ⟨tuple, covers⟩ := pt.exists_covers
    exact ⟨some tuple, .some covers⟩

theorem pt?_mergePt_ne (match' exception : ExceptionPath) {pos other : PtPos} (differ : other ≠ pos) :
    (match'.mergePt exception pos).pt? other = match'.pt? other := by
  cases pos with
  | fromPt =>
    cases other with
    | fromPt => exact absurd rfl differ
    | thru index => rfl
    | toPt => rfl
  | thru index =>
    cases other with
    | fromPt => rfl
    | thru index' =>
      have differ : index ≠ index' := fun same => differ (same ▸ rfl)
      simp [pt?,mergePt,differ]
    | toPt => rfl
  | toPt =>
    cases other with
    | fromPt => rfl
    | thru index => rfl
    | toPt => exact absurd rfl differ

theorem pt?_mergePt_self {match' exception : ExceptionPath} {pos : PtPos} {pt into : ExceptionPt}
    (here : exception.pt? pos = some pt)
    (there : match'.pt? pos = some into) : (match'.mergePt exception pos).pt? pos = some (pt.mergeInto into) := by
  cases pos with
  | fromPt =>
    change exception.fromPt = some pt at here
    change match'.fromPt = some into at there
    simp [pt?,mergePt,here,there]
  | thru index =>
    change exception.thrus[index]? = some pt at here
    change match'.thrus[index]? = some into at there
    simp [pt?,mergePt,here,there]
  | toPt =>
    obtain ⟨toPt, hereTo, rfl⟩ := Option.map_eq_some_iff.mp here
    obtain ⟨intoPt, thereTo, rfl⟩ := Option.map_eq_some_iff.mp there
    simp [pt?,mergePt,hereTo,thereTo]

theorem endRf_mergePt (match' exception : ExceptionPath) (pos : PtPos) :
    (match'.mergePt exception pos).toPt.map ExceptionTo.endRf = match'.toPt.map ExceptionTo.endRf := by
  cases pos with
  | fromPt => rfl
  | thru index => rfl
  | toPt =>
    cases there : match'.toPt with
    | none => simp [mergePt,there]
    | some pt =>
      cases here : exception.toPt with
      | none => simp [mergePt,there,here]
      | some pt2 => simp [mergePt,there,here]

theorem params_mergePt (match' exception : ExceptionPath) (pos : PtPos) :
    (match'.mergePt exception pos).type = match'.type ∧ (match'.mergePt exception pos).minMax = match'.minMax := by
  cases pos <;> exact ⟨rfl, rfl⟩

theorem mergeableThrus_rel {missing : Option Nat} {thrus thrus2 : List ExceptionPt} {index : Nat}
    (mergeable : mergeableThrus missing thrus thrus2 index) (i : Nat) :
    Option.Rel (fun pt pt2 => pt.rf = pt2.rf) thrus[i]? thrus2[i]? := by
  induction thrus generalizing thrus2 index i with
  | nil =>
    cases thrus2 with
    | nil => exact .none
    | cons thru2 thrus2 => cases mergeable
  | cons thru thrus ih =>
    cases thrus2 with
    | nil => cases mergeable
    | cons thru2 thrus2 =>
      simp only [mergeableThrus,Bool.and_eq_true,decide_eq_true_eq] at mergeable
      obtain ⟨⟨rf, -⟩, rest⟩ := mergeable
      cases i with
      | zero => exact .some rf
      | succ i => exact ih rest i

theorem mergeableFrom_rel {pt pt2 : Option ExceptionPt} {missing : Bool} (mergeable : mergeableFrom pt pt2 missing) :
    Option.Rel (fun pt pt2 => pt.rf = pt2.rf) pt pt2 := by
  cases pt with
  | none =>
    cases pt2 with
    | none => exact .none
    | some pt2 => cases mergeable
  | some pt =>
    cases pt2 with
    | none => cases mergeable
    | some pt2 =>
      simp only [mergeableFrom,Bool.and_eq_true,decide_eq_true_eq] at mergeable
      exact .some mergeable.1

theorem mergeableTo_rel {pt pt2 : Option ExceptionTo} {missing : Bool} (mergeable : mergeableTo pt pt2 missing) :
    Option.Rel (fun pt pt2 => pt.rf = pt2.rf ∧ pt.endRf = pt2.endRf) pt pt2 := by
  cases pt with
  | none =>
    cases pt2 with
    | none => exact .none
    | some pt2 => cases mergeable
  | some pt =>
    cases pt2 with
    | none => cases mergeable
    | some pt2 =>
      simp only [mergeableTo,Bool.and_eq_true,decide_eq_true_eq] at mergeable
      exact .some mergeable.1

/-- Exceptions that may be merged have points at the same places and with the same transitions. -/
theorem mergeablePts_rel {match' exception : ExceptionPath} {missing : PtPos}
    (mergeable : match'.mergeablePts exception missing) :
    (∀ pos, Option.Rel (fun pt pt2 => pt.rf = pt2.rf) (match'.pt? pos) (exception.pt? pos)) ∧
      match'.toPt.map ExceptionTo.endRf = exception.toPt.map ExceptionTo.endRf := by
  simp only [mergeablePts,Bool.and_eq_true] at mergeable
  obtain ⟨⟨here, thrus⟩, there⟩ := mergeable
  have there := mergeableTo_rel there
  refine ⟨fun pos => ?_, ?_⟩
  · cases pos with
    | fromPt => exact mergeableFrom_rel here
    | thru index => exact mergeableThrus_rel thrus index
    | toPt =>
      change Option.Rel _ (match'.toPt.map ExceptionTo.toExceptionPt) (exception.toPt.map ExceptionTo.toExceptionPt)
      generalize match'.toPt = pt, exception.toPt = pt2 at there
      cases there with
      | none => exact .none
      | some same => exact .some same.1
  · generalize match'.toPt = pt, exception.toPt = pt2 at there
    cases there with
    | none => rfl
    | some same => exact congrArg some same.2

def NoObjects (exception : ExceptionPath) (pos : PtPos) : Prop := ∀ pt, exception.pt? pos = some pt → pt.NoObjects

/-- Where merging two exceptions keeps what they cover: they are of one kind and have the same objects at the other
points, and not just one of the merged points is without objects; or the match has all objects of the exception. -/
def MergeFits (exception match' : ExceptionPath) (missing : PtPos) : Prop :=
  exception.type = match'.type ∧ exception.minMax = match'.minMax ∧
    (((∀ pos ≠ missing, exception.options pos = match'.options pos) ∧
      (exception.NoObjects missing ↔ match'.NoObjects missing)) ∨
      ∀ pos, exception.options pos ⊆ match'.options pos)

end ExceptionPath

theorem ExceptionPt.some_mem_options {exception : ExceptionPath} {pos : PtPos} {pt : ExceptionPt}
    (here : exception.pt? pos = some pt) (tuple : TuplePt) : some tuple ∈ exception.options pos ↔ pt.Covers tuple := by
  unfold ExceptionPath.options
  rw [here]
  constructor
  · rintro (covers : Option.Rel _ _ _)
    cases covers
    assumption
  · exact fun covers => .some covers

theorem ExceptionPt.options_eq {exception : ExceptionPath} {pos : PtPos} {pt : ExceptionPt}
    (here : exception.pt? pos = some pt) :
    exception.options pos = some '' { tuple | pt.Covers tuple } := by
  ext choice
  cases choice with
  | none =>
    unfold ExceptionPath.options
    rw [here]
    constructor
    · rintro (covers : Option.Rel _ _ _)
      cases covers
    · rintro ⟨_, -, impossible⟩
      cases impossible
  | some tuple =>
    rw [some_mem_options here]
    simp

namespace ExceptionPath
variable {exception match' : ExceptionPath} {missing : PtPos}

theorem options_mergePt_ne {pos : PtPos} (differ : pos ≠ missing) :
    (match'.mergePt exception missing).options pos = match'.options pos := by
  unfold options
  rw [pt?_mergePt_ne match' exception differ]

theorem options_mergePt : (match'.mergePt exception missing).options =
    Function.update match'.options missing ((match'.mergePt exception missing).options missing) := by
  funext pos
  by_cases same : pos = missing
  · rw [same,Function.update_self]
  · rw [Function.update_of_ne same,options_mergePt_ne same]

variable {pt into : ExceptionPt} (here : exception.pt? missing = some pt) (there : match'.pt? missing = some into)
  (rf : into.rf = pt.rf)
include here there rf

/-- The merged point has the objects of both, unless just one of the two has none. -/
theorem options_union_iff : exception.options missing ∪ match'.options missing =
    (match'.mergePt exception missing).options missing ↔
    (pt.NoObjects ↔ into.NoObjects) := by
  rw [ExceptionPt.options_eq here,ExceptionPt.options_eq there,ExceptionPt.options_eq (pt?_mergePt_self here there),
    ← Set.image_union,
    Set.image_eq_image (Option.some_injective _)]
  have none : (pt.mergeInto into).NoObjects ↔ pt.NoObjects ∧ into.NoObjects := by
    simp [ExceptionPt.NoObjects,forall_and]
  constructor
  · intro same
    have absent : ∀ tuple, (pt.Covers tuple ∨ into.Covers tuple) ↔ (pt.mergeInto into).Covers tuple :=
      fun tuple => Set.ext_iff.mp same tuple
    have absent := absent ⟨.none, into.rf⟩
    simp only [ExceptionPt.Covers,none,rf,true_and] at absent
    have rfl' : pt.rf = (pt.mergeInto into).rf := rf.symm
    simp only [← rfl',true_and] at absent
    tauto
  · intro both
    ext tuple
    change (pt.Covers tuple ∨ into.Covers tuple) ↔ (pt.mergeInto into).Covers tuple
    unfold ExceptionPt.Covers
    rw [show (pt.mergeInto into).rf = into.rf from rfl,rf,← and_or_left]
    cases tuple.object with
    | none =>
      dsimp only
      rw [none]
      tauto
    | some object => exact and_congr_right' (ExceptionPt.mergeInto_hasObject pt into object).symm

omit there rf in
theorem noObjects_iff : exception.NoObjects missing ↔ pt.NoObjects := by
  unfold NoObjects
  constructor
  · exact fun all => all pt here
  · intro none pt' here'
    obtain rfl := Option.some.inj (here.symm.trans here')
    exact none

omit rf in
theorem noObjects_of_subset (subset : exception.options missing ⊆ match'.options missing) : pt.NoObjects ↔
    into.NoObjects := by
  have inside : ∀ tuple, pt.Covers tuple → into.Covers tuple := fun tuple covers =>
    (ExceptionPt.some_mem_options there tuple).mp (subset ((ExceptionPt.some_mem_options here tuple).mpr covers))
  constructor
  · exact fun none => (inside ⟨.none, pt.rf⟩ ⟨rfl, none⟩).2
  · exact fun none object has => none object (inside ⟨some object, pt.rf⟩ ⟨rfl, has⟩).2

theorem pi_union_iff : Set.univ.pi exception.options ∪ Set.univ.pi match'.options =
    Set.univ.pi (match'.mergePt exception missing).options ↔
    ((∀ pos ≠ missing, exception.options pos = match'.options pos) ∧
    (exception.NoObjects missing ↔ match'.NoObjects missing)) ∨
      ∀ pos, exception.options pos ⊆ match'.options pos := by
  rw [options_mergePt,Boxes.union_eq_update_iff exception.options_nonempty match'.options_nonempty
    (options_nonempty _ _),
    options_union_iff here there rf,noObjects_iff here,noObjects_iff there]
  refine or_congr_right (and_iff_left_of_imp fun subset => ?_)
  rw [← (options_union_iff here there rf).mpr (noObjects_of_subset here there (subset missing))]
  exact Set.union_eq_self_of_subset_left (subset missing)

end ExceptionPath

/-- Exactly where the merge fits, the merged exception covers what the two cover. -/
theorem ExceptionPath.covered_union_iff {exception match' : ExceptionPath} {missing : PtPos} {pt : ExceptionPt}
    (here : exception.pt? missing = some pt) (mergeable : match'.mergeablePts exception missing) :
    exception.covered ∪ match'.covered = (match'.mergePt exception missing).covered ↔
    MergeFits exception match' missing := by
  obtain ⟨rel, endRf⟩ := mergeablePts_rel mergeable
  obtain ⟨into, there, rf⟩ : ∃ into, match'.pt? missing = some into ∧ into.rf = pt.rf := by
    have rel := rel missing
    rw [here] at rel
    generalize match'.pt? missing = found at rel
    cases rel with
    | some same => exact ⟨_, rfl, same⟩
  obtain ⟨type, minMax⟩ := params_mergePt match' exception missing
  have endRf' := endRf_mergePt match' exception missing
  unfold MergeFits
  rw [← pi_union_iff here there rf]
  constructor
  · intro same
    obtain ⟨f, box⟩ := Boxes.exists_mem exception.options_nonempty
    have own : (⟨exception.type, exception.minMax, exception.toPt.map ExceptionTo.endRf, f⟩ : ExceptionTuple) ∈
      exception.covered :=
      ⟨rfl, rfl, rfl, box⟩
    have moved := (Set.ext_iff.mp same _).mp (Or.inl own)
    have kind : exception.type = match'.type := moved.1.trans type
    have minMaxs : exception.minMax = match'.minMax := moved.2.1.trans minMax
    refine ⟨kind, minMaxs, ?_⟩
    ext f
    have tuple := Set.ext_iff.mp same ⟨match'.type, match'.minMax, match'.toPt.map ExceptionTo.endRf, f⟩
    simpa [covered,kind,minMaxs,endRf,type,minMax,endRf'] using tuple
  · rintro ⟨kind, minMaxs, boxes⟩
    ext tuple
    have box := Set.ext_iff.mp boxes tuple.pts
    simp only [covered,Set.mem_union,Set.mem_ofPred_eq,kind,minMaxs,← endRf,type,minMax,endRf'] at box ⊢
    rw [← box]
    tauto

end Covering

section Recording

theorem mem_recordKeys {κ : Type} {keys : κ → Prop} [DecidablePred keys] {address other : Nat} {map : κ → Finset Nat}
    {key : κ} :
    other ∈ recordKeys keys address map key ↔ (keys key ∧ other = address) ∨ other ∈ map key := by
  unfold recordKeys
  split
  · rename_i here
    rw [Finset.mem_insert]
    simp [here]
  · rename_i absent
    simp [absent]

theorem mem_unrecordKeys {κ : Type} {keys : κ → Prop} [DecidablePred keys] {address other : Nat} {map : κ → Finset Nat}
    {key : κ} :
    other ∈ unrecordKeys keys address map key ↔ other ∈ map key ∧ ¬ (keys key ∧ other = address) := by
  unfold unrecordKeys
  split
  · rename_i here
    rw [Finset.mem_erase]
    simp [here,and_comm]
  · rename_i absent
    simp [absent]

namespace Sdc

@[simp] theorem recordExceptionFirstPts_rest (st : Sdc) (address : Nat) (exception : ExceptionPath) :
    (st.recordExceptionFirstPts address exception).paths = st.paths ∧
      (st.recordExceptionFirstPts address exception).exceptions = st.exceptions ∧
      (st.recordExceptionFirstPts address exception).mergeHash = st.mergeHash := by
  unfold recordExceptionFirstPts
  split <;> exact ⟨rfl, rfl, rfl⟩

@[simp] theorem unrecordExceptionFirstPts_rest (st : Sdc) (address : Nat) (exception : ExceptionPath) :
    (st.unrecordExceptionFirstPts address exception).paths = st.paths ∧
      (st.unrecordExceptionFirstPts address exception).exceptions = st.exceptions ∧
      (st.unrecordExceptionFirstPts address exception).mergeHash = st.mergeHash := by
  unfold unrecordExceptionFirstPts
  split <;> exact ⟨rfl, rfl, rfl⟩

/-- Every recorded exception is kept at its address, and the map of the hashes has recorded exceptions at their own
hashes. -/
structure Recorded (st : Sdc) : Prop where
  kept : ∀ address ∈ st.exceptions, ∃ exception, st.paths address = some exception
  hashes : ∀ key, ∀ address ∈ st.mergeHash key, address ∈ st.exceptions ∧
    ∃ exception, st.paths address = some exception ∧ key ∈ exception.mergeKeys

theorem Recorded.init : Sdc.init.Recorded where
  kept := fun address mem => by cases mem
  hashes := fun key address mem => by cases mem

theorem Recorded.record {st : Sdc} (recorded : st.Recorded) {address : Nat} (fresh : address ∉ st.exceptions)
    (exception : ExceptionPath) :
    (st.recordException address exception).Recorded := by
  obtain ⟨paths, exceptions, mergeHash⟩ := recordExceptionFirstPts_rest (({ st with
      paths := Function.update st.paths address (some exception)
      exceptions := insert address st.exceptions
      exceptionId := st.exceptionId + 1 }).recordMergeHashes address exception) address exception
  constructor
  case kept =>
    intro other mem
    rw [recordException,exceptions] at mem
    rw [recordException,paths]
    rcases Finset.mem_insert.mp mem with rfl | old
    · exact ⟨exception, Function.update_self ..⟩
    · have differ : other ≠ address := fun same => fresh (same ▸ old)
      obtain ⟨exception', here⟩ := recorded.kept other old
      exact ⟨exception', (Function.update_of_ne differ _ _).trans here⟩
  case hashes =>
    intro key other mem
    rw [recordException,mergeHash] at mem
    rw [recordException,exceptions,paths]
    rcases mem_recordKeys.mp mem with ⟨here, rfl⟩ | old
    · exact ⟨Finset.mem_insert_self _ _, exception, Function.update_self .., here⟩
    · obtain ⟨known, exception', here, keys⟩ := recorded.hashes key other old
      have differ : other ≠ address := fun same => fresh (same ▸ known)
      exact ⟨Finset.mem_insert_of_mem known, exception', (Function.update_of_ne differ _ _).trans here, keys⟩

def covered (st : Sdc) : Set ExceptionTuple :=
  { tuple | ∃ address ∈ st.exceptions, ∃ exception, st.paths address = some exception ∧ tuple ∈ exception.covered }

section Merge
variable {st : Sdc} {address other : Nat} {exception match' : ExceptionPath} {missing : PtPos}

theorem mergeInto_rest (st : Sdc) (address : Nat) (exception : ExceptionPath) (missing : PtPos) (other : Nat)
    (match' : ExceptionPath) :
    (st.mergeInto address exception missing other match').paths =
        Function.update (Function.update st.paths other (some (match'.mergePt exception missing))) address none ∧
      (st.mergeInto address exception missing other match').exceptions = st.exceptions.erase address ∧
      (st.mergeInto address exception missing other match').mergeHash =
        recordKeys (· ∈ (match'.mergePt exception missing).mergeKeys) other (unrecordKeys (· ∈ match'.mergeKeys) other
          (unrecordKeys (· ∈ exception.mergeKeys) address st.mergeHash)) := by
  unfold mergeInto
  split <;> simp [unrecordException,recordMergeHashes,unrecordMergeHashes]

theorem mem_positions {pos : PtPos} (mem : pos ∈ exception.positions) : ∃ pt, exception.pt? pos = some pt := by
  unfold ExceptionPath.positions at mem
  simp only [List.mem_append,List.mem_map,List.mem_range] at mem
  rcases mem with (here | ⟨index, below, rfl⟩) | here
  · split at here
    · rename_i some
      obtain rfl := List.mem_singleton.mp here
      exact Option.isSome_iff_exists.mp some
    · cases here
  · exact ⟨exception.thrus[index], List.getElem?_eq_getElem below⟩
  · split at here
    · rename_i some
      obtain rfl := List.mem_singleton.mp here
      obtain ⟨pt, here⟩ := Option.isSome_iff_exists.mp some
      exact ⟨pt.toExceptionPt, congrArg (Option.map ExceptionTo.toExceptionPt) here⟩
    · cases here

theorem findMergeMatch_spec (found : st.findMergeMatch address exception = some (missing, other)) :
    (∃ pt, exception.pt? missing = some pt) ∧ other ≠ address ∧ (∃ key, other ∈ st.mergeHash key) ∧
      ∃ match', st.paths other = some match' ∧ exception.mergeable match' ∧ match'.mergeablePts exception missing := by
  obtain ⟨pos, mem, here⟩ := List.exists_of_findSome?_eq_some found
  dsimp only at here
  split at here
  · rename_i nonempty
    obtain ⟨rfl, rfl⟩ := Prod.mk.inj (Option.some.inj here)
    have least := Finset.min'_mem _ nonempty
    rw [Finset.mem_filter] at least
    obtain ⟨hashed, differ, any⟩ := least
    refine ⟨mem_positions mem, differ, ⟨_, hashed⟩, ?_⟩
    obtain ⟨match', kept, both⟩ := (Option.any_eq_true ..).mp any
    rw [Bool.and_eq_true] at both
    exact ⟨match', kept, both⟩
  · cases here

theorem Recorded.merge (recorded : st.Recorded) (here : st.paths address = some exception)
    (there : st.paths other = some match') (known : other ∈ st.exceptions) (differ : other ≠ address) :
    (st.mergeInto address exception missing other match').Recorded := by
  obtain ⟨paths, exceptions, mergeHash⟩ := mergeInto_rest st address exception missing other match'
  constructor
  case kept =>
    intro third mem
    rw [exceptions,Finset.mem_erase] at mem
    rw [paths,Function.update_of_ne mem.1]
    by_cases same : third = other
    · rw [same,Function.update_self]
      exact ⟨_, rfl⟩
    · rw [Function.update_of_ne same]
      exact recorded.kept third mem.2
  case hashes =>
    intro key third mem
    rw [mergeHash,mem_recordKeys,mem_unrecordKeys,mem_unrecordKeys] at mem
    rw [exceptions,paths,Finset.mem_erase]
    rcases mem with ⟨keys, rfl⟩ | ⟨⟨old, notHere⟩, notThere⟩
    · refine ⟨⟨differ, known⟩, _, ?_, keys⟩
      rw [Function.update_of_ne differ,Function.update_self]
    · obtain ⟨known', exception', kept, keys⟩ := recorded.hashes key third old
      have notAddress : third ≠ address := by
        rintro rfl
        obtain rfl := Option.some.inj (here.symm.trans kept)
        exact notHere ⟨keys, rfl⟩
      have notOther : third ≠ other := by
        rintro rfl
        obtain rfl := Option.some.inj (there.symm.trans kept)
        exact notThere ⟨keys, rfl⟩
      refine ⟨⟨notAddress, known'⟩, exception', ?_, keys⟩
      rw [Function.update_of_ne notAddress,Function.update_of_ne notOther]
      exact kept

theorem mergeInto_covered (here : st.paths address = some exception) (there : st.paths other = some match')
    (mem : address ∈ st.exceptions) (known : other ∈ st.exceptions) (differ : other ≠ address)
    (same : exception.covered ∪ match'.covered = (match'.mergePt exception missing).covered) :
    (st.mergeInto address exception missing other match').covered = st.covered := by
  obtain ⟨paths, exceptions, -⟩ := mergeInto_rest st address exception missing other match'
  ext tuple
  have either := Set.ext_iff.mp same tuple
  constructor
  · rintro ⟨third, mem', exception', kept, covers⟩
    rw [exceptions,Finset.mem_erase] at mem'
    rw [paths,Function.update_of_ne mem'.1] at kept
    by_cases merged : third = other
    · rw [merged,Function.update_self,Option.some.injEq] at kept
      subst kept
      rcases either.mpr covers with own | own
      · exact ⟨address, mem, exception, here, own⟩
      · exact ⟨other, known, match', there, own⟩
    · rw [Function.update_of_ne merged] at kept
      exact ⟨third, mem'.2, exception', kept, covers⟩
  · have merged : tuple ∈ (match'.mergePt exception missing).covered →
        tuple ∈ (st.mergeInto address exception missing other match').covered := by
      intro covers
      refine ⟨other, ?_, _, ?_, covers⟩
      · rw [exceptions]
        exact Finset.mem_erase.mpr ⟨differ, known⟩
      · rw [paths,Function.update_of_ne differ,Function.update_self]
    rintro ⟨third, mem', exception', kept, covers⟩
    by_cases first : third = address
    · subst first
      obtain rfl := Option.some.inj (here.symm.trans kept)
      exact merged (either.mp (Or.inl covers))
    · by_cases second : third = other
      · subst second
        obtain rfl := Option.some.inj (there.symm.trans kept)
        exact merged (either.mp (Or.inr covers))
      · refine ⟨third, ?_, exception', ?_, covers⟩
        · rw [exceptions]
          exact Finset.mem_erase.mpr ⟨first, mem'⟩
        · rw [paths,Function.update_of_ne first,Function.update_of_ne second]
          exact kept

/-- A merge at an address that is one of a match found there. -/
structure Merge (st : Sdc) (address : Nat) (exception : ExceptionPath) (missing : PtPos) (other : Nat)
    (match' : ExceptionPath) : Prop where
  here : st.paths address = some exception
  found : st.findMergeMatch address exception = some (missing, other)
  there : st.paths other = some match'

theorem mergeOnce_cases {found : Sdc × Nat} (merged : st.mergeOnce address = some found) :
    ∃ exception missing match', st.Merge address exception missing found.2 match' ∧
      found.1 = st.mergeInto address exception missing found.2 match' := by
  obtain ⟨exception, here, merged⟩ := Option.bind_eq_some_iff.mp merged
  obtain ⟨⟨missing, other⟩, match', merged⟩ := Option.bind_eq_some_iff.mp merged
  obtain ⟨matchPath, there, merged⟩ := Option.bind_eq_some_iff.mp merged
  obtain rfl := Option.some.inj merged
  exact ⟨exception, missing, matchPath, ⟨here, match', there⟩, rfl⟩

inductive MergesFit : Sdc → Nat → Prop
  | done {st : Sdc} {address : Nat} (none : st.mergeOnce address = none) : MergesFit st address
  | merge {st st' : Sdc} {address other : Nat} (merged : st.mergeOnce address = some (st', other))
      (fits : ∀ exception missing match', st.Merge address exception missing other match' →
        exception.MergeFits match' missing)
      (rest : MergesFit st' other) : MergesFit st address

theorem Recorded.once {found : Sdc × Nat} (recorded : st.Recorded) (mem : address ∈ st.exceptions)
    (merged : st.mergeOnce address = some found) :
    found.1.Recorded ∧ found.2 ∈ found.1.exceptions ∧ found.1.exceptions.card + 1 = st.exceptions.card ∧
      ((∀ exception missing match', st.Merge address exception missing found.2 match' →
        exception.MergeFits match' missing) →
        found.1.covered = st.covered) := by
  obtain ⟨exception, missing, match', merge, same⟩ := mergeOnce_cases merged
  obtain ⟨⟨pt, hasPt⟩, differ, ⟨key, hashed⟩, matchPath, there, -, mergeablePts⟩ := findMergeMatch_spec merge.found
  obtain rfl := Option.some.inj (merge.there.symm.trans there)
  have known := (recorded.hashes key _ hashed).1
  rw [same]
  obtain ⟨-, exceptions, -⟩ := mergeInto_rest st address exception missing found.2 match'
  refine ⟨recorded.merge merge.here there known differ, ?_, ?_, ?_⟩
  · rw [exceptions]
    exact Finset.mem_erase.mpr ⟨differ, known⟩
  · rw [exceptions]
    exact Finset.card_erase_add_one mem
  · intro fits
    exact mergeInto_covered merge.here there mem known differ
      ((ExceptionPath.covered_union_iff hasPt mergeablePts).mpr (fits exception missing match' merge))

/-- The loop ends, and if every merge fits the recorded exceptions cover what they did. -/
theorem Recorded.loop (recorded : st.Recorded) (mem : address ∈ st.exceptions) {fuel : Nat}
    (enough : st.exceptions.card < fuel) :
    ∃ st', mergeLoop fuel st address = some st' ∧ st'.Recorded ∧ (st.MergesFit address → st'.covered = st.covered) := by
  induction fuel generalizing st address with
  | zero => exact absurd enough (Nat.not_lt_zero _)
  | succ fuel ih =>
    rw [mergeLoop]
    cases merged : st.mergeOnce address with
    | none => exact ⟨st, rfl, recorded, fun _ => rfl⟩
    | some found =>
      obtain ⟨recorded', mem', fewer, covered⟩ := recorded.once mem merged
      obtain ⟨st', ended, recordedEnd, coveredEnd⟩ := ih recorded' mem' (by omega)
      refine ⟨st', ended, recordedEnd, fun fit => ?_⟩
      cases fit with
      | done none =>
        rw [merged] at none
        cases none
      | merge once fits rest =>
        obtain rfl := Option.some.inj (merged.symm.trans once)
        exact (coveredEnd rest).trans (covered fits)

end Merge
end Sdc

/-- Merging a recorded exception ends, and keeps what the recorded exceptions cover if every merge on the way fits; two
exceptions that may be merged cover together what the merged one covers if and only if their merge fits. -/
theorem mergeException_covered (st : Sdc) (recorded : st.Recorded) (address : Nat) (mem : address ∈ st.exceptions) :
    (∃ st', st.mergeException address = some st' ∧ st'.Recorded ∧ (st.MergesFit address → st'.covered = st.covered)) ∧
      ∀ exception missing other match', st.Merge address exception missing other match' →
        (exception.covered ∪ match'.covered = (match'.mergePt exception missing).covered ↔
          exception.MergeFits match' missing) := by
  refine ⟨recorded.loop mem (Nat.lt_succ_self _), ?_⟩
  intro exception missing other match' merge
  obtain ⟨⟨pt, hasPt⟩, -, -, matchPath, there, -, mergeablePts⟩ := Sdc.findMergeMatch_spec merge.found
  obtain rfl := Option.some.inj (merge.there.symm.trans there)
  exact ExceptionPath.covered_union_iff hasPt mergeablePts

def multiCycleFrom (pin : Nat) (useEndClk : Bool) : ExceptionPath where
  type := .multiCycle useEndClk 2
  fromPt := some ⟨some {pin}, none, none, none, ∅, .riseFall, UInt64.ofNat pin * hashPin⟩
  thrus := []
  toPt := none
  minMax := .max
  priority := 2064
  comment := none

def twoStarts : Sdc := (Sdc.init.recordException 0 (multiCycleFrom 1 false)).recordException 1 (multiCycleFrom 2 false)

theorem twoStarts_recorded : twoStarts.Recorded :=
  (Sdc.Recorded.init.record (by decide) _).record (by decide) _

theorem twoStarts_fit : twoStarts.MergesFit 1 := by
  have merged : (twoStarts.mergeOnce 1).map Prod.snd = some 0 := by decide +kernel
  have ended : ((twoStarts.mergeOnce 1).bind fun found => found.1.mergeOnce found.2).isNone := by decide +kernel
  have atFrom : (twoStarts.findMergeMatch 1 (multiCycleFrom 2 false)).map Prod.fst = some .fromPt := by decide +kernel
  obtain ⟨⟨st', other⟩, once, rfl⟩ := Option.map_eq_some_iff.mp merged
  rw [once,Option.bind_some,Option.isNone_iff_eq_none] at ended
  refine .merge once ?_ (.done ended)
  rintro exception missing match' ⟨here, found, there⟩
  cases here
  cases there
  rw [found,Option.map_some,Option.some.injEq] at atFrom
  subst atFrom
  refine ⟨rfl, rfl, Or.inl ⟨fun pos other => ?_, ?_⟩⟩
  · cases pos with
    | fromPt => exact absurd rfl other
    | thru index => rfl
    | toPt => rfl
  · -- both points have a pin
    constructor
    · intro none
      exact absurd (by decide) (none _ rfl (.pin 2))
    · intro none
      exact absurd (by decide) (none _ rfl (.pin 1))

theorem mergeException_twoStarts : twoStarts.MergesFit 1 ∧
    ∃ st', twoStarts.mergeException 1 = some st' ∧ st'.Recorded ∧ st'.covered = twoStarts.covered := by
  obtain ⟨st', ended, recorded, covered⟩ := (mergeException_covered twoStarts twoStarts_recorded 1 (by decide)).1
  exact ⟨twoStarts_fit, st', ended, recorded, covered twoStarts_fit⟩

/-- Two multicycle paths, one by the start and one by the end clock. -/
def startAndEnd : Sdc := (Sdc.init.recordException 0 (multiCycleFrom 1 false)).recordException 1 (multiCycleFrom 2 true)

/-- The path by the end clock is merged into the other one, and no exception covers what it did. -/
theorem mergeException_loses : ∃ st', startAndEnd.mergeException 1 = some st' ∧ st'.covered ≠ startAndEnd.covered := by
  have merged : (startAndEnd.mergeException 1).map (fun st' => (st'.exceptions, (st'.paths 0).map ExceptionPath.type)) =
      some ({0}, some (.multiCycle false 2)) := by decide +kernel
  obtain ⟨st', ended, found⟩ := Option.map_eq_some_iff.mp merged
  obtain ⟨exceptions, kept⟩ := Prod.mk.inj found
  refine ⟨st', ended, fun same => ?_⟩
  obtain ⟨f, box⟩ := Boxes.exists_mem (multiCycleFrom 2 true).options_nonempty
  have lost : (⟨.multiCycle true 2, .max, none, f⟩ : ExceptionTuple) ∈ startAndEnd.covered :=
    ⟨1, by decide, multiCycleFrom 2 true, rfl, rfl, rfl, rfl, box⟩
  rw [← same] at lost
  obtain ⟨address, mem, exception, here, type, -⟩ := lost
  rw [exceptions,Finset.mem_singleton] at mem
  subst mem
  rw [here,Option.map_some,← type] at kept
  cases kept

end Recording
end GTPower
