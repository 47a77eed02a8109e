import GTPower.ExpandedExceptions

/-! What a reset of paths takes of the tuples that exceptions cover, and the tuples of the expansions of an
exception. -/
namespace GTPower

section Points

/-- The point of a request has the object of a tuple. -/
def ExceptionPt.Resets (pt : ExceptionPt) (choice : TuplePt) : Prop :=
  pt.rf = choice.rf ∧ ∃ object, choice.object = some object ∧ pt.HasObject object

theorem ExceptionPt.intersectsPts_iff (pt1 pt : ExceptionPt) :
    pt1.intersectsPts pt = true ↔ pt.rf = pt1.rf ∧ ∃ object, pt1.HasObject object ∧ pt.HasObject object := by
  have kinds (set set2 : Option (Finset ℕ)) : intersects set set2 = true ↔ ∃ key, key ∈ setKeys set ∧
    key ∈ setKeys set2 := by
    rw [intersects,decide_eq_true_eq,← Finset.nonempty_iff_ne_empty]
    exact ⟨fun ⟨key, mem⟩ => ⟨key, Finset.mem_inter.1 mem⟩, fun ⟨key, mem⟩ => ⟨key, Finset.mem_inter.2 mem⟩⟩
  simp only [intersectsPts,Bool.and_eq_true,Bool.or_eq_true,decide_eq_true_eq,kinds]
  refine and_congr_right fun _ => ⟨?_, ?_⟩
  · rintro (((⟨key, mem⟩ | ⟨key, mem⟩) | ⟨key, mem⟩) | ⟨key, mem⟩)
    · exact ⟨.pin key, mem⟩
    · exact ⟨.clk key, mem⟩
    · exact ⟨.net key, mem⟩
    · exact ⟨.inst key, mem⟩
  · rintro ⟨object, mem⟩
    cases object with
    | pin key => exact .inl (.inl (.inl ⟨key, mem⟩))
    | clk key => exact .inl (.inl (.inr ⟨key, mem⟩))
    | net key => exact .inl (.inr ⟨key, mem⟩)
    | inst key => exact .inr ⟨key, mem⟩

theorem ExceptionPt.intersectsPts_iff_covers (pt1 pt : ExceptionPt) :
    pt1.intersectsPts pt = true ↔ ∃ choice, pt1.Covers choice ∧ pt.Resets choice := by
  rw [intersectsPts_iff]
  constructor
  · rintro ⟨rf, object, has1, has⟩
    exact ⟨⟨some object, pt1.rf⟩, ⟨rfl, has1⟩, rf, object, rfl, has⟩
  · rintro ⟨⟨object, rf⟩, ⟨rfEq, covers⟩, same, found, isObject, has⟩
    change object = some found at isObject
    subst isObject
    exact ⟨same.trans rfEq, found, covers, has⟩

end Points

section Request

def ResetRequest.pt? (request : ResetRequest) : PtPos → Option ExceptionPt
  | .fromPt => request.fromPt
  | .thru index => request.thrus[index]?
  | .toPt => request.toPt.map ExceptionTo.toExceptionPt

/-- The request covers the tuple: it has its objects at the points of both, which are some of its own. A filter is not
reset. -/
structure ResetRequest.Covers (request : ResetRequest) (tuple : ExceptionTuple) : Prop where
  type : tuple.type ≠ .filter
  points : request.fromPt.isSome ∨ request.thrus ≠ [] ∨ request.toPt.isSome
  fromPt : request.fromPt.isSome → (tuple.pts .fromPt).isSome
  thru : request.thrus ≠ [] → (tuple.pts (.thru 0)).isSome
  toPt : request.toPt.isSome → (tuple.pts .toPt).isSome
  pts : ∀ pos pt choice, request.pt? pos = some pt → tuple.pts pos = some choice → pt.Resets choice
  endRf : ∀ pt, request.toPt = some pt → tuple.endRf = some pt.endRf
  minMax : request.minMax = .all ∨ tuple.minMax = request.minMax

namespace ExceptionPath

variable {exception : ExceptionPath} {request : ResetRequest}

theorem intersectsThrus_iff (thrus thrus2 : List ExceptionPt) : intersectsThrus thrus thrus2 = true ↔
    ∀ (index : ℕ) pt1 pt, thrus[index]? = some pt1 → thrus2[index]? = some pt → pt1.intersectsPts pt = true := by
  unfold intersectsThrus
  rw [List.all_eq_true]
  constructor
  · intro all index pt1 pt here1 here
    apply all (pt1, pt)
    exact List.mem_of_getElem? (List.getElem?_zip_eq_some.mpr ⟨here1, here⟩)
  · rintro all ⟨pt1, pt⟩ mem
    obtain ⟨index, here⟩ := List.mem_iff_getElem?.1 mem
    obtain ⟨here1, here⟩ := List.getElem?_zip_eq_some.1 here
    exact all index pt1 pt here1 here

theorem resets_iff : exception.Resets request = true ↔ exception.type ≠ .filter ∧
    (request.fromPt.isSome ∨ request.thrus ≠ [] ∨ request.toPt.isSome) ∧
    (request.fromPt.isSome → exception.fromPt.isSome) ∧ (request.thrus ≠ [] → exception.thrus ≠ []) ∧
    (request.toPt.isSome → exception.toPt.isSome) ∧
    (∀ pos pt pt1, request.pt? pos = some pt → exception.pt? pos = some pt1 → pt1.intersectsPts pt = true) ∧
    (∀ pt pt1, request.toPt = some pt → exception.toPt = some pt1 → pt.endRf = pt1.endRf) ∧
    (request.minMax = .all ∨ exception.minMax = request.minMax) := by
  have froms : (request.fromPt.all fun pt => exception.fromPt.any fun pt1 => pt1.intersectsPts pt) = true ↔
      (request.fromPt.isSome → exception.fromPt.isSome) ∧
        ∀ pt pt1, request.fromPt = some pt → exception.fromPt = some pt1 → pt1.intersectsPts pt = true := by
    cases request.fromPt <;> cases exception.fromPt <;> simp
  have tos : (request.toPt.all fun pt => exception.toPt.any fun pt1 => pt1.intersectsPts pt) = true ↔
      (request.toPt.isSome → exception.toPt.isSome) ∧
        (∀ pt pt1, request.toPt = some pt → exception.toPt = some pt1 →
          pt1.toExceptionPt.intersectsPts pt.toExceptionPt = true) ∧
        ∀ pt pt1, request.toPt = some pt → exception.toPt = some pt1 → pt.endRf = pt1.endRf := by
    cases request.toPt <;> cases exception.toPt <;> simp [ExceptionTo.intersectsPts,and_comm]
  have thrus : (request.thrus = [] || exception.thrus ≠ [] && intersectsThrus exception.thrus request.thrus) = true ↔
      (request.thrus ≠ [] → exception.thrus ≠ []) ∧ intersectsThrus exception.thrus request.thrus = true := by
    cases request.thrus with
    | nil => simp [intersectsThrus]
    | cons thru rest => simp
  have points : (∀ pos pt pt1, request.pt? pos = some pt → exception.pt? pos = some pt1 → pt1.intersectsPts pt = true) ↔
      (∀ pt pt1, request.fromPt = some pt → exception.fromPt = some pt1 → pt1.intersectsPts pt = true) ∧
        intersectsThrus exception.thrus request.thrus = true ∧
        ∀ pt pt1, request.toPt = some pt → exception.toPt = some pt1 →
          pt1.toExceptionPt.intersectsPts pt.toExceptionPt = true := by
    rw [intersectsThrus_iff]
    constructor
    · intro all
      refine ⟨fun pt pt1 here here1 => all .fromPt pt pt1 here here1, fun index pt1 pt here1 here =>
        all (.thru index) pt pt1 here here1,
        fun pt pt1 here here1 => all .toPt _ _ ?_ ?_⟩
      · exact congrArg (Option.map ExceptionTo.toExceptionPt) here
      · exact congrArg (Option.map ExceptionTo.toExceptionPt) here1
    · rintro ⟨froms, thrus, tos⟩ pos pt pt1 here here1
      cases pos with
      | fromPt => exact froms pt pt1 here here1
      | thru index => exact thrus index pt1 pt here1 here
      | toPt =>
        obtain ⟨toPt, hereTo, rfl⟩ := Option.map_eq_some_iff.1 here
        obtain ⟨toPt1, hereTo1, rfl⟩ := Option.map_eq_some_iff.1 here1
        exact tos toPt toPt1 hereTo hereTo1
  have some : (request.fromPt.isSome || request.thrus ≠ [] || request.toPt.isSome) = true ↔
      request.fromPt.isSome ∨ request.thrus ≠ [] ∨ request.toPt.isSome := by
    simp only [Bool.or_eq_true,decide_eq_true_eq,or_assoc]
  have minMaxs : (request.minMax = .all || exception.minMax = request.minMax) = true ↔
      request.minMax = .all ∨ exception.minMax = request.minMax := by
    simp only [Bool.or_eq_true,decide_eq_true_eq]
  unfold Resets resetMatch
  rw [points,Bool.and_eq_true,Bool.and_eq_true,Bool.and_eq_true,Bool.and_eq_true,Bool.and_eq_true,froms,tos,thrus,
    some,minMaxs,
    decide_eq_true_eq]
  constructor
  · rintro ⟨⟨⟨⟨⟨type, some⟩, hasFrom, fromPts⟩, hasThrus, thruPts⟩, hasTo, toPts, endRf⟩, minMax⟩
    exact ⟨type, some, hasFrom, hasThrus, hasTo, ⟨fromPts, thruPts, toPts⟩, endRf, minMax⟩
  · rintro ⟨type, some, hasFrom, hasThrus, hasTo, ⟨fromPts, thruPts, toPts⟩, endRf, minMax⟩
    exact ⟨⟨⟨⟨⟨type, some⟩, hasFrom, fromPts⟩, hasThrus, thruPts⟩, hasTo, toPts, endRf⟩, minMax⟩

theorem isSome_of_mem_options {pos : PtPos} {choice : Option TuplePt} (mem : choice ∈ exception.options pos) :
    choice.isSome = (exception.pt? pos).isSome := by
  have rel : Option.Rel ExceptionPt.Covers (exception.pt? pos) choice := mem
  cases here : exception.pt? pos with
  | none =>
    rw [here] at rel
    cases rel
    rfl
  | some pt =>
    rw [here] at rel
    cases rel
    rfl

theorem resets_iff_covers : exception.Resets request = true ↔ ∃ tuple ∈ exception.covered, request.Covers tuple := by
  have first : (exception.pt? (.thru 0)).isSome ↔ exception.thrus ≠ [] := by
    cases here : exception.thrus <;> simp [pt?,here]
  have last : (exception.pt? .toPt).isSome = exception.toPt.isSome := by
    cases here : exception.toPt <;> simp [pt?,here]
  rw [resets_iff]
  constructor
  · rintro ⟨type, points, hasFrom, hasThrus, hasTo, pts, endRf, minMax⟩
    have choose (pos : PtPos) : ∃ choice ∈ exception.options pos, ∀ pt found, request.pt? pos = some pt →
      choice = some found → pt.Resets found := by
      cases here : request.pt? pos with
      | none =>
        obtain ⟨choice, mem⟩ := exception.options_nonempty pos
        exact ⟨choice, mem, fun _ _ none => by cases none⟩
      | some pt =>
        cases there : exception.pt? pos with
        | none =>
          refine ⟨none, ?_, fun _ _ _ none => by cases none⟩
          unfold options
          rw [there]
          exact .none
        | some pt1 =>
          obtain ⟨choice, covers, resets⟩ := (pt1.intersectsPts_iff_covers pt).1 (pts pos pt pt1 here there)
          refine ⟨some choice, (ExceptionPt.some_mem_options there choice).2 covers,
            fun pt' found samePt sameChoice => ?_⟩
          rwa [← Option.some.inj samePt,← Option.some.inj sameChoice]
    choose pick mem resets using choose
    refine ⟨⟨exception.type, exception.minMax, exception.toPt.map ExceptionTo.endRf, pick⟩,
      ⟨rfl, rfl, rfl, fun pos _ => mem pos⟩,
      type, points, fun some => ?_, fun some => ?_, fun some => ?_, fun pos pt choice => resets pos pt choice,
        fun pt here => ?_, minMax⟩
    · exact (isSome_of_mem_options (mem .fromPt)).trans (hasFrom some)
    · exact (isSome_of_mem_options (mem (.thru 0))).trans (first.2 (hasThrus some))
    · exact (isSome_of_mem_options (mem .toPt)).trans (last.trans (hasTo some))
    · obtain ⟨pt1, there⟩ := Option.isSome_iff_exists.1 (hasTo (by rw [here]; rfl))
      change exception.toPt.map ExceptionTo.endRf = some pt.endRf
      rw [there,Option.map_some,endRf pt pt1 here there]
  · rintro ⟨tuple, ⟨type, minMax, endRf, box⟩, covers⟩
    have mem (pos : PtPos) : tuple.pts pos ∈ exception.options pos := box pos (Set.mem_univ pos)
    refine ⟨type ▸ covers.type, covers.points, fun some => ?_, fun some => ?_, fun some =>
      ?_, fun pos pt pt1 here there => ?_,
      fun pt pt1 here there => ?_, minMax ▸ covers.minMax⟩
    · exact (isSome_of_mem_options (mem .fromPt)).symm.trans (covers.fromPt some)
    · exact first.1 ((isSome_of_mem_options (mem (.thru 0))).symm.trans (covers.thru some))
    · exact last.symm.trans ((isSome_of_mem_options (mem .toPt)).symm.trans (covers.toPt some))
    · have rel : Option.Rel ExceptionPt.Covers (exception.pt? pos) (tuple.pts pos) := mem pos
      rw [there] at rel
      generalize isChoice : tuple.pts pos = choice at rel
      cases rel with
      | some coversPt => exact (pt1.intersectsPts_iff_covers pt).2 ⟨_, coversPt, covers.pts pos pt _ here isChoice⟩
    · have same := covers.endRf pt here
      rw [endRf,there,Option.map_some] at same
      exact (Option.some.inj same).symm

end ExceptionPath
end Request

section Singles

structure ExceptionPt.IsSingle (pt : ExceptionPt) (object : SdcObject) (rf : RiseFallBoth) : Prop where
  rf : pt.rf = rf
  hasObject : ∀ other, pt.HasObject other ↔ other = object

theorem ExceptionPt.IsSingle.covers_iff {pt : ExceptionPt} {object : SdcObject} {rf : RiseFallBoth}
    (single : pt.IsSingle object rf) (choice : TuplePt) : pt.Covers choice ↔ choice = ⟨some object, rf⟩ := by
  obtain ⟨found, foundRf⟩ := choice
  unfold Covers
  rw [single.rf]
  cases found with
  | none =>
    have has : ¬pt.NoObjects := fun none => none object ((single.hasObject object).2 rfl)
    simp [has]
  | some found => simp [single.hasObject,and_comm]

/-- The expanded points are those of the objects. -/
structure ExceptionPt.ExpandsTo (pt : ExceptionPt) (expanded : List ExceptionPt) : Prop where
  single : ∀ single ∈ expanded, ∃ object, pt.HasObject object ∧ single.IsSingle object pt.rf
  object : ∀ object, pt.HasObject object → ∃ single ∈ expanded, single.IsSingle object pt.rf

theorem ExceptionPt.ExpandsTo.covers_iff {pt : ExceptionPt} {expanded : List ExceptionPt}
    (expands : pt.ExpandsTo expanded)
    (objects : expanded ≠ []) (choice : TuplePt) : pt.Covers choice ↔ ∃ single ∈ expanded, single.Covers choice := by
  constructor
  · intro covers
    obtain ⟨found, rf⟩ := choice
    obtain ⟨rfEq, has⟩ := covers
    cases found with
    | none =>
      obtain ⟨single, mem⟩ := List.exists_mem_of_ne_nil _ objects
      obtain ⟨object, hasObject, -⟩ := expands.single single mem
      exact absurd hasObject (has object)
    | some found =>
      obtain ⟨single, mem, isSingle⟩ := expands.object found has
      refine ⟨single, mem, (isSingle.covers_iff _).2 ?_⟩
      change rf = pt.rf at rfEq
      rw [rfEq]
  · rintro ⟨single, mem, covers⟩
    obtain ⟨object, has, isSingle⟩ := expands.single single mem
    rw [(isSingle.covers_iff choice).1 covers]
    exact ⟨rfl, has⟩

theorem ExceptionPt.ExpandsTo.covers_unique {pt single : ExceptionPt} {expanded : List ExceptionPt}
    (expands : pt.ExpandsTo expanded)
    (mem : single ∈ expanded) {choice choice' : TuplePt} (covers : single.Covers choice)
    (covers' : single.Covers choice') : choice = choice' := by
  obtain ⟨object, -, isSingle⟩ := expands.single single mem
  rw [(isSingle.covers_iff choice).1 covers,(isSingle.covers_iff choice').1 covers']

theorem setKeys_some (set : Finset ℕ) : setKeys (some set) = set := rfl

theorem setKeys_none : setKeys none = ∅ := rfl

theorem fromTo_pin (id : ℕ) (rf : RiseFallBoth) :
    (makeExceptionFromTo (some {id}) none none rf).IsSingle (.pin id) rf where
  rf := rfl
  hasObject other := by
    cases other <;> simp [ExceptionPt.HasObject,makeExceptionFromTo,setKeys_nonemptySet,setKeys_some,setKeys_none]

theorem fromTo_clk (index : ℕ) (rf : RiseFallBoth) :
    (makeExceptionFromTo none (some {index}) none rf).IsSingle (.clk index) rf where
  rf := rfl
  hasObject other := by
    cases other <;> simp [ExceptionPt.HasObject,makeExceptionFromTo,setKeys_nonemptySet,setKeys_some,setKeys_none]

theorem fromTo_inst (id : ℕ) (rf : RiseFallBoth) :
    (makeExceptionFromTo none none (some {id}) rf).IsSingle (.inst id) rf where
  rf := rfl
  hasObject other := by
    cases other <;> simp [ExceptionPt.HasObject,makeExceptionFromTo,setKeys_nonemptySet,setKeys_some,setKeys_none]

theorem thru_pin (edges : ThruEdges) (id : ℕ) (rf : RiseFallBoth) :
    (makeExceptionThru edges (some {id}) none none rf).IsSingle (.pin id) rf where
  rf := rfl
  hasObject other := by
    cases other <;> simp [ExceptionPt.HasObject,makeExceptionThru,setKeys_nonemptySet,setKeys_some,setKeys_none]

theorem thru_net (edges : ThruEdges) (id : ℕ) (rf : RiseFallBoth) :
    (makeExceptionThru edges none (some {id}) none rf).IsSingle (.net id) rf where
  rf := rfl
  hasObject other := by
    cases other <;> simp [ExceptionPt.HasObject,makeExceptionThru,setKeys_nonemptySet,setKeys_some,setKeys_none]

theorem thru_inst (edges : ThruEdges) (id : ℕ) (rf : RiseFallBoth) :
    (makeExceptionThru edges none none (some {id}) rf).IsSingle (.inst id) rf where
  rf := rfl
  hasObject other := by
    cases other <;> simp [ExceptionPt.HasObject,makeExceptionThru,setKeys_nonemptySet,setKeys_some,setKeys_none]

theorem expandsTo_kinds {pt : ExceptionPt} {kinds : List (Finset ℕ × (ℕ → SdcObject) × (ℕ → ExceptionPt))}
    (single : ∀ kind ∈ kinds, ∀ id, (kind.2.2 id).IsSingle (kind.2.1 id) pt.rf)
    (objects : ∀ object, pt.HasObject object ↔ ∃ kind ∈ kinds, ∃ id ∈ kind.1, object = kind.2.1 id) :
    pt.ExpandsTo (kinds.flatMap fun kind => kind.1.sort.map kind.2.2) := by
  constructor
  · intro point mem
    obtain ⟨kind, memKind, mem⟩ := List.mem_flatMap.1 mem
    obtain ⟨id, memId, rfl⟩ := List.mem_map.1 mem
    exact ⟨kind.2.1 id, (objects _).2 ⟨kind, memKind, id, (Finset.mem_sort _).1 memId, rfl⟩, single kind memKind id⟩
  · intro object has
    obtain ⟨kind, memKind, id, memId, rfl⟩ := (objects object).1 has
    exact ⟨kind.2.2 id, List.mem_flatMap.2 ⟨kind, memKind, List.mem_map_of_mem ((Finset.mem_sort _).2 memId)⟩,
      single kind memKind id⟩

theorem expandsTo_fromTo {pt : ExceptionPt} (noNets : setKeys pt.nets = ∅) : pt.ExpandsTo pt.expandFromTo := by
  let kinds : List (Finset ℕ × (ℕ → SdcObject) × (ℕ → ExceptionPt)) := [
    (setKeys pt.pins, .pin, fun id => makeExceptionFromTo (some {id}) none none pt.rf),
    (setKeys pt.clks, .clk, fun index => makeExceptionFromTo none (some {index}) none pt.rf),
    (setKeys pt.insts, .inst, fun id => makeExceptionFromTo none none (some {id}) pt.rf)]
  have expands : pt.ExpandsTo (kinds.flatMap fun kind => kind.1.sort.map kind.2.2) := by
    apply expandsTo_kinds
    · simp [kinds,fromTo_pin,fromTo_clk,fromTo_inst]
    · intro object
      cases object <;> simp [kinds,ExceptionPt.HasObject,noNets]
  simpa [ExceptionPt.expandFromTo,kinds] using expands

theorem expandsTo_thru (edges : ThruEdges) {pt : ExceptionPt} (noClks : setKeys pt.clks = ∅) :
    pt.ExpandsTo (pt.expandThru edges) := by
  let kinds : List (Finset ℕ × (ℕ → SdcObject) × (ℕ → ExceptionPt)) := [
    (setKeys pt.pins, .pin, fun id => makeExceptionThru edges (some {id}) none none pt.rf),
    (setKeys pt.nets, .net, fun id => makeExceptionThru edges none (some {id}) none pt.rf),
    (setKeys pt.insts, .inst, fun id => makeExceptionThru edges none none (some {id}) pt.rf)]
  have expands : pt.ExpandsTo (kinds.flatMap fun kind => kind.1.sort.map kind.2.2) := by
    apply expandsTo_kinds
    · simp [kinds,thru_pin,thru_net,thru_inst]
    · intro object
      cases object <;> simp [kinds,ExceptionPt.HasObject,noClks]
  simpa [ExceptionPt.expandThru,kinds] using expands

end Singles

section Expansions

/-- From and to points have no nets, through points no clocks, and what is for minimum and maximum is so in every
copy. -/
structure ExceptionPath.Typed (exception : ExceptionPath) : Prop where
  fromPt : ∀ pt, exception.fromPt = some pt → setKeys pt.nets = ∅
  thrus : ∀ thru ∈ exception.thrus, setKeys thru.clks = ∅
  toPt : ∀ pt, exception.toPt = some pt → setKeys pt.nets = ∅
  minMax : exception.type.isForAll → exception.minMax = .all

theorem rel_thruChoices {choices : List ExceptionPt} {expand : ExceptionPt → List ExceptionPt}
    (expands : ∀ thru ∈ choices, thru.ExpandsTo (expand thru)) (objects : ∀ thru ∈ choices, expand thru ≠ [])
    (tuple : ℕ → Option TuplePt) :
    (∀ index, Option.Rel ExceptionPt.Covers choices[index]? (tuple index)) ↔
      ∃ thrus ∈ ExceptionPath.thruChoices (choices.map expand), ∀ index :
        ℕ, Option.Rel ExceptionPt.Covers thrus[index]? (tuple index) := by
  induction choices generalizing tuple with
  | nil => simp [ExceptionPath.thruChoices]
  | cons thru rest ih =>
    obtain ⟨expandsHere, expandsRest⟩ := List.forall_mem_cons.1 expands
    obtain ⟨objectsHere, objectsRest⟩ := List.forall_mem_cons.1 objects
    have later := ih expandsRest objectsRest fun index => tuple (index + 1)
    constructor
    · intro rel
      have first : Option.Rel ExceptionPt.Covers (some thru) (tuple 0) := rel 0
      obtain ⟨thrus, mem, others⟩ := later.1 fun index => rel (index + 1)
      generalize isChoice : tuple 0 = choice at first
      cases first with
      | some covers =>
        obtain ⟨single, memSingle, coversSingle⟩ := (expandsHere.covers_iff objectsHere _).1 covers
        refine ⟨single :: thrus, List.mem_flatMap.2 ⟨single, memSingle, List.mem_map_of_mem mem⟩, fun index => ?_⟩
        cases index with
        | zero =>
          rw [isChoice]
          exact .some coversSingle
        | succ index => exact others index
    · rintro ⟨thrus, mem, rel⟩ index
      obtain ⟨single, memSingle, memRest⟩ := List.mem_flatMap.1 mem
      obtain ⟨others, memOthers, rfl⟩ := List.mem_map.1 memRest
      cases index with
      | zero =>
        have first : Option.Rel ExceptionPt.Covers (some single) (tuple 0) := rel 0
        generalize isChoice : tuple 0 = choice at first
        cases first with
        | some covers => exact .some ((expandsHere.covers_iff objectsHere _).2 ⟨single, memSingle, covers⟩)
      | succ index => exact later.2 ⟨others, memOthers, fun index => rel (index + 1)⟩ index

namespace ExceptionPath
variable {edges : ThruEdges} {exception : ExceptionPath}

theorem mem_thruChoices {choices : List (List ExceptionPt)} {thrus : List ExceptionPt}
    (mem : thrus ∈ thruChoices choices) :
    ∀ single ∈ thrus, ∃ here ∈ choices, single ∈ here := by
  induction choices generalizing thrus with
  | nil =>
    obtain rfl := List.mem_singleton.1 mem
    exact fun _ none => absurd none List.not_mem_nil
  | cons here rest ih =>
    obtain ⟨first, memFirst, memRest⟩ := List.mem_flatMap.1 mem
    obtain ⟨others, memOthers, rfl⟩ := List.mem_map.1 memRest
    intro single memSingle
    rcases List.mem_cons.1 memSingle with rfl | later
    · exact ⟨here, List.mem_cons_self, memFirst⟩
    · obtain ⟨there, memThere, inside⟩ := ih memOthers single later
      exact ⟨there, List.mem_cons_of_mem _ memThere, inside⟩

theorem rel_visitedFroms (typed : exception.Typed) (objects : ∀ pt, exception.fromPt = some pt → pt.expandFromTo ≠ [])
    (choice : Option TuplePt) :
    Option.Rel ExceptionPt.Covers exception.fromPt choice ↔ ∃ fromPt ∈ exception.visitedFroms,
    Option.Rel ExceptionPt.Covers fromPt choice := by
  unfold visitedFroms
  cases here : exception.fromPt with
  | none => simp
  | some pt =>
    have expands := expandsTo_fromTo (typed.fromPt pt here)
    have some := objects pt here
    constructor
    · intro rel
      cases rel with
      | some covers =>
        obtain ⟨single, mem, coversSingle⟩ := (expands.covers_iff some _).1 covers
        exact ⟨_, List.mem_map_of_mem mem, .some coversSingle⟩
    · rintro ⟨fromPt, mem, rel⟩
      obtain ⟨single, memSingle, rfl⟩ := List.mem_map.1 mem
      cases rel with
      | some covers => exact .some ((expands.covers_iff some _).2 ⟨single, memSingle, covers⟩)

theorem rel_visitedTos (typed : exception.Typed) (objects : ∀ pt, exception.toPt = some pt → pt.expandFromTo ≠ [])
    (choice : Option TuplePt) :
    Option.Rel ExceptionPt.Covers (exception.toPt.map ExceptionTo.toExceptionPt) choice ↔
      ∃ toPt ∈ exception.visitedTos, Option.Rel ExceptionPt.Covers (toPt.map ExceptionTo.toExceptionPt) choice := by
  unfold visitedTos
  cases here : exception.toPt with
  | none => simp
  | some pt =>
    have expands := expandsTo_fromTo (typed.toPt pt here)
    have some := objects pt here
    constructor
    · intro rel
      cases rel with
      | some covers =>
        obtain ⟨single, mem, coversSingle⟩ := (expands.covers_iff some _).1 covers
        exact ⟨_, List.mem_map_of_mem mem, .some coversSingle⟩
    · rintro ⟨toPt, mem, rel⟩
      obtain ⟨single, memSingle, rfl⟩ := List.mem_map.1 mem
      cases rel with
      | some covers => exact .some ((expands.covers_iff some _).2 ⟨single, memSingle, covers⟩)

theorem visitedTos_endRf {toPt : Option ExceptionTo} (mem : toPt ∈ exception.visitedTos) :
    toPt.map ExceptionTo.endRf = exception.toPt.map ExceptionTo.endRf := by
  unfold visitedTos at mem
  cases here : exception.toPt with
  | none =>
    rw [here] at mem
    rw [List.mem_singleton.1 mem]
  | some pt =>
    rw [here] at mem
    obtain ⟨single, -, rfl⟩ := List.mem_map.1 mem
    rfl

theorem mem_covered_iff (exception : ExceptionPath) (tuple : ExceptionTuple) : tuple ∈ exception.covered ↔
    tuple.type = exception.type ∧ tuple.minMax = exception.minMax ∧ tuple.endRf = exception.toPt.map ExceptionTo.endRf ∧
      Option.Rel ExceptionPt.Covers exception.fromPt (tuple.pts .fromPt) ∧
      (∀ index : ℕ, Option.Rel ExceptionPt.Covers exception.thrus[index]? (tuple.pts (.thru index))) ∧
      Option.Rel ExceptionPt.Covers (exception.toPt.map ExceptionTo.toExceptionPt) (tuple.pts .toPt) := by
  refine and_congr_right fun _ => and_congr_right fun _ => and_congr_right fun _ => ?_
  constructor
  · intro box
    exact ⟨box .fromPt (Set.mem_univ _), fun index => box (.thru index) (Set.mem_univ _), box .toPt (Set.mem_univ _)⟩
  · rintro ⟨hasFrom, hasThrus, hasTo⟩ pos -
    cases pos with
    | fromPt => exact hasFrom
    | thru index => exact hasThrus index
    | toPt => exact hasTo

theorem clone_minMax (minMax : exception.type.isForAll → exception.minMax = .all) (fromPt : Option ExceptionPt)
    (thrus : List ExceptionPt) (toPt : Option ExceptionTo) :
    (exception.clone fromPt thrus toPt).minMax = exception.minMax := by
  unfold clone make
  cases here : exception.type <;> simp_all [ExceptionType.copied,ExceptionType.isForAll]

theorem copied_of_ne_loop {type : ExceptionType} (notLoop : type ≠ .loop) : type.copied = type := by
  cases type <;> simp_all [ExceptionType.copied]

theorem mem_covered_iff_expand (typed : exception.Typed) (expandable : Expandable edges exception)
    (tuple : ExceptionTuple) (isType : tuple.type = exception.type) : tuple ∈ exception.covered ↔
      ∃ expand ∈ exception.expandException edges, { tuple with type := tuple.type.copied } ∈ expand.covered := by
  have minMax := clone_minMax typed.minMax
  have thrus := rel_thruChoices (fun thru mem => expandsTo_thru edges (typed.thrus thru mem)) expandable.thrus
    fun index => tuple.pts (.thru index)
  have visits : (expandThrus edges exception.thrus.length exception.thrus []).1 =
      thruChoices (exception.thrus.map (ExceptionPt.expandThru edges)) := by
    rw [expandThrus_eq expandable.thrus expandable.single]
    simp
  rw [expandException_eq,visits,mem_covered_iff,rel_visitedFroms typed expandable.fromPt,thrus,
    rel_visitedTos typed expandable.toPt]
  constructor
  · rintro ⟨-, isMinMax, endRf, ⟨fromPt, memFrom, hasFrom⟩, ⟨thrus, memThrus, hasThrus⟩, toPt, memTo, hasTo⟩
    refine ⟨_, mem_clones.2 ⟨fromPt, memFrom, thrus, memThrus, toPt, memTo, rfl⟩, (mem_covered_iff _ _).2 ?_⟩
    exact ⟨congrArg ExceptionType.copied isType, isMinMax.trans (minMax _ _ _).symm,
      endRf.trans (visitedTos_endRf memTo).symm, hasFrom,
      hasThrus, hasTo⟩
  · rintro ⟨expand, mem, covers⟩
    obtain ⟨fromPt, memFrom, thrus, memThrus, toPt, memTo, rfl⟩ := mem_clones.1 mem
    obtain ⟨-, isMinMax, endRf, hasFrom, hasThrus, hasTo⟩ := (mem_covered_iff _ _).1 covers
    exact ⟨isType, isMinMax.trans (minMax _ _ _), endRf.trans (visitedTos_endRf memTo), ⟨fromPt, memFrom, hasFrom⟩,
      ⟨thrus, memThrus, hasThrus⟩, toPt, memTo, hasTo⟩

theorem rel_unique {pt : Option ExceptionPt}
    (unique : ∀ single, pt = some single → ∀ choice choice', single.Covers choice → single.Covers choice' →
      choice = choice') {choice choice' : Option TuplePt} (rel : Option.Rel ExceptionPt.Covers pt choice)
    (rel' : Option.Rel ExceptionPt.Covers pt choice') : choice = choice' := by
  cases rel with
  | none =>
    cases rel'
    rfl
  | some covers =>
    cases rel' with
    | some covers' => exact congrArg some (unique _ rfl _ _ covers covers')

/-- Points of an expansion are expanded of points of the exception. -/
structure ExpandedOf (edges : ThruEdges) (exception expand : ExceptionPath) : Prop where
  fromPt : ∀ single, expand.fromPt = some single → ∃ pt, exception.fromPt = some pt ∧ single ∈ pt.expandFromTo
  thrus : ∀ single ∈ expand.thrus, ∃ thru ∈ exception.thrus, single ∈ thru.expandThru edges
  toPt : ∀ single, expand.toPt = some single → ∃ pt, exception.toPt = some pt ∧ single.toExceptionPt ∈ pt.expandFromTo
  minMax : expand.type.isForAll → expand.minMax = .all

theorem expandedOf (expandable : Expandable edges exception) {expand : ExceptionPath}
    (mem : expand ∈ exception.expandException edges) :
    ExpandedOf edges exception expand := by
  rw [expandException_eq,expandThrus_eq expandable.thrus expandable.single] at mem
  obtain ⟨fromPt, memFrom, thrus, memThrus, toPt, memTo, rfl⟩ := mem_clones.1 mem
  constructor
  case fromPt =>
    intro single here
    change fromPt = some single at here
    unfold visitedFroms at memFrom
    cases found : exception.fromPt with
    | none =>
      rw [found] at memFrom
      rw [List.mem_singleton.1 memFrom] at here
      cases here
    | some pt =>
      rw [found] at memFrom
      obtain ⟨single', memSingle, isSingle⟩ := List.mem_map.1 memFrom
      obtain rfl := Option.some.inj (isSingle.trans here)
      exact ⟨pt, rfl, memSingle⟩
  case thrus =>
    intro single memSingle
    simp only [List.nil_append,List.map_id'] at memThrus
    obtain ⟨choices, memChoices, inChoices⟩ := mem_thruChoices memThrus single memSingle
    obtain ⟨thru, memThru, rfl⟩ := List.mem_map.1 memChoices
    exact ⟨thru, memThru, inChoices⟩
  case toPt =>
    intro single here
    change toPt = some single at here
    unfold visitedTos at memTo
    cases found : exception.toPt with
    | none =>
      rw [found] at memTo
      rw [List.mem_singleton.1 memTo] at here
      cases here
    | some pt =>
      rw [found] at memTo
      obtain ⟨single', memSingle, rfl⟩ := List.mem_map.1 memTo
      obtain rfl := Option.some.inj here
      exact ⟨pt, rfl, memSingle⟩
  case minMax => exact fun forAll => if_pos forAll

theorem covered_unique (typed : exception.Typed) (expandable : Expandable edges exception) {expand : ExceptionPath}
    (mem : expand ∈ exception.expandException edges) {tuple tuple' : ExceptionTuple} (covers : tuple ∈ expand.covered)
    (covers' : tuple' ∈ expand.covered) : tuple = tuple' := by
  have points := expandedOf expandable mem
  obtain ⟨type, minMax, endRf, hasFrom, hasThrus, hasTo⟩ := (mem_covered_iff _ _).1 covers
  obtain ⟨type', minMax', endRf', hasFrom', hasThrus', hasTo'⟩ := (mem_covered_iff _ _).1 covers'
  have pts : tuple.pts = tuple'.pts := by
    funext pos
    cases pos with
    | fromPt =>
      refine rel_unique (fun single here _ _ => ?_) hasFrom hasFrom'
      obtain ⟨pt, found, memSingle⟩ := points.fromPt single here
      exact (expandsTo_fromTo (typed.fromPt pt found)).covers_unique memSingle
    | thru index =>
      refine rel_unique (fun single here _ _ => ?_) (hasThrus index) (hasThrus' index)
      obtain ⟨thru, memThru, memSingle⟩ := points.thrus single (List.mem_of_getElem? here)
      exact (expandsTo_thru edges (typed.thrus thru memThru)).covers_unique memSingle
    | toPt =>
      refine rel_unique (fun single here _ _ => ?_) hasTo hasTo'
      obtain ⟨toPt, hereTo, rfl⟩ := Option.map_eq_some_iff.1 here
      obtain ⟨pt, found, memSingle⟩ := points.toPt toPt hereTo
      exact (expandsTo_fromTo (typed.toPt pt found)).covers_unique memSingle
  obtain ⟨_, _, _, _⟩ := tuple
  obtain ⟨_, _, _, _⟩ := tuple'
  rw [ExceptionTuple.mk.injEq]
  exact ⟨type.trans type'.symm, minMax.trans minMax'.symm, endRf.trans endRf'.symm, pts⟩

theorem resets_expand {request : ResetRequest} (typed : exception.Typed) (expandable : Expandable edges exception)
    {expand : ExceptionPath}
    (mem : expand ∈ exception.expandException edges) {tuple : ExceptionTuple} (covers : tuple ∈ expand.covered) :
    expand.Resets request = true ↔ request.Covers tuple := by
  rw [resets_iff_covers]
  constructor
  · rintro ⟨other, covers', resets⟩
    rwa [covered_unique typed expandable mem covers covers']
  · exact fun resets => ⟨tuple, covers, resets⟩

theorem covers_copied {request : ResetRequest} (tuple : ExceptionTuple) :
    request.Covers { tuple with type := tuple.type.copied } ↔ request.Covers tuple := by
  have type : tuple.type.copied ≠ .filter ↔ tuple.type ≠ .filter := by
    cases tuple.type <;> simp [ExceptionType.copied]
  constructor
  · rintro ⟨notFilter, points, fromPt, thru, toPt, pts, endRf, minMax⟩
    exact ⟨type.1 notFilter, points, fromPt, thru, toPt, pts, endRf, minMax⟩
  · rintro ⟨notFilter, points, fromPt, thru, toPt, pts, endRf, minMax⟩
    exact ⟨type.2 notFilter, points, fromPt, thru, toPt, pts, endRf, minMax⟩

/-- The expansions that are not reset cover what the exception does without what is reset, if they are of its type. -/
theorem expansions_covered {request : ResetRequest} (typed : exception.Typed) (expandable : Expandable edges exception)
    (copies : ∀ expand ∈ exception.expandException edges, expand.Resets request ≠ true → exception.type ≠ .loop) :
    { tuple | ∃ expand ∈ exception.expandException edges, tuple ∈ expand.covered } \ { tuple | request.Covers tuple } =
      exception.covered \ { tuple | request.Covers tuple } := by
  ext tuple
  refine and_congr_left fun kept => ?_
  have keeps (expand : ExceptionPath) (mem : expand ∈ exception.expandException edges) {other : ExceptionTuple}
    (covers : other ∈ expand.covered)
      (same : request.Covers other ↔ request.Covers tuple) : expand.Resets request ≠ true :=
    fun resets => kept (same.1 ((resets_expand typed expandable mem covers).1 resets))
  constructor
  · rintro ⟨expand, mem, covers⟩
    have copied := copied_of_ne_loop (copies expand mem (keeps expand mem covers Iff.rfl))
    obtain ⟨fromPt, -, thrus, -, toPt, -, isExpand⟩ := mem_clones.1 mem
    have isType : tuple.type = exception.type := by
      rw [((mem_covered_iff _ _).1 covers).1,isExpand]
      exact copied
    refine (mem_covered_iff_expand typed expandable tuple isType).2 ⟨expand, mem, ?_⟩
    rw [isType,copied,← isType]
    exact covers
  · intro covers
    have isType := ((mem_covered_iff _ _).1 covers).1
    obtain ⟨expand, mem, coversCopy⟩ := (mem_covered_iff_expand typed expandable tuple isType).1 covers
    have copied := copied_of_ne_loop (copies expand mem (keeps expand mem coversCopy (covers_copied tuple)))
    rw [isType,copied,← isType] at coversCopy
    exact ⟨expand, mem, coversCopy⟩

theorem expand_typed (expandable : Expandable edges exception) {expand : ExceptionPath}
    (mem : expand ∈ exception.expandException edges) :
    expand.Typed := by
  have points := expandedOf expandable mem
  have noNets {pt single : ExceptionPt} (mem : single ∈ pt.expandFromTo) : setKeys single.nets = ∅ := by
    simp only [ExceptionPt.expandFromTo,List.mem_append,List.mem_map] at mem
    rcases mem with (⟨id, -, rfl⟩ | ⟨id, -, rfl⟩) | ⟨id, -, rfl⟩ <;> rfl
  have noClks {pt single : ExceptionPt} (mem : single ∈ pt.expandThru edges) : setKeys single.clks = ∅ := by
    simp only [ExceptionPt.expandThru,List.mem_append,List.mem_map] at mem
    rcases mem with (⟨id, -, rfl⟩ | ⟨id, -, rfl⟩) | ⟨id, -, rfl⟩ <;> rfl
  refine ⟨fun single here => ?_, fun single memSingle => ?_, fun single here => ?_, points.minMax⟩
  · obtain ⟨pt, -, memSingle⟩ := points.fromPt single here
    exact noNets memSingle
  · obtain ⟨thru, -, memThru⟩ := points.thrus single memSingle
    exact noClks memThru
  · obtain ⟨pt, -, memSingle⟩ := points.toPt single here
    exact noNets memSingle

theorem not_mixed {pt single : ExceptionPt} (mem : single ∈ pt.expandFromTo) :
    ((single.hasPins || single.hasInstances) && single.hasClocks) = false := by
  simp only [ExceptionPt.expandFromTo,List.mem_append,List.mem_map] at mem
  rcases mem with (⟨id, -, rfl⟩ | ⟨id, -, rfl⟩) | ⟨id, -, rfl⟩ <;>
    simp [ExceptionPt.hasPins,ExceptionPt.hasInstances,ExceptionPt.hasClocks,makeExceptionFromTo,setKeys_nonemptySet,
      setKeys_some,
      setKeys_none]

end ExceptionPath
end Expansions

end GTPower
