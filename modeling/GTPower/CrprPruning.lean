import Mathlib.Algebra.Order.Group.Abs
import Mathlib.Algebra.Order.Ring.Rat
import Mathlib.Data.List.MinMax
import Mathlib.Tactic.Linarith
import GTPower.FilteredArrivals
import GTPower.KeyedTables
import GTPower.MinMax

/-! The arrivals that a vertex keeps of those that come in over its fanins. A second table, which does not tell the
common clock pins apart, has the worst arrival of each path, and arrivals that no credit can make as bad are pruned
against it. -/
namespace GTPower.Search

def ClkInfo.hasCrprClkPin (clkInfo : ClkInfo) : Bool := clkInfo.crprClkPath.isSome

namespace Pruning
open MinMax (delayGreater)

section Source

abbrev ArrivalMap := List (Tag × ℚ)

/-- What the clock paths are read from; `arrivals` lists the arrivals of a vertex in the order of its iterator. -/
structure ClkArrivals where
  tag : ℕ → Option Tag
  arrivals : ℕ → ArrivalMap
  pathMinMax : ℕ → MinMax
  tgtClkAnalysisPt : ℕ → ℕ
  isFalse : ExceptionPath → Bool

def ClkArrivals.tagMinMax (s : ClkArrivals) (tag : Tag) : MinMax := s.pathMinMax tag.attributes.pathAPIndex

section Tables
variable (matchCrprClkPin : Bool)

def tagMatchArrival (map : ArrivalMap) (tag : Tag) : Option (Tag × ℚ) :=
  map.find? fun entry => tagMatch matchCrprClkPin entry.1 tag

/-- The index of the match stays and gets the new arrival. -/
def setMatchArrival (map : ArrivalMap) (tag : Tag) (matched : Option (Tag × ℚ)) (arrival : ℚ) : ArrivalMap :=
  match matched with
  | some (old, _) => map.map fun entry => if entry.1 = old then (tag, arrival) else entry
  | none => map ++ [(tag, arrival)]

def deleteArrival (map : ArrivalMap) (tag : Tag) : ArrivalMap :=
  map.eraseP fun entry => tagMatch matchCrprClkPin entry.1 tag

end Tables

/-- False and loop states only. -/
def tagStateEqualCrpr (s : ClkArrivals) (tag1 tag2 : Tag) : Bool :=
  decide (tag1.states.filter (fun state => s.isFalse state.exception || state.exception.isLoop) =
    tag2.states.filter fun state => s.isFalse state.exception || state.exception.isLoop)

def tagMatchCrpr (s : ClkArrivals) (tag1 tag2 : Tag) : Bool :=
  tag1 = tag2 ||
    (tag1.clkInfo.attributes.clkEdge = tag2.clkInfo.attributes.clkEdge && tag1.attributes.rfIndex =
      tag2.attributes.rfIndex &&
      tag1.attributes.isClk = tag2.attributes.isClk && tag1.attributes.isSegmentStart =
        tag2.attributes.isSegmentStart &&
      tag1.clkInfo.attributes.isGenClkSrcPath = tag2.clkInfo.attributes.isGenClkSrcPath &&
        tagStateEqualCrpr s tag1 tag2)

def otherMinMaxArrival (s : ClkArrivals) (vertexId : ℕ) (tag : Tag) (arrival : ℚ) : ℚ :=
  match (s.arrivals vertexId).find? fun other => other.1.attributes.rfIndex = tag.attributes.rfIndex &&
      other.1.attributes.pathAPIndex = s.tgtClkAnalysisPt tag.attributes.pathAPIndex && tagMatchCrpr s other.1 tag with
  | some other => other.2
  | none => arrival

/-- The path is null when its vertex has no arrival for its tag. -/
def maxCrpr (s : ClkArrivals) (crprActive : Bool) (clkInfo : ClkInfo) : ℚ :=
  match clkInfo.crprClkPath with
  | none => 0
  | some path =>
    match s.tag path.tagIndex with
    | none => 0
    | some tag =>
      match tagMatchArrival crprActive (s.arrivals path.vertexId) tag with
      | none => 0
      | some (_, arrival) => |arrival - otherMinMaxArrival s path.vertexId tag arrival|

structure ArrivalVisitor where
  crprActive : Bool
  crprPathPruningEnabled : Bool
  crprPathPruningDisabled : Bool
  hasFaninOne : Bool
  tagBldr : ArrivalMap
  tagBldrNoCrpr : ArrivalMap

namespace ArrivalVisitor

def visitFromToPath (visitor : ArrivalVisitor) (toTag : Tag) (toArrival : ℚ) (minMax : MinMax) : ArrivalVisitor :=
  let matched := tagMatchArrival visitor.crprActive visitor.tagBldr toTag
  if matched.all fun entry => delayGreater toArrival entry.2 minMax then
    let visitor := { visitor with tagBldr := setMatchArrival visitor.tagBldr toTag matched toArrival }
    if visitor.crprActive && !visitor.hasFaninOne && toTag.clkInfo.hasCrprClkPin && !toTag.attributes.isClk then
      let matched := tagMatchArrival false visitor.tagBldrNoCrpr toTag
      if matched.all fun entry => delayGreater toArrival entry.2 minMax then
        { visitor with tagBldrNoCrpr := setMatchArrival visitor.tagBldrNoCrpr toTag matched toArrival }
      else visitor
    else visitor
  else visitor

/-- Whether the arrival of the loop is deleted. -/
def prunes (s : ClkArrivals) (visitor : ArrivalVisitor) (entry : Tag × ℚ) : Bool :=
  !entry.1.attributes.isClk && entry.1.clkInfo.hasCrprClkPin &&
    match tagMatchArrival false visitor.tagBldrNoCrpr entry.1 with
    | none => false
    | some (tagNoCrpr, maxArrival) =>
      let crpr := maxCrpr s visitor.crprActive tagNoCrpr.clkInfo
      let maxArrivalMaxCrpr := match s.tagMinMax entry.1 with
        | .max => maxArrival - crpr
        | .min => maxArrival + crpr
      delayGreater maxArrivalMaxCrpr entry.2 (s.tagMinMax entry.1)

/-- The iterator has moved on when its arrival is deleted. -/
def pruneCrprArrivals (s : ClkArrivals) (visitor : ArrivalVisitor) : ArrivalMap :=
  visitor.tagBldr.foldl (fun map entry =>
    if visitor.prunes s entry then deleteArrival visitor.crprActive map entry.1 else map) visitor.tagBldr

/-- The part of a visit between the initial builders and the paths that originate at the vertex. -/
def visitFaninPaths (s : ClkArrivals) (visitor : ArrivalVisitor) (offers : ArrivalMap) : ArrivalVisitor :=
  offers.foldl (fun visitor offer => visitor.visitFromToPath offer.1 offer.2 (s.tagMinMax offer.1))
    { visitor with tagBldr := [], tagBldrNoCrpr := [] }

def visit (s : ClkArrivals) (visitor : ArrivalVisitor) (offers : ArrivalMap) : ArrivalMap :=
  let visited := visitor.visitFaninPaths s offers
  if visitor.crprActive && visitor.crprPathPruningEnabled && !visitor.crprPathPruningDisabled &&
    !visitor.hasFaninOne then
    visited.pruneCrprArrivals s
  else visited.tagBldr

end ArrivalVisitor

end Source

section Keys

/-- What a comparison of tags reads, with or without the common clock pin. -/
structure MatchKey where
  clkEdge : Option ℕ
  rfIndex : ℕ
  pathAPIndex : ℕ
  isClk : Bool
  isSegmentStart : Bool
  isGenClkSrcPath : Bool
  states : Finset ExceptionState
  crprClkPin : Option (Option ℕ)
  deriving DecidableEq

def matchKey (matchCrprClkPin : Bool) (tag : Tag) : MatchKey where
  clkEdge := tag.clkInfo.attributes.clkEdge
  rfIndex := tag.attributes.rfIndex
  pathAPIndex := tag.attributes.pathAPIndex
  isClk := tag.attributes.isClk
  isSegmentStart := tag.attributes.isSegmentStart
  isGenClkSrcPath := tag.clkInfo.attributes.isGenClkSrcPath
  states := tag.states
  crprClkPin := if matchCrprClkPin then some (tag.clkInfo.crprClkPath.map (·.vertexId)) else none

theorem tagMatch_iff {matchCrprClkPin : Bool} {tag1 tag2 : Tag} :
    tagMatch matchCrprClkPin tag1 tag2 = true ↔ matchKey matchCrprClkPin tag1 = matchKey matchCrprClkPin tag2 := by
  constructor
  · intro same
    rw [tagMatch,Bool.or_eq_true,decide_eq_true_iff] at same
    obtain rfl | same := same
    · rfl
    · cases matchCrprClkPin <;> simp_all [matchKey]
  · intro same
    simp only [matchKey,MatchKey.mk.injEq] at same
    cases matchCrprClkPin <;> simp_all [tagMatch]

variable {c : Bool} {tag1 tag2 : Tag}

theorem matchKey_weaken (same : matchKey c tag1 = matchKey c tag2) : matchKey false tag1 = matchKey false tag2 :=
  congrArg (fun key : MatchKey => { key with crprClkPin := none }) same

theorem tagMinMax_eq (s : ClkArrivals) (same : matchKey c tag1 = matchKey c tag2) :
    s.tagMinMax tag1 = s.tagMinMax tag2 := by
  have index : tag1.attributes.pathAPIndex = tag2.attributes.pathAPIndex := congrArg (·.pathAPIndex) same
  rw [ClkArrivals.tagMinMax,ClkArrivals.tagMinMax,index]

theorem isClk_eq (same : matchKey c tag1 = matchKey c tag2) : tag1.attributes.isClk = tag2.attributes.isClk :=
  congrArg (·.isClk) same

theorem hasCrprClkPin_eq (same : matchKey true tag1 = matchKey true tag2) :
    tag1.clkInfo.hasCrprClkPin = tag2.clkInfo.hasCrprClkPin := by
  have pins : tag1.clkInfo.crprClkPath.map (·.vertexId) = tag2.clkInfo.crprClkPath.map (·.vertexId) :=
    Option.some.inj (congrArg (·.crprClkPin) same)
  simpa [ClkInfo.hasCrprClkPin] using congrArg Option.isSome pins

end Keys

section Slacks

def slack (required : ℚ) (credit : ℚ) (arrival : ℚ) : MinMax → ℚ
  | .max => required - arrival + credit
  | .min => arrival - required + credit

variable {required credit arrival other : ℚ} {minMax : MinMax}

theorem delayGreater_iff : delayGreater arrival other minMax = true ↔
    slack 0 0 arrival minMax < slack 0 0 other minMax ∧ fuzzyEqual arrival other = false := by
  cases minMax <;> simp [delayGreater,fuzzyGreater,fuzzyLess,slack]

theorem slack_lt_iff (required credit : ℚ) : slack required credit arrival minMax < slack required credit other minMax ↔
    slack 0 0 arrival minMax < slack 0 0 other minMax := by
  cases minMax <;> simp [slack]

theorem slack_lt_of_greater (worse : delayGreater arrival other minMax = true) (required credit : ℚ) :
    slack required credit arrival minMax < slack required credit other minMax :=
  (slack_lt_iff required credit).mpr (delayGreater_iff.mp worse).1

theorem slack_le_slack {credit' : ℚ} (le : credit ≤ credit') (required arrival : ℚ) (minMax : MinMax) :
    slack required credit arrival minMax ≤ slack required credit' arrival minMax := by
  cases minMax with
  | min => exact add_le_add_right le _
  | max => exact add_le_add_right le _

/-- An arrival that is not worse has more slack or is equal up to the tolerance. -/
theorem slack_le_or_equal (h : ¬delayGreater arrival other minMax = true) (required credit : ℚ) :
    slack required credit other minMax ≤ slack required credit arrival minMax ∨ fuzzyEqual arrival other = true := by
  rw [delayGreater_iff,not_and_or,Bool.not_eq_false,← slack_lt_iff required credit,not_lt] at h
  exact h

theorem delayGreater_irrefl : ¬delayGreater arrival arrival minMax = true := by
  rw [delayGreater_iff]
  exact fun worse => lt_irrefl _ worse.1

/-- Equality up to a tolerance is not transitive, but what is worse than a worse arrival is worse. -/
theorem delayGreater_chain {arrival middle other : ℚ} (worst : delayGreater arrival other minMax = true)
    (worse : delayGreater other middle minMax = true) : delayGreater arrival middle minMax = true := by
  obtain ⟨less, apart⟩ := delayGreater_iff.mp worst
  obtain ⟨less', apart'⟩ := delayGreater_iff.mp worse
  refine delayGreater_iff.mpr ⟨less.trans less', ?_⟩
  cases minMax with
  | max =>
    simp only [slack] at less less'
    exact not_fuzzyEqual_of_between (by linarith) (by linarith) apart' apart
  | min =>
    simp only [slack] at less less'
    rw [fuzzyEqual_comm] at apart apart' ⊢
    exact not_fuzzyEqual_of_between (by linarith) (by linarith) apart apart'

theorem delayGreater_trans {arrival middle other : ℚ} (h : ¬delayGreater arrival middle minMax = true)
    (h' : delayGreater other middle minMax = true) : ¬delayGreater arrival other minMax = true :=
  fun worst => h (delayGreater_chain worst h')

end Slacks

section Runs
variable {s : ClkArrivals} {visitor : ArrivalVisitor} {offers seen : ArrivalMap} {tag : Tag} {arrival : ℚ}

abbrev Better (minMax : MinMax) (arrival other : ℚ) : Bool := delayGreater arrival other minMax

theorem tagMatchArrival_eq (c : Bool) (map : ArrivalMap) (tag : Tag) :
    tagMatchArrival c map tag = KeyedTables.find? (matchKey c) map tag := by
  have same : (fun entry : Tag × ℚ => tagMatch c entry.1 tag) = fun entry =>
    decide (matchKey c entry.1 = matchKey c tag) := by
    ext entry
    rw [Bool.eq_iff_iff,tagMatch_iff,decide_eq_true_iff]
  rw [tagMatchArrival,same,KeyedTables.find?]

theorem deleteArrival_eq (c : Bool) (map : ArrivalMap) (tag : Tag) :
    deleteArrival c map tag = KeyedTables.delete (matchKey c) map tag := by
  have same : (fun entry : Tag × ℚ => tagMatch c entry.1 tag) = fun entry =>
    decide (matchKey c entry.1 = matchKey c tag) := by
    ext entry
    rw [Bool.eq_iff_iff,tagMatch_iff,decide_eq_true_iff]
  rw [deleteArrival,same,KeyedTables.delete]

theorem offer_eq (c : Bool) (map : ArrivalMap) (tag : Tag) (arrival : ℚ) (minMax : MinMax) :
    (if (tagMatchArrival c map tag).all fun entry => delayGreater arrival entry.2 minMax then
      setMatchArrival map tag (tagMatchArrival c map tag) arrival else map) =
      KeyedTables.offer (matchKey c) (Better minMax) map tag arrival := by
  rw [tagMatchArrival_eq,KeyedTables.offer]
  cases KeyedTables.find? (matchKey c) map tag <;> rfl

theorem accepts_iff {c : Bool} {map : ArrivalMap} {minMax : MinMax} (keyed : KeyedTables.Keyed (matchKey c) map) :
    ((tagMatchArrival c map tag).all fun entry => delayGreater arrival entry.2 minMax) = true ↔
      KeyedTables.Accepts (matchKey c) (Better minMax) map tag arrival := by
  rw [tagMatchArrival_eq]
  cases found : KeyedTables.find? (matchKey c) map tag with
  | none =>
    have apart := KeyedTables.find?_none.mp found
    simp only [Option.all_none,true_iff]
    intro entry mem same
    exact absurd same (apart entry mem)
  | some matched =>
    obtain ⟨mem, same⟩ := KeyedTables.find?_some found
    rw [Option.all_some]
    constructor
    · intro beats entry mem' same'
      rw [keyed.eq mem' mem (same'.trans same.symm)]
      exact beats
    · intro accepts
      exact accepts matched mem same

/-- Paths that are pruned by their credits go into the second table also. -/
def ArrivalVisitor.tells (visitor : ArrivalVisitor) (tag : Tag) : Bool :=
  visitor.crprActive && !visitor.hasFaninOne && tag.clkInfo.hasCrprClkPin && !tag.attributes.isClk

theorem visitFromToPath_eq (keyed : KeyedTables.Keyed (matchKey visitor.crprActive) visitor.tagBldr) (tag : Tag)
    (arrival : ℚ) (minMax : MinMax) : ∃ noCrpr, visitor.visitFromToPath tag arrival minMax =
        { visitor with
          tagBldr := KeyedTables.offer (matchKey visitor.crprActive) (Better minMax) visitor.tagBldr tag arrival
          tagBldrNoCrpr := noCrpr } ∧
      (KeyedTables.Accepts (matchKey visitor.crprActive) (Better minMax) visitor.tagBldr tag arrival ∧
        visitor.tells tag = true ∧
          noCrpr = KeyedTables.offer (matchKey false) (Better minMax) visitor.tagBldrNoCrpr tag arrival ∨
        ¬(KeyedTables.Accepts (matchKey visitor.crprActive) (Better minMax) visitor.tagBldr tag arrival ∧
          visitor.tells tag = true) ∧ noCrpr = visitor.tagBldrNoCrpr) := by
  rw [← offer_eq,← accepts_iff keyed,← offer_eq,ArrivalVisitor.visitFromToPath]
  split
  case isFalse refused => exact ⟨_, rfl, Or.inr ⟨fun h => refused h.1, rfl⟩⟩
  case isTrue accepted =>
    by_cases tells : visitor.tells tag = true
    · refine ⟨_, ?_, Or.inl ⟨accepted, tells, rfl⟩⟩
      rw [ArrivalVisitor.tells] at tells
      simp only [tells,if_true]
      split <;> rfl
    · refine ⟨_, ?_, Or.inr ⟨fun h => tells h.2, rfl⟩⟩
      rw [ArrivalVisitor.tells] at tells
      simp only [tells]
      rfl

structure Visited (s : ClkArrivals) (visitor : ArrivalVisitor) (seen : ArrivalMap) : Prop where
  keyed : KeyedTables.Keyed (matchKey visitor.crprActive) visitor.tagBldr
  offered : ∀ entry ∈ visitor.tagBldr, entry ∈ seen
  covered : ∀ offer ∈ seen, ∃ entry ∈ visitor.tagBldr,
    matchKey visitor.crprActive entry.1 = matchKey visitor.crprActive offer.1 ∧
      ¬delayGreater offer.2 entry.2 (s.tagMinMax offer.1) = true
  keyedNoCrpr : KeyedTables.Keyed (matchKey false) visitor.tagBldrNoCrpr
  noCrpr : ∀ entry ∈ visitor.tagBldrNoCrpr, entry ∈ visitor.tagBldr
  tells : ∀ entry ∈ visitor.tagBldrNoCrpr, visitor.tells entry.1 = true

theorem visited_nil (s : ClkArrivals) (visitor : ArrivalVisitor) :
    Visited s { visitor with tagBldr := [], tagBldrNoCrpr := [] } [] := by
  constructor <;> simp [KeyedTables.Keyed]

theorem tells_eq {tag1 tag2 : Tag} (same : matchKey visitor.crprActive tag1 = matchKey visitor.crprActive tag2) :
    visitor.tells tag1 = visitor.tells tag2 := by
  rw [ArrivalVisitor.tells,ArrivalVisitor.tells,isClk_eq same]
  cases active : visitor.crprActive with
  | false => rfl
  | true => rw [hasCrprClkPin_eq (active ▸ same)]

theorem covers_offer {table : ArrivalMap} (keyed : KeyedTables.Keyed (matchKey c) table) (offer : Tag × ℚ)
    {entry : Tag × ℚ} (mem : entry ∈ table) (same : matchKey c entry.1 = matchKey c offer.1)
    (covers : ¬delayGreater offer.2 entry.2 (s.tagMinMax offer.1) = true) (tag : Tag) (arrival : ℚ) :
    ∃ entry ∈ KeyedTables.offer (matchKey c) (Better (s.tagMinMax tag)) table tag arrival,
      matchKey c entry.1 = matchKey c offer.1 ∧ ¬delayGreater offer.2 entry.2 (s.tagMinMax offer.1) = true := by
  obtain stays | ⟨beaten, taken⟩ := keyed.offer_cases (Better (s.tagMinMax tag)) tag arrival mem
  · exact ⟨entry, stays, same, covers⟩
  · have minMax := tagMinMax_eq s (same.symm.trans beaten.1)
    refine ⟨(tag, arrival), taken, beaten.1.symm.trans same, ?_⟩
    rw [minMax] at covers ⊢
    exact delayGreater_trans covers beaten.2

theorem Visited.step (h : Visited s visitor seen) (tag : Tag) (arrival : ℚ) :
    Visited s (visitor.visitFromToPath tag arrival (s.tagMinMax tag)) (seen ++ [(tag, arrival)]) := by
  obtain ⟨noCrpr, eq, noCrprEq⟩ := visitFromToPath_eq h.keyed tag arrival (s.tagMinMax tag)
  rw [eq]
  constructor
  case keyed => exact h.keyed.offer tag arrival
  case offered =>
    intro entry mem
    obtain ⟨mem, _⟩ | ⟨rfl, _⟩ := h.keyed.mem_offer.mp mem
    · exact List.mem_append_left _ (h.offered entry mem)
    · exact List.mem_append_right _ (List.mem_singleton_self _)
  case covered =>
    intro offer mem
    obtain mem | here := List.mem_append.mp mem
    · obtain ⟨entry, mem', same, covers⟩ := h.covered offer mem
      exact covers_offer h.keyed offer mem' same covers tag arrival
    · rw [List.mem_singleton.mp here]
      exact h.keyed.exists_offer tag delayGreater_irrefl
  case keyedNoCrpr =>
    obtain ⟨_, _, rfl⟩ | ⟨_, rfl⟩ := noCrprEq
    · exact h.keyedNoCrpr.offer tag arrival
    · exact h.keyedNoCrpr
  case noCrpr =>
    intro entry mem
    obtain ⟨accepted, _, rfl⟩ | ⟨untold, rfl⟩ := noCrprEq
    · apply h.keyed.mem_offer.mpr
      obtain ⟨mem, unbeaten⟩ | ⟨rfl, _⟩ := h.keyedNoCrpr.mem_offer.mp mem
      · exact Or.inl ⟨h.noCrpr entry mem, fun beaten => unbeaten ⟨matchKey_weaken beaten.1, beaten.2⟩⟩
      · exact Or.inr ⟨rfl, accepted⟩
    · -- an entry of both tables is only beaten by an offer that both take
      obtain stays | ⟨beaten, _⟩ := h.keyed.offer_cases (Better (s.tagMinMax tag)) tag arrival (h.noCrpr entry mem)
      · exact stays
      · refine absurd ⟨h.keyed.accepts (h.noCrpr entry mem) beaten, ?_⟩ untold
        rw [← tells_eq beaten.1]
        exact h.tells entry mem
  case tells =>
    intro entry mem
    obtain ⟨_, tells, rfl⟩ | ⟨_, rfl⟩ := noCrprEq
    · obtain ⟨mem, _⟩ | ⟨rfl, _⟩ := h.keyedNoCrpr.mem_offer.mp mem
      · exact h.tells entry mem
      · exact tells
    · exact h.tells entry mem

theorem Visited.run (h : Visited s visitor seen) (offers : ArrivalMap) :
    Visited s (offers.foldl (fun visitor offer =>
    visitor.visitFromToPath offer.1 offer.2 (s.tagMinMax offer.1)) visitor)
      (seen ++ offers) := by
  induction offers generalizing visitor seen with
  | nil => simpa using h
  | cons offer offers ih => simpa using ih (h.step offer.1 offer.2)

theorem visitFaninPaths_visited (s : ClkArrivals) (visitor : ArrivalVisitor) (offers : ArrivalMap) :
    Visited s (visitor.visitFaninPaths s offers) offers :=
  (visited_nil s visitor).run offers

theorem visitFromToPath_crprActive (visitor : ArrivalVisitor) (tag : Tag) (arrival : ℚ) (minMax : MinMax) :
    (visitor.visitFromToPath tag arrival minMax).crprActive = visitor.crprActive := by
  simp only [ArrivalVisitor.visitFromToPath]
  split
  case isTrue =>
    split
    case isTrue => split <;> rfl
    case isFalse => rfl
  case isFalse => rfl

theorem visitFaninPaths_crprActive (s : ClkArrivals) (visitor : ArrivalVisitor) (offers : ArrivalMap) :
    (visitor.visitFaninPaths s offers).crprActive = visitor.crprActive := by
  rw [ArrivalVisitor.visitFaninPaths]
  refine List.foldlRecOn (motive := fun visited : ArrivalVisitor => visited.crprActive = visitor.crprActive)
    offers _ rfl ?_
  intro visited active offer _
  rw [visitFromToPath_crprActive,active]

theorem maxCrpr_nonneg (s : ClkArrivals) (crprActive : Bool) (clkInfo : ClkInfo) :
    0 ≤ maxCrpr s crprActive clkInfo := by
  rw [maxCrpr]
  split
  case h_1 => exact le_rfl
  case h_2 path _ =>
    split
    case h_1 => exact le_rfl
    case h_2 tag _ =>
      split
      case h_1 => exact le_rfl
      case h_2 => exact abs_nonneg _

/-- When an arrival is pruned, the one of its path in the second table has less slack, even with all the credit that it
can have. -/
theorem exists_worst_of_prunes {entry : Tag × ℚ} (pruned : visitor.prunes s entry = true) (required : ℚ) :
    ∃ worst ∈ visitor.tagBldrNoCrpr, matchKey false worst.1 = matchKey false entry.1 ∧
      slack required (maxCrpr s visitor.crprActive worst.1.clkInfo) worst.2 (s.tagMinMax entry.1) <
        slack required 0 entry.2 (s.tagMinMax entry.1) := by
  rw [ArrivalVisitor.prunes,Bool.and_eq_true,tagMatchArrival_eq] at pruned
  replace pruned := pruned.2
  cases found : KeyedTables.find? (matchKey false) visitor.tagBldrNoCrpr entry.1 with
  | none => simp [found] at pruned
  | some worst =>
    rw [found] at pruned
    obtain ⟨mem, same⟩ := KeyedTables.find?_some found
    refine ⟨worst, mem, same, ?_⟩
    have less := slack_lt_of_greater pruned required 0
    cases minMax : s.tagMinMax entry.1 <;> simp only [minMax,slack] at less ⊢ <;> linarith

theorem mem_pruneCrprArrivals (keyed : KeyedTables.Keyed (matchKey visitor.crprActive) visitor.tagBldr)
    {entry : Tag × ℚ} :
    entry ∈ visitor.pruneCrprArrivals s ↔ entry ∈ visitor.tagBldr ∧ visitor.prunes s entry = false := by
  rw [ArrivalVisitor.pruneCrprArrivals]
  simp only [deleteArrival_eq]
  exact keyed.mem_foldl_delete_self (visitor.prunes s)

end Runs

section Worst
variable {s : ClkArrivals} {visitor : ArrivalVisitor} {offers : ArrivalMap}

def ofClass (tag : Tag) (arrivals : ArrivalMap) : ArrivalMap :=
  arrivals.filter fun arrival => tagMatch false tag arrival.1

def worstSlack (s : ClkArrivals) (required : ℚ) (credit : Tag → ℚ) (arrivals : ArrivalMap) : WithTop ℚ :=
  (arrivals.map fun arrival => slack required (credit arrival.1) arrival.2 (s.tagMinMax arrival.1)).minimum

/-- Credits that the checks of the clocks can give; one is read for all tags that match, as only one of them is kept. -/
structure Credits (s : ClkArrivals) (crprActive : Bool) (offers : ArrivalMap) (credit : Tag → ℚ) : Prop where
  nonneg : ∀ offer ∈ offers, 0 ≤ credit offer.1
  bounded : ∀ offer ∈ offers, credit offer.1 ≤ maxCrpr s crprActive offer.1.clkInfo
  agrees : ∀ offer ∈ offers, ∀ other ∈ offers, tagMatch crprActive offer.1 other.1 = true →
    credit offer.1 = credit other.1

theorem mem_visit_offered (s : ClkArrivals) (visitor : ArrivalVisitor) {entry : Tag × ℚ}
    (mem : entry ∈ visitor.visit s offers) :
    entry ∈ offers := by
  have visited := visitFaninPaths_visited s visitor offers
  apply visited.offered
  rw [ArrivalVisitor.visit] at mem
  split at mem
  case isTrue => exact ((mem_pruneCrprArrivals visited.keyed).mp mem).1
  case isFalse => exact mem

/-- An entry is kept or has an entry of its path beside it that has less slack and is kept. -/
theorem Visited.kept (h : Visited s visitor offers) {credit : Tag → ℚ}
    (credits : Credits s visitor.crprActive offers credit) (required : ℚ) {entry : Tag × ℚ}
    (mem : entry ∈ visitor.tagBldr) :
    ∃ kept ∈ visitor.pruneCrprArrivals s, matchKey false kept.1 = matchKey false entry.1 ∧
      slack required (credit kept.1) kept.2 (s.tagMinMax entry.1) ≤ slack required (credit entry.1) entry.2
        (s.tagMinMax entry.1) := by
  cases pruned : visitor.prunes s entry with
  | false => exact ⟨entry, (mem_pruneCrprArrivals h.keyed).mpr ⟨mem, pruned⟩, rfl, le_rfl⟩
  | true =>
    obtain ⟨worst, worstMem, same, less⟩ := exists_worst_of_prunes pruned required
    have offered := h.offered worst (h.noCrpr worst worstMem)
    -- the entry of the second table would have to lose to itself
    have stays : visitor.prunes s worst = false := by
      refine Bool.eq_false_iff.mpr fun pruned' => ?_
      obtain ⟨other, otherMem, same', less'⟩ := exists_worst_of_prunes pruned' required
      rw [h.keyedNoCrpr.eq otherMem worstMem same'] at less'
      exact absurd (slack_le_slack (maxCrpr_nonneg s _ _) required worst.2 _) (not_le.mpr less')
    refine ⟨worst, (mem_pruneCrprArrivals h.keyed).mpr ⟨h.noCrpr worst worstMem, stays⟩, same, ?_⟩
    calc slack required (credit worst.1) worst.2 (s.tagMinMax entry.1)
      _ ≤ slack required (maxCrpr s visitor.crprActive worst.1.clkInfo) worst.2 (s.tagMinMax entry.1) :=
        slack_le_slack (credits.bounded worst offered) _ _ _
      _ ≤ slack required 0 entry.2 (s.tagMinMax entry.1) := less.le
      _ ≤ slack required (credit entry.1) entry.2 (s.tagMinMax entry.1) :=
        slack_le_slack (credits.nonneg entry (h.offered entry mem)) _ _ _

/-- An offer is not worse than one that its tag matches, and what is kept of its path has no more slack than that
one. -/
theorem visit_covers (s : ClkArrivals) (visitor : ArrivalVisitor) {credit : Tag → ℚ}
    (credits : Credits s visitor.crprActive offers credit) (required : ℚ) {offer : Tag × ℚ} (mem : offer ∈ offers) :
    ∃ entry ∈ offers, tagMatch visitor.crprActive offer.1 entry.1 = true ∧
      ¬delayGreater offer.2 entry.2 (s.tagMinMax offer.1) = true ∧
      ∃ kept ∈ visitor.visit s offers, matchKey false kept.1 = matchKey false offer.1 ∧
        slack required (credit kept.1) kept.2 (s.tagMinMax offer.1) ≤
          slack required (credit offer.1) entry.2 (s.tagMinMax offer.1) := by
  have visited := visitFaninPaths_visited s visitor offers
  have active : (visitor.visitFaninPaths s offers).crprActive = visitor.crprActive :=
    visitFaninPaths_crprActive s visitor offers
  obtain ⟨entry, inside, same, covers⟩ := visited.covered offer mem
  have offered := visited.offered entry inside
  have matched : tagMatch visitor.crprActive offer.1 entry.1 = true := active ▸ tagMatch_iff.mpr same.symm
  have credited : credit offer.1 = credit entry.1 := credits.agrees offer mem entry offered matched
  have path := matchKey_weaken same
  refine ⟨entry, offered, matched, covers, ?_⟩
  rw [ArrivalVisitor.visit]
  split
  case isTrue =>
    obtain ⟨kept, keptMem, same', le⟩ := visited.kept (active.symm ▸ credits) required inside
    rw [tagMinMax_eq s path,← credited] at le
    exact ⟨kept, keptMem, same'.trans path, le⟩
  case isFalse => exact ⟨entry, inside, path, by rw [credited]⟩

/-- Offers for one entry of the table are told apart by their arrivals when they are not equal. -/
def Apart (crprActive : Bool) (offers : ArrivalMap) : Prop :=
  ∀ offer ∈ offers, ∀ other ∈ offers, tagMatch crprActive offer.1 other.1 = true → fuzzyEqual offer.2 other.2 = true →
    offer.2 = other.2

theorem worstSlack_offered_le (s : ClkArrivals) (visitor : ArrivalVisitor) (offers : ArrivalMap) (required : ℚ)
    (credit : Tag → ℚ) (tag : Tag) : worstSlack s required credit (ofClass tag offers) ≤
      worstSlack s required credit (ofClass tag (visitor.visit s offers)) := by
  apply List.le_minimum_of_forall_le
  intro value mem
  obtain ⟨kept, inClass, rfl⟩ := List.mem_map.mp mem
  obtain ⟨kept', same⟩ := List.mem_filter.mp inClass
  have offered : kept ∈ ofClass tag offers := List.mem_filter.mpr ⟨mem_visit_offered s visitor kept', same⟩
  exact List.minimum_le_of_mem' (List.mem_map_of_mem (f := fun arrival => slack required (credit arrival.1) arrival.2
    (s.tagMinMax arrival.1)) offered)

/-- What is kept of a path has no more slack than an arrival that is the offered one up to the tolerance, or the offered
one itself where the arrivals are told apart. -/
theorem exists_kept (s : ClkArrivals) (visitor : ArrivalVisitor) {credit : Tag → ℚ}
    (credits : Credits s visitor.crprActive offers credit) (required : ℚ) {tag : Tag} {offer : Tag × ℚ}
    (mem : offer ∈ ofClass tag offers) :
    ∃ arrival, fuzzyEqual offer.2 arrival = true ∧ (Apart visitor.crprActive offers → arrival = offer.2) ∧
      worstSlack s required credit (ofClass tag (visitor.visit s offers)) ≤
        slack required (credit offer.1) arrival (s.tagMinMax offer.1) := by
  obtain ⟨offered, same⟩ := List.mem_filter.mp mem
  obtain ⟨entry, entryOffered, matched, covers, kept, keptMem, same', le⟩ :=
    visit_covers s visitor credits required offered
  have inside : kept ∈ ofClass tag (visitor.visit s offers) :=
    List.mem_filter.mpr ⟨keptMem, tagMatch_iff.mpr ((tagMatch_iff.mp same).trans same'.symm)⟩
  have worst : worstSlack s required credit (ofClass tag (visitor.visit s offers)) ≤
      slack required (credit offer.1) entry.2 (s.tagMinMax offer.1) := by
    apply (List.minimum_le_of_mem' (List.mem_map_of_mem inside)).trans
    rw [tagMinMax_eq s same']
    exact WithTop.coe_le_coe.mpr le
  obtain less | equal := slack_le_or_equal covers required (credit offer.1)
  · exact ⟨offer.2, fuzzyEqual_self _, fun _ => rfl, worst.trans (WithTop.coe_le_coe.mpr less)⟩
  · exact ⟨entry.2, equal, fun apart => (apart offer offered entry entryOffered matched equal).symm, worst⟩

/-- For each path the worst slack of what is kept is that of all that was offered, up to the tolerance of the
comparison. -/
theorem visit_worst (s : ClkArrivals) (visitor : ArrivalVisitor) (offers : ArrivalMap) (required : ℚ) (credit : Tag → ℚ)
    (credits : Credits s visitor.crprActive offers credit) (tag : Tag) :
    worstSlack s required credit (ofClass tag offers) ≤
    worstSlack s required credit (ofClass tag (visitor.visit s offers)) ∧
      (∀ offer ∈ ofClass tag offers, ∃ arrival, fuzzyEqual offer.2 arrival = true ∧
        worstSlack s required credit (ofClass tag (visitor.visit s offers)) ≤
          slack required (credit offer.1) arrival (s.tagMinMax offer.1)) ∧
      (Apart visitor.crprActive offers →
        worstSlack s required credit (ofClass tag (visitor.visit s offers)) =
          worstSlack s required credit (ofClass tag offers)) := by
  have offered := worstSlack_offered_le s visitor offers required credit tag
  refine ⟨offered, ?_, ?_⟩
  · intro offer mem
    obtain ⟨arrival, equal, _, le⟩ := exists_kept s visitor credits required mem
    exact ⟨arrival, equal, le⟩
  · intro apart
    refine le_antisymm ?_ offered
    apply List.le_minimum_of_forall_le
    intro value mem
    obtain ⟨offer, inClass, rfl⟩ := List.mem_map.mp mem
    obtain ⟨arrival, _, same, le⟩ := exists_kept s visitor credits required inClass
    rwa [same apart] at le

/-! Clock arrivals at two pins, late ones at the first analysis point and early ones at the second. -/
def clkTag (index rfIndex pathAPIndex : ℕ) : Tag where
  id := index
  index := index
  attributes := ⟨rfIndex, pathAPIndex, true, none, false⟩
  clkInfo := ⟨0, ⟨some 0, pathAPIndex, none, none, none, 0, 0, true, false, none⟩, none⟩
  states := ∅
  isFilter := false
  isLoop := false

/-- A late data path that is launched through a vertex of the clock. -/
def dataTag (index vertexId clkTagIndex : ℕ) : Tag where
  id := index
  index := index
  attributes := ⟨0, 0, false, none, false⟩
  clkInfo := ⟨index, ⟨some 0, 0, none, none, none, 0, 0, true, false, none⟩, some ⟨vertexId, clkTagIndex, clkTagIndex⟩⟩
  states := ∅
  isFilter := false
  isLoop := false

/-- The late arrivals are 1 and 6, the early ones 1. -/
def twoEdges : ClkArrivals where
  tag index := if index < 4 then some (clkTag index (index % 2) (index / 2)) else none
  arrivals _ := [(clkTag 0 0 0, 1), (clkTag 1 1 0, 6), (clkTag 2 0 1, 1), (clkTag 3 1 1, 1)]
  pathMinMax index := if index = 0 then .max else .min
  tgtClkAnalysisPt index := 1 - index
  isFalse _ := false

def pruningVisitor : ArrivalVisitor := ⟨true, true, false, false, [], []⟩

def twoPins : ArrivalMap := [(dataTag 4 1 1, 10), (dataTag 5 2 0, 1)]

example : pruningVisitor.visit twoEdges twoPins = [(dataTag 4 1 1, 10)] := by decide +kernel

theorem visit_worst_twoPins : worstSlack twoEdges 20 (fun tag => if tag.id = 4 then 5 else 0)
      (ofClass (dataTag 4 1 1) (pruningVisitor.visit twoEdges twoPins)) =
    worstSlack twoEdges 20 (fun tag => if tag.id = 4 then 5 else 0) (ofClass (dataTag 4 1 1) twoPins) :=
  (visit_worst twoEdges pruningVisitor twoPins 20 _
    ⟨by decide +kernel, by decide +kernel, by decide +kernel⟩ (dataTag 4 1 1)).2.2 (by unfold Apart; decide +kernel)

/-- Two launching clock paths through one pin, of which the later arrival has a credit of 5. -/
def onePin : ArrivalMap := [(dataTag 4 1 0, 10), (dataTag 5 1 1, 11)]

/-- The one that is kept hides the other, which has the least slack. -/
theorem visit_hides : (∀ offer ∈ onePin, 0 ≤ (if offer.1.id = 5 then 5 else 0 : ℚ) ∧
      (if offer.1.id = 5 then 5 else 0) ≤ maxCrpr twoEdges pruningVisitor.crprActive offer.1.clkInfo) ∧
    worstSlack twoEdges 20 (fun tag => if tag.id = 5 then 5 else 0)
        (ofClass (dataTag 4 1 0) (pruningVisitor.visit twoEdges onePin)) = (14 : ℚ) ∧
      worstSlack twoEdges 20 (fun tag => if tag.id = 5 then 5 else 0) (ofClass (dataTag 4 1 0) onePin) = (10 : ℚ) := by
  decide +kernel

end Worst
end Pruning
end GTPower.Search
