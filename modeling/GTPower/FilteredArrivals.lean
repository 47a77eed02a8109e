import Mathlib.Data.Finset.Basic
import Mathlib.Data.Finset.Filter
import Mathlib.Algebra.Order.Ring.Nat
import Mathlib.Data.Rat.Defs
import GTPower.SlotTable

/-! Tags, the clock informations they refer to and the tag groups of the vertices, as a search with a filter makes them
and as the results of the filter are deleted. An object carries a number that no other one has, in place of its
address. -/
namespace GTPower.Search

/-- Exceptions of the constraints, those of loops, and the filters of searches. -/
inductive ExceptionPath
  | sdc (id : ℕ)
  | loop (id : ℕ)
  | filter (id : ℕ)
deriving DecidableEq

namespace ExceptionPath

def isLoop : ExceptionPath → Bool
  | loop _ => true
  | _ => false

/-- The filter of a search; the source filters of generated clocks count as constraints. -/
def isFilter : ExceptionPath → Bool
  | filter _ => true
  | _ => false

end ExceptionPath

structure ExceptionState where
  exception : ExceptionPath
  nextThru : Option ℕ
deriving DecidableEq

/-- A path by its vertex and the index of its tag; `tag` is the number of that tag and only states what the index stood
for. -/
structure PathVertexRep where
  vertexId : ℕ
  tagIndex : ℕ
  tag : ℕ
deriving DecidableEq

namespace PathVertexRep

def equal (path1 path2 : PathVertexRep) : Bool := path1.vertexId = path2.vertexId && path1.tagIndex = path2.tagIndex

end PathVertexRep

/-- What is known of a clock besides the path that is common to launch and capture. -/
structure ClkAttributes where
  clkEdge : Option ℕ
  pathAPIndex : ℕ
  clkSrc : Option ℕ
  genClkSrc : Option ℕ
  uncertainties : Option (Option ℚ × Option ℚ)
  insertion : ℚ
  latency : ℚ
  isPropagated : Bool
  isGenClkSrcPath : Bool
  pulseClkSense : Option Bool
deriving DecidableEq

structure ClkInfo where
  id : ℕ
  attributes : ClkAttributes
  crprClkPath : Option PathVertexRep
deriving DecidableEq

structure TagAttributes where
  rfIndex : ℕ
  pathAPIndex : ℕ
  isClk : Bool
  inputDelay : Option ℕ
  isSegmentStart : Bool
deriving DecidableEq

structure Tag where
  id : ℕ
  index : ℕ
  attributes : TagAttributes
  clkInfo : ClkInfo
  states : Finset ExceptionState
  isFilter : Bool
  isLoop : Bool
deriving DecidableEq

/-- The tags of an arrival map; the places of their arrivals are left out. -/
structure TagGroup where
  index : ℕ
  arrivalMap : List Tag
  hasClkTag : Bool
  hasGenclkSrcTag : Bool
  hasFilterTag : Bool
  hasLoopTag : Bool

structure TagGroupBldr where
  arrivalMap : List Tag
  hasClkTag : Bool
  hasGenclkSrcTag : Bool
  hasFilterTag : Bool
  hasLoopTag : Bool

end GTPower.Search

namespace GTPower
open Search

/-- `tagGroupIndex` is a field of the vertices. `nextId` numbers the objects that are made, `filter` is the exception of
the filter. -/
structure Search where
  clkInfoSet : List ClkInfo
  tags : SlotTable Tag
  tagGroups : SlotTable TagGroup
  tagGroupIndex : ℕ → Option ℕ
  filteredArrivals : Finset ℕ
  filter : Option Search.ExceptionPath
  nextId : ℕ

namespace Search

def initial : Search := ⟨[], .empty, .empty, fun _ => none, ∅, none, 0⟩

section Tags
variable (crprActive : Bool)

def clkInfoEqual (attributes : ClkAttributes) (crprClkPath : Option PathVertexRep) (clkInfo : ClkInfo) : Bool :=
  clkInfo.attributes = attributes &&
    (!crprActive || match clkInfo.crprClkPath, crprClkPath with
      | some path1, some path2 => path1.equal path2
      | none, none => true
      | _, _ => false)

def findClkInfo (st : Search) (attributes : ClkAttributes) (crprClkPath : Option PathVertexRep) : Search × ClkInfo :=
  match st.clkInfoSet.find? (clkInfoEqual crprActive attributes crprClkPath) with
  | some clkInfo => (st, clkInfo)
  | none =>
    let clkInfo : ClkInfo := ⟨st.nextId, attributes, crprClkPath⟩
    ({ st with clkInfoSet := st.clkInfoSet ++ [clkInfo], nextId := st.nextId + 1 }, clkInfo)

/-- An index stands for the tag in its slot; the slot of a path is never empty in the runs considered. -/
def refsFilter (st : Search) (clkInfo : ClkInfo) : Bool :=
  match clkInfo.crprClkPath with
  | none => false
  | some path => (st.tags.entry path.tagIndex).any (·.isFilter)

def tagEqual (attributes : TagAttributes) (clkInfo : ClkInfo) (states : Finset ExceptionState) (tag : Tag) : Bool :=
  tag.attributes = attributes && tag.clkInfo = clkInfo && tag.states = states

/-- Making a tag takes the flags from its states. -/
def makeTag (st : Search) (attributes : TagAttributes) (clkInfo : ClkInfo) (states : Finset ExceptionState) : Tag :=
  ⟨st.nextId, st.tags.index, attributes, clkInfo, states,
    decide (states.filter fun state => some state.exception = st.filter).Nonempty,
    decide (states.filter fun state => state.exception.isLoop).Nonempty⟩

def tagIndexMax : ℕ := 2 ^ 32 - 1

/-- The last index is a critical error. -/
def findTag (st : Search) (attributes : TagAttributes) (clkInfo : ClkInfo) (states : Finset ExceptionState) :
    Option (Search × Tag) :=
  match st.tags.find? (tagEqual attributes clkInfo states) with
  | some tag => some (st, tag)
  | none =>
    let tag := st.makeTag attributes clkInfo states
    let tags := st.tags.put tag
    if tags.next = tagIndexMax then none else some ({ st with tags := tags, nextId := st.nextId + 1 }, tag)

/-- Tags of one group that compare as this stand for one path. -/
def tagMatch (tag1 tag2 : Tag) : Bool :=
  tag1 = tag2 ||
    (tag1.clkInfo.attributes.clkEdge = tag2.clkInfo.attributes.clkEdge && tag1.attributes.rfIndex =
      tag2.attributes.rfIndex &&
      tag1.attributes.pathAPIndex = tag2.attributes.pathAPIndex && tag1.attributes.isClk = tag2.attributes.isClk &&
      tag1.attributes.isSegmentStart = tag2.attributes.isSegmentStart &&
      tag1.clkInfo.attributes.isGenClkSrcPath = tag2.clkInfo.attributes.isGenClkSrcPath &&
      (!crprActive || tag1.clkInfo.crprClkPath.map (·.vertexId) = tag2.clkInfo.crprClkPath.map (·.vertexId)) &&
      tag1.states = tag2.states)

end Tags

namespace TagGroupBldr
variable (crprActive : Bool)

def init : TagGroupBldr := ⟨[], false, false, false, false⟩

def tagMatchArrival (bldr : TagGroupBldr) (tag : Tag) : Option Tag := bldr.arrivalMap.find? (tagMatch crprActive tag)

/-- A key is erased with the entry that matches it. -/
def erase (bldr : TagGroupBldr) (tag : Tag) : List Tag := bldr.arrivalMap.eraseP (tagMatch crprActive tag)

/-- The flags are only raised for a tag that has no match. -/
def setMatchArrival (st : Search) (bldr : TagGroupBldr) (tag : Tag) (tagMatch : Option Tag) : TagGroupBldr :=
  match tagMatch with
  | some matched => if matched ≠ tag then { bldr with arrivalMap := bldr.erase crprActive matched ++ [tag] } else bldr
  | none =>
    { arrivalMap := bldr.arrivalMap ++ [tag]
      hasClkTag := bldr.hasClkTag || tag.attributes.isClk
      hasGenclkSrcTag := bldr.hasGenclkSrcTag || tag.clkInfo.attributes.isGenClkSrcPath
      hasFilterTag := bldr.hasFilterTag || (tag.isFilter || st.refsFilter tag.clkInfo)
      hasLoopTag := bldr.hasLoopTag || tag.isLoop }

def setArrival (st : Search) (bldr : TagGroupBldr) (tag : Tag) : TagGroupBldr :=
  bldr.setMatchArrival crprActive st tag (bldr.tagMatchArrival crprActive tag)

def deleteArrival (bldr : TagGroupBldr) (tag : Tag) : TagGroupBldr :=
  { bldr with arrivalMap := bldr.erase crprActive tag }

def makeTagGroup (bldr : TagGroupBldr) (index : ℕ) : TagGroup :=
  ⟨index, bldr.arrivalMap, bldr.hasClkTag, bldr.hasGenclkSrcTag, bldr.hasFilterTag, bldr.hasLoopTag⟩

end TagGroupBldr

section Groups
variable (crprActive : Bool)

/-- Every tag is found in the other map and is the very tag that is found. -/
def arrivalMapEqual (arrivalMap1 arrivalMap2 : List Tag) : Bool :=
  arrivalMap1.length = arrivalMap2.length &&
    arrivalMap1.all fun tag1 => arrivalMap2.find? (tagMatch crprActive tag1) = some tag1

def tagGroupIndexMax : ℕ := 2 ^ 24 - 1

def findTagGroup (st : Search) (bldr : TagGroupBldr) : Option (Search × TagGroup) :=
  match st.tagGroups.find? (fun group => arrivalMapEqual crprActive bldr.arrivalMap group.arrivalMap) with
  | some group => some (st, group)
  | none =>
    let group := bldr.makeTagGroup st.tagGroups.index
    let tagGroups := st.tagGroups.put group
    if tagGroupIndexMax < tagGroups.next then none else some ({ st with tagGroups := tagGroups }, group)

def deletePaths (st : Search) (vertex : ℕ) : Search :=
  { st with tagGroupIndex := Function.update st.tagGroupIndex vertex none }

def setVertexArrivals (st : Search) (vertex : ℕ) (bldr : TagGroupBldr) : Option Search :=
  if bldr.arrivalMap = [] then some (st.deletePaths vertex)
  else (st.findTagGroup crprActive bldr).map fun (st, group) =>
    { st with
      tagGroupIndex := Function.update st.tagGroupIndex vertex (some group.index)
      filteredArrivals := if group.hasFilterTag then insert vertex st.filteredArrivals else st.filteredArrivals }

end Groups

section Filter

/-- The filter is a new exception; the vertices of the last filter are forgotten. -/
def findFilteredArrivals (st : Search) : Search :=
  { st with filter := some (.filter st.nextId), nextId := st.nextId + 1, filteredArrivals := ∅ }

def deleteFilterTagGroups (st : Search) : Search := { st with tagGroups := st.tagGroups.deleteAll (·.hasFilterTag) }

def deleteFilterClkInfos (st : Search) : Search :=
  { st with clkInfoSet := st.clkInfoSet.filter fun clkInfo => !st.refsFilter clkInfo }

def deleteFilterTags (st : Search) : Search := { st with tags := st.tags.deleteAll (·.isFilter) }

def deleteFilteredArrivals (st : Search) : Search :=
  if st.filter = none then st
  else
    let st := { st with
      tagGroupIndex := fun vertex => if vertex ∈ st.filteredArrivals then none else st.tagGroupIndex vertex
      filteredArrivals := ∅ }
    { st.deleteFilterTagGroups.deleteFilterClkInfos.deleteFilterTags with filter := none }

end Filter

/-- Arrivals that are set and pruned while a vertex is visited, by the indices of their tags. -/
inductive ArrivalStep
  | setArrival (tagIndex : ℕ)
  | deleteArrival (tagIndex : ℕ)

/-- What a search does, in any order: the visits of many vertices can be under way at the same time. -/
inductive Step
  | findFilteredArrivals
  | deleteFilteredArrivals
  | findClkInfo (attributes : ClkAttributes) (crprClkPath : Option (ℕ × ℕ))
  | findTag (attributes : TagAttributes) (clkInfo : ClkInfo) (states : Finset ExceptionState)
  | setVertexArrivals (vertex : ℕ) (arrivals : List ArrivalStep)

section Run
variable (crprActive : Bool)

def arrivalStep (st : Search) (bldr : TagGroupBldr) : ArrivalStep → Option TagGroupBldr
  | .setArrival tagIndex => (st.tags.entry tagIndex).map fun tag => bldr.setArrival crprActive st tag
  | .deleteArrival tagIndex => (st.tags.entry tagIndex).map fun tag => bldr.deleteArrival crprActive tag

def pathRep (st : Search) (path : ℕ × ℕ) : Option PathVertexRep :=
  (st.tags.entry path.2).map fun tag => ⟨path.1, path.2, tag.id⟩

/-- A step is taken with objects that exist: tags in their slots, a clock information of the set, states of the
constraints' exceptions or of the filter. -/
def step (st : Search) : Step → Option Search
  | .findFilteredArrivals => some st.findFilteredArrivals
  | .deleteFilteredArrivals => some st.deleteFilteredArrivals
  | .findClkInfo attributes none => some (st.findClkInfo crprActive attributes none).1
  | .findClkInfo attributes (some path) => (st.pathRep path).map fun path =>
    (st.findClkInfo crprActive attributes (some path)).1
  | .findTag attributes clkInfo states =>
    if clkInfo ∈ st.clkInfoSet ∧ ∀ state ∈ states, state.exception.isFilter → st.filter = some state.exception then
      (st.findTag attributes clkInfo states).map Prod.fst
    else none
  | .setVertexArrivals vertex arrivals => do
    let bldr ← arrivals.foldlM (st.arrivalStep crprActive) TagGroupBldr.init
    st.setVertexArrivals crprActive vertex bldr

def run (st : Search) (steps : List Step) : Option Search := steps.foldlM (step crprActive) st

end Run

end Search

end GTPower
