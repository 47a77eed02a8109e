import Mathlib.Algebra.Order.Ring.Rat
import GTPower.BfsRuns
import GTPower.KeyedTables
import GTPower.MinMax

/-! The search for arrivals and what invalidates them. Latches, generated clocks, dynamic loop breaking, input delays
with a reference pin and the pruning of arrivals are left out, and tags that match are one tag. -/
namespace GTPower.ArrivalSearch

/-- Where an arc leads from a path: the tag there, the arrival that an ideal clock has in place of that of the path, and
the delay. -/
structure ArcPath (T : Type*) where
  toTag : T
  idealArrival : Option ℚ
  arcDelay : ℚ

/-- What a search reads of the graph, the constraints and the delays. `edgeEnabled` is what the search predicate says of
an edge apart from its ends. -/
structure Timing (V E A T : Type*) where
  vertices : List V
  level : V → ℤ
  inEdges : V → List E
  outEdges : V → List E
  fromVertex : E → V
  toVertex : E → V
  isConstant : V → Bool
  isDisabledConstraint : V → Bool
  edgeEnabled : E → Bool
  isTopLevelPort : V → Bool
  isInput : V → Bool
  isBidirect : V → Bool
  isBidirectDriver : V → Bool
  bidirectDrvrSlewFromLoad : V → Bool
  isLeafPinClock : V → Bool
  isPathDelayInternalStartpoint : V → Bool
  isPathDelayInternalEndpoint : V → Bool
  hasInputDelay : V → Bool
  isRegClk : V → Bool
  unconstrainedPaths : Bool
  minMax : T → MinMax
  isClock : T → Bool
  arcsFrom : E → T → List A
  arcPath : E → A → T → Option (ArcPath T)
  clkArrivals : V → List (T × ℚ)
  inputDelayArrivals : V → Bool → List (T × ℚ)
  noInputDelayArrivals : V → List (T × ℚ)
  fromUnclkedInputTags : V → Bool → Bool → List T

abbrev ArrivalMap (T : Type*) := List (T × ℚ)

variable {V E A T : Type*} [DecidableEq V] [DecidableEq T]

section Tables

def tagMatchArrival (map : ArrivalMap T) (tag : T) : Option (T × ℚ) := KeyedTables.find? id map tag

def setArrival (map : ArrivalMap T) (entry : T × ℚ) : ArrivalMap T :=
  KeyedTables.offer id (fun _ _ => true) map entry.1 entry.2

def setArrivals (map entries : ArrivalMap T) : ArrivalMap T := entries.foldl setArrival map

def arrivalsChanged (arrivals1 arrivals2 : ArrivalMap T) : Bool :=
  arrivals1.isEmpty || arrivals1.length ≠ arrivals2.length || arrivals1.any fun entry =>
    !(tagMatchArrival arrivals2 entry.1).any fun found => delayEqual entry.2 found.2

end Tables

namespace Timing
variable (timing : Timing V E A T)

section Predicates

def searchFrom (v : V) : Bool := !(timing.isDisabledConstraint v || timing.isConstant v)

def searchTo (v : V) : Bool :=
  !timing.isConstant v && !(timing.isLeafPinClock v && !timing.isPathDelayInternalEndpoint v)

def isInputArrivalSrchStart (v : V) : Bool :=
  timing.isTopLevelPort v && (timing.isInput v || (timing.isBidirect v && timing.isBidirectDriver v))

/-- A root of the levels. -/
def isRoot (v : V) : Bool :=
  !timing.isConstant v && (timing.inEdges v).all (fun e =>
    !(timing.searchFrom (timing.fromVertex e) && timing.edgeEnabled e)) &&
    !timing.bidirectDrvrSlewFromLoad v

/-- The vertices that a search enqueues after a vertex. -/
def adjacentVertices (v : V) : List V :=
  if timing.searchFrom v then
    ((timing.outEdges v).filter fun e => timing.edgeEnabled e && timing.searchTo (timing.toVertex e)).map
      timing.toVertex
  else []

end Predicates

section Visits

def visitFromPath (e : E) (arc : A) (entry : T × ℚ) : Option (T × ℚ) :=
  (timing.arcPath e arc entry.1).map fun path => (path.toTag, path.idealArrival.getD entry.2 + path.arcDelay)

def visitEdge (arrivals : V → ArrivalMap T) (e : E) : List (T × ℚ) :=
  (arrivals (timing.fromVertex e)).flatMap fun entry => (timing.arcsFrom e entry.1).filterMap fun arc =>
    timing.visitFromPath e arc entry

/-- The arrivals that come in, in the order of the visits. -/
def faninPaths (arrivals : V → ArrivalMap T) (v : V) : List (T × ℚ) :=
  if timing.searchTo v then
    ((timing.inEdges v).filter fun e => timing.searchFrom (timing.fromVertex e) && timing.edgeEnabled e).flatMap
      (timing.visitEdge arrivals)
  else []

def visitFromToPath (map : ArrivalMap T) (entry : T × ℚ) : ArrivalMap T :=
  KeyedTables.offer id (fun arrival other => MinMax.delayGreater arrival other (timing.minMax entry.1)) map
    entry.1 entry.2

def unclkedPaths (v : V) (isSegmentStart requireException : Bool) : List (T × ℚ) :=
  (timing.fromUnclkedInputTags v isSegmentStart requireException).map fun tag => (tag, 0)

/-- The paths that originate at a vertex that is visited, those of an unclocked register clock apart. -/
def ownArrivals (v : V) : List (T × ℚ) :=
  (if !timing.isTopLevelPort v && timing.hasInputDelay v then timing.inputDelayArrivals v true else []) ++
    (if timing.isPathDelayInternalStartpoint v then timing.unclkedPaths v false true else []) ++
      (if timing.isLeafPinClock v then timing.clkArrivals v else [])

def hasClkTag (map : ArrivalMap T) : Bool := map.any fun entry => timing.isClock entry.1

def visit (arrivals : V → ArrivalMap T) (v : V) : ArrivalMap T :=
  let reached := setArrivals ((timing.faninPaths arrivals v).foldl timing.visitFromToPath []) (timing.ownArrivals v)
  if timing.isRegClk v && !timing.hasClkTag reached then setArrivals reached (timing.unclkedPaths v true false)
    else reached

end Visits

section Seeds

def seedInputArrival (v : V) (map : ArrivalMap T) : ArrivalMap T :=
  if timing.hasInputDelay v then setArrivals map (timing.inputDelayArrivals v false)
  else if !timing.isLeafPinClock v then setArrivals map (timing.noInputDelayArrivals v)
  else map

/-- Whether the vertex is seeded and not visited. -/
def isStart (v : V) : Bool := timing.isLeafPinClock v || timing.isInputArrivalSrchStart v || timing.isRoot v

/-- Whether a root is seeded without a clock. -/
def seedsUnclked (v : V) : Bool := timing.isRegClk v || (timing.unconstrainedPaths && !timing.isTopLevelPort v)

def seedMap (v : V) : ArrivalMap T :=
  if timing.isLeafPinClock v then timing.seedInputArrival v (setArrivals [] (timing.clkArrivals v))
  else if timing.isInputArrivalSrchStart v then timing.seedInputArrival v []
  else if timing.seedsUnclked v then setArrivals [] (timing.unclkedPaths v (timing.isRegClk v) false)
  else []

/-- Whether the search goes on from a vertex that is seeded: not if there are only false paths from there. -/
def searchesOn (v : V) : Bool :=
  if timing.isLeafPinClock v then true
  else if timing.isInputArrivalSrchStart v then !(timing.seedMap v).isEmpty
  else if timing.seedsUnclked v then !(timing.unclkedPaths v (timing.isRegClk v) false).isEmpty
  else true

/-- The clock vertices, the roots without arrivals of their own and the input ports. -/
def seedVertices : List V :=
  timing.vertices.filter fun v => timing.isLeafPinClock v || (timing.isRoot v && !timing.hasInputDelay v) ||
    timing.isInputArrivalSrchStart v

end Seeds

end Timing

structure Search (V E A T : Type*) where
  timing : Timing V E A T
  arrivals : V → ArrivalMap T
  arrivalIter : Bfs.State V
  invalidArrivals : List V
  arrivalsExist : Bool
  arrivalsSeeded : Bool
  arrivalsAtEndpointsExist : Bool

def levelMax : ℤ := 2 ^ 31 - 1

namespace Search

def initial (timing : Timing V E A T) : Search V E A T where
  timing := timing
  arrivals _ := []
  arrivalIter := Bfs.init 0 levelMax ⟨fun _ => [], fun _ => false, 0, 0, [], 0⟩
  invalidArrivals := []
  arrivalsExist := false
  arrivalsSeeded := false
  arrivalsAtEndpointsExist := false

section Invalid
variable (s : Search V E A T)

def arrivalsInvalid : Search V E A T :=
  if s.arrivalsExist then
    { s with
      arrivals := fun _ => []
      arrivalsAtEndpointsExist := false
      arrivalsSeeded := false
      arrivalIter := Bfs.clear 0 levelMax s.arrivalIter
      invalidArrivals := [] }
  else s

def arrivalInvalid (v : V) : Search V E A T :=
  if s.arrivalsExist && !s.arrivalIter.inQueue v then { s with invalidArrivals := s.invalidArrivals.insert v } else s

def levelChangedBefore (v : V) : Search V E A T :=
  if s.arrivalsExist then arrivalInvalid { s with arrivalIter := Bfs.remove s.timing.level s.arrivalIter v } v else s

end Invalid

section Searches

def enqueueAdjacentVertices (s : Search V E A T) (v : V) : Search V E A T :=
  { s with arrivalIter := (s.timing.adjacentVertices v).foldl (Bfs.enqueue s.timing.level) s.arrivalIter }

def setVertexArrivals (s : Search V E A T) (v : V) (map : ArrivalMap T) : Search V E A T :=
  { s with arrivals := fun other => if other = v then map else s.arrivals other }

def seedArrival (s : Search V E A T) (v : V) : Search V E A T :=
  if s.timing.isStart v then
    let s := s.setVertexArrivals v (s.timing.seedMap v)
    if s.timing.searchesOn v then s.enqueueAdjacentVertices v else s
  else { s with arrivalIter := Bfs.enqueue s.timing.level s.arrivalIter v }

def seedArrivals (s : Search V E A T) : Search V E A T := s.timing.seedVertices.foldl seedArrival s

def seedInvalidArrivals (s : Search V E A T) : Search V E A T :=
  { s.invalidArrivals.foldl seedArrival s with invalidArrivals := [] }

def findArrivalsSeed (s : Search V E A T) : Search V E A T :=
  seedInvalidArrivals
    (if s.arrivalsSeeded then s
    else { seedArrivals { s with arrivalIter := Bfs.clear 0 levelMax s.arrivalIter } with arrivalsSeeded := true })

/-- The arrivals after a visit, which sets them when they changed. -/
def visitArrivals (timing : Timing V E A T) (arrivals : V → ArrivalMap T) (v : V) : V → ArrivalMap T :=
  let map := timing.visit arrivals v
  if arrivalsChanged (arrivals v) map then fun other => if other = v then map else arrivals other else arrivals

def arrivalsAfter (timing : Timing V E A T) (arrivals : V → ArrivalMap T) (visited : List V) : V → ArrivalMap T :=
  visited.foldl (visitArrivals timing) arrivals

/-- The vertices that a visit enqueues. The seeds of a clock pin enqueue too. -/
def visitor (timing : Timing V E A T) (atEndpointsExist : Bool) (before : V → ArrivalMap T) (visited : List V) (v : V) :
    List V :=
  let arrivals := arrivalsAfter timing before visited
  if timing.isLeafPinClock v || !atEndpointsExist || arrivalsChanged (arrivals v) (timing.visit arrivals v) then
    timing.adjacentVertices v
  else []

/-- A search to a level on threads; `none` is a search that does not end within the fuel. -/
def findArrivals (threadCount : ℕ) (schedule : Bfs.Schedule V) (fuel : ℕ) (level : ℤ) (s : Search V E A T) :
    Option (Search V E A T) :=
  let s := s.findArrivalsSeed
  (Bfs.visitParallel s.timing.level (visitor s.timing s.arrivalsAtEndpointsExist s.arrivals) threadCount
    schedule fuel level
    { s.arrivalIter with visited := [], visitCount := 0 }).map fun arrivalIter =>
      { s with
        arrivals := arrivalsAfter s.timing s.arrivals arrivalIter.visited
        arrivalIter := arrivalIter
        arrivalsAtEndpointsExist := s.arrivalsAtEndpointsExist || (Bfs.empty arrivalIter && s.invalidArrivals.isEmpty)
        arrivalsExist := true }

end Searches

/-- What happens to a search from outside. The graph, the constraints and the delays change with an announcement: `edit`
of single vertices and `constrain` of all. -/
inductive Event (V E A T : Type*)
  | edit (timing : Timing V E A T) (invalid : List V)
  | constrain (timing : Timing V E A T)
  | levelChange (v : V) (level : ℤ)
  | findArrivals (threadCount : ℕ) (schedule : Bfs.Schedule V) (fuel : ℕ) (level : ℤ)

def step (s : Search V E A T) : Event V E A T → Option (Search V E A T)
  | .edit timing invalid => some (invalid.foldl arrivalInvalid { s with timing := timing })
  | .constrain timing => some (arrivalsInvalid { s with timing := timing })
  | .levelChange v level =>
    let s := s.levelChangedBefore v
    some { s with timing := { s.timing with level := fun other => if other = v then level else s.timing.level other } }
  | .findArrivals threadCount schedule fuel level => s.findArrivals threadCount schedule fuel level

def run (s : Search V E A T) (events : List (Event V E A T)) : Option (Search V E A T) := events.foldlM step s

end Search

end GTPower.ArrivalSearch
