import GTPower.WorstSlack
import Mathlib.Algebra.Ring.Nat

/-! Levels of the vertices of a timing graph: a depth first search from the roots that raises levels and breaks loops, a
pass that sets the data pins of latches apart from their outputs, and the incremental search after edits. Sets are in
the order of the ids. -/
namespace GTPower.Levelize

inductive LevelColor
  | white | gray | black
deriving DecidableEq

/-- What is known of vertices and edges by their ids. `searchThru` leaves out the flag of broken loops. The driver
vertex of a bidirect port comes after its load vertex when the slew of the driver is that of the load; no edge ends in
such a driver. -/
structure Design (V E P : Type*) where
  pin : V → P
  fromVertex : E → V
  toVertex : E → V
  searchFrom : V → Bool
  searchTo : V → Bool
  searchThru : E → Bool
  latchDtoQ : E → Bool
  slewFromLoad : V → Bool
  bidirectDrvr : V → Bool
  drvrVertex : V → Option V
  drvr_slew : ∀ v, bidirectDrvr v → slewFromLoad v
  drvr_noEdge : ∀ e, bidirectDrvr (toVertex e) = false
  drvr_isDrvr : ∀ v d, drvrVertex v = some d → bidirectDrvr d
  drvr_last : ∀ v, bidirectDrvr v → drvrVertex v = none

structure Graph (V E : Type*) where
  vertices : List V
  outEdges : V → List E
  inEdges : V → List E

/-- What a search writes. `met` are the latch edges met since the search began, whether they were set apart or not. -/
structure Search (V E : Type*) where
  level : V → ℕ
  color : V → LevelColor
  disabledLoop : E → Bool
  loops : Bool
  loopEdges : List E
  latchEdges : List E
  met : List E
  maxLevel : ℕ

/-- `made` are the edges made since the levels were last brought up to date. -/
structure State (V E : Type*) where
  graph : Graph V E
  search : Search V E
  roots : List V
  relevelizeFrom : List V
  levelized : Bool
  levelsValid : Bool
  made : List E

/-- The program ends when a level gets too high. -/
inductive Failure
  | outOfFuel
  | maximumLevel
deriving DecidableEq

def vertexLevelBits : ℕ := 24

def vertexLevelMax : ℕ := 2 ^ vertexLevelBits - 1

variable {V E P : Type*} [LinearOrder V] [LinearOrder E] [LinearOrder P]

section Search

variable (s : Search V E)

/-- The level of a vertex is a field of 24 bits. -/
def setLevel (v : V) (level : ℕ) : Search V E :=
  { s with level := fun u => if u = v then level % 2 ^ vertexLevelBits else s.level u }

def setColor (v : V) (color : LevelColor) : Search V E :=
  { s with color := fun u => if u = v then color else s.color u }

variable (design : Design V E P) (graph : Graph V E)

def thru (e : E) : Bool := design.searchThru e && !s.disabledLoop e

def isRoot (v : V) : Bool :=
  design.searchTo v && (graph.inEdges v).all (fun e => !(design.searchFrom (design.fromVertex e) && thru s design e)) &&
    !design.slewFromLoad v

def hasFanout (v : V) : Bool :=
  design.searchFrom v && (graph.outEdges v).any fun e => design.searchTo (design.toVertex e) && thru s design e

/-- The edges of the path from the pin that closes the loop on, and the closing edge. -/
def loopPath (path : List E) (closing : E) : List E :=
  path.dropWhile (fun e => design.pin (design.fromVertex e) ≠ design.pin (design.toVertex closing)) ++ [closing]

def recordLoop (e : E) (path : List E) : Search V E :=
  { s with
    loopEdges := if s.loops then (loopPath design path e).foldl insertVertex s.loopEdges else s.loopEdges
    disabledLoop := fun other => if other = e then true else s.disabledLoop other }

def enterVertex (v : V) (level : ℕ) : Search V E :=
  let s := setLevel (setColor s v .gray) v level
  { s with maxLevel := max level s.maxLevel }

def meetLatch (e : E) : Search V E :=
  if design.latchDtoQ e then { s with latchEdges := insertVertex s.latchEdges e, met := insertVertex s.met e } else s

end Search

section Source

variable (design : Design V E P) (graph : Graph V E) (levelSpace : ℕ)

/-- One out edge of a vertex: `visit` goes on from the vertex it ends in. -/
def followEdge (visit : V → List E → Search V E → Except Failure (Search V E)) (level : ℕ) (path : List E)
    (s : Search V E) (e : E) :
    Except Failure (Search V E) := do
  let next := design.toVertex e
  let s ←
    if thru s design e && design.searchTo next then
      if s.color next = .gray then pure (recordLoop s design e path)
      else if s.color next = .white ∨ s.level next < level then visit next (path ++ [e]) s
      else pure s
    else pure s
  return meetLatch s design e

def followDrvr (visit : V → List E → Search V E → Except Failure (Search V E)) (level : ℕ) (path : List E) (v : V)
    (s : Search V E) :
    Except Failure (Search V E) :=
  match design.drvrVertex v with
  | none => pure s
  | some drvr => if design.searchTo drvr ∧
    (s.color drvr = .white ∨ s.level drvr < level) then visit drvr path s else pure s

def visit : ℕ → V → ℕ → List E → Search V E → Except Failure (Search V E)
  | 0, _, _, _, _ => throw .outOfFuel
  | fuel + 1, v, level, path, s => do
    let s := enterVertex s v level
    let next := level + levelSpace
    if vertexLevelMax ≤ next then throw .maximumLevel
    let s ←
      if design.searchFrom v then do
        let s ← (graph.outEdges v).foldlM (followEdge design (fun u path s => visit fuel u next path s) next path) s
        followDrvr design (fun u path s => visit fuel u next path s) next path v s
      else pure s
    return setColor s v .black

/-- No path through the graph needs more calls on the stack. -/
def callDepth : ℕ := 2 * graph.vertices.length + 2

def clearLoopEdges (s : Search V E) : Search V E := { s with disabledLoop := fun _ => false }

def deleteLoops (s : Search V E) : Search V E := if s.loops then { s with loops := false, loopEdges := [] } else s

def findRoot (found : Search V E × List V) (v : V) : Search V E × List V :=
  let s := setLevel found.1 v 0
  if isRoot s design graph v then (if hasFanout s design graph v then setColor s v .black else s,
    insertVertex found.2 v)
  else (setColor s v .white, found.2)

def findRoots (s : Search V E) (roots : List V) : Search V E × List V :=
  graph.vertices.foldl (findRoot design graph) (s, roots)

def sortVertices (vertices : List V) : List V := vertices.insertionSort fun u v => design.pin u ≤ design.pin v

def levelizeFrom (roots : List V) (s : Search V E) : Except Failure (Search V E) :=
  roots.foldlM (fun s root => visit design graph levelSpace (callDepth graph) root 0 [] s) s

def ensureLatchLevel (s : Search V E) (e : E) : Search V E :=
  let d := design.fromVertex e
  if s.level d = s.level (design.toVertex e) then setLevel s d (s.level d + levelSpace) else s

def ensureLatchLevels (s : Search V E) : Search V E :=
  { s.latchEdges.foldl (ensureLatchLevel design levelSpace) s with latchEdges := [] }

def levelizeCycle (found : Search V E × List V) (v : V) : Except Failure (Search V E × List V) :=
  if found.1.color v = .white then do
    let s ← visit design graph levelSpace (callDepth graph) v 0 [] found.1
    return (s, insertVertex found.2 v)
  else pure found

def uncolored (s : Search V E) : List V := graph.vertices.filter fun v => s.color v = .white ∧ design.searchFrom v

def levelizeCycles (s : Search V E) (roots : List V) : Except Failure (Search V E × List V) :=
  (sortVertices design (uncolored design graph s)).foldlM (levelizeCycle design graph levelSpace) (s, roots)

end Source

section Levels

variable (design : Design V E P) (levelSpace : ℕ)

/-- The search of `levelize` before the data pins of latches are set apart. -/
def levelizeRoots (st : State V E) : Except Failure (Search V E × List V) := do
  let start := { deleteLoops (clearLoopEdges st.search) with maxLevel := 0, loops := true, met := [] }
  let (s, roots) := findRoots design st.graph start st.roots
  let s ← levelizeFrom design st.graph levelSpace (sortVertices design roots) s
  return (s, roots)

/-- The cycles that no root leads to come after the latches. -/
def levelize (st : State V E) : Except Failure (State V E) := do
  let (s, roots) ← levelizeRoots design levelSpace st
  let (s, roots) ← levelizeCycles design st.graph levelSpace (ensureLatchLevels design levelSpace s) roots
  return { st with search := s, roots := roots, levelized := true, levelsValid := true, made := [] }

def relevelizeVertex (graph : Graph V E) (found : Search V E × List V) (v : V) : Except Failure (Search V E × List V) :=
  if design.searchFrom v then do
    let (s, roots) :=
      if isRoot found.1 design graph v then (setLevel found.1 v 0, insertVertex found.2 v) else found
    let s ← visit design graph 1 (callDepth graph) v (s.level v) [] s
    return (s, roots)
  else pure found

def relevelizeSearch (st : State V E) : Except Failure (Search V E × List V) :=
  st.relevelizeFrom.foldlM (relevelizeVertex design st.graph) ({ st.search with met := [] }, st.roots)

def relevelize (st : State V E) : Except Failure (State V E) := do
  let (s, roots) ← relevelizeSearch design st
  return { st with
    search := ensureLatchLevels design levelSpace s
    roots := roots
    relevelizeFrom := []
    levelsValid := true
    made := [] }

def ensureLevelized (st : State V E) : Except Failure (State V E) :=
  if st.levelsValid then pure st else if st.levelized then relevelize design levelSpace st
    else levelize design levelSpace st

def invalid (st : State V E) : State V E :=
  { st with
    search := deleteLoops (clearLoopEdges st.search)
    roots := []
    relevelizeFrom := []
    levelized := false
    levelsValid := false }

def relevelizeFromVertex (v : V) (st : State V E) : State V E :=
  { st with relevelizeFrom := insertVertex st.relevelizeFrom v, levelsValid := false }

/-- The vertex and those before it are to be searched from. -/
def invalidFrom (v : V) (st : State V E) : State V E :=
  { st with
    relevelizeFrom := insertVertex ((st.graph.inEdges v).foldl (fun set e => insertVertex set (design.fromVertex e))
      st.relevelizeFrom) v
    levelsValid := false }

def deleteVertexBefore (v : V) (st : State V E) : State V E :=
  { st with roots := eraseVertex st.roots v, relevelizeFrom := eraseVertex st.relevelizeFrom v }

def deleteEdgeBefore (e : E) (st : State V E) : State V E := if e ∈ st.search.loopEdges then invalid st else st

end Levels

section Edits

variable (design : Design V E P)

def Graph.makeVertex (graph : Graph V E) (v : V) : Graph V E := { graph with vertices := v :: graph.vertices }

def Graph.makeEdge (graph : Graph V E) (e : E) : Graph V E :=
  { graph with
    outEdges := fun v => if v = design.fromVertex e then e :: graph.outEdges v else graph.outEdges v
    inEdges := fun v => if v = design.toVertex e then e :: graph.inEdges v else graph.inEdges v }

def Graph.deleteEdge (graph : Graph V E) (e : E) : Graph V E :=
  { graph with
    outEdges := fun v => if v = design.fromVertex e then (graph.outEdges v).filter (· ≠ e) else graph.outEdges v
    inEdges := fun v => if v = design.toVertex e then (graph.inEdges v).filter (· ≠ e) else graph.inEdges v }

def Graph.deleteVertex (graph : Graph V E) (v : V) : Graph V E :=
  let graph := (graph.inEdges v).foldl (Graph.deleteEdge design) graph
  let graph := (graph.outEdges v).foldl (Graph.deleteEdge design) graph
  { graph with vertices := graph.vertices.filter (· ≠ v) }

/-- New vertices are white and at level 0. -/
def makeVertex (v : V) (st : State V E) : State V E :=
  { st with graph := st.graph.makeVertex v, search := setColor (setLevel st.search v 0) v .white }

/-- A new edge is not marked as broken. Nothing is announced: the edges of a pin are, when it is connected. -/
def makeEdge (e : E) (st : State V E) : State V E :=
  { st with
    graph := st.graph.makeEdge design e
    search := { st.search with disabledLoop := fun other => if other = e then false else st.search.disabledLoop other }
    made := e :: st.made }

def deleteEdge (e : E) (st : State V E) : State V E :=
  let st := deleteEdgeBefore e (relevelizeFromVertex (design.toVertex e) st)
  { st with graph := st.graph.deleteEdge design e }

inductive PinKind
  | load | driver | internal

/-- A vertex is deleted with its edges: a load tells of the edges into it, a driver of those out of it and of the loads
after it. -/
def deleteVertex (v : V) (kind : PinKind) (wire : E → Bool) (st : State V E) : State V E :=
  let st := deleteVertexBefore v st
  let st :=
    match kind with
    | .load => (st.graph.inEdges v).foldl (fun st e => deleteEdgeBefore e st) st
    | .driver => (st.graph.outEdges v).foldl (fun st e =>
        deleteEdgeBefore e (if wire e then relevelizeFromVertex (design.toVertex e) st else st)) st
    | .internal => st
  { st with graph := st.graph.deleteVertex design v }

inductive Event (V E : Type*)
  | makeVertex (v : V)
  | makeEdge (e : E)
  | deleteEdge (e : E)
  | deleteVertex (v : V) (kind : PinKind) (wire : E → Bool)
  | invalidFrom (v : V)
  | relevelizeFrom (v : V)
  | invalid
  | ensureLevelized

def step (levelSpace : ℕ) (st : State V E) : Event V E → Except Failure (State V E)
  | .makeVertex v => pure (makeVertex v st)
  | .makeEdge e => pure (makeEdge design e st)
  | .deleteEdge e => pure (deleteEdge design e st)
  | .deleteVertex v kind wire => pure (deleteVertex design v kind wire st)
  | .invalidFrom v => pure (invalidFrom design v st)
  | .relevelizeFrom v => pure (relevelizeFromVertex v st)
  | .invalid => pure (invalid st)
  | .ensureLevelized => ensureLevelized design levelSpace st

def initial : State V E where
  graph := ⟨[], fun _ => [], fun _ => []⟩
  search := ⟨fun _ => 0, fun _ => .white, fun _ => false, false, [], [], [], 0⟩
  roots := []
  relevelizeFrom := []
  levelized := false
  levelsValid := false
  made := []

end Edits

end GTPower.Levelize
