import GTPower.BddEvaluation
import GTPower.BfsRuns

/-! Activities of pins for power: those of the user and of value changes, and what is propagated from them through nets,
gates, clock gates and registers. Corner cells have the ports of their cells, and floats are rationals. -/
namespace GTPower.PowerActivity

inductive PwrActivityOrigin where
  | global
  | input
  | user
  | vcd
  | propagated
  | clock
  | constant
  | defaulted
  | unknown
  deriving DecidableEq

/-- An activity with the value changes that it was counted on. -/
structure PwrActivity (W : Type) extends BddEvaluation.ActivityDuty where
  origin : PwrActivityOrigin
  vcdValues : Option W
  nEvent : ℕ
  valueBit : ℤ
  deriving DecidableEq

namespace PwrActivity
variable {W : Type}

def plain (activity duty : ℚ) (origin : PwrActivityOrigin) : PwrActivity W := ⟨⟨activity, duty⟩, origin, none, 0, -1⟩

def unknown : PwrActivity W := plain 0 0 .unknown

def isSet (a : PwrActivity W) : Bool := a.origin ≠ .unknown

def minActivity : ℚ := 1 / 10 ^ 10

/-- Very small activities are none. -/
def set (a : PwrActivity W) (activity duty : ℚ) (origin : PwrActivityOrigin) : PwrActivity W :=
  { a with activity := if |activity| < minActivity then 0 else activity, duty := duty, origin := origin }

end PwrActivity

structure Sequential (K : Type) where
  data : FuncExpr K
  output : K
  outputInv : K
  isRegister : Bool

/-- What the propagation reads of the graph, the network, the cells of instances and the clocks. `searchThru` is what
the search predicate for paths without latches says of an edge. -/
structure Design (V E I K : Type) where
  level : V → ℤ
  maxLevel : ℤ
  inEdges : V → List E
  outEdges : V → List E
  fromVertex : E → V
  toVertex : E → V
  isWire : E → Bool
  isConstant : V → Bool
  isDisabledConstraint : V → Bool
  searchThru : E → Bool
  isRegClkToQ : E → Bool
  roots : List V
  inst : V → I
  isLoad : V → Bool
  isDriver : V → Bool
  isInternalPin : V → Bool
  libertyPort : V → Option K
  hasCell : I → Bool
  pins : I → List V
  findPin : I → K → Option V
  isInternal : I → K → Bool
  function : I → K → Option (FuncExpr K)
  isClockGateEnable : I → K → Bool
  isClockGateClock : I → K → Bool
  isClockGateOut : I → K → Bool
  isClockGate : I → Bool
  sequentials : I → List (Sequential K)
  hasStatetable : I → Bool
  isClock : V → Bool
  clockDuty : V → ℚ
  iterate : List I → List I

structure Settings (V W : Type) where
  globalActivity : PwrActivity W
  inputActivity : PwrActivity W
  userActivityMap : V → Option (PwrActivity W)

/-- The maps of activities, and the registers with an input that changed. `visited` are the vertices visited so far. -/
structure Maps (V I K W : Type) where
  activityMap : V → Option (PwrActivity W)
  seqActivityMap : I → K → Option (PwrActivity W)
  visitedRegs : List I
  visited : List V

namespace Maps
variable {V I K W : Type} [DecidableEq V] [DecidableEq I] [DecidableEq K]

def empty : Maps V I K W := ⟨fun _ => none, fun _ _ => none, [], []⟩

/-- A lookup makes the entry that it does not find. -/
def activity (m : Maps V I K W) (v : V) : PwrActivity W := (m.activityMap v).getD .unknown

def setActivity (m : Maps V I K W) (v : V) (a : PwrActivity W) : Maps V I K W :=
  { m with activityMap := fun other => if other = v then some a else m.activityMap other }

def lookup (m : Maps V I K W) (v : V) : Maps V I K W := m.setActivity v (m.activity v)

def setSeqActivity (m : Maps V I K W) (reg : I) (output : K) (a : PwrActivity W) : Maps V I K W :=
  { m with seqActivityMap := fun i port => if i = reg ∧ port = output then some a else m.seqActivityMap i port }

end Maps

namespace Design
variable {V E I K W : Type} [DecidableEq V] [DecidableEq I] [DecidableEq K] (design : Design V E I K)
    (cudd : BddEvaluation.Cudd)
  (settings : Settings V W)

section Graph

def searchFrom (v : V) : Bool := !(design.isDisabledConstraint v || design.isConstant v)

/-- The vertices that a search enqueues after a vertex. -/
def adjacentVertices (v : V) : List V :=
  if design.searchFrom v then
    ((design.outEdges v).filter fun e => design.searchThru e && !design.isRegClkToQ e &&
      !design.isConstant (design.toVertex e)).map
      design.toVertex
  else []

def hasSequentials (i : I) : Bool := !(design.sequentials i).isEmpty || design.hasStatetable i

/-- The last pin of each kind. -/
def clockGatePin (isPort : I → K → Bool) (i : I) : Option V :=
  ((design.pins i).filter fun v => (design.libertyPort v).any (isPort i)).getLast?

/-- Enable, clock and gated clock, if there are all of them. -/
def clockGatePins (i : I) : Option (V × V × V) :=
  match design.clockGatePin design.isClockGateEnable i, design.clockGatePin design.isClockGateClock i,
    design.clockGatePin design.isClockGateOut i with
  | some enable, some clk, some gclk => some (enable, clk, gclk)
  | _, _, _ => none

end Graph

section Lookup
variable (m : Maps V I K W)

/-- An activity of unknown origin in the map hides that of the user. -/
def findActivity (v : V) : PwrActivity W :=
  if design.isConstant v then .plain 0 0 .constant
  else if design.isClock v then
    match m.activityMap v, settings.userActivityMap v with
    | some a, _ => if a.isSet then a else .plain 2 (design.clockDuty v) .clock
    | none, some a => if a.isSet then a else .plain 2 (design.clockDuty v) .clock
    | none, none => .plain 2 (design.clockDuty v) .clock
  else if settings.globalActivity.isSet then settings.globalActivity
  else
    match m.activityMap v, settings.userActivityMap v with
    | some a, _ => if a.isSet then a else .unknown
    | none, some a => if a.isSet then a else .unknown
    | none, none => .unknown

def findSeqActivity (i : I) (port : K) : PwrActivity W :=
  if settings.globalActivity.isSet then settings.globalActivity
  else
    match m.seqActivityMap i port with
    | some a => if a.isSet then a else .unknown
    | none => .unknown

def instPorts (i : I) : BddEvaluation.InstPorts K where
  isInternal := design.isInternal i
  findLinkPin port := (design.findPin i port).isSome

def activities (i : I) : BddEvaluation.Activities K where
  findActivity port :=
    match design.findPin i port with
    | some v => (design.findActivity settings m v).toActivityDuty
    | none => ⟨0, 0⟩
  findSeqActivity port := (findSeqActivity settings m i port).toActivityDuty

/-- By the decision diagram of the expression, whose variables all have a port. -/
def evalBdd (i : I) (expr : FuncExpr K) : PwrActivity W :=
  match BddEvaluation.evalFunc cudd (design.instPorts i) (design.activities settings m i) expr with
  | some a => .plain a.activity a.duty .propagated
  | none => .unknown

def evalActivity (i : I) (expr : FuncExpr K) : PwrActivity W :=
  match expr with
  | .port port => if design.isInternal i port then findSeqActivity settings m i port
    else design.evalBdd cudd settings m i expr
  | _ => design.evalBdd cudd settings m i expr

/-- Of the clock while the gate is open, and of the enable while the clock is high. -/
def gatedClkActivity (enable clk : V) : PwrActivity W :=
  let activity1 := design.findActivity settings m clk
  let activity2 := design.findActivity settings m enable
  .plain (activity1.activity * activity2.duty + activity2.activity * activity1.duty)
    (activity1.duty * activity2.duty) .propagated

end Lookup

section Visits

def changeTolerance : ℚ := 1 / 1000

/-- Whether an activity is set in place of another one. -/
def differs (a prev : PwrActivity W) : Bool :=
  changeTolerance < |a.activity - prev.activity| || changeTolerance < |a.duty - prev.duty| || a.origin ≠ prev.origin

def setActivityCheck (m : Maps V I K W) (v : V) (a : PwrActivity W) : Maps V I K W × Bool :=
  if differs a (m.activity v) then (m.setActivity v a, true) else (m.lookup v, false)

/-- A load has the activity of its driver. -/
def visitLoad (m : Maps V I K W) (v : V) : Maps V I K W × Bool :=
  match design.inEdges v with
  | e :: _ =>
    if design.isWire e then
      setActivityCheck (m.lookup (design.fromVertex e)) v { m.activity (design.fromVertex e) with
        origin := .propagated }
    else (m, false)
  | [] => (m, false)

def visitGatedClk (i : I) (before : Maps V I K W × Bool) : Maps V I K W × Bool :=
  match design.clockGatePins i with
  | some (enable, clk, gclk) => setActivityCheck before.1 gclk (design.gatedClkActivity settings before.1 enable clk)
  | none => before

/-- A driver has the activity of its function, or that of a gated clock. -/
def visitDriver (before : Maps V I K W × Bool) (v : V) : Maps V I K W × Bool :=
  match design.libertyPort v with
  | some port =>
    let i := design.inst v
    let set :=
      match design.function i port with
      | some func => setActivityCheck before.1 v (design.evalActivity cudd settings before.1 i func)
      | none => before
    if design.isClockGateOut i port then design.visitGatedClk settings i set else set
  | none => before

def visitPin (m : Maps V I K W) (v : V) : Maps V I K W × Bool :=
  match settings.userActivityMap v with
  | some a => setActivityCheck m v a
  | none =>
    let load := if design.isLoad v then design.visitLoad m v else (m, false)
    if design.isDriver v then design.visitDriver cudd settings load v else load

def loadOfCell (v : V) : Bool := design.isLoad v && design.hasCell (design.inst v)

/-- Gates latch their enable, so that there is no edge from there to the gated clock. -/
def enqueued (v : V) : List V :=
  (if design.loadOfCell v && design.isClockGate (design.inst v) then
    (design.clockGatePin design.isClockGateOut (design.inst v)).toList else []) ++ design.adjacentVertices v

/-- The maps after a visit, with the vertices that it enqueues. -/
def visit (m : Maps V I K W) (v : V) : Maps V I K W × List V :=
  let r := design.visitPin cudd settings m v
  let next := { r.1 with visited := r.1.visited ++ [v] }
  if r.2 then
    (if design.loadOfCell v && design.hasSequentials (design.inst v) then
      { next with visitedRegs := next.visitedRegs.insert (design.inst v) } else next, design.enqueued v)
  else (next, [])

def mapsAfter (m : Maps V I K W) (visited : List V) : Maps V I K W :=
  visited.foldl (fun m v => (design.visit cudd settings m v).1) m

def visitor (m : Maps V I K W) (visited : List V) (v : V) : List V :=
  (design.visit cudd settings (design.mapsAfter cudd settings m visited) v).2

end Visits

section Propagation

abbrev Run (V I K W : Type) := Maps V I K W × Bfs.State V

def enqueueAll (vs : List V) (r : Run V I K W) : Run V I K W := (r.1, vs.foldl (Bfs.enqueue design.level) r.2)

def seedActivity (r : Run V I K W) (v : V) : Run V I K W :=
  if design.isInternalPin v then r
  else design.enqueueAll (design.adjacentVertices v)
    (r.1.setActivity v ((settings.userActivityMap v).getD settings.inputActivity), r.2)

def seedActivities (r : Run V I K W) : Run V I K W := design.roots.foldl (design.seedActivity settings) r

/-- One visit of the queue, up to the highest level. `none` is a search that does not end within the fuel. -/
def search (fuel : ℕ) (r : Run V I K W) : Option (Run V I K W) :=
  (Bfs.visit design.level (design.visitor cudd settings r.1) fuel design.maxLevel { r.2 with visited := [] }).map
    fun bfs =>
    (design.mapsAfter cudd settings r.1 bfs.visited, bfs)

/-- The output of a register, which switches at most once in a cycle. -/
def regOutputActivity (m : Maps V I K W) (reg : I) (seq : Sequential K) (invert : Bool) : PwrActivity W :=
  let a := design.evalActivity cudd settings m reg seq.data
  let a := if seq.isRegister && 1 < a.activity then { a with activity := 1 } else a
  let a := if invert then { a with duty := 1 - a.duty } else a
  { a with origin := .propagated }

def seedRegOutput (reg : I) (seq : Sequential K) (output : K) (invert : Bool) (m : Maps V I K W) : Maps V I K W :=
  if ((design.findPin reg output).bind settings.userActivityMap).isSome then m
  else m.setSeqActivity reg output (design.regOutputActivity cudd settings m reg seq invert)

/-- The output pins whose function is an output of the register. -/
def regOutputPins (reg : I) (seq : Sequential K) : List V :=
  (design.pins reg).filter fun v => (design.libertyPort v).any fun port =>
    design.function reg port = some (.port seq.output) || design.function reg port = some (.port seq.outputInv)

def seedSequential (reg : I) (r : Run V I K W) (seq : Sequential K) : Run V I K W :=
  design.enqueueAll (design.regOutputPins reg seq)
    (design.seedRegOutput cudd settings reg seq seq.outputInv true
      (design.seedRegOutput cudd settings reg seq seq.output false r.1), r.2)

def seedRegOutputActivities (r : Run V I K W) (reg : I) : Run V I K W :=
  (design.sequentials reg).foldl (design.seedSequential cudd settings reg) r

/-- A pass through registers and then through the logic behind them; the visitor gives its registers away. -/
def propagatePass (fuel : ℕ) (regs : List I) (r : Run V I K W) : Option (Run V I K W × List I) :=
  (design.search cudd settings fuel ((design.iterate regs).foldl (design.seedRegOutputActivities cudd settings) r)).map
    fun r =>
    (({ r.1 with visitedRegs := [] }, r.2), r.1.visitedRegs)

/-- The registers that are left had an input that changed in the last pass. -/
def propagateRegs (fuel : ℕ) : ℕ → List I → Run V I K W → Option (Run V I K W × List I)
  | 0, regs, r => some (r, regs)
  | passes + 1, regs, r =>
    if regs.isEmpty then some (r, regs)
    else (design.propagatePass cudd settings fuel regs r).bind fun next => propagateRegs fuel passes next.2 next.1

def maxActivityPasses : ℕ := 100

def levelMax : ℤ := 2 ^ 31 - 1

def propagateActivities (fuel : ℕ) : Option (Maps V I K W × List I) :=
  (design.search cudd settings fuel
    (design.seedActivities settings (.empty, Bfs.init 0 levelMax ⟨fun _ => [], fun _ => false, 0, 0, [], 0⟩))).bind
      fun r =>
      (design.propagateRegs cudd settings fuel (maxActivityPasses - 1) r.1.visitedRegs ({ r.1 with visitedRegs := [] },
        r.2)).map fun r =>
        (r.1.1, r.2)

end Propagation

end Design

/-- The state of the power analysis as far as activities go. `regs` are the registers that the propagation left. -/
structure Power (V I K W : Type) where
  settings : Settings V W
  maps : Maps V I K W
  regs : List I
  activitiesValid : Bool

namespace Power
variable {V E I K W : Type} [DecidableEq V] [DecidableEq I] [DecidableEq K]

def initial : Power V I K W where
  settings := ⟨.plain 0 0 .unknown, .plain (1 / 10) (1 / 2) .input, fun _ => none⟩
  maps := .empty
  regs := []
  activitiesValid := false

inductive Event (V W : Type) where
  | setGlobalActivity (activity duty : ℚ)
  | setInputActivity (activity duty : ℚ)
  | setInputPortActivity (v : V) (activity duty : ℚ)
  | setUserActivity (v : V) (activity duty : ℚ) (origin : PwrActivityOrigin) (varValues : W) (size : ℕ) (valueBit : ℤ)
  | ensureActivities (fuel : ℕ)

def setUser (p : Power V I K W) (v : V) (a : PwrActivity W) : Power V I K W :=
  { p with
    settings := { p.settings with
      userActivityMap := fun other => if other = v then some a else p.settings.userActivityMap other }
    activitiesValid := false }

def ensureActivities (design : Design V E I K) (cudd : BddEvaluation.Cudd) (fuel : ℕ) (p : Power V I K W) :
    Option (Power V I K W) :=
  if p.settings.globalActivity.isSet || p.activitiesValid then some p
  else (design.propagateActivities cudd p.settings fuel).map fun r =>
    { p with maps := r.1, regs := r.2, activitiesValid := true }

def step (design : Design V E I K) (cudd : BddEvaluation.Cudd) (p : Power V I K W) : Event V W → Option (Power V I K W)
  | .setGlobalActivity activity duty => some { p with
      settings := { p.settings with globalActivity := p.settings.globalActivity.set activity duty .global }
      activitiesValid := false }
  | .setInputActivity activity duty => some { p with
      settings := { p.settings with inputActivity := p.settings.inputActivity.set activity duty .input }
      activitiesValid := false }
  | .setInputPortActivity v activity duty => some (p.setUser v (.plain activity duty .user))
  | .setUserActivity v activity duty origin varValues size valueBit =>
    some (p.setUser v ⟨⟨activity, duty⟩, origin, some varValues, size, valueBit⟩)
  | .ensureActivities fuel => p.ensureActivities design cudd fuel

def run (design : Design V E I K) (cudd : BddEvaluation.Cudd) (p : Power V I K W) (events : List (Event V W)) :
    Option (Power V I K W) :=
  events.foldlM (step design cudd) p

end Power

end GTPower.PowerActivity
