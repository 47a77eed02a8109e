import GTPower.PowerActivity

/-! What one visit does to the activities, and a rule for what holds after the passes of a propagation. -/

namespace GTPower.PowerActivity

section Evaluation
open BddEvaluation DecisionDiagram
variable {K : Type} [DecidableEq K] {cudd : Cudd} {inst : InstPorts K} {activities activities' : Activities K}
    {ports : List K}

theorem mem_funcBdd {port : K} (expr : FuncExpr K) (mem : port ∈ (funcBdd cudd expr ports).2) : port ∈ ports ∨
    port ∈ exprPorts expr := by
  induction expr generalizing ports with
  | port other =>
    simp only [funcBdd,ensureNode] at mem
    split at mem
    · exact Or.inl mem
    · simpa [exprPorts] using mem
  | not left ih => exact ih mem
  | or left right ihLeft ihRight | and left right ihLeft ihRight | xor left right ihLeft ihRight =>
    simp only [exprPorts,Finset.mem_union]
    rcases ihRight mem with before | here
    · exact (ihLeft before).imp_right Or.inl
    · exact Or.inr (Or.inr here)
  | one | zero => exact Or.inl mem

/-- Two assignments of activities say the same of a port. -/
def SamePort (inst : InstPorts K) (activities activities' : Activities K) (port : K) : Prop :=
  activities.findActivity port = activities'.findActivity port ∧
    (inst.isInternal port = true → activities.findSeqActivity port = activities'.findSeqActivity port)

omit [DecidableEq K] in
theorem evalBddDuty_congr (same : ∀ port ∈ ports, SamePort inst activities activities' port) (complement : Bool)
    (node : Node) :
    evalBddDuty inst activities ports complement node = evalBddDuty inst activities' ports complement node := by
  induction node generalizing complement with
  | one => rfl
  | ite index high lowComplement low ihHigh ihLow =>
    rw [evalBddDuty,evalBddDuty,ihHigh,ihLow]
    cases read : ports[index]? with
    | none => rfl
    | some port =>
      obtain ⟨pin, internal⟩ := same port (List.mem_of_getElem? read)
      by_cases isInternal : inst.isInternal port = true
      · simp only [Option.map_some,isInternal,if_true,internal isInternal]
      · simp only [Option.map_some,isInternal,Bool.false_eq_true,if_false,pin]

theorem evalFunc_congr {expr : FuncExpr K} (same : ∀ port ∈ exprPorts expr, SamePort inst activities activities' port) :
    evalFunc cudd inst activities expr = evalFunc cudd inst activities' expr := by
  have here : ∀ port ∈ (funcBdd cudd expr []).2, SamePort inst activities activities' port := fun port mem =>
    same port ((mem_funcBdd expr mem).resolve_left List.not_mem_nil)
  have steps : ∀ (bdd : Edge) (portVars : List (K × ℕ)) (start : ℚ),
    (∀ portVar ∈ portVars, portVar.1 ∈ (funcBdd cudd expr []).2) →
      portVars.foldlM (fun activity portVar => if inst.findLinkPin portVar.1 then
        (evalBddDuty inst activities (funcBdd cudd expr []).2 (cudd.bddBooleanDiff bdd portVar.2).complement
          (cudd.bddBooleanDiff bdd portVar.2).node).map fun diffDuty =>
            activity + (activities.findActivity portVar.1).activity * diffDuty else some activity) start =
      portVars.foldlM (fun activity portVar => if inst.findLinkPin portVar.1 then
        (evalBddDuty inst activities' (funcBdd cudd expr []).2 (cudd.bddBooleanDiff bdd portVar.2).complement
          (cudd.bddBooleanDiff bdd portVar.2).node).map fun diffDuty =>
            activity + (activities'.findActivity portVar.1).activity * diffDuty else some activity) start := by
    intro bdd portVars
    induction portVars with
    | nil => exact fun _ _ => rfl
    | cons portVar rest ih =>
      intro start mem
      rw [List.foldlM_cons,List.foldlM_cons,evalBddDuty_congr here,
        (here portVar.1 (mem portVar (List.mem_cons_self))).1]
      congr 1
      funext next
      exact ih next fun other later => mem other (List.mem_cons_of_mem _ later)
  have activity : evalBddActivity cudd inst activities (funcBdd cudd expr []).2 (funcBdd cudd expr []).1 =
      evalBddActivity cudd inst activities' (funcBdd cudd expr []).2 (funcBdd cudd expr []).1 :=
    steps _ _ 0 fun portVar mem => (List.mem_zipIdx mem).2.2 ▸ List.getElem_mem _
  simp only [evalFunc,evalBddDuty_congr here,activity]

end Evaluation

namespace Maps
variable {V I K W : Type} [DecidableEq V] {m : Maps V I K W} {v u : V} {a : PwrActivity W}

@[simp] theorem activity_setActivity : (m.setActivity v a).activity u = if u = v then a else m.activity u := by
  simp only [activity,setActivity]
  split <;> rfl

@[simp] theorem activity_lookup : (m.lookup v).activity u = m.activity u := by
  by_cases same : u = v <;> simp [lookup,same]

@[simp] theorem activityMap_setActivity_ne (apart : u ≠ v) : (m.setActivity v a).activityMap u = m.activityMap u :=
  if_neg apart

end Maps

namespace Design
variable {V E I K W : Type} {design : Design V E I K} {cudd : BddEvaluation.Cudd}
  {settings : Settings V W} {m m' : Maps V I K W} {v u : V} {a : PwrActivity W}

section Readings
variable (design) (cudd) (settings) [DecidableEq K]

def pinFunction (v : V) : Option (FuncExpr K) := (design.libertyPort v).bind (design.function (design.inst v))

def isGatedClk (v : V) : Bool := (design.libertyPort v).any (design.isClockGateOut (design.inst v))

/-- The activity of the first pin is worked out from that of the second one. -/
inductive Reads : V → V → Prop
  | net {v : V} {e : E} {rest : List E} (load : design.isLoad v = true) (first : design.inEdges v = e :: rest)
      (wire : design.isWire e = true) : Reads v (design.fromVertex e)
  | func {v u : V} {func : FuncExpr K} {port : K} (driver : design.isDriver v = true)
    (plain : design.isGatedClk v = false)
      (function : design.pinFunction v = some func) (mem : port ∈ BddEvaluation.exprPorts func)
      (found : design.findPin (design.inst v) port = some u) : Reads v u
  | enable {v enable clk gclk : V} (driver : design.isDriver v = true) (gated : design.isGatedClk v = true)
      (pins : design.clockGatePins (design.inst v) = some (enable, clk, gclk)) : Reads v enable
  | clk {v enable clk gclk : V} (driver : design.isDriver v = true) (gated : design.isGatedClk v = true)
      (pins : design.clockGatePins (design.inst v) = some (enable, clk, gclk)) : Reads v clk

def candidate (m : Maps V I K W) (v : V) : Option (PwrActivity W) :=
  match settings.userActivityMap v with
  | some a => some a
  | none =>
    if design.isLoad v then
      match design.inEdges v with
      | e :: _ => if design.isWire e then some { m.activity (design.fromVertex e) with origin := .propagated } else none
      | [] => none
    else if design.isDriver v then
      if design.isGatedClk v then
        (design.clockGatePins (design.inst v)).map fun pins => design.gatedClkActivity settings m pins.1 pins.2.1
      else (design.pinFunction v).map (design.evalActivity cudd settings m (design.inst v))
    else none

/-- The outputs of registers are apart, and a set of registers has each of them once. -/
structure Registered : Prop where
  outputs : ∀ i, ((design.sequentials i).flatMap fun seq => [seq.output, seq.outputInv]).Nodup
  iterate : ∀ regs, (design.iterate regs).Perm regs

/-- A design as it is linked: pins know their instances, wires begin at drivers, no pin is a load and a driver, and the
output of a clock gate is one pin without a function. -/
structure Lawful : Prop extends design.Registered where
  instPins : ∀ {i port v}, design.findPin i port = some v → design.inst v = i
  pins : ∀ {v port}, design.libertyPort v = some port → v ∈ design.pins (design.inst v)
  apart : ∀ {v}, design.isLoad v = true → design.isDriver v = false
  wires : ∀ {v e}, e ∈ design.inEdges v → design.isWire e = true → design.isDriver (design.fromVertex e) = true
  gates : ∀ {v}, design.isDriver v = true → design.isGatedClk v = true → design.pinFunction v = none ∧
    ∀ {enable clk gclk}, design.clockGatePins (design.inst v) = some (enable, clk, gclk) → gclk = v
  cells : ∀ {i}, design.sequentials i ≠ [] → design.hasCell i = true
  levels : ∀ v, design.level v ≤ design.maxLevel

/-- All that the activity of a pin is worked out from leads to the pin: changes of what a driver reads, the inputs of
its cell, enqueue it, and so do those of the register behind an internal port. -/
structure Supported (v : V) : Prop where
  leads : ∀ {u}, design.Reads v u → v ∈ design.enqueued u
  loads : design.isDriver v = true → ∀ {u}, design.Reads v u → design.isDriver u = false
  internal : ∀ {func}, design.pinFunction v = some func →
    (∃ seq ∈ design.sequentials (design.inst v), func = .port seq.output ∨ func = .port seq.outputInv) ∨
      ∀ port ∈ BddEvaluation.exprPorts func, design.isInternal (design.inst v) port = false

def SameAt (m m' : Maps V I K W) (u : V) : Prop :=
  m.activity u = m'.activity u ∧
    (design.isDriver u = false → design.findActivity settings m u = design.findActivity settings m' u)

end Readings

section Congruence

theorem findActivity_congr (same : m.activityMap u = m'.activityMap u) :
    design.findActivity settings m u = design.findActivity settings m' u := by
  simp only [findActivity,same]

theorem findSeqActivity_congr {i : I} {port : K} (same : m.seqActivityMap i port = m'.seqActivityMap i port) :
    findSeqActivity settings m i port = findSeqActivity settings m' i port := by
  simp only [findSeqActivity,same]

variable [DecidableEq K]

theorem evalBdd_congr {i : I} {expr : FuncExpr K}
    (pins : ∀ port ∈ BddEvaluation.exprPorts expr, ∀ {u}, design.findPin i port = some u →
      design.findActivity settings m u = design.findActivity settings m' u)
    (internal : ∀ port ∈ BddEvaluation.exprPorts expr, design.isInternal i port = true →
      findSeqActivity settings m i port = findSeqActivity settings m' i port) :
    design.evalBdd cudd settings m i expr = design.evalBdd cudd settings m' i expr := by
  have same : ∀ port ∈ BddEvaluation.exprPorts expr,
      SamePort (design.instPorts i) (design.activities settings m i) (design.activities settings m' i) port := by
    intro port mem
    refine ⟨?_, fun isInternal => ?_⟩
    · simp only [activities]
      cases found : design.findPin i port with
      | none => rfl
      | some u => simp only [pins port mem found]
    · simp only [activities,internal port mem isInternal]
  rw [evalBdd,evalBdd,evalFunc_congr same]

theorem evalActivity_congr {i : I} {expr : FuncExpr K}
    (pins : ∀ port ∈ BddEvaluation.exprPorts expr, ∀ {u}, design.findPin i port = some u →
      design.findActivity settings m u = design.findActivity settings m' u)
    (internal : ∀ port ∈ BddEvaluation.exprPorts expr, design.isInternal i port = true →
      findSeqActivity settings m i port = findSeqActivity settings m' i port) :
    design.evalActivity cudd settings m i expr = design.evalActivity cudd settings m' i expr := by
  have bdd : design.evalBdd cudd settings m i expr = design.evalBdd cudd settings m' i expr :=
    evalBdd_congr pins internal
  cases expr with
  | port port =>
    simp only [evalActivity]
    split
    · next isInternal => exact internal port (by simp [BddEvaluation.exprPorts]) isInternal
    · exact bdd
  | _ => exact bdd

/-- The activity of a supported pin depends on the pins that it reads and the register behind it. -/
theorem candidate_congr (supported : design.Supported v)
    (same : ∀ {u}, design.Reads v u → design.SameAt settings m m' u)
    (seqs : ∀ seq ∈ design.sequentials (design.inst v), ∀ port, (port = seq.output ∨ port = seq.outputInv) →
      design.pinFunction v = some (.port port) →
        m.seqActivityMap (design.inst v) port = m'.seqActivityMap (design.inst v) port) :
    design.candidate cudd settings m v = design.candidate cudd settings m' v := by
  rw [candidate,candidate]
  cases settings.userActivityMap v with
  | some a => exact Eq.refl (some a)
  | none =>
    dsimp only
    split
    · next load =>
      cases first : design.inEdges v with
      | nil => exact Eq.refl none
      | cons e rest =>
        dsimp only
        split
        · next wire => rw [(same (.net load first wire)).1]
        · rfl
    · split
      · next driver =>
        have pin : ∀ {u}, design.Reads v u → design.findActivity settings m u = design.findActivity settings m' u :=
          fun reads =>
          (same reads).2 (supported.loads driver reads)
        split
        · next gated =>
          cases pins : design.clockGatePins (design.inst v) with
          | none => exact Eq.refl none
          | some found =>
            obtain ⟨enable, clk, gclk⟩ := found
            simp only [Option.map_some,gatedClkActivity,pin (.enable driver gated pins),pin (.clk driver gated pins)]
        · next plain =>
          have plain : design.isGatedClk v = false := Bool.eq_false_iff.mpr plain
          cases function : design.pinFunction v with
          | none => exact Eq.refl none
          | some func =>
            have pins : ∀ port ∈ BddEvaluation.exprPorts func, ∀ {u}, design.findPin (design.inst v) port = some u →
                design.findActivity settings m u = design.findActivity settings m' u := fun port mem _ found =>
              pin (.func driver plain function mem found)
            simp only [Option.map_some,Option.some.injEq]
            refine evalActivity_congr pins fun port mem isInternal => findSeqActivity_congr ?_
            rcases supported.internal function with ⟨seq, isSeq, isOutput⟩ | none
            · rcases isOutput with rfl | rfl
              · simp only [BddEvaluation.exprPorts,Finset.mem_singleton] at mem
                exact mem ▸ seqs seq isSeq _ (Or.inl rfl) function
              · simp only [BddEvaluation.exprPorts,Finset.mem_singleton] at mem
                exact mem ▸ seqs seq isSeq _ (Or.inr rfl) function
            · rw [none port mem] at isInternal
              cases isInternal
      · rfl

end Congruence

section Visits

theorem differs_self (a : PwrActivity W) : differs a a = false := by
  simp [differs,changeTolerance]

theorem differs_origin {prev : PwrActivity W} (same : differs a prev = false) : a.origin = prev.origin := by
  simp only [differs,Bool.or_eq_false_iff,decide_eq_false_iff_not,ne_eq,not_not] at same
  exact same.2

/-- Nothing that is read of any pin changes in a visit that sets nothing. -/
structure Still (design : Design V E I K) (settings : Settings V W) (m m' : Maps V I K W) : Prop where
  same : ∀ u, design.SameAt settings m m' u
  seqs : m'.seqActivityMap = m.seqActivityMap
  visitedRegs : m'.visitedRegs = m.visitedRegs

/-- The activity of one pin is set, and nothing else that is read changes but the registers to be visited. -/
structure Changed (design : Design V E I K) (settings : Settings V W) (m m' : Maps V I K W) (v : V)
    (a : PwrActivity W) : Prop where
  here : m'.activityMap v = some a
  same : ∀ u, u ≠ v → design.SameAt settings m m' u
  seqs : m'.seqActivityMap = m.seqActivityMap
  visitedRegs : ∀ i, i ∈ m'.visitedRegs ↔ i ∈ m.visitedRegs ∨ design.loadOfCell v = true ∧
    design.hasSequentials (design.inst v) = true ∧
    i = design.inst v

theorem Changed.activity (changed : Changed design settings m m' v a) : m'.activity v = a := by
  rw [Maps.activity,changed.here,Option.getD_some]

variable [DecidableEq V]

theorem sameAt_lookup (hidden : design.isDriver v = true ∨ ∀ a, settings.userActivityMap v = some a → a.isSet = false)
    (u : V) :
    design.SameAt settings m (m.lookup v) u := by
  refine ⟨Maps.activity_lookup.symm, fun load => ?_⟩
  by_cases same : u = v
  · subst same
    have unset := hidden.resolve_left (by simp [load])
    have here : (m.lookup u).activityMap u = some (m.activity u) := if_pos rfl
    cases entry : m.activityMap u with
    | some prev =>
      apply findActivity_congr
      rw [here,Maps.activity,entry,Option.getD_some]
    | none =>
      have missing : (m.lookup u).activityMap u = some .unknown := by
        rw [here,Maps.activity,entry,Option.getD_none]
      cases user : settings.userActivityMap u with
      | none => simp [findActivity,missing,entry,user,PwrActivity.unknown,PwrActivity.isSet,PwrActivity.plain]
      | some a =>
        have origin : a.origin = .unknown := by simpa [PwrActivity.isSet] using unset a user
        simp [findActivity,missing,entry,user,origin,PwrActivity.unknown,PwrActivity.isSet,PwrActivity.plain]
  · exact findActivity_congr (Maps.activityMap_setActivity_ne same).symm

variable [DecidableEq K]

variable (cudd settings) in
/-- Every visit checks one activity at most, for the pin itself, after the driver of a load was looked up. -/
theorem visitPin_cases (lawful : design.Lawful) (m : Maps V I K W) (v : V) :
    design.candidate cudd settings m v = none ∧ design.visitPin cudd settings m v = (m, false) ∨
      ∃ a before, design.candidate cudd settings m v = some a ∧
        design.visitPin cudd settings m v = setActivityCheck before v a ∧
        (before = m ∨ design.isDriver v = false ∧ ∃ u, design.isDriver u = true ∧ before = m.lookup u) := by
  rw [candidate,visitPin]
  cases settings.userActivityMap v with
  | some a => exact Or.inr ⟨a, m, rfl, rfl, Or.inl rfl⟩
  | none =>
    dsimp only
    by_cases load : design.isLoad v = true
    · have driver := lawful.apart load
      simp only [load,driver,if_true,Bool.false_eq_true,if_false,visitLoad]
      cases first : design.inEdges v with
      | nil => exact Or.inl ⟨rfl, rfl⟩
      | cons e rest =>
        dsimp only
        split
        · next wire =>
          have from' := lawful.wires (first ▸ List.mem_cons_self) wire
          exact Or.inr ⟨_, _, rfl, rfl, Or.inr ⟨trivial, _, from', rfl⟩⟩
        · exact Or.inl ⟨rfl, rfl⟩
    · simp only [load,Bool.false_eq_true,if_false]
      by_cases driver : design.isDriver v = true
      · simp only [driver,if_true,visitDriver]
        have gates := lawful.gates driver
        cases port : design.libertyPort v with
        | none => exact Or.inl ⟨by simp [isGatedClk,pinFunction,port], rfl⟩
        | some port' =>
          have gated : design.isGatedClk v = design.isClockGateOut (design.inst v) port' := by simp [isGatedClk,port]
          have function : design.pinFunction v = design.function (design.inst v) port' := by simp [pinFunction,port]
          rw [gated,function] at gates
          simp only [gated,function]
          by_cases isGate : design.isClockGateOut (design.inst v) port' = true
          · obtain ⟨none, last⟩ := gates isGate
            simp only [isGate,none,if_true,visitGatedClk]
            cases pins : design.clockGatePins (design.inst v) with
            | none => exact Or.inl ⟨rfl, rfl⟩
            | some found =>
              obtain ⟨enable, clk, gclk⟩ := found
              obtain rfl := last pins
              exact Or.inr ⟨_, _, rfl, rfl, Or.inl rfl⟩
          · simp only [isGate,Bool.false_eq_true,if_false]
            cases design.function (design.inst v) port' with
            | none => exact Or.inl ⟨rfl, rfl⟩
            | some func => exact Or.inr ⟨_, _, rfl, rfl, Or.inl rfl⟩
      · simp only [driver,Bool.false_eq_true,if_false]
        exact Or.inl ⟨trivial, trivial⟩

variable [DecidableEq I]

variable (cudd settings) in
theorem visit_cases (lawful : design.Lawful) (m : Maps V I K W) (v : V) :
    (design.visit cudd settings m v).1.visited = m.visited ++ [v] ∧
      ((design.visit cudd settings m v).2 = [] ∧ Still design settings m (design.visit cudd settings m v).1 ∧
        (∀ a, design.candidate cudd settings m v = some a → differs a (m.activity v) = false) ∨
      ∃ a, design.candidate cudd settings m v = some a ∧ differs a (m.activity v) = true ∧
        (design.visit cudd settings m v).2 = design.enqueued v ∧
          Changed design settings m (design.visit cudd settings m v).1 v a) := by
  rcases visitPin_cases cudd settings lawful m v with ⟨none, visit⟩ | ⟨a, before, some', visit, prepared⟩
  · simp only [Design.visit,visit,Bool.false_eq_true,if_false]
    refine ⟨trivial, Or.inl ⟨trivial, ⟨fun u => ⟨rfl, fun _ => rfl⟩, rfl, rfl⟩, fun a some' => ?_⟩⟩
    rw [none] at some'
    cases some'
  · have sameBefore : ∀ u, design.SameAt settings m before u := by
      rcases prepared with rfl | ⟨_, from', driver, rfl⟩
      · exact fun u => ⟨rfl, fun _ => rfl⟩
      · exact sameAt_lookup (Or.inl driver)
    have rest : before.seqActivityMap = m.seqActivityMap ∧ before.visitedRegs = m.visitedRegs ∧
      before.visited = m.visited := by
      rcases prepared with rfl | ⟨_, from', driver, rfl⟩ <;> exact ⟨rfl, rfl, rfl⟩
    have prev : before.activity v = m.activity v := (sameBefore v).1.symm
    by_cases isChanged : differs a (m.activity v) = true
    · have set : design.visitPin cudd settings m v = (before.setActivity v a, true) := by
        rw [visit,setActivityCheck,prev,if_pos isChanged]
      have sameSet : ∀ u, u ≠ v → design.SameAt settings m (before.setActivity v a) u := by
        intro u apart
        refine ⟨?_, fun load => ?_⟩
        · rw [Maps.activity_setActivity,if_neg apart]
          exact (sameBefore u).1
        · exact ((sameBefore u).2 load).trans (findActivity_congr (Maps.activityMap_setActivity_ne apart).symm)
      simp only [Design.visit,set,if_true]
      by_cases register : design.loadOfCell v && design.hasSequentials (design.inst v)
      · simp only [register,if_true]
        refine ⟨congrArg (· ++ [v]) rest.2.2, Or.inr ⟨a, some', isChanged, trivial, if_pos rfl, fun u apart =>
          sameSet u apart, rest.1, ?_⟩⟩
        intro i
        rw [Bool.and_eq_true] at register
        have register' : i = design.inst v ↔
            design.loadOfCell v = true ∧ design.hasSequentials (design.inst v) = true ∧ i = design.inst v :=
          ⟨fun same => ⟨register.1, register.2, same⟩, fun all => all.2.2⟩
        show i ∈ before.visitedRegs.insert (design.inst v) ↔ _
        rw [List.mem_insert_iff,rest.2.1]
        exact or_comm.trans (or_congr_right register')
      · simp only [register,Bool.false_eq_true,if_false]
        refine ⟨congrArg (· ++ [v]) rest.2.2, Or.inr ⟨a, some', isChanged, trivial, if_pos rfl, fun u apart =>
          sameSet u apart, rest.1, ?_⟩⟩
        intro i
        rw [Bool.and_eq_true] at register
        constructor
        · exact fun mem => Or.inl (rest.2.1 ▸ mem)
        · rintro (mem | ⟨load, seqs, _⟩)
          · exact rest.2.1.symm ▸ mem
          · exact absurd ⟨load, seqs⟩ register
    · have isStill := Bool.eq_false_iff.mpr isChanged
      have looked : design.visitPin cudd settings m v = (before.lookup v, false) := by
        rw [visit,setActivityCheck,prev,isStill]
        rfl
      have hidden : design.isDriver v = true ∨ ∀ b, settings.userActivityMap v = some b → b.isSet = false ∨
        m.activityMap v ≠ none := by
        refine Or.inr fun b user => ?_
        have same : b = a := by
          rw [candidate,user] at some'
          exact Option.some.inj some'
        subst same
        by_cases missing : m.activityMap v = none
        · have origin := differs_origin isStill
          rw [Maps.activity,missing] at origin
          exact Or.inl (by simp [PwrActivity.isSet,origin,PwrActivity.unknown,PwrActivity.plain])
        · exact Or.inr missing
      have same : ∀ u, design.SameAt settings m (before.lookup v) u := by
        intro u
        by_cases missing : m.activityMap v = none
        · have unset : design.isDriver v = true ∨ ∀ b, settings.userActivityMap v = some b → b.isSet = false :=
            hidden.imp_right fun all b user => (all b user).resolve_right (not_not.mpr missing)
          have last : design.SameAt settings before (before.lookup v) u := sameAt_lookup unset u
          exact ⟨(sameBefore u).1.trans last.1, fun load => ((sameBefore u).2 load).trans (last.2 load)⟩
        · refine ⟨(sameBefore u).1.trans Maps.activity_lookup.symm, fun load =>
            ((sameBefore u).2 load).trans (findActivity_congr ?_)⟩
          by_cases isV : u = v
          · subst isV
            have here : before.activityMap u = m.activityMap u := by
              rcases prepared with rfl | ⟨_, from', driver, rfl⟩
              · rfl
              · refine if_neg fun isFrom => ?_
                rw [← isFrom,load] at driver
                cases driver
            obtain ⟨entry, found⟩ := Option.ne_none_iff_exists'.mp missing
            have looked : (before.lookup u).activityMap u = some (before.activity u) := if_pos rfl
            rw [looked,Maps.activity,here,found,Option.getD_some]
          · exact (Maps.activityMap_setActivity_ne isV).symm
      simp only [Design.visit,looked,Bool.false_eq_true,if_false]
      refine ⟨congrArg (· ++ [v]) rest.2.2, Or.inl ⟨trivial, ⟨same, rest.1, rest.2.1⟩, fun b other => ?_⟩⟩
      rw [some'] at other
      cases other
      exact isStill

end Visits

/-! What holds of the maps and of the vertices that wait, while some registers are still to be propagated through, and
is kept by every step holds after the propagation. -/
section Rule
variable [DecidableEq V]

/-- The maps without activities, and the queue as it is made. -/
def start : Run V I K W := (.empty, Bfs.init 0 levelMax ⟨fun _ => [], fun _ => false, 0, 0, [], 0⟩)

theorem sound_start : Bfs.Sound design.level (start : Run V I K W).2 :=
  ⟨fun _ _ => by simp [start,Bfs.init], fun _ absurd => Bool.noConfusion absurd, fun _ absurd =>
    Bool.noConfusion absurd⟩

theorem sound_seedActivities (sound : Bfs.Sound design.level r.2) (roots : List V) :
    Bfs.Sound design.level (roots.foldl (design.seedActivity settings) r).2 := by
  induction roots generalizing r with
  | nil => exact sound
  | cons v rest ih =>
    refine ih ?_
    unfold seedActivity
    split
    · exact sound
    · exact sound.enqueueAll (design.adjacentVertices v)

variable [DecidableEq I] [DecidableEq K]

structure Carried (design : Design V E I K) (cudd : BddEvaluation.Cudd) (settings : Settings V W)
    (inv : List I → Maps V I K W → (V → Bool) → Prop) : Prop where
  visit : ∀ {regs m waits v}, inv regs m waits → waits v = true →
    inv regs (design.visit cudd settings m v).1 fun u =>
      (waits u && decide (u ≠ v)) || decide (u ∈ (design.visit cudd settings m v).2)
  register : ∀ {reg regs} {r : Run V I K W}, inv (reg :: regs) r.1 r.2.inQueue →
    inv regs (design.seedRegOutputActivities cudd settings r reg).1
      (design.seedRegOutputActivities cudd settings r reg).2.inQueue
  take : ∀ {m waits}, inv [] m waits → inv m.visitedRegs { m with visitedRegs := [] } waits
  perm : ∀ {regs regs' m waits}, regs.Perm regs' → inv regs m waits → inv regs' m waits

variable {inv : List I → Maps V I K W → (V → Bool) → Prop} {regs regs' : List I} {r r' : Run V I K W} {fuel : ℕ}

theorem search_rule (carried : Carried design cudd settings inv) (sound : Bfs.Sound design.level r.2)
    (holds : inv regs r.1 r.2.inQueue)
    (run : design.search cudd settings fuel r = some r') : Bfs.Sound design.level r'.2 ∧ inv regs r'.1 r'.2.inQueue ∧
      ((∀ v, design.level v ≤ design.maxLevel) → ∀ v, r'.2.inQueue v = false) := by
  obtain ⟨bfs, visits, rfl⟩ := Option.map_eq_some_iff.1 run
  have keeps : Bfs.Keeps (design.visitor cudd settings r.1) fun visited waits =>
    inv regs (design.mapsAfter cudd settings r.1 visited) waits := by
    intro visited waits v before here
    have next := carried.visit before here
    have after : design.mapsAfter cudd settings r.1 (visited ++ [v]) =
      (design.visit cudd settings (design.mapsAfter cudd settings r.1 visited) v).1 := by
      simp only [mapsAfter,List.foldl_append,List.foldl_cons,List.foldl_nil]
    rw [after]
    exact next
  have start : Bfs.Sound design.level { r.2 with visited := [] } := ⟨sound.count, sound.first, sound.last⟩
  obtain ⟨sound', holds', stop⟩ := Bfs.visit_sequential keeps start holds visits
  refine ⟨sound', holds', fun levels v => Bool.eq_false_iff.mpr fun waits => ?_⟩
  have first := sound'.first v waits
  have last := sound'.last v waits
  have level := levels v
  unfold Bfs.more at stop
  omega

theorem sound_seedRegOutputActivities (sound : Bfs.Sound design.level r.2) (reg : I) :
    Bfs.Sound design.level (design.seedRegOutputActivities cudd settings r reg).2 := by
  unfold seedRegOutputActivities
  induction design.sequentials reg generalizing r with
  | nil => exact sound
  | cons seq rest ih =>
    have next : Bfs.Sound design.level (design.seedSequential cudd settings reg r seq).2 :=
      sound.enqueueAll (design.regOutputPins reg seq)
    exact ih next

theorem registers_rule (carried : Carried design cudd settings inv) (sound : Bfs.Sound design.level r.2)
    (holds : inv regs r.1 r.2.inQueue) :
    Bfs.Sound design.level (regs.foldl (design.seedRegOutputActivities cudd settings) r).2 ∧
      inv [] (regs.foldl (design.seedRegOutputActivities cudd settings) r).1
        (regs.foldl (design.seedRegOutputActivities cudd settings) r).2.inQueue := by
  induction regs generalizing r with
  | nil => exact ⟨sound, holds⟩
  | cons reg rest ih => exact ih (sound_seedRegOutputActivities sound reg) (carried.register holds)

theorem propagatePass_rule (carried : Carried design cudd settings inv) (order : (design.iterate regs).Perm regs)
    (sound : Bfs.Sound design.level r.2) (holds : inv regs r.1 r.2.inQueue)
    (run : design.propagatePass cudd settings fuel regs r = some (r', regs')) : Bfs.Sound design.level r'.2 ∧
    inv regs' r'.1 r'.2.inQueue ∧
      ((∀ v, design.level v ≤ design.maxLevel) → ∀ v, r'.2.inQueue v = false) := by
  obtain ⟨next, search, same⟩ := Option.map_eq_some_iff.1 run
  obtain ⟨rfl, rfl⟩ := Prod.mk.inj same
  obtain ⟨seeded, holds⟩ := registers_rule carried sound (carried.perm order.symm holds)
  obtain ⟨sound', holds', idle⟩ := search_rule carried seeded holds search
  exact ⟨⟨sound'.count, sound'.first, sound'.last⟩, carried.take holds', idle⟩

theorem propagateRegs_rule (carried : Carried design cudd settings inv)
    (order : ∀ regs, (design.iterate regs).Perm regs) (sound : Bfs.Sound design.level r.2)
    (holds : inv regs r.1 r.2.inQueue) (idle : (∀ v, design.level v ≤ design.maxLevel) → ∀ v, r.2.inQueue v = false)
    (passes : ℕ) (run : design.propagateRegs cudd settings fuel passes regs r = some (r', regs')) :
    inv regs' r'.1 r'.2.inQueue ∧
      ((∀ v, design.level v ≤ design.maxLevel) → ∀ v, r'.2.inQueue v = false) := by
  induction passes generalizing regs r with
  | zero =>
    cases run
    exact ⟨holds, idle⟩
  | succ passes ih =>
    rw [propagateRegs] at run
    split at run
    · cases run
      exact ⟨holds, idle⟩
    · obtain ⟨⟨next, left⟩, pass, rest⟩ := Option.bind_eq_some_iff.1 run
      obtain ⟨sound', holds', idle'⟩ := propagatePass_rule carried (order regs) sound holds pass
      exact ih sound' holds' idle' rest

theorem propagateActivities_rule (carried : Carried design cudd settings inv)
    (order : ∀ regs, (design.iterate regs).Perm regs)
    (seeded : inv [] (design.seedActivities settings start).1 (design.seedActivities settings start).2.inQueue)
    (run : design.propagateActivities cudd settings fuel = some (m, regs)) : ∃ waits, inv regs m waits ∧
      ((∀ v, design.level v ≤ design.maxLevel) → ∀ v, waits v = false) := by
  obtain ⟨first, search, rest⟩ := Option.bind_eq_some_iff.1 run
  obtain ⟨⟨last, left⟩, passes, same⟩ := Option.map_eq_some_iff.1 rest
  obtain ⟨rfl, rfl⟩ := Prod.mk.inj same
  obtain ⟨sound, holds, idle⟩ := search_rule carried (sound_seedActivities sound_start design.roots) seeded search
  let taken : Run V I K W := ({ first.1 with visitedRegs := [] }, first.2)
  have sound' : Bfs.Sound design.level taken.2 := sound
  have holds' : inv first.1.visitedRegs taken.1 taken.2.inQueue := carried.take holds
  have idle' : (∀ v, design.level v ≤ design.maxLevel) → ∀ v, taken.2.inQueue v = false := idle
  obtain ⟨holds', idle'⟩ := propagateRegs_rule carried order sound' holds' idle' (maxActivityPasses - 1) passes
  exact ⟨_, holds', idle'⟩

end Rule

end Design

end GTPower.PowerActivity
