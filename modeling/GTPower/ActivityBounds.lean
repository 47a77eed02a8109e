import Mathlib.Data.Fintype.Sets
import Mathlib.Tactic.Positivity
import GTPower.ActivityPasses

/-! Activities and duties stay within their bounds, propagations end, and both hold with the agreement of the passes for
everything that is set and propagated over time. -/

namespace GTPower.PowerActivity

/-- No pin switches less than never, and a duty is a probability. -/
structure PwrActivity.Valid {W : Type} (a : PwrActivity W) : Prop where
  activity : 0 ≤ a.activity
  low : 0 ≤ a.duty
  high : a.duty ≤ 1

section Evaluation
open BddEvaluation DecisionDiagram
variable {K : Type} {cudd : Cudd} {inst : InstPorts K} {activities : Activities K} {ports : List K}

/-- The activities that an evaluation reads are within their bounds. -/
structure ReadsValid (activities : Activities K) : Prop where
  activity : ∀ port, 0 ≤ (activities.findActivity port).activity
  pin : ∀ port, 0 ≤ (activities.findActivity port).duty ∧ (activities.findActivity port).duty ≤ 1
  seq : ∀ port, 0 ≤ (activities.findSeqActivity port).duty ∧ (activities.findSeqActivity port).duty ≤ 1

theorem evalBddDuty_mem (valid : ReadsValid activities) {complement : Bool} {node : Node} {duty : ℚ}
    (found : evalBddDuty inst activities ports complement node = some duty) : 0 ≤ duty ∧ duty ≤ 1 := by
  induction node generalizing complement duty with
  | one =>
    cases found
    cases complement <;> simp
  | ite index high lowComplement low ihHigh ihLow =>
    rw [evalBddDuty] at found
    obtain ⟨duty0, low', found⟩ := Option.bind_eq_some_iff.1 found
    obtain ⟨duty1, high', found⟩ := Option.bind_eq_some_iff.1 found
    obtain ⟨port, _, rfl⟩ := Option.map_eq_some_iff.1 found
    obtain ⟨low0, high0⟩ := ihLow low'
    obtain ⟨low1, high1⟩ := ihHigh high'
    split
    · exact valid.seq port
    · split
      · obtain ⟨nonneg, most⟩ := valid.pin port
        have rest : 0 ≤ 1 - (activities.findActivity port).duty := sub_nonneg.mpr most
        have lower : 0 ≤ duty0 * (1 - (activities.findActivity port).duty) + duty1 *
          (activities.findActivity port).duty := by positivity
        have upper : duty0 * (1 - (activities.findActivity port).duty) + duty1 *
          (activities.findActivity port).duty ≤ 1 := by
          have first := mul_le_of_le_one_left rest high0
          have second := mul_le_of_le_one_left nonneg high1
          linarith
        dsimp only
        split
        · exact ⟨sub_nonneg.mpr upper, sub_le_self 1 lower⟩
        · exact ⟨lower, upper⟩
      · exact ⟨le_rfl, zero_le_one⟩

theorem evalBddActivity_nonneg (valid : ReadsValid activities) {bdd : Edge} {activity : ℚ}
    (found : evalBddActivity cudd inst activities ports bdd = some activity) : 0 ≤ activity := by
  have steps : ∀ (portVars : List (K × ℕ)) (start : ℚ), 0 ≤ start → portVars.foldlM (fun activity portVar =>
      if inst.findLinkPin portVar.1 then
        (evalBddDuty inst activities ports (cudd.bddBooleanDiff bdd portVar.2).complement
          (cudd.bddBooleanDiff bdd portVar.2).node).map
          fun diffDuty => activity + (activities.findActivity portVar.1).activity * diffDuty
      else some activity) start = some activity → 0 ≤ activity := by
    intro portVars
    induction portVars with
    | nil =>
      intro start nonneg found
      cases found
      exact nonneg
    | cons portVar rest ih =>
      intro start nonneg found
      rw [List.foldlM_cons] at found
      obtain ⟨next, here, later⟩ := Option.bind_eq_some_iff.1 found
      refine ih next ?_ later
      split at here
      · obtain ⟨diffDuty, duty, rfl⟩ := Option.map_eq_some_iff.1 here
        have low := (evalBddDuty_mem valid duty).1
        have factor := valid.activity portVar.1
        positivity
      · cases here
        exact nonneg
  exact steps ports.zipIdx 0 le_rfl found

end Evaluation

namespace Design
variable {V E I K W : Type} {design : Design V E I K} {cudd : BddEvaluation.Cudd}
  {settings : Settings V W} {m m' : Maps V I K W} {v u : V} {a : PwrActivity W} {reg : I}

section Bounds

/-- What the user sets and the duties of the clocks are within their bounds. -/
structure SettingsValid (design : Design V E I K) (settings : Settings V W) : Prop where
  globalActivity : settings.globalActivity.Valid
  inputActivity : settings.inputActivity.Valid
  user : ∀ {v a}, settings.userActivityMap v = some a → a.Valid
  clocks : ∀ v, 0 ≤ design.clockDuty v ∧ design.clockDuty v ≤ 1

/-- Every activity in the maps is within its bounds, and outputs of registers, which are no latches, switch once in a
cycle at most. -/
structure MapsValid (design : Design V E I K) (m : Maps V I K W) : Prop where
  pins : ∀ {v a}, m.activityMap v = some a → a.Valid
  seqs : ∀ {i port a}, m.seqActivityMap i port = some a → a.Valid
  once : ∀ {i seq port a}, seq ∈ design.sequentials i → seq.isRegister = true → port = seq.output ∨
    port = seq.outputInv →
    m.seqActivityMap i port = some a → a.activity ≤ 1

theorem valid_plain {activity duty : ℚ} {origin : PwrActivityOrigin} (nonneg : 0 ≤ activity) (low : 0 ≤ duty)
    (high : duty ≤ 1) :
    (PwrActivity.plain activity duty origin : PwrActivity W).Valid := ⟨nonneg, low, high⟩

theorem valid_unknown : (PwrActivity.unknown : PwrActivity W).Valid := valid_plain le_rfl le_rfl zero_le_one

theorem valid_activity (valid : MapsValid design m) (v : V) : (m.activity v).Valid := by
  rw [Maps.activity]
  cases entry : m.activityMap v with
  | none => exact valid_unknown
  | some a => exact valid.pins entry

theorem valid_findActivity (settled : SettingsValid design settings) (valid : MapsValid design m) (v : V) :
    (design.findActivity settings m v).Valid := by
  have clock : (PwrActivity.plain 2 (design.clockDuty v) .clock : PwrActivity W).Valid :=
    valid_plain zero_le_two (settled.clocks v).1 (settled.clocks v).2
  unfold findActivity
  split
  · exact valid_plain le_rfl le_rfl zero_le_one
  split
  · split
    · next entry =>
      split
      · exact valid.pins entry
      · exact clock
    · next user =>
      split
      · exact settled.user user
      · exact clock
    · exact clock
  split
  · exact settled.globalActivity
  split
  · next entry =>
    split
    · exact valid.pins entry
    · exact valid_unknown
  · next user =>
    split
    · exact settled.user user
    · exact valid_unknown
  · exact valid_unknown

theorem valid_findSeqActivity (settled : SettingsValid design settings) (valid : MapsValid design m) (i : I)
    (port : K) :
    (findSeqActivity settings m i port).Valid := by
  unfold findSeqActivity
  split
  · exact settled.globalActivity
  split
  · next entry =>
    split
    · exact valid.seqs entry
    · exact valid_unknown
  · exact valid_unknown

theorem readsValid_activities (settled : SettingsValid design settings) (valid : MapsValid design m) (i : I) :
    ReadsValid (design.activities settings m i) := by
  have pin : ∀ port, 0 ≤ ((design.activities settings m i).findActivity port).activity ∧
      0 ≤ ((design.activities settings m i).findActivity port).duty ∧
        ((design.activities settings m i).findActivity port).duty ≤ 1 := by
    intro port
    simp only [activities]
    split
    · next v _ =>
      have here := valid_findActivity settled valid v
      exact ⟨here.activity, here.low, here.high⟩
    · exact ⟨le_rfl, le_rfl, zero_le_one⟩
  refine ⟨fun port => (pin port).1, fun port => (pin port).2, fun port => ?_⟩
  have here := valid_findSeqActivity settled valid i port
  exact ⟨here.low, here.high⟩

theorem valid_gatedClkActivity (settled : SettingsValid design settings) (valid : MapsValid design m) (enable clk : V) :
    (design.gatedClkActivity settings m enable clk).Valid := by
  have first := valid_findActivity settled valid clk
  have second := valid_findActivity settled valid enable
  have a1 := first.activity
  have d1 := first.low
  have a2 := second.activity
  have d2 := second.low
  refine valid_plain (by positivity) (by positivity) ?_
  exact mul_le_one₀ first.high d2 second.high

theorem Registered.sequential_eq (registered : design.Registered) {i : I} {seq seq' : Sequential K} {port : K}
    (mem : seq ∈ design.sequentials i) (mem' : seq' ∈ design.sequentials i)
    (out : port = seq.output ∨ port = seq.outputInv) (out' : port = seq'.output ∨ port = seq'.outputInv) :
    seq = seq' := by
  by_contra differ
  have apart := List.nodup_flatMap.1 (registered.outputs i)
  have symm : Std.Symm (Function.onFun List.Disjoint fun seq : Sequential K => [seq.output, seq.outputInv]) :=
    ⟨fun _ _ => List.Disjoint.symm⟩
  have disjoint : List.Disjoint [seq.output, seq.outputInv] [seq'.output, seq'.outputInv] :=
    apart.2.forall mem mem' differ
  exact disjoint (by simpa using out) (by simpa using out')

section Functions
variable [DecidableEq K]

theorem valid_evalActivity (settled : SettingsValid design settings) (valid : MapsValid design m) (i : I)
    (expr : FuncExpr K) :
    (design.evalActivity cudd settings m i expr).Valid := by
  have reads := readsValid_activities settled valid i
  have bdd : (design.evalBdd cudd settings m i expr).Valid := by
    unfold evalBdd
    split
    · next found =>
      obtain ⟨duty, isDuty, rest⟩ := Option.bind_eq_some_iff.1 found
      obtain ⟨activity, isActivity, rfl⟩ := Option.map_eq_some_iff.1 rest
      obtain ⟨low, high⟩ := evalBddDuty_mem reads isDuty
      exact valid_plain (evalBddActivity_nonneg reads isActivity) low high
    · exact valid_unknown
  cases expr with
  | port port =>
    show (if design.isInternal i port then findSeqActivity settings m i port
      else design.evalBdd cudd settings m i (.port port)).Valid
    split
    · exact valid_findSeqActivity settled valid i port
    · exact bdd
  | _ => exact bdd

theorem valid_regOutputActivity (settled : SettingsValid design settings) (valid : MapsValid design m)
    (seq : Sequential K) (invert : Bool) :
    (design.regOutputActivity cudd settings m reg seq invert).Valid ∧
      (seq.isRegister = true → (design.regOutputActivity cudd settings m reg seq invert).activity ≤ 1) := by
  obtain ⟨nonneg, low, high⟩ := valid_evalActivity settled valid reg seq.data
  unfold regOutputActivity
  generalize design.evalActivity cudd settings m reg seq.data = a at nonneg low high
  constructor
  · cases invert <;> by_cases most : (seq.isRegister && decide (1 < a.activity)) = true
    · simp only [most,if_true,Bool.false_eq_true,if_false]
      exact ⟨zero_le_one, low, high⟩
    · simp only [most,Bool.false_eq_true,if_false]
      exact ⟨nonneg, low, high⟩
    · simp only [most,if_true]
      exact ⟨zero_le_one, sub_nonneg.mpr high, sub_le_self 1 low⟩
    · simp only [most,if_true,Bool.false_eq_true,if_false]
      exact ⟨nonneg, sub_nonneg.mpr high, sub_le_self 1 low⟩
  · intro register
    by_cases most : 1 < a.activity
    · cases invert <;> simp [register,most]
    · cases invert <;> simp [register,most,not_lt.mp most]

end Functions

section Visits
variable [DecidableEq V]

theorem valid_setActivity (valid : MapsValid design m) (here : a.Valid) : MapsValid design (m.setActivity v a) := by
  refine ⟨fun {u b} entry => ?_, valid.seqs, valid.once⟩
  simp only [Maps.setActivity] at entry
  split at entry
  · cases entry
    exact here
  · exact valid.pins entry

theorem valid_setActivityCheck (valid : MapsValid design m) (here : a.Valid) :
    MapsValid design (setActivityCheck m v a).1 := by
  unfold setActivityCheck
  split
  · exact valid_setActivity valid here
  · exact valid_setActivity valid (valid_activity valid v)

theorem valid_visitGatedClk (settled : SettingsValid design settings) {before : Maps V I K W × Bool}
    (valid : MapsValid design before.1) (i : I) :
    MapsValid design (design.visitGatedClk settings i before).1 := by
  unfold visitGatedClk
  split
  · exact valid_setActivityCheck valid (valid_gatedClkActivity settled valid _ _)
  · exact valid

theorem valid_visitLoad (valid : MapsValid design m) (v : V) : MapsValid design (design.visitLoad m v).1 := by
  unfold visitLoad
  split
  · next e _ _ =>
    split
    · have driver := valid_activity valid (design.fromVertex e)
      exact valid_setActivityCheck (valid_setActivity valid driver) ⟨driver.activity, driver.low, driver.high⟩
    · exact valid
  · exact valid

theorem valid_seedActivities (settled : SettingsValid design settings) :
    MapsValid design (design.seedActivities settings (start : Run V I K W)).1 := by
  have roots : ∀ (vs : List V) (r : Run V I K W), MapsValid design r.1 →
    MapsValid design (vs.foldl (design.seedActivity settings) r).1 := by
    intro vs
    induction vs with
    | nil => exact fun r valid => valid
    | cons root rest ih =>
      intro r valid
      refine ih _ ?_
      unfold seedActivity
      split
      · exact valid
      · refine valid_setActivity valid ?_
        cases user : settings.userActivityMap root with
        | none => exact settled.inputActivity
        | some a => exact settled.user user
  exact roots design.roots start ⟨nofun, nofun, nofun⟩

variable [DecidableEq K]

theorem valid_visitDriver (settled : SettingsValid design settings) {before : Maps V I K W × Bool}
    (valid : MapsValid design before.1) (v : V) :
    MapsValid design (design.visitDriver cudd settings before v).1 := by
  have set : ∀ i func, MapsValid design
    (setActivityCheck before.1 v (design.evalActivity cudd settings before.1 i func)).1 :=
    fun i func => valid_setActivityCheck valid (valid_evalActivity settled valid i func)
  unfold visitDriver
  split
  · dsimp only
    split
    · refine valid_visitGatedClk settled ?_ _
      split
      · exact set _ _
      · exact valid
    · split
      · exact set _ _
      · exact valid
  · exact valid

theorem valid_visitPin (settled : SettingsValid design settings) (valid : MapsValid design m) (v : V) :
    MapsValid design (design.visitPin cudd settings m v).1 := by
  unfold visitPin
  split
  · next user => exact valid_setActivityCheck valid (settled.user user)
  · have load : MapsValid design (if design.isLoad v then design.visitLoad m v else (m, false)).1 := by
      split
      · exact valid_visitLoad valid v
      · exact valid
    dsimp only
    split
    · exact valid_visitDriver settled load v
    · exact load

variable [DecidableEq I]

theorem valid_visit (settled : SettingsValid design settings) (valid : MapsValid design m) (v : V) :
    MapsValid design (design.visit cudd settings m v).1 := by
  have pin : MapsValid design (design.visitPin cudd settings m v).1 := valid_visitPin settled valid v
  unfold visit
  dsimp only
  split
  · split
    · exact ⟨pin.pins, pin.seqs, pin.once⟩
    · exact ⟨pin.pins, pin.seqs, pin.once⟩
  · exact ⟨pin.pins, pin.seqs, pin.once⟩

omit [DecidableEq V] in
theorem valid_seedRegOutput (registered : design.Registered) (settled : SettingsValid design settings)
    (valid : MapsValid design m) {seq : Sequential K} (mem : seq ∈ design.sequentials reg) {output : K}
    (out : output = seq.output ∨ output = seq.outputInv) (invert : Bool) :
    MapsValid design (design.seedRegOutput cudd settings reg seq output invert m) := by
  unfold seedRegOutput
  split
  · exact valid
  · obtain ⟨here, most⟩ := valid_regOutputActivity settled valid seq invert
    refine ⟨valid.pins, fun {i port a} entry => ?_, fun {i seq' port a} mem' register out' entry => ?_⟩
    · simp only [Maps.setSeqActivity] at entry
      split at entry
      · cases entry
        exact here
      · exact valid.seqs entry
    · simp only [Maps.setSeqActivity] at entry
      split at entry
      · next same =>
        cases entry
        obtain ⟨rfl, rfl⟩ := same
        obtain rfl := registered.sequential_eq mem mem' out out'
        exact most register
      · exact valid.once mem' register out' entry

theorem valid_seedRegOutputActivities (registered : design.Registered) (settled : SettingsValid design settings)
    {r : Run V I K W} (valid : MapsValid design r.1) (reg : I) :
    MapsValid design (design.seedRegOutputActivities cudd settings r reg).1 := by
  have steps : ∀ (seqs : List (Sequential K)) (r : Run V I K W), (∀ seq ∈ seqs, seq ∈ design.sequentials reg) →
    MapsValid design r.1 →
      MapsValid design (seqs.foldl (design.seedSequential cudd settings reg) r).1 := by
    intro seqs
    induction seqs with
    | nil => exact fun r _ valid => valid
    | cons seq rest ih =>
      intro r mem valid
      have here := mem seq List.mem_cons_self
      have first : MapsValid design (design.seedRegOutput cudd settings reg seq seq.output false r.1) :=
        valid_seedRegOutput registered settled valid here (Or.inl rfl) false
      have second : MapsValid design (design.seedSequential cudd settings reg r seq).1 :=
        valid_seedRegOutput registered settled first here (Or.inr rfl) true
      exact ih _ (fun other later => mem other (List.mem_cons_of_mem _ later)) second
  exact steps (design.sequentials reg) r (fun _ mem => mem) valid

theorem valid_propagateActivities (registered : design.Registered) (settled : SettingsValid design settings) {fuel : ℕ}
    {regs : List I} (run : design.propagateActivities cudd settings fuel = some (m, regs)) : MapsValid design m := by
  have carried : Carried design cudd settings fun (_ : List I) m (_ : V → Bool) => MapsValid design m :=
    ⟨fun valid _ => valid_visit settled valid _, fun valid => valid_seedRegOutputActivities registered settled valid _,
      fun valid => ⟨valid.pins, valid.seqs, valid.once⟩, fun _ valid => valid⟩
  obtain ⟨_, valid, _⟩ := propagateActivities_rule carried registered.iterate (valid_seedActivities settled) run
  exact valid

end Visits
end Bounds

/-! When levels rise along all that is enqueued, every propagation ends. -/
section Ends
variable [DecidableEq V] [DecidableEq I] [DecidableEq K]

/-- Levels rise along edges that are searched, and from the inputs of a clock gate to its output. -/
def Rising (design : Design V E I K) : Prop := ∀ v, ∀ w ∈ design.enqueued v, design.level v < design.level w

variable (cudd settings) in
theorem upward_visitor (rising : design.Rising) (m : Maps V I K W) :
    Bfs.Upward design.level (design.visitor cudd settings m) := by
  intro visited v w mem
  simp only [visitor,Design.visit] at mem
  split at mem
  · exact rising v w mem
  · cases mem

variable (cudd settings) in
theorem search_ends (rising : design.Rising) {r : Run V I K W} (sound : Bfs.Sound design.level r.2) : ∃ fuel r',
    design.search cudd settings fuel r = some r' ∧ Bfs.Sound design.level r'.2 := by
  have start : Bfs.Sound design.level { r.2 with visited := [] } := ⟨sound.count, sound.first, sound.last⟩
  obtain ⟨fuel, bfs, run⟩ := Bfs.visit_ends (upward_visitor cudd settings rising r.1) design.maxLevel start
  have always : Bfs.Keeps (design.visitor cudd settings r.1) fun _ _ => True := fun _ _ _ _ _ => trivial
  exact ⟨fuel, _, by rw [search,run]; rfl, (Bfs.visit_sequential always start trivial run).1⟩

theorem search_mono {fuel fuel' : ℕ} (le : fuel ≤ fuel') {r r' : Run V I K W}
    (run : design.search cudd settings fuel r = some r') :
    design.search cudd settings fuel' r = some r' := by
  obtain ⟨bfs, visits, same⟩ := Option.map_eq_some_iff.1 run
  rw [search,Bfs.visit_mono le visits]
  exact congrArg some same

theorem propagatePass_mono {fuel fuel' : ℕ} (le : fuel ≤ fuel') {regs : List I} {r : Run V I K W}
    {next : Run V I K W × List I} (run : design.propagatePass cudd settings fuel regs r = some next) :
    design.propagatePass cudd settings fuel' regs r = some next := by
  obtain ⟨searched, search, same⟩ := Option.map_eq_some_iff.1 run
  rw [propagatePass,search_mono le search]
  exact congrArg some same

theorem propagateRegs_mono {fuel fuel' : ℕ} (le : fuel ≤ fuel') {passes : ℕ} {regs : List I} {r : Run V I K W}
    {next : Run V I K W × List I} (run : design.propagateRegs cudd settings fuel passes regs r = some next) :
    design.propagateRegs cudd settings fuel' passes regs r = some next := by
  induction passes generalizing regs r with
  | zero => exact run
  | succ passes ih =>
    rw [propagateRegs] at run ⊢
    split at run
    · next none => rw [if_pos none,run]
    · next some' =>
      obtain ⟨first, pass, rest⟩ := Option.bind_eq_some_iff.1 run
      rw [if_neg some',propagatePass_mono le pass]
      exact ih rest

variable (cudd settings) in
theorem propagateRegs_ends (rising : design.Rising) (passes : ℕ) (regs : List I) (r : Run V I K W)
    (sound : Bfs.Sound design.level r.2) :
    ∃ fuel next, design.propagateRegs cudd settings fuel passes regs r = some next := by
  induction passes generalizing regs r with
  | zero => exact ⟨0, _, rfl⟩
  | succ passes ih =>
    by_cases none : regs.isEmpty = true
    · exact ⟨0, _, by rw [propagateRegs,if_pos none]⟩
    · have always : Carried design cudd settings fun (_ : List I) (_ : Maps V I K W) (_ : V → Bool) => True :=
        ⟨fun _ _ => trivial, fun _ => trivial, fun _ => trivial, fun _ _ => trivial⟩
      have seeded : Bfs.Sound design.level
        ((design.iterate regs).foldl (design.seedRegOutputActivities cudd settings) r).2 :=
        (registers_rule always sound trivial).1
      obtain ⟨fuel, searched, search, sound'⟩ := search_ends cudd settings rising seeded
      have pass : design.propagatePass cudd settings fuel regs r =
        some (({ searched.1 with visitedRegs := [] }, searched.2), searched.1.visitedRegs) := by
        rw [propagatePass,search]
        rfl
      obtain ⟨fuel', next, rest⟩ := ih searched.1.visitedRegs ({ searched.1 with visitedRegs := [] }, searched.2) sound'
      refine ⟨max fuel fuel', next, ?_⟩
      rw [propagateRegs,if_neg none,propagatePass_mono (le_max_left fuel fuel') pass]
      exact propagateRegs_mono (le_max_right fuel fuel') rest

variable (cudd settings) in
theorem propagateActivities_ends (rising : design.Rising) : ∃ fuel, ∃ next : Maps V I K W × List I,
    design.propagateActivities cudd settings fuel = some next := by
  obtain ⟨fuel, searched, search, sound⟩ := search_ends cudd settings rising
    (sound_seedActivities sound_start design.roots)
  obtain ⟨fuel', next, rest⟩ := propagateRegs_ends cudd settings rising (maxActivityPasses - 1) searched.1.visitedRegs
    ({ searched.1 with visitedRegs := [] }, searched.2) sound
  refine ⟨max fuel fuel', (next.1.1, next.2), ?_⟩
  have first : design.search cudd settings (max fuel fuel') (design.seedActivities settings start) = some searched :=
    search_mono (le_max_left fuel fuel') search
  have passes := propagateRegs_mono (le_max_right fuel fuel') rest
  show (design.search cudd settings (max fuel fuel') (design.seedActivities settings start)).bind _ = _
  rw [first,Option.bind_some,passes]
  rfl

end Ends

end Design

namespace Power
variable {V E I K W : Type} [DecidableEq V] [DecidableEq I] [DecidableEq K]
open Design

/-- Activities that count as valid are those of a propagation with what is set, and none is set for all pins. -/
structure Fresh (design : Design V E I K) (cudd : BddEvaluation.Cudd) (p : Power V I K W) : Prop where
  propagated : p.activitiesValid = true → p.settings.globalActivity.isSet = false ∧
    ∃ fuel, design.propagateActivities cudd p.settings fuel = some (p.maps, p.regs)

/-- Numbers that can be activities and duties. -/
def Event.Valid : Event V W → Prop
  | .setGlobalActivity activity duty | .setInputActivity activity duty | .setInputPortActivity _ activity duty
  | .setUserActivity _ activity duty _ _ _ _ => 0 ≤ activity ∧ 0 ≤ duty ∧ duty ≤ 1
  | .ensureActivities _ => True

section Runs
variable {design : Design V E I K} {cudd : BddEvaluation.Cudd} {p p' : Power V I K W} {event : Event V W}

omit [DecidableEq I] [DecidableEq K] in
theorem valid_setUser {v : V} {a : PwrActivity W} (settled : SettingsValid design p.settings) (valid : a.Valid) :
    SettingsValid design (p.setUser v a).settings := by
  refine ⟨settled.globalActivity, settled.inputActivity, fun {u b} user => ?_, settled.clocks⟩
  simp only [setUser] at user
  split at user
  · cases user
    exact valid
  · exact settled.user user

theorem valid_set {a : PwrActivity W} {activity duty : ℚ} (nonneg : 0 ≤ activity) (low : 0 ≤ duty) (high : duty ≤ 1)
    (origin : PwrActivityOrigin) : (a.set activity duty origin).Valid := by
  refine ⟨?_, low, high⟩
  simp only [PwrActivity.set]
  split
  · exact le_rfl
  · exact nonneg

theorem Fresh.step (fresh : Fresh design cudd p) (next : p.step design cudd event = some p') :
    Fresh design cudd p' := by
  cases event with
  | setGlobalActivity | setInputActivity | setInputPortActivity | setUserActivity =>
    cases next
    exact ⟨nofun⟩
  | ensureActivities fuel =>
    simp only [Power.step,ensureActivities] at next
    split at next
    · cases next
      exact fresh
    · next due =>
      obtain ⟨r, run, rfl⟩ := Option.map_eq_some_iff.1 next
      rw [Bool.or_eq_true,not_or,Bool.not_eq_true] at due
      exact ⟨fun _ => ⟨due.1, fuel, run⟩⟩

theorem run_concat {events : List (Event V W)} {first : Power V I K W}
    (run : first.run design cudd (events ++ [event]) = some p) :
    ∃ before, first.run design cudd events = some before ∧ before.step design cudd event = some p := by
  rw [Power.run,List.foldlM_append] at run
  obtain ⟨before, front, last⟩ := Option.bind_eq_some_iff.1 run
  rw [List.foldlM_cons] at last
  obtain ⟨after, here, rest⟩ := Option.bind_eq_some_iff.1 last
  cases rest
  exact ⟨before, front, here⟩

theorem fresh_run (events : List (Event V W)) (run : (initial : Power V I K W).run design cudd events = some p) :
    Fresh design cudd p := by
  induction events using List.reverseRecOn generalizing p with
  | nil =>
    cases run
    exact ⟨nofun⟩
  | append_singleton events event ih =>
    obtain ⟨before, first, here⟩ := run_concat run
    exact (ih first).step here

theorem valid_step (registered : design.Registered) (settled : SettingsValid design p.settings)
    (valid : MapsValid design p.maps) (numbers : event.Valid) (next : p.step design cudd event = some p') :
    SettingsValid design p'.settings ∧ MapsValid design p'.maps := by
  cases event with
  | setGlobalActivity activity duty =>
    cases next
    obtain ⟨nonneg, low, high⟩ := numbers
    exact ⟨⟨valid_set nonneg low high _, settled.inputActivity, settled.user, settled.clocks⟩, valid⟩
  | setInputActivity activity duty =>
    cases next
    obtain ⟨nonneg, low, high⟩ := numbers
    exact ⟨⟨settled.globalActivity, valid_set nonneg low high _, settled.user, settled.clocks⟩, valid⟩
  | setInputPortActivity v activity duty =>
    cases next
    obtain ⟨nonneg, low, high⟩ := numbers
    exact ⟨valid_setUser settled ⟨nonneg, low, high⟩, valid⟩
  | setUserActivity v activity duty origin varValues size valueBit =>
    cases next
    obtain ⟨nonneg, low, high⟩ := numbers
    exact ⟨valid_setUser settled ⟨nonneg, low, high⟩, valid⟩
  | ensureActivities fuel =>
    simp only [Power.step,ensureActivities] at next
    split at next
    · cases next
      exact ⟨settled, valid⟩
    · obtain ⟨r, run, rfl⟩ := Option.map_eq_some_iff.1 next
      exact ⟨settled, valid_propagateActivities registered settled run⟩

theorem valid_run (registered : design.Registered) (clocks : ∀ v, 0 ≤ design.clockDuty v ∧ design.clockDuty v ≤ 1)
    (events : List (Event V W)) (numbers : ∀ event ∈ events, event.Valid)
    (run : (initial : Power V I K W).run design cudd events = some p) :
    SettingsValid design p.settings ∧ MapsValid design p.maps := by
  induction events using List.reverseRecOn generalizing p with
  | nil =>
    cases run
    have input : (PwrActivity.plain (1 / 10) (1 / 2) .input : PwrActivity W).Valid :=
      valid_plain (by norm_num) (by norm_num) (by norm_num)
    exact ⟨⟨valid_unknown, input, nofun, clocks⟩, ⟨nofun, nofun, nofun⟩⟩
  | append_singleton events event ih =>
    obtain ⟨before, first, here⟩ := run_concat run
    obtain ⟨settled, valid⟩ := ih (fun other mem => numbers other (List.mem_append_left _ mem)) first
    exact valid_step registered settled valid (numbers event (List.mem_append_right _ List.mem_cons_self)) here

end Runs

/-- Whatever was set and propagated before, valid activities agree with what is set now, and where levels rise it can be
propagated. -/
theorem activities_settled {design : Design V E I K} (lawful : design.Lawful) (cudd : BddEvaluation.Cudd)
    (events : List (Event V W)) {p : Power V I K W} (run : (initial : Power V I K W).run design cudd events = some p) :
    (p.activitiesValid = true → Design.Settled design cudd p.settings p.maps p.regs) ∧
      (design.Rising → p.settings.globalActivity.isSet = false →
        ∃ fuel p', p.ensureActivities design cudd fuel = some p' ∧
        p'.settings = p.settings ∧ p'.activitiesValid = true ∧
          Design.Settled design cudd p.settings p'.maps p'.regs) := by
  have fresh := fresh_run events run
  have settled : p.activitiesValid = true → Design.Settled design cudd p.settings p.maps p.regs := by
    intro valid
    obtain ⟨_, fuel, propagated⟩ := fresh.propagated valid
    exact settled_propagateActivities lawful propagated
  refine ⟨settled, fun rising unset => ?_⟩
  by_cases valid : p.activitiesValid = true
  · exact ⟨0, p, by simp [ensureActivities,valid], rfl, valid, settled valid⟩
  · obtain ⟨fuel, next, propagated⟩ := propagateActivities_ends cudd p.settings rising
    refine ⟨fuel, { p with maps := next.1, regs := next.2, activitiesValid := true }, ?_, rfl, rfl,
      settled_propagateActivities lawful propagated⟩
    simp [ensureActivities,valid,unset,propagated]

/-- Every load of a net whose one driver is annotated and was reached reads the value changes of the driver, all of
them. -/
theorem waveforms_reach_loads {design : Design V E I K} (lawful : design.Lawful) (cudd : BddEvaluation.Cudd)
    (events : List (Event V W)) {p : Power V I K W} (run : (initial : Power V I K W).run design cudd events = some p)
    (valid : p.activitiesValid = true) {d v : V} {a : PwrActivity W} (only : OnlyLoad design p.settings d v)
    (user : p.settings.userActivityMap d = some a) (isSet : a.isSet = true)
    (reached : (p.maps.activity d).isSet = true) : design.findActivity p.settings p.maps v =
    { a with origin := .propagated } := by
  obtain ⟨unset, fuel, propagated⟩ := (fresh_run events run).propagated valid
  have activity : p.maps.activity v = { a with origin := .propagated } :=
    activity_onlyLoad lawful only user isSet propagated reached
  have entry : p.maps.activityMap v = some { a with origin := .propagated } := by
    cases found : p.maps.activityMap v with
    | none =>
      rw [Maps.activity,found] at activity
      have origin := congrArg PwrActivity.origin activity
      cases origin
    | some b =>
      rw [Maps.activity,found] at activity
      exact congrArg some activity
  have constant : design.isConstant v = false := by
    have leads := only.leads
    unfold adjacentVertices at leads
    split at leads
    · obtain ⟨e, mem, rfl⟩ := List.mem_map.1 leads
      have searched := (List.mem_filter.1 mem).2
      simp only [Bool.and_eq_true,Bool.not_eq_true'] at searched
      exact searched.2
    · cases leads
  have known : ({ a with origin := .propagated } : PwrActivity W).isSet = true := rfl
  simp [findActivity,constant,unset,entry,known]

/-- Whatever was set and propagated, activities are not negative, duties are probabilities and registers switch once in
a cycle at most. -/
theorem activities_bounded {design : Design V E I K} (registered : design.Registered) (cudd : BddEvaluation.Cudd)
    (clocks : ∀ v, 0 ≤ design.clockDuty v ∧ design.clockDuty v ≤ 1) (events : List (Event V W))
    (numbers : ∀ event ∈ events, event.Valid)
    {p : Power V I K W} (run : (initial : Power V I K W).run design cudd events = some p) :
    (∀ v, (design.findActivity p.settings p.maps v).Valid) ∧
    (∀ i port, (findSeqActivity p.settings p.maps i port).Valid) ∧
      ∀ i, ∀ seq ∈ design.sequentials i, seq.isRegister = true → ∀ port, port = seq.output ∨ port = seq.outputInv →
        ∀ a, p.maps.seqActivityMap i port = some a → a.activity ≤ 1 := by
  obtain ⟨settled, valid⟩ := valid_run registered clocks events numbers run
  exact ⟨valid_findActivity settled valid, valid_findSeqActivity settled valid, fun i seq mem register port out a =>
    valid.once mem register out⟩

end Power

inductive Pin where
  | inPort
  | clkPort
  | gateA
  | gateB
  | gateZ
  | regD
  | regCk
  | regQ
  deriving DecidableEq

inductive Inst where
  | top
  | gate
  | reg
  deriving DecidableEq

inductive Port where
  | a
  | b
  | z
  | d
  | ck
  | q
  | iq
  | iqn
  deriving DecidableEq

instance : Fintype Pin := ⟨{.inPort, .clkPort, .gateA, .gateB, .gateZ, .regD, .regCk, .regQ}, by rintro ⟨⟩ <;> decide⟩
instance : Fintype Inst := ⟨{.top, .gate, .reg}, by rintro ⟨⟩ <;> decide⟩
instance : Fintype Port := ⟨{.a, .b, .z, .d, .ck, .q, .iq, .iqn}, by rintro ⟨⟩ <;> decide⟩

/-- A register whose output comes back through an OR gate with an input port. -/
def feedback : Design Pin (Pin × Pin) Inst Port where
  level
    | .inPort | .clkPort => 0
    | .gateA | .regCk => 10
    | .regQ => 20
    | .gateB => 30
    | .gateZ => 40
    | .regD => 50
  maxLevel := 50
  inEdges
    | .inPort | .clkPort => []
    | .gateA => [(.inPort, .gateA)]
    | .gateB => [(.regQ, .gateB)]
    | .gateZ => [(.gateA, .gateZ), (.gateB, .gateZ)]
    | .regD => [(.gateZ, .regD)]
    | .regCk => [(.clkPort, .regCk)]
    | .regQ => [(.regCk, .regQ)]
  outEdges
    | .inPort => [(.inPort, .gateA)]
    | .clkPort => [(.clkPort, .regCk)]
    | .gateA => [(.gateA, .gateZ)]
    | .gateB => [(.gateB, .gateZ)]
    | .gateZ => [(.gateZ, .regD)]
    | .regCk => [(.regCk, .regQ)]
    | .regQ => [(.regQ, .gateB)]
    | .regD => []
  fromVertex := Prod.fst
  toVertex := Prod.snd
  isWire e := e ≠ (.gateA, .gateZ) ∧ e ≠ (.gateB, .gateZ) ∧ e ≠ (.regCk, .regQ)
  isConstant _ := false
  isDisabledConstraint _ := false
  searchThru _ := true
  isRegClkToQ e := e = (.regCk, .regQ)
  roots := [.inPort, .clkPort]
  inst
    | .inPort | .clkPort => .top
    | .gateA | .gateB | .gateZ => .gate
    | .regD | .regCk | .regQ => .reg
  isLoad
    | .gateA | .gateB | .regD | .regCk => true
    | _ => false
  isDriver
    | .inPort | .clkPort | .gateZ | .regQ => true
    | _ => false
  isInternalPin _ := false
  libertyPort
    | .inPort | .clkPort => none
    | .gateA => some .a
    | .gateB => some .b
    | .gateZ => some .z
    | .regD => some .d
    | .regCk => some .ck
    | .regQ => some .q
  hasCell i := i ≠ .top
  pins
    | .top => [.inPort, .clkPort]
    | .gate => [.gateA, .gateB, .gateZ]
    | .reg => [.regD, .regCk, .regQ]
  findPin
    | .gate, .a => some .gateA
    | .gate, .b => some .gateB
    | .gate, .z => some .gateZ
    | .reg, .d => some .regD
    | .reg, .ck => some .regCk
    | .reg, .q => some .regQ
    | _, _ => none
  isInternal _ port := port = .iq ∨ port = .iqn
  function
    | .gate, .z => some (.or (.port .a) (.port .b))
    | .reg, .q => some (.port .iq)
    | _, _ => none
  isClockGateEnable _ _ := false
  isClockGateClock _ _ := false
  isClockGateOut _ _ := false
  isClockGate _ := false
  sequentials
    | .reg => [⟨.port .d, .iq, .iqn, true⟩]
    | _ => []
  hasStatetable _ := false
  isClock v := v = .clkPort ∨ v = .regCk
  clockDuty _ := 1 / 2
  iterate := id

theorem lawful_feedback : feedback.Lawful where
  instPins := by decide
  pins := by decide
  apart := by decide
  wires := by decide
  gates := by decide
  outputs := by decide
  cells := by decide
  iterate := List.Perm.refl
  levels := by decide

theorem supported_gateZ : feedback.Supported .gateZ where
  leads reads := by
    cases reads with
    | net load => cases load
    | func driver plain function mem found =>
      cases function
      simp only [BddEvaluation.exprPorts,Finset.mem_union,Finset.mem_singleton] at mem
      rcases mem with rfl | rfl <;> cases found <;> decide
    | enable driver gated => cases gated
    | clk driver gated => cases gated
  loads driver u reads := by
    cases reads with
    | net load => cases load
    | func driver plain function mem found =>
      cases function
      simp only [BddEvaluation.exprPorts,Finset.mem_union,Finset.mem_singleton] at mem
      rcases mem with rfl | rfl <;> cases found <;> rfl
    | enable driver gated => cases gated
    | clk driver gated => cases gated
  internal function := by
    cases function
    exact Or.inr (by decide)

def annotated : List (Power.Event Pin Unit) :=
  [.setUserActivity .inPort (1 / 2) (1 / 2) .vcd () 5 0, .ensureActivities 80]

theorem run_annotated : ((Power.initial : Power Pin Inst Port Unit).run feedback BddEvaluation.expanding annotated).map
    (fun p =>
    (p.activitiesValid && decide (Pin.gateZ ∈ p.maps.visited) && (p.settings.userActivityMap .gateZ).isNone &&
      (p.settings.userActivityMap .gateA).isNone && (p.maps.activity .inPort).isSet,
        p.settings.userActivityMap .inPort)) =
        some (true, some ⟨⟨1 / 2, 1 / 2⟩, .vcd, some (), 5, 0⟩) := by
  decide +kernel

theorem numbers_annotated : ∀ event ∈ annotated, event.Valid := by
  intro event mem
  simp only [annotated,List.mem_cons,List.not_mem_nil,or_false] at mem
  rcases mem with rfl | rfl
  · exact ⟨by norm_num, by norm_num, by norm_num⟩
  · trivial

theorem clocks_feedback : ∀ v, 0 ≤ feedback.clockDuty v ∧ feedback.clockDuty v ≤ 1 := by decide +kernel

/-- The OR gate agrees with its inputs, one of which is its own output of a cycle before. -/
theorem activities_settled_feedback :
    ∃ p, (Power.initial : Power Pin Inst Port Unit).run feedback BddEvaluation.expanding annotated = some p ∧
    ∃ a, feedback.candidate BddEvaluation.expanding p.settings p.maps .gateZ = some a ∧
    Design.differs a (p.maps.activity .gateZ) = false := by
  obtain ⟨p, run, meets⟩ := Option.map_eq_some_iff.1 run_annotated
  simp only [Prod.mk.injEq,Bool.and_eq_true,decide_eq_true_eq,Option.isNone_iff_eq_none] at meets
  obtain ⟨⟨⟨⟨⟨valid, visited⟩, free⟩, _⟩, _⟩, _⟩ := meets
  obtain ⟨a, some'⟩ : ∃ a, feedback.candidate BddEvaluation.expanding p.settings p.maps .gateZ = some a := by
    rw [Design.candidate,free]
    exact ⟨_, rfl⟩
  have settled := (Power.activities_settled lawful_feedback BddEvaluation.expanding annotated run).1 valid
  exact ⟨p, run, a, some', settled.pins .gateZ visited supported_gateZ a some'⟩

/-- The input of the gate reads the value changes of the port. -/
theorem waveforms_reach_feedback :
    ∃ p, (Power.initial : Power Pin Inst Port Unit).run feedback BddEvaluation.expanding annotated = some p ∧
    feedback.findActivity p.settings p.maps .gateA = ⟨⟨1 / 2, 1 / 2⟩, .propagated, some (), 5, 0⟩ := by
  obtain ⟨p, run, meets⟩ := Option.map_eq_some_iff.1 run_annotated
  simp only [Prod.mk.injEq,Bool.and_eq_true,decide_eq_true_eq,Option.isNone_iff_eq_none] at meets
  obtain ⟨⟨⟨⟨⟨valid, _⟩, _⟩, free⟩, reached⟩, user⟩ := meets
  have only : Design.OnlyLoad feedback p.settings .inPort .gateA := by
    refine ⟨rfl, ⟨(.inPort, .gateA), [], rfl, by decide, rfl⟩, by
      decide, fun {u} => ?_, fun {i seq} mem => ?_, by decide, free⟩
    · revert u
      decide
    · cases i <;> simp [Design.regOutputPins,feedback] at mem
  exact ⟨p, run, Power.waveforms_reach_loads lawful_feedback BddEvaluation.expanding annotated run valid only user
    rfl reached⟩

/-- The duty of the gate is a probability. -/
theorem activities_bounded_feedback :
    ∃ p, (Power.initial : Power Pin Inst Port Unit).run feedback BddEvaluation.expanding annotated = some p ∧
    (feedback.findActivity p.settings p.maps .gateZ).duty ≤ 1 := by
  obtain ⟨p, run, _⟩ := Option.map_eq_some_iff.1 run_annotated
  exact ⟨p, run, ((Power.activities_bounded lawful_feedback.toRegistered BddEvaluation.expanding clocks_feedback
    annotated numbers_annotated run).1 .gateZ).high⟩

end GTPower.PowerActivity
