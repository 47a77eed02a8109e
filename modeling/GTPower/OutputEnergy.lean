import GTPower.DeviceTables
import GTPower.LoaderFaithful
import GTPower.CyclePartition

/-! The energy of an output toggle on the CPU and in the kernels. Both look for the input whose latest record explains
the toggle best, then take a table of that input, else the average over the tables of the output. -/
namespace GTPower

def invalidDelayVal : ℚ := -1

/-- The gate of the kernels is made of the one on the CPU, and all records of its pins are in the buffer. -/
structure Built {κ : Type} [DecidableEq κ] (host : HostGate κ TwoDimensionalLUT n) (portName : Fin n → κ)
    (maxNPin : Nat) (gate : Gate n) (events : Nat → Event) : Prop where
  nInputPin : gate.nInputPin = host.nInputPin
  portNames : ∀ name pin, host.portNameToIdx name = some pin ↔ name = portName pin
  noWaveform : ∀ pin, host.vcdValues pin = [] → gate.pinWaveforms pin = none
  waveform : ∀ pin, host.vcdValues pin ≠ [] → ∃ start, gate.pinWaveforms pin = some ⟨start, start + host.nEvent pin⟩ ∧
    ∀ idx, idx < host.nEvent pin → (events (start + idx)).time = host.eventTime pin idx ∧
      host.eventVal pin idx = some (events (start + idx)).val
  delay : ∀ (input output : Fin n) fromRf toRf, input.val < host.nInputPin → host.nInputPin ≤ output.val →
    gate.cellArcDelay (gate.outputPinLocalIdx output) input fromRf toRf =
      (host.arcDelay input fromRf output toRf).getD invalidDelayVal
  slew : ∀ pin rf, host.slew pin rf = some (gate.getPinSlew pin rf)
  loadCap : ∀ output, host.nInputPin ≤ output.val → gate.pinLoadCapacitances output = host.loadCap output
  tables : ∀ output related, host.nInputPin ≤ output.val → related.val < host.nInputPin →
    ∃ luts, getOutputInternalPower host.portNameToIdx maxNPin (host.internalPwrs output) (portName related) =
      some luts ∧
      (gate.outputPinInternalPowerLUTs (gate.outputPinLocalIdx output)).bind (fun tables => tables related) =
        luts.pairsByState ∧
      ((gate.outputPinInternalPowerLUTsIndexedByOrder (gate.outputPinLocalIdx output)).map fun tables =>
        tables related).getD [] = luts.pairs

namespace HostGate
variable {κ : Type} (host : HostGate κ TwoDimensionalLUT n) (clock : Clock)

section Candidates
variable (curTime : Nat) (output : Fin n) (toRf : RiseFall)

/-- Time of the latest record of an input before a time, or of its first one. -/
def latestTime (input : Fin n) : Nat := host.eventTime input (host.relatedEventIdx input curTime)

def latestEdge (input : Fin n) : Option RiseFall :=
  if host.vcdValues input = [] then none else host.edgeAt input (host.relatedEventIdx input curTime)

/-- Delay of the arc from this edge to an edge of the output. -/
def latestArc (input : Fin n) : Option ℚ :=
  (host.latestEdge curTime input).bind fun fromRf => host.arcDelay input fromRf output toRf

/-- Distance of the toggle from the time the arc predicts. -/
def diffTime (cellArcDelay : ℚ) (input : Fin n) : ℚ :=
  |curTime * clock.vcdTimeScale - cellArcDelay - host.latestTime curTime input * clock.vcdTimeScale|

def InCycle (input : Fin n) : Prop :=
  clock.clkedWaveformIdx (host.latestTime curTime input) = clock.clkedWaveformIdx curTime

instance (input : Fin n) : Decidable (host.InCycle clock curTime input) := inferInstanceAs (Decidable (_ = _))

/-- An input the CPU considers, and its distance: it has an arc and a record in the cycle of the toggle. -/
def Candidate (input : Fin n) (distance : ℚ) : Prop :=
  ∃ cellArcDelay, host.latestArc curTime output toRf input = some cellArcDelay ∧ host.InCycle clock curTime input ∧
    distance = host.diffTime clock curTime cellArcDelay input

/-- An input the kernels consider: its delay is not negative, and only a logic gate asks for the cycle. -/
def DeviceCandidate (isLogic : Bool) (input : Fin n) (distance : ℚ) : Prop :=
  ∃ cellArcDelay, host.latestArc curTime output toRf input = some cellArcDelay ∧ isValidDelay cellArcDelay = true ∧
    (isLogic = true → host.InCycle clock curTime input) ∧ distance = host.diffTime clock curTime cellArcDelay input

/-- The candidate no other one is nearer than, if any is nearer than the dump is long. -/
def IsNearest (candidate : Fin n → ℚ → Prop) : Option (Fin n) → Prop
  | none => ∀ input distance, input.val < host.nInputPin → candidate input distance →
      clock.maxTime * clock.vcdTimeScale ≤ distance
  | some input => ∃ distance, input.val < host.nInputPin ∧ candidate input distance ∧
      distance < clock.maxTime * clock.vcdTimeScale ∧
      ∀ other distance', other.val < host.nInputPin → candidate other distance' → distance ≤ distance'

/-- Every arc delay is a whole number of ticks. -/
def WholeTicks : Prop :=
  ∀ input fromRf cellArcDelay, host.arcDelay input fromRf output toRf = some cellArcDelay →
    ∃ ticks : Int, cellArcDelay = ticks * clock.vcdTimeScale

/-- No two candidates, of either copy, are within one tick of each other. -/
def Apart (isLogic : Bool) : Prop :=
  ∀ input other distance distance', input ≠ other →
    (host.Candidate clock curTime output toRf input distance ∨
      host.DeviceCandidate clock curTime output toRf isLogic input distance) →
    (host.Candidate clock curTime output toRf other distance' ∨
      host.DeviceCandidate clock curTime output toRf isLogic other distance') →
    clock.vcdTimeScale < |distance - distance'|

end Candidates

section Groups
variable [DecidableEq κ] (portName : Fin n → κ) (output : Fin n)

/-- The groups of the output for an input, with their places. -/
def ownGroups (input : Fin n) : List (InternalPower κ TwoDimensionalLUT × Nat) :=
  (host.internalPwrs output).zipIdx.filter fun numbered => numbered.1.relatedPort = some (portName input)

/-- What the average of the kernels takes for an edge of an input: nothing without an arc. -/
def averagedGroups (toRf : RiseFall) (input : Fin n) (fromRf : RiseFall) :
    List (InternalPower κ TwoDimensionalLUT × Nat) :=
  if (host.arcDelay input fromRf output toRf).any isValidDelay ∧ (host.slew input fromRf).any isValidSlew then
    groupsOfRelatedPort (host.internalPwrs output) (portName input)
  else []

/-- A table taken: a group of the output with its place, for an edge of an input. -/
structure TableUse (κ α : Type) (n : Nat) where
  numbered : InternalPower κ α × Nat
  input : Fin n
  fromRf : RiseFall

def energyOf (toRf : RiseFall) (used : TableUse κ TwoDimensionalLUT n) : ℚ :=
  host.powerOf used.numbered.1 toRf ((host.slew used.input used.fromRf).getD 0) (host.loadCap output)

/-- Every group listed for an edge of an input. -/
def allUses (groups : Fin n → RiseFall → List (InternalPower κ TwoDimensionalLUT × Nat)) :
    List (TableUse κ TwoDimensionalLUT n) :=
  host.inputPins.flatMap fun input => [RiseFall.rise, .fall].flatMap fun fromRf =>
    (groups input fromRf).map fun numbered => ⟨numbered, input, fromRf⟩

/-- One group for the edge of the latest record of an input. -/
def useOf (curTime : Nat) (related : Fin n) (group : Option (InternalPower κ TwoDimensionalLUT × Nat)) :
    Option (TableUse κ TwoDimensionalLUT n) :=
  (host.latestEdge curTime related).bind fun fromRf => group.map fun numbered => ⟨numbered, related, fromRf⟩

/-- The tables the CPU averages: the first own group of the nearest input that matches, or all own groups without
one. -/
def hostUses (curTime : Nat) (pinStates : Fin n → Int) : Option (Fin n) → List (TableUse κ TwoDimensionalLUT n)
  | none => host.allUses fun input _ => host.ownGroups portName output input
  | some related => (host.useOf curTime related ((host.ownGroups portName output related).find?
      fun numbered => Matches host.portNameToIdx pinStates numbered.1)).toList

/-- The tables the kernels average: the one looked up for the nearest input, or all they have without one. -/
def deviceUses (maxNPin curTime : Nat) (toRf : RiseFall) (pinStates : Fin n → Int) (nearest : Option (Fin n)) :
    List (TableUse κ TwoDimensionalLUT n) :=
  match nearest.bind fun related => host.useOf curTime related (lookedUp host.portNameToIdx maxNPin pinStates
      (groupsOfRelatedPort (host.internalPwrs output) (portName related))) with
  | some used => [used]
  | none => host.allUses (host.averagedGroups portName output toRf)

end Groups

/-- Both copies average the same tables, for their nearest inputs. -/
def SameTables [DecidableEq κ] (portName : Fin n → κ) (maxNPin : Nat) (isLogic : Bool) (curTime : Nat) (output : Fin n)
    (toRf : RiseFall) (pinStates : Fin n → Int) : Prop :=
  ∀ nearest nearest', host.IsNearest clock (host.Candidate clock curTime output toRf) nearest →
    host.IsNearest clock (host.DeviceCandidate clock curTime output toRf isLogic) nearest' →
    (host.hostUses portName output curTime pinStates nearest).Perm
      (host.deviceUses portName output maxNPin curTime toRf pinStates nearest')

end HostGate

section Search
variable {κ : Type} [DecidableEq κ] {host : HostGate κ TwoDimensionalLUT n} {portName : Fin n → κ} {maxNPin : Nat}
variable {gate : Gate n} {events : Nat → Event} {clock : Clock} {curTime : Nat} {output : Fin n} {toRf : RiseFall}

theorem Built.latest (built : Built host portName maxNPin gate events) (stored : Stored (host.vcdValues input))
    (shown : host.vcdValues input ≠ []) (curTime : Nat) : ∃ range, gate.pinWaveforms input = some range ∧
      Gate.relatedEventIdx events range curTime = range.start + host.relatedEventIdx input curTime ∧
      (events (range.start + host.relatedEventIdx input curTime)).time = host.latestTime curTime input ∧
      host.edgeAt input (host.relatedEventIdx input curTime) =
        some (Gate.edgeAt events range (range.start + host.relatedEventIdx input curTime)) := by
  obtain ⟨start, waveform, records⟩ := built.waveform input shown
  have shows : 0 < host.nEvent input := List.length_pos_iff.mpr shown
  have before_le := valuesBefore_le (host.vcdValues input) curTime
  have searched : host.relatedEventIdx input curTime = valuesBefore (host.vcdValues input) curTime - 1 := by
    rw [HostGate.relatedEventIdx,getEventIdxInValues_eq stored.increasing (Nat.zero_le _)]
  have inside : host.relatedEventIdx input curTime < host.nEvent input := by
    rw [searched]
    simp only [HostGate.nEvent] at shows ⊢
    omega
  have early : ∀ idx, idx < host.nEvent input →
    (idx < valuesBefore (host.vcdValues input) curTime ↔ (events (start + idx)).time < curTime) := by
    intro idx idx_lt
    rw [(records idx idx_lt).1]
    exact lt_valuesBefore_iff stored.increasing idx_lt
  have sorted : SortedOn events start (start + host.nEvent input) := by
    intro i j low order high
    obtain ⟨i, rfl⟩ := Nat.exists_eq_add_of_le low
    obtain ⟨j, rfl⟩ := Nat.exists_eq_add_of_le (Nat.le_trans low order)
    have first := (records i (by omega)).1
    have second := (records j (by omega)).1
    by_contra later
    have split : ∀ pos, pos < host.nEvent input → (pos < valuesBefore (host.vcdValues input) (events (start + i)).time ↔
        timeAt (host.vcdValues input) pos < (events (start + i)).time) :=
          fun pos inside => lt_valuesBefore_iff stored.increasing inside
    have := split i (by omega)
    have := split j (by omega)
    simp only [HostGate.eventTime] at first second
    omega
  have found : getEventIdxByTime events start (start + host.nEvent input) curTime false =
      start + valuesBefore (host.vcdValues input) curTime := by
    apply getEventIdxByTime_eq sorted (by omega) (by simp only [HostGate.nEvent]; omega)
    · intro i low high
      obtain ⟨i, rfl⟩ := Nat.exists_eq_add_of_le low
      exact (early i (by simp only [HostGate.nEvent]; omega)).mp (by omega)
    · intro i low high
      obtain ⟨i, rfl⟩ := Nat.exists_eq_add_of_le (show start ≤ i by omega)
      have := early i (by omega)
      omega
  refine ⟨_, waveform, ?_, ?_, ?_⟩
  · simp only [Gate.relatedEventIdx,found,searched]
    omega
  · exact (records _ inside).1
  · have prior : max start (start + host.relatedEventIdx input curTime - 1) = start +
      (host.relatedEventIdx input curTime - 1) := by omega
    rw [HostGate.edgeAt,(records _ (by omega)).2,(records _ inside).2,Gate.edgeAt,prior]
    simp [hostRiseFallEdge_eq]

theorem arcDelayTicks_whole (clock : Clock) (ticks : Int) :
    Gate.arcDelayTicks clock (ticks * clock.vcdTimeScale) = ticks := by
  have scale := clock.vcdTimeScale_pos
  have inTicks : (ticks : ℚ) * clock.vcdTimeScale / clock.vcdTimeScale = ticks :=
    mul_div_cancel_right₀ _ (ne_of_gt scale)
  simp only [Gate.arcDelayTicks,inTicks]
  by_cases negative : (ticks : ℚ) < 0
  · have below : ¬ 0 ≤ (ticks : ℚ) - 1 / 2 := by linarith
    rw [if_neg (not_le.mpr negative),truncate,if_neg below]
    have upper : ((ticks : ℚ) - 1 / 2).ceil ≤ ticks := Rat.ceil_le_iff.mpr (by linarith)
    have lower : ticks - 1 < ((ticks : ℚ) - 1 / 2).ceil := Rat.lt_ceil_iff.mpr (by push_cast; linarith)
    omega
  · have above : 0 ≤ (ticks : ℚ) + 1 / 2 := by linarith
    rw [if_pos (not_lt.mp negative),truncate,if_pos above]
    change ⌊(ticks : ℚ) + 1 / 2⌋ = ticks
    apply Int.floor_eq_iff.mpr
    constructor <;> linarith

theorem Built.hostStep (built : Built host portName maxNPin gate events) (stored : Stored (host.vcdValues input))
    (best : HostGate.Nearest n) :
    host.relateInputPin clock curTime output toRf best input = some
      (match host.latestArc curTime output toRf input with
      | none => best
      | some cellArcDelay =>
        if host.diffTime clock curTime cellArcDelay input < best.minDiffTime ∧ host.InCycle clock curTime input then
          ⟨host.diffTime clock curTime cellArcDelay input, some (input, host.relatedEventIdx input curTime)⟩
        else best) := by
  by_cases shown : host.vcdValues input = []
  · simp [HostGate.relateInputPin,HostGate.latestArc,HostGate.latestEdge,shown]
  · obtain ⟨range, -, -, -, edge⟩ := built.latest stored shown curTime
    simp only [HostGate.relateInputPin,HostGate.latestArc,HostGate.latestEdge,if_neg shown,edge,Option.map_some,
      Option.bind_some]
    rfl

theorem Built.deviceStep (built : Built host portName maxNPin gate events) (stored : Stored (host.vcdValues input))
    (whole : host.WholeTicks clock output toRf) (isInput : input.val < host.nInputPin)
    (isOutput : host.nInputPin ≤ output.val) (curTime : Nat) (best : Gate.Related n) :
    match host.latestArc curTime output toRf input with
    | none => gate.relateInputPin events clock curTime output toRf best input = best
    | some cellArcDelay => ∃ range, ∃ diffTime : Int, gate.pinWaveforms input = some range ∧
        host.diffTime clock curTime cellArcDelay input = diffTime * clock.vcdTimeScale ∧
        gate.relateInputPin events clock curTime output toRf best input =
          if !isValidDelay cellArcDelay then best
          else if gate.isLogic ∧ ¬ host.InCycle clock curTime input then best
          else if diffTime < best.minDiffTime ∨
              ((match best.related with
              | none => false
              | some (_, relatedIdx) => host.latestTime curTime input = (events relatedIdx).time &&
                  |diffTime - best.minDiffTime| ≤ 1 && relatedIdx < range.start + host.relatedEventIdx input curTime :
                    Bool) = true) then
            ⟨diffTime, some (input, range.start + host.relatedEventIdx input curTime)⟩
          else best := by
  by_cases shown : host.vcdValues input = []
  · simp [HostGate.latestArc,HostGate.latestEdge,shown,Gate.relateInputPin,built.noWaveform input shown]
  · obtain ⟨range, waveform, found, time, edge⟩ := built.latest stored shown curTime
    simp only [HostGate.latestArc,HostGate.latestEdge,if_neg shown,edge,Option.bind_some]
    have delay := built.delay input output (Gate.edgeAt events range (range.start + host.relatedEventIdx input curTime))
      toRf isInput isOutput
    cases arc : host.arcDelay input (Gate.edgeAt events range (range.start + host.relatedEventIdx input curTime))
      output toRf with
    | none =>
      rw [arc,Option.getD_none] at delay
      simp [Gate.relateInputPin,waveform,found,delay,isValidDelay,invalidDelayVal]
    | some cellArcDelay =>
      rw [arc,Option.getD_some] at delay
      obtain ⟨ticks, rfl⟩ := whole _ _ _ arc
      refine ⟨range, |(curTime : Int) - (host.latestTime curTime input + ticks)|, waveform, ?_, ?_⟩
      · have scale := clock.vcdTimeScale_pos
        rw [HostGate.diffTime,Int.cast_abs,← abs_of_pos scale,← abs_mul,abs_of_pos scale]
        congr 1
        push_cast
        ring
      · simp only [Gate.relateInputPin,waveform,found,delay,arcDelayTicks_whole,time]
        rfl

/-- What a search over the inputs seen so far keeps: the least distance below a limit, and a candidate at it. -/
structure Tracks (candidate : Fin n → ℚ → Prop) (limit : ℚ) (seen : List (Fin n)) (minDiffTime : ℚ)
    (related : Option (Fin n)) : Prop where
  empty : related = none → minDiffTime = limit
  found : ∀ input, related = some input → input ∈ seen ∧ candidate input minDiffTime ∧ minDiffTime < limit
  within : minDiffTime ≤ limit
  least : ∀ input ∈ seen, ∀ distance, candidate input distance → minDiffTime ≤ distance

theorem Tracks.start (candidate : Fin n → ℚ → Prop) (limit : ℚ) : Tracks candidate limit [] limit none :=
  ⟨fun _ => rfl, fun _ impossible => (by cases impossible), le_refl _, fun _ mem => (by cases mem)⟩

theorem Tracks.skip {candidate : Fin n → ℚ → Prop} (tracks : Tracks candidate limit seen minDiffTime related)
    (noNearer : ∀ distance, candidate input distance → minDiffTime ≤ distance) :
    Tracks candidate limit (seen ++ [input]) minDiffTime related := by
  refine ⟨tracks.empty, fun other at' => ?_, tracks.within, fun other mem distance here => ?_⟩
  · exact ⟨List.mem_append_left _ (tracks.found other at').1, (tracks.found other at').2⟩
  · rcases List.mem_append.mp mem with old | new
    · exact tracks.least other old distance here
    · obtain rfl := List.mem_singleton.mp new
      exact noNearer distance here

theorem Tracks.closer {candidate : Fin n → ℚ → Prop} (tracks : Tracks candidate limit seen minDiffTime related)
    (here : candidate input distance) (own : ∀ distance', candidate input distance' → distance' = distance)
    (less : distance < minDiffTime) : Tracks candidate limit (seen ++ [input]) distance (some input) := by
  refine ⟨fun impossible => (by cases impossible), fun other at' => ?_, ?_, fun other mem distance' there => ?_⟩
  · obtain rfl := Option.some.inj at'
    exact ⟨by simp, here, lt_of_lt_of_le less tracks.within⟩
  · exact le_trans (le_of_lt less) tracks.within
  · rcases List.mem_append.mp mem with old | new
    · exact le_trans (le_of_lt less) (tracks.least other old distance' there)
    · obtain rfl := List.mem_singleton.mp new
      exact le_of_eq (own distance' there).symm

omit [DecidableEq κ] in
theorem Tracks.nearest {candidate : Fin n → ℚ → Prop}
    (tracks : Tracks candidate (clock.maxTime * clock.vcdTimeScale) host.inputPins minDiffTime related) :
    host.IsNearest clock candidate related := by
  have listed : ∀ input, input ∈ host.inputPins ↔ input.val < host.nInputPin :=
    fun input => by simp [HostGate.inputPins]
  cases related with
  | none =>
    intro input distance isInput here
    rw [← tracks.empty rfl]
    exact tracks.least input ((listed input).mpr isInput) distance here
  | some input =>
    obtain ⟨mem, here, near⟩ := tracks.found input rfl
    exact ⟨minDiffTime, (listed input).mp mem, here, near, fun other distance' isInput there =>
      tracks.least other ((listed other).mpr isInput) distance' there⟩

omit [DecidableEq κ] in
theorem nearest_unique {candidate : Fin n → ℚ → Prop}
    (apart : ∀ input other distance distance', input ≠ other → candidate input distance → candidate other distance' →
      clock.vcdTimeScale < |distance - distance'|)
    (first : host.IsNearest clock candidate nearest) (second : host.IsNearest clock candidate nearest') :
    nearest = nearest' := by
  cases nearest with
  | none =>
    cases nearest' with
    | none => rfl
    | some other =>
      obtain ⟨distance, isInput, here, near, -⟩ := second
      exact absurd near (not_lt.mpr (first other distance isInput here))
  | some input =>
    obtain ⟨distance, isInput, here, near, least⟩ := first
    cases nearest' with
    | none => exact absurd near (not_lt.mpr (second input distance isInput here))
    | some other =>
      obtain ⟨distance', isInput', there, -, least'⟩ := second
      by_contra different
      have same : distance = distance' :=
        le_antisymm (least other distance' isInput' there) (least' input distance isInput here)
      have far := apart input other distance distance' (fun same => different (congrArg some same)) here there
      rw [same,sub_self,abs_zero] at far
      exact absurd far (not_lt.mpr (le_of_lt clock.vcdTimeScale_pos))

def HostFound (host : HostGate κ TwoDimensionalLUT n) (clock : Clock) (curTime : Nat) (output : Fin n) (toRf : RiseFall)
    (seen : List (Fin n)) (best : HostGate.Nearest n) : Prop :=
  ∃ nearest : Option (Fin n), best.related = nearest.map (fun input => (input, host.relatedEventIdx input curTime)) ∧
    Tracks (host.Candidate clock curTime output toRf) (clock.maxTime * clock.vcdTimeScale) seen best.minDiffTime nearest

theorem HostFound.step (searched : HostFound host clock curTime output toRf seen best)
    (built : Built host portName maxNPin gate events) (stored : Stored (host.vcdValues input)) :
    ∃ next, host.relateInputPin clock curTime output toRf best input = some next ∧
      HostFound host clock curTime output toRf (seen ++ [input]) next := by
  obtain ⟨nearest, related, tracks⟩ := searched
  refine ⟨_, built.hostStep stored best, ?_⟩
  cases arc : host.latestArc curTime output toRf input with
  | none =>
    refine ⟨nearest, related, tracks.skip fun distance candidate => ?_⟩
    obtain ⟨_, found, -⟩ := candidate
    rw [arc] at found
    cases found
  | some cellArcDelay =>
    have own : ∀ distance', host.Candidate clock curTime output toRf input distance' →
        distance' = host.diffTime clock curTime cellArcDelay input ∧ host.InCycle clock curTime input := by
      rintro distance' ⟨other, found, inCycle, rfl⟩
      rw [arc,Option.some.injEq] at found
      exact ⟨by rw [found], inCycle⟩
    dsimp only
    by_cases closer : host.diffTime clock curTime cellArcDelay input < best.minDiffTime ∧
      host.InCycle clock curTime input
    · rw [if_pos closer]
      exact ⟨some input, rfl, tracks.closer ⟨cellArcDelay, arc, closer.2, rfl⟩ (fun distance' here =>
        (own distance' here).1) closer.1⟩
    · rw [if_neg closer]
      refine ⟨nearest, related, tracks.skip fun distance candidate => ?_⟩
      obtain ⟨rfl, inCycle⟩ := own distance candidate
      exact not_lt.mp fun less => closer ⟨less, inCycle⟩

theorem HostFound.run (built : Built host portName maxNPin gate events) (stored : ∀ pin, Stored (host.vcdValues pin))
    (pins : List (Fin n)) (searched : HostFound host clock curTime output toRf seen best) :
    ∃ final, pins.foldlM (host.relateInputPin clock curTime output toRf) best = some final ∧
      HostFound host clock curTime output toRf (seen ++ pins) final := by
  induction pins generalizing seen best with
  | nil =>
    rw [List.append_nil]
    exact ⟨best, rfl, searched⟩
  | cons pin rest ih =>
    obtain ⟨next, step, searched⟩ := searched.step built (stored pin)
    have regroup : seen ++ pin :: rest = seen ++ [pin] ++ rest := by simp
    rw [List.foldlM_cons,step,regroup]
    exact ih searched

theorem Built.host_findRelatedPin (built : Built host portName maxNPin gate events)
    (stored : ∀ pin, Stored (host.vcdValues pin)) (clock : Clock) (curTime : Nat) (output : Fin n) (toRf : RiseFall) :
    ∃ nearest, host.IsNearest clock (host.Candidate clock curTime output toRf) nearest ∧
      host.findRelatedPin clock curTime output toRf =
        some (nearest.map fun input => (input, host.relatedEventIdx input curTime)) := by
  have start : HostFound host clock curTime output toRf [] ⟨clock.maxTime * clock.vcdTimeScale, none⟩ :=
    ⟨none, rfl, Tracks.start _ _⟩
  obtain ⟨final, run, nearest, related, tracks⟩ := HostFound.run built stored host.inputPins start
  rw [List.nil_append] at tracks
  exact ⟨nearest, tracks.nearest, by rw [HostGate.findRelatedPin,run,Option.map_some,related]⟩

/-- Place of the first record of a pin in the buffer. -/
def startOf (gate : Gate n) (pin : Fin n) : Nat := (gate.pinWaveforms pin).elim 0 WaveformRange.start

/-- The search of the kernels after some inputs. -/
def DeviceFound (host : HostGate κ TwoDimensionalLUT n) (gate : Gate n) (clock : Clock) (curTime : Nat) (output : Fin n)
    (toRf : RiseFall) (seen : List (Fin n)) (best : Gate.Related n) : Prop :=
  ∃ nearest : Option (Fin n),
    best.related = nearest.map (fun input => (input, startOf gate input + host.relatedEventIdx input curTime)) ∧
    Tracks (host.DeviceCandidate clock curTime output toRf gate.isLogic) (clock.maxTime * clock.vcdTimeScale) seen
      (best.minDiffTime * clock.vcdTimeScale) nearest

omit [DecidableEq κ] in
/-- The nearest candidate so far is more than a tick away from a new one, so the kernels find no tie. -/
theorem DeviceFound.apart (searched : DeviceFound host gate clock curTime output toRf seen best)
    (apart : host.Apart clock curTime output toRf gate.isLogic) (fresh : input ∉ seen) {distance : ℚ} {diffTime : Int}
    (scaled : distance = diffTime * clock.vcdTimeScale)
    (candidate : host.DeviceCandidate clock curTime output toRf gate.isLogic input distance) :
    best.related = none ∨ ¬ |diffTime - best.minDiffTime| ≤ 1 := by
  have scale := clock.vcdTimeScale_pos
  obtain ⟨nearest, related, tracks⟩ := searched
  cases nearest with
  | none => exact .inl related
  | some other =>
    obtain ⟨mem, seenCandidate, -⟩ := tracks.found other rfl
    have far := apart input other _ _ (fun same => fresh (same ▸ mem)) (.inr candidate) (.inr seenCandidate)
    rw [scaled,← sub_mul,abs_mul,abs_of_pos scale,lt_mul_iff_one_lt_left scale] at far
    refine .inr ?_
    rw [not_le]
    exact_mod_cast far

theorem DeviceFound.step (searched : DeviceFound host gate clock curTime output toRf seen best)
    (built : Built host portName maxNPin gate events) (stored : Stored (host.vcdValues input))
    (whole : host.WholeTicks clock output toRf) (apart : host.Apart clock curTime output toRf gate.isLogic)
    (isInput : input.val < host.nInputPin) (isOutput : host.nInputPin ≤ output.val) (fresh : input ∉ seen) :
    DeviceFound host gate clock curTime output toRf (seen ++ [input])
    (gate.relateInputPin events clock curTime output toRf best input) := by
  have scale := clock.vcdTimeScale_pos
  have device := built.deviceStep stored whole isInput isOutput curTime best
  obtain ⟨nearest, related, tracks⟩ := id searched
  cases arc : host.latestArc curTime output toRf input with
  | none =>
    rw [arc] at device
    dsimp only at device
    rw [device]
    refine ⟨nearest, related, tracks.skip fun distance candidate => ?_⟩
    obtain ⟨_, found, -⟩ := candidate
    rw [arc] at found
    cases found
  | some cellArcDelay =>
    rw [arc] at device
    obtain ⟨range, diffTime, waveform, distance, device⟩ := device
    rw [device]
    have own : ∀ distance', host.DeviceCandidate clock curTime output toRf gate.isLogic input distance' →
        distance' = diffTime * clock.vcdTimeScale ∧ isValidDelay cellArcDelay = true ∧
          (gate.isLogic = true → host.InCycle clock curTime input) := by
      rintro distance' ⟨other, found, valid, inCycle, rfl⟩
      rw [arc,Option.some.injEq] at found
      subst found
      exact ⟨distance, valid, inCycle⟩
    by_cases valid : isValidDelay cellArcDelay = true
    · rw [valid,Bool.not_true,if_neg Bool.false_ne_true]
      by_cases outside : gate.isLogic ∧ ¬ host.InCycle clock curTime input
      · rw [if_pos outside]
        exact ⟨nearest, related, tracks.skip fun _ here => absurd ((own _ here).2.2 outside.1) outside.2⟩
      · rw [if_neg outside]
        have candidate : host.DeviceCandidate clock curTime output toRf gate.isLogic input
          (diffTime * clock.vcdTimeScale) :=
          ⟨cellArcDelay, arc, valid, fun logic => not_not.mp fun far => outside ⟨logic, far⟩, distance.symm⟩
        by_cases less : diffTime < best.minDiffTime
        · rw [if_pos (Or.inl less)]
          have here : startOf gate input = range.start := by rw [startOf,waveform,Option.elim_some]
          refine ⟨some input, by rw [Option.map_some,here],
            tracks.closer candidate (fun distance' here => (own distance' here).1) ?_⟩
          rw [mul_lt_mul_iff_left₀ scale]
          exact_mod_cast less
        · have noTie : ¬ ((match best.related with
              | none => false
              | some (_, relatedIdx) => host.latestTime curTime input = (events relatedIdx).time &&
                  |diffTime - best.minDiffTime| ≤ 1 && relatedIdx < range.start + host.relatedEventIdx input curTime :
                    Bool) = true) := by
            rcases searched.apart apart fresh rfl candidate with none | far
            · simp [none]
            · cases best.related <;> simp [far]
          rw [if_neg (not_or.mpr ⟨less, noTie⟩)]
          refine ⟨nearest, related, tracks.skip fun distance' here => ?_⟩
          rw [(own distance' here).1,mul_le_mul_iff_left₀ scale]
          exact_mod_cast not_lt.mp less
    · rw [Bool.eq_false_iff.mpr valid,Bool.not_false,if_pos rfl]
      exact ⟨nearest, related, tracks.skip fun _ here => absurd (own _ here).2.1 valid⟩

theorem DeviceFound.run (built : Built host portName maxNPin gate events) (stored : ∀ pin, Stored (host.vcdValues pin))
    (whole : host.WholeTicks clock output toRf) (apart : host.Apart clock curTime output toRf gate.isLogic)
    (isOutput : host.nInputPin ≤ output.val) (pins : List (Fin n)) (distinct : (seen ++ pins).Nodup)
    (inputs : ∀ pin ∈ pins, pin.val < host.nInputPin)
    (searched : DeviceFound host gate clock curTime output toRf seen best) :
    DeviceFound host gate clock curTime output toRf (seen ++ pins)
      (pins.foldl (gate.relateInputPin events clock curTime output toRf) best) := by
  induction pins generalizing seen best with
  | nil =>
    rw [List.append_nil]
    exact searched
  | cons pin rest ih =>
    have fresh : pin ∉ seen := fun mem =>
      (List.disjoint_of_nodup_append distinct) mem (List.mem_cons_self ..)
    have next := searched.step built (stored pin) whole apart (inputs pin (List.mem_cons_self ..)) isOutput fresh
    have regroup : seen ++ pin :: rest = seen ++ [pin] ++ rest := by simp
    rw [List.foldl_cons,regroup]
    exact ih (by rw [← regroup]; exact distinct) (fun other mem => inputs other (List.mem_cons_of_mem _ mem)) next

theorem Built.device_findRelatedPin (built : Built host portName maxNPin gate events)
    (stored : ∀ pin, Stored (host.vcdValues pin)) (whole : host.WholeTicks clock output toRf)
    (apart : host.Apart clock curTime output toRf gate.isLogic) (isOutput : host.nInputPin ≤ output.val) :
    ∃ nearest, host.IsNearest clock (host.DeviceCandidate clock curTime output toRf gate.isLogic) nearest ∧
      gate.findRelatedPin events clock curTime output toRf =
        nearest.map fun input => (input, startOf gate input + host.relatedEventIdx input curTime) := by
  have start : DeviceFound host gate clock curTime output toRf [] ⟨clock.maxTime, none⟩ :=
    ⟨none, rfl, by simpa using Tracks.start _ _⟩
  have inputs : ∀ pin ∈ host.inputPins, pin.val < host.nInputPin :=
    fun pin mem => by simpa [HostGate.inputPins] using mem
  have run := DeviceFound.run built stored whole apart isOutput host.inputPins
    (by rw [List.nil_append]; exact (List.nodup_finRange n).filter _) inputs start
  obtain ⟨nearest, related, tracks⟩ := run
  rw [List.nil_append] at tracks
  have same : gate.inputPins = host.inputPins := by rw [Gate.inputPins,HostGate.inputPins,built.nInputPin]
  exact ⟨nearest, tracks.nearest, by rw [Gate.findRelatedPin,same]; exact related⟩

end Search

section Averages

def average (energies : List ℚ) : ℚ := if energies.length = 0 then 0 else energies.sum / energies.length

theorem average_perm {energies energies' : List ℚ} (perm : energies.Perm energies') :
    average energies = average energies' := by
  rw [average,average,perm.length_eq,perm.sum_eq]

theorem average_mem_iff [DecidableEq α] (l : List α) (a : α) :
    average (l.map fun other => if other = a then 1 else 0) ≠ 0 ↔ a ∈ l := by
  constructor
  · intro shown
    by_contra absent
    have zero : (l.map fun other => if other = a then (1 : ℚ) else 0).sum = 0 := by
      refine List.sum_eq_zero fun value mem => ?_
      obtain ⟨other, listed, rfl⟩ := List.mem_map.mp mem
      exact if_neg fun same : other = a => absent (same ▸ listed)
    exact shown (by rw [average,zero,zero_div,ite_self])
  · intro mem
    have some : 0 < l.length := List.length_pos_of_mem mem
    have one : (1 : ℚ) ≤ (l.map fun other => if other = a then (1 : ℚ) else 0).sum := by
      refine List.single_le_sum (fun value listed => ?_) 1 (List.mem_map.mpr ⟨a, mem, if_pos rfl⟩)
      obtain ⟨other, -, rfl⟩ := List.mem_map.mp listed
      split <;> norm_num
    rw [average,List.length_map,if_neg some.ne']
    exact div_ne_zero (by linarith) (by exact_mod_cast some.ne')

/-- Two averages of distinct entries agree for all values of the entries only if the entries are the same. -/
theorem perm_iff_average {l l' : List α} (nodup : l.Nodup) (nodup' : l'.Nodup) :
    l.Perm l' ↔ ∀ energy : α → ℚ, average (l.map energy) = average (l'.map energy) := by
  classical
  refine ⟨fun perm energy => average_perm (perm.map energy), fun same => ?_⟩
  refine (List.perm_ext_iff_of_nodup nodup nodup').mpr fun a => ?_
  rw [← average_mem_iff,← average_mem_iff,same]

theorem flatMap_filter_perm (l : List α) (edges : List β) (p : β → Bool) (f : α → β → γ) :
    (l.flatMap fun a => (edges.filter p).map (f a)).Perm (edges.flatMap fun edge => if p edge then l.map (f · edge)
    else []) := by
  induction l with
  | nil => simp
  | cons a rest ih =>
    have head : (edges.flatMap fun edge => if p edge then [f a edge] else []) = (edges.filter p).map (f a) := by
      clear ih
      induction edges with
      | nil => rfl
      | cons edge others ih => by_cases used : p edge <;> simp [used,ih]
    have split : (edges.flatMap fun edge => if p edge then (a :: rest).map (f · edge) else []) =
        edges.flatMap fun edge => (if p edge then [f a edge] else []) ++ if p edge then rest.map (f · edge)
          else [] := by
      refine List.flatMap_congr fun edge _ => ?_
      by_cases used : p edge <;> simp [used]
    rw [List.flatMap_cons,split,← head]
    exact (ih.append_left _).trans (List.flatMap_append_perm _ _ _)

end Averages

section Energies
variable {κ : Type} [DecidableEq κ] {host : HostGate κ TwoDimensionalLUT n} {portName : Fin n → κ} {maxNPin : Nat}
variable {gate : Gate n} {events : Nat → Event} {output : Fin n} {toRf : RiseFall}

omit [DecidableEq κ] in
/-- The loop over the groups ends at the first one that applies and matches. -/
theorem matchedPower_eq (host : HostGate κ α n) (applies : InternalPower κ α → Bool)
    (groups : List (InternalPower κ α × Nat))
    (accepted : ∀ numbered ∈ groups, applies numbered.1 → (getWhenPinStates host.portNameToIdx numbered.1.when).isSome)
    (pinStates : Fin n → Int) (rf : RiseFall) (slew loadCap : ℚ) :
    host.matchedPower pinStates applies rf slew loadCap (groups.map Prod.fst) = some
      (((groups.filter fun numbered => applies numbered.1).find? fun numbered =>
        Matches host.portNameToIdx pinStates numbered.1).elim 0
        fun numbered => host.powerOf numbered.1 rf slew loadCap) := by
  induction groups with
  | nil => rfl
  | cons numbered rest ih =>
    have later := ih fun other mem => accepted other (List.mem_cons_of_mem _ mem)
    rw [List.map_cons,HostGate.matchedPower]
    by_cases used : applies numbered.1
    · obtain ⟨⟨satisfiable, whenPinStates⟩, collected⟩ :=
        Option.isSome_iff_exists.mp (accepted numbered (List.mem_cons_self ..) used)
      obtain ⟨matched, evaluated, -⟩ := isInternalPowerMatchPinStates_iff collected pinStates
      rw [if_pos used,evaluated,List.filter_cons_of_pos (by exact used),List.find?_cons]
      cases matched with
      | true =>
        have here : Matches host.portNameToIdx pinStates numbered.1 := evaluated
        simp [here]
      | false =>
        have misses : ¬ Matches host.portNameToIdx pinStates numbered.1 := by
          rw [Matches,evaluated]
          decide
        simp only [Option.bind_some,Bool.false_eq_true,if_false,misses,decide_false]
        exact later
    · rw [if_neg used,List.filter_cons_of_neg (by exact used)]
      exact later

theorem groupsOfRelatedPort_distinct (internalPwrs : List (InternalPower κ α)) (related : κ) :
    ((groupsOfRelatedPort internalPwrs related).map Prod.snd).Nodup := by
  rw [groupsOfRelatedPort]
  split <;> exact (zipIdx_distinct internalPwrs).sublist (List.filter_sublist.map _)

/-- Tables of an input on the device: one for each of its groups, and the lookup ends in the selected one. -/
theorem Built.tables_spec (built : Built host portName maxNPin gate events) (isOutput : host.nInputPin ≤ output.val)
    (isInput : related.val < host.nInputPin) :
    ∃ luts : PortLUTs TwoDimensionalLUT,
      (gate.outputPinInternalPowerLUTs (gate.outputPinLocalIdx output)).bind (fun tables => tables related) =
        luts.pairsByState ∧
      ((gate.outputPinInternalPowerLUTsIndexedByOrder (gate.outputPinLocalIdx output)).map fun tables =>
        tables related).getD [] = luts.pairs ∧
      Converted host.portNameToIdx (groupsOfRelatedPort (host.internalPwrs output) (portName related))
        luts.indexedByOrder ∧
      ∀ pinStates : Fin n → Int, EndsIn host.portNameToIdx luts pinStates
        (lookedUp host.portNameToIdx maxNPin pinStates
          (groupsOfRelatedPort (host.internalPwrs output) (portName related))) := by
  obtain ⟨luts, made, byState, byOrder⟩ := built.tables output related isOutput isInput
  refine ⟨luts, byState, byOrder, ?_⟩
  simp only [getOutputInternalPower] at made
  by_cases empty : groupsOfRelatedPort (host.internalPwrs output) (portName related) = []
  · rw [if_pos empty,Option.some.injEq] at made
    rw [empty,← made]
    have nothing : ∀ pinStates : Fin n → Int, lookedUp host.portNameToIdx maxNPin pinStates
        ([] : List (InternalPower κ TwoDimensionalLUT × Nat)) = none := fun pinStates => by simp [lookedUp]
    refine ⟨List.Forall₂.nil, fun pinStates => ?_⟩
    rw [nothing]
    rfl
  · rw [if_neg empty] at made
    exact ⟨(entry_eq made fun _ => 0).1, lookup_eq made (groupsOfRelatedPort_distinct _ _)⟩

/-- Liberty's evaluation of a table is the device's. -/
def HostGate.Unscaled (host : HostGate κ TwoDimensionalLUT n) : Prop :=
  ∀ table slew loadCap, host.power table slew loadCap = table.lookUpValue slew loadCap

omit [DecidableEq κ] in
theorem lookUp_eq (unscaled : host.Unscaled) (made : lutPairOf host.portNameToIdx group = some pair) (slew loadCap : ℚ)
    (rf : RiseFall) :
    TwoDimensionalLUTPair.lookUp pair slew loadCap rf = host.powerOf group rf slew loadCap := by
  obtain ⟨collected, -, rfl⟩ := Option.map_eq_some_iff.mp made
  cases rf <;> simp [TwoDimensionalLUTPair.lookUp,LUTPair.table,HostGate.powerOf,unscaled _ slew loadCap]

theorem Built.linked_eq (built : Built host portName maxNPin gate events) (input : Fin n)
    (pwr : InternalPower κ TwoDimensionalLUT) :
    host.linked input pwr = decide (pwr.relatedPort = some (portName input)) := by
  cases port : pwr.relatedPort with
  | none => simp [HostGate.linked,port]
  | some name => simp [HostGate.linked,port,built.portNames]

theorem Built.hostDefault_eq (built : Built host portName maxNPin gate events) :
    host.getDefaultOutputPinInternalEnergyVal output toRf =
      average ((host.allUses fun input _ => host.ownGroups portName output input).map (host.energyOf output toRf)) := by
  have own : ∀ input, (host.internalPwrs output).filter (host.linked input) =
    (host.ownGroups portName output input).map Prod.fst := by
    intro input
    have places : host.internalPwrs output = (host.internalPwrs output).zipIdx.map Prod.fst :=
      (List.zipIdx_map_fst 0 _).symm
    rw [HostGate.ownGroups]
    conv_lhs => rw [places,List.filter_map]
    refine congrArg (List.map Prod.fst) (List.filter_congr fun numbered _ => ?_)
    exact built.linked_eq input numbered.1
  simp only [HostGate.getDefaultOutputPinInternalEnergyVal,HostGate.allUses,built.slew,own,List.map_map,
    List.map_flatMap]
  refine congrArg average (List.flatMap_congr fun input _ => List.flatMap_congr fun fromRf _ =>
    List.map_congr_left fun numbered _ => ?_)
  simp [HostGate.energyOf,built.slew]

theorem Built.validArc_iff {input : Fin n} (built : Built host portName maxNPin gate events)
    (isInput : input.val < host.nInputPin) (isOutput : host.nInputPin ≤ output.val) (fromRf toRf : RiseFall) :
    (isValidDelay (gate.cellArcDelay (gate.outputPinLocalIdx output) input fromRf toRf) &&
      isValidSlew (gate.getPinSlew input fromRf)) = true ↔
      (host.arcDelay input fromRf output toRf).any isValidDelay = true ∧
        (host.slew input fromRf).any isValidSlew = true := by
  rw [built.delay input output fromRf toRf isInput isOutput,built.slew,Bool.and_eq_true]
  refine and_congr ?_ (by simp)
  cases host.arcDelay input fromRf output toRf with
  | none => simp [isValidDelay,invalidDelayVal]
  | some delay => simp

theorem Built.deviceDefault_eq (built : Built host portName maxNPin gate events) (unscaled : host.Unscaled)
    (isOutput : host.nInputPin ≤ output.val) :
    gate.getDefaultOutputPinInternalEnergyVal output toRf =
      average ((host.allUses (host.averagedGroups portName output toRf)).map (host.energyOf output toRf)) := by
  have same : gate.inputPins = host.inputPins := by rw [Gate.inputPins,HostGate.inputPins,built.nInputPin]
  have perInput : ∀ input ∈ host.inputPins,
      ((((gate.outputPinInternalPowerLUTsIndexedByOrder (gate.outputPinLocalIdx output)).map fun tables =>
        tables input).getD []).flatMap
        fun pair => ([RiseFall.rise, .fall].filter fun fromRf =>
          isValidDelay (gate.cellArcDelay (gate.outputPinLocalIdx output) input fromRf toRf) &&
          isValidSlew (gate.getPinSlew input fromRf)).map fun fromRf =>
            TwoDimensionalLUTPair.lookUp pair (gate.getPinSlew input fromRf)
              (gate.pinLoadCapacitances output) toRf).Perm
      ([RiseFall.rise, .fall].flatMap fun fromRf =>
        (host.averagedGroups portName output toRf input fromRf).map fun numbered =>
        host.energyOf output toRf ⟨numbered, input, fromRf⟩) := by
    intro input mem
    have isInput : input.val < host.nInputPin := by simpa [HostGate.inputPins] using mem
    obtain ⟨luts, -, byOrder, converted, -⟩ := built.tables_spec isOutput isInput
    rw [byOrder]
    refine (flatMap_filter_perm _ _ _ _).trans (List.Perm.of_eq (List.flatMap_congr fun fromRf _ => ?_))
    have valid := built.validArc_iff isInput isOutput fromRf toRf
    rw [HostGate.averagedGroups]
    by_cases used : (host.arcDelay input fromRf output toRf).any isValidDelay = true ∧
      (host.slew input fromRf).any isValidSlew = true
    · rw [if_pos (valid.mpr used),if_pos used,PortLUTs.pairs]
      have energy : ∀ group pair, lutPairOf host.portNameToIdx group = some pair →
          TwoDimensionalLUTPair.lookUp pair (gate.getPinSlew input fromRf) (gate.pinLoadCapacitances output) toRf =
            host.powerOf group toRf ((host.slew input fromRf).getD 0) (host.loadCap output) := fun group pair made => by
        rw [lookUp_eq unscaled made,built.loadCap output isOutput,built.slew,Option.getD_some]
      exact converted.map_eq energy
    · rw [if_neg (mt valid.mp used),if_neg used]
      rfl
  have listed : gate.getDefaultOutputPinInternalEnergyVal output toRf =
    average (host.inputPins.flatMap fun input : Fin n =>
        (((gate.outputPinInternalPowerLUTsIndexedByOrder (gate.outputPinLocalIdx output)).map fun tables =>
          tables input).getD []).flatMap
          fun pair => ([RiseFall.rise, .fall].filter fun fromRf =>
            isValidDelay (gate.cellArcDelay (gate.outputPinLocalIdx output) input fromRf toRf) &&
            isValidSlew (gate.getPinSlew input fromRf)).map fun fromRf =>
              TwoDimensionalLUTPair.lookUp pair (gate.getPinSlew input fromRf)
                (gate.pinLoadCapacitances output) toRf) := by
    rw [Gate.getDefaultOutputPinInternalEnergyVal]
    cases gate.outputPinInternalPowerLUTsIndexedByOrder (gate.outputPinLocalIdx output) with
    | none => simp [average]
    | some luts =>
      rw [same]
      rfl
  rw [listed,average_perm (List.Perm.flatMap_left _ perInput),HostGate.allUses,List.map_flatMap]
  refine congrArg average (List.flatMap_congr fun input _ => ?_)
  rw [List.map_flatMap]
  refine List.flatMap_congr fun fromRf _ => ?_
  rw [List.map_map]
  rfl

theorem groupsOfRelatedPort_own (mem : numbered ∈ host.ownGroups portName output related) :
    groupsOfRelatedPort (host.internalPwrs output) (portName related) = host.ownGroups portName output related := by
  rw [groupsOfRelatedPort]
  exact if_neg (List.ne_nil_of_mem mem)

theorem Built.matchedPower_own (built : Built host portName maxNPin gate events)
    (isOutput : host.nInputPin ≤ output.val)
    (isInput : related.val < host.nInputPin) (pinStates : Fin n → Int) (rf : RiseFall) (slew loadCap : ℚ) :
    host.matchedPower pinStates (host.linked related) rf slew loadCap (host.internalPwrs output) = some
      (((host.ownGroups portName output related).find? fun numbered =>
        Matches host.portNameToIdx pinStates numbered.1).elim 0
        fun numbered => host.powerOf numbered.1 rf slew loadCap) := by
  obtain ⟨luts, -, -, converted, -⟩ := built.tables_spec isOutput isInput
  have own : (host.internalPwrs output).zipIdx.filter (fun numbered => host.linked related numbered.1) =
    host.ownGroups portName output related :=
    List.filter_congr fun numbered _ => built.linked_eq related numbered.1
  have accepted : ∀ numbered ∈ (host.internalPwrs output).zipIdx, host.linked related numbered.1 →
      (getWhenPinStates host.portNameToIdx numbered.1.when).isSome := by
    intro numbered mem linked
    have listed : numbered ∈ host.ownGroups portName output related := by
      rw [← own]
      exact List.mem_filter.mpr ⟨mem, linked⟩
    refine converted.accepted numbered ?_
    rw [groupsOfRelatedPort_own listed]
    exact listed
  have run := matchedPower_eq host (host.linked related) (host.internalPwrs output).zipIdx accepted pinStates rf
    slew loadCap
  rw [List.zipIdx_map_fst,own] at run
  exact run

theorem Built.nearestEdge (built : Built host portName maxNPin gate events) (stored : Stored (host.vcdValues related))
    (arc : host.latestArc curTime output toRf related = some cellArcDelay) :
    ∃ range fromRf, gate.pinWaveforms related = some range ∧ startOf gate related = range.start ∧
      host.latestEdge curTime related = some fromRf ∧ host.edgeAt related (host.relatedEventIdx related curTime) =
        some fromRf ∧
      Gate.edgeAt events range (range.start + host.relatedEventIdx related curTime) = fromRf := by
  have shown : host.vcdValues related ≠ [] := fun empty => by
    rw [HostGate.latestArc,HostGate.latestEdge,if_pos empty] at arc
    cases arc
  obtain ⟨range, waveform, -, -, edge⟩ := built.latest stored shown curTime
  exact ⟨range, _, waveform, by
    rw [startOf,waveform,Option.elim_some], by rw [HostGate.latestEdge,if_neg shown]; exact edge, edge, rfl⟩

theorem Built.findOutputInternalVal_eq (built : Built host portName maxNPin gate events)
    (stored : ∀ pin, Stored (host.vcdValues pin)) (isOutput : host.nInputPin ≤ output.val) (clock : Clock)
    (curTime : Nat) (toRf : RiseFall) (pinStates : Fin n → Int) :
    ∃ nearest, host.IsNearest clock (host.Candidate clock curTime output toRf) nearest ∧
      host.findOutputInternalVal clock pinStates curTime output toRf =
        some (average ((host.hostUses portName output curTime pinStates nearest).map (host.energyOf output toRf))) := by
  obtain ⟨nearest, isNearest, found⟩ := built.host_findRelatedPin stored clock curTime output toRf
  refine ⟨nearest, isNearest, ?_⟩
  rw [HostGate.findOutputInternalVal,found,Option.bind_some]
  cases nearest with
  | none =>
    dsimp only [Option.map_none]
    rw [built.hostDefault_eq]
    rfl
  | some related =>
    obtain ⟨_, isInput, ⟨cellArcDelay, arc, -, -⟩, -⟩ := isNearest
    obtain ⟨range, fromRf, -, -, latest, edge, -⟩ := built.nearestEdge (stored related) arc
    simp only [Option.map_some,edge,Option.bind_some,built.slew,built.matchedPower_own isOutput isInput,
      HostGate.hostUses,
      HostGate.useOf,latest]
    cases (host.ownGroups portName output related).find? fun numbered =>
      Matches host.portNameToIdx pinStates numbered.1 with
    | none => rfl
    | some numbered => simp [average,HostGate.energyOf,built.slew]

theorem Built.getOutputPinInternalEnergyVal_eq (built : Built host portName maxNPin gate events)
    (stored : ∀ pin, Stored (host.vcdValues pin)) (unscaled : host.Unscaled) (isOutput : host.nInputPin ≤ output.val)
    (whole : host.WholeTicks clock output toRf) (apart : host.Apart clock curTime output toRf gate.isLogic)
    (pinStates : Fin n → Int) :
    ∃ nearest, host.IsNearest clock (host.DeviceCandidate clock curTime output toRf gate.isLogic) nearest ∧
      gate.getOutputPinInternalEnergyVal events clock curTime output toRf pinStates =
        average ((host.deviceUses portName output maxNPin curTime toRf pinStates nearest).map
          (host.energyOf output toRf)) := by
  obtain ⟨nearest, isNearest, found⟩ := built.device_findRelatedPin stored whole apart isOutput
  refine ⟨nearest, isNearest, ?_⟩
  rw [Gate.getOutputPinInternalEnergyVal,found,HostGate.deviceUses]
  cases nearest with
  | none =>
    dsimp only [Option.map_none,Option.bind_none]
    rw [built.deviceDefault_eq unscaled isOutput]
  | some related =>
    obtain ⟨_, isInput, ⟨cellArcDelay, arc, -⟩, -⟩ := isNearest
    obtain ⟨range, fromRf, waveform, start, latest, -, edge⟩ := built.nearestEdge (stored related) arc
    obtain ⟨luts, byState, byOrder, -, ends⟩ := built.tables_spec isOutput isInput
    have looked := ends pinStates
    simp only [Option.map_some,Option.bind_some,waveform,start,edge,byState,byOrder,HostGate.useOf,latest]
    cases selected : lookedUp host.portNameToIdx maxNPin pinStates
      (groupsOfRelatedPort (host.internalPwrs output) (portName related)) with
    | none =>
      rw [selected] at looked
      have result : Gate.selectLUT luts.pairsByState luts.pairs pinStates = none := looked
      rw [result]
      dsimp only [Option.map_none]
      rw [built.deviceDefault_eq unscaled isOutput]
    | some numbered =>
      rw [selected] at looked
      obtain ⟨pair, made, result⟩ := looked
      rw [result]
      dsimp only [Option.map_some]
      rw [lookUp_eq unscaled made,built.loadCap output isOutput]
      simp [average,HostGate.energyOf,built.slew]

omit [DecidableEq κ] in
theorem allUses_nodup {groups : Fin n → RiseFall → List (InternalPower κ TwoDimensionalLUT × Nat)}
    (nodup : ∀ input fromRf, (groups input fromRf).Nodup) : (host.allUses groups).Nodup := by
  have injective : ∀ input fromRf, Function.Injective fun numbered : InternalPower κ TwoDimensionalLUT × Nat =>
      (⟨numbered, input, fromRf⟩ : HostGate.TableUse κ TwoDimensionalLUT n) := fun input fromRf first second same =>
    congrArg HostGate.TableUse.numbered same
  rw [HostGate.allUses,List.nodup_flatMap]
  refine ⟨fun input _ => List.nodup_flatMap.mpr ⟨fun fromRf _ =>
    (nodup input fromRf).map (injective input fromRf), ?_⟩, ?_⟩
  · refine List.Pairwise.imp (fun {first second} different => ?_) (show [RiseFall.rise, .fall].Nodup by decide)
    rintro used mem mem'
    obtain ⟨_, -, rfl⟩ := List.mem_map.mp mem
    obtain ⟨_, -, same⟩ := List.mem_map.mp mem'
    exact different (congrArg HostGate.TableUse.fromRf same).symm
  · refine List.Pairwise.imp (fun {first second} different => ?_) ((List.nodup_finRange n).filter _)
    rintro used mem mem'
    obtain ⟨_, -, mem⟩ := List.mem_flatMap.mp mem
    obtain ⟨_, -, mem'⟩ := List.mem_flatMap.mp mem'
    obtain ⟨_, -, rfl⟩ := List.mem_map.mp mem
    obtain ⟨_, -, same⟩ := List.mem_map.mp mem'
    exact different (congrArg HostGate.TableUse.input same).symm

theorem ownGroups_nodup (input : Fin n) : (host.ownGroups portName output input).Nodup :=
  ((zipIdx_distinct _).of_map _).filter _

theorem averagedGroups_nodup (input : Fin n) (fromRf : RiseFall) :
    (host.averagedGroups portName output toRf input fromRf).Nodup := by
  rw [HostGate.averagedGroups]
  split
  · exact (groupsOfRelatedPort_distinct _ _).of_map _
  · exact List.nodup_nil

theorem hostUses_nodup (curTime : Nat) (pinStates : Fin n → Int) (nearest : Option (Fin n)) :
    (host.hostUses portName output curTime pinStates nearest).Nodup := by
  cases nearest with
  | none => exact allUses_nodup fun input _ => ownGroups_nodup input
  | some related =>
    rw [HostGate.hostUses]
    cases host.useOf curTime related ((host.ownGroups portName output related).find?
      fun numbered => Matches host.portNameToIdx pinStates numbered.1) <;> simp

theorem deviceUses_nodup (maxNPin curTime : Nat) (pinStates : Fin n → Int) (nearest : Option (Fin n)) :
    (host.deviceUses portName output maxNPin curTime toRf pinStates nearest).Nodup := by
  rw [HostGate.deviceUses]
  split
  · exact List.nodup_singleton _
  · exact allUses_nodup averagedGroups_nodup

end Energies
section Arc

def inputA : Fin 2 := ⟨0, Nat.two_pos⟩

def outputY : Fin 2 := ⟨1, Nat.one_lt_two⟩

def threeTable : TwoDimensionalLUT := ⟨true, 3, 0, 0, fun _ => 0, fun _ => 0, fun _ => 0⟩

/-- An input that rises at 5, with an arc of two ticks to an output and one group of tables. -/
def arcHost (when : Option (FuncExpr (Fin 2))) : HostGate (Fin 2) TwoDimensionalLUT 2 where
  portNameToIdx := some
  nInputPin := 1
  vcdValues pin := if pin.val = 0 then [⟨0, some .zero, 0, 1⟩, ⟨5, some .one, 0, 1⟩] else []
  valueBit _ := 0
  vertexDefaultState _ := 2
  isClock _ := false
  slew _ _ := some 1
  loadCap _ := 1
  volt _ := 1
  arcDelay _ _ _ _ := some 2
  internalPwrs pin := if pin.val = 1 then [⟨some inputA, when, threeTable, threeTable⟩] else []
  power := TwoDimensionalLUT.lookUpValue
  leakagePowerValues := []
  defaultLeakagePowerVal := 0
  defaultLeakageExists := false

def arcLUTs (when : Option (FuncExpr (Fin 2))) : PortLUTs TwoDimensionalLUT :=
  (getOutputInternalPower (some : Fin 2 → Option (Fin 2)) 2 ((arcHost when).internalPwrs outputY) inputA).getD
    ⟨none, []⟩

def arcGate (when : Option (FuncExpr (Fin 2))) : Gate 2 :=
  { Gate.bare 1 fun pin => if pin.val = 0 then some ⟨0, 2⟩ else none with
    cellArcDelays := fun _ => 2
    outputPinInternalPowerLUTs := fun _ => some fun _ => (arcLUTs when).pairsByState
    outputPinInternalPowerLUTsIndexedByOrder := fun _ => some fun _ => (arcLUTs when).pairs }

def arcEvents (eventIdx : Nat) : Event := if eventIdx = 0 then ⟨0, 0⟩ else ⟨5, 1⟩

theorem arc_built
    (accepted : (getOutputInternalPower (some : Fin 2 → Option (Fin 2)) 2 ((arcHost when).internalPwrs outputY)
      inputA).isSome) :
    Built (arcHost when) id 2 (arcGate when) arcEvents where
  nInputPin := rfl
  portNames name pin := by simp [arcHost]
  noWaveform pin := by fin_cases pin <;> simp [arcHost,arcGate,Gate.bare]
  waveform pin shown := by
    fin_cases pin
    · refine ⟨0, rfl, fun idx inside => ?_⟩
      match idx with
      | 0 => exact ⟨rfl, rfl⟩
      | 1 => exact ⟨rfl, rfl⟩
      | idx + 2 => exact absurd inside (by simp [HostGate.nEvent,arcHost])
    · exact absurd rfl shown
  delay _ _ _ _ _ _ := rfl
  slew pin rf := by cases rf <;> rfl
  loadCap _ _ := rfl
  tables output related isOutput isInput := by
    obtain ⟨luts, made⟩ := Option.isSome_iff_exists.mp accepted
    have same : luts = arcLUTs when := by rw [arcLUTs,made,Option.getD_some]
    have output_eq : output = outputY := Fin.ext (by have : 1 ≤ output.val := isOutput; simp only [outputY]; omega)
    have related_eq : related = inputA := Fin.ext (by have : related.val < 1 := isInput; simp only [inputA]; omega)
    subst output_eq related_eq
    exact ⟨luts, made, by rw [same]; rfl, by rw [same]; rfl⟩

theorem arc_stored (pin : Fin 2) : Stored ((arcHost when).vcdValues pin) := by
  fin_cases pin
  · exact ⟨fun first head => by cases head; rfl, by simp [arcHost]⟩
  · exact ⟨fun first head => (by cases head), by simp [arcHost]⟩

theorem arc_wholeTicks (toRf : RiseFall) : (arcHost when).WholeTicks (tenTickClock 20) 1 toRf := by
  intro input fromRf cellArcDelay found
  have delay : cellArcDelay = 2 := (Option.some.inj found).symm
  exact ⟨2, by rw [delay]; norm_num [tenTickClock]⟩

theorem arc_input (isLogic : Bool) {distance : ℚ}
    (candidate : (arcHost when).Candidate (tenTickClock 20) curTime 1 toRf input distance ∨
      (arcHost when).DeviceCandidate (tenTickClock 20) curTime 1 toRf isLogic input distance) : input = 0 := by
  have only : ∀ pin cellArcDelay, (arcHost when).latestArc curTime 1 toRf pin = some cellArcDelay → pin = 0 := by
    intro pin cellArcDelay found
    fin_cases pin
    · rfl
    · cases found
  rcases candidate with ⟨_, found, -⟩ | ⟨_, found, -⟩
  · exact only _ _ found
  · exact only _ _ found

theorem arc_apart (curTime : Nat) (toRf : RiseFall) (isLogic : Bool) :
    (arcHost when).Apart (tenTickClock 20) curTime 1 toRf isLogic :=
  fun _ _ _ _ different here there => absurd ((arc_input _ here).trans (arc_input _ there).symm) different

theorem arc_nearest {candidate : Fin 2 → ℚ → Prop} (only : ∀ input distance, candidate input distance → input = 0)
    (zero : candidate 0 0) (isNearest : (arcHost when).IsNearest (tenTickClock 20) candidate nearest) :
    nearest = some 0 := by
  cases nearest with
  | none => exact absurd (isNearest 0 0 Nat.one_pos zero) (by decide +kernel)
  | some input =>
    obtain ⟨distance, -, here, -⟩ := isNearest
    rw [only input distance here]

end Arc
end GTPower
