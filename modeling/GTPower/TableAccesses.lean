import GTPower.EventBudget
import GTPower.LoadedRanges
import GTPower.ValueDomain

/-! From the characters of an accepted dump to the value map and to the toggle tables of the kernels. -/
namespace GTPower

section Tables

/-- Rows are previous values and columns current ones. -/
def nRiseTable : List (List ℚ) := [[0, 1, 1 / 2], [0, 0, 0], [0, 1 / 2, 0]]
def nToggleTable : List (List ℚ) := [[0, 1, 1 / 2], [1, 0, 1 / 2], [1 / 2, 1 / 2, 0]]

/-- The entry a kernel reads, if there is one. -/
def tableEntry (table : List (List ℚ)) (prevVal curVal : Int) : Option ℚ :=
  if prevVal < 0 ∨ curVal < 0 then none else (table[prevVal.toNat]?).bind fun row => row[curVal.toNat]?

/-- Both tables have an entry for the values, which is the weight the engine on the CPU computes. -/
def SameWeights (access : Int × Int) : Prop :=
  tableEntry nRiseTable access.1 access.2 = some (hostNRise access.1 access.2) ∧
    tableEntry nToggleTable access.1 access.2 = some (hostNToggle access.1 access.2)

theorem sameWeights_of_inside (inside : InTable access.1 ∧ InTable access.2) : SameWeights access := by
  obtain ⟨prevVal, curVal⟩ := access
  obtain ⟨rfl | rfl | rfl, rfl | rfl | rfl⟩ := inside
  all_goals constructor <;> rfl

end Tables

section Device
variable {gate : Gate n} {events : Nat → Event}

theorem applySameTime_inside (level : ∀ idx, low ≤ idx → idx < stop → InTable (events idx).val)
    (curTime eventIdx fuel : Nat) (reached : low ≤ sameTimeIdx) (inside : InTable state) :
    InTable (applySameTime events stop curTime eventIdx fuel sameTimeIdx state) := by
  induction fuel generalizing sameTimeIdx state with
  | zero => exact inside
  | succ fuel ih =>
    unfold applySameTime
    by_cases same : sameTimeIdx < stop ∧ (events sameTimeIdx).time = curTime
    · rw [if_pos same]
      split
      · exact inside
      · exact ih (by omega) (level sameTimeIdx reached same.1)
    · rwa [if_neg same]

theorem statesSeen_inside (levels : Levels gate events) (curTime eventIdx : Nat) (pin : Fin n) :
    InTable (statesSeen gate events curTime eventIdx pin).2 := by
  unfold statesSeen
  cases waveform : gate.pinWaveforms pin with
  | none => exact getPinDefaultState_inTable gate pin
  | some range =>
    have bounds := levels.search waveform curTime
    have nonempty := levels.nonempty pin range waveform
    have level := levels.level pin range waveform
    dsimp only
    refine applySameTime_inside level curTime eventIdx _ bounds.1 ?_
    split
    · exact level _ (by omega) (by omega)
    · exact level _ (Nat.le_refl _) nonempty

theorem mapFlattenedEvent_inside (pins : List (Fin n)) (linear : Nat)
    (found : mapFlattenedEventToPinAndEventIdx gate pins linear = some (pin, eventIdx)) :
    ∃ range, gate.pinWaveforms pin = some range ∧ range.start ≤ eventIdx ∧ eventIdx < range.stop := by
  induction pins generalizing linear with
  | nil => cases found
  | cons other rest ih =>
    rw [mapFlattenedEventToPinAndEventIdx] at found
    cases waveform : gate.pinWaveforms other with
    | none =>
      rw [waveform] at found
      exact ih linear found
    | some range =>
      rw [waveform] at found
      dsimp only at found
      split at found
      · obtain ⟨rfl, rfl⟩ := Prod.mk.inj (Option.some.inj found)
        exact ⟨range, waveform, by omega, by omega⟩
      · exact ih _ found

theorem kernel1_1Accesses_inside (levels : Levels gate events) (clock : Clock) (interval : Periods) (thread : Nat) :
    AccessesInside (kernel1_1Accesses gate events clock interval thread) := by
  unfold kernel1_1Accesses
  cases found : mapFlattenedEventToPinAndEventIdx gate (List.finRange n) thread with
  | none => exact AccessesInside.nil
  | some record =>
    obtain ⟨pin, eventIdx⟩ := record
    obtain ⟨range, waveform, low, high⟩ := mapFlattenedEvent_inside _ _ found
    dsimp only
    split
    · exact AccessesInside.nil
    · split
      · exact AccessesInside.nil
      · exact toggleAccesses_inside levels (statesSeen_inside levels _ _ pin)
          (levels.level pin range waveform eventIdx low high) _ pin

end Device

namespace HostGate
variable {κ α : Type} {gate : HostGate κ α n}

theorem eventVal_isSome (known : ∀ pin, ∀ entry ∈ gate.vcdValues pin, entry.value ≠ some .u)
    (inside : eventIdx < gate.nEvent pin) :
    (gate.eventVal pin eventIdx).isSome := by
  obtain ⟨entry, found⟩ : ∃ entry, (gate.vcdValues pin)[eventIdx]? = some entry := ⟨_, List.getElem?_eq_getElem inside⟩
  have value := known pin entry (List.mem_of_getElem? found)
  have char : entry.valueAt (gate.valueBit pin) ≠ .u := by
    unfold VcdValue.valueAt
    cases shown : entry.value with
    | none => simp only; split <;> simp
    | some char => exact fun missing => value (missing ▸ shown)
  rw [eventVal,found,Option.bind_some,vcdValueToInt_of_known char]
  rfl

theorem relatedEventIdx_lt (stored : Stored (gate.vcdValues pin)) (shown : gate.vcdValues pin ≠ []) (curTime : Nat) :
    gate.relatedEventIdx pin curTime < gate.nEvent pin := by
  have before : getEventIdxInValues (gate.vcdValues pin) curTime 0 ≤ gate.nEvent pin := by
    rw [getEventIdxInValues_eq stored.increasing (Nat.zero_le _)]
    exact valuesBefore_le _ _
  have some := List.length_pos_iff.mpr shown
  unfold relatedEventIdx
  unfold nEvent at *
  omega

theorem roundLookups_inside (stored : ∀ pin, Stored (gate.vcdValues pin)) (st : HostState n) (curTime : Nat)
    (mem : lookup ∈ gate.roundLookups st curTime) : lookup.2 < gate.nEvent lookup.1 := by
  obtain ⟨pin, due, here⟩ := List.mem_flatMap.mp mem
  have pending := (List.mem_filter.mp due).2
  rw [triggered,Bool.and_eq_true,decide_eq_true_eq] at pending
  rcases List.mem_cons.mp here with rfl | edge
  · exact pending.1
  · split at edge
    · cases edge
    · obtain ⟨input, -, edge⟩ := List.mem_flatMap.mp edge
      split at edge
      · cases edge
      · rename_i shown
        have related := relatedEventIdx_lt (stored input) shown curTime
        rcases List.mem_pair.mp edge with rfl | rfl
        · exact Nat.lt_of_le_of_lt (Nat.sub_le _ _) related
        · exact related

theorem runLookups_inside (stored : ∀ pin, Stored (gate.vcdValues pin)) (clock : Clock)
    (mem : lookup ∈ gate.runLookups clock) :
    lookup.2 < gate.nEvent lookup.1 := by
  have running : ∀ fuel st, lookup ∈ gate.mainLoopLookups clock fuel st → lookup.2 < gate.nEvent lookup.1 := by
    intro fuel
    induction fuel with
    | zero => exact fun st absent => by cases absent
    | succ fuel ih =>
      intro st here
      rw [mainLoopLookups] at here
      split at here
      · cases here
      · rcases List.mem_append.mp here with now | later
        · exact roundLookups_inside stored st _ now
        · split at later
          · cases later
          · exact ih _ later
  rcases List.mem_append.mp mem with start | loop
  · obtain ⟨pin, -, here⟩ := List.mem_flatMap.mp start
    split at here
    · rename_i shown
      obtain rfl := List.mem_singleton.mp here
      exact Nat.pos_of_ne_zero shown.1
    · cases here
  · split at loop
    · cases loop
    · exact running _ _ loop

end HostGate

section Reader
variable {vcd : Vcd} {text : List Char} {maxEventNum : Nat}

theorem fresh_readHeader (fresh : Fresh reader.vcd) (run : readHeader fuel words reader = some (last, values)) :
    Fresh last.vcd := by
  induction fuel generalizing words reader with
  | zero => cases run
  | succ fuel ih =>
    cases words with
    | nil =>
      obtain ⟨rfl, -⟩ := Prod.mk.inj (Option.some.inj run)
      exact fresh
    | cons token rest =>
      rw [readHeader] at run
      cases stmt : parseStmt reader token (readStmtTokens rest).1 with
      | some result =>
        rw [stmt] at run
        obtain ⟨next, parsed, run⟩ := Option.bind_eq_some_iff.mp run
        exact ih (fresh_parseStmt fresh (stmt.trans (congrArg some parsed))) run
      | none =>
        rw [stmt] at run
        dsimp only at run
        split at run
        · obtain ⟨rfl, -⟩ := Prod.mk.inj (Option.some.inj run)
          exact fresh
        · split at run
          · cases run
          · obtain ⟨rfl, -⟩ := Prod.mk.inj (Option.some.inj run)
            exact fresh

theorem read_cases (accepted : VcdReader.read maxEventNum text = some vcd) :
    Fresh vcd ∨ ∃ before words, Fresh before ∧ before.parseVarValues maxEventNum words = some vcd := by
  obtain ⟨⟨reader, values⟩, header, accepted⟩ := Option.bind_eq_some_iff.mp accepted
  have fresh := fresh_readHeader fresh_init header
  cases values with
  | none =>
    obtain rfl := Option.some.inj accepted
    exact Or.inl fresh
  | some rest => exact Or.inr ⟨reader.vcd, rest, fresh, accepted⟩

theorem read_store (accepted : VcdReader.read maxEventNum text = some vcd) (ids : Nat → Token) :
    DumpStore (vcd.store ids) := by
  rcases read_cases accepted with fresh | ⟨before, words, fresh, parsed⟩
  · intro ptr
    show Stored ((vcd.idValues (ids ptr)).getD [])
    cases found : vcd.idValues (ids ptr) with
    | none => exact stored_nil
    | some values =>
      rw [fresh.empty _ values found]
      exact stored_nil
  · exact Vcd.store_dump fresh parsed ids

/-- The intervals of an accepted text, moved to the cycles: the first one begins at 0 and none is empty. -/
theorem read_intervals (accepted : VcdReader.read maxEventNum text = some vcd)
    (rounded : roundTimeIntervals clock vcd.timeIntervals = some intervals) :
    (∀ interval ∈ intervals, interval.1 ≠ interval.2) ∧ ∀ first, intervals.head? = some first → first.1 = 0 := by
  have nonempty : ∀ interval ∈ intervals, interval.1 ≠ interval.2 := by
    obtain ⟨guarded, rfl⟩ :=
      (mapM_guard (fun interval : Nat × Nat => clock.roundUp interval.1 = clock.roundUp interval.2)
      (fun interval => (clock.roundUp interval.1, clock.roundUp interval.2)) _ _).mp rounded
    intro interval mem
    obtain ⟨raw, here, rfl⟩ := List.mem_map.mp mem
    exact guarded raw here
  refine ⟨nonempty, fun first head => ?_⟩
  rcases read_cases accepted with fresh | ⟨before, words, fresh, parsed⟩
  · rw [fresh.timeIntervals] at rounded
    obtain rfl := Option.some.inj rounded
    cases head
  · obtain ⟨-, groups, rest, -, sliced⟩ := parseVarValues_intervals fresh parsed
    rw [sliced] at rounded
    obtain ⟨-, rfl⟩ := (roundTimeIntervals_spans _ _ _).mp rounded
    cases groups with
    | nil =>
      obtain rfl := Option.some.inj head
      exact clock.roundUp_zero
    | cons group groups =>
      obtain rfl := Option.some.inj head
      exact clock.roundUp_zero

end Reader

section Domain

/-- Scalars are 0, 1 or X. -/
def ShowsLevels (values : List VcdValue) : Prop := ∀ entry ∈ values, entry.value ≠ some .u ∧ entry.value ≠ some .z

theorem charAt_inTable {store : Store} (levels : ShowsLevels (store activity.vcdValues)) (pos : Nat) :
    InTable (vcdValueToEventVal (charAt store activity pos)) := by
  unfold charAt
  cases found : (store activity.vcdValues)[pos]? with
  | none => exact Or.inr (Or.inr rfl)
  | some entry =>
    have known := levels entry (List.mem_of_getElem? found)
    rw [Option.map_some,Option.getD_some,VcdValue.valueAt]
    cases shown : entry.value with
    | none =>
      dsimp only
      split
      · exact Or.inr (Or.inl rfl)
      · exact Or.inl rfl
    | some char =>
      cases char with
      | zero => exact Or.inl rfl
      | one => exact Or.inr (Or.inl rfl)
      | x => exact Or.inr (Or.inr rfl)
      | u => exact absurd shown known.1
      | z => exact absurd shown known.2

theorem timeAt_mono (stored : Stored values) (order : a ≤ b) (inside : b < values.length) :
    timeAt values a ≤ timeAt values b := by
  rcases Nat.eq_or_lt_of_le order with rfl | less
  · exact Nat.le_refl _
  · have increasing := List.pairwise_iff_getElem.mp stored.increasing a b (by omega) inside less
    simpa [timeAt,inside,show a < values.length by omega] using Nat.le_of_lt increasing

theorem RangeShows.record (shows : RangeShows store activity events range startIdx endIdx) (low : range.start ≤ idx)
    (high : idx < range.stop) : events idx = ⟨timeAt (store activity.vcdValues) (startIdx + (idx - range.start)),
      vcdValueToEventVal (charAt store activity (startIdx + (idx - range.start)))⟩ := by
  have stop := shows.stop
  have both := congrArg (fun records : List Event => records[idx - range.start]?) shows.held
  have back : range.start + (idx - range.start) = idx := by omega
  simp only [Blocks.read,recordsOf,List.getElem?_map] at both
  rw [List.getElem?_range' (by omega),List.getElem?_range' (by omega)] at both
  simpa [back] using both

theorem RangesShow.levels {gate : Gate n} {pins : List (Option Activity)} (shows : RangesShow store pins result)
    (dump : DumpStore store)
    (placed : ∀ pin : Fin n, gate.pinWaveforms pin = (result.pinWaveforms[base + pin.val]?).join)
    (levels : ∀ (pin : Fin n) activity, pins[base + pin.val]? = some (some activity) →
      ShowsLevels (store activity.vcdValues)) :
    Levels gate result.events := by
  have each : ∀ pin range, gate.pinWaveforms pin = some range → ∃ activity startIdx endIdx,
      pins[base + pin.val]? = some (some activity) ∧ RangeShows store activity result.events range startIdx endIdx :=
    fun pin range waveform => shows _ range (Option.join_eq_some_iff.mp ((placed pin).symm.trans waveform))
  constructor
  · intro pin range waveform
    obtain ⟨_, _, _, -, shown⟩ := each pin range waveform
    have order := shown.order
    have stop := shown.stop
    omega
  · intro pin range waveform i j low order high
    obtain ⟨activity, startIdx, endIdx, -, shown⟩ := each pin range waveform
    have stop := shown.stop
    have within := shown.within
    rw [shown.record low (by omega),shown.record (by omega) high]
    exact timeAt_mono (dump _) (by omega) (by omega)
  · intro pin range waveform idx low high
    obtain ⟨activity, startIdx, endIdx, pinned, shown⟩ := each pin range waveform
    rw [shown.record low high]
    exact charAt_inTable (levels pin activity pinned) _

/-- Accepted dumps without U and Z on the pins of a gate: no lookup of the engine on the CPU fails, and in every
interval the kernels stay in their tables, whose weights are those of the engine on the CPU. Variables without values
are no pins'. -/
theorem valueDomain (κ α : Type) (clock : Clock) (text : List Char) (vcd : Vcd)
    (accepted : VcdReader.read maxEventNum text = some vcd) (ids : Nat → Token) :
    (∀ n (gate : HostGate κ α n), (∀ pin, gate.vcdValues pin = [] ∨ ∃ ptr, gate.vcdValues pin = vcd.store ids ptr) →
      (∀ pin, ∀ entry ∈ gate.vcdValues pin, entry.value ≠ some .u) →
      ∀ lookup ∈ gate.runLookups clock, (gate.eventVal lookup.1 lookup.2).isSome) ∧
    ∀ (pins : List (Option Activity)) (shuffle : List Activity → List Activity) (overlapping : Bool)
    (buffer : Nat → Event)
      (intervals : List (Nat × Nat)) (steps : List LoadStep),
      (∀ activity, some activity ∈ pins → vcd.store ids activity.vcdValues ≠ []) → (∀ bits, (shuffle bits).Perm bits) →
      roundTimeIntervals clock vcd.timeIntervals = some intervals →
      loadRun (vcd.store ids) vcd.timeMax maxEventNum pins shuffle overlapping buffer intervals = some steps →
      ∀ step ∈ steps, ∀ n (gate : Gate n) (base : Nat),
        (∀ pin : Fin n, gate.pinWaveforms pin = (step.result.pinWaveforms[base + pin.val]?).join) →
        (∀ (pin : Fin n) activity, pins[base + pin.val]? = some (some activity) →
          ShowsLevels (vcd.store ids activity.vcdValues)) →
        (∀ interval periods, ∀ access ∈ kernel1AllAccesses gate step.result.events clock interval periods,
          SameWeights access) ∧
        ∀ interval thread, ∀ access ∈ kernel1_1Accesses gate step.result.events clock interval thread,
          SameWeights access := by
  have dump := read_store accepted ids
  constructor
  · intro n gate shown known lookup mem
    have stored : ∀ pin, Stored (gate.vcdValues pin) := by
      intro pin
      rcases shown pin with none | ⟨ptr, here⟩
      · rw [none]
        exact stored_nil
      · rw [here]
        exact dump ptr
    exact HostGate.eventVal_isSome known (HostGate.runLookups_inside stored clock mem)
  · intro pins shuffle overlapping buffer intervals steps shown permutes rounded loads step mem n gate base placed known
    obtain ⟨nonempty, begins⟩ := read_intervals accepted rounded
    have shows := loadRun_ranges overlapping dump shown nonempty begins permutes loads step mem
    have levels : Levels gate step.result.events := shows.levels dump placed known
    constructor
    · intro interval periods access here
      exact sameWeights_of_inside (kernel1AllAccesses_inside levels clock interval periods access here)
    · intro interval thread access here
      exact sameWeights_of_inside (kernel1_1Accesses_inside levels clock interval thread access here)

/-- A gate on the device with one pin, an input or an output, whose range is loaded. -/
def onePin (nInputPin : Nat) (step : LoadStep) : Gate 1 :=
  Gate.bare nInputPin fun pin => (step.result.pinWaveforms[0 + pin.val]?).join

theorem valueDomain_rise : ∃ vcd steps,
    VcdReader.read 100 (wireText [.dumpvars, .scalar 'x' ['!'], .stop, .marker ['5'], .scalar '1' ['!']]) = some vcd ∧
    loadRun (vcd.store fun _ => ['!']) vcd.timeMax 100 [some ⟨0, 0⟩] id true (fun _ => ⟨0, 0⟩) [(0, 10)] = some steps ∧
    (∀ lookup ∈ (HostGate.bare 1 fun _ : Fin 1 => vcd.store (fun _ => ['!']) 0).runLookups (tenTickClock 5),
      ((HostGate.bare 1 fun _ : Fin 1 => vcd.store (fun _ => ['!']) 0).eventVal lookup.1 lookup.2).isSome) ∧
    ∀ step ∈ steps, ∀ access ∈ kernel1AllAccesses (onePin 0 step) step.result.events (tenTickClock 5) ⟨0, 1⟩ ⟨0, 1⟩,
    SameWeights access := by
  obtain ⟨vcd, accepted, values, time, sliced⟩ : ∃ vcd,
      VcdReader.read 100 (wireText [.dumpvars, .scalar 'x' ['!'], .stop, .marker ['5'], .scalar '1' ['!']]) = some vcd ∧
      vcd.store (fun _ => ['!']) 0 = [⟨0, some .x, 0, 1⟩, ⟨5, some .one, 0, 1⟩] ∧ vcd.timeMax = 5 ∧
      roundTimeIntervals (tenTickClock 5) vcd.timeIntervals = some [(0, 10)] := ⟨_, rfl, rfl, rfl, by decide +kernel⟩
  have dump : vcd.store (fun _ => ['!']) = fun _ => [⟨0, some .x, 0, 1⟩, ⟨5, some .one, 0, 1⟩] := funext fun _ => values
  obtain ⟨steps, loads⟩ : ∃ steps,
      loadRun (vcd.store fun _ => ['!']) vcd.timeMax 100 [some ⟨0, 0⟩] id true (fun _ => ⟨0, 0⟩) [(0, 10)] =
        some steps := by
    rw [dump,time]
    exact ⟨_, rfl⟩
  have levels : ShowsLevels (vcd.store (fun _ => ['!']) 0) := by
    rw [values]
    intro entry mem
    fin_cases mem <;> exact ⟨by decide, by decide⟩
  refine ⟨vcd, steps, accepted, loads, ?_, fun step mem => ?_⟩
  · exact (valueDomain Unit Unit (tenTickClock 5) _ vcd accepted fun _ => ['!']).1 1 (HostGate.bare 1 fun _ =>
      vcd.store (fun _ => ['!']) 0)
      (fun _ => Or.inr ⟨0, rfl⟩) fun _ entry mem => (levels entry mem).1
  · refine ((valueDomain Unit Unit (tenTickClock 5) _ vcd accepted fun _ => ['!']).2 [some ⟨0, 0⟩] id true (fun _ =>
      ⟨0, 0⟩) [(0, 10)] steps
      ?_ (fun _ => List.Perm.refl _) sliced loads step mem 1 (onePin 0 step) 0 (fun _ => rfl) ?_).1 ⟨0, 1⟩ ⟨0, 1⟩
    · apply forall_pins
      intro pin mem activity here
      fin_cases mem
      cases here
      rw [values]
      decide
    · intro pin activity here
      obtain rfl : activity = ⟨0, 0⟩ := by
        have zero : pin.val = 0 := Nat.lt_one_iff.mp pin.isLt
        rw [zero] at here
        cases here
        rfl
      exact levels

/-- A value U has no number on the CPU, and a value Z has no row and column in the kernels. -/
theorem valueDomain_outside :
    (∃ vcd, VcdReader.read 100 (wireText [.dumpvars, .scalar 'u' ['!'], .stop, .marker ['5']]) = some vcd ∧
      ∃ lookup ∈ (HostGate.bare 1 fun _ : Fin 1 => vcd.store (fun _ => ['!']) 0).runLookups (tenTickClock 5),
        (HostGate.bare 1 fun _ : Fin 1 => vcd.store (fun _ => ['!']) 0).eventVal lookup.1 lookup.2 = none) ∧
    ∃ vcd, VcdReader.read 100 (wireText [.dumpvars, .scalar '0' ['!'], .stop, .marker ['5'], .scalar 'z' ['!']]) =
    some vcd ∧
      roundTimeIntervals (tenTickClock 5) vcd.timeIntervals = some [(0, 10)] ∧
      ∃ step, loadRun (vcd.store fun _ => ['!']) vcd.timeMax 100 [some ⟨0, 0⟩] id true (fun _ => ⟨0, 0⟩) [(0, 10)] =
        some [step] ∧
        ∃ access ∈ kernel1AllAccesses (onePin 0 step) step.result.events (tenTickClock 5) ⟨0, 1⟩ ⟨0, 1⟩,
          tableEntry nRiseTable access.1 access.2 = none ∧ tableEntry nToggleTable access.1 access.2 = none := by
  constructor
  · obtain ⟨vcd, accepted, values⟩ : ∃ vcd,
        VcdReader.read 100 (wireText [.dumpvars, .scalar 'u' ['!'], .stop, .marker ['5']]) = some vcd ∧
        vcd.store (fun _ => ['!']) 0 = [⟨0, some .u, 0, 1⟩] := ⟨_, rfl, rfl⟩
    refine ⟨vcd, accepted, ?_⟩
    rw [values]
    decide +kernel
  · obtain ⟨vcd, accepted, values, time, sliced⟩ : ∃ vcd,
        VcdReader.read 100 (wireText [.dumpvars, .scalar '0' ['!'], .stop, .marker ['5'], .scalar 'z' ['!']]) =
          some vcd ∧
        vcd.store (fun _ => ['!']) = (fun _ => [⟨0, some .zero, 0, 1⟩, ⟨5, some .z, 0, 1⟩]) ∧ vcd.timeMax = 5 ∧
        roundTimeIntervals (tenTickClock 5) vcd.timeIntervals = some [(0, 10)] := ⟨_, rfl, rfl, rfl, by decide +kernel⟩
    refine ⟨vcd, accepted, sliced, ?_⟩
    rw [values,time]
    refine ⟨_, rfl, ?_⟩
    decide +kernel

end Domain
end GTPower
