import GTPower.CpuEngine
import GTPower.LoaderRuns
import GTPower.SeparateKernels
import GTPower.StoreInvariant

/-! Where the values of a dump are used as keys of the value map on the CPU and as indices of the toggle tables in the
kernels, listed along the runs. -/
namespace GTPower

section Traces

/-- A value the tables have a row and a column for. -/
def InTable (val : Int) : Prop := val = 0 ∨ val = 1 ∨ val = 2

instance : Decidable (InTable val) := inferInstanceAs (Decidable (_ ∨ _))

variable (gate : Gate n) (events : Nat → Event) (clock : Clock)

def edgeAccess (range : WaveformRange) (eventIdx : Nat) : Int × Int :=
  ((events (max range.start (eventIdx - 1))).val, (events eventIdx).val)

/-- Accesses of the search for the related pin of an output toggle. -/
def relatedAccesses (curTime : Nat) : List (Int × Int) :=
  gate.inputPins.filterMap fun pin => (gate.pinWaveforms pin).map fun range =>
    edgeAccess events range (Gate.relatedEventIdx events range curTime)

/-- Accesses for a record that takes a pin from one value to another. -/
def toggleAccesses (curTime : Nat) (pin : Fin n) (oldVal newVal : Int) : List (Int × Int) :=
  (oldVal, newVal) :: if getNToggle oldVal newVal = 0 ∨
    pin.val < gate.nInputPin then [] else relatedAccesses gate events curTime

/-- Access of the scan for the least time at an output whose record is at the least time so far. -/
def scanAccess (pinEndEventIdxes : Fin n → Nat) (st : ThreadState n) (acc : Scan n) (pin : Fin n) : List (Int × Int) :=
  if gate.pinWaveforms pin = none ∨ pinEndEventIdxes pin ≤ st.pinFrontierEventIdxes pin then []
  else
    let event := events (st.pinFrontierEventIdxes pin)
    if event.time ≤ acc.curTime ∧ gate.nInputPin ≤ pin.val then [(st.prevPinStates pin, event.val)] else []

def scanAccesses (pinEndEventIdxes : Fin n → Nat) (st : ThreadState n) : Scan n → List (Fin n) → List (Int × Int)
  | _, [] => []
  | acc, pin :: rest => scanAccess gate events pinEndEventIdxes st acc pin ++
      scanAccesses pinEndEventIdxes st (scanPin gate events pinEndEventIdxes st acc pin) rest

def processAccesses (before : Fin n → Int) (now : Nat) : ThreadState n → List (Fin n) → List (Int × Int)
  | _, [] => []
  | st, pin :: rest => toggleAccesses gate events now pin (st.prevPinStates pin)
    (events (st.pinFrontierEventIdxes pin)).val ++
      processAccesses before now (processPin gate events clock before now st pin) rest

def roundAccesses (st : ThreadState n) (found : Scan n) : List (Int × Int) :=
  processAccesses gate events clock (if found.hasOutputToggle then st.prevPinStates else fun _ => 0) found.curTime
    { st with windows := st.windows ++ [⟨st.prevTime, found.curTime, gate.findLeakageVal st.prevPinStates⟩] }
    (sortTriggered st.pinFrontierEventIdxes found.triggeredPins)

def mainLoopAccesses (pinEndEventIdxes : Fin n → Nat) : Nat → ThreadState n → List (Int × Int)
  | 0, _ => []
  | fuel + 1, st =>
    let found := scan gate events clock pinEndEventIdxes st
    scanAccesses gate events pinEndEventIdxes st ⟨clock.sentinel, [], false⟩ (List.finRange n) ++
      if found.curTime = clock.sentinel then []
      else roundAccesses gate events clock st found ++ mainLoopAccesses pinEndEventIdxes fuel
        (processRound gate events clock st found)

def kernel1AllAccesses (interval periods : Periods) : List (Int × Int) :=
  if periods.start = periods.stop then []
  else
    let stops := pinEventIdxes gate events (periods.endTime interval clock)
    let st := initState gate events (periods.startTime clock)
    mainLoopAccesses gate events clock stops (loopFuel stops st) st

def kernel1_1Accesses (interval : Periods) (thread : Nat) : List (Int × Int) :=
  match mapFlattenedEventToPinAndEventIdx gate (List.finRange n) thread with
  | none => []
  | some (pin, eventIdx) =>
    if (gate.pinWaveforms pin).any fun range => range.start = eventIdx then []
    else
      let curTime := (events eventIdx).time
      if curTime < interval.startTime clock ∨ interval.stop * clock.vcdTimeUnitPerCycle + 1 ≤ curTime then []
      else toggleAccesses gate events curTime pin (statesSeen gate events curTime eventIdx pin).2 (events eventIdx).val

end Traces

namespace HostGate
variable {κ α : Type} (gate : HostGate κ α n) (clock : Clock)

/-- Lookups in the value map for the edges of the inputs at an output toggle. -/
def edgeLookups (curTime : Nat) : List (Fin n × Nat) :=
  gate.inputPins.flatMap fun pin =>
    if gate.vcdValues pin = [] then [] else [(pin, gate.relatedEventIdx pin curTime - 1),
      (pin, gate.relatedEventIdx pin curTime)]

def initLookups : List (Fin n × Nat) :=
  (List.finRange n).flatMap fun pin => if gate.nEvent pin ≠ 0 ∧ gate.eventTime pin 0 = 0 then [(pin, 0)] else []

def roundLookups (st : HostState n) (curTime : Nat) : List (Fin n × Nat) :=
  ((List.finRange n).filter (gate.triggered st curTime)).flatMap fun pin =>
    (pin, st.pinFrontierEventIdxes pin) :: if pin.val < gate.nInputPin then [] else gate.edgeLookups curTime

def mainLoopLookups : Nat → HostState n → List (Fin n × Nat)
  | 0, _ => []
  | fuel + 1, st =>
    let curTime := gate.minTime clock st
    if curTime = clock.sentinel then []
    else gate.roundLookups st curTime ++
      match gate.round clock st curTime with
      | none => []
      | some next => mainLoopLookups fuel next

def runLookups : List (Fin n × Nat) :=
  gate.initLookups ++
    match gate.initState with
    | none => []
    | some st => gate.mainLoopLookups clock (gate.loopFuel st) st

end HostGate

section Inside
variable {gate : Gate n} {events : Nat → Event} {clock : Clock}

/-- The ranges of the pins are sorted, not empty, and hold values of the tables. -/
structure Levels (gate : Gate n) (events : Nat → Event) : Prop where
  nonempty : ∀ pin range, gate.pinWaveforms pin = some range → range.start < range.stop
  sorted : ∀ pin range, gate.pinWaveforms pin = some range → SortedOn events range.start range.stop
  level : ∀ pin range, gate.pinWaveforms pin = some range → ∀ idx, range.start ≤ idx → idx < range.stop →
    InTable (events idx).val

/-- The states of a thread are values of the tables, and its frontiers are in the ranges. -/
structure StateLevels (gate : Gate n) (st : ThreadState n) : Prop where
  states : ∀ pin, InTable (st.prevPinStates pin)
  frontier : ∀ pin range, gate.pinWaveforms pin = some range → range.start ≤ st.pinFrontierEventIdxes pin

def AccessesInside (accesses : List (Int × Int)) : Prop := ∀ access ∈ accesses, InTable access.1 ∧ InTable access.2

theorem AccessesInside.append (first : AccessesInside accesses) (second : AccessesInside accesses') :
    AccessesInside (accesses ++ accesses') :=
  fun access mem => (List.mem_append.mp mem).elim (first access) (second access)

theorem AccessesInside.nil : AccessesInside [] := fun _ mem => by cases mem

theorem getPinDefaultState_inTable (gate : Gate n) (pin : Fin n) : InTable (gate.getPinDefaultState pin) := by
  simp only [Gate.getPinDefaultState]
  cases gate.pinDefaultStates with
  | none => exact Or.inr (Or.inr rfl)
  | some defaults =>
    by_cases known : defaults pin = 0 ∨ defaults pin = 1
    · simp only [if_pos known]
      exact known.imp_right Or.inl
    · simp only [if_neg known]
      exact Or.inr (Or.inr rfl)

theorem Levels.search (levels : Levels gate events) (waveform : gate.pinWaveforms pin = some range) (time : Nat) :
    range.start ≤ getEventIdxByTime events range.start range.stop time false ∧
      getEventIdxByTime events range.start range.stop time false ≤ range.stop :=
  ⟨le_getEventIdxByTime (levels.sorted pin range waveform) (Nat.le_of_lt (levels.nonempty pin range waveform)),
    getEventIdxByTime_le (levels.sorted pin range waveform) (Nat.le_of_lt (levels.nonempty pin range waveform))⟩

theorem Levels.before (levels : Levels gate events) (waveform : gate.pinWaveforms pin = some range) (time : Nat) :
    range.start ≤ max range.start (getEventIdxByTime events range.start range.stop time false - 1) ∧
      max range.start (getEventIdxByTime events range.start range.stop time false - 1) < range.stop := by
  have bounds := levels.search waveform time
  have nonempty := levels.nonempty pin range waveform
  omega

theorem relatedAccesses_inside (levels : Levels gate events) (curTime : Nat) :
    AccessesInside (relatedAccesses gate events curTime) := by
  intro access mem
  obtain ⟨pin, -, found⟩ := List.mem_filterMap.mp mem
  obtain ⟨range, waveform, rfl⟩ := Option.map_eq_some_iff.mp found
  have bounds := levels.before waveform curTime
  have level := levels.level pin range waveform
  simp only [edgeAccess,Gate.relatedEventIdx]
  exact ⟨level _ (by omega) (by omega), level _ bounds.1 bounds.2⟩

theorem toggleAccesses_inside (levels : Levels gate events) (old : InTable oldVal) (new : InTable newVal)
    (curTime : Nat) (pin : Fin n) :
    AccessesInside (toggleAccesses gate events curTime pin oldVal newVal) := by
  intro access mem
  rcases List.mem_cons.mp mem with rfl | later
  · exact ⟨old, new⟩
  · by_cases quiet : getNToggle oldVal newVal = 0 ∨ pin.val < gate.nInputPin
    · rw [if_pos quiet] at later
      cases later
    · rw [if_neg quiet] at later
      exact relatedAccesses_inside levels curTime access later

theorem StateLevels.next (state : StateLevels gate st) (levels : Levels gate events) (time : Nat)
    (pending : ¬ (gate.pinWaveforms pin = none ∨ pinEventIdxes gate events time pin ≤ st.pinFrontierEventIdxes pin)) :
    InTable (events (st.pinFrontierEventIdxes pin)).val := by
  obtain ⟨shown, before⟩ := not_or.mp pending
  obtain ⟨range, waveform⟩ := Option.ne_none_iff_exists'.mp shown
  have bounds := levels.search waveform time
  have low := state.frontier pin range waveform
  simp only [pinEventIdxes,waveform] at before
  exact levels.level pin range waveform _ low (by omega)

theorem scanAccesses_inside (levels : Levels gate events) (state : StateLevels gate st) (time : Nat) (acc : Scan n)
    (pins : List (Fin n)) :
    AccessesInside (scanAccesses gate events (pinEventIdxes gate events time) st acc pins) := by
  induction pins generalizing acc with
  | nil => exact AccessesInside.nil
  | cons pin rest ih =>
    refine AccessesInside.append ?_ (ih _)
    intro access mem
    simp only [scanAccess] at mem
    by_cases done : gate.pinWaveforms pin = none ∨ pinEventIdxes gate events time pin ≤ st.pinFrontierEventIdxes pin
    · rw [if_pos done] at mem
      cases mem
    · rw [if_neg done] at mem
      split at mem
      · obtain rfl := List.mem_singleton.mp mem
        exact ⟨state.states pin, state.next levels time done⟩
      · cases mem

theorem StateLevels.process (state : StateLevels gate st) (new : InTable (events (st.pinFrontierEventIdxes pin)).val)
    (clock : Clock) (before : Fin n → Int) (now : Nat) :
    StateLevels gate (processPin gate events clock before now st pin) := by
  have states : ∀ other, InTable (Function.update st.prevPinStates pin (events (st.pinFrontierEventIdxes pin)).val
    other) := by
    intro other
    by_cases same : other = pin
    · subst same
      rwa [Function.update_self]
    · rw [Function.update_of_ne same]
      exact state.states other
  have frontier : ∀ other range, gate.pinWaveforms other = some range →
      range.start ≤ Function.update st.pinFrontierEventIdxes pin (st.pinFrontierEventIdxes pin + 1) other := by
    intro other range waveform
    have low := state.frontier other range waveform
    by_cases same : other = pin
    · subst same
      rw [Function.update_self]
      omega
    · rwa [Function.update_of_ne same]
  simp only [processPin]
  split
  · exact ⟨states, frontier⟩
  · exact ⟨states, frontier⟩

theorem processAccesses_inside (levels : Levels gate events) (clock : Clock) (before : Fin n → Int) (now : Nat)
    (pins : List (Fin n)) (distinct : pins.Nodup) (st : ThreadState n) (state : StateLevels gate st)
    (next : ∀ pin ∈ pins, InTable (events (st.pinFrontierEventIdxes pin)).val) :
    AccessesInside (processAccesses gate events clock before now st pins) ∧
      StateLevels gate (pins.foldl (processPin gate events clock before now) st) := by
  induction pins generalizing st with
  | nil => exact ⟨AccessesInside.nil, state⟩
  | cons pin rest ih =>
    obtain ⟨fresh, distinct⟩ := List.nodup_cons.mp distinct
    have here := next pin (List.mem_cons_self ..)
    have stays : ∀ other ∈ rest, (processPin gate events clock before now st pin).pinFrontierEventIdxes other =
      st.pinFrontierEventIdxes other := by
      intro other mem
      have differ : other ≠ pin := fun same => fresh (same ▸ mem)
      simp only [processPin]
      split <;> exact Function.update_of_ne differ _ _
    obtain ⟨accesses, final⟩ := ih distinct _ (state.process here clock before now) fun other mem => by
      rw [stays other mem]
      exact next other (List.mem_cons_of_mem _ mem)
    exact ⟨(toggleAccesses_inside levels (state.states pin) here now pin).append accesses, final⟩

theorem scan_triggered (gate : Gate n) (events : Nat → Event) (clock : Clock) (stops : Fin n → Nat)
    (st : ThreadState n) :
    (scan gate events clock stops st).triggeredPins.Nodup ∧ ∀ pin ∈ (scan gate events clock stops st).triggeredPins,
      ¬ (gate.pinWaveforms pin = none ∨ stops pin ≤ st.pinFrontierEventIdxes pin) := by
  have folding : ∀ (pins : List (Fin n)) (acc : Scan n), (acc.triggeredPins ++ pins).Nodup →
      (∀ pin ∈ acc.triggeredPins, ¬ (gate.pinWaveforms pin = none ∨ stops pin ≤ st.pinFrontierEventIdxes pin)) →
      (pins.foldl (scanPin gate events stops st) acc).triggeredPins.Nodup ∧
        ∀ pin ∈ (pins.foldl (scanPin gate events stops st) acc).triggeredPins,
          ¬ (gate.pinWaveforms pin = none ∨ stops pin ≤ st.pinFrontierEventIdxes pin) := by
    intro pins
    induction pins with
    | nil =>
      intro acc distinct pending
      rw [List.append_nil] at distinct
      exact ⟨distinct, pending⟩
    | cons pin rest ih =>
      intro acc distinct pending
      have regroup : (acc.triggeredPins ++ pin :: rest) = acc.triggeredPins ++ [pin] ++ rest := by simp
      rw [regroup] at distinct
      have shorter : (acc.triggeredPins ++ rest).Nodup :=
        distinct.sublist (List.Sublist.append_right (List.sublist_append_left _ _) _)
      have alone : ([pin] ++ rest).Nodup := by
        rw [List.append_assoc] at distinct
        exact distinct.sublist (List.sublist_append_right _ _)
      by_cases done : gate.pinWaveforms pin = none ∨ stops pin ≤ st.pinFrontierEventIdxes pin
      · have skipped : scanPin gate events stops st acc pin = acc := by simp only [scanPin,if_pos done]
        rw [List.foldl_cons,skipped]
        exact ih acc shorter pending
      · have three : (scanPin gate events stops st acc pin).triggeredPins = [pin] ∨
            (scanPin gate events stops st acc pin).triggeredPins = acc.triggeredPins ++ [pin] ∨
            (scanPin gate events stops st acc pin).triggeredPins = acc.triggeredPins := by
          simp only [scanPin,if_neg done]
          split <;> split <;> (try split) <;> simp
        rw [List.foldl_cons]
        rcases three with found | found | found
        · refine ih _ (by rw [found]; exact alone) fun other mem => ?_
          rw [found,List.mem_singleton] at mem
          rwa [mem]
        · refine ih _ (by rw [found]; exact distinct) fun other mem => ?_
          rw [found] at mem
          rcases List.mem_append.mp mem with old | new
          · exact pending other old
          · rwa [List.mem_singleton.mp new]
        · refine ih _ (by rw [found]; exact shorter) fun other mem => ?_
          rw [found] at mem
          exact pending other mem
  exact folding (List.finRange n) _ (by rw [List.nil_append]; exact List.nodup_finRange n) fun _ mem => by cases mem

theorem StateLevels.round (state : StateLevels gate st) (levels : Levels gate events) (clock : Clock) (time : Nat) :
    AccessesInside (roundAccesses gate events clock st (scan gate events clock (pinEventIdxes gate events time) st)) ∧
      StateLevels gate (processRound gate events clock st
        (scan gate events clock (pinEventIdxes gate events time) st)) := by
  obtain ⟨distinct, pending⟩ := scan_triggered gate events clock (pinEventIdxes gate events time) st
  have sorted := sortTriggered_perm st.pinFrontierEventIdxes
    (scan gate events clock (pinEventIdxes gate events time) st).triggeredPins
  obtain ⟨accesses, final⟩ := processAccesses_inside levels clock
    (if (scan gate events clock (pinEventIdxes gate events time) st).hasOutputToggle then st.prevPinStates
      else fun _ => 0)
    (scan gate events clock (pinEventIdxes gate events time) st).curTime _ (sorted.nodup_iff.mpr distinct)
    { st with windows := st.windows ++
      [⟨st.prevTime, (scan gate events clock (pinEventIdxes gate events time) st).curTime,
        gate.findLeakageVal st.prevPinStates⟩] }
    ⟨state.states, state.frontier⟩ fun pin mem => state.next levels time (pending pin (sorted.mem_iff.mp mem))
  exact ⟨accesses, final.states, final.frontier⟩

theorem mainLoopAccesses_inside (levels : Levels gate events) (clock : Clock) (time fuel : Nat) (st : ThreadState n)
    (state : StateLevels gate st) :
    AccessesInside (mainLoopAccesses gate events clock (pinEventIdxes gate events time) fuel st) := by
  induction fuel generalizing st with
  | zero => exact AccessesInside.nil
  | succ fuel ih =>
    refine (scanAccesses_inside levels state time _ _).append ?_
    split
    · exact AccessesInside.nil
    · obtain ⟨accesses, next⟩ := state.round levels clock time
      exact accesses.append (ih _ next)

theorem kernel1AllAccesses_inside (levels : Levels gate events) (clock : Clock) (interval periods : Periods) :
    AccessesInside (kernel1AllAccesses gate events clock interval periods) := by
  rw [kernel1AllAccesses]
  split
  · exact AccessesInside.nil
  · refine mainLoopAccesses_inside levels clock _ _ _ ⟨fun pin => ?_, fun pin range waveform => ?_⟩
    · simp only [initState,initPin]
      cases waveform : gate.pinWaveforms pin with
      | none => exact getPinDefaultState_inTable gate pin
      | some range =>
        have bounds := levels.before waveform (periods.startTime clock)
        simp only [pinEventIdxes,waveform]
        exact levels.level pin range waveform _ bounds.1 bounds.2
    · have bounds := levels.search waveform (periods.startTime clock)
      simp only [initState,initPin,waveform,pinEventIdxes]
      split
      · exact Nat.le_succ _
      · exact bounds.1

end Inside
end GTPower
