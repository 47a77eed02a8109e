import GTPower.SeparateAgree

/-! Glitches on the CPU: flags for the records of each clock cycle, and the pulse between flagged
neighbours. The kernel decides with running counters instead. -/
namespace GTPower

section Flags
variable (clock : Clock) (timeOf : Nat → Nat)

/-- The scan for the flags: records of the cycle it is in. Flags count from the start index. -/
structure PeriodScan where
  eventGlitchFlags : Nat → Bool
  curPeriodEventIdxes : List Nat
  curPeriodIdx : Nat

/-- Flags the records of a cycle in pairs; the last one of an odd number stays without. -/
def flagPeriod (startIdx : Nat) (flags : Nat → Bool) (idxes : List Nat) : Nat → Bool :=
  if 2 ≤ idxes.length then
    (idxes.take (if idxes.length % 2 = 0 then idxes.length else idxes.length - 1)).foldl
      (fun flags idx => Function.update flags (idx - startIdx) true) flags
  else flags

def scanEvent (startIdx : Nat) (st : PeriodScan) (pos : Nat) : PeriodScan :=
  let curEventPeriodIdx := clock.clkedWaveformIdx (timeOf pos)
  if curEventPeriodIdx = st.curPeriodIdx then { st with curPeriodEventIdxes := st.curPeriodEventIdxes ++ [pos] }
  else ⟨flagPeriod startIdx st.eventGlitchFlags st.curPeriodEventIdxes, [pos], curEventPeriodIdx⟩

/-- The initial record of the list is no transition. -/
def getEventClockCycleBasedGlitchFlags (startIdx endIdx : Nat) : Nat → Bool :=
  if startIdx = endIdx then fun _ => false
  else
    let scan := (List.range' (startIdx + 1) (endIdx - (startIdx + 1))).foldl (scanEvent clock timeOf startIdx)
      ⟨fun _ => false, if startIdx ≠ 0 then [startIdx] else [], clock.clkedWaveformIdx (timeOf startIdx)⟩
    flagPeriod startIdx scan.eventGlitchFlags scan.curPeriodEventIdxes

/-- The wider pulse between the record and its flagged neighbours. -/
def hostPulseWidth (flags : Nat → Bool) (nEvent curEventIdx : Nat) : Int :=
  if flags curEventIdx then
    let prevGlitchPulseWidth : Int :=
      if 1 ≤ curEventIdx ∧ flags (curEventIdx - 1) = true then timeOf curEventIdx - timeOf (curEventIdx - 1)
      else invalidPulseWidth
    let nextGlitchPulseWidth : Int :=
      if curEventIdx + 1 < nEvent ∧ flags (curEventIdx + 1) = true then timeOf (curEventIdx + 1) - timeOf curEventIdx
      else invalidPulseWidth
    max prevGlitchPulseWidth nextGlitchPulseWidth
  else invalidPulseWidth

/-- Ratio of a record; an infinite slew (`none`) of a pin with a pulse ends the program. -/
def getGlitchScalingRatioClockCycleBasedH (riseSlew fallSlew : Option ℚ) (flags : Nat → Bool)
    (nEvent curEventIdx : Nat) :
    Option ℚ :=
  let selectedGlitchPulseWidth := hostPulseWidth timeOf flags nEvent curEventIdx
  if selectedGlitchPulseWidth = invalidPulseWidth then some invalidNToggleVal
  else
    match riseSlew, fallSlew with
    | some rise, some fall =>
      some (getTimeBasedGlitchScalingRatio (selectedGlitchPulseWidth * clock.vcdTimeScale) (rise + fall))
    | _, _ => none

/-- Place of a record among the records of its cycle, without the initial one. -/
def cyclePlace (idx : Nat) : Nat :=
  Nat.count (fun k => 1 ≤ k ∧ clock.clkedWaveformIdx (timeOf k) = clock.clkedWaveformIdx (timeOf idx)) (idx + 1)

def SameCycle (nEvent idx later : Nat) : Prop :=
  later < nEvent ∧ clock.clkedWaveformIdx (timeOf idx) = clock.clkedWaveformIdx (timeOf later)

instance : Decidable (SameCycle clock timeOf nEvent idx later) := inferInstanceAs (Decidable (_ ∧ _))

/-- A record is flagged when another one of its cycle follows, or when it is the last of an even number. -/
def Flagged (nEvent idx : Nat) : Prop :=
  1 ≤ idx ∧ idx < nEvent ∧ (SameCycle clock timeOf nEvent idx (idx + 1) ∨ cyclePlace clock timeOf idx % 2 = 0)

instance : Decidable (Flagged clock timeOf nEvent idx) := inferInstanceAs (Decidable (_ ∧ _))

variable {clock timeOf}

theorem flagPeriod_range' (flags : Nat → Bool) (first count idx : Nat) :
    flagPeriod 0 flags (List.range' first count) idx = true ↔
      flags idx = true ∨ first ≤ idx ∧ idx < first + (count - count % 2) := by
  have marks : ∀ (l : List Nat) (flags : Nat → Bool),
      l.foldl (fun flags idx => Function.update flags (idx - 0) true) flags idx = true ↔ flags idx = true ∨
        idx ∈ l := by
    intro l
    induction l with
    | nil => simp
    | cons head rest ih =>
      intro flags
      rw [List.foldl_cons,ih,Nat.sub_zero,List.mem_cons]
      by_cases same : idx = head
      · simp [same]
      · rw [Function.update_of_ne same]
        simp [same]
  have size : (if count % 2 = 0 then count else count - 1) = count - count % 2 := by
    split <;> omega
  rw [flagPeriod,List.length_range',size]
  split
  case isTrue =>
    rw [marks,List.take_range'_of_length_ge (Nat.sub_le ..),List.mem_range'_1]
  case isFalse short =>
    refine ⟨Or.inl, fun marked => marked.resolve_right fun inside => ?_⟩
    have : count - count % 2 = 0 := by omega
    omega

/-- The scan before `pos`: the records of the current cycle start at `first`, and the flags of all earlier
cycles are set. -/
structure FlagsScanned (clock : Clock) (timeOf : Nat → Nat) (nEvent pos first : Nat) (st : PeriodScan) : Prop where
  low : 1 ≤ first
  high : first ≤ pos
  period : st.curPeriodIdx = clock.clkedWaveformIdx (timeOf (pos - 1))
  idxes : st.curPeriodEventIdxes = List.range' first (pos - first)
  current : ∀ k, first ≤ k → k < pos → clock.clkedWaveformIdx (timeOf k) = clock.clkedWaveformIdx (timeOf (pos - 1))
  earlier : ∀ k, 1 ≤ k → k < first → clock.clkedWaveformIdx (timeOf k) < clock.clkedWaveformIdx (timeOf (pos - 1))
  flags : ∀ k, st.eventGlitchFlags k = true ↔ k < first ∧ Flagged clock timeOf nEvent k

section Scan
variable (mono : ∀ i j, i ≤ j → j < nEvent → clock.clkedWaveformIdx (timeOf i) ≤ clock.clkedWaveformIdx (timeOf j))
include mono

theorem cyclePlace_eq (low : 1 ≤ first) (here : first ≤ idx) (inside : idx < nEvent)
    (joined : clock.clkedWaveformIdx (timeOf first) = clock.clkedWaveformIdx (timeOf idx))
    (before : ∀ k, 1 ≤ k → k < first → clock.clkedWaveformIdx (timeOf k) ≠ clock.clkedWaveformIdx (timeOf idx)) :
    cyclePlace clock timeOf idx = idx + 1 - first := by
  obtain ⟨more, rfl⟩ := Nat.exists_eq_add_of_le here
  have start : Nat.count (fun k => 1 ≤ k ∧
    clock.clkedWaveformIdx (timeOf k) = clock.clkedWaveformIdx (timeOf (first + more)))
      first = 0 := Nat.count_iff_forall_not.mpr fun k less ⟨low, same⟩ => before k low less same
  have rest : ∀ count, count ≤ more + 1 → Nat.count (fun k => 1 ≤ k ∧
      clock.clkedWaveformIdx (timeOf k) = clock.clkedWaveformIdx (timeOf (first + more))) (first + count) = count := by
    intro count
    induction count with
    | zero => intro _; exact start
    | succ count ih =>
      intro bound
      have same : clock.clkedWaveformIdx (timeOf (first + count)) = clock.clkedWaveformIdx (timeOf (first + more)) := by
        have up := mono first (first + count) (by omega) (by omega)
        have down := mono (first + count) (first + more) (by omega) inside
        omega
      rw [← Nat.add_assoc,Nat.count_succ,ih (by omega),if_pos ⟨by omega, same⟩]
  have all := rest (more + 1) (Nat.le_refl _)
  rw [← Nat.add_assoc] at all
  rw [cyclePlace,all]
  omega

/-- Closing the current cycle flags its records once the next one, if any, is in a later cycle. -/
theorem FlagsScanned.close (scanned : FlagsScanned clock timeOf nEvent pos first st) (within : pos ≤ nEvent)
    (ended : pos < nEvent → clock.clkedWaveformIdx (timeOf (pos - 1)) ≠ clock.clkedWaveformIdx (timeOf pos)) (k : Nat) :
    flagPeriod 0 st.eventGlitchFlags st.curPeriodEventIdxes k = true ↔ k < pos ∧ Flagged clock timeOf nEvent k := by
  rw [scanned.idxes,flagPeriod_range',scanned.flags]
  by_cases inside : first ≤ k ∧ k < pos
  · obtain ⟨here, high⟩ := inside
    have place : cyclePlace clock timeOf k = k + 1 - first := by
      apply cyclePlace_eq mono scanned.low here (by omega)
      · rw [scanned.current first (Nat.le_refl _) (by omega),scanned.current k here high]
      · intro j low less
        have := scanned.earlier j low less
        rw [scanned.current k here high]
        omega
    have next : SameCycle clock timeOf nEvent k (k + 1) ↔ k + 1 < pos := by
      unfold SameCycle
      constructor
      · rintro ⟨bound, same⟩
        by_contra last
        have here' : k = pos - 1 := by have := scanned.high; omega
        have at' : k + 1 = pos := by omega
        rw [at',here'] at same
        exact ended (by omega) same
      · intro more
        exact ⟨by omega, by rw [scanned.current k here high,scanned.current (k + 1) (by omega) more]⟩
    unfold Flagged
    rw [next,place]
    have := scanned.low
    omega
  · have := scanned.high
    constructor
    · rintro (⟨less, flagged⟩ | ⟨low, less⟩)
      · exact ⟨by omega, flagged⟩
      · omega
    · rintro ⟨less, flagged⟩
      exact Or.inl ⟨by omega, flagged⟩

theorem FlagsScanned.scanEvent (scanned : FlagsScanned clock timeOf nEvent pos first st) (positive : 1 ≤ pos)
    (within : pos < nEvent) :
    ∃ next, FlagsScanned clock timeOf nEvent (pos + 1) next (scanEvent clock timeOf 0 st pos) := by
  unfold GTPower.scanEvent
  by_cases same : clock.clkedWaveformIdx (timeOf pos) = st.curPeriodIdx
  · have period := scanned.period
    refine ⟨first, scanned.low, by have := scanned.high; omega, ?_, ?_, fun k low high => ?_, fun k low high => ?_, ?_⟩
    all_goals simp only [if_pos same,Nat.add_sub_cancel]
    · exact same.symm
    · have := scanned.high
      have more : pos + 1 - first = pos - first + 1 := by omega
      rw [scanned.idxes,more,List.range'_concat]
      congr 2
      omega
    · by_cases last : k = pos
      · rw [last]
      · rw [scanned.current k low (by omega),same,period]
    · have := scanned.earlier k low high
      omega
    · exact scanned.flags
  · have period := scanned.period
    have later : clock.clkedWaveformIdx (timeOf (pos - 1)) < clock.clkedWaveformIdx (timeOf pos) := by
      have := mono (pos - 1) pos (Nat.sub_le ..) within
      omega
    refine ⟨pos, positive, Nat.le_succ _, ?_, ?_, fun k low high => ?_, fun k low high => ?_, fun k => ?_⟩
    all_goals simp only [if_neg same,Nat.add_sub_cancel]
    · rw [Nat.add_sub_cancel_left]
      rfl
    · rw [show k = pos by omega]
    · have := mono k (pos - 1) (by omega) (by omega)
      omega
    · exact scanned.close mono (Nat.le_of_lt within) (fun _ => by omega) k

theorem getEventClockCycleBasedGlitchFlags_iff (k : Nat) :
    getEventClockCycleBasedGlitchFlags clock timeOf 0 nEvent k = true ↔ Flagged clock timeOf nEvent k := by
  unfold getEventClockCycleBasedGlitchFlags
  by_cases empty : 0 = nEvent
  · subst empty
    simp [Flagged]
  · have scanning : ∀ count, 1 + count ≤ nEvent → ∃ first, FlagsScanned clock timeOf nEvent (1 + count) first
        ((List.range' 1 count).foldl (GTPower.scanEvent clock timeOf 0)
          ⟨fun _ => false, [], clock.clkedWaveformIdx (timeOf 0)⟩) := by
      intro count
      induction count with
      | zero =>
        intro _
        exact ⟨1, Nat.le_refl _, Nat.le_refl _, rfl, rfl, (fun k low high => absurd high (by omega)),
          (fun k low high => absurd high (by omega)), fun k =>
            ⟨(fun set => by cases set), fun ⟨less, low, _⟩ => by omega⟩⟩
      | succ count ih =>
        intro bound
        obtain ⟨first, scanned⟩ := ih (by omega)
        rw [List.range'_concat,List.foldl_append,Nat.one_mul]
        exact scanned.scanEvent mono (by omega) (by omega)
    obtain ⟨first, scanned⟩ := scanning (nEvent - 1) (by omega)
    have all : 1 + (nEvent - 1) = nEvent := by omega
    rw [all] at scanned
    have closed := scanned.close mono (Nat.le_refl _) (fun less => absurd less (Nat.lt_irrefl _)) k
    simp only [if_neg empty,ne_eq,not_true_eq_false,if_false,Nat.zero_add]
    rw [closed]
    exact ⟨And.right, fun flagged => ⟨flagged.2.1, flagged⟩⟩

omit mono in
theorem cyclePlace_succ (same : clock.clkedWaveformIdx (timeOf idx) = clock.clkedWaveformIdx (timeOf (idx + 1))) :
    cyclePlace clock timeOf (idx + 1) = cyclePlace clock timeOf idx + 1 := by
  rw [cyclePlace,Nat.count_succ,if_pos ⟨by omega, rfl⟩,cyclePlace,same]

theorem cyclePlace_first (inside : idx < nEvent) (low : 1 ≤ idx)
    (new : clock.clkedWaveformIdx (timeOf (idx - 1)) ≠ clock.clkedWaveformIdx (timeOf idx)) :
    cyclePlace clock timeOf idx = 1 := by
  have place : cyclePlace clock timeOf idx = idx + 1 - idx := by
    refine cyclePlace_eq mono low (Nat.le_refl _) inside rfl fun k _ less => ?_
    have early := mono k (idx - 1) (by omega) (by omega)
    have late := mono (idx - 1) idx (Nat.sub_le ..) inside
    omega
  omega

theorem previous_of_even (inside : idx < nEvent) (low : 1 ≤ idx) (even : cyclePlace clock timeOf idx % 2 = 0) :
    2 ≤ idx ∧ clock.clkedWaveformIdx (timeOf (idx - 1)) = clock.clkedWaveformIdx (timeOf idx) := by
  constructor
  · by_contra first
    have place : cyclePlace clock timeOf 1 = 1 + 1 - 1 :=
      cyclePlace_eq mono (Nat.le_refl 1) (Nat.le_refl 1) (by omega) rfl fun k low less => by omega
    have here : idx = 1 := by omega
    rw [here,place] at even
    omega
  · by_contra new
    rw [cyclePlace_first mono inside low new] at even
    omega

end Scan
end Flags

section Agree
variable (events : Nat → Event) (clock : Clock) (range : WaveformRange)

/-- Times of the records of a range, counted from its first one. -/
def timesFrom (idx : Nat) : Nat := (events (range.start + idx)).time

def togglingEventIdxes : List Nat :=
  (List.range' (range.start + 1) (range.stop - (range.start + 1))).filter fun eventIdx => togglesAt events eventIdx

/-- Pulse the kernel selects for a toggle, with the counters advanced past it. -/
def selectGlitchPulse (counters : Counters n) (eventIdx : Nat) (pin : Fin n) : Int × Counters n :=
  let counters := counters.count pin (clock.clkedWaveformIdx (events eventIdx).time)
  (devicePulseWidth events clock range (counters.nEventInCurPeriod pin) eventIdx, counters)

def selectGlitchPulses (pin : Fin n) : Counters n → List Nat → List (Nat × Int)
  | _, [] => []
  | counters, eventIdx :: rest =>
    let (pulseWidth, counters) := selectGlitchPulse events clock range counters eventIdx pin
    (eventIdx, pulseWidth) :: selectGlitchPulses pin counters rest

/-- When both sides select the same pulse for a record, counted from the first one of its list. The place among all
records of the cycle and the one among the toggles have to be both odd where they are read, and so has to
agree whether the record before is in the cycle and flagged. -/
def PulsesAgree (idx : Nat) : Prop :=
  let timeOf := timesFrom events range
  let nEvent := range.stop - range.start
  let prevWidth : Int := timeOf idx - timeOf (idx - 1)
  let nextWidth : Int := timeOf (idx + 1) - timeOf idx
  let oddRecord := cyclePlace clock timeOf idx % 2 = 1
  let oddToggle := OddPlace (toggleRank events clock range (range.start + idx))
  let prevInCycle := clock.clkedWaveformIdx (timeOf (idx - 1)) = clock.clkedWaveformIdx (timeOf idx)
  if SameCycle clock timeOf nEvent idx (idx + 1) then
    if SameCycle clock timeOf nEvent idx (idx + 2) ∨ oddRecord ∧ oddToggle then
      (Flagged clock timeOf nEvent (idx - 1) ↔ prevInCycle) ∨ prevWidth ≤ nextWidth
    else if oddRecord then prevInCycle ∧ (if 2 ≤ idx then nextWidth ≤ prevWidth else nextWidth = prevWidth)
    else oddToggle → nextWidth ≤ prevWidth
  else if oddRecord then oddToggle ∨ ¬ prevInCycle
  else ¬ oddToggle ∧ (SameCycle clock timeOf nEvent (idx + 1) (idx + 2) → nextWidth ≤ prevWidth)

instance : Decidable (PulsesAgree events clock range idx) := by unfold PulsesAgree; infer_instance

variable {events clock range}

theorem getGlitchScalingRatio_eq (gate : Gate n) (waveform : gate.pinWaveforms pin = some range)
    (notClock : gate.pinIsClocks pin = false) (counters : Counters n) (eventIdx : Nat) :
    getGlitchScalingRatioClockCycleBasedOnDeviceOnly gate events clock counters eventIdx pin =
      (gate.glitchScalingRatio clock pin (selectGlitchPulse events clock range counters eventIdx pin).1,
        (selectGlitchPulse events clock range counters eventIdx pin).2) := by
  simp only [getGlitchScalingRatioClockCycleBasedOnDeviceOnly,notClock,Bool.false_eq_true,if_false,waveform,
    selectGlitchPulse]

/-- The counter holds the place among the toggles, so that every selection has a closed form. -/
theorem selectGlitchPulses_eq (gate : Gate n) (notClock : gate.pinIsClocks pin = false)
    (sorted : SortedOn events range.start range.stop) :
    selectGlitchPulses events clock range pin ⟨fun _ => invalidNPeriodVal, fun _ =>
    0⟩ (togglingEventIdxes events range) =
      (togglingEventIdxes events range).map fun eventIdx =>
        (eventIdx, devicePulseWidth events clock range (short (toggleRank events clock range eventIdx)) eventIdx) := by
  have running : ∀ count eventIdx (counters : Counters n), range.start + 1 ≤ eventIdx → eventIdx + count = range.stop →
      Counted gate events clock (fun _ => range.start + 1)
        (Function.update (fun _ => range.start + 1) pin eventIdx) counters →
      selectGlitchPulses events clock range pin counters ((List.range' eventIdx count).filter fun k =>
        togglesAt events k) =
        ((List.range' eventIdx count).filter fun k => togglesAt events k).map fun k =>
          (k, devicePulseWidth events clock range (short (toggleRank events clock range k)) k) := by
    intro count
    induction count with
    | zero => intro _ _ _ _ _; rfl
    | succ count ih =>
      intro eventIdx counters low whole counted
      rw [List.range'_succ,List.filter_cons]
      have here : Function.update (fun _ => range.start + 1) pin eventIdx pin = eventIdx := Function.update_self ..
      by_cases toggles : togglesAt events eventIdx
      · have past : ∀ k, range.start + 1 ≤ k → k < Function.update (fun _ => range.start + 1) pin eventIdx pin →
            cycleOf events clock k ≤
              cycleOf events clock (Function.update (fun _ => range.start + 1) pin eventIdx pin) := by
          intro k lowk less
          rw [here] at less ⊢
          exact clock.clkedWaveformIdx_mono (sorted k eventIdx (by omega) (Nat.le_of_lt less) (by omega))
        have low' : (fun _ => range.start + 1) pin ≤ Function.update (fun _ => range.start + 1) pin eventIdx pin := by
          rw [here]; exact low
        have toggles' : togglesAt events (Function.update (fun _ => range.start + 1) pin eventIdx pin) := by
          rw [here]; exact toggles
        have rank := (counted.rank notClock low' toggles' past).2
        have next := counted.toggle notClock low' toggles' past
        rw [here] at rank next
        rw [Function.update_idem] at next
        rw [if_pos (decide_eq_true toggles),List.map_cons,selectGlitchPulses]
        refine congrArg₂ List.cons ?_ (ih (eventIdx + 1) _ (by omega) (by omega) next)
        exact congrArg (fun place => (eventIdx, devicePulseWidth events clock range place eventIdx)) rank
      · have still : ¬ togglesAt events (Function.update (fun _ => range.start + 1) pin eventIdx pin) := by
          rw [here]; exact toggles
        have next := counted.skip (Or.inr still)
        rw [here,Function.update_idem] at next
        rw [if_neg (by simpa using toggles)]
        exact ih (eventIdx + 1) counters (by omega) (by omega) next
  by_cases some : range.start + 1 ≤ range.stop
  · apply running (range.stop - (range.start + 1)) (range.start + 1) _ (Nat.le_refl _) (by omega)
    intro other cycle _ _
    rw [if_neg (by simp [invalidNPeriodVal])]
    refine toggleCount_eq_zero fun k low less => ?_
    dsimp only at low
    by_cases same : other = pin
    · subst same
      rw [Function.update_self] at less
      omega
    · rw [Function.update_of_ne same] at less
      omega
  · have none : togglingEventIdxes events range = [] := by
      rw [togglingEventIdxes,show range.stop - (range.start + 1) = 0 by omega]
      rfl
    rw [none]
    rfl

theorem sameCycleAhead_iff (distance : Nat) : sameCycleAhead events clock range (range.start + idx) distance = true ↔
    SameCycle clock (timesFrom events range) (range.stop - range.start) idx (idx + distance) := by
  simp only [sameCycleAhead,SameCycle,timesFrom,Bool.and_eq_true,decide_eq_true_eq,beq_iff_eq,Nat.add_assoc]
  exact and_congr_left' (by omega)

theorem prevGlitchPulseWidth_eq (low : 1 ≤ idx) : prevGlitchPulseWidth events clock range (range.start + idx) =
    if clock.clkedWaveformIdx (timesFrom events range (idx - 1)) =
    clock.clkedWaveformIdx (timesFrom events range idx) then
      (timesFrom events range idx : Int) - timesFrom events range (idx - 1)
    else invalidPulseWidth := by
  have back : range.start + idx - 1 = range.start + (idx - 1) := by omega
  simp only [prevGlitchPulseWidth,timesFrom,back]
  refine if_congr ⟨fun here => here.2.symm, fun here => ⟨by omega, here.symm⟩⟩ rfl rfl

theorem devicePulseWidth_eq_of_place (low : 1 ≤ idx) (place : Nat) :
    devicePulseWidth events clock range (short place) (range.start + idx) =
      let prevWidth := if clock.clkedWaveformIdx (timesFrom events range (idx - 1)) =
          clock.clkedWaveformIdx (timesFrom events range idx) then
        (timesFrom events range idx : Int) - timesFrom events range (idx - 1) else invalidPulseWidth
      if SameCycle clock (timesFrom events range) (range.stop - range.start) idx (idx + 1) then
        max prevWidth (if SameCycle clock (timesFrom events range) (range.stop - range.start) idx (idx + 2) ∨
          OddPlace place then
          (timesFrom events range (idx + 1) : Int) - timesFrom events range idx else invalidPulseWidth)
      else if OddPlace place then invalidPulseWidth else max prevWidth invalidPulseWidth := by
  have width : ((events (range.start + idx + 1)).time : Int) - (events (range.start + idx)).time =
      timesFrom events range (idx + 1) - timesFrom events range idx := rfl
  rw [devicePulseWidth,prevGlitchPulseWidth_eq low,width]
  by_cases next : SameCycle clock (timesFrom events range) (range.stop - range.start) idx (idx + 1)
  · simp only [if_pos next,if_pos ((sameCycleAhead_iff 1).mpr next),Gate.selectPulseWidth]
    exact congrArg₂ max rfl (if_congr (or_congr_left (sameCycleAhead_iff 2)) rfl rfl)
  · simp only [if_neg next,if_neg (mt (sameCycleAhead_iff 1).mp next),Gate.selectPulseWidth]
    exact if_congr Iff.rfl rfl rfl

section Neighbours
variable {timeOf : Nat → Nat}

theorem flagged_previous (low : 2 ≤ idx) (inside : idx < nEvent)
    (same : clock.clkedWaveformIdx (timeOf (idx - 1)) = clock.clkedWaveformIdx (timeOf idx)) :
    Flagged clock timeOf nEvent (idx - 1) := by
  have next : idx - 1 + 1 = idx := by omega
  refine ⟨by omega, by omega, Or.inl ?_⟩
  rw [next]
  exact ⟨inside, same⟩

theorem flagged_next_of_same (next : SameCycle clock timeOf nEvent idx (idx + 1)) :
    Flagged clock timeOf nEvent (idx + 1) ↔
      SameCycle clock timeOf nEvent idx (idx + 2) ∨ cyclePlace clock timeOf idx % 2 = 1 := by
  have place := cyclePlace_succ next.2
  unfold Flagged
  rw [place]
  have after : SameCycle clock timeOf nEvent (idx + 1) (idx + 1 + 1) ↔ SameCycle clock timeOf nEvent idx (idx + 2) := by
    unfold SameCycle
    rw [next.2]
  rw [after]
  have := next.1
  constructor
  · rintro ⟨-, -, here | even⟩
    · exact Or.inl here
    · exact Or.inr (by omega)
  · rintro (here | odd)
    · exact ⟨by omega, this, Or.inl here⟩
    · exact ⟨by omega, this, Or.inr (by omega)⟩

theorem flagged_next_of_new
    (mono : ∀ i j, i ≤ j → j < nEvent → clock.clkedWaveformIdx (timeOf i) ≤ clock.clkedWaveformIdx (timeOf j))
    (low : 1 ≤ idx) (next : ¬ SameCycle clock timeOf nEvent idx (idx + 1)) :
    Flagged clock timeOf nEvent (idx + 1) ↔ SameCycle clock timeOf nEvent (idx + 1) (idx + 2) := by
  constructor
  · rintro ⟨-, inside, here | even⟩
    · exact here
    · have place := cyclePlace_first mono inside (by omega) fun same => next ⟨inside, same⟩
      omega
  · intro here
    exact ⟨by omega, by have := here.1; omega, Or.inl here⟩

end Neighbours

section Widths

/-- A record that another one of its cycle follows: which pulses each side takes, and the wider of them. -/
theorem widest_same_cycle {afterNext prevInCycle prevFlagged oddRecord oddToggle second : Prop} [Decidable afterNext]
    [Decidable prevInCycle] [Decidable prevFlagged] [Decidable oddRecord] [Decidable oddToggle] [Decidable second]
    {prevWidth nextWidth : Int} (prevPositive : 0 < prevWidth) (nextPositive : 0 < nextWidth)
    (flagged : prevFlagged → second) (paired : second → prevInCycle → prevFlagged)
    (even : ¬ oddRecord → second ∧ prevInCycle) :
    (max (if prevInCycle then prevWidth else -1) (if afterNext ∨ oddToggle then nextWidth else -1) =
      max (if prevFlagged then prevWidth else -1) (if afterNext ∨ oddRecord then nextWidth else -1)) ↔
    if afterNext ∨ oddRecord ∧ oddToggle then (prevFlagged ↔ prevInCycle) ∨ prevWidth ≤ nextWidth
    else if oddRecord then prevInCycle ∧ (if second then nextWidth ≤ prevWidth else nextWidth = prevWidth)
    else oddToggle → nextWidth ≤ prevWidth := by
  by_cases record : oddRecord
  · by_cases here : prevInCycle <;> by_cases marked : prevFlagged <;> grind
  · obtain ⟨two, here⟩ := even record
    have marked := paired two here
    grind

theorem widest_last {prevInCycle prevFlagged nextFlagged oddRecord oddToggle : Prop} [Decidable prevInCycle]
    [Decidable prevFlagged] [Decidable nextFlagged] [Decidable oddRecord] [Decidable oddToggle]
    {prevWidth nextWidth : Int} (prevPositive : 0 < prevWidth) (nextPositive : nextFlagged → 0 < nextWidth)
    (even : ¬ oddRecord → prevInCycle ∧ prevFlagged) :
    ((if oddToggle then -1 else max (if prevInCycle then prevWidth else -1) (-1)) =
      if oddRecord then -1 else max (if prevFlagged then prevWidth else -1) (if nextFlagged then nextWidth else -1)) ↔
    if oddRecord then oddToggle ∨ ¬ prevInCycle else ¬ oddToggle ∧ (nextFlagged → nextWidth ≤ prevWidth) := by
  by_cases record : oddRecord
  · by_cases toggle : oddToggle <;> by_cases here : prevInCycle <;> grind
  · obtain ⟨here, marked⟩ := even record
    by_cases toggle : oddToggle <;> by_cases next : nextFlagged <;> grind

end Widths

theorem hostPulse_iff (strict : StrictlySortedOn events range.start range.stop) (low : 1 ≤ idx)
    (inside : range.start + idx < range.stop) :
    devicePulseWidth events clock range (short (toggleRank events clock range (range.start + idx)))
    (range.start + idx) =
      hostPulseWidth (timesFrom events range)
        (getEventClockCycleBasedGlitchFlags clock (timesFrom events range) 0 (range.stop - range.start))
        (range.stop - range.start) idx ↔ PulsesAgree events clock range idx := by
  have mono : ∀ i j, i ≤ j → j < range.stop - range.start →
      clock.clkedWaveformIdx (timesFrom events range i) ≤ clock.clkedWaveformIdx (timesFrom events range j) :=
    fun i j order high => clock.clkedWaveformIdx_mono (strict.sortedOn _ _ (by omega) (by omega) (by omega))
  have within : idx < range.stop - range.start := by omega
  have prevLess : timesFrom events range (idx - 1) < timesFrom events range idx :=
    strict _ _ (by omega) (by omega) inside
  have nextLess : idx + 1 < range.stop - range.start → timesFrom events range idx < timesFrom events range (idx + 1) :=
    fun more => strict _ _ (by omega) (by omega) (by omega)
  have even : ¬ cyclePlace clock (timesFrom events range) idx % 2 = 1 → 2 ≤ idx ∧
      clock.clkedWaveformIdx (timesFrom events range (idx - 1)) = clock.clkedWaveformIdx (timesFrom events range idx) :=
    fun notOdd => previous_of_even mono within low (by omega)
  have self : Flagged clock (timesFrom events range) (range.stop - range.start) idx ↔
      SameCycle clock (timesFrom events range) (range.stop - range.start) idx (idx + 1) ∨
        ¬ cyclePlace clock (timesFrom events range) idx % 2 = 1 := by
    have notOdd : ¬ cyclePlace clock (timesFrom events range) idx % 2 = 1 ↔
      cyclePlace clock (timesFrom events range) idx % 2 = 0 := by
      omega
    rw [notOdd]
    exact ⟨fun flagged => flagged.2.2, fun here => ⟨low, within, here⟩⟩
  have previous : 2 ≤ idx → clock.clkedWaveformIdx (timesFrom events range (idx - 1)) =
      clock.clkedWaveformIdx (timesFrom events range idx) →
        Flagged clock (timesFrom events range) (range.stop - range.start) (idx - 1) :=
    fun second same => flagged_previous second within same
  have second : Flagged clock (timesFrom events range) (range.stop - range.start) (idx - 1) → 2 ≤ idx :=
    fun flagged => by
    have := flagged.1
    omega
  have counted : 1 ≤ idx ∧ Flagged clock (timesFrom events range) (range.stop - range.start) (idx - 1) ↔
      Flagged clock (timesFrom events range) (range.stop - range.start) (idx - 1) :=
        ⟨And.right, fun here => ⟨low, here⟩⟩
  rw [devicePulseWidth_eq_of_place low]
  simp only [hostPulseWidth,getEventClockCycleBasedGlitchFlags_iff mono,self,counted,invalidPulseWidth,PulsesAgree]
  by_cases next : SameCycle clock (timesFrom events range) (range.stop - range.start) idx (idx + 1)
  · have later := nextLess next.1
    simp only [next,true_or,if_true,flagged_next_of_same next,next.1,true_and]
    exact widest_same_cycle (by omega) (by omega) second previous even
  · have follows : idx + 1 < range.stop - range.start ∧
      SameCycle clock (timesFrom events range) (range.stop - range.start)
        (idx + 1) (idx + 2) ↔ SameCycle clock (timesFrom events range) (range.stop - range.start) (idx + 1) (idx + 2) :=
      ⟨And.right, fun here => ⟨by have := here.1; omega, here⟩⟩
    simp only [next,false_or,flagged_next_of_new mono low next,follows,ite_not,if_false]
    refine widest_last (by omega) (fun here => ?_) fun notOdd =>
      ⟨(even notOdd).2, previous (even notOdd).1 (even notOdd).2⟩
    have := nextLess (follows.mpr here).1
    omega

/-- The CPU flags against the counters of the kernel, over all toggles of a pin in order: the kernel gives every toggle
one pulse, which its ratio is taken from, and it is the pulse the flags give exactly when the record meets the
condition. -/
theorem glitchPulses_agree (gate : Gate n) (notClock : gate.pinIsClocks pin = false) (clock : Clock)
    (waveform : gate.pinWaveforms pin = some range) (strict : StrictlySortedOn events range.start range.stop) :
    (∀ counters eventIdx, getGlitchScalingRatioClockCycleBasedOnDeviceOnly gate events clock counters eventIdx pin =
      (gate.glitchScalingRatio clock pin (selectGlitchPulse events clock range counters eventIdx pin).1,
        (selectGlitchPulse events clock range counters eventIdx pin).2)) ∧
    (selectGlitchPulses events clock range pin ⟨fun _ => invalidNPeriodVal, fun _ => 0⟩
      (togglingEventIdxes events range)).map Prod.fst = togglingEventIdxes events range ∧
    ∀ selected ∈ selectGlitchPulses events clock range pin ⟨fun _ => invalidNPeriodVal, fun _ => 0⟩
        (togglingEventIdxes events range),
      (selected.2 = hostPulseWidth (timesFrom events range)
          (getEventClockCycleBasedGlitchFlags clock (timesFrom events range) 0 (range.stop - range.start))
          (range.stop - range.start) (selected.1 - range.start) ↔
        PulsesAgree events clock range (selected.1 - range.start)) := by
  refine ⟨getGlitchScalingRatio_eq gate waveform notClock, ?_⟩
  rw [selectGlitchPulses_eq gate notClock strict.sortedOn]
  constructor
  · rw [List.map_map]
    exact List.map_id _
  · intro selected mem
    obtain ⟨eventIdx, toggling, rfl⟩ := List.mem_map.mp mem
    have bounds := List.mem_range'_1.mp (List.mem_filter.mp toggling).1
    obtain ⟨idx, rfl⟩ := Nat.exists_eq_add_of_le (show range.start ≤ eventIdx by omega)
    rw [Nat.add_sub_cancel_left]
    exact hostPulse_iff strict (by omega) (by omega)

def latePulseEvents (eventIdx : Nat) : Event := [⟨0, 0⟩, ⟨12, 1⟩, ⟨15, 0⟩].getD eventIdx ⟨0, 0⟩

theorem glitchPulses_agree_latePulse :
    selectGlitchPulses latePulseEvents (tenTickClock 20) ⟨0, 3⟩ (0 : Fin 1) ⟨fun _ => invalidNPeriodVal, fun _ => 0⟩
      (togglingEventIdxes latePulseEvents ⟨0, 3⟩) = [(1, 3), (2, 3)] ∧
    (3 = hostPulseWidth (timesFrom latePulseEvents ⟨0, 3⟩)
      (getEventClockCycleBasedGlitchFlags (tenTickClock 20) (timesFrom latePulseEvents ⟨0, 3⟩) 0 3) 3 1) := by
  have pulses : selectGlitchPulses latePulseEvents (tenTickClock 20) ⟨0, 3⟩ (0 : Fin 1)
      ⟨fun _ => invalidNPeriodVal, fun _ => 0⟩ (togglingEventIdxes latePulseEvents ⟨0, 3⟩) = [(1, 3), (2, 3)] := by
    decide +kernel
  have strict : StrictlySortedOn latePulseEvents 0 3 := by
    intro i j _ less high
    interval_cases j <;> interval_cases i <;> decide
  obtain ⟨-, -, agrees⟩ :=
    @glitchPulses_agree _ _ _ 0 (Gate.bare 1 fun _ => some ⟨0, 3⟩ : Gate 1) rfl (tenTickClock 20) rfl strict
  exact ⟨pulses, (agrees (1, 3) (by rw [pulses]; decide)).mpr (by decide +kernel)⟩

/-- The initial record is in the cycle of the first toggle. The kernel takes the pulse from it, the flags do not. -/
theorem glitchPulses_disagree : ∃ events : Nat → Event, StrictlySortedOn events 0 3 ∧
    selectGlitchPulses events (tenTickClock 20) ⟨0, 3⟩ (0 : Fin 1) ⟨fun _ => invalidNPeriodVal, fun _ => 0⟩
      (togglingEventIdxes events ⟨0, 3⟩) = [(1, 6), (2, 2)] ∧
    hostPulseWidth (timesFrom events ⟨0, 3⟩)
      (getEventClockCycleBasedGlitchFlags (tenTickClock 20) (timesFrom events ⟨0, 3⟩) 0 3) 3 1 = 2 := by
  refine ⟨fun eventIdx => [⟨0, 0⟩, ⟨6, 1⟩, ⟨8, 0⟩].getD eventIdx ⟨0, 0⟩, ?_, by decide +kernel, by decide +kernel⟩
  intro i j _ less high
  interval_cases j <;> interval_cases i <;> decide

end Agree
end GTPower
