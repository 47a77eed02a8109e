import GTPower.CyclePartition
import GTPower.PowerResult
import GTPower.SameTimeRecords

/-! Where the separate kernels agree with the fused one: each toggle is to be seen in the same states, and its place in
its clock cycle is to lead to one scaling ratio, whether all records are counted or the toggles alone. -/
namespace GTPower

section Places
variable (events : Nat → Event) (clock : Clock) (range : WaveformRange)

/-- Place of a record among all records of its cycle, the first record of the range included. -/
def recordRank (eventIdx : Nat) : Nat :=
  Nat.count (fun k => range.start ≤ k ∧ cycleOf events clock k = cycleOf events clock eventIdx) (eventIdx + 1)

/-- The test for an odd place; places wrap around as a `short`. -/
def OddPlace (place : Nat) : Prop := Int.tmod (short place) 2 = 1

instance : Decidable (OddPlace place) := inferInstanceAs (Decidable (_ = _))

/-- A pulse width whose ratio is positive: widths of 0 scale to 0. -/
def IsGlitch (gate : Gate n) (pin : Fin n) (width : Int) : Prop :=
  width ≠ invalidPulseWidth ∧ (width = 0 → gate.pinRiseSlews pin + gate.pinFallSlews pin = 0)

/-- A pulse width that reaches the mean of the slews, so that its ratio is 1. -/
def IsFullWidth (gate : Gate n) (clock : Clock) (pin : Fin n) (width : Int) : Prop :=
  width ≠ invalidPulseWidth ∧
    |gate.pinRiseSlews pin + gate.pinFallSlews pin| ≤ |width * clock.vcdTimeScale * 2|

/-- Two pulse widths that are booked in the same way. -/
def WidthsAlike (gate : Gate n) (clock : Clock) (pin : Fin n) (width width' : Int) : Prop :=
  width = width' ∨ (¬ IsGlitch gate pin width ∧ ¬ IsGlitch gate pin width') ∨
    (IsFullWidth gate clock pin width ∧ IsFullWidth gate clock pin width')

instance : Decidable (IsGlitch gate pin width) := inferInstanceAs (Decidable (_ ∧ _))

instance : Decidable (IsFullWidth gate clock pin width) := inferInstanceAs (Decidable (_ ∧ _))

instance : Decidable (WidthsAlike gate clock pin width width') := inferInstanceAs (Decidable (_ ∨ _))

/-- Counting all records instead of the toggles leaves the place odd or even, or an odd and an even place lead to
pulse widths that are booked in the same way. -/
def PlaceAgrees (gate : Gate n) (pin : Fin n) (eventIdx : Nat) : Prop :=
  (OddPlace (toggleRank events clock range eventIdx) ↔ OddPlace (recordRank events clock range eventIdx)) ∨
    WidthsAlike gate clock pin (devicePulseWidth events clock range 1 eventIdx)
      (devicePulseWidth events clock range 2 eventIdx)

instance : Decidable (PlaceAgrees events clock range gate pin eventIdx) := inferInstanceAs (Decidable (_ ∨ _))

variable {events clock range}

theorem invalid_le_prevGlitchPulseWidth (clock : Clock) (sorted : SortedOn events range.start range.stop)
    (inside : eventIdx < range.stop) :
    invalidPulseWidth ≤ prevGlitchPulseWidth events clock range eventIdx := by
  unfold prevGlitchPulseWidth
  split
  case isTrue here =>
    have := sorted (eventIdx - 1) eventIdx (by omega) (by omega) inside
    simp only [invalidPulseWidth]
    omega
  case isFalse => exact le_refl _

theorem invalid_le_devicePulseWidth (clock : Clock) (sorted : SortedOn events range.start range.stop)
    (inside : eventIdx < range.stop)
    (countSoFar : Int) : invalidPulseWidth ≤ devicePulseWidth events clock range countSoFar eventIdx := by
  have least := invalid_le_prevGlitchPulseWidth clock sorted inside
  unfold devicePulseWidth Gate.selectPulseWidth
  split
  · exact le_max_of_le_left least
  · split
    · exact le_refl _
    · exact le_max_right _ _

theorem devicePulseWidth_place (events : Nat → Event) (clock : Clock) (range : WaveformRange) (place eventIdx : Nat) :
    devicePulseWidth events clock range (short place) eventIdx =
      if OddPlace place then devicePulseWidth events clock range 1 eventIdx
        else devicePulseWidth events clock range 2 eventIdx := by
  have one : Int.tmod 1 2 = 1 := by decide
  have two : ¬ Int.tmod 2 2 = 1 := by decide
  by_cases odd : OddPlace place
  · rw [if_pos odd]
    simp only [OddPlace] at odd
    simp only [devicePulseWidth,Gate.selectPulseWidth,odd,one]
  · rw [if_neg odd]
    simp only [OddPlace] at odd
    simp only [devicePulseWidth,Gate.selectPulseWidth,odd,two]

theorem max_glitchScalingRatio (gate : Gate n) (clock : Clock) (pin : Fin n) (width : Int) :
    max 0 (gate.glitchScalingRatio clock pin width) =
      if IsGlitch gate pin width then
        if IsFullWidth gate clock pin width then 1
        else (width * clock.vcdTimeScale * 2 / (gate.pinRiseSlews pin + gate.pinFallSlews pin)) ^ 2
      else 0 := by
  unfold Gate.glitchScalingRatio getTimeBasedGlitchScalingRatio
  by_cases invalid : width = invalidPulseWidth
  · have none : ¬ IsGlitch gate pin width := fun glitch => glitch.1 invalid
    rw [if_pos invalid,if_neg none]
    decide +kernel
  rw [if_neg invalid]
  by_cases flat : gate.pinRiseSlews pin + gate.pinFallSlews pin = 0
  · have glitch : IsGlitch gate pin width := ⟨invalid, fun _ => flat⟩
    have full : IsFullWidth gate clock pin width := ⟨invalid, by rw [flat,abs_zero]; exact abs_nonneg _⟩
    rw [if_pos flat,if_pos glitch,if_pos full]
    exact max_eq_right zero_le_one
  rw [if_neg flat]
  by_cases zero : width = 0
  · have none : ¬ IsGlitch gate pin width := fun glitch => flat (glitch.2 zero)
    rw [if_neg none,zero]
    norm_num
  · have glitch : IsGlitch gate pin width := ⟨invalid, fun h => absurd h zero⟩
    have square : (width * clock.vcdTimeScale * 2 / (gate.pinRiseSlews pin + gate.pinFallSlews pin)) ^ 2 =
        width * clock.vcdTimeScale * 2 / (gate.pinRiseSlews pin + gate.pinFallSlews pin) *
          (width * clock.vcdTimeScale * 2 / (gate.pinRiseSlews pin + gate.pinFallSlews pin)) := sq _
    have reaches : IsFullWidth gate clock pin width ↔
        1 ≤ (width * clock.vcdTimeScale * 2 / (gate.pinRiseSlews pin + gate.pinFallSlews pin)) ^ 2 := by
      rw [div_pow,one_le_div (by positivity),sq_le_sq]
      exact and_iff_right invalid
    rw [if_pos glitch]
    dsimp only
    rw [← square]
    split
    case isTrue full => rw [min_eq_left (reaches.mp full),max_eq_right zero_le_one]
    case isFalse short =>
      rw [min_eq_right (le_of_not_ge (reaches.not.mp short)),max_eq_right (sq_nonneg _)]

theorem IsFullWidth.isGlitch (full : IsFullWidth gate clock pin width) : IsGlitch gate pin width := by
  refine ⟨full.1, fun zero => ?_⟩
  have reaches := full.2
  rw [zero] at reaches
  simpa using reaches

theorem IsGlitch.sloped (glitch : IsGlitch gate pin width) (narrow : ¬ IsFullWidth gate clock pin width)
    (valid : invalidPulseWidth ≤ width) : gate.pinRiseSlews pin + gate.pinFallSlews pin ≠ 0 ∧ 0 < width := by
  have sloped : gate.pinRiseSlews pin + gate.pinFallSlews pin ≠ 0 := fun flat =>
    narrow ⟨glitch.1, by rw [flat,abs_zero]; exact abs_nonneg _⟩
  have nonzero : width ≠ 0 := fun zero => sloped (glitch.2 zero)
  have moved := glitch.1
  simp only [invalidPulseWidth] at moved valid
  exact ⟨sloped, by omega⟩

/-- The ratio of a glitch that does not reach the mean of the slews. -/
theorem IsGlitch.square_between (glitch : IsGlitch gate pin width) (narrow : ¬ IsFullWidth gate clock pin width)
    (valid : invalidPulseWidth ≤ width) :
    0 < (width * clock.vcdTimeScale * 2 / (gate.pinRiseSlews pin + gate.pinFallSlews pin)) ^ 2 ∧
      (width * clock.vcdTimeScale * 2 / (gate.pinRiseSlews pin + gate.pinFallSlews pin)) ^ 2 < 1 := by
  have tick := clock.vcdTimeScale_pos
  obtain ⟨sloped, positive⟩ := glitch.sloped narrow valid
  have wide : (0 : ℚ) < width := Int.cast_pos.mpr positive
  have less : |width * clock.vcdTimeScale * 2| < |gate.pinRiseSlews pin + gate.pinFallSlews pin| :=
    lt_of_not_ge fun reaches => narrow ⟨glitch.1, reaches⟩
  constructor
  · positivity
  · rw [div_pow,div_lt_one (by positivity)]
    exact sq_lt_sq.mpr less

theorem widthsAlike_iff (gate : Gate n) (clock : Clock) (pin : Fin n) (valid : invalidPulseWidth ≤ width)
    (valid' : invalidPulseWidth ≤ width') : WidthsAlike gate clock pin width width' ↔
      max 0 (gate.glitchScalingRatio clock pin width) = max 0 (gate.glitchScalingRatio clock pin width') := by
  have tick := clock.vcdTimeScale_pos
  rw [max_glitchScalingRatio,max_glitchScalingRatio]
  constructor
  · rintro (rfl | ⟨none, none'⟩ | ⟨full, full'⟩)
    · rfl
    · rw [if_neg none,if_neg none']
    · rw [if_pos full.isGlitch,if_pos full'.isGlitch,if_pos full,if_pos full']
  · intro same
    by_cases glitch : IsGlitch gate pin width <;> by_cases glitch' : IsGlitch gate pin width'
    · by_cases full : IsFullWidth gate clock pin width <;> by_cases full' : IsFullWidth gate clock pin width'
      · exact Or.inr (Or.inr ⟨full, full'⟩)
      · rw [if_pos glitch,if_pos glitch',if_pos full,if_neg full'] at same
        exact absurd same (ne_of_gt (glitch'.square_between full' valid').2)
      · rw [if_pos glitch,if_pos glitch',if_neg full,if_pos full'] at same
        exact absurd same (ne_of_lt (glitch.square_between full valid).2)
      · obtain ⟨sloped, positive⟩ := glitch.sloped full valid
        obtain ⟨-, positive'⟩ := glitch'.sloped full' valid'
        rw [if_pos glitch,if_pos glitch',if_neg full,if_neg full',div_pow,div_pow,
          div_left_inj' (pow_ne_zero 2 sloped)] at same
        have wide : (0 : ℚ) ≤ width * clock.vcdTimeScale * 2 := by positivity
        have wide' : (0 : ℚ) ≤ width' * clock.vcdTimeScale * 2 := by positivity
        have lengths := (pow_left_inj₀ wide wide' two_ne_zero).mp same
        have cast : (width : ℚ) = width' := mul_right_cancel₀ (ne_of_gt tick) (mul_right_cancel₀ two_ne_zero lengths)
        exact Or.inl (Int.cast_injective cast)
    · rw [if_pos glitch,if_neg glitch'] at same
      split at same
      · exact absurd same one_ne_zero
      · next full => exact absurd same (ne_of_gt (glitch.square_between full valid).1)
    · rw [if_neg glitch,if_pos glitch'] at same
      split at same
      · exact absurd same zero_ne_one
      · next full => exact absurd same (ne_of_lt (glitch'.square_between full valid').1)
    · exact Or.inr (Or.inl ⟨glitch, glitch'⟩)

theorem placeAgrees_iff (gate : Gate n) (pin : Fin n) (sorted : SortedOn events range.start range.stop)
    (inside : eventIdx < range.stop) :
    PlaceAgrees events clock range gate pin eventIdx ↔
      max 0 (gate.glitchScalingRatio clock pin
          (devicePulseWidth events clock range (short (toggleRank events clock range eventIdx)) eventIdx)) =
        max 0 (gate.glitchScalingRatio clock pin
          (devicePulseWidth events clock range (short (recordRank events clock range eventIdx)) eventIdx)) := by
  have alike := widthsAlike_iff gate clock pin (invalid_le_devicePulseWidth clock sorted inside 1)
    (invalid_le_devicePulseWidth clock sorted inside 2)
  rw [devicePulseWidth_place,devicePulseWidth_place,PlaceAgrees,alike]
  by_cases odd : OddPlace (toggleRank events clock range eventIdx) <;>
    by_cases odd' : OddPlace (recordRank events clock range eventIdx)
  · simp [odd,odd']
  · simp [odd,odd']
  · simp [odd,odd',eq_comm]
  · simp [odd,odd']

theorem partitioned_period (clock : Clock) (sorted : SortedOn events start stop) (period : Nat) :
    Bisect.Partitioned (fun mid => clock.clkedWaveformIdx (events mid).time < period) start stop := by
  intro i j low order high before
  have := clock.clkedWaveformIdx_mono (sorted i j low order high)
  simp only [decide_eq_true_eq] at before ⊢
  omega

/-- The records of a range found for the cycle of a record are those in its cycle. -/
theorem periodRange_spec (clock : Clock) (sorted : SortedOn events range.start range.stop) (low : range.start ≤ k)
    (high : k < range.stop) :
    let period := periodRange events clock range k
    range.start ≤ period.start ∧ period.stop ≤ range.stop ∧ ∀ j, range.start ≤ j → j < range.stop →
      (period.start ≤ j ↔ cycleOf events clock k ≤ cycleOf events clock j) ∧
      (j < period.stop ↔ cycleOf events clock j ≤ cycleOf events clock k) := by
  have order : range.start ≤ range.stop := by omega
  refine ⟨Bisect.le_lowerBound (partitioned_period clock sorted _) order,
    Bisect.lowerBound_le (partitioned_period clock sorted _) order, fun j lowj highj => ⟨?_, ?_⟩⟩
  · have split := Bisect.lt_lowerBound_iff (partitioned_period clock sorted (cycleOf events clock k)) lowj highj
    simp only [decide_eq_true_eq] at split
    rw [← Nat.not_lt,← Nat.not_lt]
    exact split.not
  · have split := Bisect.lt_lowerBound_iff (partitioned_period clock sorted (cycleOf events clock k + 1)) lowj highj
    simp only [decide_eq_true_eq] at split
    rw [← Nat.lt_succ_iff]
    exact split

theorem recordRank_eq (clock : Clock) (sorted : SortedOn events range.start range.stop) (low : range.start ≤ k)
    (high : k < range.stop) :
    recordRank events clock range k = k - (periodRange events clock range k).start + 1 := by
  obtain ⟨lower, -, inside⟩ := periodRange_spec clock sorted low high
  have here := (inside k low high).1.mpr (Nat.le_refl _)
  have members : (Finset.range (k + 1)).filter
      (fun j => range.start ≤ j ∧ cycleOf events clock j = cycleOf events clock k) =
        Finset.Ico (periodRange events clock range k).start (k + 1) := by
    ext j
    simp only [Finset.mem_filter,Finset.mem_range,Finset.mem_Ico]
    constructor
    · rintro ⟨less, lowj, same⟩
      exact ⟨(inside j lowj (by omega)).1.mpr (Nat.le_of_eq same.symm), less⟩
    · rintro ⟨reached, less⟩
      have lowj : range.start ≤ j := Nat.le_trans lower reached
      have upward := (inside j lowj (by omega)).1.mp reached
      have downward : cycleOf events clock j ≤ cycleOf events clock k :=
        clock.clkedWaveformIdx_mono (sorted j k lowj (by omega) high)
      exact ⟨less, lowj, Nat.le_antisymm downward upward⟩
  rw [recordRank,Nat.count_eq_card_filter_range,members,Nat.card_Ico]
  omega

/-- The event-centric ratio is the one of the running kernel with the place among all records. -/
theorem getGlitchScalingRatio_eventCentric (gate : Gate n) (clock : Clock)
    (sorted : SortedOn events range.start range.stop)
    (waveform : gate.pinWaveforms pin = some range) (low : range.start ≤ k) (high : k < range.stop) :
    getGlitchScalingRatioClockCycle_EventCentric gate events clock k pin =
      if gate.pinIsClocks pin then invalidNToggleVal
      else gate.glitchScalingRatio clock pin
        (devicePulseWidth events clock range (short (recordRank events clock range k)) k) := by
  obtain ⟨lower, upper, inside⟩ := periodRange_spec clock sorted low high
  have cycles := fun {j m} (lowj : range.start ≤ j) (order : j ≤ m) (highm : m < range.stop) =>
    clock.clkedWaveformIdx_mono (sorted j m lowj order highm)
  have here := inside k low high
  simp only [Nat.le_refl,iff_true] at here
  have rank := recordRank_eq clock sorted low high
  have prev : 1 ≤ k - (periodRange events clock range k).start ↔
      range.start + 1 ≤ k ∧ clock.clkedWaveformIdx (events k).time = clock.clkedWaveformIdx (events (k - 1)).time := by
    constructor
    · intro more
      have upward := (inside (k - 1) (by omega) (by omega)).1.mp (by omega)
      have downward := cycles (by omega : range.start ≤ k - 1) (by omega : k - 1 ≤ k) high
      exact ⟨by omega, Nat.le_antisymm upward downward⟩
    · rintro ⟨first, same⟩
      have := (inside (k - 1) (by omega) (by omega)).1.mpr (Nat.le_of_eq same)
      omega
  have ahead : ∀ distance, sameCycleAhead events clock range k distance = true ↔
      k - (periodRange events clock range k).start + distance <
        (periodRange events clock range k).stop - (periodRange events clock range k).start := by
    intro distance
    simp only [sameCycleAhead,Bool.and_eq_true,decide_eq_true_eq,beq_iff_eq]
    constructor
    · rintro ⟨more, same⟩
      have := (inside (k + distance) (by omega) more).2.mpr (Nat.le_of_eq same.symm)
      omega
    · intro more
      have within : k + distance < range.stop := by omega
      have downward := (inside (k + distance) (by omega) within).2.mp (by omega)
      have upward := cycles low (by omega : k ≤ k + distance) within
      exact ⟨within, Nat.le_antisymm upward downward⟩
  cases isClock : gate.pinIsClocks pin with
  | true => simp [getGlitchScalingRatioClockCycle_EventCentric,isClock]
  | false =>
    simp only [getGlitchScalingRatioClockCycle_EventCentric,isClock,waveform,Bool.false_eq_true,if_false]
    rw [if_neg (by omega),if_neg (by omega)]
    unfold devicePulseWidth prevGlitchPulseWidth
    simp only [rank,← prev,ahead]
    congr 2
    simp only [← ahead,Bool.decide_eq_true]

end Places

/-- The two kernels see a record in the same states: an input pin in those after the records taken or found before
it, an output pin in those before its time. -/
def StatesAgree (gate : Gate n) (events : Nat → Event) (pin : Fin n) (eventIdx : Nat) : Prop :=
  ∀ other, if pin.val < gate.nInputPin then
      stateAfter gate events (events eventIdx).time other (recordsTakenBefore gate events pin eventIdx other) =
        stateAfter gate events (events eventIdx).time other (recordsFoundBefore gate events eventIdx other)
    else
      stateAfter gate events (events eventIdx).time other
          (min (sameTimePlace gate events pin eventIdx) (sameTimeCount gate events (events eventIdx).time other)) =
        stateAfter gate events (events eventIdx).time other 0

instance : Decidable (StatesAgree gate events pin eventIdx) := by unfold StatesAgree; infer_instance

def RecordAgrees (gate : Gate n) (events : Nat → Event) (clock : Clock) (pin : Fin n) (range : WaveformRange)
    (eventIdx : Nat) : Prop :=
  StatesAgree gate events pin eventIdx ∧
    (gate.pinIsClocks pin = false → PlaceAgrees events clock range gate pin eventIdx)

instance : Decidable (RecordAgrees gate events clock pin range eventIdx) := by unfold RecordAgrees; infer_instance

/-- All toggles of the interval are the same to both kernels. -/
def Separable (gate : Gate n) (events : Nat → Event) (clock : Clock) (interval : Periods) : Prop :=
  ∀ pin, ∀ range ∈ gate.pinWaveforms pin, ∀ k < range.stop, range.start < k →
    interval.startTime clock ≤ (events k).time → togglesAt events k → RecordAgrees gate events clock pin range k

instance : Decidable (Separable gate events clock interval) := by unfold Separable; infer_instance

/-- A toggle as it is booked: without a positive ratio it is no glitch. -/
def Contribution.booked (contribution : Contribution n) : Contribution n :=
  { contribution with glitchScalingRatio := max 0 contribution.glitchScalingRatio }

section Agree
variable {gate : Gate n} {events : Nat → Event} {clock : Clock} {interval : Periods}

theorem Contribution.powers_booked (clock : Clock) (contribution : Contribution n) :
    contribution.booked.powers clock = contribution.powers clock := by
  have positive : 0 < contribution.booked.glitchScalingRatio ↔ 0 < contribution.glitchScalingRatio := by
    simp [Contribution.booked]
  funext component
  by_cases glitch : 0 < contribution.glitchScalingRatio
  · have same : contribution.booked = contribution := by
      simp only [Contribution.booked,max_eq_right (le_of_lt glitch)]
    rw [same]
  · have plain : ¬ 0 < contribution.booked.glitchScalingRatio := positive.not.mpr glitch
    cases component with
    | leakage => rfl
    | internal | switching =>
      simp only [Contribution.powers,if_neg glitch,if_neg plain]
      rfl
    | glitchInternal | glitchSwitching => simp only [Contribution.powers,if_neg glitch,if_neg plain]

theorem dynamicPowers_booked (clock : Clock) (contributions : List (Contribution n)) :
    dynamicPowers clock (contributions.map Contribution.booked) = dynamicPowers clock contributions := by
  rw [dynamicPowers,dynamicPowers,List.map_map]
  congr 1
  exact List.map_congr_left fun contribution _ => contribution.powers_booked clock

theorem contributionOf_booked_iff (now : Nat) (pin : Fin n) (eventIdx : Nat) (oldVal : Int) :
    (contributionOf gate events clock before states now pin eventIdx oldVal ratio).booked =
        (contributionOf gate events clock before' states' now pin eventIdx oldVal ratio').booked ↔
      (∀ other, if pin.val < gate.nInputPin then states other = states' other else before other = before' other) ∧
        max 0 ratio = max 0 ratio' := by
  constructor
  · intro same
    refine ⟨fun other => ?_, congrArg Contribution.glitchScalingRatio same⟩
    have seen := congrFun (congrArg Contribution.pinStates same) other
    by_cases input : pin.val < gate.nInputPin
    · simpa [contributionOf,Contribution.booked,input] using seen
    · simpa [contributionOf,Contribution.booked,input] using seen
  · rintro ⟨seen, ratios⟩
    by_cases input : pin.val < gate.nInputPin
    · simp only [input,if_true] at seen
      obtain rfl : states = states' := funext seen
      simp only [contributionOf,Contribution.booked,input,if_true,ratios]
    · simp only [input,if_false] at seen
      obtain rfl : before = before' := funext seen
      simp only [contributionOf,Contribution.booked,input,if_false,ratios]

theorem glitchRatio_iff (loaded : Loaded gate events clock interval) (waveform : gate.pinWaveforms pin = some range)
    (first : range.start < k) (inside : k < range.stop) :
    max 0 (glitchRatioAt gate events clock pin k) =
        max 0 (getGlitchScalingRatioClockCycle_EventCentric gate events clock k pin) ↔
      (gate.pinIsClocks pin = false → PlaceAgrees events clock range gate pin k) := by
  have sorted := (loaded pin range waveform).sorted
  rw [getGlitchScalingRatio_eventCentric gate clock sorted waveform (Nat.le_of_lt first) inside]
  cases isClock : gate.pinIsClocks pin with
  | true => simp [glitchRatioAt,isClock]
  | false =>
    simp only [glitchRatioAt,isClock,waveform,Bool.false_eq_true,if_false,true_implies]
    exact (placeAgrees_iff gate pin sorted inside).symm

/-- A record of the fused kernel in its round; both kernels compare it with the record before it on its pin. -/
theorem recordsBetween_round (loaded : Loaded gate events clock interval)
    (mem : record ∈ recordsBetween gate events clock start stop) :
    ∃ now pos range turn, start ≤ now ∧ now < stop ∧ (events record.eventIdx).time = now ∧
      (∀ pin, pos pin = firstEventIdxes gate events now pin + min turn (sameTimeCount gate events now pin)) ∧
      turn < sameTimeCount gate events now record.pin ∧
        record.eventIdx = firstEventIdxes gate events now record.pin + turn ∧
      gate.pinWaveforms record.pin = some range ∧ range.start < record.eventIdx ∧ record.eventIdx < range.stop ∧
      record = recordAt gate events clock (statesAt gate events pos)
        (statesBefore events pos (statesAt gate events pos)
          (triggeredPins events (pinEventIdxes gate events stop) pos now) record.pin) now record.pin record.eventIdx ∧
      statesBefore events pos (statesAt gate events pos)
        (triggeredPins events (pinEventIdxes gate events stop) pos now) record.pin record.pin =
          (events (record.eventIdx - 1)).val ∧
      (statesSeen gate events now record.eventIdx record.pin).2 = (events (record.eventIdx - 1)).val := by
  obtain ⟨⟨now, pos⟩, memEntry, memRecord⟩ := List.mem_flatMap.mp mem
  obtain ⟨early, late, turn, here⟩ := positions_of_round loaded memEntry
  rw [roundProcessed_eq_map] at memRecord
  obtain ⟨pin, memPin, rfl⟩ := List.mem_map.mp memRecord
  dsimp only at early late here memPin ⊢
  have due := mem_triggeredPins.mp memPin
  have hit := (due_iff_round loaded early (here pin)).mp due
  obtain ⟨more, time⟩ := Frontier.due_iff.mp due
  have low : firstEventIdxes gate events now pin ≤ pos pin := by rw [here pin]; omega
  obtain ⟨range, waveform, first, inside, -⟩ := pending_record loaded low more
  have place : pos pin = firstEventIdxes gate events now pin + turn := by rw [here pin]; omega
  have own : stateAfter gate events now pin turn = (events (pos pin - 1)).val := by
    simp only [stateAfter,statesAt,waveform,place]
  refine ⟨now, pos, range, turn, late, early, time, here, hit, place, waveform, first, inside, rfl, ?_, ?_⟩
  · simp only [recordAt]
    rw [statesBefore_eq loaded early here hit,if_neg (precedes_irrefl pin),← own]
    congr 1
    omega
  · simp only [recordAt]
    rw [statesSeen_eq loaded,← own]
    dsimp only
    congr 1
    omega

theorem recordsBetween_toggles (loaded : Loaded gate events clock interval)
    (mem : record ∈ recordsBetween gate events clock start stop) :
    (record.contribution.isSome ↔ togglesAt events record.eventIdx) ∧
      ((dynamicRecord gate events clock record.pin record.eventIdx).isSome ↔ togglesAt events record.eventIdx) := by
  obtain ⟨now, pos, range, turn, -, -, time, -, -, -, -, -, -, shape, running, found⟩ := recordsBetween_round loaded mem
  have fused := congrArg Processed.contribution shape
  clear shape
  rw [fused]
  simp only [recordAt,dynamicRecord,time,running,found,togglesAt]
  by_cases still : getNToggle (events (record.eventIdx - 1)).val (events record.eventIdx).val = 0
  · simp [still]
  · simp [still]

/-- A record of the fused kernel is booked as the thread of that record books it if and only if it does not toggle or is
the same to both kernels. -/
theorem recordsBetween_booked (loaded : Loaded gate events clock interval)
    (mem : record ∈ recordsBetween gate events clock start stop) : ∃ range, gate.pinWaveforms record.pin = some range ∧
      range.start < record.eventIdx ∧ record.eventIdx < range.stop ∧ start ≤ (events record.eventIdx).time ∧
      (record.contribution.map Contribution.booked =
          (dynamicRecord gate events clock record.pin record.eventIdx).map Contribution.booked ↔
        (togglesAt events record.eventIdx → RecordAgrees gate events clock record.pin range record.eventIdx)) := by
  obtain ⟨now, pos, range, turn, late, early, time, here, hit, place, waveform, first, inside, shape, ownRunning,
    ownFound⟩ :=
    recordsBetween_round loaded mem
  refine ⟨range, waveform, first, inside, by omega, ?_⟩
  have running := statesBefore_eq loaded early here hit
  have before : ∀ other, statesAt gate events pos other =
      stateAfter gate events now other (min turn (sameTimeCount gate events now other)) := fun other => by
    simp only [stateAfter,statesAt,here other]
  have spot : sameTimePlace gate events record.pin record.eventIdx = turn := by
    rw [sameTimePlace,time]
    omega
  have fused := congrArg Processed.contribution shape
  rw [fused]
  simp only [recordAt,dynamicRecord,time,ownRunning,ownFound]
  by_cases toggles : getNToggle (events (record.eventIdx - 1)).val (events record.eventIdx).val = 0
  · have still : ¬ togglesAt events record.eventIdx := not_not.mpr toggles
    simp only [toggles,if_true,Option.map_none,still,false_implies]
  · have moves : togglesAt events record.eventIdx := toggles
    rw [if_neg toggles,if_neg toggles,Option.map_some,Option.map_some,Option.some.injEq,contributionOf_booked_iff,
      glitchRatio_iff loaded waveform first inside]
    simp only [moves,true_implies,RecordAgrees,StatesAgree,recordsTakenBefore,recordsFoundBefore,spot,time]
    simp only [running,before,statesSeen_eq loaded]

end Agree

section Flattened
variable {gate : Gate n} {events : Nat → Event} {clock : Clock} {interval : Periods}

def pinRecords (gate : Gate n) (pins : List (Fin n)) : List (Fin n × Nat) :=
  pins.flatMap fun pin => match gate.pinWaveforms pin with
    | none => []
    | some range => (List.range' range.start (range.stop - range.start)).map fun k => (pin, k)

theorem mapFlattened_eq (pins : List (Fin n)) (linear : Nat) :
    mapFlattenedEventToPinAndEventIdx gate pins linear = (pinRecords gate pins)[linear]? := by
  induction pins generalizing linear with
  | nil => rfl
  | cons pin rest ih =>
    simp only [mapFlattenedEventToPinAndEventIdx,pinRecords,List.flatMap_cons]
    cases waveform : gate.pinWaveforms pin with
    | none => exact ih linear
    | some range =>
      simp only [List.getElem?_append,List.length_map,List.length_range']
      by_cases here : linear < range.stop - range.start
      · simp [here]
      · rw [if_neg here,if_neg here]
        exact ih _

theorem waveformSize_eq : waveformSize gate = (pinRecords gate (List.finRange n)).length := by
  rw [waveformSize,pinRecords,List.length_flatMap]
  congr 1
  apply List.map_congr_left
  intro pin _
  cases gate.pinWaveforms pin with
  | none => rfl
  | some range => simp

theorem filterMap_range_getElem? (l : List α) (f : α → Option β) :
    (List.range l.length).filterMap (fun i => l[i]?.bind f) = l.filterMap f := by
  induction l with
  | nil => rfl
  | cons x rest ih =>
    rw [List.length_cons,List.range_succ_eq_map,List.filterMap_cons,List.filterMap_map,List.filterMap_cons]
    have tail : ((fun i => (x :: rest)[i]?.bind f) ∘ Nat.succ) = fun i => rest[i]?.bind f := by
      funext i
      simp
    rw [tail,ih]
    simp

/-- Whether the thread of a record does not return early. -/
def isSimulated (gate : Gate n) (events : Nat → Event) (clock : Clock) (interval : Periods) (record : Fin n × Nat) :
    Bool :=
  (gate.pinWaveforms record.1).all (fun range => range.start ≠ record.2) &&
    (interval.startTime clock ≤ (events record.2).time &&
      (events record.2).time < interval.stop * clock.vcdTimeUnitPerCycle + 1)

theorem isSimulated_iff : isSimulated gate events clock interval (pin, k) = true ↔
    ¬ ((gate.pinWaveforms pin).any fun range => range.start = k) = true ∧
    ¬ ((events k).time < interval.startTime clock ∨
    interval.stop * clock.vcdTimeUnitPerCycle + 1 ≤ (events k).time) := by
  simp only [isSimulated,Bool.and_eq_true,decide_eq_true_eq]
  refine and_congr ?_ ⟨fun h => by omega, fun h => by omega⟩
  cases gate.pinWaveforms pin with
  | none => simp
  | some range => simp

theorem runDynamic_eq : runDynamic gate events clock interval =
    ((pinRecords gate (List.finRange n)).filter (isSimulated gate events clock interval)).filterMap fun record =>
      dynamicRecord gate events clock record.1 record.2 := by
  have thread : kernel1_1 gate events clock interval = fun t =>
    (pinRecords gate (List.finRange n))[t]?.bind fun record =>
      if isSimulated gate events clock interval record then dynamicRecord gate events clock record.1 record.2
        else none := by
    funext t
    rw [kernel1_1,mapFlattened_eq]
    cases (pinRecords gate (List.finRange n))[t]? with
    | none => rfl
    | some record =>
      obtain ⟨pin, k⟩ := record
      simp only [Option.bind_some]
      by_cases simulated : isSimulated gate events clock interval (pin, k) = true
      · obtain ⟨later, inside⟩ := isSimulated_iff.mp simulated
        rw [if_neg later,if_neg inside,if_pos simulated]
      · rw [if_neg simulated]
        by_cases initial : ((gate.pinWaveforms pin).any fun range => range.start = k) = true
        · rw [if_pos initial]
        · rw [if_neg initial,if_pos (by_contra fun inside => simulated (isSimulated_iff.mpr ⟨initial, inside⟩))]
  rw [runDynamic,waveformSize_eq,thread,filterMap_range_getElem?,List.filterMap_filter]

theorem mem_pinRecords : (pin, k) ∈ pinRecords gate (List.finRange n) ↔
    ∃ range, gate.pinWaveforms pin = some range ∧ range.start ≤ k ∧ k < range.stop := by
  simp only [pinRecords,List.mem_flatMap]
  constructor
  · rintro ⟨other, -, mem⟩
    cases waveform : gate.pinWaveforms other with
    | none => simp [waveform] at mem
    | some range =>
      simp only [waveform,List.mem_map,List.mem_range'_1,Prod.mk.injEq] at mem
      obtain ⟨k, inside, rfl, rfl⟩ := mem
      exact ⟨range, waveform, inside.1, by omega⟩
  · rintro ⟨range, waveform, low, high⟩
    refine ⟨pin, List.mem_finRange pin, ?_⟩
    simp only [waveform,List.mem_map,List.mem_range'_1]
    exact ⟨k, ⟨low, by omega⟩, rfl⟩

theorem pinRecords_nodup : (pinRecords gate (List.finRange n)).Nodup := by
  refine List.nodup_flatMap.mpr ⟨fun pin _ => ?_, (List.nodup_finRange n).imp fun {pin other} differ => ?_⟩
  · cases gate.pinWaveforms pin with
    | none => exact List.nodup_nil
    | some range => exact List.Nodup.map (fun _ _ same => (Prod.mk.inj same).2) List.nodup_range'
  · have own : ∀ (p : Fin n) (record : Fin n × Nat), record ∈ (match gate.pinWaveforms p with
        | none => []
        | some range => (List.range' range.start (range.stop - range.start)).map fun k => (p, k)) → record.1 = p := by
      intro p record mem
      cases waveform : gate.pinWaveforms p with
      | none => simp [waveform] at mem
      | some range =>
        rw [waveform] at mem
        obtain ⟨k, -, rfl⟩ := List.mem_map.mp mem
        rfl
    exact fun record mem mem' => differ ((own pin record mem).symm.trans (own other record mem'))

/-- The threads that do not return early stand for the records the fused kernel takes. -/
theorem simulated_perm (loaded : Loaded gate events clock interval) :
    ((pinRecords gate (List.finRange n)).filter (isSimulated gate events clock interval)).Perm
      ((recordsBetween gate events clock (interval.startTime clock) (interval.endTime interval clock)).map
        Processed.key) := by
  refine List.Perm.trans ?_ (recordsBetween_keys _ _).symm
  refine (List.perm_ext_iff_of_nodup (pinRecords_nodup.filter _)
    (Frontier.visits_nodup (List.nodup_finRange n))).mpr fun ⟨pin, k⟩ => ?_
  rw [List.mem_filter,mem_pinRecords,Frontier.mem_visits (List.mem_finRange pin)]
  simp only [isSimulated,Bool.and_eq_true,decide_eq_true_eq]
  constructor
  · rintro ⟨⟨range, waveform, low, high⟩, initial, late, early⟩
    simp only [waveform,Option.all_some,decide_eq_true_eq] at initial
    constructor
    · have := (lt_pinEventIdxes_iff loaded (interval.startTime clock) waveform low high).not.mpr (by omega)
      simp only [firstEventIdxes,waveform]
      omega
    · refine (lt_pinEventIdxes_iff loaded _ waveform low high).mpr ?_
      simpa [Periods.endTime] using early
  · rintro ⟨low, high⟩
    obtain ⟨range, waveform, first, inside, late, early⟩ := pending_record loaded low high
    refine ⟨⟨range, waveform, Nat.le_of_lt first, inside⟩, ?_, late, by simpa [Periods.endTime] using early⟩
    simp only [waveform,Option.all_some,decide_eq_true_eq]
    omega

/-- Every toggle of an interval is booked in the same way if and only if it is the same to both kernels. -/
theorem recordsBetween_iff (loaded : Loaded gate events clock interval) :
    (∀ record ∈ recordsBetween gate events clock (interval.startTime clock) (interval.endTime interval clock),
      record.contribution.map Contribution.booked =
        (dynamicRecord gate events clock record.pin record.eventIdx).map Contribution.booked) ↔
      Separable gate events clock interval := by
  constructor
  · intro booked pin range waveform k inside first late toggles
    have valid := loaded pin range waveform
    have early : (events k).time < interval.endTime interval clock := by
      have := valid.inside k (Nat.le_of_lt first) inside
      simp only [Periods.endTime,if_true]
      omega
    have once := recordsBetween_count loaded waveform first inside late early
    obtain ⟨record, mem, key⟩ := List.mem_map.mp (List.count_pos_iff.mp (Nat.lt_of_lt_of_eq Nat.zero_lt_one once.symm))
    obtain ⟨rfl, rfl⟩ := Prod.mk.inj key
    obtain ⟨range', waveform', -, -, -, agrees⟩ := recordsBetween_booked loaded mem
    obtain rfl : range' = range := Option.some.inj (waveform'.symm.trans waveform)
    exact agrees.mp (booked record mem) toggles
  · intro separable record mem
    obtain ⟨range, waveform, first, inside, late, agrees⟩ := recordsBetween_booked loaded mem
    exact agrees.mpr fun toggles => separable record.pin range waveform record.eventIdx inside first late toggles

/-- The threads of the records book what the fused kernel books. -/
theorem runDynamic_perm (loaded : Loaded gate events clock interval)
    (separable : Separable gate events clock interval) :
    ((runDynamic gate events clock interval).map Contribution.booked).Perm
      (((recordsBetween gate events clock (interval.startTime clock) (interval.endTime interval clock)).filterMap
        (·.contribution)).map Contribution.booked) := by
  have contributed : ((recordsBetween gate events clock (interval.startTime clock)
    (interval.endTime interval clock)).filterMap
      (·.contribution)).map Contribution.booked = ((recordsBetween gate events clock (interval.startTime clock)
        (interval.endTime interval clock)).map Processed.key).filterMap fun record =>
          (dynamicRecord gate events clock record.1 record.2).map Contribution.booked := by
    rw [List.map_filterMap,List.filterMap_map]
    exact List.filterMap_congr ((recordsBetween_iff loaded).mpr separable)
  rw [runDynamic_eq,List.map_filterMap,contributed]
  exact (simulated_perm loaded).filterMap _

end Flattened

section Results
variable (gate : Gate n) (events : Nat → Event) (clock : Clock) (interval : Periods)

def fusedPowers : Option PowerResult :=
  (runCycleBasis gate events clock interval).map (threadPowers clock)

def separatePowers : Option PowerResult :=
  (runLeakage gate events clock interval).map fun windows =>
    dynamicPowers clock (runDynamic gate events clock interval) + leakagePowers clock windows.flatten

variable {gate events clock interval}

theorem runLeakage_eq (loaded : Loaded gate events clock interval) : runLeakage gate events clock interval =
    some ((List.range (cycleThreadCount gate interval)).map fun thread =>
      threadWindows gate events clock interval (cyclePeriods gate interval thread)) := by
  have run : (fun thread => kernel1_2 gate events clock interval (cyclePeriods gate interval thread)) =
      fun thread => some (threadWindows gate events clock interval (cyclePeriods gate interval thread)) :=
    funext fun thread => kernel1_2_eq loaded _
  rw [runLeakage,run]
  exact List.mapM_pure

/-- Every toggle is booked in the same way by both kernels if and only if both see it in the same states and its places
lead to one ratio. Where all toggles of the interval are, the separate kernels give the results of the fused kernel,
whatever number of cycles a thread takes. -/
theorem separate_agrees (loaded : Loaded gate events clock interval) (order : interval.start < interval.stop)
    (positive : 0 < gate.nCyclePerThread) :
    ((∀ record ∈ recordsBetween gate events clock (interval.startTime clock) (interval.endTime interval clock),
      record.contribution.map Contribution.booked =
        (dynamicRecord gate events clock record.pin record.eventIdx).map Contribution.booked) ↔
      Separable gate events clock interval) ∧
    (Separable gate events clock interval → ∃ powers, fusedPowers gate events clock interval = some powers ∧
      separatePowers gate events clock interval = some powers) := by
  refine ⟨recordsBetween_iff loaded, fun separable => ⟨_, by rw [fusedPowers,runCycleBasis_eq loaded]; rfl, ?_⟩⟩
  rw [separatePowers,runLeakage_eq loaded]
  simp only [Option.map_some,Option.some.injEq,threadPowers,List.flatMap_map,List.flatten_eq_flatMap]
  have join := congrArg (List.filterMap (·.contribution)) (cycleRecords_join loaded order positive)
  simp only [List.filterMap_flatMap,threadRecords,Nat.ne_of_lt order,if_false] at join
  have perm := runDynamic_perm loaded separable
  rw [← join] at perm
  have dynamic := (perm.map (Contribution.powers clock)).sum_eq
  change dynamicPowers clock _ = dynamicPowers clock _ at dynamic
  rw [dynamicPowers_booked,dynamicPowers_booked] at dynamic
  rw [dynamic]
  rfl

/-- An input and an output pin that first toggle in the second cycle. -/
def secondCycleEvents (eventIdx : Nat) : Event :=
  [⟨0, 0⟩, ⟨12, 1⟩, ⟨25, 0⟩, ⟨0, 0⟩, ⟨13, 1⟩, ⟨16, 0⟩].getD eventIdx ⟨0, 0⟩

theorem separate_agrees_secondCycle : ∃ powers,
    fusedPowers twoCycleGate secondCycleEvents (tenTickClock 30) ⟨0, 3⟩ = some powers ∧
      separatePowers twoCycleGate secondCycleEvents (tenTickClock 30) ⟨0, 3⟩ = some powers :=
  (separate_agrees (by decide +kernel) (by decide) (by decide)).2 (by decide +kernel)

/-- An output pin that toggles once, in the cycle of its first record. -/
def firstCycleEvents (eventIdx : Nat) : Event := [⟨0, 0⟩, ⟨5, 1⟩].getD eventIdx ⟨0, 0⟩

def firstCycleGate : Gate 1 := Gate.bare 0 fun _ => some ⟨0, 2⟩

/-- The first record counts for the separate kernel: the toggle becomes the second of its cycle, a glitch. -/
theorem separate_disagrees : Loaded firstCycleGate firstCycleEvents (tenTickClock 20) ⟨0, 1⟩ ∧
    0 < firstCycleGate.nCyclePerThread ∧
    (fusedPowers firstCycleGate firstCycleEvents (tenTickClock 20) ⟨0, 1⟩).map (fun powers => powers .switching none) ≠
      (separatePowers firstCycleGate firstCycleEvents (tenTickClock 20) ⟨0, 1⟩).map fun powers =>
        powers .switching none := by
  decide +kernel

end Results
end GTPower
