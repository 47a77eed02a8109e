import GTPower.IntBisect
import GTPower.Scheduling
import GTPower.SeparateAgree

/-! The waveform pointers of the pins as the kernels read them: two indices into the event buffer, both -1 for a
pin without waveform. Counts over the pins of a gate use the pointers as they are, the thread of a record skips
the pins whose pointers are invalid. -/
namespace GTPower.Pointers

def invalidWaveformPtr : Int := -1

/-- The pointers of a pin, as `renewWaveformPointers` gets them from the loader. -/
structure PinPointers where
  start : Int
  stop : Int
  valid : start = invalidWaveformPtr ∧ stop = invalidWaveformPtr ∨ 0 ≤ start ∧ start ≤ stop
  deriving DecidableEq

namespace PinPointers

/-- Entry of `pin_waveform_sizes`. -/
def size (pin : PinPointers) : Int := pin.stop - pin.start

def noWaveform : PinPointers := ⟨invalidWaveformPtr, invalidWaveformPtr, Or.inl ⟨rfl, rfl⟩⟩

/-- A pin of the model without pointers: no range for invalid pointers. -/
def Points (pin : PinPointers) : Option WaveformRange → Prop
  | none => pin.start = invalidWaveformPtr ∧ pin.stop = invalidWaveformPtr
  | some range => pin.start = range.start ∧ pin.stop = range.stop

theorem order (pin : PinPointers) : pin.start ≤ pin.stop := by
  rcases pin.valid with ⟨first, last⟩ | ⟨-, order⟩
  · rw [first,last]
  · exact order

theorem size_nonneg (pin : PinPointers) : 0 ≤ pin.size := Int.sub_nonneg.mpr pin.order

/-- The guard of the kernel holds for pins without waveform only, and these have no records. -/
theorem size_of_invalid (pin : PinPointers) (invalid : pin.start = invalidWaveformPtr ∨ pin.stop = invalidWaveformPtr) :
    pin.size = 0 := by
  rw [size]
  rcases pin.valid with ⟨first, last⟩ | ⟨low, order⟩
  · rw [first,last,sub_self]
  · simp only [invalidWaveformPtr] at invalid
    omega

end PinPointers

section Counts
variable (pins : List PinPointers) (events : Nat → Event) (clock : Clock)

def getEventIdxByTime (startPos endPos time : Int) (containsEqual : Bool) : Int :=
  Bisect.lowerBoundInt (fun mid => ((events mid.toNat).time : Int) < time ||
    containsEqual && ((events mid.toNat).time : Int) ≤ time) startPos endPos

def getAccuEventCountOfGateByPeriodIdx (periodIdx : Int) : Int :=
  (pins.map fun pin =>
    getEventIdxByTime events pin.start pin.stop (periodIdx * clock.vcdTimeUnitPerCycle) false - pin.start).sum

def getCycleIndexByAccuEventCount (accuEventCount minPeriodIdx maxPeriodIdx : Int) : Int :=
  Bisect.lowerBoundInt (fun mid => getAccuEventCountOfGateByPeriodIdx pins events clock mid < accuEventCount)
    minPeriodIdx maxPeriodIdx

/-- The records of a pin with a time before the given one. -/
noncomputable def recordsBefore (time : Int) (pin : PinPointers) : Finset Int :=
  (Finset.Ico pin.start pin.stop).filter fun idx => ((events idx.toNat).time : Int) < time

/-- Nondecreasing times over the range of a pin. -/
def SortedRange (pin : PinPointers) : Prop :=
  ∀ i j, pin.start ≤ i → i ≤ j → j < pin.stop → (events i.toNat).time ≤ (events j.toNat).time

end Counts

section CountLemmas
variable {pins : List PinPointers} {events : Nat → Event} {pin : PinPointers}

/-- Times that do not fall from one record of the range to the next are sorted. -/
theorem SortedRange.of_steps (steps : ∀ k < pin.size.toNat - 1,
    (events (pin.start.toNat + k)).time ≤ (events (pin.start.toNat + k + 1)).time) : SortedRange events pin := by
  intro i j low order high
  have natural : 0 ≤ pin.start := by
    rcases pin.valid with ⟨first, last⟩ | ⟨natural, -⟩
    · rw [first] at low
      rw [last] at high
      omega
    · exact natural
  induction j, order using Int.leInduction with
  | base => exact Nat.le_refl _
  | succ j less ih =>
    have step := steps (j - pin.start).toNat (by simp only [PinPointers.size]; omega)
    have here : pin.start.toNat + (j - pin.start).toNat = j.toNat := by omega
    have next : j.toNat + 1 = (j + 1).toNat := by omega
    rw [here,next] at step
    exact Nat.le_trans (ih (by omega)) step

theorem SortedRange.partitioned (sorted : SortedRange events pin) (time : Int) : Bisect.PartitionedInt
    (fun mid => ((events mid.toNat).time : Int) < time || false && ((events mid.toNat).time : Int) ≤ time)
    pin.start pin.stop := by
  intro i j low less high before
  have := sorted i j low less high
  simp only [Bool.false_and,Bool.or_false,decide_eq_true_eq] at before ⊢
  omega

/-- What the search over a pin leaves behind it are its records before the time. -/
theorem recordsBefore_eq (sorted : SortedRange events pin) (time : Int) :
    recordsBefore events time pin = Finset.Ico pin.start (getEventIdxByTime events pin.start pin.stop time false) := by
  have last := Bisect.lowerBoundInt_le (sorted.partitioned time) pin.order
  ext idx
  simp only [recordsBefore,Finset.mem_filter,Finset.mem_Ico]
  constructor
  · rintro ⟨⟨low, high⟩, before⟩
    refine ⟨low, (Bisect.lt_lowerBoundInt_iff (sorted.partitioned time) low high).mpr ?_⟩
    simpa using before
  · rintro ⟨low, found⟩
    have high : idx < pin.stop := Int.lt_of_lt_of_le found last
    have before := (Bisect.lt_lowerBoundInt_iff (sorted.partitioned time) low high).mp found
    exact ⟨⟨low, high⟩, by simpa using before⟩

theorem getEventIdxByTime_sub (sorted : SortedRange events pin) (time : Int) :
    getEventIdxByTime events pin.start pin.stop time false - pin.start = (recordsBefore events time pin).card := by
  have first : pin.start ≤ getEventIdxByTime events pin.start pin.stop time false := Bisect.le_lowerBoundInt pin.order
  rw [recordsBefore_eq sorted,Int.card_Ico]
  omega

theorem card_recordsBefore_mono (pin : PinPointers) (later : time ≤ time') :
    (recordsBefore events time pin).card ≤ (recordsBefore events time' pin).card := by
  apply Finset.card_le_card
  apply Finset.monotone_filter_right
  intro idx _ before
  exact Int.lt_of_lt_of_le before later

theorem getAccuEventCount_eq (clock : Clock) (sorted : ∀ pin ∈ pins, SortedRange events pin) (periodIdx : Int) :
    getAccuEventCountOfGateByPeriodIdx pins events clock periodIdx =
      (pins.map fun pin => ((recordsBefore events (periodIdx * clock.vcdTimeUnitPerCycle) pin).card : Int)).sum :=
  congrArg List.sum (List.map_congr_left fun pin mem => getEventIdxByTime_sub (sorted pin mem) _)

theorem getAccuEventCount_monotone (clock : Clock) (sorted : ∀ pin ∈ pins, SortedRange events pin) :
    Monotone (getAccuEventCountOfGateByPeriodIdx pins events clock) := by
  intro a b later
  rw [getAccuEventCount_eq clock sorted,getAccuEventCount_eq clock sorted]
  apply List.sum_le_sum
  intro pin _
  have times : a * clock.vcdTimeUnitPerCycle ≤ b * clock.vcdTimeUnitPerCycle :=
    Int.mul_le_mul_of_nonneg_right later (Int.natCast_nonneg _)
  exact_mod_cast card_recordsBefore_mono pin times

/-- The count before a cycle never falls from one cycle to a later one and is the number of records before it; the
search ends at the least cycle of the closed range whose count reaches the target, or at its end. -/
theorem accuEventCount_search (clock : Clock) (sorted : ∀ pin ∈ pins, SortedRange events pin) :
    Monotone (getAccuEventCountOfGateByPeriodIdx pins events clock) ∧
    (∀ periodIdx, getAccuEventCountOfGateByPeriodIdx pins events clock periodIdx =
      (pins.map fun pin => ((recordsBefore events (periodIdx * clock.vcdTimeUnitPerCycle) pin).card : Int)).sum) ∧
    ∀ accuEventCount minPeriodIdx maxPeriodIdx,
      (∀ period, minPeriodIdx ≤ period → period ≤ maxPeriodIdx →
        accuEventCount ≤ getAccuEventCountOfGateByPeriodIdx pins events clock period →
        IsLeast {period | minPeriodIdx ≤ period ∧ period ≤ maxPeriodIdx ∧
            accuEventCount ≤ getAccuEventCountOfGateByPeriodIdx pins events clock period}
          (getCycleIndexByAccuEventCount pins events clock accuEventCount minPeriodIdx maxPeriodIdx)) ∧
      ((∀ period, minPeriodIdx ≤ period → period ≤ maxPeriodIdx →
        getAccuEventCountOfGateByPeriodIdx pins events clock period < accuEventCount) →
        getCycleIndexByAccuEventCount pins events clock accuEventCount minPeriodIdx maxPeriodIdx = maxPeriodIdx) := by
  have mono := getAccuEventCount_monotone clock sorted
  refine ⟨mono, getAccuEventCount_eq clock sorted, fun accuEventCount minPeriodIdx maxPeriodIdx => ?_⟩
  exact Bisect.lowerBoundInt_least mono accuEventCount minPeriodIdx maxPeriodIdx

/-- A pin without waveform between two pins of three records. -/
def threePins : List PinPointers := [⟨0, 3, by decide⟩, PinPointers.noWaveform, ⟨3, 6, by decide⟩]

/-- Four of the six records lie before the second cycle, all before the third. -/
theorem accuEventCount_search_threePins :
    Monotone (getAccuEventCountOfGateByPeriodIdx threePins twoCycleEvents (tenTickClock 20)) ∧
    IsLeast {period | 0 ≤ period ∧ period ≤ 3 ∧
      5 ≤ getAccuEventCountOfGateByPeriodIdx threePins twoCycleEvents (tenTickClock 20) period} 2 ∧
    getCycleIndexByAccuEventCount threePins twoCycleEvents (tenTickClock 20) 7 0 3 = 3 := by
  have sorted : ∀ pin ∈ threePins, SortedRange twoCycleEvents pin := by
    intro pin mem
    apply SortedRange.of_steps
    revert pin
    decide +kernel
  obtain ⟨mono, -, search⟩ := accuEventCount_search (tenTickClock 20) sorted
  have found : getCycleIndexByAccuEventCount threePins twoCycleEvents (tenTickClock 20) 5 0 3 = 2 := by decide +kernel
  have last : getAccuEventCountOfGateByPeriodIdx threePins twoCycleEvents (tenTickClock 20) 3 = 6 := by decide +kernel
  refine ⟨mono, ?_, (search 7 0 3).2 fun period _ high => ?_⟩
  · have least := (search 5 0 3).1 3 (by decide) (by decide) (by rw [last]; decide)
    rwa [found] at least
  · have bound := mono high
    omega

end CountLemmas

section Refines
variable {gate : Gate n} {pin : PinPointers} {pins : List PinPointers} {events : Nat → Event} {clock : Clock}
  {interval : Periods}

/-- Records of a range before a time, as the model without pointers counts them. -/
def rangeCount (events : Nat → Event) (time : Nat) : Option WaveformRange → Nat
  | none => 0
  | some range => GTPower.getEventIdxByTime events range.start range.stop time false - range.start

theorem getEventIdxByTime_points (points : pin.Points waveform)
    (valid : ∀ range, waveform = some range → RangeLoaded events clock interval range) (time : Nat) :
    getEventIdxByTime events pin.start pin.stop time false - pin.start = rangeCount events time waveform := by
  cases waveform with
  | none =>
    have empty : getEventIdxByTime events pin.start pin.stop time false = pin.stop :=
      Bisect.lowerBoundInt_of_le (by rw [points.1,points.2])
    rw [empty,points.1,points.2]
    rfl
  | some range =>
    have loaded := valid range rfl
    have found : getEventIdxByTime events range.start range.stop time false =
        GTPower.getEventIdxByTime events range.start range.stop time false := by
      rw [getEventIdxByTime,Bisect.lowerBoundInt_natCast]
      norm_cast
    have low : range.start ≤ GTPower.getEventIdxByTime events range.start range.stop time false :=
      GTPower.le_getEventIdxByTime loaded.sorted (Nat.le_of_lt loaded.nonempty)
    rw [points.1,points.2,found,rangeCount,Nat.cast_sub low]

theorem sum_points (points : List.Forall₂ PinPointers.Points pins waveforms)
    (valid : ∀ range, some range ∈ waveforms → RangeLoaded events clock interval range) (time : Nat) :
    (pins.map fun pin => getEventIdxByTime events pin.start pin.stop time false - pin.start).sum =
      ((waveforms.map (rangeCount events time)).sum : Nat) := by
  induction points with
  | nil => rfl
  | cons first _ ih =>
    rw [List.map_cons,List.sum_cons,ih fun range mem => valid range (List.mem_cons_of_mem _ mem),List.map_cons,
      List.sum_cons,Nat.cast_add]
    congr 1
    apply getEventIdxByTime_points first
    rintro range rfl
    exact valid range (List.mem_cons_self ..)

/-- The counts of the model without pointers are those read through the pointers. -/
theorem getAccuEventCount_refines
    (points : List.Forall₂ PinPointers.Points pins ((List.finRange n).map gate.pinWaveforms))
    (loaded : Loaded gate events clock interval) (periodIdx : Nat) :
    getAccuEventCountOfGateByPeriodIdx pins events clock periodIdx =
      (GTPower.getAccuEventCountOfGateByPeriodIdx gate events clock periodIdx : Nat) := by
  have valid : ∀ range, some range ∈ (List.finRange n).map gate.pinWaveforms →
    RangeLoaded events clock interval range := by
    intro range mem
    obtain ⟨pin, -, waveform⟩ := List.mem_map.mp mem
    exact loaded pin range waveform
  have counted := sum_points points valid (periodIdx * clock.vcdTimeUnitPerCycle)
  rw [List.map_map] at counted
  rw [getAccuEventCountOfGateByPeriodIdx,← Nat.cast_mul]
  exact counted

end Refines

section Flattened
variable (linear : Int)

/-- The loop over the pins, with the index of the next pin and the number of records of those before it. -/
def mapFlattenedFrom : List PinPointers → Nat → Int → Option (Nat × Int)
  | [], _, _ => none
  | pin :: rest, pinIdx, base =>
    if pin.start = invalidWaveformPtr ∨ pin.stop = invalidWaveformPtr then mapFlattenedFrom rest (pinIdx + 1) base
    else
      let len := pin.stop - pin.start
      if linear < base + len then some (pinIdx, pin.start + (linear - base))
      else mapFlattenedFrom rest (pinIdx + 1) (base + len)

/-- The pin and the event index of a flattened index; `none` where the source returns false. -/
def mapFlattenedEventToPinAndEventIdx (pins : List PinPointers) : Option (Nat × Int) := mapFlattenedFrom linear pins 0 0

/-- The sum of `pin_waveform_sizes`, from which the host gets the number of threads. -/
def totalRecords (pins : List PinPointers) : Int := (pins.map PinPointers.size).sum

/-- The pins of a gate with the event indices in their ranges. -/
def records (pins : List PinPointers) : Set (Nat × Int) :=
  {record | ∃ pin, pins[record.1]? = some pin ∧ pin.start ≤ record.2 ∧ record.2 < pin.stop}

/-- The records in the order of their flattened indices, from a pin on. -/
def recordsFrom : Nat → List PinPointers → List (Nat × Int)
  | _, [] => []
  | pinIdx, pin :: rest =>
    ((List.range pin.size.toNat).map fun k : Nat => (pinIdx, pin.start + (k : Int))) ++ recordsFrom (pinIdx + 1) rest

theorem mapFlattenedFrom_eq (pins : List PinPointers) (pinIdx : Nat) (base : Int) (reached : base ≤ linear) :
    mapFlattenedFrom linear pins pinIdx base = (recordsFrom pinIdx pins)[(linear - base).toNat]? := by
  induction pins generalizing pinIdx base with
  | nil => rfl
  | cons pin rest ih =>
    have count : ((List.range pin.size.toNat).map fun k : Nat => (pinIdx, pin.start + (k : Int))).length =
      pin.size.toNat := by
      rw [List.length_map,List.length_range]
    rw [mapFlattenedFrom,recordsFrom]
    split
    case isTrue invalid =>
      rw [pin.size_of_invalid invalid,ih _ _ reached]
      rfl
    case isFalse =>
      have size : pin.size = pin.stop - pin.start := rfl
      have order := pin.order
      dsimp only
      split
      case isTrue inside =>
        rw [List.getElem?_append_left (by omega),List.getElem?_map,List.getElem?_range (by omega)]
        have here : ((linear - base).toNat : Int) = linear - base := by omega
        rw [Option.map_some,here]
      case isFalse beyond =>
        rw [List.getElem?_append_right (by omega),count,ih _ _ (by omega)]
        have rest : (linear - (base + (pin.stop - pin.start))).toNat = (linear - base).toNat - pin.size.toNat := by
          omega
        rw [rest]

theorem mem_recordsFrom : record ∈ recordsFrom pinIdx pins ↔
    pinIdx ≤ record.1 ∧ (record.1 - pinIdx, record.2) ∈ records pins := by
  induction pins generalizing pinIdx with
  | nil => simp [recordsFrom,records]
  | cons pin rest ih =>
    rw [recordsFrom,List.mem_append,ih,List.mem_map]
    constructor
    · rintro (⟨k, inside, rfl⟩ | ⟨later, mem⟩)
      · have := List.mem_range.mp inside
        refine ⟨Nat.le_refl _, pin, ?_, ?_⟩
        · rw [Nat.sub_self]
          rfl
        · simp only [PinPointers.size] at this
          dsimp only
          omega
      · obtain ⟨other, found, range⟩ := mem
        refine ⟨Nat.le_of_succ_le later, other, ?_, range⟩
        have next : record.1 - pinIdx = record.1 - (pinIdx + 1) + 1 := by omega
        dsimp only at found ⊢
        rw [next,List.getElem?_cons_succ]
        exact found
    · rintro ⟨later, other, found, low, high⟩
      dsimp only at found low high
      rcases Nat.eq_or_lt_of_le later with here | after
      · left
        rw [← here,Nat.sub_self,List.getElem?_cons_zero] at found
        obtain rfl := Option.some.inj found
        refine ⟨(record.2 - pin.start).toNat, List.mem_range.mpr ?_, Prod.ext here ?_⟩
        · simp only [PinPointers.size]
          omega
        · dsimp only
          omega
      · right
        have next : record.1 - pinIdx = record.1 - (pinIdx + 1) + 1 := by omega
        rw [next,List.getElem?_cons_succ] at found
        exact ⟨after, other, found, low, high⟩

theorem mem_recordsFrom_zero : record ∈ recordsFrom 0 pins ↔ record ∈ records pins :=
  mem_recordsFrom.trans (and_iff_right (Nat.zero_le _))

theorem recordsFrom_nodup (pinIdx : Nat) (pins : List PinPointers) : (recordsFrom pinIdx pins).Nodup := by
  induction pins generalizing pinIdx with
  | nil => exact List.nodup_nil
  | cons pin rest ih =>
    rw [recordsFrom]
    refine List.nodup_append.mpr ⟨?_, ih _, ?_⟩
    · refine List.nodup_range.map fun k k' same => ?_
      have := (Prod.mk.inj same).2
      omega
    · rintro record mem other later rfl
      obtain ⟨k, -, rfl⟩ := List.mem_map.mp mem
      have after := (mem_recordsFrom.mp later).1
      dsimp only at after
      omega

theorem length_recordsFrom (pinIdx : Nat) (pins : List PinPointers) :
    ((recordsFrom pinIdx pins).length : Int) = totalRecords pins := by
  induction pins generalizing pinIdx with
  | nil => rfl
  | cons pin rest ih =>
    have positive := pin.size_nonneg
    rw [recordsFrom,List.length_append,List.length_map,List.length_range,Nat.cast_add,ih,totalRecords,totalRecords,
      List.map_cons,List.sum_cons]
    omega

theorem mapFlattened_eq {linear : Int} (pins : List PinPointers) (natural : 0 ≤ linear) :
    mapFlattenedEventToPinAndEventIdx linear pins = (recordsFrom 0 pins)[linear.toNat]? := by
  rw [mapFlattenedEventToPinAndEventIdx,mapFlattenedFrom_eq linear pins 0 0 natural,sub_zero]

theorem mapFlattened_of_le {linear : Int} (pins : List PinPointers) (beyond : totalRecords pins ≤ linear) :
    mapFlattenedEventToPinAndEventIdx linear pins = none := by
  have count := length_recordsFrom 0 pins
  rw [mapFlattened_eq pins (by omega)]
  exact List.getElem?_eq_none (by omega)

theorem mapFlattened_bijOn (pins : List PinPointers) :
    Set.BijOn (fun linear => mapFlattenedEventToPinAndEventIdx linear pins) (Set.Ico 0 (totalRecords pins))
      (some '' records pins) := by
  have count := length_recordsFrom 0 pins
  refine ⟨fun linear ⟨natural, inside⟩ => ?_, fun a ⟨natural, inside⟩ b ⟨natural', inside'⟩ same => ?_, ?_⟩
  · have bound : linear.toNat < (recordsFrom 0 pins).length := by omega
    dsimp only
    rw [mapFlattened_eq pins natural,List.getElem?_eq_getElem bound]
    exact ⟨_, mem_recordsFrom_zero.mp (List.getElem_mem bound), rfl⟩
  · dsimp only at same
    rw [mapFlattened_eq pins natural,mapFlattened_eq pins natural'] at same
    have := (List.getElem?_inj (by omega) (recordsFrom_nodup 0 pins)).mp same
    omega
  · rintro _ ⟨record, mem, rfl⟩
    obtain ⟨k, bound, found⟩ := List.getElem_of_mem (mem_recordsFrom_zero.mpr mem)
    refine ⟨k, ⟨Int.natCast_nonneg _, by omega⟩, ?_⟩
    dsimp only
    rw [mapFlattened_eq pins (Int.natCast_nonneg _),Int.toNat_natCast,List.getElem?_eq_getElem bound,found]

end Flattened

section FlattenedRefines
variable {gate : Gate n} {pins : List PinPointers}

theorem recordsFrom_points (all : List (Fin n)) (pins : List PinPointers) (pinIdx : Nat)
    (counted : all.map Fin.val = List.range' pinIdx all.length)
    (points : List.Forall₂ PinPointers.Points pins (all.map gate.pinWaveforms)) :
    recordsFrom pinIdx pins = (pinRecords gate all).map fun record => (record.1.val, (record.2 : Int)) := by
  induction all generalizing pins pinIdx with
  | nil =>
    obtain rfl := List.forall₂_nil_right_iff.mp points
    rfl
  | cons here rest ih =>
    obtain ⟨pin, others, first, later, rfl⟩ := List.forall₂_cons_right_iff.mp points
    rw [List.map_cons,List.length_cons,List.range'_succ] at counted
    obtain ⟨index, counted⟩ := List.cons.inj counted
    rw [recordsFrom,ih others (pinIdx + 1) counted later,pinRecords,pinRecords,List.flatMap_cons,List.map_append]
    congr 1
    cases waveform : gate.pinWaveforms here with
    | none =>
      rw [waveform] at first
      rw [PinPointers.size,first.1,first.2]
      rfl
    | some range =>
      rw [waveform] at first
      have size : pin.size.toNat = range.stop - range.start := by
        rw [PinPointers.size,first.1,first.2]
        omega
      rw [size,first.1]
      dsimp only
      rw [List.range'_eq_map_range,List.map_map,List.map_map,← index]
      apply List.map_congr_left
      intro k _
      simp

/-- The model without pointers maps a flattened index to the same record. -/
theorem mapFlattened_refines (points : List.Forall₂ PinPointers.Points pins ((List.finRange n).map gate.pinWaveforms))
    (linear : Nat) : mapFlattenedEventToPinAndEventIdx linear pins =
      (GTPower.mapFlattenedEventToPinAndEventIdx gate (List.finRange n) linear).map
        fun record => (record.1.val, (record.2 : Int)) := by
  have counted : (List.finRange n).map Fin.val = List.range' 0 (List.finRange n).length := by
    rw [List.length_finRange,← List.range_eq_range',List.map_coe_finRange_eq_range]
  rw [mapFlattened_eq pins (Int.natCast_nonneg _),GTPower.mapFlattened_eq,recordsFrom_points _ _ _ counted points,
    List.getElem?_map]
  rfl

end FlattenedRefines

section Launched
variable {nThreadPerBlock : Nat} {gates : List (List PinPointers)} {uninitialized : Nat → Nat}

def eventThreadCounts (gates : List (List PinPointers)) : List Nat :=
  gates.map fun pins => ceilDiv (totalRecords pins).toNat 1

/-- The gate and the record a launched thread of the dynamic kernel is bound to; `none` when it returns. -/
def boundRecord (table : LaunchTable) (nThreadPerBlock : Nat) (gates : List (List PinPointers)) (launch : Nat × Nat) :
    Option (Nat × Nat × Int) :=
  let curGateIdx := table.blockCorrGateIdxes launch.1
  (mapFlattenedEventToPinAndEventIdx (threadIdxInGate table nThreadPerBlock launch.1 launch.2)
    (gates.getD curGateIdx [])).map fun record => (curGateIdx, record)

theorem getD_eventThreadCounts (found : gates[g]? = some pins) :
    (((eventThreadCounts gates).getD g 0 : Nat) : Int) = totalRecords pins := by
  have positive : 0 ≤ totalRecords pins := by
    rw [← length_recordsFrom 0 pins]
    exact Int.natCast_nonneg _
  have one : ceilDiv (totalRecords pins).toNat 1 = (totalRecords pins).toNat := by
    simp [ceilDiv]
  rw [List.getD_eq_getElem?_getD,eventThreadCounts,List.getElem?_map,found,Option.map_some,Option.getD_some,one]
  exact Int.toNat_of_nonneg positive

/-- A launched thread is bound to a record exactly when it is a thread of the gate with that flattened index. -/
theorem boundRecord_eq_some_iff (launched : launch.1 < nBlock nThreadPerBlock (eventThreadCounts gates)) :
    boundRecord (launchTable nThreadPerBlock (eventThreadCounts gates) uninitialized) nThreadPerBlock gates launch =
        some (g, record) ↔
      ∃ pins t, gates[g]? = some pins ∧
        threadOfLaunch (launchTable nThreadPerBlock (eventThreadCounts gates) uninitialized) nThreadPerBlock
          launch.1 launch.2 =
          some (g, t) ∧ mapFlattenedEventToPinAndEventIdx t pins = some record := by
  obtain ⟨here, ⟨inside, low, high⟩, -⟩ := existsUnique_gate launched
  have table : (launchTable nThreadPerBlock (eventThreadCounts gates) uninitialized).blockCorrGateIdxes launch.1 =
    here :=
    blockCorrGateIdxes_eq uninitialized inside low high
  have bound : here < gates.length := by rwa [eventThreadCounts,List.length_map] at inside
  obtain ⟨pins, found⟩ : ∃ pins, gates[here]? = some pins := ⟨_, List.getElem?_eq_getElem bound⟩
  have threads := getD_eventThreadCounts found
  have thread : threadIdxInGate (launchTable nThreadPerBlock (eventThreadCounts gates) uninitialized) nThreadPerBlock
      launch.1 launch.2 = (launch.1 -
        (setAllPinsBlockThreadRange nThreadPerBlock (eventThreadCounts gates) here).startBlock) *
        nThreadPerBlock + launch.2 := by
    rw [threadIdxInGate,table]
    rfl
  have guard : threadOfLaunch (launchTable nThreadPerBlock (eventThreadCounts gates) uninitialized) nThreadPerBlock
      launch.1 launch.2 = _ := threadOfLaunch_eq inside low high launch.2
  rw [boundRecord,table,List.getD_eq_getElem?_getD,found,Option.getD_some,thread,guard]
  generalize (launch.1 - (setAllPinsBlockThreadRange nThreadPerBlock (eventThreadCounts gates) here).startBlock) *
    nThreadPerBlock + launch.2 = t
  constructor
  · intro bound
    obtain ⟨mapped, maps, same⟩ := Option.map_eq_some_iff.mp bound
    obtain ⟨rfl, rfl⟩ := Prod.mk.inj same
    have less : (t : Int) < totalRecords pins := by
      apply Int.lt_of_not_ge
      intro beyond
      rw [mapFlattened_of_le pins beyond] at maps
      cases maps
    exact ⟨pins, t, found, if_neg (by omega), maps⟩
  · rintro ⟨pins', t', found', passes, maps⟩
    split at passes
    case isTrue => cases passes
    case isFalse =>
      cases passes
      obtain rfl := Option.some.inj (found.symm.trans found')
      rw [maps]
      rfl

/-- A flattened index of a gate and the pins with their event indices are in bijection, an index past the last record
gets nothing, and over all gates every record is bound to one launched thread, and nothing else is. -/
theorem flattenedEvents_once (positive : 0 < nThreadPerBlock) (gates : List (List PinPointers))
    (cycleThreadCounts : List Nat) (uninitialized : Nat → Nat) :
    let table := scheduleKernelForEventAndCycleBasedPartition nThreadPerBlock (eventThreadCounts gates)
      cycleThreadCounts uninitialized .event
    (∀ pins, Set.BijOn (fun linear => mapFlattenedEventToPinAndEventIdx linear pins) (Set.Ico 0 (totalRecords pins))
        (some '' records pins) ∧
      ∀ linear, totalRecords pins ≤ linear → mapFlattenedEventToPinAndEventIdx linear pins = none) ∧
    (∀ g pins record, gates[g]? = some pins → record ∈ records pins →
      ∃! launch : Nat × Nat, (launch.1 < table.nBlock ∧ launch.2 < nThreadPerBlock) ∧
        boundRecord table nThreadPerBlock gates launch = some (g, record)) ∧
    ∀ launch g record, launch.1 < table.nBlock → launch.2 < nThreadPerBlock →
      boundRecord table nThreadPerBlock gates launch = some (g, record) → ∃ pins, gates[g]? = some pins ∧
        record ∈ records pins := by
  intro table
  refine ⟨fun pins => ⟨mapFlattened_bijOn pins, fun linear => mapFlattened_of_le pins⟩, ?_, ?_⟩
  · intro g pins record found mem
    obtain ⟨linear, ⟨natural, inside⟩, maps⟩ := (mapFlattened_bijOn pins).surjOn ⟨record, mem, rfl⟩
    obtain ⟨t, rfl⟩ := Int.eq_ofNat_of_zero_le natural
    have threads := getD_eventThreadCounts found
    have bound : g < (eventThreadCounts gates).length := by
      rw [eventThreadCounts,List.length_map]
      exact (List.getElem?_eq_some_iff.mp found).1
    obtain ⟨launch, ⟨launched, runs⟩, unique⟩ : ∃! launch :
      Nat × Nat, (launch.1 < table.nBlock ∧ launch.2 < nThreadPerBlock) ∧
        threadOfLaunch table nThreadPerBlock launch.1 launch.2 = some (g, t) :=
      existsUnique_launch positive bound (by omega)
    refine ⟨launch, ⟨launched, (boundRecord_eq_some_iff launched.1).mpr ⟨pins, t, found, runs, maps⟩⟩, ?_⟩
    rintro other ⟨launched', bound'⟩
    obtain ⟨pins', t', found', runs', maps'⟩ := (boundRecord_eq_some_iff launched'.1).mp bound'
    obtain rfl := Option.some.inj (found.symm.trans found')
    have less : (t' : Int) < totalRecords pins := by
      apply Int.lt_of_not_ge
      intro beyond
      rw [mapFlattened_of_le pins beyond] at maps'
      cases maps'
    have same : (t : Int) = t' := (mapFlattened_bijOn pins).injOn ⟨natural, inside⟩ ⟨Int.natCast_nonneg _, less⟩
      (maps.trans maps'.symm)
    obtain rfl := Int.ofNat.inj same
    exact unique other ⟨launched', runs'⟩
  · intro launch g record block _ bound
    obtain ⟨pins, t, found, runs, maps⟩ := (boundRecord_eq_some_iff block).mp bound
    rw [mapFlattened_eq pins (Int.natCast_nonneg _)] at maps
    exact ⟨pins, found, mem_recordsFrom_zero.mp (List.mem_of_getElem? maps)⟩

/-- Two records behind a pin without waveform, and one in a second gate, in blocks of two. -/
theorem flattenedEvents_once_twoGates :
    ∃! launch : Nat × Nat, (launch.1 < 2 ∧ launch.2 < 2) ∧
      boundRecord (scheduleKernelForEventAndCycleBasedPartition 2 (eventThreadCounts
        [[PinPointers.noWaveform, ⟨4, 6, by decide⟩], [⟨6, 7, by decide⟩]]) [] (fun _ => 0) .event) 2
        [[PinPointers.noWaveform, ⟨4, 6, by decide⟩], [⟨6, 7, by decide⟩]] launch = some (0, 1, 5) := by
  obtain ⟨-, once, -⟩ := flattenedEvents_once (show 0 < 2 by decide)
    [[PinPointers.noWaveform, ⟨4, 6, by decide⟩], [⟨6, 7, by decide⟩]] [] fun _ => 0
  exact once 0 _ (1, 5) rfl ⟨_, rfl, by decide, by decide⟩

end Launched
end GTPower.Pointers
