import GTPower.WaveformLoader

/-! What an interval leaves in the buffer: for every pin the values from the last one before the interval,
which is carried over, to the last one before its end. -/
namespace GTPower

section Values
variable {values : List VcdValue}

def valuesBefore (values : List VcdValue) (time : Nat) : Nat := values.countP fun entry => entry.time < time

theorem valuesBefore_le (values : List VcdValue) (time : Nat) : valuesBefore values time ≤ values.length :=
  List.countP_le_length

theorem valuesBefore_mono (values : List VcdValue) (later : time ≤ time') :
    valuesBefore values time ≤ valuesBefore values time' := by
  refine List.countP_mono_left fun entry _ before => ?_
  simp only [decide_eq_true_eq] at before ⊢
  omega

theorem timeAt_cons_succ (entry : VcdValue) (rest : List VcdValue) (pos : Nat) :
    timeAt (entry :: rest) (pos + 1) = timeAt rest pos := by simp [timeAt]

theorem lt_valuesBefore_iff (increasing : values.Pairwise fun a b => a.time < b.time) (inside : pos < values.length) :
    pos < valuesBefore values time ↔ timeAt values pos < time := by
  induction values generalizing pos with
  | nil => cases inside
  | cons entry rest ih =>
    obtain ⟨head, increasing⟩ := List.pairwise_cons.mp increasing
    rw [List.length_cons] at inside
    by_cases early : entry.time < time
    · have count : valuesBefore (entry :: rest) time = valuesBefore rest time + 1 := by simp [valuesBefore,early]
      rw [count]
      cases pos with
      | zero => simp [timeAt,early]
      | succ pos =>
        rw [timeAt_cons_succ,← ih increasing (by omega)]
        omega
    · have none : valuesBefore (entry :: rest) time = 0 := by
        refine List.countP_eq_zero.mpr fun other mem => ?_
        rcases List.mem_cons.mp mem with rfl | later
        · simpa using early
        · have := head other later
          simp only [decide_eq_true_eq]
          omega
      rw [none]
      cases pos with
      | zero => simp [timeAt,early]
      | succ pos =>
        obtain ⟨next, found⟩ : ∃ next, rest[pos]? = some next := ⟨_, List.getElem?_eq_getElem (by omega)⟩
        have := head next (List.mem_of_getElem? found)
        rw [timeAt_cons_succ,timeAt,found,Option.map_some,Option.getD_some]
        omega

theorem getEventIdxInValues_eq (increasing : values.Pairwise fun a b => a.time < b.time)
    (left_le : left ≤ valuesBefore values time) : getEventIdxInValues values time left = valuesBefore values time := by
  have upper := valuesBefore_le values time
  have split : Bisect.Partitioned (fun mid => timeAt values mid < time) left values.length := by
    intro i j _ order high before
    simp only [decide_eq_true_eq] at before ⊢
    rw [← lt_valuesBefore_iff increasing (by omega)] at before ⊢
    omega
  apply Bisect.lowerBound_eq split left_le upper
  · intro i _ less
    exact decide_eq_true ((lt_valuesBefore_iff increasing (by omega)).mp less)
  · intro i reached high before
    have := (lt_valuesBefore_iff increasing high).mpr (of_decide_eq_true before)
    omega

end Values

section Reach
variable (store : Store) (maxEventTime : Nat)

/-- How many values of a bit are loaded once an interval that ends at `time` is. -/
def reach (time : Nat) (activity : Activity) : Nat :=
  if maxEventTime ≤ time then (store activity.vcdValues).length else valuesBefore (store activity.vcdValues) time

/-- The carried value of an interval, or the first one. -/
def carriedIdx (startTime : Nat) (activity : Activity) : Nat :=
  if startTime = 0 then 0 else reach store maxEventTime startTime activity - 1

/-- Records of the values from the last one before the interval, or the first one, to the last one before the end. -/
def intervalRecords (startTime endTime : Nat) (activity : Activity) : List Event :=
  let values := store activity.vcdValues
  ((values.take (valuesBefore values endTime)).drop (if startTime = 0 then 0
    else valuesBefore values startTime - 1)).map
    fun entry => ⟨entry.time, vcdValueToEventVal (entry.valueAt activity.valueBit)⟩

def DumpStore : Prop := ∀ ptr, Stored (store ptr)

variable {store maxEventTime}

theorem reach_le (time : Nat) (activity : Activity) :
    reach store maxEventTime time activity ≤ (store activity.vcdValues).length := by
  unfold reach
  split
  · exact Nat.le_refl _
  · exact valuesBefore_le _ _

theorem reach_mono (store : Store) (maxEventTime : Nat) (later : time ≤ time') (activity : Activity) :
    reach store maxEventTime time activity ≤ reach store maxEventTime time' activity := by
  unfold reach
  split <;> split
  · exact Nat.le_refl _
  · omega
  · exact valuesBefore_le _ _
  · exact valuesBefore_mono _ later

theorem reach_pos (dump : DumpStore store) (shown : store activity.vcdValues ≠ []) (later : 0 < time) :
    0 < reach store maxEventTime time activity := by
  have some := List.length_pos_iff.mpr shown
  unfold reach
  split
  · exact some
  · obtain ⟨first, rest, shape⟩ := List.exists_cons_of_ne_nil shown
    have zero := (dump activity.vcdValues).initial first (by simp [shape])
    rw [lt_valuesBefore_iff (dump _).increasing some]
    simpa [timeAt,shape,zero] using later

theorem endIdxInVcd_eq (dump : DumpStore store) (left_le : maxEventTime ≤ endTime ∨
      left ≤ valuesBefore (store activity.vcdValues) endTime) :
    endIdxInVcd store maxEventTime endTime activity left = reach store maxEventTime endTime activity := by
  unfold endIdxInVcd reach
  split
  case isTrue => rfl
  case isFalse early => exact getEventIdxInValues_eq (dump _).increasing (left_le.resolve_left early)

theorem endIdxInVcd_from_reach (dump : DumpStore store) (later : startTime ≤ endTime) (activity : Activity) :
    endIdxInVcd store maxEventTime endTime activity (reach store maxEventTime startTime activity) =
      reach store maxEventTime endTime activity := by
  apply endIdxInVcd_eq dump
  by_cases past : maxEventTime ≤ endTime
  · exact Or.inl past
  · refine Or.inr ?_
    have order := reach_mono store maxEventTime later activity
    simpa [reach,past] using order

theorem recordsOf_eq (activity : Activity) (within : endIdx ≤ (store activity.vcdValues).length) :
    recordsOf store activity startIdx endIdx = (((store activity.vcdValues).take endIdx).drop startIdx).map
      fun entry => ⟨entry.time, vcdValueToEventVal (entry.valueAt activity.valueBit)⟩ := by
  apply List.ext_getElem
  · simp [recordsOf,Nat.min_eq_left within]
  · intro i low high
    have inside : startIdx + i < (store activity.vcdValues).length := by
      simp only [recordsOf,List.length_map,List.length_range'] at low
      omega
    simp [recordsOf,timeAt,charAt,inside]

/-- An end of an interval at or after the last time of the dump is after every value of the bit. -/
def Settled (store : Store) (maxEventTime time : Nat) (activity : Activity) : Prop :=
  maxEventTime ≤ time → ∀ entry ∈ store activity.vcdValues, entry.time < time

theorem reach_settled (settled : Settled store maxEventTime time activity) :
    reach store maxEventTime time activity = valuesBefore (store activity.vcdValues) time := by
  unfold reach
  split
  case isFalse => rfl
  case isTrue last =>
    symm
    exact List.countP_eq_length.mpr fun entry mem => decide_eq_true (settled last entry mem)

theorem recordsOf_settled (begins : startTime ≠ 0 → Settled store maxEventTime startTime activity)
    (ends : Settled store maxEventTime endTime activity) :
    recordsOf store activity (carriedIdx store maxEventTime startTime activity)
    (reach store maxEventTime endTime activity) =
      intervalRecords store startTime endTime activity := by
  rw [recordsOf_eq _ (reach_le _ _),intervalRecords,reach_settled ends]
  congr 2
  unfold carriedIdx
  split
  case isTrue => rfl
  case isFalse later => rw [reach_settled (begins later)]

end Reach

section Holds

/-- Every pin's range holds the content of its bit, and ranges of different bits do not meet. -/
structure Holds (pins : List (Option Activity)) (content : Activity → List Event) (result : LoadResult) : Prop where
  held : ∀ (i : Nat) activity, pins[i]? = some (some activity) → ∃ start,
    result.pinWaveforms[i]? = some (some ⟨start, start + (content activity).length⟩) ∧
    Blocks.read result.events start (start + (content activity).length) = content activity
  silent : ∀ i : Nat, pins[i]? = some none → result.pinWaveforms[i]? = some none
  disjoint : ∀ (i j : Nat) activity activity' range range', pins[i]? = some (some activity) →
    pins[j]? = some (some activity') →
    activity ≠ activity' → result.pinWaveforms[i]? = some (some range) → result.pinWaveforms[j]? = some (some range') →
    range.stop ≤ range'.start ∨ range'.stop ≤ range.start

/-- Range of a bit among the blocks of some bits. -/
def blockRange (size : Activity → Nat) (keys : List Activity) (activity : Activity) : Option WaveformRange :=
  ((Blocks.place size 0 keys).find? fun block => block.1 = activity).map fun block => ⟨block.2, block.2 + size activity⟩

variable {size : Activity → Nat} {keys : List Activity}

theorem blockRange_of_mem (size : Activity → Nat) (mem : activity ∈ keys) :
    ∃ start, (activity, start) ∈ Blocks.place size 0 keys ∧
    blockRange size keys activity = some ⟨start, start + size activity⟩ := by
  obtain ⟨start, placed⟩ := Blocks.mem_place size 0 mem
  have found : ((Blocks.place size 0 keys).find? fun block => block.1 = activity).isSome :=
    List.find?_isSome.mpr ⟨_, placed, decide_eq_true rfl⟩
  obtain ⟨⟨activity', start'⟩, block⟩ := Option.isSome_iff_exists.mp found
  have same := List.find?_some block
  rw [decide_eq_true_eq] at same
  subst same
  exact ⟨start', List.mem_of_find?_eq_some block, by rw [blockRange,block]; rfl⟩

theorem blockRange_append (mem : activity ∈ keys) (more : List Activity) :
    blockRange size (keys ++ more) activity = blockRange size keys activity := by
  have found : ((Blocks.place size 0 keys).find? fun block => block.1 = activity).isSome := by
    obtain ⟨start, placed⟩ := Blocks.mem_place size 0 mem
    exact List.find?_isSome.mpr ⟨_, placed, decide_eq_true rfl⟩
  obtain ⟨block, here⟩ := Option.isSome_iff_exists.mp found
  rw [blockRange,blockRange,Blocks.place_append,List.find?_append,here]
  rfl

theorem blockRange_eq_none (absent : activity ∉ keys) : blockRange size keys activity = none := by
  rw [blockRange,Option.map_eq_none_iff]
  refine List.find?_eq_none.mpr fun block mem same => absent ?_
  rw [decide_eq_true_eq] at same
  exact same ▸ Blocks.mem_of_mem_place mem

theorem holds_of_blocks (pins : List (Option Activity)) (content : Activity → List Event) (buffer : Nat → Event)
    (loader : Loader) (distinct : keys.Nodup) (complete : ∀ activity, some activity ∈ pins → activity ∈ keys) :
    Holds pins content ⟨loader,
    Blocks.fill content buffer (Blocks.place (fun activity => (content activity).length) 0 keys),
      pins.map fun pin => pin.bind (blockRange (fun activity => (content activity).length) keys)⟩ := by
  constructor
  · intro i activity pin
    obtain ⟨start, placed, range⟩ := blockRange_of_mem (fun activity => (content activity).length)
      (complete activity (List.mem_of_getElem? pin))
    exact ⟨start, by simp [pin,range],
      Blocks.read_fill content buffer _ (Blocks.place_ordered (fun activity => (content activity).length) 0 keys)
      placed⟩
  · intro i pin
    simp [pin]
  · intro i j activity activity' range range' pin pin' differ here here'
    obtain ⟨start, placed, found⟩ := blockRange_of_mem (fun activity => (content activity).length)
      (complete activity (List.mem_of_getElem? pin))
    obtain ⟨start', placed', found'⟩ := blockRange_of_mem (fun activity => (content activity).length)
      (complete activity' (List.mem_of_getElem? pin'))
    simp only [List.getElem?_map,pin,pin',Option.map_some,Option.bind_some,found,found',Option.some.injEq] at here here'
    subst here here'
    exact Blocks.place_disjoint (fun activity => (content activity).length) distinct placed placed' differ

end Holds

section Cursor
variable (store : Store) (maxEventTime : Nat) (pins : List (Option Activity))

/-- The loader between two intervals: every bit of a pin is listed once and its cursor is where the last interval
ended. -/
structure Cursor (loader : Loader) (time : Nat) : Prop where
  distinct : loader.vcdValuesBitPairList.Nodup
  complete : ∀ activity, some activity ∈ pins → activity ∈ loader.vcdValuesBitPairList
  registered : ∀ activity, some activity ∈ pins → activity.vcdValues ∈ loader.registered
  shown : ∀ activity, (loader.prevRightBound activity).isSome = true ↔ some activity ∈ pins
  cursor : 0 < time → ∀ activity, some activity ∈ pins →
    loader.prevRightBound activity = some (reach store maxEventTime time activity)

/-- Values of a pin exist, and the width of the first one shows its bit. -/
def Listed : Prop := ∀ activity, some activity ∈ pins →
  ∃ first rest, store activity.vcdValues = first :: rest ∧ activity.valueBit < first.busWidth

variable {store maxEventTime pins} {loader : Loader}

theorem Cursor.mem_used (cursor : Cursor store maxEventTime pins loader time) :
    activity ∈ loader.used ↔ some activity ∈ pins := by
  rw [Loader.used,List.mem_filter,cursor.shown]
  exact ⟨And.right, fun pin => ⟨cursor.complete activity pin, pin⟩⟩

theorem Cursor.used_nodup (cursor : Cursor store maxEventTime pins loader time) : loader.used.Nodup :=
  cursor.distinct.filter _

/-- The bounds of a listed bit: from the carried value to the end of the interval. -/
theorem Cursor.bounds (cursor : Cursor store maxEventTime pins loader startTime) (dump : DumpStore store)
    (order : startTime < endTime) (pin : some activity ∈ pins) :
    boundsInVcd store maxEventTime startTime endTime loader activity =
      (carriedIdx store maxEventTime startTime activity, reach store maxEventTime endTime activity) := by
  unfold boundsInVcd carriedIdx
  by_cases first : startTime = 0
  · simp only [if_pos first]
    rw [endIdxInVcd_eq dump (Or.inr (Nat.zero_le _))]
  · simp only [if_neg first,cursor.cursor (Nat.pos_of_ne_zero first) activity pin,Option.getD_some]
    rw [endIdxInVcd_from_reach dump (Nat.le_of_lt order)]
    congr 1
    split <;> omega

/-- Records of the bits of the pins in an interval. -/
def loadSize (store : Store) (maxEventTime startTime endTime : Nat) (pins : List (Option Activity)) : Nat :=
  Blocks.total (fun activity => reach store maxEventTime endTime activity -
    carriedIdx store maxEventTime startTime activity)
    (pins.filterMap id).dedup

theorem total_le (size : Activity → Nat) (distinct : keys.Nodup) (pinned : ∀ activity ∈ keys, some activity ∈ pins) :
    Blocks.total size keys ≤ Blocks.total size (pins.filterMap id).dedup := by
  have sums : ∀ l : List Activity, l.Nodup → Blocks.total size l = ∑ activity ∈ l.toFinset, size activity :=
    fun l nodup => (List.sum_toFinset size nodup).symm
  rw [sums keys distinct,sums _ (List.nodup_dedup _)]
  refine Finset.sum_le_sum_of_subset fun activity mem => ?_
  rw [List.mem_toFinset] at mem ⊢
  exact List.mem_dedup.mpr (List.mem_filterMap.mpr ⟨_, pinned activity mem, rfl⟩)

theorem length_recordsOf (store : Store) (activity : Activity) (startIdx endIdx : Nat) :
    (recordsOf store activity startIdx endIdx).length = endIdx - startIdx := by
  rw [recordsOf,List.length_map,List.length_range']

/-- Content the loaders give a bit in an interval. -/
def loadedRecords (store : Store) (maxEventTime startTime endTime : Nat) (activity : Activity) : List Event :=
  recordsOf store activity (carriedIdx store maxEventTime startTime activity)
    (reach store maxEventTime endTime activity)

theorem multiThread_spec (cursor : Cursor store maxEventTime pins loader startTime) (dump : DumpStore store)
    (order : startTime < endTime) (fits : loadSize store maxEventTime startTime endTime pins ≤ maxEventNum)
    (buffer : Nat → Event) : ∃ result,
      getGateWaveformRangeMultiThread store maxEventTime maxEventNum startTime endTime pins loader buffer =
        some result ∧
      Cursor store maxEventTime pins result.loader endTime ∧
      Holds pins (loadedRecords store maxEventTime startTime endTime) result := by
  have bounds : ∀ activity ∈ loader.used, boundsInVcd store maxEventTime startTime endTime loader activity =
      (carriedIdx store maxEventTime startTime activity, reach store maxEventTime endTime activity) :=
    fun activity mem => cursor.bounds dump order (cursor.mem_used.mp mem)
  have sizes : ∀ activity ∈ loader.used, (boundsInVcd store maxEventTime startTime endTime loader activity).2 -
      (boundsInVcd store maxEventTime startTime endTime loader activity).1 =
        (loadedRecords store maxEventTime startTime endTime activity).length := fun activity mem => by
    rw [bounds activity mem,loadedRecords,length_recordsOf]
  have room : ¬ maxEventNum < Blocks.total (fun activity =>
      (boundsInVcd store maxEventTime startTime endTime loader activity).2 -
        (boundsInVcd store maxEventTime startTime endTime loader activity).1) loader.used := by
    have counted := total_le (fun activity => reach store maxEventTime endTime activity -
      carriedIdx store maxEventTime startTime activity) cursor.used_nodup fun activity mem => cursor.mem_used.mp mem
    rw [loadSize] at fits
    have same : Blocks.total (fun activity => (boundsInVcd store maxEventTime startTime endTime loader activity).2 -
        (boundsInVcd store maxEventTime startTime endTime loader activity).1) loader.used =
          Blocks.total (fun activity => reach store maxEventTime endTime activity -
            carriedIdx store maxEventTime startTime activity) loader.used :=
      congrArg List.sum (List.map_congr_left fun activity mem => by rw [bounds activity mem])
    omega
  refine ⟨_, by rw [getGateWaveformRangeMultiThread]; exact if_neg room, ?_, ?_⟩
  · refine ⟨cursor.distinct, cursor.complete, cursor.registered, fun activity => ?_, fun _ activity pin => ?_⟩
    · dsimp only
      split
      case isTrue mem => exact ⟨fun _ => cursor.mem_used.mp mem, fun _ => rfl⟩
      case isFalse => exact cursor.shown activity
    · dsimp only
      rw [if_pos (cursor.mem_used.mpr pin),bounds activity (cursor.mem_used.mpr pin)]
  · have blocks := Blocks.place_congr sizes 0
    have pinned := holds_of_blocks pins (loadedRecords store maxEventTime startTime endTime) buffer
      { loader with
        prevRightBound := fun activity =>
          if activity ∈ loader.used then some (boundsInVcd store maxEventTime startTime endTime loader activity).2
          else loader.prevRightBound activity }
      cursor.used_nodup fun activity pin => cursor.mem_used.mpr pin
    rw [← blocks] at pinned
    convert pinned using 2
    · exact Blocks.fill_congr buffer _ fun block mem => by
        rw [bounds block.1 (Blocks.mem_of_mem_place mem)]
        rfl
    · apply List.map_congr_left
      intro pin mem
      cases pin with
      | none => rfl
      | some activity =>
        rw [Option.bind_some,Option.bind_some,blockRange,← blocks,
          ← sizes activity (cursor.mem_used.mpr mem)]

end Cursor
end GTPower
