import GTPower.LoaderFaithful

/-! The loader over the pins, and runs of both loaders over contiguous intervals. -/
namespace GTPower

section Pins
variable {store : Store} {maxEventTime maxEventNum : Nat} {pins : List (Option Activity)} {loader : Loader}

/-- No missing character among the values loaded for a bit. -/
def Known (store : Store) (maxEventTime startTime endTime : Nat) (activity : Activity) : Prop :=
  ∀ pos, carriedIdx store maxEventTime startTime activity ≤ pos → pos < reach store maxEventTime endTime activity →
    charAt store activity pos ≠ .u

theorem vcdValueToInt_of_known (known : char ≠ .u) : vcdValueToInt char = some (vcdValueToEventVal char) := by
  cases char with
  | u => exact absurd rfl known
  | zero | one | x | z => rfl

theorem pinRecordsOf_of_known (known : ∀ pos, startIdx ≤ pos → pos < endIdx → charAt store activity pos ≠ .u) :
    pinRecordsOf store activity startIdx endIdx = some (recordsOf store activity startIdx endIdx) := by
  have each : ∀ l : List Nat, (∀ pos ∈ l, charAt store activity pos ≠ .u) →
      (l.mapM fun pos => (vcdValueToInt (charAt store activity pos)).map fun val =>
        (⟨timeAt (store activity.vcdValues) pos, val⟩ : Event)) =
      some (l.map fun pos => ⟨timeAt (store activity.vcdValues) pos,
        vcdValueToEventVal (charAt store activity pos)⟩) := by
    intro l
    induction l with
    | nil => intro _; rfl
    | cons pos rest ih =>
      intro known
      rw [List.mapM_cons,vcdValueToInt_of_known (known pos (List.mem_cons_self ..)),
        ih fun other mem => known other (List.mem_cons_of_mem _ mem)]
      rfl
  apply each
  intro pos mem
  have range := List.mem_range'_1.mp mem
  exact known pos range.1 (by omega)

theorem register_of_registered (store : Store) (known : ptr ∈ loader.registered) : loader.register store ptr = loader :=
  if_pos known

/-- The bounds of a bit met first: from the carried value to the end of the interval. -/
theorem Cursor.pinBounds (cursor : Cursor store maxEventTime pins loader startTime) (dump : DumpStore store)
    (listed : Listed store pins) (order : startTime < endTime) (pin : some activity ∈ pins)
    (same : loader'.prevRightBound activity = loader.prevRightBound activity) :
    pinBoundsInVcd store maxEventTime startTime endTime loader' activity =
      some (carriedIdx store maxEventTime startTime activity, reach store maxEventTime endTime activity) := by
  unfold pinBoundsInVcd carriedIdx
  by_cases first : startTime = 0
  · simp only [if_pos first]
    rw [endIdxInVcd_eq dump (Or.inr (Nat.zero_le _))]
  · have later := Nat.pos_of_ne_zero first
    obtain ⟨value, rest, shape, -⟩ := listed activity pin
    have positive : 0 < reach store maxEventTime startTime activity := reach_pos dump (by simp [shape]) later
    obtain ⟨prevIdx, reached⟩ := Nat.exists_eq_succ_of_ne_zero (Nat.pos_iff_ne_zero.mp positive)
    have ended : endIdxInVcd store maxEventTime endTime activity (reach store maxEventTime startTime activity) =
        reach store maxEventTime endTime activity := endIdxInVcd_from_reach dump (Nat.le_of_lt order) activity
    rw [reached] at ended
    simp only [if_neg first,same,cursor.cursor later activity pin,reached,Nat.succ_eq_add_one,Nat.add_sub_cancel]
    rw [ended]

/-- The loop over the pins after some of them: the bits met so far have their blocks in the order they were met. -/
structure PinsLoaded (store : Store) (maxEventTime startTime endTime : Nat) (loader : Loader) (buffer : Nat → Event)
    (done : List (Option Activity)) (keys : List Activity) (st : PinLoop) : Prop where
  distinct : keys.Nodup
  met : ∀ activity, activity ∈ keys ↔ some activity ∈ done
  registered : st.loader.registered = loader.registered
  listed : st.loader.vcdValuesBitPairList = loader.vcdValuesBitPairList
  moved : ∀ activity ∈ keys, st.loader.prevRightBound activity = some (reach store maxEventTime endTime activity)
  unmoved : ∀ activity, activity ∉ keys → st.loader.prevRightBound activity = loader.prevRightBound activity
  count : st.accuEventCount =
    Blocks.total (fun activity => (loadedRecords store maxEventTime startTime endTime activity).length) keys
  ranges : ∀ activity, st.valueBitToRange activity =
    blockRange (fun activity => (loadedRecords store maxEventTime startTime endTime activity).length) keys activity
  events : st.events = Blocks.fill (loadedRecords store maxEventTime startTime endTime) buffer
    (Blocks.place (fun activity => (loadedRecords store maxEventTime startTime endTime activity).length) 0 keys)
  pinWaveforms : st.pinWaveforms = done.map fun pin => pin.bind
    (blockRange (fun activity => (loadedRecords store maxEventTime startTime endTime activity).length) keys)

theorem PinsLoaded.silent (loaded : PinsLoaded store maxEventTime startTime endTime loader buffer done keys st) :
    PinsLoaded store maxEventTime startTime endTime loader buffer (done ++ [none]) keys
      { st with pinWaveforms := st.pinWaveforms ++ [none] } where
  distinct := loaded.distinct
  met activity := by simp [loaded.met]
  registered := loaded.registered
  listed := loaded.listed
  moved := loaded.moved
  unmoved := loaded.unmoved
  count := loaded.count
  ranges := loaded.ranges
  events := loaded.events
  pinWaveforms := by rw [List.map_append,loaded.pinWaveforms]; rfl

theorem PinsLoaded.again (loaded : PinsLoaded store maxEventTime startTime endTime loader buffer done keys st)
    (known : activity ∈ keys) (here : st.valueBitToRange activity = some range) :
    PinsLoaded store maxEventTime startTime endTime loader buffer (done ++ [some activity]) keys
      { st with pinWaveforms := st.pinWaveforms ++ [some range] } where
  distinct := loaded.distinct
  met other := by
    rw [loaded.met,List.mem_append,List.mem_singleton]
    refine ⟨Or.inl, fun mem => mem.elim id fun same => ?_⟩
    cases same
    exact (loaded.met activity).mp known
  registered := loaded.registered
  listed := loaded.listed
  moved := loaded.moved
  unmoved := loaded.unmoved
  count := loaded.count
  ranges := loaded.ranges
  events := loaded.events
  pinWaveforms := by
    rw [loaded.ranges] at here
    rw [List.map_append,loaded.pinWaveforms,List.map_singleton,Option.bind_some,here]

theorem PinsLoaded.fresh (loaded : PinsLoaded store maxEventTime startTime endTime loader buffer done keys st)
    (new : activity ∉ keys) :
    PinsLoaded store maxEventTime startTime endTime loader buffer (done ++ [some activity]) (keys ++ [activity])
      { loader := { st.loader with
          prevRightBound := Function.update st.loader.prevRightBound activity
            (some (reach store maxEventTime endTime activity)) }
        accuEventCount := st.accuEventCount + (loadedRecords store maxEventTime startTime endTime activity).length
        valueBitToRange := Function.update st.valueBitToRange activity
          (some ⟨st.accuEventCount,
            st.accuEventCount + (loadedRecords store maxEventTime startTime endTime activity).length⟩)
        events := Blocks.write st.events st.accuEventCount (loadedRecords store maxEventTime startTime endTime activity)
        pinWaveforms := st.pinWaveforms ++
          [some ⟨st.accuEventCount,
            st.accuEventCount + (loadedRecords store maxEventTime startTime endTime activity).length⟩] } := by
  have range : blockRange (fun activity => (loadedRecords store maxEventTime startTime endTime activity).length)
      (keys ++ [activity]) activity =
        some ⟨st.accuEventCount,
          st.accuEventCount + (loadedRecords store maxEventTime startTime endTime activity).length⟩ := by
    rw [blockRange,Blocks.place_append,Nat.zero_add,← loaded.count,List.find?_append,Option.map_or]
    have absent : blockRange (fun activity => (loadedRecords store maxEventTime startTime endTime activity).length)
        keys activity = none := blockRange_eq_none new
    rw [blockRange] at absent
    rw [absent]
    simp [Blocks.place]
  constructor
  · exact List.nodup_append.mpr ⟨loaded.distinct, List.nodup_singleton _, fun other mem last single same =>
      new (List.mem_singleton.mp single ▸ same ▸ mem)⟩
  · intro other
    simp [loaded.met]
  · exact loaded.registered
  · exact loaded.listed
  · intro other mem
    by_cases same : other = activity
    · subst same
      exact Function.update_self ..
    · dsimp only
      rw [Function.update_of_ne same]
      exact loaded.moved other ((List.mem_append.mp mem).resolve_right fun last => same (List.mem_singleton.mp last))
  · intro other absent
    rw [List.mem_append,List.mem_singleton,not_or] at absent
    dsimp only
    rw [Function.update_of_ne absent.2]
    exact loaded.unmoved other absent.1
  · simp [loaded.count,Blocks.total]
  · intro other
    by_cases same : other = activity
    · subst same
      dsimp only
      rw [Function.update_self,range]
    · dsimp only
      rw [Function.update_of_ne same,loaded.ranges]
      by_cases mem : other ∈ keys
      · exact (blockRange_append mem _).symm
      · rw [blockRange_eq_none mem,blockRange_eq_none]
        simp [mem,same]
  · rw [Blocks.place_append,Nat.zero_add,← loaded.count,Blocks.fill_append,← loaded.events]
    rfl
  · rw [List.map_append,loaded.pinWaveforms,List.map_singleton,Option.bind_some,range]
    refine congrArg (· ++ _) (List.map_congr_left fun pin mem => ?_)
    cases pin with
    | none => rfl
    | some other => exact (blockRange_append ((loaded.met other).mpr mem) _).symm

theorem getWaveformOfPin_spec (cursor : Cursor store maxEventTime pins loader startTime) (dump : DumpStore store)
    (listed : Listed store pins) (order : startTime < endTime)
    (fits : loadSize store maxEventTime startTime endTime pins ≤ maxEventNum)
    (known : ∀ activity, some activity ∈ pins → Known store maxEventTime startTime endTime activity)
    (loaded : PinsLoaded store maxEventTime startTime endTime loader buffer done keys st)
    (within : ∀ other ∈ done, other ∈ pins) (mem : pin ∈ pins) : ∃ st' keys',
      getWaveformOfPin store maxEventTime maxEventNum startTime endTime st pin = some st' ∧
      PinsLoaded store maxEventTime startTime endTime loader buffer (done ++ [pin]) keys' st' := by
  cases pin with
  | none => exact ⟨_, keys, rfl, loaded.silent⟩
  | some activity =>
    have registered : st.loader.register store activity.vcdValues = st.loader :=
      register_of_registered store (loaded.registered ▸ cursor.registered activity mem)
    cases here : st.valueBitToRange activity with
    | some range =>
      have old : activity ∈ keys := by
        by_contra absent
        rw [loaded.ranges,blockRange_eq_none absent] at here
        cases here
      refine ⟨_, keys, ?_, loaded.again old here⟩
      simp only [getWaveformOfPin,registered,here]
    | none =>
      have new : activity ∉ keys := fun old => by
        obtain ⟨start, -, found⟩ := blockRange_of_mem
          (fun activity => (loadedRecords store maxEventTime startTime endTime activity).length) old
        rw [loaded.ranges,found] at here
        cases here
      have next := loaded.fresh new
      have bounds := cursor.pinBounds dump listed order mem (loaded.unmoved activity new)
      have records := pinRecordsOf_of_known (known activity mem)
      have size : (loadedRecords store maxEventTime startTime endTime activity).length =
          reach store maxEventTime endTime activity - carriedIdx store maxEventTime startTime activity :=
        length_recordsOf store activity _ _
      have room : ¬ maxEventNum < st.accuEventCount +
          (reach store maxEventTime endTime activity - carriedIdx store maxEventTime startTime activity) := by
        have counted : st.accuEventCount + (loadedRecords store maxEventTime startTime endTime activity).length =
            Blocks.total (fun activity => (loadedRecords store maxEventTime startTime endTime activity).length)
              (keys ++ [activity]) := next.count
        have pinned : ∀ other ∈ keys ++ [activity], some other ∈ pins := fun other old => by
          rcases List.mem_append.mp ((next.met other).mp old) with before | last
          · exact within _ before
          · exact List.mem_singleton.mp last ▸ mem
        have all := total_le (fun activity => (loadedRecords store maxEventTime startTime endTime activity).length)
          next.distinct pinned
        have sizes : loadSize store maxEventTime startTime endTime pins =
            Blocks.total (fun activity => (loadedRecords store maxEventTime startTime endTime activity).length)
              (pins.filterMap id).dedup :=
          congrArg List.sum (List.map_congr_left fun other _ => (length_recordsOf store other _ _).symm)
        rw [size] at counted
        omega
      refine ⟨_, _, ?_, next⟩
      simp only [getWaveformOfPin,registered,here,bounds,if_neg room,records]
      rw [size]
      rfl

theorem singleThread_spec (cursor : Cursor store maxEventTime pins loader startTime) (dump : DumpStore store)
    (listed : Listed store pins) (order : startTime < endTime)
    (fits : loadSize store maxEventTime startTime endTime pins ≤ maxEventNum)
    (known : ∀ activity, some activity ∈ pins → Known store maxEventTime startTime endTime activity)
    (buffer : Nat → Event) : ∃ result,
      getGateWaveformRangeSingleThread store maxEventTime maxEventNum startTime endTime pins loader buffer =
        some result ∧
      Cursor store maxEventTime pins result.loader endTime ∧
      Holds pins (loadedRecords store maxEventTime startTime endTime) result := by
  have running : ∀ (rest done : List (Option Activity)) (keys : List Activity) (st : PinLoop), done ++ rest = pins →
      PinsLoaded store maxEventTime startTime endTime loader buffer done keys st → ∃ st' keys',
        rest.foldlM (getWaveformOfPin store maxEventTime maxEventNum startTime endTime) st = some st' ∧
        PinsLoaded store maxEventTime startTime endTime loader buffer pins keys' st' := by
    intro rest
    induction rest with
    | nil =>
      intro done keys st whole loaded
      rw [List.append_nil] at whole
      exact ⟨st, keys, rfl, whole ▸ loaded⟩
    | cons pin rest ih =>
      intro done keys st whole loaded
      obtain ⟨next, keys', stepped, loaded⟩ := getWaveformOfPin_spec cursor dump listed order fits known loaded
        (fun other mem => whole ▸ List.mem_append_left _ mem) (whole ▸ List.mem_append_right _ (List.mem_cons_self ..))
      obtain ⟨st', keys'', ran, loaded⟩ := ih (done ++ [pin]) keys' next (by rw [List.append_assoc]; exact whole) loaded
      refine ⟨st', keys'', ?_, loaded⟩
      rw [List.foldlM_cons,stepped]
      exact ran
  obtain ⟨st, keys, ran, loaded⟩ := running pins [] [] ⟨loader, 0, fun _ => none, buffer, []⟩ rfl
    ⟨List.nodup_nil, by simp, rfl, rfl, by simp, fun _ _ => rfl, rfl, fun _ => rfl, rfl, rfl⟩
  refine ⟨⟨st.loader, st.events, st.pinWaveforms⟩, by rw [getGateWaveformRangeSingleThread,ran]; rfl, ?_, ?_⟩
  · refine ⟨loaded.listed ▸ cursor.distinct, loaded.listed ▸ cursor.complete, loaded.registered ▸ cursor.registered,
      fun activity => ?_, fun _ activity pin => loaded.moved activity ((loaded.met activity).mpr pin)⟩
    by_cases mem : activity ∈ keys
    · rw [loaded.moved activity mem]
      exact ⟨fun _ => (loaded.met activity).mp mem, fun _ => rfl⟩
    · rw [loaded.unmoved activity mem]
      exact cursor.shown activity
  · have held := holds_of_blocks pins (loadedRecords store maxEventTime startTime endTime) buffer st.loader
      loaded.distinct fun activity pin => (loaded.met activity).mpr pin
    rw [← loaded.events,← loaded.pinWaveforms] at held
    exact held

end Pins

section Init
variable {store : Store} {maxEventTime : Nat}

def bitsOf (store : Store) (ptr : Nat) : List Activity :=
  (List.range (((store ptr).head?.map VcdValue.busWidth).getD 0)).map fun valueBit => ⟨ptr, valueBit⟩

/-- The loader while the pins are added: the bits of every variable seen so far, variable by variable. -/
structure PinsAdded (store : Store) (done : List (Option Activity)) (loader : Loader) : Prop where
  distinct : loader.registered.Nodup
  listed : loader.vcdValuesBitPairList = loader.registered.flatMap (bitsOf store)
  registered : ∀ activity, some activity ∈ done → activity.vcdValues ∈ loader.registered
  shown : ∀ activity, (loader.prevRightBound activity).isSome = true ↔ some activity ∈ done

theorem Loader.register_prevRightBound (loader : Loader) (ptr : Nat) :
    (loader.register store ptr).prevRightBound = loader.prevRightBound := by
  unfold Loader.register
  split <;> rfl

theorem Loader.mem_register (loader : Loader) (ptr : Nat) :
    other ∈ (loader.register store ptr).registered ↔ other ∈ loader.registered ∨ other = ptr := by
  unfold Loader.register
  split
  case isTrue known => exact ⟨Or.inl, fun mem => mem.elim id fun same => same ▸ known⟩
  case isFalse => simp

theorem PinsAdded.addPin (added : PinsAdded store done loader) (pin : Option Activity) :
    PinsAdded store (done ++ [pin]) (loader.addPin store pin) := by
  cases pin with
  | none => exact ⟨added.distinct, added.listed, by simpa [Loader.addPin] using added.registered,
    by simpa [Loader.addPin] using added.shown⟩
  | some activity =>
    constructor
    · simp only [Loader.addPin,Loader.register]
      split
      case isTrue => exact added.distinct
      case isFalse new => exact List.nodup_append.mpr ⟨added.distinct, List.nodup_singleton _,
          fun ptr mem last single same => new (List.mem_singleton.mp single ▸ same ▸ mem)⟩
    · simp only [Loader.addPin,Loader.register]
      split
      case isTrue => exact added.listed
      case isFalse => rw [List.flatMap_append,List.flatMap_singleton,← added.listed]; rfl
    · intro other mem
      rw [Loader.addPin,Loader.mem_register]
      rcases List.mem_append.mp mem with old | last
      · exact Or.inl (added.registered other old)
      · cases List.mem_singleton.mp last
        exact Or.inr rfl
    · intro other
      simp only [Loader.addPin,Loader.register_prevRightBound,List.mem_append,List.mem_singleton,Option.some.injEq]
      by_cases same : other = activity
      · subst same
        simp
      · rw [Function.update_of_ne same,added.shown]
        simp [same]

theorem PinsAdded.init (store : Store) (pins : List (Option Activity)) :
    PinsAdded store pins (Loader.init store pins) := by
  have running : ∀ (rest done : List (Option Activity)) (loader : Loader), PinsAdded store done loader →
      PinsAdded store (done ++ rest) (rest.foldl (Loader.addPin store) loader) := by
    intro rest
    induction rest with
    | nil => intro done loader added; rwa [List.append_nil]
    | cons pin rest ih =>
      intro done loader added
      have next := ih (done ++ [pin]) _ (added.addPin pin)
      rwa [List.append_assoc] at next
  exact running pins [] ⟨[], [], fun _ => none⟩ ⟨List.nodup_nil, rfl, (fun _ mem => by cases mem), by simp⟩

theorem PinsAdded.nodup_listed (added : PinsAdded store pins loader) : loader.vcdValuesBitPairList.Nodup := by
  rw [added.listed]
  refine List.nodup_flatMap.mpr ⟨fun ptr _ => ?_, added.distinct.imp fun differ => ?_⟩
  · exact List.nodup_range.map fun a b same => by cases same; rfl
  · intro activity here there
    obtain ⟨_, -, rfl⟩ := List.mem_map.mp here
    obtain ⟨_, -, same⟩ := List.mem_map.mp there
    cases same
    exact differ rfl

theorem Cursor.init (listed : Listed store pins) : Cursor store maxEventTime pins (Loader.init store pins) 0 := by
  have added := PinsAdded.init store pins
  refine ⟨added.nodup_listed, fun activity pin => ?_, added.registered, added.shown, fun past =>
    absurd past (Nat.lt_irrefl 0)⟩
  obtain ⟨first, rest, shape, low⟩ := listed activity pin
  rw [added.listed]
  refine List.mem_flatMap.mpr ⟨activity.vcdValues, added.registered activity pin,
    List.mem_map.mpr ⟨activity.valueBit, ?_, rfl⟩⟩
  simpa [shape] using low

theorem Cursor.shuffle (cursor : Cursor store maxEventTime pins loader time)
    (perm : List.Perm bits loader.vcdValuesBitPairList) :
    Cursor store maxEventTime pins { loader with vcdValuesBitPairList := bits } time :=
  ⟨perm.nodup_iff.mpr cursor.distinct, fun activity pin => perm.mem_iff.mpr (cursor.complete activity pin),
    cursor.registered, cursor.shown, cursor.cursor⟩

end Init

section Run
variable (store : Store) (maxEventTime maxEventNum : Nat) (pins : List (Option Activity))

/-- Intervals that follow one another from `start` on. -/
def Follows : Nat → List (Nat × Nat) → Prop
  | _, [] => True
  | start, (startTime, endTime) :: rest => startTime = start ∧ startTime < endTime ∧ Follows endTime rest

/-- What the loaders need of an interval: the end is after the last time of the dump or not at a value then, no
value is missing, and the buffer has room. -/
structure Loadable (startTime endTime : Nat) : Prop where
  ends : ∀ activity, some activity ∈ pins → Settled store maxEventTime endTime activity
  known : ∀ activity, some activity ∈ pins → ∀ event ∈ intervalRecords store startTime endTime activity,
    event.val ≠ vcdValueToEventVal .u
  fits : Blocks.total (fun activity => (intervalRecords store startTime endTime activity).length)
    (pins.filterMap id).dedup ≤ maxEventNum

/-- Both loaders leave the records of the interval. -/
structure LoadedFaithfully (step : LoadStep) : Prop where
  result : Holds pins (intervalRecords store step.startTime step.endTime) step.result
  multiThread : ∃ result, getGateWaveformRangeMultiThread store maxEventTime maxEventNum step.startTime
    step.endTime pins
    step.loader step.buffer = some result ∧ Holds pins (intervalRecords store step.startTime step.endTime) result
  singleThread : ∃ result, getGateWaveformRangeSingleThread store maxEventTime maxEventNum step.startTime
    step.endTime pins
    step.loader step.buffer = some result ∧ Holds pins (intervalRecords store step.startTime step.endTime) result

variable {store maxEventTime maxEventNum pins}

theorem Holds.congr (holds : Holds pins content result)
    (same : ∀ activity, some activity ∈ pins → content activity = content' activity) :
    Holds pins content' result where
  held i activity pin := same activity (List.mem_of_getElem? pin) ▸ holds.held i activity pin
  silent := holds.silent
  disjoint := holds.disjoint

theorem loadStep_spec (cursor : Cursor store maxEventTime pins loader startTime) (dump : DumpStore store)
    (listed : Listed store pins) (order : startTime < endTime)
    (begins : startTime ≠ 0 → ∀ activity, some activity ∈ pins → Settled store maxEventTime startTime activity)
    (loadable : Loadable store maxEventTime maxEventNum pins startTime endTime) (buffer : Nat → Event) :
    ∃ multi single,
      getGateWaveformRangeMultiThread store maxEventTime maxEventNum startTime endTime pins loader buffer = some multi ∧
      getGateWaveformRangeSingleThread store maxEventTime maxEventNum startTime endTime pins loader buffer =
        some single ∧
      Cursor store maxEventTime pins multi.loader endTime ∧ Cursor store maxEventTime pins single.loader endTime ∧
      Holds pins (intervalRecords store startTime endTime) multi ∧
      Holds pins (intervalRecords store startTime endTime) single := by
  have records : ∀ activity, some activity ∈ pins → loadedRecords store maxEventTime startTime endTime activity =
      intervalRecords store startTime endTime activity := fun activity pin =>
    recordsOf_settled (fun later => begins later activity pin) (loadable.ends activity pin)
  have fits : loadSize store maxEventTime startTime endTime pins ≤ maxEventNum := by
    refine Nat.le_trans (Nat.le_of_eq ?_) loadable.fits
    refine congrArg List.sum (List.map_congr_left fun activity mem => ?_)
    obtain ⟨pin, here, rfl⟩ := List.mem_filterMap.mp (List.mem_dedup.mp mem)
    rw [← records activity here,loadedRecords,length_recordsOf]
  have known : ∀ activity, some activity ∈ pins → Known store maxEventTime startTime endTime activity := by
    intro activity pin pos low high missing
    refine loadable.known activity pin ⟨timeAt (store activity.vcdValues) pos, vcdValueToEventVal .u⟩ ?_ rfl
    rw [← records activity pin]
    exact List.mem_map.mpr ⟨pos, List.mem_range'_1.mpr ⟨low, by omega⟩, by rw [missing]⟩
  obtain ⟨multi, ran, moved, holds⟩ := multiThread_spec cursor dump order fits buffer
  obtain ⟨single, ran', moved', holds'⟩ := singleThread_spec cursor dump listed order fits known buffer
  exact ⟨multi, single, ran, ran', moved, moved', holds.congr records, holds'.congr records⟩

theorem loadRest_spec (overlapping : Bool) (dump : DumpStore store) (listed : Listed store pins)
    (follows : Follows time intervals) (later : time ≠ 0)
    (begins : ∀ activity, some activity ∈ pins → Settled store maxEventTime time activity)
    (loadable : ∀ interval ∈ intervals, Loadable store maxEventTime maxEventNum pins interval.1 interval.2)
    (cursor : Cursor store maxEventTime pins loader time) (buffer : Nat → Event) : ∃ steps,
      loadRest store maxEventTime maxEventNum pins overlapping loader buffer intervals = some steps ∧
      steps.map (fun step => (step.startTime, step.endTime)) = intervals ∧
      ∀ step ∈ steps, LoadedFaithfully store maxEventTime maxEventNum pins step := by
  induction intervals generalizing time loader buffer with
  | nil => exact ⟨[], rfl, rfl, fun step mem => by cases mem⟩
  | cons interval rest ih =>
    obtain ⟨startTime, endTime⟩ := interval
    obtain ⟨rfl, order, follows⟩ := follows
    have here := loadable _ (List.mem_cons_self ..)
    obtain ⟨multi, single, ran, ran', moved, moved', holds, holds'⟩ :=
      loadStep_spec cursor dump listed order (fun _ => begins) here buffer
    have next : ∃ result, (if overlapping then getGateWaveformRangeMultiThread else getGateWaveformRangeSingleThread)
        store maxEventTime maxEventNum startTime endTime pins loader buffer = some result ∧
        Cursor store maxEventTime pins result.loader endTime ∧
        Holds pins (intervalRecords store startTime endTime) result := by
      cases overlapping with
      | true => exact ⟨multi, ran, moved, holds⟩
      | false => exact ⟨single, ran', moved', holds'⟩
    obtain ⟨result, loads, cursor, held⟩ := next
    obtain ⟨steps, rests, times, faithful⟩ := ih follows (by omega) here.ends
      (fun interval mem => loadable interval (List.mem_cons_of_mem _ mem)) cursor result.events
    refine ⟨⟨startTime, endTime, loader, buffer, result⟩ :: steps, ?_, by rw [List.map_cons,times], ?_⟩
    · rw [loadRest]
      simp only [loads,rests,Option.map_some]
    · intro step mem
      rcases List.mem_cons.mp mem with rfl | after
      · exact ⟨held, ⟨multi, ran, holds⟩, ⟨single, ran', holds'⟩⟩
      · exact faithful step after

/-- A run over contiguous intervals that start at 0, whatever order the bit list is shuffled to: every interval is
loaded, and from the state before each of them both loaders leave exactly its records. -/
theorem loading_faithful (changes : Nat → List (Nat × VarChange))
    (built : ∀ ptr, parseVarValues (changes ptr) = some (store ptr)) (listed : Listed store pins)
    (follows : Follows 0 intervals)
    (loadable : ∀ interval ∈ intervals, Loadable store maxEventTime maxEventNum pins interval.1 interval.2)
    (shuffle : List Activity → List Activity) (permutes : ∀ bits, (shuffle bits).Perm bits) (overlapping : Bool)
    (buffer : Nat → Event) : ∃ steps,
      loadRun store maxEventTime maxEventNum pins shuffle overlapping buffer intervals = some steps ∧
      steps.map (fun step => (step.startTime, step.endTime)) = intervals ∧
      ∀ step ∈ steps, LoadedFaithfully store maxEventTime maxEventNum pins step := by
  have dump : DumpStore store := fun ptr => parseVarValues_stored (changes ptr) (built ptr)
  cases intervals with
  | nil => exact ⟨[], rfl, rfl, fun step mem => by cases mem⟩
  | cons interval rest =>
    obtain ⟨startTime, endTime⟩ := interval
    obtain ⟨rfl, order, follows⟩ := follows
    have here := loadable _ (List.mem_cons_self ..)
    obtain ⟨multi, single, ran, ran', moved, -, holds, holds'⟩ :=
      loadStep_spec (Cursor.init listed) dump listed order (fun later => absurd rfl later) here buffer
    obtain ⟨steps, rests, times, faithful⟩ := loadRest_spec overlapping dump listed follows (by omega) here.ends
      (fun interval mem => loadable interval (List.mem_cons_of_mem _ mem))
      (moved.shuffle (permutes multi.loader.vcdValuesBitPairList)) multi.events
    refine ⟨⟨0, endTime, Loader.init store pins, buffer, multi⟩ :: steps, ?_, by rw [List.map_cons,times], ?_⟩
    · rw [loadRun]
      simp only [ran,rests,Option.map_some]
    · intro step mem
      rcases List.mem_cons.mp mem with rfl | after
      · exact ⟨holds, ⟨multi, ran, holds⟩, ⟨single, ran', holds'⟩⟩
      · exact faithful step after

def netAndBus : Nat → List (Nat × VarChange)
  | 0 => [(0, .scalar .one), (7, .scalar .zero), (12, .scalar .one)]
  | 1 => [(3, .bus 2 2), (5, .bus 1 2)]
  | _ => []

def netAndBusStore (ptr : Nat) : List VcdValue := (parseVarValues (netAndBus ptr)).getD []

def netAndBusPins : List (Option Activity) := [some ⟨1, 1⟩, none, some ⟨0, 0⟩, some ⟨1, 0⟩, some ⟨0, 0⟩]

theorem forall_pins {P : Activity → Prop} (each : ∀ pin ∈ pins, ∀ activity ∈ pin, P activity) :
    ∀ activity, some activity ∈ pins → P activity := fun activity mem => each _ mem activity rfl

theorem loading_faithful_netAndBus : ∃ steps,
    loadRun netAndBusStore 12 11 netAndBusPins List.reverse true (fun _ => ⟨0, 0⟩) [(0, 10), (10, 13)] = some steps ∧
    steps.map (fun step => (step.startTime, step.endTime)) = [(0, 10), (10, 13)] ∧
    ∀ step ∈ steps, LoadedFaithfully netAndBusStore 12 11 netAndBusPins step := by
  have built : ∀ ptr, parseVarValues (netAndBus ptr) = some (netAndBusStore ptr) := fun ptr =>
    match ptr with
    | 0 => rfl
    | 1 => rfl
    | _ + 2 => rfl
  have listed : Listed netAndBusStore netAndBusPins := by
    apply forall_pins
    intro pin mem activity here
    fin_cases mem <;> cases here <;> exact ⟨_, _, rfl, by decide⟩
  have loadable : ∀ interval ∈ [(0, 10), (10, 13)],
    Loadable netAndBusStore 12 11 netAndBusPins interval.1 interval.2 := by
    intro interval mem
    fin_cases mem
    all_goals exact ⟨forall_pins (by unfold Settled; decide), forall_pins (by decide), by decide⟩
  have follows : Follows 0 [(0, 10), (10, 13)] := ⟨rfl, by decide, rfl, by decide, trivial⟩
  exact loading_faithful netAndBus built listed follows loadable List.reverse List.reverse_perm true _

/-- Three runs of one interval that are not faithful. The first value of the bus is written with one digit, so bit 3
is not listed and its pin gets no range. An interval that ends at the last time of the dump takes the value
at its end. A missing value throws in the loader over the pins. -/
theorem loading_unfaithful :
    (parseVarValues [(0, .bus 0 1), (5, .bus 8 4)] = some [⟨0, none, 0, 1⟩, ⟨5, none, 8, 4⟩] ∧
      ∀ shuffle overlapping buffer, ∃ step,
        loadRun (fun _ => [⟨0, none, 0, 1⟩, ⟨5, none, 8, 4⟩]) 5 10 [some ⟨0, 3⟩] shuffle overlapping buffer [(0, 6)] =
          some [step] ∧
        ¬ LoadedFaithfully (fun _ => [⟨0, none, 0, 1⟩, ⟨5, none, 8, 4⟩]) 5 10 [some ⟨0, 3⟩] step) ∧
    (parseVarValues [(0, .scalar .one), (5, .scalar .zero)] = some [⟨0, some .one, 0, 1⟩, ⟨5, some .zero, 0, 1⟩] ∧
      ∀ shuffle overlapping buffer, ∃ step,
        loadRun (fun _ => [⟨0, some .one, 0, 1⟩, ⟨5, some .zero, 0, 1⟩]) 5 10 [some ⟨0, 0⟩] shuffle overlapping
          buffer [(0, 5)] =
          some [step] ∧
        ¬ LoadedFaithfully (fun _ => [⟨0, some .one, 0, 1⟩, ⟨5, some .zero, 0, 1⟩]) 5 10 [some ⟨0, 0⟩] step) ∧
    (parseVarValues [(0, .scalar .u)] = some [⟨0, some .u, 0, 1⟩] ∧
      ∀ shuffle overlapping buffer, ∃ step,
        loadRun (fun _ => [⟨0, some .u, 0, 1⟩]) 5 10 [some ⟨0, 0⟩] shuffle overlapping buffer [(0, 6)] = some [step] ∧
        ¬ LoadedFaithfully (fun _ => [⟨0, some .u, 0, 1⟩]) 5 10 [some ⟨0, 0⟩] step) := by
  refine ⟨⟨rfl, fun shuffle overlapping buffer => ⟨_, rfl, fun faithful => ?_⟩⟩,
    ⟨rfl, fun shuffle overlapping buffer => ⟨_, rfl, fun faithful => ?_⟩⟩,
    ⟨rfl, fun shuffle overlapping buffer => ⟨_, rfl, fun faithful => ?_⟩⟩⟩
  · obtain ⟨start, range, -⟩ := faithful.result.held 0 ⟨0, 3⟩ rfl
    cases range
  · obtain ⟨start, range, -⟩ := faithful.result.held 0 ⟨0, 0⟩ rfl
    cases range
  · obtain ⟨result, loads, -⟩ := faithful.singleThread
    cases loads

end Run
end GTPower
