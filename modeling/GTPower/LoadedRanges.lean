import GTPower.LoaderRuns

/-! What the ranges of the pins hold in any run of the loaders, whichever interval is loaded: consecutive values of the
variable each pin shows. -/
namespace GTPower

section Search
variable {store : Store} {maxEventTime : Nat}

theorem partitioned_timeAt (stored : Stored values) (time left : Nat) :
    Bisect.Partitioned (fun mid => timeAt values mid < time) left values.length := by
  intro i j _ order inside early
  have late : j < valuesBefore values time :=
    (lt_valuesBefore_iff stored.increasing inside).mpr (of_decide_eq_true early)
  exact decide_eq_true ((lt_valuesBefore_iff stored.increasing (by omega)).mp (by omega))

theorem endIdxInVcd_inside (dump : DumpStore store) (maxEventTime : Nat) (activity : Activity) (endTime : Nat)
    (low : left ≤ (store activity.vcdValues).length) : left ≤ endIdxInVcd store maxEventTime endTime activity left ∧
      endIdxInVcd store maxEventTime endTime activity left ≤ (store activity.vcdValues).length := by
  unfold endIdxInVcd
  split
  · exact ⟨low, Nat.le_refl _⟩
  · have split := partitioned_timeAt (dump activity.vcdValues) endTime left
    exact ⟨Bisect.le_lowerBound split low, Bisect.lowerBound_le split low⟩

/-- The value at time 0 is before every other time. -/
theorem endIdxInVcd_pos (dump : DumpStore store) (shown : store activity.vcdValues ≠ []) (later : 0 < endTime) :
    0 < endIdxInVcd store maxEventTime endTime activity 0 := by
  rw [endIdxInVcd_eq dump (Or.inr (Nat.zero_le _))]
  exact reach_pos dump shown later

end Search

section Ranges
variable {store : Store} {maxEventTime maxEventNum : Nat} {pins : List (Option Activity)} {loader : Loader}

/-- The range holds the values of the bit from `startIdx` to `endIdx`, at least one. -/
structure RangeShows (store : Store) (activity : Activity) (events : Nat → Event) (range : WaveformRange)
    (startIdx endIdx : Nat) : Prop where
  order : startIdx < endIdx
  within : endIdx ≤ (store activity.vcdValues).length
  stop : range.stop = range.start + (endIdx - startIdx)
  held : Blocks.read events range.start range.stop = recordsOf store activity startIdx endIdx

/-- Every range belongs to a pin with a variable and holds values of it. -/
def RangesShow (store : Store) (pins : List (Option Activity)) (result : LoadResult) : Prop :=
  ∀ (i : Nat) range, result.pinWaveforms[i]? = some (some range) →
    ∃ activity startIdx endIdx, pins[i]? = some (some activity) ∧
      RangeShows store activity result.events range startIdx endIdx

/-- The loader between two intervals: cursors are at values, and once one interval is loaded those of the listed bits
are past the first one. -/
structure CursorsInside (store : Store) (pins : List (Option Activity)) (started : Prop) (loader : Loader) : Prop where
  listed : ∀ activity ∈ loader.vcdValuesBitPairList, store activity.vcdValues ≠ []
  registered : ∀ activity, some activity ∈ pins → activity.vcdValues ∈ loader.registered
  cursor : ∀ activity k, loader.prevRightBound activity = some k → k ≤ (store activity.vcdValues).length
  moved : started → ∀ activity ∈ loader.used, loader.prevRightBound activity ≠ some 0

theorem CursorsInside.bounds (inside : CursorsInside store pins started loader) (dump : DumpStore store)
    (maxEventTime : Nat)
    (nonempty : startTime ≠ endTime) (later : startTime ≠ 0 → started) (mem : activity ∈ loader.used) :
    (boundsInVcd store maxEventTime startTime endTime loader activity).1 <
        (boundsInVcd store maxEventTime startTime endTime loader activity).2 ∧
      (boundsInVcd store maxEventTime startTime endTime loader activity).2 ≤ (store activity.vcdValues).length := by
  obtain ⟨listed, shown⟩ := List.mem_filter.mp mem
  obtain ⟨k, here⟩ := Option.isSome_iff_exists.mp shown
  have some := inside.listed activity listed
  unfold boundsInVcd
  dsimp only
  by_cases first : startTime = 0
  · simp only [if_pos first]
    exact ⟨endIdxInVcd_pos dump some (by omega),
      (endIdxInVcd_inside dump maxEventTime activity endTime (Nat.zero_le _)).2⟩
  · have positive : 0 < k := Nat.pos_of_ne_zero fun zero => inside.moved (later first) activity mem (zero ▸ here)
    have ends := endIdxInVcd_inside dump maxEventTime activity endTime (inside.cursor activity k here)
    simp only [if_neg first,here,Option.getD_some,if_pos positive]
    omega

theorem CursorsInside.init (store : Store) (pins : List (Option Activity)) :
    CursorsInside store pins False (Loader.init store pins) := by
  have added := PinsAdded.init store pins
  have zero : ∀ (rest : List (Option Activity)) (loader : Loader),
    (∀ activity k, loader.prevRightBound activity = some k → k = 0) →
      ∀ activity k, (rest.foldl (Loader.addPin store) loader).prevRightBound activity = some k → k = 0 := by
    intro rest
    induction rest with
    | nil => exact fun loader cursors => cursors
    | cons pin rest ih =>
      intro loader cursors
      apply ih
      intro activity k here
      cases pin with
      | none => exact cursors activity k here
      | some pinned =>
        simp only [Loader.addPin,Loader.register_prevRightBound] at here
        by_cases same : activity = pinned
        · subst same
          rw [Function.update_self] at here
          cases old : loader.prevRightBound activity with
          | none =>
            rw [old] at here
            exact (Option.some.inj here).symm
          | some k' =>
            rw [old,Option.getD_some] at here
            exact Option.some.inj here ▸ cursors activity k' old
        · rw [Function.update_of_ne same] at here
          exact cursors activity k here
  constructor
  · intro activity mem empty
    rw [added.listed] at mem
    obtain ⟨ptr, -, bit⟩ := List.mem_flatMap.mp mem
    obtain ⟨valueBit, low, rfl⟩ := List.mem_map.mp bit
    simp [empty] at low
  · exact added.registered
  · intro activity k here
    exact zero pins ⟨[], [], fun _ => none⟩ (fun _ _ absent => by cases absent) activity k here ▸ Nat.zero_le _
  · exact False.elim

theorem CursorsInside.shuffle (inside : CursorsInside store pins started loader)
    (perm : bits.Perm loader.vcdValuesBitPairList) :
    CursorsInside store pins started { loader with vcdValuesBitPairList := bits } where
  listed activity mem := inside.listed activity (perm.mem_iff.mp mem)
  registered := inside.registered
  cursor := inside.cursor
  moved begun activity mem := inside.moved begun activity ((perm.filter _).mem_iff.mp mem)

/-- A block of the loader over the bit list holds the values between the bounds of its bit. -/
theorem read_blocks (bounds : Activity → Nat × Nat) (buffer : Nat → Event)
    (placed : (activity, start) ∈ Blocks.place (fun activity => (bounds activity).2 - (bounds activity).1) 0 keys) :
    Blocks.read (Blocks.fill (fun activity => recordsOf store activity (bounds activity).1 (bounds activity).2) buffer
        (Blocks.place (fun activity => (bounds activity).2 - (bounds activity).1) 0 keys))
      start (start + ((bounds activity).2 - (bounds activity).1)) =
      recordsOf store activity (bounds activity).1 (bounds activity).2 := by
  have sized : (fun activity => (bounds activity).2 - (bounds activity).1) =
      fun activity => (recordsOf store activity (bounds activity).1 (bounds activity).2).length :=
    funext fun activity => (length_recordsOf store activity _ _).symm
  rw [sized] at placed ⊢
  have read := Blocks.read_fill (fun activity =>
    recordsOf store activity (bounds activity).1 (bounds activity).2) buffer _
    (Blocks.place_ordered (fun activity => (recordsOf store activity (bounds activity).1 (bounds activity).2).length) 0
      keys) placed
  rwa [length_recordsOf] at read

theorem CursorsInside.multiThread (inside : CursorsInside store pins started loader) (dump : DumpStore store)
    (nonempty : startTime ≠ endTime) (later : startTime ≠ 0 → started)
    (loads : getGateWaveformRangeMultiThread store maxEventTime maxEventNum startTime endTime pins loader buffer =
      some result) :
    CursorsInside store pins True result.loader ∧ RangesShow store pins result := by
  have bounds : ∀ activity ∈ loader.used, _ := fun activity mem => inside.bounds dump maxEventTime nonempty later mem
  rw [getGateWaveformRangeMultiThread] at loads
  dsimp only at loads
  split at loads
  · cases loads
  · obtain rfl := Option.some.inj loads
    refine ⟨⟨inside.listed, inside.registered, ?_, ?_⟩, ?_⟩
    · intro activity k here
      dsimp only at here
      split at here
      case isTrue mem => exact Option.some.inj here ▸ (bounds activity mem).2
      case isFalse => exact inside.cursor activity k here
    · intro _ activity mem
      have old : activity ∈ loader.used := by
        refine List.mem_filter.mpr ⟨(List.mem_filter.mp mem).1, ?_⟩
        have shown := (List.mem_filter.mp mem).2
        dsimp only at shown
        split at shown
        case isTrue mem => exact (List.mem_filter.mp mem).2
        case isFalse => exact shown
      dsimp only
      rw [if_pos old]
      intro zero
      have order := (bounds activity old).1
      rw [Option.some.inj zero] at order
      exact Nat.not_lt_zero _ order
    · intro i range here
      dsimp only at here ⊢
      rw [List.getElem?_map] at here
      obtain ⟨pin, pinned, found⟩ := Option.map_eq_some_iff.mp here
      obtain ⟨activity, rfl, found⟩ := Option.bind_eq_some_iff.mp found
      obtain ⟨⟨activity', start⟩, block, rfl⟩ := Option.map_eq_some_iff.mp found
      have placed := List.mem_of_find?_eq_some block
      have same := List.find?_some block
      rw [decide_eq_true_eq] at same
      dsimp only at same
      subst same
      have mem := Blocks.mem_of_mem_place placed
      exact ⟨activity', _, _, pinned, (bounds activity' mem).1, (bounds activity' mem).2, rfl,
        read_blocks _ buffer placed⟩

/-- A run of the loader over the pins after some of them: ranges of both tables are behind one another and hold
values. -/
structure PinsShow (store : Store) (pins done : List (Option Activity)) (started : Prop) (st : PinLoop) : Prop where
  loader : CursorsInside store pins started st.loader
  length : st.pinWaveforms.length = done.length
  known : ∀ activity range, st.valueBitToRange activity = some range → range.stop ≤ st.accuEventCount ∧
    ∃ startIdx endIdx, RangeShows store activity st.events range startIdx endIdx
  ranges : ∀ (i : Nat) range, st.pinWaveforms[i]? = some (some range) →
    ∃ activity, done[i]? = some (some activity) ∧ st.valueBitToRange activity = some range

theorem PinsShow.push (shows : PinsShow store pins done started st) (pin : Option Activity)
    (range : Option WaveformRange)
    (agrees : ∀ found, range = some found → ∃ activity, pin = some activity ∧
      st.valueBitToRange activity = some found) :
    PinsShow store pins (done ++ [pin]) started { st with pinWaveforms := st.pinWaveforms ++ [range] } where
  loader := shows.loader
  length := by rw [List.length_append,List.length_append,shows.length]; rfl
  known := shows.known
  ranges i found here := by
    dsimp only at here ⊢
    rcases Nat.lt_trichotomy i done.length with before | same | after
    · rw [List.getElem?_append_left (shows.length ▸ before)] at here
      rw [List.getElem?_append_left before]
      exact shows.ranges i found here
    · rw [same,← shows.length,List.getElem?_concat_length] at here
      obtain ⟨activity, rfl, known⟩ := agrees found (Option.some.inj here)
      exact ⟨activity, by rw [same,List.getElem?_concat_length], known⟩
    · rw [List.getElem?_eq_none (by rw [List.length_append,List.length_singleton,shows.length]; omega)] at here
      cases here

theorem pinRecordsOf_eq (found : pinRecordsOf store activity startIdx endIdx = some records) :
    records = recordsOf store activity startIdx endIdx := by
  unfold pinRecordsOf at found
  unfold recordsOf
  generalize List.range' startIdx (endIdx - startIdx) = positions at found ⊢
  induction positions generalizing records with
  | nil => exact (Option.some.inj found).symm
  | cons pos rest ih =>
    rw [List.mapM_cons] at found
    obtain ⟨event, here, found⟩ := Option.bind_eq_some_iff.mp found
    obtain ⟨others, later, found⟩ := Option.bind_eq_some_iff.mp found
    obtain rfl := Option.some.inj found
    obtain ⟨val, mapped, rfl⟩ := Option.map_eq_some_iff.mp here
    have known : charAt store activity pos ≠ .u := fun missing => by rw [missing] at mapped; cases mapped
    rw [vcdValueToInt_of_known known] at mapped
    rw [ih later,← Option.some.inj mapped]
    rfl

theorem RangeShows.write (shows : RangeShows store activity events range startIdx endIdx) (behind : range.stop ≤ base)
    (records : List Event) : RangeShows store activity (Blocks.write events base records) range startIdx endIdx where
  order := shows.order
  within := shows.within
  stop := shows.stop
  held := by
    rw [← shows.held]
    exact Blocks.read_congr fun k _ below => Blocks.write_outside events records (Or.inl (by omega))

theorem pinBoundsInVcd_inside (inside : CursorsInside store pins started loader) (dump : DumpStore store)
    (shown : store activity.vcdValues ≠ []) (nonempty : startTime ≠ endTime)
    (found : pinBoundsInVcd store maxEventTime startTime endTime loader activity = some (startIdx, endIdx)) :
    startIdx < endIdx ∧ endIdx ≤ (store activity.vcdValues).length := by
  unfold pinBoundsInVcd at found
  dsimp only at found
  split at found
  case isTrue first =>
    obtain ⟨rfl, rfl⟩ := Prod.mk.inj (Option.some.inj found)
    exact ⟨endIdxInVcd_pos dump shown (by omega),
      (endIdxInVcd_inside dump maxEventTime activity endTime (Nat.zero_le _)).2⟩
  case isFalse =>
    split at found
    · cases found
    · cases found
    · rename_i prevIdx here
      obtain ⟨rfl, rfl⟩ := Prod.mk.inj (Option.some.inj found)
      have ends := endIdxInVcd_inside dump maxEventTime activity endTime (inside.cursor activity _ here)
      exact ⟨Nat.lt_of_succ_le ends.1, ends.2⟩

theorem CursorsInside.move (inside : CursorsInside store pins started loader) (moved : 0 < endIdx)
    (within : endIdx ≤ (store activity.vcdValues).length) : CursorsInside store pins started
      { loader with prevRightBound := Function.update loader.prevRightBound activity (some endIdx) } where
  listed := inside.listed
  registered := inside.registered
  cursor other k cursor := by
    dsimp only at cursor
    by_cases same : other = activity
    · subst same
      rw [Function.update_self] at cursor
      exact Option.some.inj cursor ▸ within
    · rw [Function.update_of_ne same] at cursor
      exact inside.cursor other k cursor
  moved begun other used := by
    dsimp only
    by_cases same : other = activity
    · subst same
      rw [Function.update_self]
      exact fun zero => Nat.ne_of_gt moved (Option.some.inj zero)
    · rw [Function.update_of_ne same]
      refine inside.moved begun other (List.mem_filter.mpr ⟨(List.mem_filter.mp used).1, ?_⟩)
      have cursor := (List.mem_filter.mp used).2
      dsimp only at cursor
      rwa [Function.update_of_ne same] at cursor

theorem PinsShow.grow (shows : PinsShow store pins done started st) (new : st.valueBitToRange activity = none)
    (order : startIdx < endIdx) (within : endIdx ≤ (store activity.vcdValues).length) : PinsShow store pins done started
      { st with
        loader := { st.loader with prevRightBound := Function.update st.loader.prevRightBound activity (some endIdx) }
        accuEventCount := st.accuEventCount + (endIdx - startIdx)
        valueBitToRange := Function.update st.valueBitToRange activity
          (some ⟨st.accuEventCount, st.accuEventCount + (endIdx - startIdx)⟩)
        events := Blocks.write st.events st.accuEventCount (recordsOf store activity startIdx endIdx) } where
  loader := shows.loader.move (Nat.zero_lt_of_lt order) within
  length := shows.length
  known other range known := by
    dsimp only at known ⊢
    by_cases same : other = activity
    · subst same
      rw [Function.update_self] at known
      obtain rfl := Option.some.inj known
      have read := Blocks.read_write st.events st.accuEventCount (recordsOf store other startIdx endIdx)
      rw [length_recordsOf] at read
      exact ⟨Nat.le_refl _, startIdx, endIdx, order, within, rfl, read⟩
    · rw [Function.update_of_ne same] at known
      obtain ⟨below, first, last, old⟩ := shows.known other range known
      exact ⟨by omega, first, last, old.write below _⟩
  ranges i range there := by
    obtain ⟨other, old, known⟩ := shows.ranges i range there
    refine ⟨other, old, ?_⟩
    dsimp only
    rw [Function.update_of_ne fun same => by rw [same,new] at known; cases known]
    exact known

theorem PinsShow.step (shows : PinsShow store pins done started st) (dump : DumpStore store)
    (shown : ∀ activity, some activity ∈ pins → store activity.vcdValues ≠ []) (nonempty : startTime ≠ endTime)
    (mem : pin ∈ pins)
    (stepped : getWaveformOfPin store maxEventTime maxEventNum startTime endTime st pin = some next) :
    PinsShow store pins (done ++ [pin]) started next := by
  cases pin with
  | none =>
    obtain rfl := Option.some.inj stepped
    exact shows.push none none fun _ absent => by cases absent
  | some activity =>
    have registered : st.loader.register store activity.vcdValues = st.loader :=
      register_of_registered store (shows.loader.registered activity mem)
    simp only [getWaveformOfPin,registered] at stepped
    cases here : st.valueBitToRange activity with
    | some range =>
      simp only [here,Option.some.injEq] at stepped
      subst stepped
      exact shows.push (some activity) (some range) fun found same => ⟨activity, rfl, here.trans same⟩
    | none =>
      simp only [here] at stepped
      cases found : pinBoundsInVcd store maxEventTime startTime endTime st.loader activity with
      | none => simp [found] at stepped
      | some bounds =>
        obtain ⟨startIdx, endIdx⟩ := bounds
        have bounds := pinBoundsInVcd_inside shows.loader dump (shown activity mem) nonempty found
        simp only [found] at stepped
        split at stepped
        · cases stepped
        cases records : pinRecordsOf store activity startIdx endIdx with
        | none => simp [records] at stepped
        | some values =>
          obtain rfl := pinRecordsOf_eq records
          simp only [records,Option.some.injEq] at stepped
          subst stepped
          refine (shows.grow here bounds.1 bounds.2).push (some activity) _ fun range same => ⟨activity, rfl, ?_⟩
          rw [← Option.some.inj same]
          exact Function.update_self ..

theorem CursorsInside.singleThread (inside : CursorsInside store pins started loader) (dump : DumpStore store)
    (shown : ∀ activity, some activity ∈ pins → store activity.vcdValues ≠ []) (nonempty : startTime ≠ endTime)
    (loads : getGateWaveformRangeSingleThread store maxEventTime maxEventNum startTime endTime pins loader buffer =
      some result) :
    CursorsInside store pins started result.loader ∧ RangesShow store pins result := by
  have running : ∀ (rest done : List (Option Activity)) (st final : PinLoop), (∀ pin ∈ rest, pin ∈ pins) →
      PinsShow store pins done started st →
      rest.foldlM (getWaveformOfPin store maxEventTime maxEventNum startTime endTime) st = some final →
      PinsShow store pins (done ++ rest) started final := by
    intro rest
    induction rest with
    | nil =>
      intro done st final _ shows run
      rw [List.append_nil]
      exact Option.some.inj run ▸ shows
    | cons pin rest ih =>
      intro done st final within shows run
      rw [List.foldlM_cons] at run
      obtain ⟨next, stepped, run⟩ := Option.bind_eq_some_iff.mp run
      have step := shows.step dump shown nonempty (within pin (List.mem_cons_self ..)) stepped
      have whole := ih (done ++ [pin]) next final (fun other mem => within other (List.mem_cons_of_mem _ mem)) step run
      rwa [List.append_assoc] at whole
  obtain ⟨final, run, rfl⟩ := Option.map_eq_some_iff.mp loads
  have start : PinsShow store pins [] started ⟨loader, 0, fun _ => none, buffer, []⟩ :=
    ⟨inside, rfl, (fun _ _ absent => by cases absent), fun _ _ absent => by cases absent⟩
  have shows := running pins [] _ final (fun _ mem => mem) start run
  refine ⟨shows.loader, fun i range here => ?_⟩
  obtain ⟨activity, pinned, known⟩ := shows.ranges i range here
  obtain ⟨-, startIdx, endIdx, shows⟩ := shows.known activity range known
  exact ⟨activity, startIdx, endIdx, pinned, shows⟩

theorem loadRest_ranges (overlapping : Bool) (dump : DumpStore store)
    (shown : ∀ activity, some activity ∈ pins → store activity.vcdValues ≠ [])
    (nonempty : ∀ interval ∈ intervals, interval.1 ≠ interval.2) (inside : CursorsInside store pins True loader)
    (loads : loadRest store maxEventTime maxEventNum pins overlapping loader buffer intervals = some steps) :
    ∀ step ∈ steps, RangesShow store pins step.result := by
  induction intervals generalizing loader buffer steps with
  | nil =>
    obtain rfl := Option.some.inj loads
    exact fun _ absent => by cases absent
  | cons interval rest ih =>
    have here := nonempty interval (List.mem_cons_self ..)
    rw [loadRest] at loads
    split at loads
    · cases loads
    · rename_i result loaded
      obtain ⟨later, rests, rfl⟩ := Option.map_eq_some_iff.mp loads
      have both : CursorsInside store pins True result.loader ∧ RangesShow store pins result := by
        cases overlapping with
        | true => exact inside.multiThread dump here (fun _ => trivial) loaded
        | false => exact inside.singleThread dump shown here loaded
      rw [List.forall_mem_cons]
      exact ⟨both.2, ih (fun other mem => nonempty other (List.mem_cons_of_mem _ mem)) both.1 rests⟩

/-- In every interval of a run that begins at 0, the ranges hold values of the pins' variables, at least one each. -/
theorem loadRun_ranges (overlapping : Bool) (dump : DumpStore store)
    (shown : ∀ activity, some activity ∈ pins → store activity.vcdValues ≠ [])
    (nonempty : ∀ interval ∈ intervals, interval.1 ≠ interval.2)
    (begins : ∀ first, intervals.head? = some first → first.1 = 0) (permutes : ∀ bits, (shuffle bits).Perm bits)
    (loads : loadRun store maxEventTime maxEventNum pins shuffle overlapping buffer intervals = some steps) :
    ∀ step ∈ steps, RangesShow store pins step.result := by
  cases intervals with
  | nil =>
    obtain rfl := Option.some.inj loads
    exact fun _ absent => by cases absent
  | cons interval rest =>
    have here := nonempty interval (List.mem_cons_self ..)
    have zero := begins interval rfl
    rw [loadRun] at loads
    split at loads
    · cases loads
    · rename_i result loaded
      obtain ⟨later, rests, rfl⟩ := Option.map_eq_some_iff.mp loads
      obtain ⟨inside, shows⟩ := (CursorsInside.init store pins).multiThread dump here (fun late => late zero) loaded
      rw [List.forall_mem_cons]
      exact ⟨shows, loadRest_ranges overlapping dump shown (fun other mem =>
        nonempty other (List.mem_cons_of_mem _ mem))
        (inside.shuffle (permutes _)) rests⟩

end Ranges
end GTPower
