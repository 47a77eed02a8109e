import GTPower.EventBudget

/-! The report of the workload of each interval against what the loader over the bit list takes. The report goes over
the intervals of the dump with a cursor of its own, the loader over the intervals as they are moved to the cycles. -/
namespace GTPower

section Report
variable (store : Store) (maxEventTime : Nat) (activity : Activity)

/-- `lower_bound` over the values from `left` on. -/
def eventIndexFrom (values : List VcdValue) (time left : Nat) : Nat :=
  if values.length ≤ left then values.length else Bisect.lowerBound (fun mid => timeAt values mid < time) left
    values.length

/-- Records of a bit in each interval as the report counts them, with the right bound of the interval before. -/
def reportedCounts : Bool → Nat → List (Nat × Nat) → List Nat
  | _, _, [] => []
  | isFirstTimeInterval, prevRightBound, interval :: rest =>
    let startIdx := if isFirstTimeInterval then 0 else if 0 < prevRightBound then prevRightBound - 1 else 0
    let endIdx := if maxEventTime ≤ interval.2 then (store activity.vcdValues).length
      else eventIndexFrom (store activity.vcdValues) interval.2 (if isFirstTimeInterval then 0 else prevRightBound)
    (endIdx - startIdx) :: reportedCounts false endIdx rest

/-- Records of a bit that the loader takes in a step. A bit that is not listed, or belongs to no pin, has none. -/
def loadedCount (step : LoadStep) : Nat :=
  if activity ∈ step.loader.used then
    let bounds := boundsInVcd store maxEventTime step.startTime step.endTime step.loader activity
    bounds.2 - bounds.1
  else 0

end Report

/-- The intervals of the run: those of the dump, or moved to the cycles. -/
def cudaTimeIntervals (clock : Clock) (partitionUnitIsCycle : Bool) (timeIntervals : List (Nat × Nat)) :
    Option (List (Nat × Nat)) :=
  if partitionUnitIsCycle then roundTimeIntervals clock timeIntervals else some timeIntervals

/-- Records before a time, all of them from the last time of the dump on. -/
def recordsBefore (values : List VcdValue) (maxEventTime time : Nat) : Nat :=
  values.countP (takenBefore maxEventTime time)

/-- Behind every interval the same records lie before the furthest end of the report and before that of the run, which
begins anew where an interval begins at 0; there at most one record may have been reached. -/
def SameRecords (before : Nat → Nat) : Nat → Nat → List (Nat × Nat) → List (Nat × Nat) → Prop
  | _, _, [], [] => True
  | seen, seen', interval :: rest, interval' :: rest' =>
    let right := max seen interval.2
    let right' := if interval'.1 = 0 then interval'.2 else max seen' interval'.2
    (interval'.1 = 0 → before seen ≤ 1) ∧ before right = before right' ∧ SameRecords before right right' rest rest'
  | _, _, _, _ => False

/-- The same records are taken in every interval. The first one begins at 0. -/
def SameLoads (before : Nat → Nat) : List (Nat × Nat) → List (Nat × Nat) → Prop
  | [], [] => True
  | interval :: rest, interval' :: rest' =>
    before interval.2 = before interval'.2 ∧ SameRecords before interval.2 interval'.2 rest rest'
  | _, _ => False

section Cursors
variable {before : Nat → Nat}

/-- The counts of the report behind an interval, by the furthest end so far. -/
def reportedFrom (before : Nat → Nat) : Nat → List (Nat × Nat) → List Nat
  | _, [] => []
  | seen, interval :: rest => (before (max seen interval.2) - (before seen - 1)) ::
    reportedFrom before (max seen interval.2) rest

/-- The counts of the loader, by the furthest end since it began at 0. -/
def loadedFrom (before : Nat → Nat) : Nat → List (Nat × Nat) → List Nat
  | _, [] => []
  | seen, interval :: rest =>
    let right := if interval.1 = 0 then interval.2 else max seen interval.2
    (before right - if interval.1 = 0 then 0 else before seen - 1) :: loadedFrom before right rest

def EndsWith (before : Nat → Nat) (all : Nat) (intervals : List (Nat × Nat)) : Prop :=
  ∀ interval, intervals.getLast? = some interval → ∀ time, interval.2 ≤ time → before time = all

theorem EndsWith.tail (ends : EndsWith before all (interval :: rest)) : EndsWith before all rest := by
  intro last final
  cases rest with
  | nil => cases final
  | cons next rest => exact ends last (by rw [List.getLast?_cons_cons,final])

theorem EndsWith.single (ends : EndsWith before all [interval]) (later : interval.2 ≤ time) : before time = all :=
  ends interval rfl time later

/-- A loader that is behind the report stays behind it while the counts agree, and the last end shows it. -/
theorem not_behind (mono : Monotone before) (intervals intervals' : List (Nat × Nat))
    (behind : before seen' < before seen) (past : 2 ≤ before seen) (nonempty : intervals ≠ [])
    (ends : EndsWith before all intervals) (ends' : EndsWith before all intervals') :
    reportedFrom before seen intervals ≠ loadedFrom before seen' intervals' := by
  induction intervals generalizing seen seen' intervals' with
  | nil => exact absurd rfl nonempty
  | cons interval rest ih =>
    cases intervals' with
    | nil => exact List.cons_ne_nil _ _
    | cons interval' rest' =>
      intro equal
      obtain ⟨head, tails⟩ := List.cons.inj equal
      have right := mono (Nat.le_max_left seen interval.2)
      have still : before (if interval'.1 = 0 then interval'.2 else max seen' interval'.2) <
        before (max seen interval.2) := by
        by_cases anew : interval'.1 = 0
        · simp only [if_pos anew] at head ⊢
          omega
        · have right' := mono (Nat.le_max_left seen' interval'.2)
          simp only [if_neg anew] at head ⊢
          omega
      cases rest with
      | nil =>
        cases rest' with
        | nil =>
          have last := ends.single (Nat.le_max_right seen interval.2)
          have later : interval'.2 ≤ if interval'.1 = 0 then interval'.2 else max seen' interval'.2 := by
            split <;> omega
          rw [last,ends'.single later] at still
          exact Nat.lt_irrefl _ still
        | cons next' rest' => cases tails
      | cons next rest =>
        exact ih rest' still (Nat.le_trans past right) (List.cons_ne_nil _ _) ends.tail ends'.tail tails

theorem reportedFrom_eq_iff (mono : Monotone before) (intervals intervals' : List (Nat × Nat))
    (same : before seen = before seen') (ends : EndsWith before all intervals)
    (ends' : EndsWith before all intervals') :
    reportedFrom before seen intervals = loadedFrom before seen' intervals' ↔
    SameRecords before seen seen' intervals intervals' := by
  induction intervals generalizing seen seen' intervals' with
  | nil =>
    cases intervals' with
    | nil => exact ⟨fun _ => trivial, fun _ => rfl⟩
    | cons interval' rest' => exact ⟨fun equal => (by cases equal), False.elim⟩
  | cons interval rest ih =>
    cases intervals' with
    | nil => exact ⟨fun equal => (by cases equal), False.elim⟩
    | cons interval' rest' =>
      have right := mono (Nat.le_max_left seen interval.2)
      rw [reportedFrom,loadedFrom,SameRecords,List.cons.injEq]
      by_cases anew : interval'.1 = 0
      · simp only [if_pos anew,Nat.sub_zero]
        by_cases past : before seen ≤ 1
        · rw [show before seen - 1 = 0 by omega,Nat.sub_zero]
          constructor
          · rintro ⟨head, tails⟩
            exact ⟨fun _ => past, head, (ih rest' head ends.tail ends'.tail).mp tails⟩
          · rintro ⟨-, head, tails⟩
            exact ⟨head, (ih rest' head ends.tail ends'.tail).mpr tails⟩
        · constructor
          · rintro ⟨head, tails⟩
            have behind : before interval'.2 < before (max seen interval.2) := by omega
            cases rest with
            | nil =>
              cases rest' with
              | nil =>
                rw [ends.single (Nat.le_max_right seen interval.2),ends'.single (Nat.le_refl _)] at behind
                exact absurd behind (Nat.lt_irrefl _)
              | cons next' rest' => cases tails
            | cons next rest =>
              exact absurd tails (not_behind mono _ rest' behind (by omega) (List.cons_ne_nil _ _) ends.tail ends'.tail)
          · rintro ⟨few, -⟩
            exact absurd (few anew) past
      · have right' := mono (Nat.le_max_left seen' interval'.2)
        simp only [if_neg anew,← same] at right' ⊢
        constructor
        · rintro ⟨head, tails⟩
          have equal : before (max seen interval.2) = before (max seen' interval'.2) := by omega
          exact ⟨fun zero => absurd zero anew, equal, (ih rest' equal ends.tail ends'.tail).mp tails⟩
        · rintro ⟨-, head, tails⟩
          exact ⟨by rw [head], (ih rest' head ends.tail ends'.tail).mpr tails⟩

end Cursors

section Loads
variable {store : Store} {maxEventTime maxEventNum : Nat} {pins : List (Option Activity)} {loader : Loader}

theorem recordsBefore_mono (values : List VcdValue) (maxEventTime : Nat) :
    Monotone (recordsBefore values maxEventTime) := by
  intro time time' order
  apply List.countP_mono_left
  intro entry _
  simp only [takenBefore,Bool.or_eq_true,decide_eq_true_eq]
  omega

theorem recordsBefore_last (values : List VcdValue) (past : maxEventTime ≤ time) :
    recordsBefore values maxEventTime time = values.length :=
  List.countP_eq_length.mpr fun entry _ => by simp [takenBefore,past]

theorem eventIndexFrom_eq (values : List VcdValue) (time left : Nat) :
    eventIndexFrom values time left = getEventIdxInValues values time left := by
  unfold eventIndexFrom getEventIdxInValues
  by_cases behind : values.length ≤ left
  · rw [if_pos behind,Bisect.lowerBound_of_le behind]
  · rw [if_neg behind]

theorem reportedCounts_cons (activity : Activity) (isFirst : Bool) (prevRightBound : Nat) (interval : Nat × Nat)
    (rest : List (Nat × Nat)) : reportedCounts store maxEventTime activity isFirst prevRightBound (interval :: rest) =
      (endIdxInVcd store maxEventTime interval.2 activity (if isFirst then 0 else prevRightBound) -
        if isFirst then 0 else if 0 < prevRightBound then prevRightBound - 1 else 0) ::
      reportedCounts store maxEventTime activity false
        (endIdxInVcd store maxEventTime interval.2 activity (if isFirst then 0 else prevRightBound)) rest := by
  rw [reportedCounts,eventIndexFrom_eq]
  rfl

theorem reach_recordsBefore (time : Nat) (activity : Activity) :
    reach store maxEventTime time activity = recordsBefore (store activity.vcdValues) maxEventTime time :=
    reach_eq time activity

theorem reportedCounts_rest (dump : DumpStore store) (activity : Activity) (seen : Nat) (intervals : List (Nat × Nat)) :
    reportedCounts store maxEventTime activity false (reach store maxEventTime seen activity) intervals =
      reportedFrom (recordsBefore (store activity.vcdValues) maxEventTime) seen intervals := by
  induction intervals generalizing seen with
  | nil => rfl
  | cons interval rest ih =>
    rw [reportedCounts_cons,reportedFrom]
    simp only [Bool.false_eq_true,if_false]
    rw [endIdxInVcd_from_seen dump,ih,reach_recordsBefore,reach_recordsBefore]
    congr 1
    split <;> omega

theorem reportedCounts_first (dump : DumpStore store) (activity : Activity) (interval : Nat × Nat)
    (rest : List (Nat × Nat)) :
    reportedCounts store maxEventTime activity true 0 (interval :: rest) =
      recordsBefore (store activity.vcdValues) maxEventTime interval.2 ::
        reportedFrom (recordsBefore (store activity.vcdValues) maxEventTime) interval.2 rest := by
  rw [reportedCounts_cons]
  simp only [if_true,Nat.sub_zero]
  rw [endIdxInVcd_eq dump (Or.inr (Nat.zero_le _)),reportedCounts_rest dump,reach_recordsBefore]

theorem LoaderSeen.loadedCount (counted : LoaderSeen store maxEventTime pins loader seen) (dump : DumpStore store)
    (reached : start ≤ seen) (buffer : Nat → Event) (result : LoadResult) (mem : activity ∈ loadedBits store pins) :
    loadedCount store maxEventTime activity ⟨start, stop, loader, buffer, result⟩ =
      recordsBefore (store activity.vcdValues) maxEventTime (if start = 0 then stop else max seen stop) -
        if start = 0 then 0 else recordsBefore (store activity.vcdValues) maxEventTime seen - 1 := by
  have used : activity ∈ loader.used := counted.used.mem_iff.mpr mem
  rw [GTPower.loadedCount,if_pos used]
  dsimp only
  rw [counted.bounds dump reached stop used,reach_recordsBefore]
  dsimp only
  congr 1
  unfold carriedIdx
  by_cases anew : start = 0
  · rw [if_pos anew,if_pos anew,if_pos rfl]
  · rw [if_neg anew,if_neg anew,if_neg (by omega),reach_recordsBefore]

theorem LoaderSeen.loadRest_cons (counted : LoaderSeen store maxEventTime pins loader seen) (dump : DumpStore store)
    (reached : start ≤ seen) (stop : Nat) (rest : List Nat) (buffer : Nat → Event)
    (run : GTPower.loadRest store maxEventTime maxEventNum pins true loader buffer (Cuts.spans start (stop :: rest)) =
      some steps) :
    ∃ result others, LoaderSeen store maxEventTime pins result.loader (if start = 0 then stop else max seen stop) ∧
      stop ≤ (if start = 0 then stop else max seen stop) ∧
      GTPower.loadRest store maxEventTime maxEventNum pins true result.loader result.events (Cuts.spans stop rest) =
        some others ∧
      steps = ⟨start, stop, loader, buffer, result⟩ :: others := by
  rw [Cuts.spans,GTPower.loadRest,if_pos rfl] at run
  rcases counted.load dump reached stop buffer with ⟨-, result, loads, next, -⟩ | ⟨-, fails⟩
  · rw [loads] at run
    obtain ⟨others, later, rfl⟩ := Option.map_eq_some_iff.mp run
    refine ⟨result, others, next, ?_, later, rfl⟩
    split <;> omega
  · rw [fails] at run
    cases run

theorem LoaderSeen.loadedCounts (counted : LoaderSeen store maxEventTime pins loader seen) (dump : DumpStore store)
    (reached : start ≤ seen) (cuts : List Nat) (buffer : Nat → Event)
    (run : GTPower.loadRest store maxEventTime maxEventNum pins true loader buffer (Cuts.spans start cuts) = some steps)
    (mem : activity ∈ loadedBits store pins) : steps.map (GTPower.loadedCount store maxEventTime activity) =
      loadedFrom (recordsBefore (store activity.vcdValues) maxEventTime) seen (Cuts.spans start cuts) := by
  induction cuts generalizing start seen loader buffer steps with
  | nil =>
    obtain rfl := Option.some.inj run
    rfl
  | cons stop rest ih =>
    obtain ⟨result, others, next, onward, later, rfl⟩ := counted.loadRest_cons dump reached stop rest buffer run
    rw [List.map_cons,counted.loadedCount dump reached _ _ mem,ih next onward result.events later,Cuts.spans,loadedFrom]

theorem LoaderSeen.unlisted (counted : LoaderSeen store maxEventTime pins loader seen) (dump : DumpStore store)
    (reached : start ≤ seen) (cuts : List Nat) (buffer : Nat → Event)
    (run : GTPower.loadRest store maxEventTime maxEventNum pins true loader buffer (Cuts.spans start cuts) = some steps)
    (missing : activity ∉ loadedBits store pins) :
    steps.map (GTPower.loadedCount store maxEventTime activity) = List.replicate cuts.length 0 := by
  induction cuts generalizing start seen loader buffer steps with
  | nil =>
    obtain rfl := Option.some.inj run
    rfl
  | cons stop rest ih =>
    obtain ⟨result, others, next, onward, later, rfl⟩ := counted.loadRest_cons dump reached stop rest buffer run
    rw [List.map_cons,ih next onward result.events later,GTPower.loadedCount,
      if_neg (mt counted.used.mem_iff.mp missing)]
    rfl

theorem loadRun_counts (activity : Activity) (dump : DumpStore store) (permutes : ∀ bits, (shuffle bits).Perm bits)
    (stop : Nat) (cuts : List Nat) (buffer : Nat → Event)
    (run : loadRun store maxEventTime maxEventNum pins shuffle true buffer (Cuts.spans 0 (stop :: cuts)) = some steps) :
    (activity ∈ loadedBits store pins → steps.map (loadedCount store maxEventTime activity) =
      loadedFrom (recordsBefore (store activity.vcdValues) maxEventTime) 0 (Cuts.spans 0 (stop :: cuts))) ∧
    (activity ∉ loadedBits store pins → steps.map (loadedCount store maxEventTime activity) =
    List.replicate (cuts.length + 1) 0) := by
  have start := LoaderSeen.init store maxEventTime pins
  rw [Cuts.spans,loadRun] at run
  dsimp only at run
  rcases start.load dump (Nat.le_refl 0) stop buffer with ⟨-, result, loads, next, -⟩ | ⟨-, fails⟩
  · rw [if_pos rfl] at next
    rw [loads] at run
    obtain ⟨others, later, rfl⟩ := Option.map_eq_some_iff.mp run
    have shuffled := next.shuffle (permutes _)
    constructor
    · intro mem
      rw [List.map_cons,start.loadedCount dump (Nat.le_refl 0) _ _ mem,
        shuffled.loadedCounts dump (Nat.le_refl _) cuts result.events later mem,Cuts.spans,loadedFrom]
      rfl
    · intro missing
      rw [List.map_cons,shuffled.unlisted dump (Nat.le_refl _) cuts result.events later missing,loadedCount,
        if_neg (mt start.used.mem_iff.mp missing)]
      rfl
  · rw [fails] at run
    cases run

end Loads

section Totals
variable {before : Nat → Nat} {store : Store} {maxEventTime maxEventNum : Nat} {pins : List (Option Activity)}

theorem reportedFrom_none (none : ∀ time, before time = 0) (seen : Nat) (intervals : List (Nat × Nat)) :
    reportedFrom before seen intervals = List.replicate intervals.length 0 := by
  induction intervals generalizing seen with
  | nil => rfl
  | cons interval rest ih =>
    rw [reportedFrom,ih,none,Nat.zero_sub]
    rfl

theorem all_eq_zero (intervals : List (Nat × Nat)) (start : before seen = 0) (nonempty : intervals ≠ [])
    (ends : EndsWith before all intervals) (none : reportedFrom before seen intervals = List.replicate count 0) :
    all = 0 := by
  induction intervals generalizing seen count with
  | nil => exact absurd rfl nonempty
  | cons interval rest ih =>
    have zeros := List.eq_replicate_iff.mp none
    have head := zeros.2 _ (List.mem_cons_self ..)
    rw [start] at head
    cases rest with
    | nil =>
      rw [← ends.single (Nat.le_max_right seen interval.2)]
      exact head
    | cons next rest =>
      refine ih head (List.cons_ne_nil _ _) ends.tail (List.eq_replicate_iff.mpr ⟨rfl, fun count mem => ?_⟩)
      exact zeros.2 count (List.mem_cons_of_mem _ mem)

theorem endsWith_spans (values : List VcdValue) (start : Nat) (cuts : List Nat) (last : maxEventTime ≤ cut) :
    EndsWith (recordsBefore values maxEventTime) values.length (Cuts.spans start (cuts ++ [cut])) := by
  intro interval final time later
  rw [Cuts.spans_concat,List.getLast?_concat] at final
  obtain rfl := Option.some.inj final
  exact recordsBefore_last values (Nat.le_trans last later)

/-- The intervals of the run are those of the dump with every cut moved to the same or a later time. -/
theorem cudaTimeIntervals_spans
    (moved : cudaTimeIntervals clock partitionUnitIsCycle (Cuts.spans 0 cuts) = some intervals) :
    ∃ move : Nat → Nat, (∀ time, time ≤ move time) ∧ intervals = Cuts.spans 0 (cuts.map move) := by
  unfold cudaTimeIntervals at moved
  split at moved
  · obtain ⟨-, rfl⟩ := (roundTimeIntervals_spans _ _ _).mp moved
    exact ⟨clock.roundUp, clock.le_roundUp, by rw [clock.roundUp_zero]⟩
  · obtain rfl := Option.some.inj moved
    exact ⟨id, fun time => Nat.le_refl time, by rw [List.map_id]⟩

theorem length_spans (start : Nat) (cuts : List Nat) : (Cuts.spans start cuts).length = cuts.length := by
  induction cuts generalizing start with
  | nil => rfl
  | cons cut rest ih => rw [Cuts.spans,List.length_cons,ih,List.length_cons]

theorem mem_loadedBits (pin : some activity ∈ pins) : activity ∈ loadedBits store pins ↔
    activity.valueBit < ((store activity.vcdValues).head?.map VcdValue.busWidth).getD 0 := by
  rw [loadedBits,List.mem_filter,List.mem_dedup,List.mem_filterMap,decide_eq_true_eq]
  exact ⟨And.right, fun listed => ⟨⟨_, pin, rfl⟩, listed⟩⟩

theorem reportedCounts_eq_iff (dump : DumpStore store) (permutes : ∀ bits, (shuffle bits).Perm bits) (stop stop' : Nat)
    (cuts cuts' : List Nat) (long : cuts'.length = cuts.length) (buffer : Nat → Event)
    (ends : EndsWith (recordsBefore (store activity.vcdValues) maxEventTime) (store activity.vcdValues).length
      (Cuts.spans 0 (stop :: cuts)))
    (ends' : EndsWith (recordsBefore (store activity.vcdValues) maxEventTime) (store activity.vcdValues).length
      (Cuts.spans 0 (stop' :: cuts')))
    (run : loadRun store maxEventTime maxEventNum pins shuffle true buffer (Cuts.spans 0 (stop' :: cuts')) = some steps)
    (pin : some activity ∈ pins) :
    reportedCounts store maxEventTime activity true 0 (Cuts.spans 0 (stop :: cuts)) =
    steps.map (loadedCount store maxEventTime activity) ↔
      store activity.vcdValues = [] ∨
        activity.valueBit < ((store activity.vcdValues).head?.map VcdValue.busWidth).getD 0 ∧
        SameLoads (recordsBefore (store activity.vcdValues) maxEventTime) (Cuts.spans 0 (stop :: cuts))
          (Cuts.spans 0 (stop' :: cuts')) := by
  have mono := recordsBefore_mono (store activity.vcdValues) maxEventTime
  obtain ⟨counted, uncounted⟩ := loadRun_counts activity dump permutes stop' cuts' buffer run
  rw [Cuts.spans] at ends ends' ⊢
  rw [reportedCounts_first dump]
  by_cases listed : activity.valueBit < ((store activity.vcdValues).head?.map VcdValue.busWidth).getD 0
  · have valued : store activity.vcdValues ≠ [] := fun empty => by simp [empty] at listed
    rw [counted ((mem_loadedBits pin).mpr listed),or_iff_right valued,and_iff_right listed,Cuts.spans,
      loadedFrom,SameLoads]
    simp only [if_true,Nat.sub_zero,List.cons.injEq]
    refine and_congr_right fun same => ?_
    exact reportedFrom_eq_iff mono _ _ same ends.tail ends'.tail
  · rw [uncounted (mt (mem_loadedBits pin).mp listed)]
    constructor
    · intro none
      obtain ⟨head, tail⟩ := List.cons.inj none
      left
      cases cuts with
      | nil => exact List.length_eq_zero_iff.mp ((ends.single (Nat.le_refl _)).symm.trans head)
      | cons next cuts => exact List.length_eq_zero_iff.mp (all_eq_zero _ head (List.cons_ne_nil _ _) ends.tail tail)
    · rintro (empty | ⟨low, -⟩)
      · have none : ∀ time, recordsBefore (store activity.vcdValues) maxEventTime time = 0 :=
          fun time => by rw [empty]; rfl
        rw [none,reportedFrom_none none,length_spans,long]
        rfl
      · exact absurd low listed

end Totals

/-- The report counts what the loader takes in every interval and for every bit of the pins exactly if the values of the
bit are listed and moving the cuts passes no record of it; a bit without values is counted right anyway. -/
theorem workloadReport_iff (clock : Clock) (partitionUnitIsCycle : Bool) (maxEventNum bufferSize : Nat)
    (pins : List (Option Activity)) (shuffle : List Activity → List Activity)
    (permutes : ∀ bits, (shuffle bits).Perm bits) (buffer : Nat → Event) (fresh : Fresh vcd)
    (accepted : vcd.parseVarValues maxEventNum words = some out) (ids : Nat → Token)
    (moved : cudaTimeIntervals clock partitionUnitIsCycle out.timeIntervals = some intervals)
    (run : loadRun (out.store ids) out.timeMax bufferSize pins shuffle true buffer intervals = some steps) :
    (∀ activity, some activity ∈ pins → reportedCounts (out.store ids) out.timeMax activity true 0 out.timeIntervals =
        steps.map (loadedCount (out.store ids) out.timeMax activity)) ↔
      ∀ activity, some activity ∈ pins → out.store ids activity.vcdValues = [] ∨
        activity.valueBit < ((out.store ids activity.vcdValues).head?.map VcdValue.busWidth).getD 0 ∧
        SameLoads (recordsBefore (out.store ids activity.vcdValues) out.timeMax) out.timeIntervals intervals := by
  have dump := Vcd.store_dump fresh accepted ids
  obtain ⟨-, groups, -, -, sliced⟩ := parseVarValues_intervals fresh accepted
  rw [sliced] at moved ⊢
  obtain ⟨move, later, rfl⟩ := cudaTimeIntervals_spans moved
  refine forall_congr' fun activity => forall_congr' fun pin => ?_
  have mono := recordsBefore_mono (out.store ids activity.vcdValues) out.timeMax
  have ends := endsWith_spans (out.store ids activity.vcdValues) 0 (groups.map lastStamp) (Nat.le_succ out.timeMax)
  have ends' := endsWith_spans (out.store ids activity.vcdValues) 0 ((groups.map lastStamp).map move)
    (Nat.le_trans (Nat.le_succ out.timeMax) (later _))
  rw [List.map_append,List.map_singleton] at run ⊢
  cases groups with
  | nil => exact reportedCounts_eq_iff dump permutes _ _ [] [] rfl buffer ends ends' run pin
  | cons group groups =>
    exact reportedCounts_eq_iff dump permutes (lastStamp group) (move (lastStamp group))
      (groups.map lastStamp ++ [out.timeMax + 1])
      ((groups.map lastStamp).map move ++ [move (out.timeMax + 1)]) (by simp) buffer ends ends' run pin

theorem twoWires_run : ∃ out steps, twoWires.vcd.parseVarValues 3 twoWireWords = some out ∧
    out.timeIntervals = [(0, 12), (12, 26)] ∧
    cudaTimeIntervals (tenTickClock 25) true out.timeIntervals = some [(0, 20), (20, 30)] ∧
    out.store (fun _ => ['!']) 0 = [⟨0, some .zero, 0, 1⟩, ⟨12, some .one, 0, 1⟩, ⟨25, some .zero, 0, 1⟩] ∧
    out.timeMax = 25 ∧
    loadRun (out.store fun _ => ['!']) out.timeMax 3 [some ⟨0, 0⟩] List.reverse true (fun _ => ⟨0, 0⟩) [(0, 20),
    (20, 30)] = some steps := by
  obtain ⟨out, accepted, sliced, moved, values, time, fits⟩ :
    ∃ out, twoWires.vcd.parseVarValues 3 twoWireWords = some out ∧
      out.timeIntervals = [(0, 12), (12, 26)] ∧ cudaTimeIntervals (tenTickClock 25) true out.timeIntervals =
        some [(0, 20), (20, 30)] ∧
      out.store (fun _ => ['!']) 0 = [⟨0, some .zero, 0, 1⟩, ⟨12, some .one, 0, 1⟩, ⟨25, some .zero, 0, 1⟩] ∧
        out.timeMax = 25 ∧
      (loadRun (out.store fun _ => ['!']) out.timeMax 3 [some ⟨0, 0⟩] List.reverse true (fun _ => ⟨0, 0⟩) [(0, 20),
        (20, 30)]).isSome :=
    ⟨_, rfl, by decide +kernel, by decide +kernel, by decide +kernel, by decide +kernel, by decide +kernel⟩
  obtain ⟨steps, run⟩ := Option.isSome_iff_exists.mp fits
  exact ⟨out, steps, accepted, sliced, moved, values, time, run⟩

theorem workloadReport_twoWires : ∃ (out : Vcd) (steps : List LoadStep),
    twoWires.vcd.parseVarValues 3 twoWireWords = some out ∧
    ((∀ activity, some activity ∈ [some (⟨0, 0⟩ : Activity)] →
        reportedCounts (out.store fun _ => ['!']) out.timeMax activity true 0 out.timeIntervals =
          steps.map (loadedCount (out.store fun _ => ['!']) out.timeMax activity)) ↔
      ∀ activity, some activity ∈ [some (⟨0, 0⟩ : Activity)] → out.store (fun _ => ['!']) activity.vcdValues = [] ∨
        activity.valueBit < ((out.store (fun _ => ['!']) activity.vcdValues).head?.map VcdValue.busWidth).getD 0 ∧
        SameLoads (recordsBefore (out.store (fun _ => ['!']) activity.vcdValues) out.timeMax) out.timeIntervals
          [(0, 20), (20, 30)]) := by
  obtain ⟨out, steps, accepted, -, moved, -, -, run⟩ := twoWires_run
  have fresh : Fresh twoWires.vcd := fresh_makeVar (fresh_makeVar fresh_init _) _
  exact ⟨out, steps, accepted, workloadReport_iff (tenTickClock 25) true 3 3 [some ⟨0, 0⟩] List.reverse
    List.reverse_perm
    (fun _ => ⟨0, 0⟩) fresh accepted (fun _ => ['!']) moved run⟩

/-- The report counts 1 and 3 records, and 2 are loaded for each interval. -/
theorem workloadReport_moved : ∃ out steps, twoWires.vcd.parseVarValues 3 twoWireWords = some out ∧
    loadRun (out.store fun _ => ['!']) out.timeMax 3 [some ⟨0, 0⟩] List.reverse true (fun _ => ⟨0, 0⟩) [(0, 20),
    (20, 30)] = some steps ∧
    reportedCounts (out.store fun _ => ['!']) out.timeMax ⟨0, 0⟩ true 0 out.timeIntervals = [1, 3] ∧
    steps.map (loadedCount (out.store fun _ => ['!']) out.timeMax ⟨0, 0⟩) = [2, 2] := by
  obtain ⟨out, steps, accepted, sliced, -, values, time, run⟩ := twoWires_run
  have fresh : Fresh twoWires.vcd := fresh_makeVar (fresh_makeVar fresh_init _) _
  have counted := (loadRun_counts ⟨0, 0⟩ (Vcd.store_dump fresh accepted _) List.reverse_perm 20 [30] _ run).1
  have listed : (⟨0, 0⟩ : Activity) ∈ loadedBits (out.store fun _ => ['!']) [some ⟨0, 0⟩] := by
    rw [mem_loadedBits (List.mem_singleton_self _),values]
    decide
  refine ⟨out, steps, accepted, run, ?_, ?_⟩
  · rw [sliced,time]
    unfold reportedCounts reportedCounts reportedCounts
    rw [values]
    decide
  · rw [counted listed,values,time]
    decide

end GTPower
