import GTPower.FsdbReader
import GTPower.TimeIntervals

/-! What the loader over the bit list takes for each interval, against the room of the event buffer. -/
namespace GTPower

/-- Whether the intervals up to `time` take a value. From the last time of the dump on they take all. -/
def takenBefore (maxEventTime time : Nat) (entry : VcdValue) : Bool := entry.time < time || maxEventTime ≤ time

/-- Bits shown by the pins, each once, as far as the first value of their variable has them. -/
def loadedBits (store : Store) (pins : List (Option Activity)) : List Activity :=
  (pins.filterMap id).dedup.filter fun activity => activity.valueBit <
    ((store activity.vcdValues).head?.map VcdValue.busWidth).getD 0

section Window
variable (store : Store) (maxEventTime maxEventNum : Nat) (pins : List (Option Activity))

/-- Values of a bit between two times, and the carried one. -/
def windowRecords (start stop : Nat) (activity : Activity) : Nat :=
  let values := store activity.vcdValues
  if start = 0 then values.countP (takenBefore maxEventTime stop)
  else values.countP (fun entry => takenBefore maxEventTime stop entry && !takenBefore maxEventTime start entry) +
    if values.any (takenBefore maxEventTime start) then 1 else 0

def windowLoad (start stop : Nat) : Nat :=
  Blocks.total (windowRecords store maxEventTime start stop) (loadedBits store pins)

/-- Every interval fits. What lies before the furthest end so far is not loaded again, but an interval that begins
at 0 begins anew. -/
def WithinBudget : Nat → List (Nat × Nat) → Prop
  | _, [] => True
  | seen, (start, stop) :: rest =>
    let left := if start = 0 then 0 else seen
    let right := if start = 0 then stop else max seen stop
    windowLoad store maxEventTime pins left right ≤ maxEventNum ∧ WithinBudget right rest

variable {store maxEventTime maxEventNum pins}

theorem countP_diff (values : List VcdValue) {early late : VcdValue → Bool}
    (within : ∀ entry, early entry → late entry) :
    values.countP late = values.countP early + values.countP fun entry => late entry && !early entry := by
  induction values with
  | nil => rfl
  | cons entry rest ih =>
    have here := within entry
    rw [List.countP_cons,List.countP_cons,List.countP_cons,ih]
    cases first : early entry with
    | true =>
      rw [here first]
      simp
      omega
    | false =>
      cases late entry with
      | true => simp; omega
      | false => simp

theorem reach_eq (time : Nat) (activity : Activity) :
    reach store maxEventTime time activity = (store activity.vcdValues).countP (takenBefore maxEventTime time) := by
  unfold reach
  split
  case isTrue past =>
    symm
    exact List.countP_eq_length.mpr fun entry _ => by simp [takenBefore,past]
  case isFalse early => exact List.countP_congr fun entry _ => by simp [takenBefore,early]

theorem windowRecords_eq (order : start ≤ stop) (activity : Activity) :
    windowRecords store maxEventTime start stop activity =
    reach store maxEventTime stop activity - carriedIdx store maxEventTime start activity := by
  unfold windowRecords carriedIdx
  dsimp only
  by_cases first : start = 0
  · rw [if_pos first,if_pos first,reach_eq,Nat.sub_zero]
  · have within : ∀ entry, takenBefore maxEventTime start entry → takenBefore maxEventTime stop entry := by
      intro entry
      simp only [takenBefore,Bool.or_eq_true,decide_eq_true_eq]
      omega
    rw [if_neg first,if_neg first,reach_eq,reach_eq,countP_diff (store activity.vcdValues) within]
    have some : (store activity.vcdValues).any (takenBefore maxEventTime start) = true ↔
        0 < (store activity.vcdValues).countP (takenBefore maxEventTime start) := by
      rw [List.countP_pos_iff,List.any_eq_true]
    by_cases carried : (store activity.vcdValues).any (takenBefore maxEventTime start) = true
    · have positive := some.mp carried
      rw [if_pos carried,Nat.add_comm,Nat.sub_sub_right _ positive]
      omega
    · have none := Nat.eq_zero_of_not_pos fun positive => carried (some.mpr positive)
      rw [if_neg carried,none]
      omega

end Window

section Load
variable {store : Store} {maxEventTime maxEventNum : Nat} {pins : List (Option Activity)} {loader : Loader}

theorem endIdxInVcd_from_seen (dump : DumpStore store) (seen stop : Nat) (activity : Activity) :
    endIdxInVcd store maxEventTime stop activity (reach store maxEventTime seen activity) =
      reach store maxEventTime (max seen stop) activity := by
  rcases Nat.le_total seen stop with order | order
  · rw [Nat.max_eq_right order]
    exact endIdxInVcd_from_reach dump order activity
  · have monotone := reach_mono store maxEventTime order activity
    rw [Nat.max_eq_left order,endIdxInVcd]
    by_cases past : maxEventTime ≤ stop
    · rw [if_pos past,reach,if_pos (Nat.le_trans past order)]
    · rw [if_neg past,getEventIdxInValues]
      have before : ∀ i, reach store maxEventTime seen activity ≤ i → i < (store activity.vcdValues).length →
          ¬ timeAt (store activity.vcdValues) i < stop := by
        intro i reached inside early
        have less := (lt_valuesBefore_iff (dump _).increasing inside).mpr early
        rw [reach,if_neg past] at monotone
        omega
      refine Bisect.lowerBound_eq ?_ (Nat.le_refl _) (reach_le _ _) (fun i low high => absurd high (Nat.not_lt.mpr low))
        fun i low high early => before i low high (of_decide_eq_true early)
      intro i j low order high early
      exact absurd (of_decide_eq_true early) (before j (by omega) high)

structure LoaderSeen (store : Store) (maxEventTime : Nat) (pins : List (Option Activity)) (loader : Loader)
    (seen : Nat) : Prop where
  used : loader.used.Perm (loadedBits store pins)
  cursor : 0 < seen → ∀ activity ∈ loader.used, loader.prevRightBound activity =
    some (reach store maxEventTime seen activity)

theorem LoaderSeen.bounds (counted : LoaderSeen store maxEventTime pins loader seen) (dump : DumpStore store)
    (reached : start ≤ seen)
    (stop : Nat) (mem : activity ∈ loader.used) : boundsInVcd store maxEventTime start stop loader activity =
      (carriedIdx store maxEventTime (if start = 0 then 0 else seen) activity,
        reach store maxEventTime (if start = 0 then stop else max seen stop) activity) := by
  unfold boundsInVcd carriedIdx
  dsimp only
  by_cases first : start = 0
  · simp only [if_pos first]
    rw [endIdxInVcd_eq dump (Or.inr (Nat.zero_le _)),if_pos trivial]
  · have later : 0 < seen := by omega
    simp only [if_neg first,counted.cursor later activity mem,Option.getD_some,Nat.ne_of_gt later,if_false]
    rw [endIdxInVcd_from_seen dump]
    split
    · rfl
    · rw [show reach store maxEventTime seen activity - 1 = 0 by omega]

theorem LoaderSeen.load (counted : LoaderSeen store maxEventTime pins loader seen) (dump : DumpStore store)
    (reached : start ≤ seen) (stop : Nat) (buffer : Nat → Event) :
    (windowLoad store maxEventTime pins (if start = 0 then 0 else seen) (if start = 0 then stop else max seen stop) ≤
    maxEventNum ∧
      ∃ result, getGateWaveformRangeMultiThread store maxEventTime maxEventNum start stop pins loader buffer =
        some result ∧
        LoaderSeen store maxEventTime pins result.loader (if start = 0 then stop else max seen stop) ∧
        result.loader.vcdValuesBitPairList = loader.vcdValuesBitPairList) ∨
    ¬ windowLoad store maxEventTime pins (if start = 0 then 0 else seen) (if start = 0 then stop else max seen stop) ≤
    maxEventNum ∧
      getGateWaveformRangeMultiThread store maxEventTime maxEventNum start stop pins loader buffer = none := by
  have order : (if start = 0 then 0 else seen) ≤ (if start = 0 then stop else max seen stop) := by
    split <;> omega
  have size : Blocks.total (fun activity => (boundsInVcd store maxEventTime start stop loader activity).2 -
      (boundsInVcd store maxEventTime start stop loader activity).1) loader.used =
        windowLoad store maxEventTime pins (if start = 0 then 0 else seen) (if start = 0 then stop
          else max seen stop) := by
    have each : Blocks.total (fun activity => (boundsInVcd store maxEventTime start stop loader activity).2 -
        (boundsInVcd store maxEventTime start stop loader activity).1) loader.used =
          Blocks.total (windowRecords store maxEventTime (if start = 0 then 0 else seen)
            (if start = 0 then stop else max seen stop)) loader.used :=
      congrArg List.sum (List.map_congr_left fun activity mem => by
        rw [counted.bounds dump reached stop mem,windowRecords_eq order])
    rw [each]
    exact (counted.used.map _).sum_eq
  rw [getGateWaveformRangeMultiThread]
  dsimp only
  rw [size]
  by_cases fits : windowLoad store maxEventTime pins (if start = 0 then 0 else seen)
      (if start = 0 then stop else max seen stop) ≤ maxEventNum
  · left
    rw [if_neg (Nat.not_lt.mpr fits)]
    refine ⟨fits, _, rfl, ⟨?_, fun _ activity mem => ?_⟩, rfl⟩
    · refine List.Perm.trans (List.Perm.of_eq ?_) counted.used
      refine List.filter_congr fun activity listed => ?_
      dsimp only
      split
      case isTrue mem =>
        have shown := (List.mem_filter.mp mem).2
        simp [shown]
      case isFalse => rfl
    · have old : activity ∈ loader.used := by
        refine List.mem_filter.mpr ⟨(List.mem_filter.mp mem).1, ?_⟩
        have shown := (List.mem_filter.mp mem).2
        dsimp only at shown
        split at shown
        case isTrue mem => exact (List.mem_filter.mp mem).2
        case isFalse => exact shown
      dsimp only
      rw [if_pos old,counted.bounds dump reached stop old]
  · right
    exact ⟨fits, if_pos (Nat.lt_of_not_le fits)⟩

theorem LoaderSeen.shuffle (counted : LoaderSeen store maxEventTime pins loader seen)
    (perm : bits.Perm loader.vcdValuesBitPairList) :
    LoaderSeen store maxEventTime pins { loader with vcdValuesBitPairList := bits } seen where
  used := (perm.filter _).trans counted.used
  cursor later activity mem := counted.cursor later activity ((perm.filter _).mem_iff.mp mem)

theorem LoaderSeen.init (store : Store) (maxEventTime : Nat) (pins : List (Option Activity)) :
    LoaderSeen store maxEventTime pins (Loader.init store pins) 0 := by
  have added := PinsAdded.init store pins
  refine ⟨?_, fun later => absurd later (Nat.lt_irrefl 0)⟩
  refine (List.perm_ext_iff_of_nodup (added.nodup_listed.filter _) ((List.nodup_dedup _).filter _)).mpr
    fun activity => ?_
  rw [List.mem_filter,added.shown,added.listed,List.mem_filter,List.mem_dedup,List.mem_filterMap,decide_eq_true_eq]
  constructor
  · rintro ⟨listed, shown⟩
    obtain ⟨ptr, -, bit⟩ := List.mem_flatMap.mp listed
    obtain ⟨valueBit, low, rfl⟩ := List.mem_map.mp bit
    exact ⟨⟨_, shown, rfl⟩, List.mem_range.mp low⟩
  · rintro ⟨⟨_, shown, rfl⟩, low⟩
    exact ⟨List.mem_flatMap.mpr ⟨_, added.registered activity shown, List.mem_map.mpr ⟨_, List.mem_range.mpr low, rfl⟩⟩,
      shown⟩

theorem LoaderSeen.loadRest (counted : LoaderSeen store maxEventTime pins loader seen) (dump : DumpStore store)
    (reached : start ≤ seen) (cuts : List Nat) (buffer : Nat → Event) :
    (loadRest store maxEventTime maxEventNum pins true loader buffer (Cuts.spans start cuts)).isSome ↔
      WithinBudget store maxEventTime maxEventNum pins seen (Cuts.spans start cuts) := by
  induction cuts generalizing start seen loader buffer with
  | nil => exact ⟨fun _ => trivial, fun _ => rfl⟩
  | cons stop rest ih =>
    rw [Cuts.spans,GTPower.loadRest,WithinBudget]
    rw [if_pos rfl]
    rcases counted.load dump reached stop buffer with ⟨fits, result, loads, next, -⟩ | ⟨exceeds, fails⟩
    · have onward : stop ≤ if start = 0 then stop else max seen stop := by
        split <;> omega
      rw [loads,← ih next onward result.events]
      simp only [Option.isSome_map]
      exact ⟨fun done => ⟨fits, done⟩, And.right⟩
    · rw [fails]
      exact ⟨fun done => (by cases done), fun within => absurd within.1 exceeds⟩

theorem loadRun_isSome_iff (dump : DumpStore store) (cuts : List Nat) (permutes : ∀ bits, (shuffle bits).Perm bits)
    (buffer : Nat → Event) :
    (loadRun store maxEventTime maxEventNum pins shuffle true buffer (Cuts.spans 0 cuts)).isSome ↔
      WithinBudget store maxEventTime maxEventNum pins 0 (Cuts.spans 0 cuts) := by
  cases cuts with
  | nil => exact ⟨fun _ => trivial, fun _ => rfl⟩
  | cons stop rest =>
    rw [Cuts.spans,loadRun,WithinBudget]
    dsimp only
    rcases (LoaderSeen.init store maxEventTime pins).load dump (Nat.le_refl 0) stop buffer with
      ⟨fits, result, loads, next, -⟩ | ⟨exceeds, fails⟩
    · rw [if_pos rfl] at next fits
      rw [loads,if_pos rfl,if_pos rfl,← (next.shuffle (permutes _)).loadRest dump (Nat.le_refl stop) rest result.events]
      simp only [Option.isSome_map]
      exact ⟨fun done => ⟨fits, done⟩, And.right⟩
    · rw [fails]
      exact ⟨fun done => (by cases done), fun within => absurd within.1 exceeds⟩

end Load

section Readers

theorem parseRecords_stored {loop last : ValueLoop} {records : List Record}
    (run : records.foldlM (ValueLoop.parseRecord maxEventNum) loop = some last)
    (stored : ∀ id values, loop.idValues id = some values → Stored values) :
    ∀ id values, last.idValues id = some values → Stored values := by
  induction records generalizing loop with
  | nil =>
    obtain rfl := Option.some.inj run
    exact stored
  | cons record rest ih =>
    rw [List.foldlM_cons] at run
    obtain ⟨next, step, run⟩ := Option.bind_eq_some_iff.mp run
    refine ih run ?_
    have appended : ∀ {id : Token} {change : VarChange} {n : Nat},
        (loop.append id change).map (ValueLoop.countRecords maxEventNum · n) = some next →
        ∀ other values, next.idValues other = some values → Stored values := by
      intro id change n step other values found
      obtain ⟨middle, applied, rfl⟩ := Option.map_eq_some_iff.mp step
      rw [ValueLoop.append] at applied
      obtain ⟨old, present, applied⟩ := Option.bind_eq_some_iff.mp applied
      obtain ⟨new, parsed, applied⟩ := Option.bind_eq_some_iff.mp applied
      obtain rfl := Option.some.inj applied
      by_cases same : other = id
      · subst same
        simp only [ValueLoop.countRecords,Function.update_self,Option.some.injEq] at found
        exact found ▸ (parseVarValue_stored (stored _ old present) change parsed).1
      · simp only [ValueLoop.countRecords,Function.update_of_ne same] at found
        exact stored other values found
    cases record with
    | marker time =>
      cases time with
      | none => cases step
      | some time =>
        cases time with
        | ofNat time =>
          obtain rfl := Option.some.inj step
          exact stored
        | negSucc time => cases step
    | scalar value id => exact appended step
    | vector text id => exact appended step
    | ignored =>
      obtain rfl := Option.some.inj step
      exact stored

/-- The values behind each pointer, by the id of its variable. -/
def Vcd.store (vcd : Vcd) (ids : Nat → Token) : Store := fun ptr => (vcd.idValues (ids ptr)).getD []

theorem stored_nil : Stored [] := ⟨fun _ head => (by cases head), List.Pairwise.nil⟩

theorem Vcd.store_dump (fresh : Fresh vcd) (accepted : vcd.parseVarValues maxEventNum words = some out)
    (ids : Nat → Token) :
    DumpStore (out.store ids) := by
  obtain ⟨last, run, rfl⟩ := (parseVarValues_eq_some fresh).mp accepted
  have stored := parseRecords_stored run fun id values found => by
    rw [fresh.empty id values found]
    exact stored_nil
  intro ptr
  show Stored ((last.idValues (ids ptr)).getD [])
  cases found : last.idValues (ids ptr) with
  | none => exact stored_nil
  | some values => exact stored _ values found

theorem FsdbVar.readChanges_stored {var : FsdbVar} {changes : List (Nat × (Nat → FsdbBit))} (stored : Stored values)
    (read : var.readChanges clock timeMax changes (values, counts) = some (values', counts')) : Stored values' := by
  induction changes generalizing values counts with
  | nil =>
    obtain ⟨rfl, -⟩ := Prod.mk.inj (Option.some.inj read)
    exact stored
  | cons change rest ih =>
    obtain ⟨time, vcPtr⟩ := change
    rw [FsdbVar.readChanges] at read
    split at read
    case isTrue =>
      obtain ⟨rfl, -⟩ := Prod.mk.inj (Option.some.inj read)
      exact stored
    case isFalse =>
      obtain ⟨change, -, read⟩ := Option.bind_eq_some_iff.mp read
      obtain ⟨next, parsed, read⟩ := Option.bind_eq_some_iff.mp read
      obtain ⟨counts, -, read⟩ := Option.bind_eq_some_iff.mp read
      exact ih (parseVarValue_stored stored change parsed).1 read

theorem readVarChanges_stored (read : readVarChanges clock timeMax vars counts = some (store, counts')) :
    ∀ values ∈ store, Stored values := by
  induction vars generalizing counts store counts' with
  | nil =>
    obtain ⟨rfl, -⟩ := Prod.mk.inj (Option.some.inj read)
    simp
  | cons var rest ih =>
    rw [readVarChanges] at read
    obtain ⟨⟨values, middle⟩, first, read⟩ := Option.bind_eq_some_iff.mp read
    obtain ⟨⟨others, final⟩, later, read⟩ := Option.map_eq_some_iff.mp read
    obtain ⟨rfl, -⟩ := Prod.mk.inj read
    rw [List.forall_mem_cons]
    exact ⟨FsdbVar.readChanges_stored stored_nil first, ih later⟩

def FsdbDump.store (dump : FsdbDump) : Store := fun ptr => dump.values.getD ptr []

/-- The cuts of the reader of the dump, moved to the cycles of the clock. -/
def RoundedCuts (clock : Clock) (maxEventNum : Nat) (changes : List (Nat × Nat)) (cuts : List Nat) : Prop :=
  ∃ groups rest, Cuts.Split Prod.snd maxEventNum groups rest changes ∧
    cuts = (groups.map lastStamp ++ [lastStamp changes + 1]).map clock.roundUp

/-- Both readers, and the loader over the bit list in every interval: there is no overflow exactly when the records
between two cuts in a row and the carried ones fit. -/
theorem eventBudget_iff (clock : Clock) (maxEventNum : Nat) (pins : List (Option Activity))
    (shuffle : List Activity → List Activity) (permutes : ∀ bits, (shuffle bits).Perm bits) (buffer : Nat → Event) :
    (∀ (vcd out : Vcd) (words : List Token) (ids : Nat → Token) (intervals : List (Nat × Nat)), Fresh vcd →
      vcd.parseVarValues maxEventNum words = some out → roundTimeIntervals clock out.timeIntervals = some intervals →
      ((loadRun (out.store ids) out.timeMax maxEventNum pins shuffle true buffer intervals).isSome ↔
        ∀ cuts, RoundedCuts clock maxEventNum (stamps 0 (valueRecords words)) cuts →
          WithinBudget (out.store ids) out.timeMax maxEventNum pins 0 (Cuts.spans 0 cuts))) ∧
    ∀ (rawMaxTime : Nat) (vars : List FsdbVar) (values : List (List VcdValue)) (cycIdxToNEvent : List Nat)
    (dump : FsdbDump),
      readVarChanges clock (fsdbMaxTime clock rawMaxTime) vars
        (List.replicate (ceilDiv (fsdbMaxTime clock rawMaxTime) clock.vcdTimeUnitPerCycle) 0) =
          some (values, cycIdxToNEvent) →
      readFsdb clock maxEventNum rawMaxTime vars = some dump →
      ((loadRun dump.store dump.timeMax maxEventNum pins shuffle true buffer dump.timeIntervals).isSome ↔
        ∀ cuts, CycleCuts maxEventNum cycIdxToNEvent cuts →
          WithinBudget dump.store dump.timeMax maxEventNum pins 0
            (Cuts.spans 0 (cuts.map (· * clock.vcdTimeUnitPerCycle)))) := by
  constructor
  · intro vcd out words ids intervals fresh accepted rounded
    obtain ⟨time, groups, rest, split, sliced⟩ := parseVarValues_intervals fresh accepted
    rw [sliced] at rounded
    obtain ⟨-, rfl⟩ := (roundTimeIntervals_spans _ _ _).mp rounded
    rw [clock.roundUp_zero,loadRun_isSome_iff (Vcd.store_dump fresh accepted ids) _ permutes]
    refine ⟨fun within cuts rounds => ?_, fun all => all _ ⟨groups, rest, split, by rw [← time]⟩⟩
    obtain ⟨groups', rest', split', rfl⟩ := rounds
    obtain ⟨rfl, -⟩ := split.unique split'
    rwa [← time]
  · intro rawMaxTime vars values cycIdxToNEvent dump counted read
    rw [readFsdb] at read
    dsimp only at read
    rw [counted] at read
    obtain ⟨timeIntervals, sliced, rfl⟩ := Option.map_eq_some_iff.mp read
    obtain ⟨cuts, cut, rfl⟩ := timeSlicing_spec sliced
    have stored : DumpStore (FsdbDump.store ⟨values, fsdbMaxTime clock rawMaxTime,
        Cuts.spans 0 (cuts.map (· * clock.vcdTimeUnitPerCycle))⟩) := by
      intro ptr
      rw [FsdbDump.store]
      dsimp only
      rw [List.getD_eq_getElem?_getD]
      cases found : values[ptr]? with
      | none => exact stored_nil
      | some entries => exact readVarChanges_stored counted entries (List.mem_of_getElem? found)
    rw [loadRun_isSome_iff stored _ permutes]
    refine ⟨fun within cuts' cut' => ?_, fun all => all cuts cut⟩
    obtain rfl := cut.unique cut'
    exact within

/-- Two variables of one bit, one of which no pin shows. -/
def twoWires : VcdReader := makeVar wireReader ⟨['b'], .wire, 1, ['"']⟩

def twoWireWords : List Token :=
  [['0', '!'], ['0', '"'], ['#', '1', '2'], ['1', '!'], ['1', '"'], ['#', '2', '5'], ['0', '!']]

theorem eventBudget_twoWires : ∃ out intervals, twoWires.vcd.parseVarValues 3 twoWireWords = some out ∧
    roundTimeIntervals (tenTickClock 25) out.timeIntervals = some intervals ∧
    (loadRun (out.store fun _ => ['!']) out.timeMax 3 [some ⟨0, 0⟩] List.reverse true (fun _ =>
    ⟨0, 0⟩) intervals).isSome := by
  obtain ⟨out, accepted, rounded, within⟩ : ∃ out, twoWires.vcd.parseVarValues 3 twoWireWords = some out ∧
      roundTimeIntervals (tenTickClock 25) out.timeIntervals = some [(0, 20), (20, 30)] ∧
      WithinBudget (out.store fun _ => ['!']) out.timeMax 3 [some ⟨0, 0⟩] 0 (Cuts.spans 0 [20, 30]) :=
    ⟨_, rfl, by decide +kernel, by decide +kernel, by decide +kernel, trivial⟩
  have fresh : Fresh twoWires.vcd := fresh_makeVar (fresh_makeVar fresh_init _) _
  refine ⟨out, _, accepted, rounded, ((eventBudget_iff (tenTickClock 25) 3 [some ⟨0, 0⟩] List.reverse List.reverse_perm
    fun _ => ⟨0, 0⟩).1 twoWires.vcd out twoWireWords (fun _ => ['!']) _ fresh accepted rounded).mpr ?_⟩
  rintro cuts ⟨groups, rest, split, rfl⟩
  have cut : Cuts.Split Prod.snd 3 [[(0, 1), (0, 1), (12, 0), (12, 1), (12, 1)]] [(25, 0), (25, 1)]
      (stamps 0 (valueRecords twoWireWords)) := by
    constructor
    · decide
    · decide
    · decide
    · decide
  obtain ⟨rfl, rfl⟩ := split.unique cut
  have times : ([[(0, 1), (0, 1), (12, 0), (12, 1), (12, 1)]].map lastStamp ++
      [lastStamp (stamps 0 (valueRecords twoWireWords)) + 1]).map (tenTickClock 25).roundUp = [20, 30] := by
    decide +kernel
  rw [times]
  exact within

def busyWords : List Token :=
  [['0', '!'], ['#', '2'], ['1', '!'], ['#', '3'], ['0', '!'], ['#', '1', '1'], ['1', '!'], ['#', '1', '2'], ['0', '!'],
    ['#', '1', '3'], ['1', '!'], ['#', '2', '5'], ['0', '!']]

def busyVar : FsdbVar :=
  ⟨1, [(0, fun _ => .zero), (2, fun _ => .one), (3, fun _ => .zero), (11, fun _ => .one), (12, fun _ => .zero),
    (13, fun _ => .one)]⟩

def busyDump : FsdbDump :=
  ⟨[[⟨0, some .zero, 0, 1⟩, ⟨2, some .one, 0, 1⟩, ⟨3, some .zero, 0, 1⟩, ⟨11, some .one, 0, 1⟩, ⟨12, some .zero, 0, 1⟩,
    ⟨13, some .one, 0, 1⟩]], 20, [(0, 20)]⟩

/-- At most three records in a cycle and one carried one fit into a buffer for four, but both readers put two cycles
into one interval. -/
theorem eventBudget_exceeded :
    (∃ out intervals, wireReader.vcd.parseVarValues 4 busyWords = some out ∧
      roundTimeIntervals (tenTickClock 25) out.timeIntervals = some intervals ∧
      (∀ cycle, (out.store (fun _ => ['!']) 0).countP (fun entry => entry.time / 10 = cycle) + 1 ≤ 4) ∧
      loadRun (out.store fun _ => ['!']) out.timeMax 4 [some ⟨0, 0⟩] id true (fun _ => ⟨0, 0⟩) intervals = none) ∧
    readFsdb (tenTickClock 20) 4 20 [busyVar] = some busyDump ∧
      (∀ cycle, (busyDump.store 0).countP (fun entry => entry.time / 10 = cycle) + 1 ≤ 4) ∧
      loadRun busyDump.store busyDump.timeMax 4 [some ⟨0, 0⟩] id true (fun _ => ⟨0, 0⟩) busyDump.timeIntervals =
        none := by
  have sparse : ∀ values : List VcdValue, values.map (fun entry => entry.time / 10) = [0, 0, 0, 1, 1, 1] ∨
      values.map (fun entry => entry.time / 10) = [0, 0, 0, 1, 1, 1, 2] →
      ∀ cycle, values.countP (fun entry => entry.time / 10 = cycle) + 1 ≤ 4 := by
    intro values cycles cycle
    have counted : values.countP (fun entry => entry.time / 10 = cycle) =
        (values.map fun entry => entry.time / 10).count cycle := by
      rw [List.count_eq_countP,List.countP_map]
      rfl
    rw [counted]
    rcases cycles with cycles | cycles <;> rw [cycles] <;> rcases cycle with _ | _ | _ | cycle <;> simp
  refine ⟨⟨_, [(0, 20), (20, 30)], rfl, by decide +kernel, sparse _ (Or.inr (by decide +kernel)), ?_⟩,
    by decide +kernel, sparse _ (Or.inl rfl), ?_⟩
  · rfl
  · rfl

end Readers
end GTPower
