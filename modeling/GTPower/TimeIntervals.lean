import GTPower.Cuts
import GTPower.CyclePartition
import GTPower.IgnoredRecords
import GTPower.LoaderRuns

/-! Intervals as the reader of the dump cuts them, and as they are moved to the cycles of the clock. -/
namespace GTPower

def Clock.roundUp (clock : Clock) (time : Nat) : Nat :=
  ceilDiv time clock.vcdTimeUnitPerCycle * clock.vcdTimeUnitPerCycle

/-- Both ends are moved to the begin of the next cycle. An interval that gets empty is fatal. -/
def roundTimeIntervals (clock : Clock) (timeIntervals : List (Nat × Nat)) : Option (List (Nat × Nat)) :=
  timeIntervals.mapM fun interval =>
    let first := clock.roundUp interval.1
    let second := clock.roundUp interval.2
    if first = second then none else some (first, second)

/-- Time of each record and the number of events it counts for. -/
def stamps : Nat → List Record → List (Nat × Nat)
  | _, [] => []
  | time, record :: rest => (record.timeAfter time, record.nParsedEvent) :: stamps (record.timeAfter time) rest

def lastStamp (changes : List (Nat × Nat)) : Nat := (changes.getLast?.map Prod.fst).getD 0

/-- The intervals begin at 0, follow one another without a gap, are not empty, and reach past the last time. -/
structure CoversDump (intervals : List (Nat × Nat)) (timeMax : Nat) : Prop where
  follows : Follows 0 intervals
  covers : ∀ time ≤ timeMax, ∃ interval ∈ intervals, interval.1 ≤ time ∧ time < interval.2

/-- Cutting the changes behind each one with which more than `maxEventNum` were read since the last cut, no two cuts
in a row belong to one cycle; the begin and the end of the dump count as cuts. -/
def CutsApart (clock : Clock) (maxEventNum : Nat) (changes : List (Nat × Nat)) : Prop :=
  ∀ groups rest, Cuts.Split Prod.snd maxEventNum groups rest changes →
    List.IsChain (fun cut cut' => ceilDiv cut clock.vcdTimeUnitPerCycle ≠ ceilDiv cut' clock.vcdTimeUnitPerCycle)
      (0 :: (groups.map lastStamp ++ [lastStamp changes + 1]))

section Slicing
variable {maxEventNum : Nat}

/-- The counter and the intervals of the slicer, by the changes read so far. -/
def Slicer.Follows (maxEventNum : Nat) (slicer : Slicer) (changes : List (Nat × Nat)) : Prop :=
  ∃ groups rest, Cuts.Split Prod.snd maxEventNum groups rest changes ∧
    slicer.timeIntervals = Cuts.spans 0 (groups.map lastStamp) ∧ slicer.nCurIntervalEvent = Cuts.total Prod.snd rest

theorem Slicer.Follows.lastEnd {slicer : Slicer} (cuts : slicer.timeIntervals = Cuts.spans 0 times) :
    slicer.lastEnd = times.getLast?.getD 0 := by
  rw [Slicer.lastEnd,cuts]
  exact Cuts.lastEnd_spans 0 times

theorem Slicer.Follows.count {slicer : Slicer} (follows : slicer.Follows maxEventNum changes)
    (time nParsedEvent : Nat) :
    (slicer.count maxEventNum time nParsedEvent).Follows maxEventNum (changes ++ [(time, nParsedEvent)]) := by
  obtain ⟨groups, rest, split, intervals, count⟩ := follows
  have weight : slicer.nCurIntervalEvent + nParsedEvent = Cuts.total Prod.snd (rest ++ [(time, nParsedEvent)]) := by
    rw [Cuts.total_append,count]
    simp [Cuts.total]
  unfold Slicer.count
  rw [weight]
  by_cases exceeds : maxEventNum < Cuts.total Prod.snd (rest ++ [(time, nParsedEvent)])
  · rw [if_pos exceeds]
    refine ⟨_, _, split.cut exceeds, ?_, rfl⟩
    dsimp only
    rw [lastEnd intervals,intervals,List.map_append,List.map_singleton,Cuts.spans_concat]
    simp [lastStamp]
  · rw [if_neg exceeds]
    exact ⟨_, _, split.push (Nat.le_of_not_lt exceeds), intervals, rfl⟩

theorem parseRecords_follows {loop last : ValueLoop} {records : List Record}
    (run : records.foldlM (ValueLoop.parseRecord maxEventNum) loop = some last)
    (follows : loop.slicer.Follows maxEventNum changes) :
    last.slicer.Follows maxEventNum (changes ++ stamps loop.time records) := by
  induction records generalizing loop changes with
  | nil =>
    obtain rfl := Option.some.inj run
    rw [stamps,List.append_nil]
    exact follows
  | cons record rest ih =>
    rw [List.foldlM_cons] at run
    obtain ⟨next, step, run⟩ := Option.bind_eq_some_iff.mp run
    obtain ⟨time, slicer, -⟩ := parseRecord_spec step
    have counted := follows.count next.time record.nParsedEvent
    rw [← slicer] at counted
    have done := ih run counted
    rw [List.append_assoc,time] at done
    exact done

theorem lastStamp_stamps (time : Nat) (record : Record) (records : List Record) :
    lastStamp (stamps time (record :: records)) = (record :: records).foldl Record.timeAfter time := by
  induction records generalizing time record with
  | nil => rfl
  | cons next rest ih =>
    rw [stamps,stamps,lastStamp,List.getLast?_cons_cons,← lastStamp,← stamps,ih]
    rfl

/-- The intervals the reader leaves: between the cuts of the changes, from 0 to behind the last time. -/
theorem parseVarValues_intervals (fresh : Fresh vcd) (accepted : vcd.parseVarValues maxEventNum words = some out) :
    out.timeMax = lastStamp (stamps 0 (valueRecords words)) ∧
    ∃ groups rest, Cuts.Split Prod.snd maxEventNum groups rest (stamps 0 (valueRecords words)) ∧
      out.timeIntervals = Cuts.spans 0 (groups.map lastStamp ++ [out.timeMax + 1]) := by
  obtain ⟨last, run, rfl⟩ := (parseVarValues_eq_some fresh).mp accepted
  obtain ⟨final, -⟩ := parseRecords_run run (Nat.zero_le _)
  obtain ⟨groups, rest, split, intervals, -⟩ := parseRecords_follows run ⟨[], [], .nil, rfl, rfl⟩
  refine ⟨?_, groups, rest, split, ?_⟩
  · dsimp only
    rw [final]
    cases valueRecords words with
    | nil => rfl
    | cons record records => exact (lastStamp_stamps 0 record records).symm
  · dsimp only
    rw [Slicer.wrapUp,Slicer.Follows.lastEnd intervals,intervals,Cuts.spans_concat]

end Slicing

section Rounding
variable {clock : Clock}

theorem ceilDiv_mono (unit : Nat) (order : a ≤ b) : ceilDiv a unit ≤ ceilDiv b unit :=
  Nat.div_le_div_right (by omega)

theorem Clock.roundUp_mono (clock : Clock) (order : a ≤ b) : clock.roundUp a ≤ clock.roundUp b :=
  Nat.mul_le_mul_right _ (ceilDiv_mono _ order)

theorem Clock.roundUp_inj : clock.roundUp a = clock.roundUp b ↔
    ceilDiv a clock.vcdTimeUnitPerCycle = ceilDiv b clock.vcdTimeUnitPerCycle :=
  Nat.mul_left_inj (Nat.pos_iff_ne_zero.mp clock.vcdTimeUnitPerCycle_pos)

theorem Clock.le_roundUp (clock : Clock) (time : Nat) : time ≤ clock.roundUp time := by
  have positive := clock.vcdTimeUnitPerCycle_pos
  have whole := Nat.div_add_mod (time + clock.vcdTimeUnitPerCycle - 1) clock.vcdTimeUnitPerCycle
  have part := Nat.mod_lt (time + clock.vcdTimeUnitPerCycle - 1) positive
  rw [Clock.roundUp,ceilDiv,Nat.mul_comm]
  omega

theorem Clock.roundUp_zero (clock : Clock) : clock.roundUp 0 = 0 := by
  have positive := clock.vcdTimeUnitPerCycle_pos
  rw [Clock.roundUp,ceilDiv,Nat.div_eq_of_lt (by omega),Nat.zero_mul]

theorem mapM_guard {α β : Type} (p : α → Prop) [DecidablePred p] (f : α → β) (l : List α) (l' : List β) :
    (l.mapM fun x => if p x then none else some (f x)) = some l' ↔ (∀ x ∈ l, ¬ p x) ∧ l' = l.map f := by
  induction l generalizing l' with
  | nil =>
    simp only [List.mapM_nil,List.map_nil,List.not_mem_nil,false_implies,implies_true,true_and]
    exact ⟨fun same => (Option.some.inj same).symm, fun same => congrArg some same.symm⟩
  | cons x rest ih =>
    rw [List.mapM_cons,List.forall_mem_cons]
    by_cases here : p x
    · rw [if_pos here]
      exact ⟨fun none => (by cases none), fun all => absurd here all.1.1⟩
    · rw [if_neg here]
      simp only [Option.bind_eq_bind,Option.bind_some,Option.bind_eq_some_iff,ih,Option.pure_def,Option.some.injEq,
        List.map_cons]
      constructor
      · rintro ⟨_, ⟨all, rfl⟩, rfl⟩
        exact ⟨⟨here, all⟩, rfl⟩
      · rintro ⟨⟨-, all⟩, rfl⟩
        exact ⟨_, ⟨all, rfl⟩, rfl⟩

theorem roundTimeIntervals_spans (start : Nat) (cuts : List Nat) (intervals : List (Nat × Nat)) :
    roundTimeIntervals clock (Cuts.spans start cuts) = some intervals ↔
      List.IsChain (fun cut cut' => ceilDiv cut clock.vcdTimeUnitPerCycle ≠ ceilDiv cut' clock.vcdTimeUnitPerCycle)
        (start :: cuts) ∧
      intervals = Cuts.spans (clock.roundUp start) (cuts.map clock.roundUp) := by
  have guarded := mapM_guard (fun interval : Nat × Nat => clock.roundUp interval.1 = clock.roundUp interval.2)
    (fun interval => (clock.roundUp interval.1, clock.roundUp interval.2)) (Cuts.spans start cuts) intervals
  rw [← Cuts.map_spans,← Cuts.forall_spans]
  simp only [Clock.roundUp_inj] at guarded
  rw [roundTimeIntervals]
  simp only [Clock.roundUp_inj]
  exact guarded

theorem follows_spans (start : Nat) (cuts : List Nat) :
    Follows start (Cuts.spans start cuts) ↔ List.IsChain (· < ·) (start :: cuts) := by
  induction cuts generalizing start with
  | nil => simp [Follows,Cuts.spans]
  | cons cut rest ih =>
    rw [Cuts.spans,Follows,ih,List.isChain_cons_cons]
    simp

theorem cuts_ordered (ordered : changes.Pairwise fun change change' : Nat × Nat => change.1 ≤ change'.1)
    (split : Cuts.Split Prod.snd maxEventNum groups rest changes) :
    List.IsChain (· ≤ ·) (0 :: (groups.map lastStamp ++ [lastStamp changes + 1])) := by
  have last : ∀ group ∈ groups, ∃ change ∈ group, lastStamp group = change.1 := by
    intro group mem
    rcases List.eq_nil_or_concat group with rfl | ⟨front, change, rfl⟩
    · exact absurd (split.heavy [] mem) (Nat.not_lt_zero _)
    · exact ⟨change, by simp, by simp [lastStamp]⟩
  have upper : ∀ change ∈ changes, change.1 ≤ lastStamp changes := by
    intro change mem
    rcases List.eq_nil_or_concat changes with rfl | ⟨front, final, rfl⟩
    · cases mem
    · rw [List.concat_eq_append] at ordered mem ⊢
      have final_eq : lastStamp (front ++ [final]) = final.1 := by simp [lastStamp]
      rw [final_eq]
      rcases List.mem_append.mp mem with early | here
      · exact (List.pairwise_append.mp ordered).2.2 change early final (List.mem_singleton_self _)
      · rw [List.mem_singleton.mp here]
  have inside : ∀ group ∈ groups, ∀ change ∈ group, change ∈ changes := fun group mem change here => by
    rw [← split.whole]
    exact List.mem_append_left _ (List.mem_flatten_of_mem mem here)
  have pairs := (List.pairwise_append.mp (split.whole ▸ ordered)).1
  have across := (List.pairwise_flatten.mp pairs).2
  refine List.isChain_iff_pairwise.mpr
    (List.pairwise_cons.mpr ⟨fun _ _ => Nat.zero_le _, List.pairwise_append.mpr ⟨?_, ?_, ?_⟩⟩)
  · refine List.pairwise_map.mpr (across.imp_of_mem fun {group group'} mem mem' order => ?_)
    obtain ⟨change, here, same⟩ := last group mem
    obtain ⟨change', here', same'⟩ := last group' mem'
    rw [same,same']
    exact order change here change' here'
  · exact List.pairwise_singleton _ _
  · intro cut mem final here
    obtain rfl := List.mem_singleton.mp here
    obtain ⟨group, known, rfl⟩ := List.mem_map.mp mem
    obtain ⟨change, here, same⟩ := last group known
    rw [same]
    exact Nat.le_succ_of_le (upper change (inside group known change here))

/-- The intervals of a dump are fit for the analysis exactly when no two cuts in a row belong to one cycle. -/
theorem roundedIntervals_iff (clock : Clock) (maxEventNum : Nat) {vcd out : Vcd} {words : List Token}
    (fresh : Fresh vcd) (accepted : vcd.parseVarValues maxEventNum words = some out)
    (ordered : (stamps 0 (valueRecords words)).Pairwise fun change change' => change.1 ≤ change'.1) :
    (∃ intervals, roundTimeIntervals clock out.timeIntervals = some intervals ∧ CoversDump intervals out.timeMax) ↔
      CutsApart clock maxEventNum (stamps 0 (valueRecords words)) := by
  obtain ⟨time, groups, rest, split, intervals⟩ := parseVarValues_intervals fresh accepted
  have apart : CutsApart clock maxEventNum (stamps 0 (valueRecords words)) ↔
      List.IsChain (fun cut cut' => ceilDiv cut clock.vcdTimeUnitPerCycle ≠ ceilDiv cut' clock.vcdTimeUnitPerCycle)
        (0 :: (groups.map lastStamp ++ [out.timeMax + 1])) := by
    rw [time]
    refine ⟨fun all => all groups rest split, fun chain groups' rest' split' => ?_⟩
    obtain ⟨rfl, -⟩ := split.unique split'
    exact chain
  rw [apart,intervals]
  constructor
  · rintro ⟨_, rounded, -⟩
    exact ((roundTimeIntervals_spans _ _ _).mp rounded).1
  · intro chain
    refine ⟨_, (roundTimeIntervals_spans _ _ _).mpr ⟨chain, rfl⟩, ?_, ?_⟩
    · have order := cuts_ordered ordered split
      rw [← time] at order
      rw [clock.roundUp_zero]
      refine (follows_spans _ _).mpr ?_
      rw [← clock.roundUp_zero,← List.map_cons,List.isChain_map,← Cuts.forall_spans]
      rw [← Cuts.forall_spans] at chain order
      intro span mem
      have rounded := clock.roundUp_mono (order span mem)
      exact Nat.lt_of_le_of_ne rounded fun same => chain span mem (Clock.roundUp_inj.mp same)
    · intro instant within
      refine Cuts.mem_spans (by rw [clock.roundUp_zero]; exact Nat.zero_le _) ?_
      have past := clock.le_roundUp (out.timeMax + 1)
      simp only [List.map_append,List.map_singleton,List.getLast?_append,List.getLast?_singleton]
      have : instant < clock.roundUp (out.timeMax + 1) := by omega
      simpa using this

def apartWords : List Token := [['0', '!'], ['#', '1', '2'], ['1', '!'], ['#', '2', '5'], ['0', '!']]

/-- Cuts in the cycles 0, 2 and 3. -/
theorem roundedIntervals_apart : ∃ out, wireReader.vcd.parseVarValues 1 apartWords = some out ∧
    ∃ intervals, roundTimeIntervals (tenTickClock 25) out.timeIntervals = some intervals ∧
    CoversDump intervals out.timeMax := by
  obtain ⟨out, accepted⟩ : ∃ out, wireReader.vcd.parseVarValues 1 apartWords = some out := ⟨_, rfl⟩
  have fresh : Fresh wireReader.vcd := fresh_makeVar fresh_init _
  have ordered : (stamps 0 (valueRecords apartWords)).Pairwise fun change change' => change.1 ≤ change'.1 := by decide
  refine ⟨out, accepted, (roundedIntervals_iff (tenTickClock 25) 1 fresh accepted ordered).mpr ?_⟩
  intro groups rest split
  have cut : Cuts.Split Prod.snd 1 [[(0, 1), (12, 0), (12, 1)]] [(25, 0), (25, 1)]
      (stamps 0 (valueRecords apartWords)) := by
    constructor
    · decide
    · decide
    · decide
    · decide
  obtain ⟨rfl, rfl⟩ := split.unique cut
  decide +kernel

/-- The last cut and the end of the dump belong to one cycle. -/
theorem roundedInterval_empty :
    ∃ out, wireReader.vcd.parseVarValues 1 [['#', '2'], ['0', '!'], ['#', '3'], ['1', '!']] = some out ∧
    ((stamps 0 (valueRecords [['#', '2'], ['0', '!'], ['#', '3'], ['1', '!']])).Pairwise fun change change' =>
    change.1 ≤ change'.1) ∧
    out.timeIntervals = [(0, 3), (3, 4)] ∧ roundTimeIntervals (tenTickClock 3) out.timeIntervals = none :=
  ⟨_, rfl, by decide, rfl, by decide +kernel⟩

end Rounding
end GTPower
