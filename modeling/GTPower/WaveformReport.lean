import GTPower.IgnoredRecords
import GTPower.ScopeFilter

/-! The report of the waveforms of a dump as lines of text. The time of a line goes on by the smallest distance of two
time markers that the reader found, and a cursor follows it through the values of the variable. -/
namespace GTPower

section Markers

/-- The words from the first value change on, with the word the header loop takes. -/
def valueSection (words : List Token) : List Token :=
  match headerOf words .init with
  | some (_, some rest) => words.drop (words.length - rest.length - 1)
  | _ => []

def markerTime : Record → Option Nat
  | .marker (some (.ofNat time)) => some time
  | _ => none

def timeMarkers (words : List Token) : List Nat := (valueRecords (valueSection words)).filterMap markerTime

/-- Differences of time markers to the ones before them, where they are later. -/
def markerDeltas (times : List Nat) : List Nat :=
  ((times.zip times.tail).filter fun pair => pair.1 < pair.2).map fun pair => pair.2 - pair.1

end Markers

section Lines

def padded (text : List Char) (width : Nat) : List Char := text ++ List.replicate (width - text.length) ' '

def hexText (busValue : Nat) : List Char := (Nat.toDigits 16 busValue).map Char.toUpper

/-- Characters of one time sample, with an edge where a known value of one bit changes. -/
def sampleText (zoom : Nat) (width : Int) (varValue prevVarValue : VcdValue) : List Char :=
  match varValue.value with
  | none => padded (hexText varValue.busValue) zoom
  | some value =>
    if width = 1 ∧ (value = .zero ∨ value = .one) then
      (List.range zoom).map fun z =>
        if z = 0 ∧ prevVarValue.value ≠ some value ∧
          (prevVarValue.value = some .zero ∨ prevVarValue.value = some .one) then
          if prevVarValue.value = some .one then '╲' else '╱'
        else if value = .one then '▔' else '▁'
    else padded [value.toChar.toUpper] zoom

/-- Variables of the loop over the time of one line. -/
structure WaveState where
  time : Nat
  valueIndex : Nat
  varValue : VcdValue
  prevVarValue : VcdValue
  nextValueTime : Nat
  line : List Char

namespace WaveState

/-- The cursor moves on up to the last value. -/
def nextIndex (values : List VcdValue) (st : WaveState) : Nat :=
  if st.valueIndex < values.length - 1 then st.valueIndex + 1 else st.valueIndex

/-- Time of the value behind the cursor, `none` behind the last one. -/
def timeBehind (values : List VcdValue) (valueIndex nextValueTime : Nat) : Option Nat :=
  if valueIndex < values.length then values[valueIndex + 1]?.map VcdValue.time else some nextValueTime

/-- Moves the cursor if the time of the next value is reached. `none` where the list is read past its end. -/
def advance (values : List VcdValue) (st : WaveState) : Option WaveState :=
  if st.nextValueTime ≤ st.time then do
    let varValue ← values[st.nextIndex values]?
    let nextValueTime ← timeBehind values (st.nextIndex values) st.nextValueTime
    return { st with valueIndex := st.nextIndex values, varValue := varValue, nextValueTime := nextValueTime }
  else some st

def sample (timeDelta zoom : Nat) (width : Int) (st : WaveState) : WaveState :=
  { st with
    line := st.line ++ sampleText zoom width st.varValue st.prevVarValue
    prevVarValue := st.varValue
    time := st.time + timeDelta }

end WaveState

/-- The loop over the time within a number of rounds, `some none` where a round reads past the values. -/
def waveLoop (timeMax timeDelta zoom : Nat) (width : Int) (values : List VcdValue) : Nat → WaveState →
    Option (Option WaveState)
  | 0, st => if st.time < timeMax then none else some (some st)
  | rounds + 1, st =>
    if st.time < timeMax then
      match st.advance values with
      | none => some none
      | some next => waveLoop timeMax timeDelta zoom width values rounds (next.sample timeDelta zoom width)
    else some (some st)

variable (vcd : Vcd)

def Vcd.maxVarNameLength : Nat := (vcd.vars.map fun var => var.name.length).foldl max 0
def Vcd.maxVarWidth : Int := (vcd.vars.map VcdVar.width).foldl max 0
def Vcd.zoom : Nat := ((vcd.maxVarWidth + 7) / 4).toNat

/-- The line of a variable, if the loop ends within the rounds. -/
def reportWaveform (rounds : Nat) (var : VcdVar) : Option (Option (List Char)) :=
  let line := ' ' :: padded var.name vcd.maxVarNameLength
  match vcd.values var with
  | [] => some (some line)
  | [_] => some none
  | first :: second :: rest =>
    (waveLoop vcd.timeMax vcd.minDeltaTime vcd.zoom var.width (first :: second :: rest) rounds ⟨0, 0, first, first,
      second.time, line⟩).map
      (·.map WaveState.line)

end Lines

/-- The smallest step of the time markers is found, and every line ends without a read past the values. -/
structure WaveformsReported (text : List Char) (vcd : Vcd) : Prop where
  minDelta : ∀ delta, (markerDeltas (timeMarkers (tokens text))).min? = some delta → vcd.minDeltaTime = delta
  ends : ∀ var ∈ vcd.vars, ∃ rounds line, reportWaveform vcd rounds var = some (some line)

section MinDelta

theorem declareVar_minDeltaTime {id : Token} (declared : declareVar reader typeName width id base range = some next) :
    next.vcd.minDeltaTime = reader.vcd.minDeltaTime := by
  unfold declareVar at declared
  split at declared
  · obtain rfl := Option.some.inj declared
    rfl
  · obtain ⟨value, -, rfl⟩ := Option.map_eq_some_iff.mp declared
    rfl

theorem parseTimescale_minDeltaTime (parsed : parseTimescale reader words = some next) :
    next.vcd.minDeltaTime = reader.vcd.minDeltaTime := by
  unfold parseTimescale at parsed
  split at parsed
  · obtain ⟨⟨timeScale, unit⟩, -, rest⟩ := Option.bind_eq_some_iff.mp parsed
    obtain ⟨scale, -, rest⟩ := Option.bind_eq_some_iff.mp rest
    obtain rfl := Option.some.inj rest
    rfl
  · obtain ⟨scale, -, rest⟩ := Option.bind_eq_some_iff.mp parsed
    obtain ⟨⟨timeScale, unit⟩, -, rest⟩ := Option.bind_eq_some_iff.mp rest
    obtain rfl := Option.some.inj rest
    rfl
  · cases parsed

theorem parseStmt_minDeltaTime (parsed : parseStmt reader keyword words = some (some next)) :
    next.vcd.minDeltaTime = reader.vcd.minDeltaTime := by
  unfold parseStmt at parsed
  split at parsed
  · obtain rfl := Option.some.inj (Option.some.inj parsed)
    rfl
  split at parsed
  · exact parseTimescale_minDeltaTime (Option.some.inj parsed)
  split at parsed
  · replace parsed := Option.some.inj parsed
    unfold parseVar at parsed
    split at parsed
    · exact declareVar_minDeltaTime parsed
    · exact declareVar_minDeltaTime parsed
    · cases parsed
  split at parsed
  · obtain ⟨scope, -, rfl⟩ := Option.map_eq_some_iff.mp (Option.some.inj parsed)
    rfl
  split at parsed
  · replace parsed := Option.some.inj parsed
    unfold parseUpscope at parsed
    split at parsed
    · cases parsed
    · obtain rfl := Option.some.inj parsed
      rfl
  · cases parsed

theorem readHeader_minDeltaTime (run : readHeader fuel words reader = some (last, rest)) :
    last.vcd.minDeltaTime = reader.vcd.minDeltaTime := by
  induction fuel generalizing words reader with
  | zero => cases run
  | succ fuel ih =>
    cases words with
    | nil =>
      obtain ⟨rfl, -⟩ := Prod.mk.inj (Option.some.inj run)
      rfl
    | cons token words =>
      rw [readHeader] at run
      cases effect : parseStmt reader token (readStmtTokens words).1 with
      | some result =>
        rw [effect] at run
        obtain ⟨next, rfl, run⟩ := Option.bind_eq_some_iff.mp run
        exact (ih run).trans (parseStmt_minDeltaTime effect)
      | none =>
        rw [effect] at run
        dsimp only at run
        split at run
        · obtain ⟨rfl, -⟩ := Prod.mk.inj (Option.some.inj run)
          rfl
        split at run
        · cases run
        · obtain ⟨rfl, -⟩ := Prod.mk.inj (Option.some.inj run)
          rfl

theorem parseRecord_minDeltaTime {loop next : ValueLoop} (parsed : loop.parseRecord maxEventNum record = some next)
    (zero : loop.minDeltaTime = 0) : next.minDeltaTime = 0 := by
  have appended : ∀ {id : Token} {change : VarChange} {n : Nat},
      (loop.append id change).map (ValueLoop.countRecords maxEventNum · n) = some next → next.minDeltaTime = 0 := by
    intro id change n step
    obtain ⟨middle, applied, rfl⟩ := Option.map_eq_some_iff.mp step
    rw [ValueLoop.append] at applied
    obtain ⟨values, -, applied⟩ := Option.bind_eq_some_iff.mp applied
    obtain ⟨values', -, applied⟩ := Option.bind_eq_some_iff.mp applied
    obtain rfl := Option.some.inj applied
    exact zero
  cases record with
  | marker time =>
    cases time with
    | none => cases parsed
    | some time =>
      cases time with
      | ofNat time =>
        obtain rfl := Option.some.inj parsed
        simp [ValueLoop.countRecords,zero]
      | negSucc time => cases parsed
  | scalar value id => exact appended parsed
  | vector text id => exact appended parsed
  | ignored =>
    obtain rfl := Option.some.inj parsed
    exact zero

theorem parseRecords_minDeltaTime {loop last : ValueLoop} {records : List Record}
    (run : records.foldlM (ValueLoop.parseRecord maxEventNum) loop = some last) (zero : loop.minDeltaTime = 0) :
    last.minDeltaTime = 0 := by
  induction records generalizing loop with
  | nil =>
    obtain rfl := Option.some.inj run
    exact zero
  | cons record rest ih =>
    rw [List.foldlM_cons] at run
    obtain ⟨next, step, run⟩ := Option.bind_eq_some_iff.mp run
    exact ih run (parseRecord_minDeltaTime step zero)

/-- The smallest step of every dump that is read is 0. -/
theorem read_minDeltaTime (read : VcdReader.read maxEventNum text = some vcd) : vcd.minDeltaTime = 0 := by
  rw [VcdReader.read,VcdReader.readTokens] at read
  obtain ⟨⟨reader, values⟩, header, read⟩ := Option.bind_eq_some_iff.mp read
  have zero : reader.vcd.minDeltaTime = 0 := readHeader_minDeltaTime header
  cases values with
  | none =>
    obtain rfl := Option.some.inj read
    exact zero
  | some rest =>
    obtain ⟨loop, run, read⟩ := Option.bind_eq_some_iff.mp read
    split at read
    · obtain rfl := Option.some.inj read
      exact parseRecords_minDeltaTime run zero
    · cases read

theorem markerDeltas_eq_nil (times : List Nat) : markerDeltas times = [] ↔ times.IsChain (· ≥ ·) := by
  unfold markerDeltas
  rw [List.map_eq_nil_iff]
  induction times with
  | nil => simp
  | cons time rest ih =>
    cases rest with
    | nil => simp
    | cons next rest =>
      rw [List.isChain_cons_cons,← ih]
      by_cases rises : time < next
      · simp [rises]
      · simp [rises,Nat.le_of_not_lt rises]

/-- A later time marker gives a positive step, which is not found. -/
theorem min_markerDeltas (times : List Nat) : (∀ delta, (markerDeltas times).min? = some delta → 0 = delta) ↔
    times.IsChain (· ≥ ·) := by
  rw [← markerDeltas_eq_nil]
  constructor
  · intro least
    cases found : (markerDeltas times).min? with
    | none => exact List.min?_eq_none_iff.mp found
    | some delta =>
      obtain ⟨pair, mem, difference⟩ := List.mem_map.mp (List.min?_mem found)
      have rises := of_decide_eq_true (List.mem_filter.mp mem).2
      have zero := least delta found
      omega
  · intro empty delta found
    rw [empty] at found
    cases found

end MinDelta

section Loop

theorem advance_time (moved : WaveState.advance values st = some next) : next.time = st.time := by
  unfold WaveState.advance at moved
  split at moved
  · obtain ⟨varValue, -, moved⟩ := Option.bind_eq_some_iff.mp moved
    obtain ⟨nextValueTime, -, moved⟩ := Option.bind_eq_some_iff.mp moved
    obtain rfl := Option.some.inj moved
    rfl
  · obtain rfl := Option.some.inj moved
    rfl

/-- Without a step in time the loop never ends. -/
theorem waveLoop_stuck (running : st.time < timeMax) (rounds : Nat) (last : WaveState) :
    waveLoop timeMax 0 zoom width values rounds st ≠ some (some last) := by
  induction rounds generalizing st with
  | zero =>
    intro ended
    rw [waveLoop,if_pos running] at ended
    cases ended
  | succ rounds ih =>
    intro ended
    rw [waveLoop,if_pos running] at ended
    cases moved : st.advance values with
    | none =>
      rw [moved] at ended
      cases ended
    | some next =>
      rw [moved] at ended
      have still : (next.sample 0 zoom width).time < timeMax := by
        rw [WaveState.sample,advance_time moved]
        exact running
      exact ih still ended

/-- Without a step in time the line of a variable ends only if there is nothing to show. -/
theorem reportWaveform_ends_iff (zero : vcd.minDeltaTime = 0) (var : VcdVar) :
    (∃ rounds line, reportWaveform vcd rounds var = some (some line)) ↔
      (vcd.values var ≠ [] → 2 ≤ (vcd.values var).length ∧ vcd.timeMax = 0) := by
  unfold reportWaveform
  match vcd.values var with
  | [] => exact ⟨fun _ none => absurd rfl none, fun _ => ⟨0, _, rfl⟩⟩
  | [_] =>
    refine ⟨fun ⟨rounds, line, ended⟩ => (by cases ended), fun ends => ?_⟩
    exact absurd (ends (List.cons_ne_nil _ _)).1 (by simp)
  | first :: second :: rest =>
    dsimp only
    rw [zero]
    constructor
    · rintro ⟨rounds, line, ended⟩ -
      refine ⟨by simp, Nat.eq_zero_of_not_pos fun running => ?_⟩
      obtain ⟨result, ended, shown⟩ := Option.map_eq_some_iff.mp ended
      obtain ⟨last, rfl, -⟩ := Option.map_eq_some_iff.mp shown
      exact waveLoop_stuck running rounds last ended
    · intro ends
      obtain ⟨-, timeMax⟩ := ends (List.cons_ne_nil _ _)
      refine ⟨0, ' ' :: padded var.name vcd.maxVarNameLength, ?_⟩
      rw [timeMax]
      rfl

end Loop

/-- The report is as it should be exactly if there is nothing to show: no time marker is later than the one before it,
and a variable with values has two of them at least in a dump that ends at time 0. -/
theorem waveformsReported_iff (read : VcdReader.read maxEventNum text = some vcd) : WaveformsReported text vcd ↔
    (timeMarkers (tokens text)).IsChain (· ≥ ·) ∧
    ∀ var ∈ vcd.vars, vcd.values var ≠ [] → 2 ≤ (vcd.values var).length ∧ vcd.timeMax = 0 := by
  have zero := read_minDeltaTime read
  constructor
  · rintro ⟨minDelta, ends⟩
    rw [zero,min_markerDeltas] at minDelta
    exact ⟨minDelta, fun var mem => (reportWaveform_ends_iff zero var).mp (ends var mem)⟩
  · rintro ⟨falling, shown⟩
    constructor
    · rw [zero,min_markerDeltas]
      exact falling
    · exact fun var mem => (reportWaveform_ends_iff zero var).mpr (shown var mem)

theorem waveformsReported_oneMarker :
    ∃ vcd, VcdReader.read 100 (wireText [.marker ['5'], .scalar '1' ['!']]) = some vcd ∧
    (WaveformsReported (wireText [.marker ['5'], .scalar '1' ['!']]) vcd ↔
      (timeMarkers (tokens (wireText [.marker ['5'], .scalar '1' ['!']]))).IsChain (· ≥ ·) ∧
      ∀ var ∈ vcd.vars, vcd.values var ≠ [] → 2 ≤ (vcd.values var).length ∧ vcd.timeMax = 0) :=
  ⟨_, rfl, waveformsReported_iff rfl⟩

/-- A wire that rises at time 5: its line never ends. -/
theorem waveform_endless : ∃ vcd,
    VcdReader.read 100 (wireText [.dumpvars, .scalar '0' ['!'], .stop, .marker ['5'], .scalar '1' ['!']]) = some vcd ∧
    ¬WaveformsReported (wireText [.dumpvars, .scalar '0' ['!'], .stop, .marker ['5'], .scalar '1' ['!']]) vcd := by
  refine ⟨_, rfl, fun reported => ?_⟩
  have shown := (reportWaveform_ends_iff rfl _).mp (reported.ends ⟨['a'], .wire, 1, ['!']⟩ (by decide +kernel))
  exact absurd (shown (by decide +kernel)).2 (by decide +kernel)

end GTPower
