import GTPower.ReaderFaithful

/-! Records the reader ignores, set into a value section: changes of real and string variables, comments. The loop over
the values takes every word of them as the begin of a record of its own. -/
namespace GTPower

inductive IgnoredRecord where
  | real (number : List Char) (id : Token)
  | string (text : List Char) (id : Token)
  | comment (body : List Token)

namespace IgnoredRecord

def words : IgnoredRecord → List Token
  | real number id => ['r' :: number, id]
  | string text id => ['s' :: text, id]
  | comment body => Keyword.comment :: body ++ [Keyword.stop]

/-- The words after the first one, without the end of a comment. -/
def interior : IgnoredRecord → List Token
  | real _ id => [id]
  | string _ id => [id]
  | comment body => body

def id? : IgnoredRecord → Option Token
  | real _ id => some id
  | string _ id => some id
  | comment _ => none

def WellFormed : IgnoredRecord → Prop
  | real _ id => id ≠ [] ∧ id ≠ Keyword.stop
  | string _ id => id ≠ [] ∧ id ≠ Keyword.stop
  | comment body => Keyword.stop ∉ body

def Declared (reader : VcdReader) : IgnoredRecord → Prop
  | real _ id => ∃ var ∈ reader.vcd.vars, var.type = .real ∧ var.id = id
  | _ => True

def IsComment : IgnoredRecord → Prop
  | comment _ => True
  | _ => False

end IgnoredRecord

/-- A word the loop takes for nothing: no time, no value, no vector. -/
def Inert : Token → Prop
  | [] => True
  | ch :: tail => ¬ (ch = '#' ∧ tail ≠ []) ∧ scalarValue ch.toUpper = none ∧ ch.toUpper ≠ 'B'

def ZeroMarker (word : Token) : Prop := ∃ tail, word = '#' :: tail ∧ tail ≠ [] ∧ stoll tail = some 0

def Whole (front : List Token) : Prop := ∀ rest, valueRecords (front ++ rest) = valueRecords front ++ valueRecords rest

/-- A word at which the loop over the header hands over to the loop over the values. -/
def Opens (opening : Token) : Prop :=
  opening = Keyword.dumpvars ∨ opening = Keyword.dumpall ∨ ∃ ch tail, opening = ch :: tail ∧ ch ≠ '$'

/-- The records of every variable but one, the end of the dump and the intervals are as before. -/
structure Undisturbed (ignored : Option Token) (out out' : Vcd) : Prop where
  idValues : ∀ id, ignored ≠ some id → out'.idValues id = out.idValues id
  timeMax : out'.timeMax = out.timeMax
  timeIntervals : out'.timeIntervals = out.timeIntervals

/-- The record can be set between any two records of any accepted section. -/
def NoninterferingInside (block : IgnoredRecord) : Prop :=
  ∀ (maxEventNum : Nat) (header : List Stmt) (reader : VcdReader) (opening : Token) (before after : List Token)
    (out : Vcd),
    headerEffect .init header = some reader → Opens opening → Whole before → block.Declared reader →
    VcdReader.readTokens maxEventNum (header.flatMap Stmt.words ++ opening :: (before ++ after)) = some out →
    ∃ out', VcdReader.readTokens maxEventNum (header.flatMap Stmt.words ++ opening ::
      (before ++ (block.words ++ after))) = some out' ∧
      Undisturbed block.id? out out'

/-- The record can be set before the first word of any accepted section. -/
def NoninterferingAtStart (opens : Token → Prop) (block : IgnoredRecord) : Prop :=
  ∀ (maxEventNum : Nat) (header : List Stmt) (reader : VcdReader) (opening : Token) (after : List Token) (out : Vcd),
    headerEffect .init header = some reader → opens opening → block.Declared reader →
    VcdReader.readTokens maxEventNum (header.flatMap Stmt.words ++ opening :: after) = some out →
    ∃ out', VcdReader.readTokens maxEventNum (header.flatMap Stmt.words ++ (block.words ++ opening :: after)) =
      some out' ∧
      Undisturbed block.id? out out'

namespace Record

def nParsedEvent : Record → Nat
  | scalar _ _ => 1
  | vector text _ => text.length
  | _ => 0

def timeAfter (time : Nat) : Record → Nat
  | marker (some (.ofNat time)) => time
  | _ => time

def id? : Record → Option Token
  | scalar _ id => some id
  | vector _ id => some id
  | _ => none

end Record

section Loop
variable {maxEventNum : Nat} {loop : ValueLoop}

/-- What one record does to the loop: its time, its count, and nothing but its own variable. -/
theorem parseRecord_spec {record : Record} (parsed : loop.parseRecord maxEventNum record = some next) :
    next.time = record.timeAfter loop.time ∧ next.slicer = loop.slicer.count maxEventNum next.time record.nParsedEvent ∧
    (∀ id, (next.idValues id).isSome = (loop.idValues id).isSome) ∧
    (∀ id, record.id? = some id → (loop.idValues id).isSome) ∧ ∀ time, record = .marker time →
    ∃ now, time = some (.ofNat now) := by
  have appended : ∀ {id : Token} {change : VarChange} {n : Nat} {next : ValueLoop},
      (loop.append id change).map (ValueLoop.countRecords maxEventNum · n) = some next →
      next.time = loop.time ∧ next.slicer = loop.slicer.count maxEventNum next.time n ∧
        (∀ id, (next.idValues id).isSome = (loop.idValues id).isSome) ∧ (loop.idValues id).isSome := by
    intro id change n next step
    obtain ⟨middle, applied, rfl⟩ := Option.map_eq_some_iff.mp step
    rw [ValueLoop.append] at applied
    obtain ⟨values, present, applied⟩ := Option.bind_eq_some_iff.mp applied
    obtain ⟨values', -, applied⟩ := Option.bind_eq_some_iff.mp applied
    obtain rfl := Option.some.inj applied
    refine ⟨rfl, rfl, fun other => ?_, by rw [present]; rfl⟩
    by_cases same : other = id
    · subst same
      simp [ValueLoop.countRecords,present]
    · simp [ValueLoop.countRecords,Function.update_of_ne same]
  cases record with
  | marker time =>
    cases time with
    | none => cases parsed
    | some time =>
      cases time with
      | ofNat time =>
        obtain rfl := Option.some.inj parsed
        refine ⟨rfl, rfl, fun id => rfl, fun id none => ?_, fun _ same => ⟨time, (Record.marker.inj same).symm⟩⟩
        cases none
      | negSucc time => cases parsed
  | scalar value id =>
    obtain ⟨time, slicer, kept, declared⟩ := appended parsed
    refine ⟨time, slicer, kept, fun other same => Option.some.inj same ▸ declared, fun _ same => ?_⟩
    cases same
  | vector text id =>
    obtain ⟨time, slicer, kept, declared⟩ := appended parsed
    refine ⟨time, slicer, kept, fun other same => Option.some.inj same ▸ declared, fun _ same => ?_⟩
    cases same
  | ignored =>
    obtain rfl := Option.some.inj parsed
    refine ⟨rfl, rfl, fun id => rfl, fun id none => ?_, fun _ same => ?_⟩
    · cases none
    · cases same

theorem count_bounded (slicer : Slicer) (time n : Nat) :
    (slicer.count maxEventNum time n).nCurIntervalEvent ≤ maxEventNum := by
  unfold Slicer.count
  split
  · exact Nat.zero_le _
  · exact Nat.le_of_not_lt (by assumption)

theorem count_zero {slicer : Slicer} (bounded : slicer.nCurIntervalEvent ≤ maxEventNum) (time : Nat) :
    slicer.count maxEventNum time 0 = slicer := by
  rw [Slicer.count,Nat.add_zero,if_neg (Nat.not_lt.mpr bounded)]

/-- What a run over records does: the last time, the declared variables, and the bound on the counter. -/
theorem parseRecords_run {records : List Record}
    (run : records.foldlM (ValueLoop.parseRecord maxEventNum) loop = some last)
    (bounded : loop.slicer.nCurIntervalEvent ≤ maxEventNum) :
    last.time = records.foldl Record.timeAfter loop.time ∧ last.slicer.nCurIntervalEvent ≤ maxEventNum ∧
    ∀ record ∈ records, (∀ id, record.id? = some id → (loop.idValues id).isSome) ∧
      ∀ time, record = .marker time → ∃ now, time = some (.ofNat now) := by
  induction records generalizing loop with
  | nil =>
    obtain rfl := Option.some.inj run
    refine ⟨rfl, bounded, fun record mem => ?_⟩
    cases mem
  | cons record rest ih =>
    rw [List.foldlM_cons] at run
    obtain ⟨next, step, run⟩ := Option.bind_eq_some_iff.mp run
    obtain ⟨time, slicer, kept, declared, marker⟩ := parseRecord_spec step
    obtain ⟨final, bound, others⟩ := ih run (by rw [slicer]; exact count_bounded _ _ _)
    refine ⟨by rw [final,time,List.foldl_cons], bound, fun other mem => ?_⟩
    rcases List.mem_cons.mp mem with rfl | later
    · exact ⟨declared, marker⟩
    · obtain ⟨known, fine⟩ := others other later
      exact ⟨fun id same => by rw [← kept id]; exact known id same, fine⟩

theorem parseRecords_ignored (bounded : loop.slicer.nCurIntervalEvent ≤ maxEventNum) (k : Nat) :
    (List.replicate k Record.ignored).foldlM (ValueLoop.parseRecord maxEventNum) loop = some loop := by
  induction k with
  | zero => rfl
  | succ k ih =>
    rw [List.replicate_succ,List.foldlM_cons,ValueLoop.parseRecord,ValueLoop.countRecords,count_zero bounded]
    exact ih

theorem timeAfter_independent {records : List Record} (marker : Record.marker (some (.ofNat now)) ∈ records)
    (time time' : Nat) :
    records.foldl Record.timeAfter time = records.foldl Record.timeAfter time' := by
  induction records generalizing time time' with
  | nil => cases marker
  | cons record rest ih =>
    rw [List.foldl_cons,List.foldl_cons]
    rcases List.mem_cons.mp marker with rfl | later
    · rfl
    · exact ih later _ _

end Loop

section Words

theorem inert_iff (word : Token) (rest : List Token) : Inert word ↔ (firstRecord word rest).1 = .ignored := by
  cases word with
  | nil => exact ⟨fun _ => rfl, fun _ => trivial⟩
  | cons ch tail =>
    unfold Inert firstRecord
    dsimp only
    by_cases hash : ch = '#' ∧ tail ≠ []
    · rw [if_pos hash]
      simp [hash]
    · rw [if_neg hash]
      cases scalarValue ch.toUpper with
      | some value => simp
      | none =>
        dsimp only
        by_cases vector : ch.toUpper = 'B'
        · rw [if_pos vector]
          simp [vector]
        · rw [if_neg vector]
          simp [vector,hash]

theorem firstRecord_of_inert (inert : Inert word) (rest : List Token) : firstRecord word rest = (.ignored, rest) := by
  cases word with
  | nil => rfl
  | cons ch tail =>
    obtain ⟨hash, scalar, vector⟩ := inert
    rw [firstRecord,if_neg hash,scalar]
    exact if_neg vector

theorem valueRecords_inert (inert : ∀ word ∈ words, Inert word) (rest : List Token) :
    valueRecords (words ++ rest) = List.replicate words.length .ignored ++ valueRecords rest := by
  induction words with
  | nil => rfl
  | cons word others ih =>
    rw [List.cons_append,valueRecords_cons,firstRecord_of_inert (inert word (List.mem_cons_self ..)),
      ih fun other mem => inert other (List.mem_cons_of_mem _ mem)]
    rfl

theorem inert_of_records (ignored : ∀ record ∈ valueRecords words, record = .ignored) : ∀ word ∈ words, Inert word := by
  induction words with
  | nil => simp
  | cons word rest ih =>
    rw [valueRecords_cons] at ignored
    have first := (inert_iff word rest).mpr (ignored _ (List.mem_cons_self ..))
    rw [firstRecord_of_inert first] at ignored
    intro other mem
    rcases List.mem_cons.mp mem with rfl | later
    · exact first
    · exact ih (fun record mem => ignored record (List.mem_cons_of_mem _ mem)) other later

theorem inert_leading (block : IgnoredRecord) (inert : ∀ word ∈ block.interior, Inert word) :
    ∀ word ∈ block.words, Inert word := by
  intro word mem
  cases block with
  | real number id =>
    rcases List.mem_cons.mp mem with rfl | later
    · exact ⟨fun hash => absurd hash.1 (by decide), by decide, by decide⟩
    · exact inert word later
  | string text id =>
    rcases List.mem_cons.mp mem with rfl | later
    · exact ⟨fun hash => absurd hash.1 (by decide), by decide, by decide⟩
    · exact inert word later
  | comment body =>
    rcases List.mem_cons.mp mem with rfl | later
    · exact ⟨fun hash => absurd hash.1 (by decide), by decide, by decide⟩
    · rcases List.mem_append.mp later with inner | last
      · exact inert word inner
      · obtain rfl := List.mem_singleton.mp last
        exact ⟨fun hash => absurd hash.1 (by decide), by decide, by decide⟩

theorem readTokens_section (maxEventNum : Nat) (effect : headerEffect .init header = some reader)
    (opens : Opens opening)
    (rest : List Token) : VcdReader.readTokens maxEventNum (header.flatMap Stmt.words ++ opening :: rest) =
      reader.vcd.parseVarValues maxEventNum rest := by
  have entered : headerOf (opening :: rest) reader = some (reader, some rest) := by
    rcases opens with rfl | rfl | ⟨ch, tail, rfl, letter⟩
    · rfl
    · rfl
    · have dumps : ¬ (ch :: tail = Keyword.dumpall ∨ ch :: tail = Keyword.dumpvars) := by
        rintro (here | here) <;> exact letter (List.cons.inj here).1
      have head : ¬ (ch :: tail).head? = some '$' := fun here => letter (Option.some.inj here)
      rw [headerOf,readHeader,parseStmt_none reader letter]
      dsimp only
      rw [if_neg dumps,if_neg head]
  rw [VcdReader.readTokens,← headerOf,headerOf_statements effect,entered]
  rfl

theorem parseVarValues_eq_some (fresh : Fresh vcd) : vcd.parseVarValues maxEventNum words = some out ↔
    ∃ last, (valueRecords words).foldlM (ValueLoop.parseRecord maxEventNum) (ValueLoop.init vcd) = some last ∧
      out = { vcd with
        idValues := last.idValues
        minDeltaTime := last.minDeltaTime
        timeMax := last.time
        timeIntervals := last.slicer.wrapUp last.time } := by
  rw [Vcd.parseVarValues]
  simp only [fresh.timeIntervals,if_true,Option.bind_eq_bind,Option.bind_eq_some_iff,Option.pure_def,Option.some.injEq]
  exact exists_congr fun last => and_congr_right fun _ => eq_comm

end Words

section Noninterference

theorem inside_of_inert {block : IgnoredRecord} (inert : ∀ word ∈ block.interior, Inert word) :
    NoninterferingInside block := by
  intro maxEventNum header reader opening before after out effect opens whole _ accepted
  have fresh := fresh_header fresh_init effect
  rw [readTokens_section maxEventNum effect opens] at accepted ⊢
  refine ⟨out, ?_, ⟨fun _ _ => rfl, rfl, rfl⟩⟩
  obtain ⟨last, run, rfl⟩ := (parseVarValues_eq_some fresh).mp accepted
  refine (parseVarValues_eq_some fresh).mpr ⟨last, ?_, rfl⟩
  rw [whole,List.foldlM_append] at run
  obtain ⟨middle, front, back⟩ := Option.bind_eq_some_iff.mp run
  obtain ⟨-, bounded, -⟩ := parseRecords_run front (Nat.zero_le _)
  rw [whole,valueRecords_inert (inert_leading block inert),List.foldlM_append,front]
  simp only [Option.bind_eq_bind,Option.bind_some]
  rw [List.foldlM_append,parseRecords_ignored bounded]
  exact back

def realHeader (id : Token) (proper : id ≠ Keyword.stop) : List Stmt :=
  [⟨Keyword.var, [['r', 'e', 'a', 'l'], ['6', '4'], id, ['a']], by
    simp only [List.mem_cons,List.not_mem_nil,or_false,not_or]
    exact ⟨by decide, by decide, Ne.symm proper, by decide⟩⟩]

def realReader (id : Token) : VcdReader := makeVar .init ⟨['a'], .real, 64, id⟩

theorem realHeader_effect (id : Token) (proper : id ≠ Keyword.stop) :
    headerEffect .init (realHeader id proper) = some (realReader id) := rfl

/-- A dump in which the record can be set, where at most its own variable is declared. -/
theorem exists_header (block : IgnoredRecord) (proper : block.id? ≠ some Keyword.stop) :
    ∃ header reader, headerEffect .init header = some reader ∧ block.Declared reader ∧
      ∀ id, (reader.vcd.idValues id).isSome → block.id? = some id := by
  cases block with
  | real number id =>
    refine ⟨_, _, realHeader_effect id fun same => proper (congrArg some same),
      ⟨_, List.mem_cons_self .., rfl, rfl⟩, ?_⟩
    intro other present
    by_contra different
    have missing : (realReader id).vcd.idValues other = none :=
      Function.update_of_ne (fun same => different (congrArg some same.symm)) _ _
    rw [missing] at present
    cases present
  | string text id =>
    refine ⟨[], .init, rfl, trivial, fun other present => ?_⟩
    cases present
  | comment body =>
    refine ⟨[], .init, rfl, trivial, fun other present => ?_⟩
    cases present

theorem properId {block : IgnoredRecord} (wellFormed : block.WellFormed) : block.id? ≠ some Keyword.stop ∧
    block.id? ≠ some [] := by
  cases block with
  | real number id =>
    exact ⟨fun same => wellFormed.2 (Option.some.inj same), fun same => wellFormed.1 (Option.some.inj same)⟩
  | string text id =>
    exact ⟨fun same => wellFormed.2 (Option.some.inj same), fun same => wellFormed.1 (Option.some.inj same)⟩
  | comment body => exact ⟨fun none => (by cases none), fun none => (by cases none)⟩

/-- A record that disturbs no dump runs from any state the loop reaches, and leaves its time. -/
theorem run_of_noninterfering {block : IgnoredRecord} (free : NoninterferingInside block)
    (effect : headerEffect .init header = some reader) (declared : block.Declared reader) (whole : Whole before)
    (front : (valueRecords before).foldlM (ValueLoop.parseRecord 1) (ValueLoop.init reader.vcd) = some loop) :
    ∃ last, (valueRecords block.words).foldlM (ValueLoop.parseRecord 1) loop = some last ∧ last.time = loop.time := by
  have fresh := fresh_header fresh_init effect
  have opens : Opens Keyword.dumpvars := Or.inl rfl
  obtain ⟨out', run', same⟩ := free 1 header reader Keyword.dumpvars before [] _ effect opens whole declared
    ((readTokens_section 1 effect opens _).trans
      ((parseVarValues_eq_some fresh).mpr ⟨loop, by rw [List.append_nil]; exact front, rfl⟩))
  rw [readTokens_section 1 effect opens] at run'
  obtain ⟨last, run, rfl⟩ := (parseVarValues_eq_some fresh).mp run'
  rw [whole,List.append_nil,List.foldlM_append,front] at run
  exact ⟨last, run, same.timeMax⟩

theorem whole_nil : Whole [] := fun _ => rfl

theorem whole_marker (digits : List Char) (nonempty : digits ≠ []) : Whole ['#' :: digits] := by
  intro rest
  rw [List.singleton_append,valueRecords_cons,valueRecords_cons,firstRecord,if_pos ⟨rfl, nonempty⟩,firstRecord,
    if_pos ⟨rfl, nonempty⟩]
  rfl

/-- Records of a real or string change in a dump that declares its variable at most: the second word is no change. -/
theorem firstRecord_own {id : Token} (nonempty : id ≠ [])
    (known : ∀ other, (firstRecord id rest).1.id? = some other → other = id) (next : rest.headD [] ≠ id) :
    (firstRecord id rest).1.id? = none := by
  cases id with
  | nil => exact absurd rfl nonempty
  | cons ch tail =>
    unfold firstRecord at known ⊢
    dsimp only at known ⊢
    by_cases hash : ch = '#' ∧ tail ≠ []
    · rw [if_pos hash]
      rfl
    · rw [if_neg hash] at known ⊢
      cases found : scalarValue ch.toUpper with
      | some value =>
        rw [found] at known
        exact absurd (known tail rfl) (by simp)
      | none =>
        rw [found] at known
        dsimp only at known ⊢
        by_cases vector : ch.toUpper = 'B'
        · rw [if_pos vector] at known
          exact absurd (known _ rfl) next
        · rw [if_neg vector]
          rfl

theorem firstRecord_no_id (none : (firstRecord word rest).1.id? = none) :
    (firstRecord word rest).1 = .ignored ∧ (firstRecord word rest).2 = rest ∨
      ∃ tail, word = '#' :: tail ∧ tail ≠ [] ∧ firstRecord word rest = (.marker (stoll tail), rest) := by
  cases word with
  | nil => exact Or.inl ⟨rfl, rfl⟩
  | cons ch tail =>
    unfold firstRecord at none ⊢
    dsimp only at none ⊢
    by_cases hash : ch = '#' ∧ tail ≠ []
    · obtain ⟨rfl, nonempty⟩ := hash
      exact Or.inr ⟨tail, rfl, nonempty, if_pos ⟨rfl, nonempty⟩⟩
    · rw [if_neg hash] at none ⊢
      cases found : scalarValue ch.toUpper with
      | some value =>
        rw [found] at none
        cases none
      | none =>
        rw [found] at none
        dsimp only at none ⊢
        by_cases vector : ch.toUpper = 'B'
        · rw [if_pos vector] at none
          cases none
        · rw [if_neg vector]
          exact Or.inl ⟨rfl, rfl⟩

theorem inert_of_noninterfering {block : IgnoredRecord} (wellFormed : block.WellFormed)
    (free : NoninterferingInside block) :
    ∀ word ∈ block.interior, Inert word := by
  obtain ⟨notStop, notEmpty⟩ := properId wellFormed
  obtain ⟨header, reader, effect, declared, only⟩ := exists_header block notStop
  obtain ⟨last, run, time⟩ := run_of_noninterfering free effect declared whole_nil rfl
  obtain ⟨last', run', time'⟩ := run_of_noninterfering free effect declared (whole_marker ['1'] (by simp)) rfl
  obtain ⟨from0, -, known⟩ := parseRecords_run run (Nat.zero_le _)
  obtain ⟨from1, -, -⟩ := parseRecords_run run' (Nat.zero_le _)
  have timeless : ∀ now, Record.marker (some (.ofNat now)) ∉ valueRecords block.words := by
    intro now mem
    have same := timeAfter_independent mem 0 1
    rw [show (0 : Nat) = (ValueLoop.init reader.vcd).time from rfl,← from0,time] at same
    have one : (valueRecords block.words).foldl Record.timeAfter 1 = 1 := from1.symm.trans time'
    rw [one] at same
    cases same
  have unmarked : ∀ record ∈ valueRecords block.words, record.id? = none → record = .ignored := by
    intro record mem none
    cases record with
    | marker now =>
      obtain ⟨value, rfl⟩ := (known _ mem).2 now rfl
      exact absurd mem (timeless value)
    | scalar value id => cases none
    | vector text id => cases none
    | ignored => rfl
  have part : ∀ word ∈ block.interior, word ∈ block.words := by
    cases block with
    | real number id => exact fun word mem => List.mem_cons_of_mem _ mem
    | string text id => exact fun word mem => List.mem_cons_of_mem _ mem
    | comment body => exact fun word mem => List.mem_cons_of_mem _ (List.mem_append_left _ mem)
  have own : ∀ (first : Char) (number : List Char) (id : Token), Inert (first :: number) →
    block.words = [first :: number, id] →
      block.id? = some id → ∀ record ∈ valueRecords block.words, record = .ignored := by
    intro first number id leading words variable_
    have records : valueRecords block.words = [.ignored, (firstRecord id []).1] := by
      have empty : (firstRecord id []).2 = [] := List.length_eq_zero_iff.mp (Nat.le_zero.mp (firstRecord_length id []))
      rw [words,valueRecords_cons,firstRecord_of_inert leading,valueRecords_cons,empty]
      rfl
    have nothing : (firstRecord id []).1.id? = none := by
      have nonempty : id ≠ [] := fun same => notEmpty (variable_.trans (congrArg some same))
      refine firstRecord_own nonempty (fun other here => ?_) (Ne.symm nonempty)
      have present := (known (firstRecord id []).1 (by rw [records]; simp)).1 other here
      exact (Option.some.inj (variable_.symm.trans (only other present))).symm
    intro record mem
    refine unmarked record mem ?_
    rw [records] at mem
    rcases List.mem_cons.mp mem with rfl | later
    · rfl
    · rw [List.mem_singleton.mp later]
      exact nothing
  refine fun word mem => inert_of_records ?_ word (part word mem)
  cases block with
  | real number id => exact own 'r' number id ⟨fun hash => absurd hash.1 (by decide), by decide, by decide⟩ rfl rfl
  | string text id => exact own 's' text id ⟨fun hash => absurd hash.1 (by decide), by decide, by decide⟩ rfl rfl
  | comment body =>
    intro record mem
    refine unmarked record mem ?_
    cases found : record.id? with
    | none => rfl
    | some id => cases only id ((known record mem).1 id found)

/-- A comment in front of the section is one more statement of the header. -/
theorem comment_atStart (opens : Token → Prop) (closed : Keyword.stop ∉ body) :
    NoninterferingAtStart opens (.comment body) := by
  intro maxEventNum header reader opening after out effect _ _ accepted
  refine ⟨out, ?_, ⟨fun _ _ => rfl, rfl, rfl⟩⟩
  have effect' : headerEffect .init (header ++ [(⟨Keyword.comment, body, closed⟩ : Stmt)]) = some reader := by
    rw [headerEffect,List.foldlM_append]
    refine Option.bind_eq_some_iff.mpr ⟨reader, effect, rfl⟩
  have words : header.flatMap Stmt.words ++ ((IgnoredRecord.comment body).words ++ opening :: after) =
      (header ++ [(⟨Keyword.comment, body, closed⟩ : Stmt)]).flatMap Stmt.words ++ opening :: after := by
    simp [IgnoredRecord.words,Stmt.words]
  rw [words,VcdReader.readTokens,← headerOf,headerOf_statements effect']
  rw [VcdReader.readTokens,← headerOf,headerOf_statements effect] at accepted
  exact accepted

/-- A change of a real or a string variable, by its first character. -/
def valueChange (block : IgnoredRecord) (first : Char) (number : List Char) (id : Token) : Prop :=
  block.words = [first :: number, id] ∧ block.interior = [id] ∧ block.id? = some id ∧
    Inert (first :: number) ∧ first ≠ '$'

theorem valueChange_of_not_comment {block : IgnoredRecord} (other : ¬ block.IsComment) :
    ∃ first number id, valueChange block first number id := by
  cases block with
  | real number id =>
    exact ⟨'r', number, id, rfl, rfl, rfl, ⟨fun hash => absurd hash.1 (by decide), by decide, by decide⟩, by decide⟩
  | string text id =>
    exact ⟨'s', text, id, rfl, rfl, rfl, ⟨fun hash => absurd hash.1 (by decide), by decide, by decide⟩, by decide⟩
  | comment body => exact absurd trivial other

/-- A change in front of a section without values: its id and the opening word reach the loop. -/
theorem run_atStart {first : Char} {number : List Char} {id : Token} {block : IgnoredRecord} {opens : Token → Prop}
    (wellFormed : block.WellFormed) (change : valueChange block first number id)
    (free : NoninterferingAtStart opens block) (opening : Token) (opened : opens opening) (general : Opens opening)
    (other : opening ≠ id) : ∃ vcd last,
      (valueRecords [id, opening]).foldlM (ValueLoop.parseRecord 1) (ValueLoop.init vcd) = some last ∧ last.time = 0 ∧
      ((firstRecord id [opening]).1 = .ignored ∧ (firstRecord id [opening]).2 = [opening] ∨
        ∃ tail, id = '#' :: tail ∧ tail ≠ [] ∧ firstRecord id [opening] = (.marker (stoll tail), [opening])) := by
  obtain ⟨words, -, variable_, leading, letter⟩ := change
  obtain ⟨notStop, notEmpty⟩ := properId wellFormed
  obtain ⟨header, reader, effect, declared, only⟩ := exists_header block notStop
  have fresh := fresh_header fresh_init effect
  obtain ⟨out', run', same⟩ := free 1 header reader opening [] _ effect opened declared
    ((readTokens_section 1 effect general _).trans ((parseVarValues_eq_some fresh).mpr ⟨_, rfl, rfl⟩))
  have opens' : Opens (first :: number) := Or.inr (Or.inr ⟨first, number, rfl, letter⟩)
  rw [words,List.cons_append,List.singleton_append,readTokens_section 1 effect opens'] at run'
  obtain ⟨last, run, rfl⟩ := (parseVarValues_eq_some fresh).mp run'
  refine ⟨reader.vcd, last, run, same.timeMax, firstRecord_no_id (firstRecord_own ?_ (fun found here => ?_) other)⟩
  · exact fun empty => notEmpty (variable_.trans (congrArg some empty))
  · obtain ⟨-, -, known⟩ := parseRecords_run run (Nat.zero_le _)
    rw [valueRecords_cons] at known
    have present := (known _ (List.mem_cons_self ..)).1 found here
    exact (Option.some.inj (variable_.symm.trans (only found present))).symm

theorem inert_keyword (tail : List Char) : Inert ('$' :: tail) :=
  ⟨fun hash => absurd hash.1 (by decide), by decide, by decide⟩

theorem atStart_dump_iff {block : IgnoredRecord} (wellFormed : block.WellFormed) :
    NoninterferingAtStart (fun opening => opening = Keyword.dumpvars ∨ opening = Keyword.dumpall) block ↔
      block.IsComment ∨ ∀ word ∈ block.interior, Inert word ∨ ZeroMarker word := by
  constructor
  · intro free
    by_cases comment : block.IsComment
    · exact Or.inl comment
    · obtain ⟨first, number, id, change⟩ := valueChange_of_not_comment comment
      right
      rw [change.2.1]
      intro word mem
      obtain rfl := List.mem_singleton.mp mem
      by_cases opening : Keyword.dumpvars = word
      · exact Or.inl (opening ▸ inert_keyword _)
      · obtain ⟨vcd, last, run, time, ⟨ignored, -⟩ | ⟨tail, rfl, nonempty, marker⟩⟩ :=
          run_atStart wellFormed change free Keyword.dumpvars (Or.inl rfl) (Or.inl rfl) opening
        · exact Or.inl ((inert_iff _ _).mpr ignored)
        · obtain ⟨final, -, known⟩ := parseRecords_run run (Nat.zero_le _)
          have records : valueRecords ['#' :: tail, Keyword.dumpvars] = [.marker (stoll tail), .ignored] := by
            rw [valueRecords_cons,marker]
            rfl
          rw [records] at final known
          obtain ⟨now, value⟩ := (known _ (List.mem_cons_self ..)).2 _ rfl
          refine Or.inr ⟨tail, rfl, nonempty, ?_⟩
          rw [value] at final ⊢
          have zero : last.time = now := final
          rw [← zero,time]
          rfl
  · intro fine
    by_cases comment : block.IsComment
    · cases block with
      | comment body => exact comment_atStart _ wellFormed
      | real number id => cases comment
      | string text id => cases comment
    · obtain ⟨first, number, id, words, interior, variable_, leading, letter⟩ := valueChange_of_not_comment comment
      intro maxEventNum header reader opening after out effect opened declared accepted
      have general : Opens opening := opened.imp_right Or.inl
      have keyword : Inert opening := by
        rcases opened with rfl | rfl <;> exact inert_keyword _
      have fresh := fresh_header fresh_init effect
      have opens' : Opens (first :: number) := Or.inr (Or.inr ⟨first, number, rfl, letter⟩)
      rw [readTokens_section maxEventNum effect general] at accepted
      rw [words,List.cons_append,List.singleton_append,readTokens_section maxEventNum effect opens']
      refine ⟨out, ?_, ⟨fun _ _ => rfl, rfl, rfl⟩⟩
      obtain ⟨last, run, rfl⟩ := (parseVarValues_eq_some fresh).mp accepted
      refine (parseVarValues_eq_some fresh).mpr ⟨last, ?_, rfl⟩
      have still : ∀ rest, (Record.ignored :: rest).foldlM (ValueLoop.parseRecord maxEventNum)
        (ValueLoop.init reader.vcd) =
          rest.foldlM (ValueLoop.parseRecord maxEventNum) (ValueLoop.init reader.vcd) := by
        intro rest
        rw [List.foldlM_cons,ValueLoop.parseRecord,ValueLoop.countRecords,
          count_zero (show (ValueLoop.init reader.vcd).slicer.nCurIntervalEvent ≤ maxEventNum from Nat.zero_le _)]
        rfl
      have word := fine.resolve_left comment id (by rw [interior]; exact List.mem_cons_self ..)
      rcases word with inert | ⟨tail, rfl, nonempty, zero⟩
      · rw [valueRecords_cons,firstRecord_of_inert inert,still,valueRecords_cons,firstRecord_of_inert keyword,still]
        exact run
      · have marker : (Record.marker (some 0) :: .ignored ::
          valueRecords after).foldlM (ValueLoop.parseRecord maxEventNum)
            (ValueLoop.init reader.vcd) =
              (Record.ignored :: valueRecords after).foldlM (ValueLoop.parseRecord maxEventNum)
            (ValueLoop.init reader.vcd) := by
          rw [List.foldlM_cons]
          have step : ValueLoop.parseRecord maxEventNum (ValueLoop.init reader.vcd) (.marker (some 0)) =
              some (ValueLoop.init reader.vcd) := by
            show some ((ValueLoop.init reader.vcd).countRecords maxEventNum 0) = _
            rw [ValueLoop.countRecords,
              count_zero (show (ValueLoop.init reader.vcd).slicer.nCurIntervalEvent ≤ maxEventNum from Nat.zero_le _)]
          rw [step]
          rfl
        rw [valueRecords_cons,firstRecord,if_pos ⟨rfl, nonempty⟩,zero,valueRecords_cons,firstRecord_of_inert keyword,
          marker,still]
        exact run

/-- In front of any other word, which the loop over the header takes when nothing is set before it. -/
theorem atStart_word_iff {block : IgnoredRecord} (wellFormed : block.WellFormed) :
    NoninterferingAtStart (fun opening => ∃ ch tail, opening = ch :: tail ∧ ch ≠ '$') block ↔ block.IsComment := by
  constructor
  · intro free
    by_contra comment
    obtain ⟨first, number, id, change⟩ := valueChange_of_not_comment comment
    have late : ∀ digits : List Char, ∀ now : Nat, digits ≠ [] → stoll digits = some (.ofNat now) → 0 < now →
      ('#' :: digits) ≠ id → False := by
      intro digits now nonempty value positive other
      obtain ⟨vcd, last, run, time, shape⟩ :=
        run_atStart wellFormed change free ('#' :: digits) ⟨_, _, rfl, by decide⟩
          (Or.inr (Or.inr ⟨_, _, rfl, by decide⟩)) other
      obtain ⟨final, -, -⟩ := parseRecords_run run (Nat.zero_le _)
      have second : (firstRecord id ['#' :: digits]).2 = ['#' :: digits] := by
        rcases shape with ⟨-, rest⟩ | ⟨tail, -, -, marker⟩
        · exact rest
        · rw [marker]
      rw [valueRecords_cons,second,valueRecords_cons,firstRecord,if_pos ⟨rfl, nonempty⟩,value] at final
      have reached : last.time = now := final
      omega
    by_cases five : ['#', '5'] = id
    · exact late ['7'] 7 (by simp) rfl (by decide) (by rw [← five]; decide)
    · exact late ['5'] 5 (by simp) rfl (by decide) five
  · intro comment
    cases block with
    | comment body => exact comment_atStart _ wellFormed
    | real number id => cases comment
    | string text id => cases comment

/-- A record the reader ignores disturbs no dump exactly when no word of it looks like a time, a value or a vector,
inside a section; in front of a section of initial values the id of a change may also be a marker of time 0; in front of
any other section only a comment can be set. -/
theorem ignoredRecord_iff (block : IgnoredRecord) (wellFormed : block.WellFormed) :
    (NoninterferingInside block ↔ ∀ word ∈ block.interior, Inert word) ∧
    (NoninterferingAtStart (fun opening => opening = Keyword.dumpvars ∨ opening = Keyword.dumpall) block ↔
      block.IsComment ∨ ∀ word ∈ block.interior, Inert word ∨ ZeroMarker word) ∧
    (NoninterferingAtStart (fun opening => ∃ ch tail, opening = ch :: tail ∧ ch ≠ '$') block ↔ block.IsComment) :=
  ⟨⟨inert_of_noninterfering wellFormed, inside_of_inert⟩, atStart_dump_iff wellFormed, atStart_word_iff wellFormed⟩

theorem ignoredRecord_real : NoninterferingInside (.real ['1', '.', '5'] ['@']) := by
  refine (ignoredRecord_iff (.real ['1', '.', '5'] ['@']) ⟨by simp, by decide⟩).1.mpr fun word mem => ?_
  obtain rfl := List.mem_singleton.mp mem
  exact ⟨fun hash => absurd hash.1 (by decide), by decide, by decide⟩

/-- The id of a real variable is read as a time. -/
theorem realId_read_as_time : ∃ out out',
    VcdReader.readTokens 100 ((realHeader ['#', '7'] (by decide)).flatMap Stmt.words ++ [Keyword.dumpvars]) = some out ∧
    VcdReader.readTokens 100 ((realHeader ['#', '7'] (by decide)).flatMap Stmt.words ++
      Keyword.dumpvars :: (IgnoredRecord.real ['1', '.', '5'] ['#', '7']).words) = some out' ∧
    out.timeMax = 0 ∧ out'.timeMax = 7 ∧ ¬ NoninterferingInside (.real ['1', '.', '5'] ['#', '7']) := by
  refine ⟨_, _, rfl, rfl, rfl, rfl, fun free => ?_⟩
  obtain ⟨out', run, same⟩ :=
    free 100 (realHeader ['#', '7'] (by decide)) (realReader ['#', '7']) Keyword.dumpvars [] [] _
    (realHeader_effect _ _) (Or.inl rfl) whole_nil ⟨_, List.mem_cons_self .., rfl, rfl⟩ rfl
  obtain rfl := Option.some.inj run
  exact absurd same.timeMax (by decide)

end Noninterference
end GTPower
