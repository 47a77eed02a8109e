import GTPower.VcdReader

/-! What the reader makes of a dump: the header statements one after the other, then every record of the value
section. The loop over the header takes the first word of a section that does not begin with a keyword. -/
namespace GTPower

section Records

theorem firstRecord_length (token : Token) (rest : List Token) : (firstRecord token rest).2.length ≤ rest.length := by
  have tail : rest.tail.length ≤ rest.length := by rw [List.length_tail]; omega
  cases token with
  | nil => exact Nat.le_refl _
  | cons ch word =>
    rw [firstRecord]
    split
    · exact Nat.le_refl _
    · cases scalarValue ch.toUpper with
      | some value => exact Nat.le_refl _
      | none =>
        dsimp only
        split
        · exact tail
        · exact Nat.le_refl _

theorem valueRecordsFrom_of_enough (enough : words.length ≤ fuel) :
    valueRecordsFrom fuel words = valueRecords words := by
  have agree : ∀ {size fuel fuel' : Nat} {words : List Token}, words.length ≤ size → words.length ≤ fuel →
    words.length ≤ fuel' →
      valueRecordsFrom fuel words = valueRecordsFrom fuel' words := by
    intro size
    induction size with
    | zero =>
      intro fuel fuel' words small _ _
      obtain rfl : words = [] := List.length_eq_zero_iff.mp (by omega)
      cases fuel <;> cases fuel' <;> rfl
    | succ size ih =>
      intro fuel fuel' words small more more'
      cases words with
      | nil => cases fuel <;> cases fuel' <;> rfl
      | cons token rest =>
        rw [List.length_cons] at small more more'
        obtain ⟨fuel, rfl⟩ := Nat.exists_eq_succ_of_ne_zero (show fuel ≠ 0 by omega)
        obtain ⟨fuel', rfl⟩ := Nat.exists_eq_succ_of_ne_zero (show fuel' ≠ 0 by omega)
        have less := firstRecord_length token rest
        exact congrArg _ (ih (by omega) (by omega) (by omega))
  exact agree (Nat.le_refl _) enough (Nat.le_refl _)

@[simp] theorem valueRecords_nil : valueRecords [] = [] := rfl

theorem valueRecords_cons (token : Token) (rest : List Token) :
    valueRecords (token :: rest) = (firstRecord token rest).1 :: valueRecords (firstRecord token rest).2 := by
  rw [← valueRecordsFrom_of_enough (firstRecord_length token rest)]
  rfl

end Records

/-- One entry of a value section: a time marker, the change of a scalar or of a vector, the begin and the end of a
section of initial values. -/
inductive BodyItem where
  | marker (digits : List Char)
  | scalar (value : Char) (id : Token)
  | vector (letter : Char) (text : List Char) (id : Token)
  | dumpvars
  | stop
  deriving DecidableEq

namespace BodyItem

def words : BodyItem → List Token
  | marker digits => ['#' :: digits]
  | scalar value id => [value :: id]
  | vector letter text id => [letter :: text, id]
  | dumpvars => [Keyword.dumpvars]
  | stop => [Keyword.stop]

/-- Decimal time that fits its type, a value of a scalar, the letter of a vector. -/
def WellFormed : BodyItem → Prop
  | marker digits => digits ≠ [] ∧ (∀ ch ∈ digits, ch.isDigit) ∧ decimalValue digits < 2 ^ 63
  | scalar value _ => (scalarValue value.toUpper).isSome
  | vector letter _ _ => letter = 'b' ∨ letter = 'B'
  | dumpvars => True
  | stop => True

def toRecord : BodyItem → Record
  | marker digits => .marker (some (decimalValue digits))
  | scalar value id => .scalar ((scalarValue value.toUpper).getD .x) id
  | vector _ text id => .vector text id
  | dumpvars => .ignored
  | stop => .ignored

/-- The variable an entry changes and its new value. -/
def change? : BodyItem → Option (Token × VarChange)
  | scalar value id => some (id, .scalar ((scalarValue value.toUpper).getD .x))
  | vector _ text id => some (id, .bus (busValueOf text) text.length)
  | _ => none

def nParsedEvent : BodyItem → Nat
  | scalar _ _ => 1
  | vector _ text _ => text.length
  | _ => 0

def timeAfter (time : Nat) : BodyItem → Nat
  | marker digits => decimalValue digits
  | _ => time

/-- Changes of a variable with the time of the marker before them. -/
def changesOf (id : Token) : Nat → List BodyItem → List (Nat × VarChange)
  | _, [] => []
  | time, item :: rest =>
    match item.change? with
    | none => changesOf id (item.timeAfter time) rest
    | some (other, change) => if other = id then (time, change) :: changesOf id time rest else changesOf id time rest

def lastMarker (time : Nat) (items : List BodyItem) : Nat := items.foldl timeAfter time

end BodyItem

section Body

theorem parseInteger_digits {digits : List Char} (nonempty : digits ≠ []) (decimal : ∀ ch ∈ digits, ch.isDigit)
    (fits : decimalValue digits < 2 ^ 63) : stoll digits = some (decimalValue digits : Int) := by
  have sign : ∀ ch, ch.isDigit → ch ≠ '-' ∧ ch ≠ '+' := by
    rintro ch digit
    constructor <;> rintro rfl <;> exact absurd digit (by decide)
  obtain ⟨first, rest, rfl⟩ := List.exists_cons_of_ne_nil nonempty
  obtain ⟨noMinus, noPlus⟩ := sign first (decimal first (List.mem_cons_self ..))
  have all : (first :: rest).takeWhile Char.isDigit = first :: rest := List.takeWhile_eq_self_iff.mpr decimal
  have minus : ¬ some first = some '-' := by simp [noMinus]
  have plus : ¬ some first = some '+' := by simp [noPlus]
  have inside : ¬ (first :: rest = [] ∨ (decimalValue (first :: rest) : Int) < -(2 ^ 63 : Nat) ∨
      ((2 ^ 63 : Nat) : Int) ≤ decimalValue (first :: rest)) := by
    rintro (empty | low | high)
    · exact absurd empty (List.cons_ne_nil first rest)
    · omega
    · omega
  simp only [stoll,parseInteger,List.head?_cons,minus,plus,or_self,if_false,all]
  exact if_neg inside

theorem scalarValue_not_hash (value : Char) (scalar : (scalarValue value.toUpper).isSome) : value ≠ '#' := by
  rintro rfl
  exact absurd scalar (by decide)

theorem firstRecord_item {item : BodyItem} (wellFormed : item.WellFormed) (rest : List Token) :
    valueRecords (item.words ++ rest) = item.toRecord :: valueRecords rest := by
  cases item with
  | marker digits =>
    obtain ⟨nonempty, decimal, fits⟩ := wellFormed
    rw [BodyItem.words,List.singleton_append,valueRecords_cons,firstRecord,if_pos ⟨rfl, nonempty⟩,
      parseInteger_digits nonempty decimal fits]
    rfl
  | scalar value id =>
    obtain ⟨char, found⟩ := Option.isSome_iff_exists.mp wellFormed
    rw [BodyItem.words,List.singleton_append,valueRecords_cons,firstRecord,
      if_neg fun hash => scalarValue_not_hash value wellFormed hash.1,BodyItem.toRecord,found]
    rfl
  | vector letter text id =>
    have upper : letter.toUpper = 'B' ∧ letter ≠ '#' := by
      rcases wellFormed with rfl | rfl <;> decide
    rw [BodyItem.words,List.cons_append,valueRecords_cons,firstRecord,if_neg fun hash => upper.2 hash.1,upper.1]
    rfl
  | dumpvars => rfl
  | stop => rfl

theorem valueRecords_items {items : List BodyItem} (wellFormed : ∀ item ∈ items, item.WellFormed) :
    valueRecords (items.flatMap BodyItem.words) = items.map BodyItem.toRecord := by
  induction items with
  | nil => rfl
  | cons item rest ih =>
    rw [List.flatMap_cons,firstRecord_item (wellFormed item (List.mem_cons_self ..)),
      ih fun other mem => wellFormed other (List.mem_cons_of_mem _ mem)]
    rfl

namespace ValueLoop
variable {maxEventNum : Nat} {loop : ValueLoop}

theorem append_eq {id : Token} (declared : loop.idValues id = some values) (change : VarChange) :
    loop.append id change = (parseVarValue values loop.time change).map fun values =>
      { loop with idValues := Function.update loop.idValues id (some values) } := by
  rw [append,declared]
  simp only [Option.bind_eq_bind,Option.bind_some,Option.pure_def]
  cases parseVarValue values loop.time change <;> rfl

theorem parseRecord_still {item : BodyItem} (still : item.change? = none) :
    ∃ next, loop.parseRecord maxEventNum item.toRecord = some next ∧ next.idValues = loop.idValues ∧
      next.time = item.timeAfter loop.time ∧
        next.slicer = loop.slicer.count maxEventNum next.time item.nParsedEvent := by
  cases item with
  | marker digits => exact ⟨_, rfl, rfl, rfl, rfl⟩
  | scalar value id => cases still
  | vector letter text id => cases still
  | dumpvars => exact ⟨_, rfl, rfl, rfl, rfl⟩
  | stop => exact ⟨_, rfl, rfl, rfl, rfl⟩

theorem parseRecord_change {item : BodyItem} {id : Token} (changes : item.change? = some (id, change))
    (declared : loop.idValues id = some values) :
    loop.parseRecord maxEventNum item.toRecord = (parseVarValue values loop.time change).map fun values =>
      { loop with
        idValues := Function.update loop.idValues id (some values)
        slicer := loop.slicer.count maxEventNum loop.time item.nParsedEvent } := by
  cases item with
  | marker digits => cases changes
  | scalar value id' =>
    obtain ⟨rfl, rfl⟩ := Prod.mk.inj (Option.some.inj changes)
    rw [BodyItem.toRecord,parseRecord,append_eq declared,Option.map_map]
    rfl
  | vector letter text id' =>
    obtain ⟨rfl, rfl⟩ := Prod.mk.inj (Option.some.inj changes)
    rw [BodyItem.toRecord,parseRecord,append_eq declared,Option.map_map]
    rfl
  | dumpvars => cases changes
  | stop => cases changes

/-- The values a variable ends with: its changes appended one after the other, if the assertions hold. -/
def expected (loop : ValueLoop) (id : Token) (items : List BodyItem) : Option (List VcdValue) :=
  (loop.idValues id).bind fun values =>
    (BodyItem.changesOf id loop.time items).foldlM (fun values change => parseVarValue values change.1 change.2) values

theorem timeAfter_change {item : BodyItem} (changes : item.change? = some change) (time : Nat) :
    item.timeAfter time = time := by
  cases item with
  | marker digits => cases changes
  | _ => rfl

theorem expected_change {item : BodyItem} {id : Token} (changes : item.change? = some (id, change))
    (present : loop.idValues id = some old)
    (rest : List BodyItem) : loop.expected id (item :: rest) = (parseVarValue old loop.time change).bind fun values =>
      (BodyItem.changesOf id loop.time rest).foldlM (fun values change => parseVarValue values change.1 change.2)
        values := by
  rw [expected,present,BodyItem.changesOf,changes]
  dsimp only
  rw [if_pos rfl]
  rfl

/-- After a change is appended, what every variable is still to become is the same. -/
theorem expected_next {item : BodyItem} {id : Token} (changes : item.change? = some (id, change))
    (present : loop.idValues id = some old)
    (parsed : parseVarValue old loop.time change = some values') (slicer : Slicer) (rest : List BodyItem)
    (other : Token) :
    expected { loop with idValues := Function.update loop.idValues id (some values'), slicer := slicer } other rest =
      loop.expected other (item :: rest) := by
  by_cases here : other = id
  · subst here
    rw [expected_change changes present,parsed,expected]
    dsimp only
    rw [Function.update_self]
  · rw [expected,expected,BodyItem.changesOf,changes]
    dsimp only
    rw [Function.update_of_ne here,if_neg (Ne.symm here)]

/-- The loop over the entries ends exactly when the changes of every variable can be appended, with these values and
the time of the last marker. -/
theorem parseRecords_spec (items : List BodyItem)
    (declared : ∀ item ∈ items, ∀ id change, item.change? = some (id, change) → (loop.idValues id).isSome) :
    ((∀ id, (loop.idValues id).isSome → (loop.expected id items).isSome) →
      ∃ last, (items.map BodyItem.toRecord).foldlM (parseRecord maxEventNum) loop = some last ∧
        (∀ id, last.idValues id = loop.expected id items) ∧ last.time = BodyItem.lastMarker loop.time items) ∧
    ((items.map BodyItem.toRecord).foldlM (parseRecord maxEventNum) loop ≠ none →
      ∀ id, (loop.idValues id).isSome → (loop.expected id items).isSome) := by
  induction items generalizing loop with
  | nil =>
    have same : ∀ id, loop.expected id [] = loop.idValues id := fun id => by
      rw [expected]
      cases loop.idValues id <;> rfl
    exact ⟨fun _ => ⟨loop, rfl, fun id => (same id).symm, rfl⟩, fun _ id present => by rw [same id]; exact present⟩
  | cons item rest ih =>
    rw [List.map_cons,List.foldlM_cons]
    cases changes : item.change? with
    | none =>
      obtain ⟨next, run, values, time, -⟩ := @parseRecord_still maxEventNum loop item changes
      have same : ∀ id, next.expected id rest = loop.expected id (item :: rest) := fun id => by
        rw [expected,expected,values,time,BodyItem.changesOf,changes]
      have known : ∀ other ∈ rest, ∀ id change, other.change? = some (id, change) → (next.idValues id).isSome := by
        intro other mem id change here
        rw [values]
        exact declared other (List.mem_cons_of_mem _ mem) id change here
      obtain ⟨enough, needed⟩ := ih known
      simp only [same,values,time] at enough needed
      rw [run]
      exact ⟨enough, needed⟩
    | some found =>
      obtain ⟨id, change⟩ := found
      obtain ⟨old, present⟩ := Option.isSome_iff_exists.mp (declared item (List.mem_cons_self ..) id change changes)
      have own := expected_change changes present rest
      rw [parseRecord_change changes present]
      cases parsed : parseVarValue old loop.time change with
      | none =>
        rw [parsed] at own
        constructor
        · intro all
          have := all id (by rw [present]; rfl)
          rw [own] at this
          cases this
        · intro run
          exact absurd rfl run
      | some values' =>
        have same := expected_next changes present parsed
          (loop.slicer.count maxEventNum loop.time item.nParsedEvent) rest
        have kept : ∀ other, (Function.update loop.idValues id (some values') other).isSome =
          (loop.idValues other).isSome := by
          intro other
          by_cases here : other = id
          · subst here
            rw [Function.update_self,present]
            rfl
          · rw [Function.update_of_ne here]
        let next : ValueLoop := { loop with
          idValues := Function.update loop.idValues id (some values')
          slicer := loop.slicer.count maxEventNum loop.time item.nParsedEvent }
        have known : ∀ other ∈ rest, ∀ id' change', other.change? = some (id', change') →
          (next.idValues id').isSome := by
          intro other mem id' change' here
          rw [kept]
          exact declared other (List.mem_cons_of_mem _ mem) id' change' here
        obtain ⟨enough, needed⟩ := ih known
        simp only [next,same,kept] at enough needed
        have time : BodyItem.lastMarker loop.time (item :: rest) = BodyItem.lastMarker loop.time rest := by
          rw [BodyItem.lastMarker,List.foldl_cons,timeAfter_change changes]
          rfl
        rw [time]
        exact ⟨enough, needed⟩

end ValueLoop
end Body

/-- A statement of the header, without its end. -/
structure Stmt where
  keyword : Token
  arguments : List Token
  closed : Keyword.stop ∉ arguments

def Stmt.words (stmt : Stmt) : List Token := stmt.keyword :: stmt.arguments ++ [Keyword.stop]

/-- The statements take effect one after the other. -/
def headerEffect (reader : VcdReader) (header : List Stmt) : Option VcdReader :=
  header.foldlM (fun reader stmt => (parseStmt reader stmt.keyword stmt.arguments).join) reader

def headerOf (words : List Token) (reader : VcdReader) : Option (VcdReader × Option (List Token)) :=
  readHeader (words.length + 1) words reader

section Header

theorem readStmtTokens_length (words : List Token) : (readStmtTokens words).2.length ≤ words.length := by
  rw [readStmtTokens,List.length_tail]
  have := (show words.dropWhile (· ≠ Keyword.stop) <:+ words from List.dropWhile_suffix _).length_le
  omega

theorem readHeader_of_enough (enough : words.length < fuel) (reader : VcdReader) :
    readHeader fuel words reader = headerOf words reader := by
  have agree : ∀ {size fuel fuel' : Nat} {words : List Token} {reader : VcdReader}, words.length ≤ size →
    words.length < fuel →
      words.length < fuel' → readHeader fuel words reader = readHeader fuel' words reader := by
    intro size
    induction size with
    | zero =>
      intro fuel fuel' words reader small more more'
      obtain rfl : words = [] := List.length_eq_zero_iff.mp (by omega)
      obtain ⟨fuel, rfl⟩ := Nat.exists_eq_succ_of_ne_zero (show fuel ≠ 0 by omega)
      obtain ⟨fuel', rfl⟩ := Nat.exists_eq_succ_of_ne_zero (show fuel' ≠ 0 by omega)
      rfl
    | succ size ih =>
      intro fuel fuel' words reader small more more'
      obtain ⟨fuel, rfl⟩ := Nat.exists_eq_succ_of_ne_zero (show fuel ≠ 0 by omega)
      obtain ⟨fuel', rfl⟩ := Nat.exists_eq_succ_of_ne_zero (show fuel' ≠ 0 by omega)
      cases words with
      | nil => rfl
      | cons token rest =>
        rw [List.length_cons] at small more more'
        have less := readStmtTokens_length rest
        rw [readHeader,readHeader]
        cases parseStmt reader token (readStmtTokens rest).1 with
        | none => rfl
        | some result =>
          cases result with
          | none => rfl
          | some next => exact ih (by omega) (by omega) (by omega)
  exact agree (Nat.le_refl _) enough (Nat.lt_succ_self _)

theorem headerOf_nil (reader : VcdReader) : headerOf [] reader = some (reader, none) := rfl

theorem headerOf_stmt (effect : parseStmt reader token (readStmtTokens rest).1 = some (some next)) :
    headerOf (token :: rest) reader = headerOf (readStmtTokens rest).2 next := by
  have less := readStmtTokens_length rest
  rw [headerOf,readHeader,effect]
  exact readHeader_of_enough (by rw [List.length_cons]; omega) next

theorem parseStmt_none (reader : VcdReader) {ch : Char} (first : ch ≠ '$') (tail : List Char) (words : List Token) :
    parseStmt reader (ch :: tail) words = none := by
  have other : ∀ keyword : Token, keyword.head? = some '$' → ch :: tail ≠ keyword := by
    rintro keyword head rfl
    exact first (Option.some.inj head)
  unfold parseStmt
  rw [if_neg (by rintro (here | here | here | here) <;> exact other _ rfl here),if_neg (other _ rfl),
    if_neg (other _ rfl),
    if_neg (other _ rfl),if_neg (other _ rfl)]

theorem readStmtTokens_closed (closed : Keyword.stop ∉ arguments) (rest : List Token) :
    readStmtTokens (arguments ++ Keyword.stop :: rest) = (arguments, rest) := by
  have words : ∀ word ∈ arguments, decide (word ≠ Keyword.stop) = true := fun word mem =>
    decide_eq_true fun same => closed (same ▸ mem)
  rw [readStmtTokens,List.takeWhile_append_of_pos words,List.dropWhile_append_of_pos words]
  simp

theorem readStmtTokens_open (closed : Keyword.stop ∉ arguments) : readStmtTokens arguments = (arguments, []) := by
  have words : ∀ word ∈ arguments, decide (word ≠ Keyword.stop) = true := fun word mem =>
    decide_eq_true fun same => closed (same ▸ mem)
  rw [readStmtTokens,List.takeWhile_eq_self_iff.mpr words,List.dropWhile_eq_nil_iff.mpr words]
  rfl

theorem parseStmt_of_effect (effect : headerEffect reader (stmt :: header) = some last) :
    ∃ next, parseStmt reader stmt.keyword stmt.arguments = some (some next) ∧ headerEffect next header = some last := by
  rw [headerEffect,List.foldlM_cons] at effect
  obtain ⟨next, step, rest⟩ := Option.bind_eq_some_iff.mp effect
  exact ⟨next, Option.join_eq_some_iff.mp step, rest⟩

theorem headerOf_statements (effect : headerEffect reader header = some last) (rest : List Token) :
    headerOf (header.flatMap Stmt.words ++ rest) reader = headerOf rest last := by
  induction header generalizing reader with
  | nil =>
    obtain rfl := Option.some.inj effect
    rfl
  | cons stmt header ih =>
    obtain ⟨next, step, later⟩ := parseStmt_of_effect effect
    have read := readStmtTokens_closed stmt.closed (header.flatMap Stmt.words ++ rest)
    have words : (stmt :: header).flatMap Stmt.words ++ rest =
        stmt.keyword :: (stmt.arguments ++ Keyword.stop :: (header.flatMap Stmt.words ++ rest)) := by
      simp [Stmt.words]
    rw [words,@headerOf_stmt _ _ _ next (by rw [read]; exact step),read]
    exact ih later

/-- The end of the last statement may be missing. -/
theorem headerOf_open (effect : headerEffect reader header = some last) :
    headerOf (header.flatMap Stmt.words).dropLast reader = some (last, none) := by
  rcases List.eq_nil_or_concat header with rfl | ⟨front, stmt, rfl⟩
  · obtain rfl := Option.some.inj effect
    rfl
  · rw [headerEffect,List.concat_eq_append,List.foldlM_append] at effect
    obtain ⟨middle, before, final⟩ := Option.bind_eq_some_iff.mp effect
    obtain ⟨next, step, rest⟩ := parseStmt_of_effect final
    obtain rfl := Option.some.inj rest
    have words : (front.concat stmt).flatMap Stmt.words =
        (front.flatMap Stmt.words ++ stmt.keyword :: stmt.arguments) ++ [Keyword.stop] := by
      simp [Stmt.words]
    have read := readStmtTokens_open stmt.closed
    rw [words,List.dropLast_concat,headerOf_statements before,@headerOf_stmt _ _ _ next (by rw [read]; exact step),read]
    rfl

/-- What the header leaves for the values: declared variables without values, no time and no interval. -/
structure Fresh (vcd : Vcd) : Prop where
  empty : ∀ id values, vcd.idValues id = some values → values = []
  timeMax : vcd.timeMax = 0
  timeIntervals : vcd.timeIntervals = []

theorem fresh_makeVar (fresh : Fresh reader.vcd) (var : VcdVar) : Fresh (makeVar reader var).vcd where
  empty id values found := by
    by_cases same : id = var.id
    · subst same
      simp only [makeVar,Function.update_self,Option.some.injEq] at found
      exact found.symm
    · simp only [makeVar,Function.update_of_ne same] at found
      exact fresh.empty id values found
  timeMax := fresh.timeMax
  timeIntervals := fresh.timeIntervals

theorem fresh_parseVar (fresh : Fresh reader.vcd) (parsed : parseVar reader words = some next) : Fresh next.vcd := by
  have declared : ∀ typeName width id base range, declareVar reader typeName width id base range = some next →
    Fresh next.vcd := by
    intro typeName width id base range found
    unfold declareVar at found
    split at found
    · obtain rfl := Option.some.inj found
      exact fresh
    · obtain ⟨value, -, rfl⟩ := Option.map_eq_some_iff.mp found
      exact fresh_makeVar fresh _
  unfold parseVar at parsed
  split at parsed
  · exact declared _ _ _ _ _ parsed
  · exact declared _ _ _ _ _ parsed
  · cases parsed

theorem fresh_parseTimescale (fresh : Fresh reader.vcd) (parsed : parseTimescale reader words = some next) :
    Fresh next.vcd := by
  unfold parseTimescale at parsed
  split at parsed
  · obtain ⟨⟨timeScale, unit⟩, -, rest⟩ := Option.bind_eq_some_iff.mp parsed
    obtain ⟨scale, -, rest⟩ := Option.bind_eq_some_iff.mp rest
    obtain rfl := Option.some.inj rest
    exact ⟨fresh.empty, fresh.timeMax, fresh.timeIntervals⟩
  · obtain ⟨scale, -, rest⟩ := Option.bind_eq_some_iff.mp parsed
    obtain ⟨⟨timeScale, unit⟩, -, rest⟩ := Option.bind_eq_some_iff.mp rest
    obtain rfl := Option.some.inj rest
    exact ⟨fresh.empty, fresh.timeMax, fresh.timeIntervals⟩
  · cases parsed

theorem fresh_parseStmt (fresh : Fresh reader.vcd) (parsed : parseStmt reader keyword words = some (some next)) :
    Fresh next.vcd := by
  unfold parseStmt at parsed
  split at parsed
  · obtain rfl := Option.some.inj (Option.some.inj parsed)
    exact fresh
  split at parsed
  · exact fresh_parseTimescale fresh (Option.some.inj parsed)
  split at parsed
  · exact fresh_parseVar fresh (Option.some.inj parsed)
  split at parsed
  · obtain ⟨scope, -, rfl⟩ := Option.map_eq_some_iff.mp (Option.some.inj parsed)
    exact fresh
  split at parsed
  · replace parsed := Option.some.inj parsed
    unfold parseUpscope at parsed
    split at parsed
    · cases parsed
    · obtain rfl := Option.some.inj parsed
      exact fresh
  · cases parsed

theorem fresh_header (fresh : Fresh reader.vcd) (effect : headerEffect reader header = some last) : Fresh last.vcd := by
  induction header generalizing reader with
  | nil =>
    obtain rfl := Option.some.inj effect
    exact fresh
  | cons stmt header ih =>
    obtain ⟨next, step, rest⟩ := parseStmt_of_effect effect
    exact ih (fresh_parseStmt fresh step) rest

theorem fresh_init : Fresh VcdReader.init.vcd where
  empty _ _ found := by cases found
  timeMax := rfl
  timeIntervals := rfl

end Header

/-- The entries of a value section after the word that opens it. -/
def contents : List BodyItem → List BodyItem
  | .dumpvars :: rest => rest
  | items => items

/-- The section of values is read as it is: no word of it is passed over, the values of every declared variable are its
changes, each at the time of the marker before it, and the dump ends at the last marker. -/
def SectionRead (maxEventNum : Nat) (text : List Char) (reader : VcdReader) (items : List BodyItem) : Prop :=
  ∃ entered vcd, headerOf (tokens text) .init = some (reader, entered) ∧
    entered.getD [] = (contents items).flatMap BodyItem.words ∧
    VcdReader.read maxEventNum text = some vcd ∧ vcd.timeMax = BodyItem.lastMarker 0 items ∧
    ∀ id, (reader.vcd.idValues id).isSome →
      ∃ values, parseVarValues (BodyItem.changesOf id 0 items) = some values ∧ vcd.idValues id = some values

section Faithful

theorem words_ne_nil (item : BodyItem) : ∃ token rest, item.words = token :: rest := by
  cases item <;> exact ⟨_, _, rfl⟩

theorem flatMap_words_eq_nil (items : List BodyItem) : items.flatMap BodyItem.words = [] ↔ items = [] := by
  constructor
  · intro none
    cases items with
    | nil => rfl
    | cons item rest =>
      obtain ⟨token, more, words⟩ := words_ne_nil item
      rw [List.flatMap_cons,words] at none
      cases none
  · rintro rfl
    rfl

/-- The first word of an entry other than the opening one: the loop over the header stops at it, and takes it. -/
theorem headerOf_swallows {item : BodyItem} (wellFormed : item.WellFormed) (other : item ≠ .dumpvars)
    (first : item.words = token :: more) (rest : List Token) (reader : VcdReader)
    (entered : headerOf (token :: rest) reader = some result) : result = (reader, some rest) := by
  have plain : ∀ (ch : Char) (tail : List Char), ch ≠ '$' → token = ch :: tail → result = (reader, some rest) := by
    intro ch tail letter same
    subst same
    have dumps : ¬ (ch :: tail = Keyword.dumpall ∨ ch :: tail = Keyword.dumpvars) := by
      rintro (here | here) <;> exact letter (List.cons.inj here).1
    have head : ¬ (ch :: tail).head? = some '$' := fun here => letter (Option.some.inj here)
    rw [headerOf,readHeader,parseStmt_none reader letter] at entered
    dsimp only at entered
    rw [if_neg dumps,if_neg head] at entered
    exact (Option.some.inj entered).symm
  cases item with
  | marker digits =>
    obtain ⟨rfl, -⟩ := List.cons.inj first
    exact plain _ _ (by decide) rfl
  | scalar value id =>
    obtain ⟨rfl, -⟩ := List.cons.inj first
    refine plain _ _ ?_ rfl
    rintro rfl
    exact absurd wellFormed (by simp only [BodyItem.WellFormed]; decide)
  | vector letter text id =>
    obtain ⟨rfl, -⟩ := List.cons.inj first
    refine plain _ _ ?_ rfl
    rcases wellFormed with rfl | rfl <;> decide
  | dumpvars => exact absurd rfl other
  | stop =>
    obtain ⟨rfl, -⟩ := List.cons.inj first
    rw [headerOf,readHeader] at entered
    cases entered

theorem headerOf_dumpvars (rest : List Token) (reader : VcdReader) :
    headerOf (Keyword.dumpvars :: rest) reader = some (reader, some rest) := rfl

theorem section_shorter {item : BodyItem} (wellFormed : item.WellFormed) (other : item ≠ .dumpvars)
    (items : List BodyItem)
    (seen : List Token) (part : seen.IsPrefix ((item :: items).flatMap BodyItem.words)) (reader : VcdReader)
    (entered : headerOf seen reader = some (last, values)) :
    (values.getD []).length < ((item :: items).flatMap BodyItem.words).length := by
  obtain ⟨token, more, first⟩ := words_ne_nil item
  have words : (item :: items).flatMap BodyItem.words = token :: (more ++ items.flatMap BodyItem.words) := by
    rw [List.flatMap_cons,first]
    rfl
  have short := part.length_le
  cases seen with
  | nil =>
    rw [headerOf_nil] at entered
    obtain ⟨-, rfl⟩ := Prod.mk.inj (Option.some.inj entered)
    rw [words]
    exact Nat.zero_lt_succ _
  | cons head rest =>
    obtain rfl : head = token := by
      rw [words] at part
      exact (List.cons_prefix_cons.mp part).1
    have result := headerOf_swallows wellFormed other first rest reader entered
    obtain ⟨-, rfl⟩ := Prod.mk.inj result
    rw [List.length_cons] at short
    exact Nat.lt_of_succ_le short

/-- Reading a section whose words all reach the loop: it ends when the changes can be appended, and then with them. -/
theorem parseVarValues_section (fresh : Fresh vcd) {items : List BodyItem}
    (wellFormed : ∀ item ∈ items, item.WellFormed)
    (declared : ∀ item ∈ items, ∀ id change, item.change? = some (id, change) → (vcd.idValues id).isSome)
    (storable : ∀ id, (vcd.idValues id).isSome → (parseVarValues (BodyItem.changesOf id 0 items)).isSome) :
    ∃ out, vcd.parseVarValues maxEventNum (items.flatMap BodyItem.words) = some out ∧
      out.timeMax = BodyItem.lastMarker 0 items ∧
      ∀ id, (vcd.idValues id).isSome →
        ∃ values, parseVarValues (BodyItem.changesOf id 0 items) = some values ∧ out.idValues id = some values := by
  have expected : ∀ id, (vcd.idValues id).isSome →
      (ValueLoop.init vcd).expected id items = parseVarValues (BodyItem.changesOf id 0 items) := by
    intro id present
    obtain ⟨values, found⟩ := Option.isSome_iff_exists.mp present
    rw [ValueLoop.expected,ValueLoop.init]
    dsimp only
    rw [found,fresh.empty id values found]
    rfl
  obtain ⟨last, run, values, time⟩ := (@ValueLoop.parseRecords_spec maxEventNum (ValueLoop.init vcd)
    items declared).1 fun id present => by
      rw [expected id present]
      exact storable id present
  refine ⟨{ vcd with
      idValues := last.idValues
      minDeltaTime := last.minDeltaTime
      timeMax := last.time
      timeIntervals := last.slicer.wrapUp last.time }, ?_, time, fun id present => ?_⟩
  · rw [Vcd.parseVarValues,valueRecords_items wellFormed,run]
    simp only [Option.bind_eq_bind,Option.bind_some,fresh.timeIntervals,if_true,Option.pure_def]
  · obtain ⟨found, stored⟩ := Option.isSome_iff_exists.mp (storable id present)
    exact ⟨found, stored, (values id).trans ((expected id present).trans stored)⟩

theorem read_eq (entered : headerOf (tokens text) .init = some (reader, values)) :
    VcdReader.read maxEventNum text = values.elim (some reader.vcd) (reader.vcd.parseVarValues maxEventNum) := by
  rw [VcdReader.read,VcdReader.readTokens,← headerOf,entered]
  cases values <;> rfl

open Classical in
/-- A section that is taken whole is empty, or opened by a section of initial values and ended by whitespace. -/
theorem opened_of_headerOf {entered : Option (List Token)} (effect : headerEffect .init header = some reader)
    (wellFormed : ∀ item ∈ items, item.WellFormed)
    (layout : Layout (header.flatMap Stmt.words ++ items.flatMap BodyItem.words) text)
    (header_ : headerOf (tokens text) .init = some (reader, entered))
    (seen : entered.getD [] = (contents items).flatMap BodyItem.words) :
    contents items = [] ∨ items.head? = some .dumpvars ∧ Terminated text := by
  have read := tokens_layout layout
  have whole := headerOf_statements effect
  by_contra bad
  rw [not_or,not_and_or] at bad
  obtain ⟨some, bad⟩ := bad
  have words : (contents items).flatMap BodyItem.words ≠ [] := fun none => some ((flatMap_words_eq_nil _).mp none)
  cases items with
  | nil => exact some rfl
  | cons item rest =>
    by_cases opening : item = .dumpvars
    · -- the word the file ends in is lost
      subst opening
      have unterminated : ¬ Terminated text := bad.resolve_left (by simp)
      rw [if_neg unterminated,List.dropLast_append_of_ne_nil (by simp [BodyItem.words]),List.flatMap_cons] at read
      have drop : (BodyItem.dumpvars.words ++ rest.flatMap BodyItem.words).dropLast =
          Keyword.dumpvars :: (rest.flatMap BodyItem.words).dropLast := by
        rw [List.dropLast_append_of_ne_nil (show rest.flatMap BodyItem.words ≠ [] from words)]
        rfl
      rw [read,drop,whole,headerOf_dumpvars] at header_
      obtain ⟨-, rfl⟩ := Prod.mk.inj (Option.some.inj header_)
      have lengths := congrArg List.length seen
      rw [Option.getD_some,List.length_dropLast,contents] at lengths
      have positive := List.length_pos_of_ne_nil words
      rw [contents] at positive
      omega
    · -- the header takes at least one word of the section
      have keep : contents (item :: rest) = item :: rest := by
        cases item with
        | dumpvars => exact absurd rfl opening
        | _ => rfl
      obtain ⟨part, same, front⟩ : ∃ part, tokens text = header.flatMap Stmt.words ++ part ∧
          part.IsPrefix ((item :: rest).flatMap BodyItem.words) := by
        rw [keep] at words
        by_cases terminated : Terminated text
        · rw [if_pos terminated] at read
          exact ⟨_, read, List.prefix_refl _⟩
        · rw [if_neg terminated,List.dropLast_append_of_ne_nil words] at read
          exact ⟨_, read, List.dropLast_prefix _⟩
      rw [same,whole] at header_
      have short := section_shorter (wellFormed item (List.mem_cons_self ..)) opening rest part front reader header_
      rw [seen,keep] at short
      exact Nat.lt_irrefl _ short

open Classical in
/-- Without a section, or with its opening word alone and cut off by the end of the file, there is nothing to read. -/
theorem sectionRead_small (maxEventNum : Nat) (effect : headerEffect .init header = some reader)
    (layout : Layout (header.flatMap Stmt.words ++ items.flatMap BodyItem.words) text)
    (small : items = [] ∨ items = [.dumpvars] ∧ ¬ Terminated text) : SectionRead maxEventNum text reader items := by
  have fresh := fresh_header fresh_init effect
  have read := tokens_layout layout
  have whole := headerOf_statements effect
  have entered : headerOf (tokens text) .init = some (reader, none) := by
    rcases small with rfl | ⟨rfl, unterminated⟩
    · rw [read]
      by_cases terminated : Terminated text
      · rw [if_pos terminated]
        exact whole []
      · rw [if_neg terminated,List.flatMap_nil,List.append_nil]
        exact headerOf_open effect
    · rw [read,if_neg unterminated,List.dropLast_append_of_ne_nil (by simp [BodyItem.words])]
      exact whole []
  refine ⟨none, reader.vcd, entered, ?_, read_eq entered, ?_, fun id present => ?_⟩
  · rcases small with rfl | ⟨rfl, -⟩ <;> rfl
  · rw [fresh.timeMax]
    rcases small with rfl | ⟨rfl, -⟩ <;> rfl
  · obtain ⟨values, found⟩ := Option.isSome_iff_exists.mp present
    refine ⟨[], ?_, by rw [found,fresh.empty id values found]⟩
    rcases small with rfl | ⟨rfl, -⟩ <;> rfl

open Classical in
/-- A value section is read as it is exactly when it is empty, or is opened by a section of initial values and ends in
whitespace, and the changes of every variable can be appended. -/
theorem sectionRead_iff (maxEventNum : Nat) (effect : headerEffect .init header = some reader)
    (wellFormed : ∀ item ∈ items, item.WellFormed)
    (declared : ∀ item ∈ items, ∀ id change, item.change? = some (id, change) → (reader.vcd.idValues id).isSome)
    (layout : Layout (header.flatMap Stmt.words ++ items.flatMap BodyItem.words) text) :
    SectionRead maxEventNum text reader items ↔
      (contents items = [] ∨ items.head? = some .dumpvars ∧ Terminated text) ∧
      ∀ id, (reader.vcd.idValues id).isSome → (parseVarValues (BodyItem.changesOf id 0 items)).isSome := by
  have fresh := fresh_header fresh_init effect
  have read := tokens_layout layout
  have whole := headerOf_statements effect
  constructor
  · rintro ⟨entered, vcd, header_, seen, -, -, stored⟩
    refine ⟨opened_of_headerOf effect wellFormed layout header_ seen, fun id present => ?_⟩
    obtain ⟨values, found, -⟩ := stored id present
    rw [found]
    rfl
  · rintro ⟨shape, storable⟩
    by_cases small : items = [] ∨ items = [.dumpvars] ∧ ¬ Terminated text
    · exact sectionRead_small maxEventNum effect layout small
    · obtain ⟨rest, rfl, terminated⟩ : ∃ rest, items = .dumpvars :: rest ∧ Terminated text := by
        rw [not_or] at small
        rcases shape with nothing | ⟨opening, terminated⟩
        · cases items with
          | nil => exact absurd rfl small.1
          | cons item rest =>
            cases item with
            | dumpvars =>
              rw [contents] at nothing
              subst nothing
              refine ⟨[], rfl, ?_⟩
              by_contra unterminated
              exact small.2 ⟨rfl, unterminated⟩
            | _ => cases nothing
        · obtain ⟨rest, rfl⟩ := List.head?_eq_some_iff.mp opening
          exact ⟨rest, rfl, terminated⟩
      have entered : headerOf (tokens text) .init = some (reader, some (rest.flatMap BodyItem.words)) := by
        rw [read,if_pos terminated,whole]
        exact headerOf_dumpvars _ _
      obtain ⟨out, run, time, values⟩ := @parseVarValues_section _ maxEventNum fresh _
        (fun item mem => wellFormed item (List.mem_cons_of_mem _ mem))
        (fun item mem => declared item (List.mem_cons_of_mem _ mem)) storable
      exact ⟨_, out, entered, rfl, (read_eq entered).trans run, time, values⟩

def wireHeader : List Stmt :=
  [⟨Keyword.var, [['w', 'i', 'r', 'e'], ['1'], ['!'], ['a']], by decide⟩, ⟨Keyword.enddefinitions, [], by decide⟩]

def wireReader : VcdReader := makeVar .init ⟨['a'], .wire, 1, ['!']⟩

def wireText (items : List BodyItem) : List Char :=
  render (wireHeader.flatMap Stmt.words ++ items.flatMap BodyItem.words)

theorem sectionRead_wire :
    SectionRead 100 (wireText [.dumpvars, .scalar '0' ['!'], .stop, .marker ['5'], .scalar '1' ['!']])
    wireReader [.dumpvars, .scalar '0' ['!'], .stop, .marker ['5'], .scalar '1' ['!']] := by
  have other : ∀ id, (wireReader.vcd.idValues id).isSome → id = ['!'] := by
    intro id present
    by_contra different
    have missing : wireReader.vcd.idValues id = none := Function.update_of_ne different _ _
    rw [missing] at present
    cases present
  have effect : headerEffect .init wireHeader = some wireReader := rfl
  have wellFormed : ∀ item ∈ [BodyItem.dumpvars, .scalar '0' ['!'], .stop, .marker ['5'], .scalar '1' ['!']],
    item.WellFormed := by
    intro item mem
    simp only [List.mem_cons,List.not_mem_nil,or_false] at mem
    rcases mem with rfl | rfl | rfl | rfl | rfl
    · trivial
    · exact (by decide : (scalarValue '0'.toUpper).isSome)
    · trivial
    · exact ⟨by simp, by simp, by decide +kernel⟩
    · exact (by decide : (scalarValue '1'.toUpper).isSome)
  have words : ∀ word ∈ wireHeader.flatMap Stmt.words ++ [BodyItem.dumpvars, .scalar '0' ['!'], .stop, .marker ['5'],
      .scalar '1' ['!']].flatMap BodyItem.words, word ≠ [] ∧ ∀ ch ∈ word, ¬ isSpace ch := by
    simp [wireHeader,Stmt.words,BodyItem.words,Keyword.var,Keyword.enddefinitions,Keyword.dumpvars,Keyword.stop,isSpace]
  have declared : ∀ item ∈ [BodyItem.dumpvars, .scalar '0' ['!'], .stop, .marker ['5'], .scalar '1' ['!']], ∀ id change,
      item.change? = some (id, change) → (wireReader.vcd.idValues id).isSome := by
    intro item mem id change changes
    have wire : id = ['!'] := by
      simp only [List.mem_cons,List.not_mem_nil,or_false] at mem
      rcases mem with rfl | rfl | rfl | rfl | rfl
      · cases changes
      · exact (Prod.mk.inj (Option.some.inj changes)).1.symm
      · cases changes
      · cases changes
      · exact (Prod.mk.inj (Option.some.inj changes)).1.symm
    rw [wire]
    rfl
  refine (sectionRead_iff 100 effect wellFormed declared (layout_render words)).mpr
    ⟨Or.inr ⟨rfl, terminated_render (by decide +kernel)⟩, fun id present => ?_⟩
  rw [other id present]
  decide +kernel

/-- The marker in front of the only change is taken as the first word of the section. -/
theorem section_misread : ∃ vcd, VcdReader.read 100 (wireText [.marker ['5'], .scalar '1' ['!']]) = some vcd ∧
    vcd.idValues ['!'] = some [⟨0, some .one, 0, 1⟩] ∧ vcd.timeMax = 0 ∧
    ¬ SectionRead 100 (wireText [.marker ['5'], .scalar '1' ['!']]) wireReader [.marker ['5'], .scalar '1' ['!']] := by
  obtain ⟨vcd, run, values, time⟩ : ∃ vcd, VcdReader.read 100 (wireText [.marker ['5'], .scalar '1' ['!']]) = some vcd ∧
      vcd.idValues ['!'] = some [⟨0, some .one, 0, 1⟩] ∧ vcd.timeMax = 0 := ⟨_, rfl, rfl, rfl⟩
  refine ⟨vcd, run, values, time, ?_⟩
  rintro ⟨_, vcd', -, -, run', time', -⟩
  rw [run,Option.some.injEq] at run'
  subst run'
  rw [time] at time'
  exact absurd time' (by decide)

end Faithful
end GTPower
