import GTPower.BusNames

/-! Names of the network and of Verilog. An escaped escape of the network stays two characters in Verilog. -/
namespace GTPower.VerilogNames

open BusNames

section Source

def isWordChar (ch : Char) : Bool := ch.isAlphanum || ch = '_'

/-- The name without its escapes, two in a row apart, and whether it has to be escaped. -/
def copyName (escape : Char) (special : Char → Bool) : List Char → List Char × Bool
  | [] => ([], false)
  | [ch] => if ch = escape then ([], true) else ([ch], special ch)
  | ch :: nextCh :: name =>
    if ch = escape then
      if nextCh = escape then
        let rest := copyName escape special name
        (ch :: nextCh :: rest.1, rest.2)
      else ((copyName escape special (nextCh :: name)).1, true)
    else
      let rest := copyName escape special (nextCh :: name)
      (ch :: rest.1, special ch || rest.2)

def escapedName (staName : List Char) (copied : List Char × Bool) : List Char :=
  if copied.2 then '\\' :: copied.1 ++ [' '] else staName

def staToVerilog (staName : List Char) (escape : Char) : List Char :=
  escapedName staName (copyName escape (fun ch => !isWordChar ch) staName)

def isBrkt (ch : Char) : Bool := ch = '[' || ch = ']'

def staToVerilog2 (staName : List Char) (escape : Char) : List Char :=
  escapedName staName (copyName escape (fun ch => !isWordChar ch && !isBrkt ch || isBrkt ch) staName)

def instanceVerilogName (staName : List Char) (escape : Char) : List Char := staToVerilog staName escape

def netVerilogName (staName : List Char) (escape : Char) : List Char :=
  match parseBusIndex staName ['['] [']'] escape with
  | some (busName, index) => staToVerilog busName escape ++ subscript index
  | none => staToVerilog2 staName escape

/-- Bus brackets, dividers and escapes are escaped. -/
def escapeChar (ch : Char) : List Char := if ch = '[' ∨ ch = ']' ∨ ch = '/' ∨ ch = '\\' then ['\\', ch] else [ch]

def verilogToSta : List Char → List Char
  | '\\' :: verilogName =>
    (if verilogName.getLast? = some ' ' then verilogName.dropLast else verilogName).flatMap escapeChar
  | verilogName => verilogName

def instanceVerilogToSta (instName : List Char) : List Char := verilogToSta instName

def netVerilogToSta (netName : List Char) : List Char := verilogToSta netName

end Source

section Copies
variable {escape ch nextCh : Char} {special : Char → Bool} {name body : List Char}

theorem copyName_cons (plain : ch ≠ escape) :
    copyName escape special (ch :: name) =
    (ch :: (copyName escape special name).1, special ch || (copyName escape special name).2) := by
  cases name with
  | nil => simp [copyName,plain]
  | cons nextCh name => simp [copyName,plain]

theorem copyName_escape (plain : nextCh ≠ escape) :
    copyName escape special (escape :: nextCh :: name) = ((copyName escape special (nextCh :: name)).1, true) := by
  simp [copyName,plain]

theorem copyName_escapes : copyName escape special (escape :: escape :: name) =
    (escape :: escape :: (copyName escape special name).1, (copyName escape special name).2) := by
  simp [copyName]

/-- The body of an identifier with its escapes doubled. -/
def doubled (body : List Char) : List Char := body.flatMap fun ch => if ch = '\\' then ['\\', '\\'] else [ch]

theorem copyName_escapeChar (specials : ∀ ch, special ch = !isWordChar ch) (body : List Char) :
    copyName '\\' special (body.flatMap escapeChar) =
    (doubled body, body.any fun ch => !isWordChar ch && ch ≠ '\\') := by
  induction body with
  | nil => rfl
  | cons ch body ih =>
    rw [List.flatMap_cons]
    by_cases isEscape : ch = '\\'
    · subst isEscape
      have word : escapeChar '\\' = ['\\', '\\'] := rfl
      rw [word,List.cons_append,List.cons_append,List.nil_append,copyName_escapes,ih]
      simp [doubled]
    · by_cases isSpecial : ch = '[' ∨ ch = ']' ∨ ch = '/'
      · have word : escapeChar ch = ['\\', ch] := if_pos (by tauto)
        have notWord : isWordChar ch = false := by rcases isSpecial with rfl | rfl | rfl <;> decide
        rw [word,List.cons_append,List.cons_append,List.nil_append,copyName_escape isEscape,copyName_cons isEscape,ih]
        simp [doubled,isEscape,notWord]
      · have word : escapeChar ch = [ch] := if_neg (by tauto)
        rw [word,List.cons_append,List.nil_append,copyName_cons isEscape,ih,specials]
        simp [doubled,isEscape]

theorem doubled_eq_self_iff : doubled body = body ↔ '\\' ∉ body := by
  have longer : ∀ body : List Char, (doubled body).length = body.length + body.count '\\' := by
    intro body
    induction body with
    | nil => rfl
    | cons ch body ih =>
      unfold doubled at ih ⊢
      rw [List.flatMap_cons,List.length_append,ih,List.count_cons]
      by_cases isEscape : ch = '\\'
      · simp [isEscape]
        omega
      · simp [isEscape]
        omega
  constructor
  · intro same
    have length := longer body
    rw [same] at length
    exact List.count_eq_zero.1 (by omega)
  · intro absent
    unfold doubled
    induction body with
    | nil => rfl
    | cons ch body ih =>
      rw [List.mem_cons,not_or] at absent
      rw [List.flatMap_cons,if_neg (Ne.symm absent.1),ih absent.2]
      rfl

end Copies

section RoundTrip
variable {body : List Char}

def identifier (body : List Char) : List Char := '\\' :: body ++ [' ']

theorem verilogToSta_identifier (body : List Char) : verilogToSta (identifier body) = body.flatMap escapeChar := by
  unfold identifier
  rw [List.cons_append,verilogToSta]
  simp

theorem escapedName_identifier_iff (special : ∃ ch ∈ body, ¬isWordChar ch) :
    escapedName (body.flatMap escapeChar) (doubled body, body.any fun ch => !isWordChar ch && ch ≠ '\\') =
    identifier body ↔
      '\\' ∉ body := by
  cases escaped : body.any fun ch => !isWordChar ch && ch ≠ '\\' with
  | true =>
    show '\\' :: doubled body ++ [' '] = '\\' :: body ++ [' '] ↔ _
    rw [List.append_left_inj,List.cons.injEq]
    exact ⟨fun same => doubled_eq_self_iff.1 same.2, fun absent => ⟨rfl, doubled_eq_self_iff.2 absent⟩⟩
  | false =>
    have escapes : ∀ ch ∈ body, isWordChar ch ∨ ch = '\\' := by
      intro ch mem
      have here := List.any_eq_false.1 escaped ch mem
      simp only [Bool.and_eq_true,Bool.not_eq_true',decide_eq_true_eq,not_and,not_not] at here
      cases word : isWordChar ch with
      | true => exact .inl rfl
      | false => exact .inr (here word)
    have inside : '\\' ∈ body := by
      obtain ⟨ch, mem, notWord⟩ := special
      rcases escapes ch mem with word | rfl
      · exact absurd word notWord
      · exact mem
    -- the name would have to end in a space
    have differs : body.flatMap escapeChar ≠ identifier body := by
      intro same
      have space : ' ' ∈ body.flatMap escapeChar := by
        rw [same]
        simp [identifier]
      obtain ⟨ch, mem, here⟩ := List.mem_flatMap.1 space
      unfold escapeChar at here
      have isSpace : ' ' = ch := by
        split at here
        · simpa using here
        · simpa using here
      subst isSpace
      rcases escapes _ mem with word | eq
      · exact absurd word (by decide)
      · simp at eq
    exact ⟨fun same => absurd same differs, fun absent => absurd inside absent⟩

theorem parseBusIndex_escaped (body : List Char) : parseBusIndex (body.flatMap escapeChar) ['['] [']'] '\\' = none := by
  have none : busSubscript (body.flatMap escapeChar) ['['] [']'] '\\' = none := by
    unfold busSubscript
    split
    · next fits =>
      rcases List.eq_nil_or_concat body with rfl | ⟨init, last, rfl⟩
      · rfl
      · rw [List.concat_eq_append,List.flatMap_append,List.flatMap_singleton] at fits ⊢
        by_cases bracket : last = ']'
        · subst bracket
          have word : escapeChar ']' = ['\\', ']'] := rfl
          exact absurd (by simp [word]) fits.2
        · have ends : (init.flatMap escapeChar ++ escapeChar last).getLast? = some last := by
            unfold escapeChar
            split <;> simp
          have absent : [']'].idxOf? last = Option.none := by simpa using Ne.symm bracket
          rw [ends]
          simp only [Option.bind_eq_bind,Option.bind_some,absent,Option.bind_none]
    · rfl
  unfold parseBusIndex
  rw [none]
  rfl

/-- The names of an instance and of a net come back when they have no escape in them. -/
theorem verilogName_back_iff (body : List Char) (special : ∃ ch ∈ body, ¬isWordChar ch) :
    (instanceVerilogName (instanceVerilogToSta (identifier body)) '\\' = identifier body ↔ '\\' ∉ body) ∧
      (netVerilogName (netVerilogToSta (identifier body)) '\\' = identifier body ↔ '\\' ∉ body) := by
  have brackets : ∀ ch, (!isWordChar ch && !isBrkt ch || isBrkt ch) = !isWordChar ch := by
    intro ch
    unfold isBrkt
    by_cases left : ch = '['
    · subst left
      decide
    · by_cases right : ch = ']'
      · subst right
        decide
      · simp [left,right]
  unfold instanceVerilogName instanceVerilogToSta netVerilogName netVerilogToSta
  rw [verilogToSta_identifier,parseBusIndex_escaped]
  unfold staToVerilog
  simp only [staToVerilog2]
  rw [copyName_escapeChar fun _ => rfl,copyName_escapeChar brackets]
  exact ⟨escapedName_identifier_iff special, escapedName_identifier_iff special⟩

theorem verilogName_back_bracket :
    instanceVerilogName (instanceVerilogToSta (identifier "a[1]".toList)) '\\' = identifier "a[1]".toList ∧
      netVerilogName (netVerilogToSta (identifier "a[1]".toList)) '\\' = identifier "a[1]".toList := by
  have both := verilogName_back_iff "a[1]".toList ⟨'[', by decide, by decide⟩
  exact ⟨both.1.2 (by decide), both.2.2 (by decide)⟩

theorem escape_doubled : (∃ ch ∈ "a\\b".toList, ¬isWordChar ch) ∧
    instanceVerilogName (instanceVerilogToSta (identifier "a\\b".toList)) '\\' ≠ identifier "a\\b".toList ∧
    netVerilogName (netVerilogToSta (identifier "a\\b".toList)) '\\' ≠ identifier "a\\b".toList :=
  ⟨⟨'\\', by decide, by decide⟩, by decide, by decide⟩

end RoundTrip

end GTPower.VerilogNames
