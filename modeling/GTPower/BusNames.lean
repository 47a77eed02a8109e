import Mathlib.Data.List.TakeWhile
import Mathlib.Data.Int.Basic
import Mathlib.Algebra.Ring.Nat
import Mathlib.Algebra.Ring.Int.Defs
import Mathlib.Tactic.Common

/-! Names of buses with a subscript or a range. The brackets are those at the end of the name, the separator of a range
is the first one of the whole name. -/
namespace GTPower.BusNames

section Source

def isSpace (ch : Char) : Bool := ch = ' ' || (9 ≤ ch.toNat && ch.toNat ≤ 13)

def leadingNumber (text : List Char) : Int := Nat.ofDigitChars 10 (text.takeWhile Char.isDigit) 0

def leadingInteger : List Char → Int
  | '-' :: text => -leadingNumber text
  | '+' :: text => leadingNumber text
  | text => leadingNumber text

/-- Leading integer of a text, as near to it as the type comes. -/
def strtol (text : List Char) : Int := max (-2 ^ 63) (min (leadingInteger (text.dropWhile isSpace)) (2 ^ 63 - 1))

def atoi (text : List Char) : Int := (strtol text).bmod (2 ^ 32)

/-- What is before and what is after the last occurrence of a character. -/
def strrchr (ch : Char) : List Char → Option (List Char × List Char)
  | [] => none
  | c :: name =>
    match strrchr ch name with
    | some (before, after) => some (c :: before, after)
    | none => if c = ch then some ([], name) else none

/-- What is after the first occurrence of a character. -/
def strchr (ch : Char) : List Char → Option (List Char)
  | [] => none
  | c :: name => if c = ch then some name else strchr ch name

/-- The name of a bus, and what is after its bracket. The shortest one is `a[0]`, and escaped brackets are none of a
bus. -/
def busSubscript (name brktsLeft brktsRight : List Char) (escape : Char) : Option (List Char × List Char) :=
  if 4 ≤ name.length ∧ name[name.length - 2]? ≠ some escape then do
    let lastCh ← name.getLast?
    let brktIndex ← brktsRight.idxOf? lastCh
    let brktLeft ← brktsLeft[brktIndex]?
    strrchr brktLeft name
  else none

/-- What `parseBusName` returns. The numbers of a wild subscript are not set. -/
structure BusName where
  busName : List Char
  isRange : Bool
  subscriptWild : Bool
  numbers : Option (Int × Int)
  deriving DecidableEq

/-- `none` for a name that is not a bus. -/
def parseBusName (name brktsLeft brktsRight : List Char) (escape : Char) : Option BusName := do
  let (busName, left) ← busSubscript name brktsLeft brktsRight escape
  match strchr ':' name with
  | some range => return ⟨busName, true, false, some (atoi left, atoi range)⟩
  | none =>
    if left.head? = some '*' then return ⟨busName, false, true, none⟩
    else return ⟨busName, false, false, some (atoi left, atoi left)⟩

/-- The variant without ranges. -/
def parseBusIndex (name brktsLeft brktsRight : List Char) (escape : Char) : Option (List Char × Int) := do
  let (busName, left) ← busSubscript name brktsLeft brktsRight escape
  return (busName, atoi left)

def intText : Int → List Char
  | .ofNat n => Nat.toDigits 10 n
  | .negSucc n => '-' :: Nat.toDigits 10 (n + 1)

def subscript (index : Int) : List Char := '[' :: intText index ++ [']']

def range (from' to' : Int) : List Char := '[' :: intText from' ++ ':' :: intText to' ++ [']']

end Source

section Numbers

/-- The values of an `int`. -/
def IsInt (i : Int) : Prop := -2 ^ 31 ≤ i ∧ i < 2 ^ 31

theorem isInt_atoi (text : List Char) : IsInt (atoi text) := by
  unfold IsInt atoi
  constructor
  · have le : -(((2 : ℕ) ^ 32 : ℕ) : ℤ) / 2 ≤ (strtol text).bmod (2 ^ 32) := Int.le_bmod (by decide)
    omega
  · have lt : (strtol text).bmod (2 ^ 32) < (((2 : ℕ) ^ 32 : ℕ) + 1 : ℤ) / 2 := Int.bmod_lt (by decide)
    omega

/-- A text that goes on with neither a digit nor a sign nor a space. -/
def Stops (rest : List Char) : Prop := ∀ ch ∈ rest.head?, ¬ch.isDigit ∧ ¬isSpace ch ∧ ch ≠ '-' ∧ ch ≠ '+'

theorem takeWhile_append_of_head {p : Char → Bool} (text : List Char) {rest : List Char}
    (head : ∀ ch ∈ rest.head?, ¬p ch) :
    (text ++ rest).takeWhile p = text.takeWhile p := by
  induction text with
  | nil =>
    cases rest with
    | nil => rfl
    | cons ch rest => simp [head ch rfl]
  | cons ch text ih =>
    rw [List.cons_append,List.takeWhile_cons,List.takeWhile_cons,ih]

theorem leadingNumber_append (text : List Char) {rest : List Char} (stops : Stops rest) :
    leadingNumber (text ++ rest) = leadingNumber text := by
  unfold leadingNumber
  rw [takeWhile_append_of_head text fun ch mem => (stops ch mem).1]

theorem leadingInteger_of_not_sign {ch : Char} {text : List Char} (noMinus : ch ≠ '-') (noPlus : ch ≠ '+') :
    leadingInteger (ch :: text) = leadingNumber (ch :: text) := by
  unfold leadingInteger
  split
  · next eq => exact absurd (List.cons.inj eq).1 noMinus
  · next eq => exact absurd (List.cons.inj eq).1 noPlus
  · rfl

theorem leadingInteger_append (text : List Char) {rest : List Char} (stops : Stops rest) :
    leadingInteger (text ++ rest) = leadingInteger text := by
  cases text with
  | nil =>
    cases rest with
    | nil => rfl
    | cons ch rest =>
      obtain ⟨noDigit, -, noMinus, noPlus⟩ := stops ch rfl
      rw [List.nil_append,leadingInteger_of_not_sign noMinus noPlus]
      simp [leadingNumber,leadingInteger,noDigit]
  | cons ch text =>
    rw [List.cons_append]
    by_cases minus : ch = '-'
    · subst minus
      exact congrArg Neg.neg (leadingNumber_append text stops)
    · by_cases plus : ch = '+'
      · subst plus
        exact leadingNumber_append text stops
      · rw [leadingInteger_of_not_sign minus plus,leadingInteger_of_not_sign minus plus,← List.cons_append,
          leadingNumber_append _ stops]

theorem atoi_append (text : List Char) {rest : List Char} (stops : Stops rest) : atoi (text ++ rest) = atoi text := by
  have spaces : (text ++ rest).dropWhile isSpace = text.dropWhile isSpace ++ rest := by
    rw [List.dropWhile_append]
    split
    · next all =>
      rw [List.isEmpty_iff] at all
      rw [all,List.nil_append]
      cases rest with
      | nil => rfl
      | cons ch rest => simp [(stops ch rfl).2.1]
    · rfl
  unfold atoi strtol
  rw [spaces,leadingInteger_append _ stops]

theorem leadingNumber_toDigits (n : Nat) : leadingNumber (Nat.toDigits 10 n) = n := by
  have all : (Nat.toDigits 10 n).takeWhile Char.isDigit = Nat.toDigits 10 n :=
    List.takeWhile_eq_self_iff.2 fun ch mem => Nat.isDigit_of_mem_toDigits (by decide) (by decide) mem
  rw [leadingNumber,all,Nat.ofDigitChars_ten_toDigits]

theorem not_special_of_isDigit {ch : Char} (digit : ch.isDigit) : ¬isSpace ch ∧ ch ≠ '-' ∧ ch ≠ '+' := by
  have low : 48 ≤ ch.toNat := by
    have both := Bool.and_eq_true_iff.1 digit
    exact of_decide_eq_true both.1
  refine ⟨fun space => ?_, ?_, ?_⟩
  · simp only [isSpace,Bool.or_eq_true,decide_eq_true_eq,Bool.and_eq_true] at space
    rcases space with rfl | ⟨_, le⟩
    · simp at low
    · omega
  · rintro rfl
    simp at low
  · rintro rfl
    simp at low

theorem toDigits_head (n : Nat) : ∃ ch rest, Nat.toDigits 10 n = ch :: rest ∧ ch.isDigit := by
  obtain ⟨ch, rest, eq⟩ := List.exists_cons_of_ne_nil (@Nat.toDigits_ne_nil n 10)
  exact ⟨ch, rest, eq, Nat.isDigit_of_mem_toDigits (by decide) (by decide) (eq ▸ List.mem_cons_self)⟩

theorem leadingInteger_intText (i : Int) : leadingInteger ((intText i).dropWhile isSpace) = i := by
  cases i with
  | ofNat n =>
    obtain ⟨ch, rest, eq, digit⟩ := toDigits_head n
    obtain ⟨noSpace, noMinus, noPlus⟩ := not_special_of_isDigit digit
    have kept : (intText (.ofNat n)).dropWhile isSpace = Nat.toDigits 10 n := by simp [intText,eq,noSpace]
    rw [kept,eq,leadingInteger_of_not_sign noMinus noPlus,← eq,leadingNumber_toDigits]
    rfl
  | negSucc n =>
    have kept : (intText (.negSucc n)).dropWhile isSpace = '-' :: Nat.toDigits 10 (n + 1) := by simp [intText,isSpace]
    rw [kept]
    show -leadingNumber (Nat.toDigits 10 (n + 1)) = _
    rw [leadingNumber_toDigits]
    omega

theorem atoi_intText {i : Int} (fits : IsInt i) : atoi (intText i) = i := by
  obtain ⟨low, high⟩ := fits
  unfold atoi strtol
  have inside : max (-2 ^ 63) (min i (2 ^ 63 - 1)) = i := by omega
  rw [leadingInteger_intText,inside]
  exact Int.bmod_eq_of_le (by omega) (by omega)

end Numbers

section Names

theorem strrchr_append {ch : Char} (base : List Char) {rest : List Char} (absent : ch ∉ rest) :
    strrchr ch (base ++ ch :: rest) = some (base, rest) := by
  have none : ∀ name : List Char, ch ∉ name → strrchr ch name = none := by
    intro name
    induction name with
    | nil => exact fun _ => rfl
    | cons c name ih =>
      intro absent
      rw [List.mem_cons,not_or] at absent
      simp [strrchr,ih absent.2,Ne.symm absent.1]
  induction base with
  | nil => simp [strrchr,none rest absent]
  | cons c base ih => simp [strrchr,ih]

theorem strchr_of_mem {ch : Char} {base rest after : List Char} (found : strchr ch base = some after) :
    strchr ch (base ++ rest) = some (after ++ rest) := by
  induction base with
  | nil => cases found
  | cons c base ih =>
    rw [List.cons_append]
    unfold strchr at found ⊢
    split
    · next here =>
      rw [if_pos here,Option.some.injEq] at found
      rw [found]
    · next other =>
      rw [if_neg other] at found
      exact ih found

theorem strchr_of_not_mem {ch : Char} {base rest : List Char} (absent : ch ∉ base) :
    strchr ch (base ++ rest) = strchr ch rest := by
  induction base with
  | nil => rfl
  | cons c base ih =>
    rw [List.mem_cons,not_or] at absent
    rw [List.cons_append,strchr,if_neg (Ne.symm absent.1),ih absent.2]

def Numeric (text : List Char) : Prop := ∀ ch ∈ text, ch.isDigit ∨ ch = '-' ∨ ch = ':'

theorem numeric_intText (i : Int) : Numeric (intText i) := by
  have digits : ∀ n, Numeric (Nat.toDigits 10 n) :=
    fun n ch mem => .inl (Nat.isDigit_of_mem_toDigits (by decide) (by decide) mem)
  cases i with
  | ofNat n => exact digits n
  | negSucc n =>
    intro ch mem
    rcases List.mem_cons.1 mem with rfl | mem
    · exact .inr (.inl rfl)
    · exact digits _ ch mem

theorem intText_ne_nil (i : Int) : intText i ≠ [] := by
  cases i with
  | ofNat n => exact Nat.toDigits_ne_nil
  | negSucc n => simp [intText]

theorem colon_not_mem_intText (i : Int) : ':' ∉ intText i := by
  have digits : ∀ n, ':' ∉ Nat.toDigits 10 n := fun n mem =>
    absurd (Nat.isDigit_of_mem_toDigits (by decide) (by decide) mem) (by decide)
  cases i with
  | ofNat n => exact digits n
  | negSucc n =>
    intro mem
    rcases List.mem_cons.1 mem with eq | mem
    · simp at eq
    · exact digits _ mem

theorem busSubscript_of_numeric (base : List Char) {text : List Char} (numeric : Numeric text) (nonempty : text ≠ []) :
    busSubscript (base ++ '[' :: text ++ [']']) ['['] [']'] '\\' =
      if 2 ≤ base.length + text.length then some (base, text ++ [']']) else none := by
  have length : (base ++ '[' :: text ++ [']']).length = base.length + text.length + 2 := by simp; omega
  have special : ∀ ch ∈ text, ch ≠ '\\' ∧ ch ≠ '[' := by
    intro ch mem
    rcases numeric ch mem with digit | rfl | rfl
    · constructor <;> rintro rfl <;> simp at digit
    · decide
    · decide
  have before : (base ++ '[' :: text ++ [']'])[(base ++ '[' :: text ++ [']']).length - 2]? ≠ some '\\' := by
    obtain ⟨init, last, ends⟩ := (List.eq_nil_or_concat text).resolve_left nonempty
    rw [List.concat_eq_append] at ends
    subst ends
    have place : (base ++ '[' :: init).length = (base ++ '[' :: (init ++ [last]) ++ [']']).length - 2 := by simp; omega
    have word : base ++ '[' :: (init ++ [last]) ++ [']'] = (base ++ '[' :: init) ++ last :: [']'] := by simp
    rw [← place,word,List.getElem?_append_right le_rfl,Nat.sub_self]
    intro eq
    exact (special last (by simp)).1 (Option.some.inj eq)
  have split : strrchr '[' (base ++ '[' :: text ++ [']']) = some (base, text ++ [']']) := by
    rw [List.append_assoc,List.cons_append]
    apply strrchr_append
    intro mem
    rcases List.mem_append.1 mem with mem | mem
    · exact (special _ mem).2 rfl
    · simp at mem
  have last : (base ++ '[' :: text ++ [']']).getLast? = some ']' := List.getLast?_concat
  have bracket : ([']'].idxOf? ']') = some 0 := by decide
  unfold busSubscript
  split
  · next fits =>
    rw [if_pos (by omega),last]
    simp only [Option.bind_eq_bind,Option.bind_some,bracket]
    exact split
  · next short => rw [if_neg fun fits => short ⟨by omega, before⟩]

end Names

section Properties

def RangeParsed (base : List Char) (from' to' : Int) : Prop :=
  parseBusName (base ++ range from' to') ['['] [']'] '\\' = some ⟨base, true, false, some (from', to')⟩

def IndexParsed (base : List Char) (index : Int) : Prop :=
  parseBusName (base ++ subscript index) ['['] [']'] '\\' = some ⟨base, false, false, some (index, index)⟩

theorem stops_bracket (ch : Char) (bracket : ch = '[' ∨ ch = ']' ∨ ch = ':') (rest : List Char) :
    Stops (ch :: rest) := by
  intro c mem
  obtain rfl : ch = c := by simpa using mem
  rcases bracket with rfl | rfl | rfl <;> decide

theorem parse_subscript (base : List Char) {text : List Char} (numeric : Numeric text) (nonempty : text ≠ [])
    (long : 2 ≤ base.length + text.length) (noWild : text.head? ≠ some '*') :
    parseBusName (base ++ '[' :: text ++ [']']) ['['] [']'] '\\' =
      match strchr ':' (base ++ '[' :: text ++ [']']) with
      | some range => some ⟨base, true, false, some (atoi (text ++ [']']), atoi range)⟩
      | none => some ⟨base, false, false, some (atoi (text ++ [']']), atoi (text ++ [']']))⟩ := by
  have head : (text ++ [']']).head? ≠ some '*' := by
    obtain ⟨ch, rest, rfl⟩ := List.exists_cons_of_ne_nil nonempty
    simpa using noWild
  unfold parseBusName
  rw [busSubscript_of_numeric base numeric nonempty,if_pos long]
  show (match strchr ':' (base ++ '[' :: text ++ [']']) with
    | some range => _
    | none => _) = _
  cases strchr ':' (base ++ '[' :: text ++ [']']) with
  | some range => rfl
  | none => exact if_neg head

theorem strchr_eq_none {base : List Char} : strchr ':' base = none ↔ ':' ∉ base := by
  induction base with
  | nil => simp [strchr]
  | cons c base ih =>
    rw [strchr,List.mem_cons,not_or]
    split
    · next here => simp [here]
    · next other => simp [ih,Ne.symm other]

theorem range_parsed (base : List Char) (from' to' : Int) :
    parseBusName (base ++ range from' to') ['['] [']'] '\\' = some ⟨base, true, false,
      some (atoi (intText from'), atoi ((strchr ':' base).getD (intText to')))⟩ := by
  have numeric : Numeric (intText from' ++ ':' :: intText to') := by
    intro ch mem
    rcases List.mem_append.1 mem with mem | mem
    · exact numeric_intText from' ch mem
    · rcases List.mem_cons.1 mem with rfl | mem
      · exact .inr (.inr rfl)
      · exact numeric_intText to' ch mem
  have more : 1 ≤ (intText from').length := List.length_pos_iff.2 (intText_ne_nil from')
  have long : 2 ≤ base.length + (intText from' ++ ':' :: intText to').length := by simp; omega
  have noWild : (intText from' ++ ':' :: intText to').head? ≠ some '*' := by
    intro star
    have special := numeric '*' (List.mem_of_mem_head? star)
    simp at special
  have word : base ++ range from' to' = base ++ '[' :: (intText from' ++ ':' :: intText to') ++ [']'] := by simp [range]
  have fromText : atoi (intText from' ++ ':' :: intText to' ++ [']']) = atoi (intText from') := by
    rw [List.append_assoc]
    exact atoi_append _ (stops_bracket ':' (by decide) _)
  rw [word,parse_subscript base numeric (by simp) long noWild,fromText]
  cases found : strchr ':' base with
  | some after =>
    have rest : Stops ('[' :: (intText from' ++ ':' :: intText to') ++ [']']) := stops_bracket '[' (by decide) _
    rw [List.append_assoc,strchr_of_mem found]
    simp only [Option.getD_some,atoi_append after rest]
  | none =>
    have absent : ':' ∉ '[' :: intText from' := by
      rw [List.mem_cons,not_or]
      exact ⟨by decide, colon_not_mem_intText from'⟩
    have tail : '[' :: (intText from' ++ ':' :: intText to') ++ [']'] = ('[' :: intText from') ++ ':' ::
      (intText to' ++ [']']) := by simp
    rw [List.append_assoc,strchr_of_not_mem (strchr_eq_none.1 found),tail,strchr_of_not_mem absent]
    simp only [strchr,if_true,Option.getD_none,atoi_append _ (stops_bracket ']' (by decide) [])]

theorem index_parsed (base : List Char) (index : Int) :
    parseBusName (base ++ subscript index) ['['] [']'] '\\' =
      if 2 ≤ base.length + (intText index).length then
        match strchr ':' base with
        | some after => some ⟨base, true, false, some (atoi (intText index), atoi after)⟩
        | none => some ⟨base, false, false, some (atoi (intText index), atoi (intText index))⟩
      else none := by
  have numeric := numeric_intText index
  have nonempty := intText_ne_nil index
  have word : base ++ subscript index = base ++ '[' :: intText index ++ [']'] := by simp [subscript]
  rw [word]
  split
  · next long =>
    have noWild : (intText index).head? ≠ some '*' := by
      intro star
      have special := numeric '*' (List.mem_of_mem_head? star)
      simp at special
    rw [parse_subscript base numeric nonempty long noWild,atoi_append _ (stops_bracket ']' (by decide) []),
      List.append_assoc]
    cases found : strchr ':' base with
    | some after =>
      have rest : atoi (after ++ ('[' :: intText index ++ [']'])) = atoi after :=
        atoi_append after (stops_bracket '[' (by decide) _)
      rw [strchr_of_mem found]
      simp only [rest]
    | none =>
      have absent : ':' ∉ '[' :: intText index ++ [']'] := by
        simp [colon_not_mem_intText index]
      rw [strchr_of_not_mem (strchr_eq_none.1 found),strchr_eq_none.2 absent]
  · next short =>
    unfold parseBusName
    rw [busSubscript_of_numeric base numeric nonempty,if_neg short]
    rfl

theorem atoi_intText_iff {i : Int} : atoi (intText i) = i ↔ IsInt i :=
  ⟨fun same => same ▸ isInt_atoi _, atoi_intText⟩

/-- The first separator of the name is that of the range when the base has none. -/
theorem busName_parsed_iff (base : List Char) (from' to' index : Int) :
    (RangeParsed base from' to' ↔ IsInt from' ∧ IsInt to' ∧ ∀ after, strchr ':' base = some after → atoi after = to') ∧
      (IndexParsed base index ↔ IsInt index ∧ ':' ∉ base ∧ 2 ≤ base.length + (intText index).length) := by
  constructor
  · unfold RangeParsed
    rw [range_parsed,Option.some.injEq,BusName.mk.injEq]
    simp only [true_and,Option.some.injEq,Prod.mk.injEq]
    rw [atoi_intText_iff]
    apply and_congr_right
    intro _
    cases found : strchr ':' base with
    | some after =>
      simp only [Option.getD_some,Option.some.injEq,forall_eq']
      exact ⟨fun same => ⟨same ▸ isInt_atoi after, same⟩, And.right⟩
    | none => simp [atoi_intText_iff]
  · unfold IndexParsed
    rw [index_parsed]
    split
    · next long =>
      cases found : strchr ':' base with
      | some after =>
        have inside : ':' ∈ base := by
          by_contra absent
          rw [strchr_eq_none.2 absent] at found
          cases found
        simp [inside]
      | none => simp [atoi_intText_iff,strchr_eq_none.1 found,long]
    · next short => simp [short]

/-- A base with the separator: what follows it is taken for the end of a range. -/
theorem colon_misread : ¬RangeParsed "a:b".toList 3 1 ∧ ¬IndexParsed "a:b".toList 3 := by
  unfold RangeParsed IndexParsed
  decide +kernel

end Properties

end GTPower.BusNames
