import GTPower.BusNames
import Mathlib.Data.Nat.Bits
import Mathlib.Data.Nat.Bitwise
import Mathlib.Tactic.Linarith
import Mathlib.Tactic.Ring

/-! Sized constants of a netlist. Binary, octal and hexadecimal digits are read from the least significant one on;
decimal digits are converted as a whole. -/
namespace GTPower.NetConstants
open BusNames

section Source

def quote : Char := Char.ofNat 39

def charValue (base : ℕ) (ch : Char) : ℕ :=
  if ch.isDigit then ch.toNat - 48
  else if 'a' ≤ ch ∧ ch ≤ 'z' then ch.toNat - 87
  else if 'A' ≤ ch ∧ ch ≤ 'Z' then ch.toNat - 55
  else base

/-- Value of one digit by `strtoul`, which reads nothing from other characters. -/
def digitValue (base : ℕ) (ch : Char) : ℕ := if charValue base ch < base then charValue base ch else 0

/-- Bits of a value from the least significant one on. -/
def lowBits (value count : ℕ) : List Bool := (List.range count).map value.testBit

/-- Scan the constant from LSD to MSD. Left of the digits all digits are zero. -/
def scanDigits (base digitBitCount : ℕ) : List Char → ℕ → List Bool
  | [], size => List.replicate size false
  | ch :: rest, size =>
    if size = 0 then []
    -- Skip underscores.
    else if ch = '_' then scanDigits base digitBitCount rest size
    else lowBits (digitValue base ch) (min digitBitCount size) ++ scanDigits base digitBitCount rest
    (size - digitBitCount)

def withoutUnderscores (digits : List Char) : List Char := digits.filter (· ≠ '_')

def constant10Max : List Char := Nat.toDigits 10 (2 ^ 64 - 1)

def constant10MaxLength : ℕ := constant10Max.length

def digitsValue (base : ℕ) (digits : List Char) : ℕ :=
  digits.foldl (fun value ch => value * base + digitValue base ch) 0

def strtoull (digits : List Char) : ℕ := min (digitsValue 10 digits) (2 ^ 64 - 1)

/-- A constant that is not supported is left at zero. The mask is shifted out of the word. -/
def parseConstant10 (digits : List Char) (size : ℕ) : List Bool :=
  let tmp := withoutUnderscores digits
  if constant10MaxLength < tmp.length ∨ tmp.length = constant10MaxLength ∧
    constant10Max < tmp then List.replicate size false
  else (List.range size).map fun bit => bit < 64 && (strtoull tmp).testBit bit

def constantSize (constant : List Char) : ℤ := strtol (constant.takeWhile (· ≠ quote))

def constantBase (constant : List Char) : Option (Char × List Char) :=
  match constant.dropWhile (· ≠ quote) with
  | _ :: baseCh :: digits => some (baseCh, digits)
  | _ => none

/-- `none` for an unknown base, and for a size there is no room for. -/
def parseConstant (constant : List Char) : Option (List Bool) := do
  let (baseCh, digits) ← constantBase constant
  let size := constantSize constant
  if size < 0 then none
  else if baseCh = 'b' ∨ baseCh = 'B' then some (scanDigits 2 1 digits.reverse size.toNat)
  else if baseCh = 'o' ∨ baseCh = 'O' then some (scanDigits 8 3 digits.reverse size.toNat)
  else if baseCh = 'h' ∨ baseCh = 'H' then some (scanDigits 16 4 digits.reverse size.toNat)
  else if baseCh = 'd' ∨ baseCh = 'D' then some (parseConstant10 digits size.toNat)
  else none

end Source

section Digits
variable {base digitBitCount size value : ℕ} {digits : List Char} {ch : Char}

def constantValue (base : ℕ) (digits : List Char) : ℕ := digitsValue base (withoutUnderscores digits)

@[simp] theorem length_lowBits (value count : ℕ) : (lowBits value count).length = count := by simp [lowBits]

theorem lowBits_getElem? (value count bit : ℕ) :
    (lowBits value count)[bit]? = if bit < count then some (value.testBit bit) else none := by
  unfold lowBits
  by_cases inside : bit < count
  · rw [List.getElem?_map,List.getElem?_range inside,if_pos inside]
    rfl
  · rw [if_neg inside,List.getElem?_eq_none]
    simpa using inside

theorem lowBits_zero (count : ℕ) : lowBits 0 count = List.replicate count false := by
  apply List.ext_getElem?
  intro bit
  rw [lowBits_getElem?,List.getElem?_replicate,Nat.zero_testBit]

theorem lowBits_mod (value count : ℕ) : lowBits (value % 2 ^ count) count = lowBits value count := by
  apply List.ext_getElem?
  intro bit
  rw [lowBits_getElem?,lowBits_getElem?,Nat.testBit_mod_two_pow]
  split
  · simp [*]
  · rfl

theorem lowBits_eq_replicate : lowBits value size = List.replicate size false ↔ value % 2 ^ size = 0 := by
  constructor
  · intro none
    apply Nat.eq_of_testBit_eq
    intro bit
    rw [Nat.testBit_mod_two_pow,Nat.zero_testBit]
    by_cases inside : bit < size
    · have here := congrArg (·[bit]?) none
      simp only [lowBits_getElem?,if_pos inside,List.getElem?_replicate,Option.some.injEq] at here
      rw [here,Bool.and_false]
    · rw [decide_eq_false inside,Bool.false_and]
  · intro zero
    rw [← lowBits_mod,zero,lowBits_zero]

theorem digitValue_lt (positive : 0 < base) (ch : Char) : digitValue base ch < base := by
  unfold digitValue
  split
  · assumption
  · exact positive

theorem lowBits_add (digit : ℕ) (below : digit < 2 ^ digitBitCount) (value : ℕ) :
    lowBits digit (min digitBitCount size) ++ lowBits value (size - digitBitCount) =
    lowBits (2 ^ digitBitCount * value + digit) size := by
  apply List.ext_getElem?
  intro bit
  rw [List.getElem?_append,length_lowBits,lowBits_getElem?,lowBits_getElem?,lowBits_getElem?,
    Nat.testBit_two_pow_mul_add _ below]
  by_cases inDigit : bit < digitBitCount
  · by_cases inside : bit < size
    · simp [inDigit,inside]
    · have beyond : ¬bit - min digitBitCount size < size - digitBitCount := by omega
      simp [inDigit,inside,beyond]
  · have past : ¬bit < min digitBitCount size := by omega
    by_cases inside : bit < size
    · have less : min digitBitCount size = digitBitCount := by omega
      have under : bit - digitBitCount < size - digitBitCount := by omega
      simp [inDigit,inside,less,under]
    · have beyond : ¬bit - min digitBitCount size < size - digitBitCount := by omega
      simp [past,inside,beyond]

theorem scanDigits_eq (isBase : base = 2 ^ digitBitCount) (digits : List Char) (size : ℕ) :
    scanDigits base digitBitCount digits.reverse size = lowBits (constantValue base digits) size := by
  have positive : 0 < base := by rw [isBase]; exact Nat.two_pow_pos _
  have value : constantValue base digits =
      digits.reverse.foldr (fun ch value => if ch = '_' then value else value * base + digitValue base ch) 0 := by
    rw [List.foldr_reverse,constantValue,digitsValue,withoutUnderscores,List.foldl_filter]
    congr 1
    funext value ch
    by_cases skip : ch = '_' <;> simp [skip]
  rw [value]
  generalize digits.reverse = reversed
  induction reversed generalizing size with
  | nil => exact (lowBits_zero size).symm
  | cons ch rest ih =>
    rw [scanDigits,List.foldr_cons]
    by_cases done : size = 0
    · rw [if_pos done,done]
      rfl
    · rw [if_neg done]
      by_cases skip : ch = '_'
      · rw [if_pos skip,if_pos skip]
        exact ih size
      · rw [if_neg skip,if_neg skip,ih]
        have below : digitValue base ch < 2 ^ digitBitCount := by rw [← isBase]; exact digitValue_lt positive ch
        rw [lowBits_add _ below,isBase,Nat.mul_comm]

end Digits

section Decimal
variable {digits digits' : List Char} {size : ℕ}

theorem digitsValue_cons (base : ℕ) (ch : Char) (digits : List Char) :
    digitsValue base (ch :: digits) = digitValue base ch * base ^ digits.length + digitsValue base digits := by
  have from_ : ∀ digits value, digits.foldl (fun value ch => value * base + digitValue base ch) value =
      value * base ^ digits.length + digitsValue base digits := by
    intro digits
    induction digits with
    | nil => intro value; simp [digitsValue]
    | cons ch digits ih =>
      intro value
      rw [digitsValue,List.foldl_cons,List.foldl_cons,ih,ih,List.length_cons,pow_succ]
      ring
  rw [digitsValue,List.foldl_cons,from_]
  ring

theorem digitsValue_lt (positive : 0 < (10 : ℕ)) (digits : List Char) : digitsValue 10 digits < 10 ^ digits.length := by
  induction digits with
  | nil => exact Nat.one_pos
  | cons ch digits ih =>
    have digit := digitValue_lt positive ch
    rw [digitsValue_cons,List.length_cons,pow_succ]
    nlinarith [Nat.pos_of_ne_zero (pow_ne_zero digits.length (by decide : (10 : ℕ) ≠ 0))]

theorem digitValue_of_isDigit {ch : Char} (digit : ch.isDigit) : digitValue 10 ch = ch.toNat - 48 := by
  have bounds : 48 ≤ ch.toNat ∧ ch.toNat ≤ 57 := by
    simp only [Char.isDigit,Bool.and_eq_true,decide_eq_true_eq] at digit
    exact digit
  have value : charValue 10 ch = ch.toNat - 48 := if_pos digit
  rw [digitValue,value,if_pos (by omega)]

theorem digitsValue_lt_of_lt (same : digits.length = digits'.length) (all : ∀ ch ∈ digits, ch.isDigit)
    (all' : ∀ ch ∈ digits', ch.isDigit) (less : digits < digits') : digitsValue 10 digits < digitsValue 10 digits' := by
  induction digits generalizing digits' with
  | nil =>
    rw [List.length_nil,eq_comm,List.length_eq_zero_iff] at same
    subst same
    exact absurd less (List.lt_irrefl _)
  | cons ch digits ih =>
    cases digits' with
    | nil => cases same
    | cons ch' digits' =>
      replace same : digits.length = digits'.length := Nat.succ.inj same
      have digit := all ch List.mem_cons_self
      have digit' := all' ch' List.mem_cons_self
      rw [digitsValue_cons,digitsValue_cons,same]
      rcases List.cons_lt_cons_iff.1 less with first | ⟨rfl, rest⟩
      · have lower : ch.toNat < ch'.toNat := first
        have low : 48 ≤ ch.toNat := by
          simp only [Char.isDigit,Bool.and_eq_true,decide_eq_true_eq] at digit
          exact digit.1
        have values : digitValue 10 ch + 1 ≤ digitValue 10 ch' := by
          rw [digitValue_of_isDigit digit,digitValue_of_isDigit digit']
          omega
        have tail := digitsValue_lt (by decide) digits
        rw [same] at tail
        nlinarith [Nat.mul_le_mul_right (10 ^ digits'.length) values]
      · have later := ih same (fun ch mem => all ch (List.mem_cons_of_mem _ mem)) (fun ch mem =>
          all' ch (List.mem_cons_of_mem _ mem)) rest
        omega

theorem digitsValue_constant10Max : digitsValue 10 constant10Max = 2 ^ 64 - 1 := by decide +kernel

theorem parseConstant10_eq (all : ∀ ch ∈ withoutUnderscores digits, ch.isDigit)
    (fits : constantValue 10 digits ≤ 2 ^ 64 - 1) :
    parseConstant10 digits size = if (withoutUnderscores digits).length ≤
    constant10MaxLength then lowBits (constantValue 10 digits) size
      else List.replicate size false := by
  unfold parseConstant10
  simp only
  by_cases long : constant10MaxLength < (withoutUnderscores digits).length
  · rw [if_pos (.inl long),if_neg (Nat.not_le.2 long)]
  · have notGreater : ¬((withoutUnderscores digits).length = constant10MaxLength ∧
      constant10Max < withoutUnderscores digits) := by
      rintro ⟨same, greater⟩
      have maxDigits : ∀ ch ∈ constant10Max, ch.isDigit :=
        fun ch mem => Nat.isDigit_of_mem_toDigits (by decide) (by decide) mem
      have above := digitsValue_lt_of_lt same.symm maxDigits all greater
      rw [digitsValue_constant10Max] at above
      exact absurd fits (Nat.not_le.2 above)
    rw [if_neg (not_or.2 ⟨long, notGreater⟩),if_pos (Nat.not_lt.1 long)]
    apply List.map_congr_left
    intro bit _
    have value : strtoull (withoutUnderscores digits) = constantValue 10 digits := min_eq_left fits
    rw [value]
    by_cases inWord : bit < 64
    · rw [decide_eq_true inWord,Bool.true_and]
    · have past : constantValue 10 digits < 2 ^ bit := by
        have more : (2 : ℕ) ^ 64 ≤ 2 ^ bit := Nat.pow_le_pow_right (by decide) (by omega)
        omega
      rw [decide_eq_false inWord,Bool.false_and,Nat.testBit_lt_two_pow past]

end Decimal

end GTPower.NetConstants
