import GTPower.VcdStore

/-! Values of a bus: the text of a vector change is packed into one integer, and the pins of the bus are paired with its
bits from the right end of the declared range on. -/
namespace GTPower

section Decode

/-- Digits that `strtol` takes with base 2, most significant first. -/
def binaryValue (digits : List Char) : Nat :=
  digits.foldl (fun value digit => 2 * value + if digit = '1' then 1 else 0) 0

/-- `strtol` with base 2: an optional sign, then digits up to the first other character. Out of range it saturates. -/
def strtolBinary (text : List Char) : Int :=
  let isDigit := fun char => char == '0' || char == '1'
  match text with
  | '-' :: rest => max (-2 ^ 63) (-(binaryValue (rest.takeWhile isDigit) : Int))
  | '+' :: rest => min (2 ^ 63 - 1) (binaryValue (rest.takeWhile isDigit) : Int)
  | _ => min (2 ^ 63 - 1) (binaryValue (text.takeWhile isDigit) : Int)

/-- Bus value of a vector change: 0 where the text begins with an unknown, which is not supported. The signed value is
stored as an unsigned one. -/
def busValueOf (text : List Char) : Nat :=
  match text.head?.map Char.toUpper with
  | some 'X' => 0
  | some 'U' => 0
  | some 'Z' => 0
  | _ => ((strtolBinary text) % 2 ^ 64).toNat

/-- Index in the range and bit of the value for every pin of a bus, from the pin `to` on. -/
def setVarActivity (rangeFrom rangeTo : Int) : List (Int × Nat) :=
  if rangeTo < rangeFrom then
    (List.range (rangeFrom - rangeTo + 1).toNat).map fun valueBit : Nat => (rangeTo + valueBit, valueBit)
  else (List.range (rangeTo - rangeFrom + 1).toNat).map fun valueBit : Nat => (rangeTo - valueBit, valueBit)

/-- Value of a bit by the rules of the format: bits left of the text are 0, or as its first character if that is
unknown. -/
def textBit (text : List Char) (bit : Nat) : Char :=
  match text.reverse[bit]? with
  | some char => char
  | none =>
    match text.head? with
    | some 'x' => 'x'
    | some 'z' => 'z'
    | _ => '0'

def VcdChar.toChar : VcdChar → Char
  | .zero => '0'
  | .one => '1'
  | .x => 'x'
  | .u => 'u'
  | .z => 'z'

end Decode

section Bits

theorem binaryValue_concat (text : List Char) (digit : Char) :
    binaryValue (text ++ [digit]) = 2 * binaryValue text + if digit = '1' then 1 else 0 := by
  rw [binaryValue,List.foldl_append]
  rfl

theorem testBit_binaryValue (text : List Char) (bit : Nat) :
    (binaryValue text).testBit bit = decide (text.reverse[bit]? = some '1') := by
  induction text using List.reverseRecOn generalizing bit with
  | nil => simp [binaryValue]
  | append_singleton text digit ih =>
    rw [binaryValue_concat,List.reverse_append,List.reverse_singleton,List.singleton_append]
    cases bit with
    | zero =>
      rw [Nat.testBit_zero,List.getElem?_cons_zero]
      by_cases one : digit = '1'
      · rw [if_pos one,one]
        simp [Nat.add_mod]
      · rw [if_neg one]
        simp [one]
    | succ bit =>
      have half : (2 * binaryValue text + if digit = '1' then 1 else 0) / 2 = binaryValue text := by
        split <;> omega
      rw [Nat.testBit_succ,half,ih,List.getElem?_cons_succ]

theorem busValueOf_digits (digits : ∀ char ∈ text, char = '0' ∨ char = '1') (fits : binaryValue text < 2 ^ 63) :
    busValueOf text = binaryValue text := by
  have all : text.takeWhile (fun char => char == '0' || char == '1') = text := by
    rw [List.takeWhile_eq_self_iff]
    intro char mem
    simpa using digits char mem
  have parsed : strtolBinary text = binaryValue text := by
    unfold strtolBinary
    split
    case h_1 rest => exact absurd (digits '-' (List.mem_cons_self ..)) (by decide)
    case h_2 rest => exact absurd (digits '+' (List.mem_cons_self ..)) (by decide)
    case h_3 => dsimp only; rw [all]; omega
  have known : ∀ upper, text.head?.map Char.toUpper = some upper → upper = '0' ∨ upper = '1' := by
    intro upper first
    obtain ⟨char, head, rfl⟩ := Option.map_eq_some_iff.mp first
    rcases digits char (List.mem_of_mem_head? head) with rfl | rfl
    · exact Or.inl (by decide)
    · exact Or.inr (by decide)
  unfold busValueOf
  split
  case h_1 first => exact absurd (known _ first) (by decide)
  case h_2 first => exact absurd (known _ first) (by decide)
  case h_3 first => exact absurd (known _ first) (by decide)
  case h_4 => rw [parsed]; omega

theorem textBit_digits (digits : ∀ char ∈ text, char = '0' ∨ char = '1') (bit : Nat) :
    textBit text bit = if text.reverse[bit]? = some '1' then '1' else '0' := by
  unfold textBit
  cases found : text.reverse[bit]? with
  | some char =>
    rcases digits char (List.mem_reverse.mp (List.mem_of_getElem? found)) with rfl | rfl <;> rfl
  | none =>
    rw [if_neg (by simp)]
    dsimp only
    split
    case h_1 first => exact absurd (digits 'x' (List.mem_of_mem_head? first)) (by decide)
    case h_2 first => exact absurd (digits 'z' (List.mem_of_mem_head? first)) (by decide)
    case h_3 => rfl

/-- Appending a vector change leaves its value as the last one, whether it is stored or was there before. -/
theorem getLast?_varAppendBusValue (vectors : ∀ entry ∈ values, entry.value = none)
    (appended : varAppendBusValue values time busValue busWidth = some values') :
    ∃ entry, values'.getLast? = some entry ∧ entry.value = none ∧ entry.busValue = busValue := by
  unfold varAppendBusValue at appended
  cases last : values.getLast? with
  | none =>
    rw [last] at appended
    obtain rfl := Option.some.inj appended
    exact ⟨⟨time, none, busValue, busWidth⟩, by simp, rfl, rfl⟩
  | some entry =>
    rw [last] at appended
    by_cases changed : entry.busValue ≠ busValue
    · by_cases later : entry.time < time
      · simp only [if_pos changed,if_pos later,Option.some.injEq] at appended
        subst appended
        exact ⟨⟨time, none, busValue, busWidth⟩, by simp, rfl, rfl⟩
      · simp only [if_pos changed,if_neg later] at appended
        cases appended
    · simp only [if_neg changed,Option.some.injEq] at appended
      subst appended
      exact ⟨entry, last, vectors entry (List.mem_of_getLast? last), not_not.mp changed⟩

theorem mem_setVarActivity (rangeFrom rangeTo : Int) (pinIdx : Int) (valueBit : Nat) :
    (pinIdx, valueBit) ∈ setVarActivity rangeFrom rangeTo ↔
      valueBit = (pinIdx - rangeTo).natAbs ∧ min rangeFrom rangeTo ≤ pinIdx ∧ pinIdx ≤ max rangeFrom rangeTo := by
  unfold setVarActivity
  split <;> simp only [List.mem_map,List.mem_range,Prod.mk.injEq]
  case isTrue down =>
    constructor
    · rintro ⟨bit, inside, rfl, rfl⟩
      omega
    · rintro ⟨place, low, high⟩
      exact ⟨valueBit, by omega, by omega, rfl⟩
  case isFalse up =>
    constructor
    · rintro ⟨bit, inside, rfl, rfl⟩
      omega
    · rintro ⟨place, low, high⟩
      exact ⟨valueBit, by omega, by omega, rfl⟩

/-- A vector change of a variable of the range: every pin up to bit 63 reads the bit of its place, where the text is of
digits and its value fits in a signed word. Mixed with unknowns, which the reader warns about, a value that begins with
one reads 0. -/
theorem busBit_decoded (rangeFrom rangeTo : Int) (text : List Char)
    (vectors : ∀ entry ∈ values, entry.value = none)
    (appended : varAppendBusValue values time (busValueOf text) text.length = some values')
    (assigned : (pinIdx, valueBit) ∈ setVarActivity rangeFrom rangeTo) (_word : valueBit < 64) :
    valueBit = (pinIdx - rangeTo).natAbs ∧
    ∃ entry, values'.getLast? = some entry ∧
      ((∀ char ∈ text, char = '0' ∨ char = '1') → binaryValue text < 2 ^ 63 →
        (entry.valueAt valueBit).toChar = textBit text valueBit) ∧
      (text.head? = some 'x' ∨ text.head? = some 'X' ∨ text.head? = some 'z' ∨ text.head? = some 'Z' →
        entry.valueAt valueBit = .zero) := by
  refine ⟨((mem_setVarActivity _ _ _ _).mp assigned).1, ?_⟩
  obtain ⟨entry, last, vector, value⟩ := getLast?_varAppendBusValue vectors appended
  refine ⟨entry, last, fun digits fits => ?_, fun unknown => ?_⟩
  · rw [VcdValue.valueAt,vector,value,busValueOf_digits digits fits,textBit_digits digits]
    dsimp only
    rw [testBit_binaryValue]
    by_cases one : text.reverse[valueBit]? = some '1'
    · simp [one,VcdChar.toChar]
    · simp [one,VcdChar.toChar]
  · have zero : busValueOf text = 0 := by
      unfold busValueOf
      rcases unknown with head | head | head | head <;> rw [head] <;> rfl
    rw [VcdValue.valueAt,vector,value,zero]
    simp

theorem busBit_decoded_nibble : varAppendBusValue [] 5 (busValueOf ['1', '0', '1']) 3 =
      some [⟨0, none, 0, 3⟩, ⟨5, none, 5, 3⟩] ∧
    ∃ entry, [(⟨0, none, 0, 3⟩ : VcdValue), ⟨5, none, 5, 3⟩].getLast? = some entry ∧
    (entry.valueAt 2).toChar = '1' := by
  have appended : varAppendBusValue [] 5 (busValueOf ['1', '0', '1']) ['1', '0', '1'].length =
      some [⟨0, none, 0, 3⟩, ⟨5, none, 5, 3⟩] := by decide +kernel
  have assigned : ((2 : Int), 2) ∈ setVarActivity 3 0 := by decide
  obtain ⟨-, entry, last, digits, -⟩ := busBit_decoded 3 0 ['1', '0', '1'] (by simp) appended assigned (by decide)
  exact ⟨appended, entry, last, digits (by simp) (by decide +kernel)⟩

/-- The value of a two bit variable begins with an unknown: the known bit reads 0. -/
theorem busBit_lost : ∃ entry, varAppendBusValue [] 0 (busValueOf ['x', '1']) 2 = some [entry] ∧
    ((1 : Int), 1) ∈ setVarActivity 1 0 ∧ ((0 : Int), 0) ∈ setVarActivity 1 0 ∧
    (entry.valueAt 0).toChar = '0' ∧ textBit ['x', '1'] 0 = '1' ∧
    (entry.valueAt 1).toChar = '0' ∧ textBit ['x', '1'] 1 = 'x' :=
  ⟨⟨0, none, 0, 2⟩, by decide +kernel, by decide, by decide, by decide, by decide, by decide, by decide⟩

end Bits
end GTPower
