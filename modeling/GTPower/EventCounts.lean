import GTPower.ConsecutiveSums
import GTPower.WaveformLoader

/-! Events of a bit in a value list, in the whole list and in intervals of time. -/
namespace GTPower

section Count
variable (valueBit : Nat)

def bitValues (varValues : List VcdValue) : List VcdChar := varValues.map fun varValue => varValue.valueAt valueBit

/-- An event is a value other than the one before. -/
def eventWeight (prevValue value : VcdChar) : ℚ := if value ≠ prevValue then 1 else 0

/-- Events of some values behind the value `prevValue`. -/
def eventsFrom (prevValue : VcdChar) (varValues : List VcdValue) : ℚ :=
  Consecutive.total eventWeight prevValue (bitValues valueBit varValues)

def eventCount (varValues : List VcdValue) : ℚ :=
  match varValues with
  | [] => 0
  | first :: _ => eventsFrom valueBit (first.valueAt valueBit) varValues

/-- `lower_bound` over the times of the values. -/
def eventIndexAtOrAfter (varValues : List VcdValue) (time : Int) : Nat :=
  Bisect.lowerBound (fun mid => (timeAt varValues mid : Int) < time) 0 varValues.length

/-- Value of the record before an index, and of the first one where there is none. -/
def valueBefore (varValues : List VcdValue) (eventIdx : Nat) : VcdChar :=
  ((varValues[if eventIdx = 0 then eventIdx else eventIdx - 1]?).map fun varValue =>
    varValue.valueAt valueBit).getD .zero

def eventCountWithin (varValues : List VcdValue) (startTime endTime : Int) : ℚ :=
  if varValues = [] ∨ endTime ≤ startTime then 0
  else
    let eventIdx := eventIndexAtOrAfter varValues startTime
    let endIdx := eventIndexAtOrAfter varValues endTime
    if endIdx ≤ eventIdx then 0
    else eventsFrom valueBit (valueBefore valueBit varValues eventIdx)
      ((varValues.drop eventIdx).take (endIdx - eventIdx))

end Count

section Index
variable {varValues : List VcdValue}

theorem times_partitioned (increasing : varValues.Pairwise fun a b => a.time < b.time) (time : Int) :
    Bisect.Partitioned (fun mid => (timeAt varValues mid : Int) < time) 0 varValues.length := by
  intro i j _ order bound below
  have earlier : timeAt varValues i ≤ timeAt varValues j := by
    rcases Nat.lt_or_eq_of_le order with before | rfl
    · unfold timeAt
      rw [List.getElem?_eq_getElem (Nat.lt_trans before bound),List.getElem?_eq_getElem bound]
      exact Nat.le_of_lt (List.pairwise_iff_getElem.mp increasing i j _ _ before)
    · exact Nat.le_refl _
  have later := of_decide_eq_true below
  exact decide_eq_true (by omega)

theorem time_le_last (increasing : varValues.Pairwise fun a b => a.time < b.time)
    (last : varValues.getLast? = some lastValue) (mem : varValue ∈ varValues) : varValue.time ≤ lastValue.time := by
  obtain ⟨front, rfl⟩ := List.getLast?_eq_some_iff.mp last
  rcases List.mem_append.mp mem with before | final
  · exact Nat.le_of_lt ((List.pairwise_append.mp increasing).2.2 _ before _ (List.mem_singleton_self _))
  · rw [List.mem_singleton.mp final]

theorem eventIndex_le (increasing : varValues.Pairwise fun a b => a.time < b.time) (time : Int) :
    eventIndexAtOrAfter varValues time ≤ varValues.length :=
  Bisect.lowerBound_le (times_partitioned increasing time) (Nat.zero_le _)

theorem eventIndex_mono (increasing : varValues.Pairwise fun a b => a.time < b.time) (order : start ≤ stop) :
    eventIndexAtOrAfter varValues start ≤ eventIndexAtOrAfter varValues stop := by
  apply Bisect.lowerBound_mono (times_partitioned increasing start) (times_partitioned increasing stop) (Nat.zero_le _)
  intro i _ _ below
  exact decide_eq_true (Int.lt_of_lt_of_le (of_decide_eq_true below) order)

theorem eventIndex_first (increasing : varValues.Pairwise fun a b => a.time < b.time)
    (early : ∀ varValue ∈ varValues, start ≤ (varValue.time : Int)) : eventIndexAtOrAfter varValues start = 0 := by
  apply Bisect.lowerBound_eq (times_partitioned increasing start) (Nat.le_refl _) (Nat.zero_le _)
  · intro i low high
    omega
  · intro i low high below
    have time := early _ (List.getElem_mem high)
    have before := of_decide_eq_true below
    simp only [timeAt,List.getElem?_eq_getElem high,Option.map_some,Option.getD_some] at before
    omega

theorem eventIndex_last (increasing : varValues.Pairwise fun a b => a.time < b.time)
    (late : ∀ varValue ∈ varValues, (varValue.time : Int) < stop) :
    eventIndexAtOrAfter varValues stop = varValues.length := by
  apply Bisect.lowerBound_eq (times_partitioned increasing stop) (Nat.zero_le _) (Nat.le_refl _)
  · intro i low high
    have time := late _ (List.getElem_mem high)
    apply decide_eq_true
    simpa only [timeAt,List.getElem?_eq_getElem high,Option.map_some,Option.getD_some] using time
  · intro i low high
    omega

end Index

section Additive
variable (valueBit : Nat)

def eventsBefore (first : VcdValue) (rest : List VcdValue) (idx : Nat) : ℚ :=
  eventsFrom valueBit (first.valueAt valueBit) ((first :: rest).take idx)

@[simp] theorem bitValues_cons (first : VcdValue) (rest : List VcdValue) :
    bitValues valueBit (first :: rest) = first.valueAt valueBit :: bitValues valueBit rest := rfl

theorem bitValues_append (front back : List VcdValue) :
    bitValues valueBit (front ++ back) = bitValues valueBit front ++ bitValues valueBit back := List.map_append

theorem final_take (first : VcdValue) (rest : List VcdValue) (inside : idx ≤ (first :: rest).length) :
    Consecutive.final (first.valueAt valueBit) (bitValues valueBit ((first :: rest).take idx)) =
      valueBefore valueBit (first :: rest) idx := by
  unfold Consecutive.final valueBefore bitValues
  cases idx with
  | zero => rfl
  | succ idx =>
    rw [List.getLast?_map,List.getLast?_take]
    have present : idx < (first :: rest).length := inside
    simp [List.getElem?_eq_getElem present]

/-- The events between two indices are what is added to the events before the first one. -/
theorem eventsBefore_add (first : VcdValue) (rest : List VcdValue) (order : idx ≤ idx')
    (inside : idx' ≤ (first :: rest).length) :
    eventsBefore valueBit first rest idx + eventsFrom valueBit (valueBefore valueBit (first :: rest) idx)
      (((first :: rest).drop idx).take (idx' - idx)) = eventsBefore valueBit first rest idx' := by
  have split : (first :: rest).take idx' = (first :: rest).take idx ++
    ((first :: rest).drop idx).take (idx' - idx) := by
    rw [← List.take_add,Nat.add_sub_cancel' order]
  unfold eventsBefore eventsFrom
  rw [split,bitValues_append,Consecutive.total_append,final_take valueBit first rest (by omega)]

/-- The events of an interval are what is added to the events before its begin. -/
theorem eventsBefore_within (increasing : (first :: rest).Pairwise fun a b => a.time < b.time) (order : start ≤ stop) :
    eventsBefore valueBit first rest (eventIndexAtOrAfter (first :: rest) start) +
      eventCountWithin valueBit (first :: rest) start stop =
      eventsBefore valueBit first rest (eventIndexAtOrAfter (first :: rest) stop) := by
  have indices := eventIndex_mono increasing order
  unfold eventCountWithin
  by_cases empty : stop ≤ start
  · rw [if_pos (Or.inr empty),add_zero,Int.le_antisymm empty order]
  · rw [if_neg (by simp [empty])]
    dsimp only
    by_cases none : eventIndexAtOrAfter (first :: rest) stop ≤ eventIndexAtOrAfter (first :: rest) start
    · rw [if_pos none,add_zero,Nat.le_antisymm none indices]
    · rw [if_neg none]
      exact eventsBefore_add valueBit first rest indices (eventIndex_le increasing stop)

/-- Contiguous intervals add up to what lies between their first begin and their last end. -/
theorem eventsBefore_chain (increasing : (first :: rest).Pairwise fun a b => a.time < b.time) (ends : List Int)
    (ordered : (start :: ends).IsChain (· ≤ ·)) :
    eventsBefore valueBit first rest (eventIndexAtOrAfter (first :: rest) start) +
      (((start :: ends).zip ends).map fun interval => eventCountWithin valueBit (first ::
        rest) interval.1 interval.2).sum =
      eventsBefore valueBit first rest (eventIndexAtOrAfter (first :: rest) (ends.getLast?.getD start)) := by
  induction ends generalizing start with
  | nil => simp
  | cons stop ends ih =>
    obtain ⟨order, ordered⟩ := List.isChain_cons_cons.mp ordered
    rw [List.zip_cons_cons,List.map_cons,List.sum_cons,← add_assoc,
      eventsBefore_within valueBit increasing order,ih ordered]
    cases ends <;> simp [List.getLast?_eq_some_getLast]

end Additive

/-- Over contiguous intervals from the first record or before it up to behind the last one, the events of every bit are
counted once. -/
theorem eventCount_additive (varValues : List VcdValue) (valueBit : Nat) (start : Int) (ends : List Int)
    (increasing : varValues.Pairwise fun a b => a.time < b.time) (ordered : (start :: ends).IsChain (· ≤ ·))
    (first : ∀ varValue, varValues.head? = some varValue → start ≤ (varValue.time : Int))
    (last : ∀ varValue, varValues.getLast? = some varValue → (varValue.time : Int) < ends.getLast?.getD start) :
    (((start :: ends).zip ends).map fun interval => eventCountWithin valueBit varValues interval.1 interval.2).sum =
      eventCount valueBit varValues := by
  cases varValues with
  | nil =>
    have none : ∀ interval : Int × Int, eventCountWithin valueBit [] interval.1 interval.2 = 0 :=
      fun interval => if_pos (Or.inl rfl)
    simp [none,eventCount]
  | cons head rest =>
    have early : ∀ varValue ∈ head :: rest, start ≤ (varValue.time : Int) := by
      intro varValue mem
      have begins := first head rfl
      rcases List.mem_cons.mp mem with rfl | later
      · exact begins
      · have after := (List.pairwise_cons.mp increasing).1 varValue later
        omega
    have late : ∀ varValue ∈ head :: rest, (varValue.time : Int) < ends.getLast?.getD start := by
      intro varValue mem
      have final := List.getLast?_eq_some_getLast (List.cons_ne_nil head rest)
      have before := time_le_last increasing final mem
      have bound := last _ final
      omega
    have whole := eventsBefore_chain valueBit increasing ends ordered
    rw [eventIndex_first increasing early,eventIndex_last increasing late] at whole
    have none : eventsBefore valueBit head rest 0 = 0 := rfl
    have all : eventsBefore valueBit head rest (head :: rest).length = eventCount valueBit (head :: rest) := by
      rw [eventsBefore,List.take_length]
      rfl
    rw [← all,← whole,none,zero_add]

/-- A bus whose second bit toggles twice, in intervals one of which is empty. -/
theorem eventCount_additive_bus :
    (((0 : Int) :: [3, 3, 5, 9]).zip [3, 3, 5, 9] |>.map fun interval =>
      eventCountWithin 1 [⟨0, none, 0, 2⟩, ⟨3, none, 1, 2⟩, ⟨4, none, 3, 2⟩, ⟨8, none, 0, 2⟩] interval.1
        interval.2).sum =
    eventCount 1 [⟨0, none, 0, 2⟩, ⟨3, none, 1, 2⟩, ⟨4, none, 3, 2⟩, ⟨8, none, 0, 2⟩] :=
  eventCount_additive _ 1 0 [3, 3, 5, 9] (by decide) (by decide) (by simp) (by simp)

end GTPower
