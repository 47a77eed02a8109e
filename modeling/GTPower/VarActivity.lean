import GTPower.EventCounts
import Mathlib.MeasureTheory.Measure.Lebesgue.Basic

/-! Activity and duty of a bit from its waveform. The duty is compared with the time for which the waveform, as a
function of time, is at one. -/
namespace GTPower
open MeasureTheory

section Find
variable (valueBit : Nat)

/-- A change from or to an unknown value is half a transition. -/
def transitionWeight (prevValue value : VcdChar) : ℚ :=
  if value ≠ prevValue then if value = .x ∨ value = .z ∨ prevValue = .x ∨ prevValue = .z then 1 / 2 else 1 else 0

structure ActivityLoop where
  prevTime : Int
  prevValue : VcdChar
  highTime : Int
  transitionCount : ℚ

def ActivityLoop.step (loop : ActivityLoop) (varValue : VcdValue) : ActivityLoop where
  prevTime := varValue.time
  prevValue := varValue.valueAt valueBit
  highTime := if loop.prevValue = .one then loop.highTime + (varValue.time - loop.prevTime) else loop.highTime
  transitionCount := loop.transitionCount + transitionWeight loop.prevValue (varValue.valueAt valueBit)

def ActivityLoop.wholeHighTime (loop : ActivityLoop) (timeMax : Nat) : Int :=
  if loop.prevValue = .one then loop.highTime + (timeMax - loop.prevTime) else loop.highTime

structure VarActivity where
  transitionCount : ℚ
  activity : ℚ
  duty : ℚ

/-- `none` for an empty list, whose first value is read. -/
def findVarActivity (timeMax : Nat) (timeScale clkPeriod : ℚ) (varValues : List VcdValue) : Option VarActivity :=
  match varValues with
  | [] => none
  | first :: rest =>
    let loop := (first :: rest).foldl (ActivityLoop.step valueBit) ⟨first.time, first.valueAt valueBit, 0, 0⟩
    some ⟨loop.transitionCount, loop.transitionCount / (timeMax * timeScale / clkPeriod),
      loop.wholeHighTime timeMax / timeMax⟩

end Find

section Waveform
variable (valueBit : Nat)

/-- The waveform of a bit at a time, by the last record that is not later. -/
def ShowsAt (varValues : List VcdValue) (time : ℝ) (value : VcdChar) : Prop :=
  ∃ front varValue back, varValues = front ++ varValue :: back ∧ (varValue.time : ℝ) ≤ time ∧
    (∀ later ∈ back, time < later.time) ∧ varValue.valueAt valueBit = value

/-- The times within the dump at which the bit is one. -/
def highTimes (timeMax : Nat) (varValues : List VcdValue) : Set ℝ :=
  {time | 0 ≤ time ∧ time < timeMax ∧ ShowsAt valueBit varValues time .one}

theorem showsAt_cons (first : VcdValue) (rest : List VcdValue) (time : ℝ) (value : VcdChar) :
    ShowsAt valueBit (first :: rest) time value ↔
      (first.time : ℝ) ≤ time ∧ (∀ later ∈ rest, time < later.time) ∧ first.valueAt valueBit = value ∨
      ShowsAt valueBit rest time value := by
  constructor
  · rintro ⟨front, varValue, back, parts, reached, later, shown⟩
    cases front with
    | nil =>
      obtain ⟨rfl, rfl⟩ := List.cons.inj parts
      exact Or.inl ⟨reached, later, shown⟩
    | cons head front =>
      obtain ⟨rfl, rfl⟩ := List.cons.inj parts
      exact Or.inr ⟨front, varValue, back, rfl, reached, later, shown⟩
  · rintro (⟨reached, later, shown⟩ | ⟨front, varValue, back, rfl, reached, later, shown⟩)
    · exact ⟨[], first, rest, rfl, reached, later, shown⟩
    · exact ⟨first :: front, varValue, back, rfl, reached, later, shown⟩

def pulseTime (entry : VcdValue) (stop : Nat) : Int :=
  if entry.valueAt valueBit = .one then (stop : Int) - entry.time else 0

def highFrom (timeMax : Nat) : VcdValue → List VcdValue → Int
  | entry, [] => pulseTime valueBit entry timeMax
  | entry, next :: rest => pulseTime valueBit entry next.time + highFrom timeMax next rest

theorem wholeHighTime_foldl (timeMax : Nat) (entry : VcdValue) (rest : List VcdValue) (highTime : Int)
    (transitionCount : ℚ) :
    (rest.foldl (ActivityLoop.step valueBit) ⟨entry.time, entry.valueAt valueBit, highTime,
    transitionCount⟩).wholeHighTime timeMax =
      highTime + highFrom valueBit timeMax entry rest := by
  induction rest generalizing entry highTime transitionCount with
  | nil =>
    simp only [List.foldl_nil,ActivityLoop.wholeHighTime,highFrom,pulseTime]
    by_cases one : entry.valueAt valueBit = .one <;> simp [one]
  | cons next rest ih =>
    rw [List.foldl_cons,ActivityLoop.step,ih]
    simp only [highFrom,pulseTime]
    by_cases one : entry.valueAt valueBit = .one
    · simp only [one,if_true]
      omega
    · simp [one]

theorem transitionCount_foldl (loop : ActivityLoop) (rest : List VcdValue) :
    (rest.foldl (ActivityLoop.step valueBit) loop).transitionCount =
      loop.transitionCount + Consecutive.total transitionWeight loop.prevValue (bitValues valueBit rest) := by
  induction rest generalizing loop with
  | nil => simp [bitValues]
  | cons next rest ih =>
    rw [List.foldl_cons,ih,bitValues_cons,Consecutive.total_cons,← add_assoc]
    rfl

end Waveform

section Measure
variable (valueBit : Nat)

/-- The times of the pulse that a record starts. -/
def pulse (entry : VcdValue) (stop : Nat) : Set ℝ :=
  {time | entry.valueAt valueBit = .one ∧ time ∈ Set.Ico (entry.time : ℝ) stop}

theorem pulse_measure (entry : VcdValue) (order : entry.time ≤ stop) :
    MeasurableSet (pulse valueBit entry stop) ∧
      volume (pulse valueBit entry stop) = ENNReal.ofReal (pulseTime valueBit entry stop) ∧
        0 ≤ pulseTime valueBit entry stop := by
  by_cases one : entry.valueAt valueBit = .one
  · have whole : pulse valueBit entry stop = Set.Ico (entry.time : ℝ) stop := by
      ext time
      exact ⟨fun mem => mem.2, fun mem => ⟨one, mem⟩⟩
    rw [whole,pulseTime,if_pos one,Real.volume_Ico]
    refine ⟨measurableSet_Ico, ?_, by omega⟩
    push_cast
    rfl
  · have none : pulse valueBit entry stop = ∅ := by
      ext time
      exact ⟨fun mem => one mem.1, fun mem => absurd mem (Set.notMem_empty _)⟩
    rw [none,pulseTime,if_neg one]
    simp

theorem highTimes_cons (entry next : VcdValue) (rest : List VcdValue)
    (ordered : (next :: rest).Pairwise fun a b => a.time ≤ b.time) (within : next.time ≤ timeMax) :
    highTimes valueBit timeMax (entry :: next :: rest) = pulse valueBit entry next.time ∪ highTimes valueBit timeMax
    (next :: rest) := by
  have first := (List.pairwise_cons.mp ordered).1
  ext time
  simp only [highTimes,Set.mem_ofPred_eq,Set.mem_union,showsAt_cons valueBit entry]
  constructor
  · rintro ⟨positive, inside, ⟨reached, later, shown⟩ | shown⟩
    · exact Or.inl ⟨shown, reached, later next (List.mem_cons_self ..)⟩
    · exact Or.inr ⟨positive, inside, shown⟩
  · rintro (⟨shown, reached, before⟩ | ⟨positive, inside, shown⟩)
    · have bound : (next.time : ℝ) ≤ timeMax := by exact_mod_cast within
      refine ⟨(Nat.cast_nonneg _).trans reached, before.trans_le bound, Or.inl ⟨reached, fun later mem => ?_, shown⟩⟩
      rcases List.mem_cons.mp mem with rfl | mem
      · exact before
      · have order : (next.time : ℝ) ≤ later.time := by exact_mod_cast first later mem
        exact before.trans_le order
    · exact ⟨positive, inside, Or.inr shown⟩

theorem highTimes_single (entry : VcdValue) : highTimes valueBit timeMax [entry] = pulse valueBit entry timeMax := by
  ext time
  simp only [highTimes,Set.mem_ofPred_eq,showsAt_cons]
  constructor
  · rintro ⟨-, inside, ⟨reached, -, shown⟩ | ⟨front, varValue, back, parts, -⟩⟩
    · exact ⟨shown, reached, inside⟩
    · simp at parts
  · rintro ⟨shown, reached, inside⟩
    exact ⟨(Nat.cast_nonneg _).trans reached, inside, Or.inl ⟨reached, by simp, shown⟩⟩

theorem highTimes_from (next : VcdValue) (rest : List VcdValue)
    (ordered : (next :: rest).Pairwise fun a b => a.time ≤ b.time)
    (high : time ∈ highTimes valueBit timeMax (next :: rest)) : (next.time : ℝ) ≤ time := by
  obtain ⟨-, -, front, varValue, back, parts, reached, -⟩ := high
  have mem : varValue ∈ next :: rest := by
    rw [parts]
    simp
  rcases List.mem_cons.mp mem with rfl | later
  · exact reached
  · have order : (next.time : ℝ) ≤ varValue.time := by exact_mod_cast (List.pairwise_cons.mp ordered).1 varValue later
    exact order.trans reached

theorem highTimes_measure (timeMax : Nat) (entry : VcdValue) (rest : List VcdValue)
    (ordered : (entry :: rest).Pairwise fun a b => a.time ≤ b.time)
    (within : ∀ varValue ∈ entry :: rest, varValue.time ≤ timeMax) :
    MeasurableSet (highTimes valueBit timeMax (entry :: rest)) ∧
      volume (highTimes valueBit timeMax (entry :: rest)) = ENNReal.ofReal (highFrom valueBit timeMax entry rest) ∧
      0 ≤ highFrom valueBit timeMax entry rest ∧ highFrom valueBit timeMax entry rest ≤ timeMax - entry.time := by
  induction rest generalizing entry with
  | nil =>
    rw [highTimes_single,highFrom]
    have bound := within entry (List.mem_singleton_self _)
    obtain ⟨measurable, measure, positive⟩ := pulse_measure valueBit entry bound
    refine ⟨measurable, measure, positive, ?_⟩
    unfold pulseTime
    split <;> omega
  | cons next rest ih =>
    obtain ⟨order, later⟩ := List.pairwise_cons.mp ordered
    have bound := within next (by simp)
    have first := order next (List.mem_cons_self ..)
    obtain ⟨measurable, measure, positive⟩ := pulse_measure valueBit entry first
    obtain ⟨measurable', measure', positive', least⟩ :=
      ih next later fun varValue mem => within varValue (List.mem_cons_of_mem _ mem)
    have apart : Disjoint (pulse valueBit entry next.time) (highTimes valueBit timeMax (next :: rest)) := by
      rw [Set.disjoint_left]
      intro time before high
      exact absurd (highTimes_from valueBit next rest later high) (not_le.mpr before.2.2)
    rw [highTimes_cons valueBit entry next rest later bound,highFrom]
    refine ⟨measurable.union measurable', ?_, Int.add_nonneg positive positive', ?_⟩
    · rw [measure_union apart measurable',measure,measure',
        ← ENNReal.ofReal_add (by exact_mod_cast positive) (by exact_mod_cast positive')]
      push_cast
      rfl
    · unfold pulseTime
      split <;> omega

end Measure

section Result
variable (valueBit : Nat)

theorem transitionWeight_self (value : VcdChar) : transitionWeight value value = 0 := by simp [transitionWeight]

theorem step_first (first : VcdValue) : ActivityLoop.step valueBit ⟨first.time, first.valueAt valueBit, 0, 0⟩ first =
    ⟨first.time, first.valueAt valueBit, 0, 0⟩ := by
  simp [ActivityLoop.step,transitionWeight_self]

theorem findVarActivity_cons (timeMax : Nat) (timeScale clkPeriod : ℚ) (first : VcdValue) (rest : List VcdValue) :
    ∃ found, findVarActivity valueBit timeMax timeScale clkPeriod (first :: rest) = some found ∧
      found.duty = highFrom valueBit timeMax first rest / timeMax ∧
      found.transitionCount = Consecutive.total transitionWeight (first.valueAt valueBit)
        (bitValues valueBit rest) := by
  refine ⟨_, rfl, ?_, ?_⟩
  · dsimp only
    rw [List.foldl_cons,step_first,wholeHighTime_foldl,zero_add]
  · dsimp only
    rw [List.foldl_cons,step_first,transitionCount_foldl,zero_add]

/-- The transitions of a list, by the values it shows. -/
def transitionTotal (values : List VcdChar) : ℚ := Consecutive.total transitionWeight (values.head?.getD .zero) values

theorem transitionCount_eq (timeMax : Nat) (timeScale clkPeriod : ℚ) {varValues : List VcdValue}
    (nonempty : varValues ≠ []) :
    (findVarActivity valueBit timeMax timeScale clkPeriod varValues).map VarActivity.transitionCount =
      some (transitionTotal (bitValues valueBit varValues)) := by
  cases varValues with
  | nil => exact absurd rfl nonempty
  | cons first rest =>
    obtain ⟨found, run, -, count⟩ := findVarActivity_cons valueBit timeMax timeScale clkPeriod first rest
    rw [run,Option.map_some,count,transitionTotal,bitValues_cons,List.head?_cons,Option.getD_some,
      Consecutive.total_self _ transitionWeight_self]

/-- Records that show what the one before them shows leave the transitions as they are. -/
theorem transitionTotal_inserted
    (inserted : Relation.ReflTransGen (Consecutive.Inserted fun varValue : VcdValue => varValue.valueAt valueBit)
      varValues varValues') :
    transitionTotal (bitValues valueBit varValues') = transitionTotal (bitValues valueBit varValues) ∧
    (varValues ≠ [] → varValues' ≠ []) := by
  induction inserted with
  | refl => exact ⟨rfl, id⟩
  | tail _ step ih =>
    refine ⟨?_, fun _ => ?_⟩
    · rw [← ih.1,transitionTotal,bitValues,step.head]
      exact step.total_eq _ transitionWeight_self _
    · obtain ⟨front, back, last, entry, same⟩ := step
      simp

end Result

end GTPower
