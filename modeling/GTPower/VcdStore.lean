import GTPower.Event

/-! The values of a VCD variable as the reader appends them. The store keeps changes only, and starts
every variable at time 0. -/
namespace GTPower

inductive VcdChar where
  | zero
  | one
  | x
  | u
  | z
  deriving DecidableEq, Repr

/-- A scalar value, or `none` for a bus whose bits are in `busValue`. -/
structure VcdValue where
  time : Nat
  value : Option VcdChar
  busValue : Nat
  busWidth : Nat
  deriving DecidableEq, Repr

def VcdValue.valueAt (entry : VcdValue) (valueBit : Nat) : VcdChar :=
  match entry.value with
  | none => if entry.busValue.testBit valueBit then .one else .zero
  | some char => char

inductive VarChange where
  | scalar (value : VcdChar)
  | bus (busValue busWidth : Nat)
  deriving DecidableEq, Repr

/-- `none` where the assertion on the last value fails. -/
def varAppendValue (values : List VcdValue) (time : Nat) (value : VcdChar) : Option (List VcdValue) :=
  match values.getLast? with
  | none => some ((if time ≠ 0 then [⟨0, some .x, 0, 1⟩] else []) ++ [⟨time, some value, 0, 1⟩])
  | some last =>
    if last.value ≠ some value then
      if last.time < time ∧ last.busWidth = 1 then some (values ++ [⟨time, some value, 0, 1⟩]) else none
    else some values

def varAppendBusValue (values : List VcdValue) (time busValue busWidth : Nat) : Option (List VcdValue) :=
  match values.getLast? with
  | none => some ((if time ≠ 0 then [⟨0, none, 0, busWidth⟩] else []) ++ [⟨time, none, busValue, busWidth⟩])
  | some last =>
    if last.busValue ≠ busValue then
      if last.time < time then some (values ++ [⟨time, none, busValue, busWidth⟩]) else none
    else some values

/-- One value change of the dump with the time it was read at. -/
def parseVarValue (values : List VcdValue) (time : Nat) : VarChange → Option (List VcdValue)
  | .scalar value => varAppendValue values time value
  | .bus busValue busWidth => varAppendBusValue values time busValue busWidth

def parseVarValues (changes : List (Nat × VarChange)) : Option (List VcdValue) :=
  changes.foldlM (fun values change => parseVarValue values change.1 change.2) []

/-- Values of a variable in the store: from time 0 on with increasing times. -/
structure Stored (values : List VcdValue) : Prop where
  initial : ∀ first, values.head? = some first → first.time = 0
  increasing : values.Pairwise fun a b => a.time < b.time

theorem Stored.append (stored : Stored values) (last : values.getLast? = some entry) (later : entry.time < time)
    (next : VcdValue) (here : next.time = time) : Stored (values ++ [next]) := by
  constructor
  · intro first head
    cases values with
    | nil => cases last
    | cons entry rest => exact stored.initial first head
  · refine List.pairwise_append.mpr ⟨stored.increasing, List.pairwise_singleton _ _, fun a mem b single => ?_⟩
    obtain rfl := List.mem_singleton.mp single
    obtain ⟨front, rfl⟩ := List.getLast?_eq_some_iff.mp last
    rw [here]
    rcases List.mem_append.mp mem with old | final
    · have before := (List.pairwise_append.mp stored.increasing).2.2 a old entry (List.mem_singleton_self _)
      exact Nat.lt_trans before later
    · obtain rfl := List.mem_singleton.mp final
      exact later

theorem stored_first (initial next : VcdValue) (start : initial.time = 0) (here : next.time = time) :
    Stored ((if time ≠ 0 then [initial] else []) ++ [next]) := by
  by_cases zero : time = 0
  · rw [if_neg (not_not.mpr zero),List.nil_append]
    refine ⟨fun first head => ?_, List.pairwise_singleton _ _⟩
    obtain rfl := Option.some.inj head
    exact here.trans zero
  · rw [if_pos zero]
    refine ⟨fun first head => ?_, ?_⟩
    · obtain rfl := Option.some.inj head
      exact start
    · refine List.pairwise_pair.mpr ?_
      omega

theorem parseVarValue_stored (stored : Stored values) (change : VarChange)
    (parsed : parseVarValue values time change = some values') :
    Stored values' ∧ values' ≠ [] := by
  cases change with
  | scalar value =>
    simp only [parseVarValue,varAppendValue] at parsed
    cases last : values.getLast? with
    | none =>
      rw [last] at parsed
      obtain rfl := Option.some.inj parsed
      exact ⟨stored_first _ _ rfl rfl, by simp⟩
    | some entry =>
      rw [last] at parsed
      have nonempty : values ≠ [] := fun empty => by simp [empty] at last
      by_cases changed : entry.value ≠ some value
      · by_cases later : entry.time < time ∧ entry.busWidth = 1
        · simp only [if_pos changed,if_pos later,Option.some.injEq] at parsed
          subst parsed
          exact ⟨stored.append last later.1 _ rfl, by simp⟩
        · simp only [if_pos changed,if_neg later] at parsed
          cases parsed
      · simp only [if_neg changed,Option.some.injEq] at parsed
        subst parsed
        exact ⟨stored, nonempty⟩
  | bus busValue busWidth =>
    simp only [parseVarValue,varAppendBusValue] at parsed
    cases last : values.getLast? with
    | none =>
      rw [last] at parsed
      obtain rfl := Option.some.inj parsed
      exact ⟨stored_first _ _ rfl rfl, by simp⟩
    | some entry =>
      rw [last] at parsed
      have nonempty : values ≠ [] := fun empty => by simp [empty] at last
      by_cases changed : entry.busValue ≠ busValue
      · by_cases later : entry.time < time
        · simp only [if_pos changed,if_pos later,Option.some.injEq] at parsed
          subst parsed
          exact ⟨stored.append last later _ rfl, by simp⟩
        · simp only [if_pos changed,if_neg later] at parsed
          cases parsed
      · simp only [if_neg changed,Option.some.injEq] at parsed
        subst parsed
        exact ⟨stored, nonempty⟩

theorem parseVarValues_stored (changes : List (Nat × VarChange)) (parsed : parseVarValues changes = some values) :
    Stored values := by
  have running : ∀ (changes : List (Nat × VarChange)) (front : List VcdValue), Stored front →
      changes.foldlM (fun values change => parseVarValue values change.1 change.2) front = some values →
        Stored values := by
    intro changes
    induction changes with
    | nil =>
      intro front stored done
      obtain rfl := Option.some.inj done
      exact stored
    | cons change rest ih =>
      intro front stored run
      rw [List.foldlM_cons] at run
      cases step : parseVarValue front change.1 change.2 with
      | none => rw [step] at run; cases run
      | some next =>
        rw [step] at run
        exact ih next (parseVarValue_stored stored change.2 step).1 run
  exact running changes [] ⟨(fun _ head => by cases head), List.Pairwise.nil⟩ parsed

end GTPower
