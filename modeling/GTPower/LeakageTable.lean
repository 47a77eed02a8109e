import GTPower.WhenEnumeration

/-! The leakage power of a cell in the states of its pins: from the table over all states that the power groups are
flattened into, with a default when there are too many pins, against the groups themselves. -/
namespace GTPower

structure LeakagePower (κ : Type) where
  when : Option (FuncExpr κ)
  power : ℚ

/-- The leakage power of a cell itself and whether it is given. -/
structure CellLeakage where
  power : ℚ
  existing : Bool

structure LeakagePowerData where
  leakagePowerValues : List ℚ
  default : CellLeakage

namespace CellLeakage

def value (cell : CellLeakage) : ℚ := if cell.existing then cell.power else 0

end CellLeakage

/-- `INVALID_N_STATE` -/
def invalidNState : Nat := 2 ^ 30

/-- Most entries a vector of `float` can have. -/
def maxTableSize : Nat := 2 ^ 61 - 1

section Build
variable {κ : Type} (portNameToIdx : κ → Option (Fin n))

/-- A conversion of `int` to `NStateVal`. -/
def toNStateVal (shifted : Int) : Nat := (shifted % 2 ^ 64).toNat

def resize (size : Nat) (value : ℚ) : Option (List ℚ) :=
  if size ≤ maxTableSize then some (List.replicate size value) else none

/-- A group overwrites the entries of its states. -/
def setGroup (leakagePowerValues : List ℚ) (pwr : LeakagePower κ) : Option (List ℚ) := do
  let matchedStateIdxs ← Machine.getStateIdx portNameToIdx pwr.when
  return matchedStateIdxs.foldl (fun values matchedStateIdx => values.set matchedStateIdx pwr.power) leakagePowerValues

/-- Above the threshold; the assertion that there is at most one group is checked unless the build is one without
assertions. -/
def defaultOfGroups (ndebug : Bool) (cell : CellLeakage) (leakagePowers : List (LeakagePower κ)) :
    Option LeakagePowerData :=
  match leakagePowers with
  | [] => some ⟨[], cell⟩
  | [pwr] => some ⟨[], ⟨pwr.power, true⟩⟩
  | _ :: _ :: _ => if ndebug then some ⟨[], cell⟩ else none

def getLeakagePower (ndebug : Bool) (maxNPin : Nat) (cell : CellLeakage) (leakagePowers : List (LeakagePower κ)) :
    Option LeakagePowerData :=
  if maxNPin < n then defaultOfGroups ndebug cell leakagePowers
  else do
    let nState ← if leakagePowers = [] then some invalidNState else (Machine.shiftInt n).map toNStateVal
    if nState = invalidNState then return ⟨[], cell⟩
    let leakagePowerValues ← resize nState cell.value
    let leakagePowerValues ← leakagePowers.foldlM (setGroup portNameToIdx) leakagePowerValues
    return ⟨leakagePowerValues, cell⟩

/-- The search of the host through the table; an entry that is not found leaves the value unset. -/
def findLeakageVal (pinStates : Fin n → Int) (data : LeakagePowerData) : Option ℚ :=
  if data.leakagePowerValues = [] then some data.default.value
  else (Machine.getPinStatesIndex pinStates).bind fun idx =>
    ((List.range data.leakagePowerValues.length).find? fun iLeak => iLeak = idx).bind fun iLeak =>
      data.leakagePowerValues[iLeak]?

/-- The access of the device to the table, undefined outside it. -/
def Device.findLeakageVal (pinStates : Fin n → Int) (data : LeakagePowerData) : Option ℚ :=
  if data.leakagePowerValues = [] then some data.default.value
  else (Machine.getPinStatesIndex pinStates).bind fun idx => data.leakagePowerValues[idx]?

/-- The last group in the order of the file whose condition holds. -/
def lastHolding (pinStates : Fin n → Int) (leakagePowers : List (LeakagePower κ)) : Option (LeakagePower κ) :=
  leakagePowers.reverse.find? fun pwr => isInternalPowerMatchPinStates portNameToIdx pinStates pwr.when = some true

/-- What the groups say about the states of the pins. -/
def leakageOfGroups (cell : CellLeakage) (pinStates : Fin n → Int) (leakagePowers : List (LeakagePower κ)) : ℚ :=
  match lastHolding portNameToIdx pinStates leakagePowers with
  | some pwr => pwr.power
  | none => cell.value

def AtMostOneHolds (pinStates : Fin n → Int) (leakagePowers : List (LeakagePower κ)) : Prop :=
  ∀ (i j : Nat) (first second : LeakagePower κ), leakagePowers[i]? = some first → leakagePowers[j]? = some second →
    WhenHolds portNameToIdx first.when pinStates → WhenHolds portNameToIdx second.when pinStates → i = j

/-- Host and device find what the groups say, for up to the threshold of pins or when at most one group holds. -/
def LeakageFound (ndebug : Bool) (maxNPin : Nat) (cell : CellLeakage) (pinStates : Fin n → Int)
    (leakagePowers : List (LeakagePower κ)) : Prop :=
  n ≤ maxNPin ∨ AtMostOneHolds portNameToIdx pinStates leakagePowers →
    ∃ data, getLeakagePower portNameToIdx ndebug maxNPin cell leakagePowers = some data ∧
      findLeakageVal pinStates data = some (leakageOfGroups portNameToIdx cell pinStates leakagePowers) ∧
      Device.findLeakageVal pinStates data = some (leakageOfGroups portNameToIdx cell pinStates leakagePowers)

/-- No group holds, or the last one that does has the power of the cell. -/
def DefaultSuffices (cell : CellLeakage) (pinStates : Fin n → Int) (leakagePowers : List (LeakagePower κ)) : Prop :=
  ∀ pwr, lastHolding portNameToIdx pinStates leakagePowers = some pwr → pwr.power = cell.value

end Build

section Table
variable {κ : Type} {portNameToIdx : κ → Option (Fin n)} {pinStates : Fin n → Int} {cell : CellLeakage}
  {leakagePowers : List (LeakagePower κ)}

theorem lastHolding_concat (leakagePowers : List (LeakagePower κ)) (pwr : LeakagePower κ) :
    lastHolding portNameToIdx pinStates (leakagePowers ++ [pwr]) =
      if isInternalPowerMatchPinStates portNameToIdx pinStates pwr.when = some true then some pwr
      else lastHolding portNameToIdx pinStates leakagePowers := by
  rw [lastHolding,List.reverse_append,List.reverse_singleton,List.singleton_append,List.find?_cons]
  by_cases holds : isInternalPowerMatchPinStates portNameToIdx pinStates pwr.when =
    some true <;> simp [holds,lastHolding]

theorem leakageOfGroups_concat (leakagePowers : List (LeakagePower κ)) (pwr : LeakagePower κ) :
    leakageOfGroups portNameToIdx cell pinStates (leakagePowers ++ [pwr]) =
      if isInternalPowerMatchPinStates portNameToIdx pinStates pwr.when = some true then pwr.power
      else leakageOfGroups portNameToIdx cell pinStates leakagePowers := by
  rw [leakageOfGroups,lastHolding_concat]
  by_cases holds : isInternalPowerMatchPinStates portNameToIdx pinStates pwr.when =
    some true <;> simp [holds,leakageOfGroups]

@[simp] theorem leakageOfGroups_nil : leakageOfGroups portNameToIdx cell pinStates [] = cell.value := rfl

theorem leakageOfGroups_eq_value (leakagePowers : List (LeakagePower κ)) :
    cell.value = leakageOfGroups portNameToIdx cell pinStates leakagePowers ↔
      DefaultSuffices portNameToIdx cell pinStates leakagePowers := by
  rw [leakageOfGroups,DefaultSuffices]
  cases lastHolding portNameToIdx pinStates leakagePowers with
  | none => simp
  | some pwr => simp [eq_comm]

@[simp] theorem length_foldl_set (idxs : List Nat) (value : ℚ) (values : List ℚ) :
    (idxs.foldl (fun values idx => values.set idx value) values).length = values.length := by
  induction idxs generalizing values with
  | nil => rfl
  | cons idx rest ih => rw [List.foldl_cons,ih,List.length_set]

theorem getElem?_foldl_set (idxs : List Nat) (value : ℚ) {values : List ℚ} (inside : place < values.length) :
    (idxs.foldl (fun values idx => values.set idx value) values)[place]? = if place ∈ idxs then some value
    else values[place]? := by
  induction idxs generalizing values with
  | nil => simp
  | cons idx rest ih =>
    have inside' : place < (values.set idx value).length := by rwa [List.length_set]
    rw [List.foldl_cons,ih inside',List.getElem?_set]
    by_cases later : place ∈ rest
    · simp [later]
    · by_cases here : idx = place
      · simp [here,inside]
      · simp [later,here,Ne.symm here]

/-- After some groups every entry is what these groups say about its states. -/
structure Flattened (portNameToIdx : κ → Option (Fin n)) (cell : CellLeakage) (leakagePowers : List (LeakagePower κ))
    (values : List ℚ) :
    Prop where
  length : values.length = 2 ^ n
  entry : ∀ pinStates : Fin n →
    Int, values[getPinStatesIndex pinStates]? = some (leakageOfGroups portNameToIdx cell pinStates leakagePowers)

theorem flattened_replicate (portNameToIdx : κ → Option (Fin n)) (cell : CellLeakage) :
    Flattened portNameToIdx cell [] (List.replicate (2 ^ n) cell.value) where
  length := List.length_replicate
  entry pinStates := by
    have inside := getPinStatesIndex_lt pinStates
    simp [inside]

theorem Flattened.setGroup {values : List ℚ} (flattened : Flattened portNameToIdx cell leakagePowers values)
    (few : n ≤ 64) (accepted : (getWhenPinStates portNameToIdx pwr.when).isSome) :
    ∃ next, GTPower.setGroup portNameToIdx values pwr = some next ∧
    Flattened portNameToIdx cell (leakagePowers ++ [pwr]) next := by
  obtain ⟨⟨satisfiable, whenPinStates⟩, accepted⟩ := Option.isSome_iff_exists.mp accepted
  obtain ⟨idxs, enumerated, -, -, -, indexed⟩ := getStateIdx_spec accepted few
  refine ⟨_, by rw [GTPower.setGroup,enumerated]; rfl, ?_, fun pinStates => ?_⟩
  · rw [length_foldl_set]
    exact flattened.length
  · have inside : getPinStatesIndex pinStates < values.length := flattened.length ▸ getPinStatesIndex_lt pinStates
    have holds := indexed pinStates
    rw [WhenHolds] at holds
    rw [getElem?_foldl_set _ _ inside,flattened.entry,leakageOfGroups_concat]
    by_cases mem : getPinStatesIndex pinStates ∈ idxs
    · rw [if_pos mem,if_pos (holds.mp mem)]
    · rw [if_neg mem,if_neg (mt holds.mpr mem)]

theorem flattened_groups {values : List ℚ} (few : n ≤ 64) (done rest : List (LeakagePower κ))
    (accepted : ∀ pwr ∈ rest, (getWhenPinStates portNameToIdx pwr.when).isSome)
    (flattened : Flattened portNameToIdx cell done values) :
    ∃ table, rest.foldlM (setGroup portNameToIdx) values = some table ∧
    Flattened portNameToIdx cell (done ++ rest) table := by
  induction rest generalizing done values with
  | nil => exact ⟨values, rfl, by rwa [List.append_nil]⟩
  | cons pwr rest ih =>
    obtain ⟨next, step, flattened⟩ := flattened.setGroup few (accepted pwr (List.mem_cons_self ..))
    obtain ⟨table, run, flattened⟩ :=
      ih (done ++ [pwr]) (fun other mem => accepted other (List.mem_cons_of_mem _ mem)) flattened
    refine ⟨table, ?_, by simpa using flattened⟩
    rw [List.foldlM_cons,step]
    exact run

theorem shiftInt_low (few : n ≤ 30) : (Machine.shiftInt n).map toNStateVal = some (2 ^ n) := by
  have small : 2 ^ n ≤ 2 ^ 30 := Nat.pow_le_pow_right Nat.two_pos few
  have value : ((2 : Int) ^ n) = ((2 ^ n : Nat) : Int) := by
    push_cast
    rfl
  rw [Machine.shiftInt,if_pos (Nat.lt_succ_of_le few),Option.map_some,toNStateVal,value]
  generalize 2 ^ n = nState at small
  congr 1
  omega

theorem find_range (values : List ℚ) (idx : Nat) :
    (((List.range values.length).find? fun iLeak => iLeak = idx).bind fun iLeak => values[iLeak]?) = values[idx]? := by
  by_cases inside : idx < values.length
  · have found : (List.range values.length).find? (fun iLeak => iLeak = idx) = some idx := by
      rw [List.find?_range_eq_some]
      refine ⟨by simp, List.mem_range.mpr inside, fun j less => ?_⟩
      simp [Nat.ne_of_lt less]
    rw [found,Option.bind_some]
  · have missing : (List.range values.length).find? (fun iLeak => iLeak = idx) = none := by
      rw [List.find?_eq_none]
      intro j mem
      have less := List.mem_range.mp mem
      simp
      omega
    rw [missing,Option.bind_none,List.getElem?_eq_none (Nat.not_lt.mp inside)]

theorem findLeakageVal_eq (pinStates : Fin n → Int) (data : LeakagePowerData) :
    findLeakageVal pinStates data = Device.findLeakageVal pinStates data := by
  rw [findLeakageVal,Device.findLeakageVal]
  simp only [find_range]

theorem Flattened.found {values : List ℚ} (flattened : Flattened portNameToIdx cell leakagePowers values) (few : n ≤ 31)
    (pinStates : Fin n → Int) :
    Device.findLeakageVal pinStates ⟨values, cell⟩ =
    some (leakageOfGroups portNameToIdx cell pinStates leakagePowers) := by
  have nonempty : values ≠ [] := by
    intro empty
    have length := flattened.length
    rw [empty,List.length_nil] at length
    exact absurd length (Nat.ne_of_lt (Nat.two_pow_pos n))
  rw [Device.findLeakageVal,if_neg nonempty,Machine.getPinStatesIndex_eq few,Option.bind_some]
  exact flattened.entry pinStates

theorem getLeakagePower_table (few : n ≤ 29) (within : n ≤ maxNPin) (some : leakagePowers ≠ [])
    (accepted : ∀ pwr ∈ leakagePowers, (getWhenPinStates portNameToIdx pwr.when).isSome) :
    ∃ values, getLeakagePower portNameToIdx ndebug maxNPin cell leakagePowers = Option.some ⟨values, cell⟩ ∧
      Flattened portNameToIdx cell leakagePowers values := by
  have small : 2 ^ n ≤ 2 ^ 29 := Nat.pow_le_pow_right Nat.two_pos few
  have sized : resize (2 ^ n) cell.value = Option.some (List.replicate (2 ^ n) cell.value) :=
    if_pos (small.trans (by decide))
  have valid : 2 ^ n ≠ invalidNState := by
    rw [invalidNState]
    omega
  obtain ⟨values, run, flattened⟩ :=
    flattened_groups (by omega) [] leakagePowers accepted (flattened_replicate portNameToIdx cell)
  refine ⟨values, ?_, flattened⟩
  rw [getLeakagePower,if_neg (Nat.not_lt.mpr within),if_neg some,shiftInt_low (by omega)]
  simp only [Option.bind_eq_bind,Option.bind_some,if_neg valid,sized,run,Option.pure_def]

/-- With 30 pins the number of states is the value that stands for none. -/
theorem getLeakagePower_30 {portNameToIdx : κ → Option (Fin 30)} (within : 30 ≤ maxNPin) :
    getLeakagePower portNameToIdx ndebug maxNPin cell leakagePowers = some ⟨[], cell⟩ := by
  rw [getLeakagePower,if_neg (Nat.not_lt.mpr within),shiftInt_low (le_refl 30),show (2 : Nat) ^ 30 =
    invalidNState from rfl]
  simp

/-- From 31 pins on the number of states is negative or undefined and no table is made. -/
theorem getLeakagePower_many (many : 31 ≤ n) (within : n ≤ maxNPin) (some : leakagePowers ≠ []) :
    getLeakagePower portNameToIdx ndebug maxNPin cell leakagePowers = none := by
  rw [getLeakagePower,if_neg (Nat.not_lt.mpr within),if_neg some]
  rcases Nat.eq_or_lt_of_le many with rfl | more
  · have negative : (Machine.shiftInt 31).map toNStateVal = Option.some (2 ^ 64 - 2 ^ 31) := rfl
    have large : resize (2 ^ 64 - 2 ^ 31) cell.value = none := rfl
    have valid : 2 ^ 64 - 2 ^ 31 ≠ invalidNState := by decide
    simp only [negative,Option.bind_eq_bind,Option.bind_some,if_neg valid,large,Option.bind_none]
  · have undefined : Machine.shiftInt n = none := by rw [Machine.shiftInt,if_neg (by omega),if_neg (by omega)]
    rw [undefined]
    rfl

theorem getLeakagePower_nil (within : n ≤ maxNPin) :
    getLeakagePower portNameToIdx ndebug maxNPin cell [] = some ⟨[], cell⟩ := by
  rw [getLeakagePower,if_neg (Nat.not_lt.mpr within),if_pos rfl]
  rfl

/-- Without a table the default is found. -/
theorem found_iff (default : CellLeakage) (leakagePowers : List (LeakagePower κ)) :
    (∃ data, some (⟨[], default⟩ : LeakagePowerData) = some data ∧
      findLeakageVal pinStates data = some (leakageOfGroups portNameToIdx cell pinStates leakagePowers) ∧
      Device.findLeakageVal pinStates data = some (leakageOfGroups portNameToIdx cell pinStates leakagePowers)) ↔
      default.value = leakageOfGroups portNameToIdx cell pinStates leakagePowers := by
  simp [findLeakageVal_eq,Device.findLeakageVal]

end Table

section Exact
variable {κ : Type} {portNameToIdx : κ → Option (Fin n)} {pinStates : Fin n → Int} {cell : CellLeakage}
  {leakagePowers : List (LeakagePower κ)}

theorem leakageFound_within (within : n ≤ maxNPin)
    (accepted : ∀ pwr ∈ leakagePowers, (getWhenPinStates portNameToIdx pwr.when).isSome) :
    LeakageFound portNameToIdx ndebug maxNPin cell pinStates leakagePowers ↔
      leakagePowers = [] ∨ n ≤ 29 ∨ n = 30 ∧ DefaultSuffices portNameToIdx cell pinStates leakagePowers := by
  rw [LeakageFound,imp_iff_right (Or.inl within)]
  by_cases some : leakagePowers = []
  · rw [some,getLeakagePower_nil within,found_iff]
    simp
  rw [or_iff_right some]
  rcases Nat.lt_trichotomy n 30 with few | rfl | many
  · have low : n ≤ 29 := Nat.le_of_lt_succ few
    obtain ⟨values, built, flattened⟩ : ∃ values, getLeakagePower portNameToIdx ndebug maxNPin cell leakagePowers =
      Option.some ⟨values, cell⟩ ∧
        Flattened portNameToIdx cell leakagePowers values := getLeakagePower_table low within some accepted
    have found := flattened.found (by omega) pinStates
    exact iff_of_true ⟨_, built, (findLeakageVal_eq ..).trans found, found⟩ (Or.inl low)
  · rw [getLeakagePower_30 within,found_iff,leakageOfGroups_eq_value]
    simp
  · rw [getLeakagePower_many many within some]
    have not_low : ¬n ≤ 29 := by omega
    have not_mid : n ≠ 30 := by omega
    simp [not_low,not_mid]

theorem atMostOneHolds_single (pwr : LeakagePower κ) : AtMostOneHolds portNameToIdx pinStates [pwr] := by
  intro i j first second here there _ _
  have low := (List.getElem?_eq_some_iff.mp here).1
  have low' := (List.getElem?_eq_some_iff.mp there).1
  simp only [List.length_singleton] at low low'
  omega

theorem leakageFound_above (many : maxNPin < n) :
    LeakageFound portNameToIdx ndebug maxNPin cell pinStates leakagePowers ↔
      leakagePowers = [] ∨ (∃ pwr, leakagePowers = [pwr] ∧
        (WhenHolds portNameToIdx pwr.when pinStates ∨ pwr.power = cell.value)) ∨
      2 ≤ leakagePowers.length ∧
        (AtMostOneHolds portNameToIdx pinStates leakagePowers →
          ndebug = true ∧ DefaultSuffices portNameToIdx cell pinStates leakagePowers) := by
  have outside : ¬n ≤ maxNPin := Nat.not_le.mpr many
  rw [LeakageFound,getLeakagePower,if_pos many]
  match leakagePowers with
  | [] =>
    rw [defaultOfGroups,found_iff]
    simp
  | [pwr] =>
    rw [imp_iff_right (Or.inr (atMostOneHolds_single pwr)),defaultOfGroups,found_iff,← List.nil_append [pwr],
      leakageOfGroups_concat]
    by_cases holds : isInternalPowerMatchPinStates portNameToIdx pinStates pwr.when = some true
    · simp [holds,CellLeakage.value,WhenHolds]
    · simp [holds,CellLeakage.value,WhenHolds]
  | first :: second :: rest =>
    have long : 2 ≤ (first :: second :: rest).length := by simp
    cases ndebug with
    | true =>
      rw [defaultOfGroups,if_pos rfl,found_iff,leakageOfGroups_eq_value]
      simp [outside]
    | false =>
      rw [defaultOfGroups]
      simp [outside]

/-- The leakage power that is found is the one the groups say exactly in these cases: no group; a table over at most 29
pins; with 30 pins, or above the threshold in a build without assertions, a default that suffices; above the threshold a
single group that holds or has the power of the cell. -/
theorem leakageFound_iff (accepted : ∀ pwr ∈ leakagePowers, (getWhenPinStates portNameToIdx pwr.when).isSome) :
    LeakageFound portNameToIdx ndebug maxNPin cell pinStates leakagePowers ↔
      leakagePowers = [] ∨
      n ≤ maxNPin ∧ (n ≤ 29 ∨ n = 30 ∧ DefaultSuffices portNameToIdx cell pinStates leakagePowers) ∨
      maxNPin < n ∧
        ((∃ pwr, leakagePowers = [pwr] ∧ (WhenHolds portNameToIdx pwr.when pinStates ∨ pwr.power = cell.value)) ∨
          2 ≤ leakagePowers.length ∧
            (AtMostOneHolds portNameToIdx pinStates leakagePowers →
              ndebug = true ∧ DefaultSuffices portNameToIdx cell pinStates leakagePowers)) := by
  rcases Nat.lt_or_ge maxNPin n with many | within
  · have outside : ¬n ≤ maxNPin := Nat.not_le.mpr many
    rw [leakageFound_above many]
    simp only [many,outside,false_and,false_or,true_and]
  · have not_many : ¬maxNPin < n := Nat.not_lt.mpr within
    rw [leakageFound_within within accepted]
    simp only [within,not_many,false_and,or_false,true_and]

theorem leakageFound_two : LeakageFound (some : Fin 2 → Option (Fin 2)) false 16 ⟨1, true⟩ (fun _ => 1)
    [⟨some (.port 0), 2⟩, ⟨some (.and (.port 0) (.port 1)), 3⟩] :=
  (leakageFound_iff (by decide)).mpr (Or.inr (Or.inl ⟨by decide, Or.inl (by decide)⟩))

/-- Above the threshold the condition of a single group is not looked at. -/
theorem not_leakageFound_above : (getWhenPinStates (some : Fin 17 → Option (Fin 17)) (some (.port 0))).isSome ∧
    ¬LeakageFound (some : Fin 17 → Option (Fin 17)) false 16 ⟨1, true⟩ (fun _ => 0) [⟨some (.port 0), 2⟩] := by
  refine ⟨rfl, fun found => ?_⟩
  obtain ⟨data, built, found, -⟩ := found (Or.inr (atMostOneHolds_single _))
  rw [getLeakagePower,if_pos (by decide),defaultOfGroups,Option.some.injEq] at built
  subst built
  have expected : leakageOfGroups (some : Fin 17 → Option (Fin 17)) ⟨1, true⟩ (fun _ => 0) [⟨some (.port 0), 2⟩] =
    1 := by
    decide +kernel
  rw [expected] at found
  simp [findLeakageVal,CellLeakage.value] at found

end Exact

end GTPower
