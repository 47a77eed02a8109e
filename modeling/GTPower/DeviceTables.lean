import GTPower.HostGate

/-! The tables of one port on the device against the groups they are made of: which group a lookup ends in, for pin
states that may be Z, and the energy it gives. -/
namespace GTPower

namespace PortLUTs

def pairs (luts : PortLUTs α) : List (LUTPair α) := luts.indexedByOrder.map Prod.fst

def pairAt (luts : PortLUTs α) (place : Nat) : Option (LUTPair α) :=
  (luts.indexedByOrder.find? fun numbered => numbered.2 = place).map Prod.fst

def pairsByState (luts : PortLUTs α) : Option (Nat → Option (LUTPair α)) :=
  luts.indexedByState.map fun table stateIdx => (table stateIdx).bind luts.pairAt

end PortLUTs

section Unknown

/-- Pin states with everything but 0 and 1 as X. -/
def clampStates (pinStates : Fin n → Int) (pin : Fin n) : Int :=
  if pinStates pin = 0 ∨ pinStates pin = 1 then pinStates pin else 2

theorem clampStates_known (pinStates : Fin n → Int) (pin : Fin n) :
    clampStates pinStates pin = 0 ∨ clampStates pinStates pin = 1 ∨ clampStates pinStates pin = 2 := by
  by_cases known : pinStates pin = 0 ∨ pinStates pin = 1
  · simp only [clampStates,if_pos known]
    exact known.imp_right Or.inl
  · simp [clampStates,if_neg known]

@[simp] theorem clampStates_eq_one (pinStates : Fin n → Int) (pin : Fin n) : clampStates pinStates pin = 1 ↔
    pinStates pin = 1 := by
  by_cases known : pinStates pin = 0 ∨ pinStates pin = 1
  · simp [clampStates,if_pos known]
  · simp only [clampStates,if_neg known]
    exact ⟨fun impossible => absurd impossible (by decide), fun one => absurd (Or.inr one) known⟩

@[simp] theorem getPinStatesIndex_clamp (pinStates : Fin n → Int) :
    getPinStatesIndex (clampStates pinStates) = getPinStatesIndex pinStates := by
  simp [getPinStatesIndex]

variable {κ α : Type} {portNameToIdx : κ → Option (Fin n)}

theorem evalWhen_clamp (pinStates : Fin n → Int) (expr : FuncExpr κ) :
    evalWhen portNameToIdx (clampStates pinStates) expr = evalWhen portNameToIdx pinStates expr := by
  induction expr with
  | port name =>
    have same : ∀ pin, (clampStates pinStates pin == 1) = (pinStates pin == 1) := fun pin =>
      Bool.eq_iff_iff.mpr (by simp)
    simp [evalWhen,same]
  | not left ih => simp [evalWhen,ih]
  | and left right ihl ihr => simp [evalWhen,ihl,ihr]
  | or left right ihl ihr => simp [evalWhen,ihl,ihr]
  | xor left right ihl ihr => simp [evalWhen,ihl,ihr]
  | one => rfl
  | zero => rfl

theorem matches_clamp (pinStates : Fin n → Int) (group : InternalPower κ α) :
    Matches portNameToIdx (clampStates pinStates) group ↔ Matches portNameToIdx pinStates group := by
  cases when : group.when with
  | none => simp [Matches,when,isInternalPowerMatchPinStates]
  | some expr => simp [Matches,when,isInternalPowerMatchPinStates,evalWhen_clamp]

theorem lastMatch_clamp (pinStates : Fin n → Int) (groups : List (InternalPower κ α × Nat)) :
    lastMatch portNameToIdx (clampStates pinStates) groups = lastMatch portNameToIdx pinStates groups := by
  simp [lastMatch,matches_clamp]

end Unknown

section Converted
variable {κ α : Type} {portNameToIdx : κ → Option (Fin n)} {groups : List (InternalPower κ α × Nat)}

/-- The tables in order are those of the groups. -/
def Converted (portNameToIdx : κ → Option (Fin n)) (groups : List (InternalPower κ α × Nat))
    (order : List (LUTPair α × Nat)) : Prop :=
  List.Forall₂ (fun numbered entry => lutPairOf portNameToIdx numbered.1 = some entry.1 ∧
    numbered.2 = entry.2) groups order

theorem converted_foldlM (run : groups.foldlM (addGroup portNameToIdx) luts = some built) :
    ∃ order, built.indexedByOrder = luts.indexedByOrder ++ order ∧ Converted portNameToIdx groups order := by
  induction groups generalizing luts with
  | nil =>
    obtain rfl := Option.some.inj run
    exact ⟨[], (List.append_nil _).symm, List.Forall₂.nil⟩
  | cons numbered rest ih =>
    rw [List.foldlM_cons] at run
    obtain ⟨next, added, run⟩ := Option.bind_eq_some_iff.mp run
    obtain ⟨pair, converted, added⟩ := Option.bind_eq_some_iff.mp added
    obtain ⟨idxs, -, added⟩ := Option.bind_eq_some_iff.mp added
    obtain rfl := Option.some.inj added
    obtain ⟨order, appended, rest⟩ := ih run
    refine ⟨(pair, numbered.2) :: order, ?_, List.Forall₂.cons ⟨converted, rfl⟩ rest⟩
    simp [appended]

theorem Converted.accepted (converted : Converted portNameToIdx groups order) :
    ∀ numbered ∈ groups, (getWhenPinStates portNameToIdx numbered.1.when).isSome := by
  induction converted with
  | nil => simp
  | cons here _ ih =>
    intro numbered mem
    rcases List.mem_cons.mp mem with rfl | later
    · obtain ⟨collected, found, -⟩ := Option.map_eq_some_iff.mp here.1
      simp [found]
    · exact ih numbered later

theorem Converted.group_of_entry (converted : Converted portNameToIdx groups order) (mem : entry ∈ order) :
    ∃ group, (group, entry.2) ∈ groups ∧ lutPairOf portNameToIdx group = some entry.1 := by
  induction converted with
  | nil => cases mem
  | cons here _ ih =>
    rename_i numbered head restGroups restOrder _
    rcases List.mem_cons.mp mem with rfl | later
    · exact ⟨numbered.1, by simp [← here.2], here.1⟩
    · obtain ⟨group, found, pair⟩ := ih later
      exact ⟨group, List.mem_cons_of_mem _ found, pair⟩

theorem Converted.entry_of_group (converted : Converted portNameToIdx groups order) (mem : (group, place) ∈ groups) :
    ∃ pair, (pair, place) ∈ order ∧ lutPairOf portNameToIdx group = some pair := by
  induction converted with
  | nil => cases mem
  | cons here _ ih =>
    rename_i numbered head restGroups restOrder _
    rcases List.mem_cons.mp mem with rfl | later
    · exact ⟨head.1, List.mem_cons.mpr (Or.inl (Prod.ext rfl here.2)), here.1⟩
    · obtain ⟨pair, found, of⟩ := ih later
      exact ⟨pair, List.mem_cons_of_mem _ found, of⟩

theorem Converted.map_eq (converted : Converted portNameToIdx groups order) {f : LUTPair α → β}
    {g : InternalPower κ α → β} (same : ∀ group pair, lutPairOf portNameToIdx group = some pair → f pair = g group) :
    (order.map Prod.fst).map f = groups.map fun numbered => g numbered.1 := by
  induction converted with
  | nil => rfl
  | cons here _ ih => simp [same _ _ here.1,ih]

theorem Converted.scan_eq {luts : PortLUTs α} (converted : Converted portNameToIdx groups luts.indexedByOrder)
    (pinStates : Fin n → Int) :
    luts.scan pinStates = (groups.find? fun numbered =>
    (lutPairOf portNameToIdx numbered.1).any (·.matchPinStates pinStates)).map Prod.snd := by
  rw [PortLUTs.scan]
  generalize luts.indexedByOrder = order at converted
  induction converted with
  | nil => rfl
  | cons here _ ih =>
    rename_i numbered entry _ _ _
    rw [List.find?_cons,List.find?_cons,here.1,Option.any_some]
    cases fits : entry.1.matchPinStates pinStates with
    | true => simp [here.2]
    | false => exact ih

/-- A lookup on the device ends in the table of the selected group, or in none. -/
theorem selectLUT_eq {luts : PortLUTs α} {pinStates : Fin n → Int}
    (converted : Converted portNameToIdx groups luts.indexedByOrder) (distinct : (groups.map Prod.snd).Nodup)
    (inside : ∀ place, luts.select pinStates = some place → ∃ group, (group, place) ∈ groups) :
    match luts.select pinStates with
    | none => Gate.selectLUT luts.pairsByState luts.pairs pinStates = none
    | some place => ∃ group pair, (group, place) ∈ groups ∧ lutPairOf portNameToIdx group = some pair ∧
        Gate.selectLUT luts.pairsByState luts.pairs pinStates = some pair := by
  have entry : luts.pairsByState.bind (fun table => table (getPinStatesIndex pinStates)) =
    (luts.entry pinStates).bind luts.pairAt := by
    cases table : luts.indexedByState <;> simp [PortLUTs.pairsByState,PortLUTs.entry,table]
  have order : luts.pairs.find? (fun pair => pair.matchPinStates pinStates) =
      (luts.indexedByOrder.find? fun numbered => numbered.1.matchPinStates pinStates).map Prod.fst := by
    rw [PortLUTs.pairs,List.find?_map]
    rfl
  rw [Gate.selectLUT,entry]
  cases found : luts.entry pinStates with
  | none =>
    have selected : luts.select pinStates = luts.scan pinStates := by simp [PortLUTs.select,found]
    rw [selected,PortLUTs.scan]
    simp only [Option.bind_none,order]
    cases first : luts.indexedByOrder.find? fun numbered => numbered.1.matchPinStates pinStates with
    | none => rfl
    | some numbered =>
      obtain ⟨group, mem, pair⟩ := converted.group_of_entry (List.mem_of_find?_eq_some first)
      exact ⟨group, numbered.1, mem, pair, rfl⟩
  | some place =>
    have selected : luts.select pinStates = some place := by simp [PortLUTs.select,found]
    rw [selected]
    obtain ⟨group, mem⟩ := inside place selected
    obtain ⟨pair, listed, converts⟩ := converted.entry_of_group mem
    have here : luts.pairAt place = some pair := by
      rw [PortLUTs.pairAt]
      cases first : luts.indexedByOrder.find? fun numbered => numbered.2 = place with
      | none => exact absurd (List.find?_eq_none.mp first _ listed) (by simp)
      | some numbered =>
        have at' : numbered.2 = place := by simpa using List.find?_some first
        obtain ⟨other, otherMem, otherPair⟩ := converted.group_of_entry (List.mem_of_find?_eq_some first)
        rw [at'] at otherMem
        have same : other = group := congrArg Prod.fst (List.inj_on_of_nodup_map distinct otherMem mem rfl)
        rw [same,converts] at otherPair
        simp [Option.some.inj otherPair]
    refine ⟨group, pair, mem, converts, ?_⟩
    simp [here]

/-- The table over the states has the last match. -/
theorem entry_eq (built : convertGroups portNameToIdx maxNPin groups = some luts) (pinStates : Fin n → Int) :
    Converted portNameToIdx groups luts.indexedByOrder ∧
      luts.entry pinStates = if maxNPin < n then none else lastMatch portNameToIdx pinStates groups := by
  obtain ⟨order, appended, converted⟩ := converted_foldlM built
  rw [List.nil_append] at appended
  rw [← appended] at converted
  obtain ⟨built', run, present, entry, -⟩ := foldlM_addGroup (clampStates_known pinStates) groups converted.accepted
    ⟨if maxNPin < n then none else some fun _ => none, []⟩
  rw [convertGroups] at built
  rw [built,Option.some.injEq] at run
  subst run
  refine ⟨converted, ?_⟩
  by_cases large : maxNPin < n
  · simp only [if_pos large,Option.isSome_none,Option.isSome_eq_false_iff,Option.isNone_iff_eq_none] at present
    simp [PortLUTs.entry,present,large]
  · simp only [if_neg large,Option.isSome_some,true_implies,PortLUTs.entry,Option.bind_some,Option.or_none,
      getPinStatesIndex_clamp,lastMatch_clamp] at entry
    rw [if_neg large]
    exact entry

/-- The group whose table a lookup takes: the last one that matches where there is a table over the states, else the
first one whose table fits the states. -/
def lookedUp (portNameToIdx : κ → Option (Fin n)) (maxNPin : Nat) (pinStates : Fin n → Int)
    (groups : List (InternalPower κ α × Nat)) :
    Option (InternalPower κ α × Nat) :=
  (if maxNPin < n then none else groups.reverse.find? fun numbered => Matches portNameToIdx pinStates numbered.1).or
    (groups.find? fun numbered => (lutPairOf portNameToIdx numbered.1).any (·.matchPinStates pinStates))

theorem lookedUp_mem (found : lookedUp portNameToIdx maxNPin pinStates groups = some numbered) : numbered ∈ groups := by
  rcases Option.or_eq_some_iff.mp found with entered | ⟨-, scanned⟩
  · by_cases large : maxNPin < n
    · simp [large] at entered
    · rw [if_neg large] at entered
      exact List.mem_reverse.mp (List.mem_of_find?_eq_some entered)
  · exact List.mem_of_find?_eq_some scanned

theorem select_eq (built : convertGroups portNameToIdx maxNPin groups = some luts) (pinStates : Fin n → Int) :
    luts.select pinStates = (lookedUp portNameToIdx maxNPin pinStates groups).map Prod.snd := by
  obtain ⟨converted, entry⟩ := entry_eq built pinStates
  have scanned := converted.scan_eq pinStates
  rw [PortLUTs.select,entry,lookedUp]
  by_cases large : maxNPin < n
  · rw [if_pos large,if_pos large,Option.none_or]
    exact scanned
  · rw [if_neg large,if_neg large,lastMatch]
    cases groups.reverse.find? fun numbered => Matches portNameToIdx pinStates numbered.1 with
    | none => exact scanned
    | some numbered => rfl

/-- A lookup ends in the table of a group, or without one. -/
def EndsIn (portNameToIdx : κ → Option (Fin n)) (luts : PortLUTs α) (pinStates : Fin n → Int) :
    Option (InternalPower κ α × Nat) → Prop
  | none => Gate.selectLUT luts.pairsByState luts.pairs pinStates = none
  | some numbered => ∃ pair, lutPairOf portNameToIdx numbered.1 = some pair ∧
      Gate.selectLUT luts.pairsByState luts.pairs pinStates = some pair

theorem lookup_eq (built : convertGroups portNameToIdx maxNPin groups = some luts)
    (distinct : (groups.map Prod.snd).Nodup) (pinStates : Fin n → Int) :
    EndsIn portNameToIdx luts pinStates (lookedUp portNameToIdx maxNPin pinStates groups) := by
  have selected := select_eq built pinStates
  have inside : ∀ place, luts.select pinStates = some place → ∃ group, (group, place) ∈ groups := by
    intro place at'
    rw [selected] at at'
    obtain ⟨numbered, found, rfl⟩ := Option.map_eq_some_iff.mp at'
    exact ⟨numbered.1, lookedUp_mem found⟩
  have looked := selectLUT_eq (entry_eq built pinStates).1 distinct inside
  rw [selected] at looked
  cases found : lookedUp portNameToIdx maxNPin pinStates groups with
  | none =>
    rw [found] at looked
    exact looked
  | some numbered =>
    rw [found] at looked
    obtain ⟨group, pair, mem, converts, result⟩ := looked
    have same : (group, numbered.2) = numbered := List.inj_on_of_nodup_map distinct mem (lookedUp_mem found) rfl
    rw [← same]
    exact ⟨pair, converts, result⟩

end Converted
end GTPower
