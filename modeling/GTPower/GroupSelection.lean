import GTPower.WhenState

/-! Which internal power group a lookup takes: by the table over the pin states, by the groups in order, and in the loop
of the CPU. A group is named by its place in the list of its port. -/
namespace GTPower

/-- An internal power group of a port: the input it is related to, its condition and its tables. -/
structure InternalPower (κ α : Type) where
  relatedPort : Option κ
  when : Option (FuncExpr κ)
  riseTable : α
  fallTable : α

/-- The tables of one port on the device, of one related input for an output. -/
structure PortLUTs (α : Type) where
  indexedByState : Option (Nat → Option Nat)
  indexedByOrder : List (LUTPair α × Nat)

section Selection
variable {κ α : Type} (portNameToIdx : κ → Option (Fin n))

def lutPairOf (group : InternalPower κ α) : Option (LUTPair α) :=
  (getWhenPinStates portNameToIdx group.when).map fun (satisfiable, whenPinStates) =>
    { riseTable := group.riseTable
      fallTable := group.fallTable
      whenSatisfiable := satisfiable
      whenState := fun pin => if inside : pin < n then whenPinStates ⟨pin, inside⟩ else invalidVcdEventVal }

/-- A group overwrites the entries of its states. -/
def addGroup (luts : PortLUTs α) (numbered : InternalPower κ α × Nat) : Option (PortLUTs α) := do
  let pair ← lutPairOf portNameToIdx numbered.1
  let matchedStateIdxs ← getStateIdx portNameToIdx numbered.1.when
  return { indexedByState := luts.indexedByState.map fun table idx =>
             if idx ∈ matchedStateIdxs then some numbered.2 else table idx
           indexedByOrder := luts.indexedByOrder ++ [(pair, numbered.2)] }

/-- Without the table when the cell has more pins than the threshold. -/
def convertGroups (maxNPin : Nat) (groups : List (InternalPower κ α × Nat)) : Option (PortLUTs α) :=
  groups.foldlM (addGroup portNameToIdx) ⟨if maxNPin < n then none else some fun _ => none, []⟩

def getInputInternalPower (maxNPin : Nat) (internalPwrs : List (InternalPower κ α)) : Option (PortLUTs α) :=
  if internalPwrs = [] then some ⟨none, []⟩ else convertGroups portNameToIdx maxNPin internalPwrs.zipIdx

/-- Groups of an output for a related input: its own ones, else those without a related input. -/
def groupsOfRelatedPort [DecidableEq κ] (internalPwrs : List (InternalPower κ α)) (related : κ) :
    List (InternalPower κ α × Nat) :=
  let own := internalPwrs.zipIdx.filter fun numbered => numbered.1.relatedPort = some related
  if own = [] then internalPwrs.zipIdx.filter fun numbered => numbered.1.relatedPort = none else own

def getOutputInternalPower [DecidableEq κ] (maxNPin : Nat) (internalPwrs : List (InternalPower κ α)) (related : κ) :
    Option (PortLUTs α) :=
  let groups := groupsOfRelatedPort internalPwrs related
  if groups = [] then some ⟨none, []⟩ else convertGroups portNameToIdx maxNPin groups

namespace PortLUTs
variable (luts : PortLUTs α) (pinStates : Fin n → Int)

def entry : Option Nat := luts.indexedByState.bind fun table => table (getPinStatesIndex pinStates)

def scan : Option Nat := (luts.indexedByOrder.find? fun numbered => numbered.1.matchPinStates pinStates).map Prod.snd

def select : Option Nat :=
  match luts.entry pinStates with
  | some place => some place
  | none => luts.scan pinStates

end PortLUTs

/-- The loop of the CPU over the groups of a port. -/
def findInternalPower (applies : InternalPower κ α → Bool) (pinStates : Fin n → Int) :
    List (InternalPower κ α × Nat) → Option (Option Nat)
  | [] => some none
  | (group, place) :: rest =>
    if applies group then do
      if ← isInternalPowerMatchPinStates portNameToIdx pinStates group.when then return some place
      else findInternalPower applies pinStates rest
    else findInternalPower applies pinStates rest

def findInputGroup (pinStates : Fin n → Int) (internalPwrs : List (InternalPower κ α)) : Option (Option Nat) :=
  findInternalPower portNameToIdx (fun _ => true) pinStates internalPwrs.zipIdx

def findOutputGroup [DecidableEq κ] (pinStates : Fin n → Int) (internalPwrs : List (InternalPower κ α)) (related : κ) :
    Option (Option Nat) :=
  findInternalPower portNameToIdx (fun group => group.relatedPort = some related) pinStates internalPwrs.zipIdx

def Matches (pinStates : Fin n → Int) (group : InternalPower κ α) : Prop :=
  isInternalPowerMatchPinStates portNameToIdx pinStates group.when = some true

instance (pinStates : Fin n → Int) (group : InternalPower κ α) : Decidable (Matches portNameToIdx pinStates group) :=
  inferInstanceAs (Decidable (_ = _))

/-- The kernels, with any pin threshold, and the loop of the CPU take one and the same group. -/
def SelectionsAgree (luts : Nat → Option (PortLUTs α)) (pinStates : Fin n → Int) (host : Option (Option Nat)) : Prop :=
  ∀ maxNPin, ∃ built place, luts maxNPin = some built ∧ host = some place ∧
    built.select pinStates = place ∧ built.scan pinStates = place

/-- At most one of the groups that apply matches. -/
def UniqueMatch (internalPwrs : List (InternalPower κ α)) (applies : InternalPower κ α → Prop)
    (pinStates : Fin n → Int) : Prop :=
  ∀ (i j : Nat) (first second : InternalPower κ α), internalPwrs[i]? = some first → internalPwrs[j]? = some second →
    applies first → applies second →
    Matches portNameToIdx pinStates first → Matches portNameToIdx pinStates second → i = j

end Selection

section Agree
variable {κ α : Type} {portNameToIdx : κ → Option (Fin n)} {pinStates : Fin n → Int}

/-- Place of the first match in a list of groups. -/
def firstMatch (portNameToIdx : κ → Option (Fin n)) (pinStates : Fin n → Int)
    (groups : List (InternalPower κ α × Nat)) : Option Nat :=
  (groups.find? fun numbered => Matches portNameToIdx pinStates numbered.1).map Prod.snd

/-- Place of the last match in a list of groups. -/
def lastMatch (portNameToIdx : κ → Option (Fin n)) (pinStates : Fin n → Int) (groups : List (InternalPower κ α × Nat)) :
    Option Nat :=
  (groups.reverse.find? fun numbered => Matches portNameToIdx pinStates numbered.1).map Prod.snd

/-- For pins at 0, 1 or unknown the device compares as the condition is evaluated. -/
theorem matchPinStates_iff {group : InternalPower κ α} (accepted : (getWhenPinStates portNameToIdx group.when).isSome)
    (known : ∀ pin, pinStates pin = 0 ∨ pinStates pin = 1 ∨ pinStates pin = 2) :
    ∃ pair idxs, lutPairOf portNameToIdx group = some pair ∧ getStateIdx portNameToIdx group.when = some idxs ∧
      (pair.matchPinStates pinStates = true ↔ Matches portNameToIdx pinStates group) ∧
      (getPinStatesIndex pinStates ∈ idxs ↔ Matches portNameToIdx pinStates group) := by
  obtain ⟨⟨satisfiable, whenPinStates⟩, collected⟩ := Option.isSome_iff_exists.mp accepted
  obtain ⟨matched, evaluated, same⟩ := isInternalPowerMatchPinStates_iff collected pinStates
  have matches_iff : Matches portNameToIdx pinStates group ↔ satisfiable = true ∧ Meets whenPinStates pinStates := by
    rw [Matches,evaluated,Option.some.injEq]
    exact same
  have pins : ∀ pin, (if pinStates pin = 2 ∨ pinStates pin = 0 then (0 : Int) else 1) = if pinStates pin = 1 then 1
    else 0 := by
    intro pin
    rcases known pin with value | value | value <;> rw [value] <;> decide
  refine ⟨_, _, by rw [lutPairOf,collected]; rfl, by rw [getStateIdx,collected]; rfl, ?_, ?_⟩
  · rw [matches_iff]
    simp only [LUTPair.matchPinStates,Bool.and_eq_true,List.all_eq_true,List.mem_finRange,forall_const,
      Bool.not_eq_true',
      Bool.and_eq_false_iff,bne_eq_false_iff_eq,pins,Fin.is_lt,dite_true,Fin.eta]
    refine and_congr_right' ⟨fun all pin bound => (all pin).resolve_left bound, fun meets pin => ?_⟩
    exact or_iff_not_imp_left.mpr (meets pin)
  · rw [matches_iff]
    cases satisfiable with
    | false => simp
    | true =>
      simp only [if_true,true_and]
      exact mem_matchedStateIdxs (requirements_getWhenPinStates collected) pinStates

theorem firstMatch_cons (numbered : InternalPower κ α × Nat) (rest : List (InternalPower κ α × Nat)) :
    firstMatch portNameToIdx pinStates (numbered :: rest) =
      if Matches portNameToIdx pinStates numbered.1 then some numbered.2
        else firstMatch portNameToIdx pinStates rest := by
  rw [firstMatch,List.find?_cons]
  by_cases here : Matches portNameToIdx pinStates numbered.1
  · simp [here]
  · simp [here,firstMatch]

theorem lastMatch_cons (numbered : InternalPower κ α × Nat) (rest : List (InternalPower κ α × Nat)) :
    lastMatch portNameToIdx pinStates (numbered :: rest) =
      (lastMatch portNameToIdx pinStates rest).or (if Matches portNameToIdx pinStates numbered.1 then some numbered.2
        else none) := by
  rw [lastMatch,List.reverse_cons,List.find?_append,Option.map_or]
  congr 1
  by_cases here : Matches portNameToIdx pinStates numbered.1 <;> simp [here]

/-- Building the tables of a list of groups: the last match is in the entry of the pin states, the first one is found
in order. -/
theorem foldlM_addGroup (known : ∀ pin, pinStates pin = 0 ∨ pinStates pin = 1 ∨ pinStates pin = 2)
    (groups : List (InternalPower κ α × Nat))
    (accepted : ∀ numbered ∈ groups, (getWhenPinStates portNameToIdx numbered.1.when).isSome) (luts : PortLUTs α) :
    ∃ built, groups.foldlM (addGroup portNameToIdx) luts = some built ∧
      built.indexedByState.isSome = luts.indexedByState.isSome ∧
      (luts.indexedByState.isSome →
        built.entry pinStates = (lastMatch portNameToIdx pinStates groups).or (luts.entry pinStates)) ∧
      built.scan pinStates = (luts.scan pinStates).or (firstMatch portNameToIdx pinStates groups) := by
  induction groups generalizing luts with
  | nil => exact ⟨luts, rfl, rfl, fun _ => rfl, by simp [firstMatch]⟩
  | cons numbered rest ih =>
    obtain ⟨pair, idxs, converted, enumerated, scanned, listed⟩ :=
      matchPinStates_iff (accepted numbered (List.mem_cons_self ..)) known
    have added : addGroup portNameToIdx luts numbered = some
        { indexedByState := luts.indexedByState.map fun table idx => if idx ∈ idxs then some numbered.2 else table idx
          indexedByOrder := luts.indexedByOrder ++ [(pair, numbered.2)] } := by
      rw [addGroup,converted,enumerated]
      rfl
    obtain ⟨built, run, present, states, order⟩ := ih (fun other mem => accepted other (List.mem_cons_of_mem _ mem))
      { indexedByState := luts.indexedByState.map fun table idx => if idx ∈ idxs then some numbered.2 else table idx
        indexedByOrder := luts.indexedByOrder ++ [(pair, numbered.2)] }
    refine ⟨built, by rw [List.foldlM_cons,added]; exact run, by rw [present,Option.isSome_map], fun table => ?_, ?_⟩
    · rw [states (by rw [Option.isSome_map]; exact table),lastMatch_cons,Option.or_assoc]
      congr 1
      obtain ⟨table, found⟩ := Option.isSome_iff_exists.mp table
      simp only [PortLUTs.entry,found,Option.map_some,Option.bind_some,listed]
      split <;> rfl
    · rw [order,firstMatch_cons]
      simp only [PortLUTs.scan,List.find?_append,Option.map_or,Option.or_assoc]
      congr 1
      by_cases here : Matches portNameToIdx pinStates numbered.1
      · simp [scanned.mpr here,here]
      · have misses : pair.matchPinStates pinStates = false := Bool.eq_false_iff.mpr (mt scanned.mp here)
        simp [misses,here]

theorem convertGroups_spec (known : ∀ pin, pinStates pin = 0 ∨ pinStates pin = 1 ∨ pinStates pin = 2)
    {groups : List (InternalPower κ α × Nat)}
    (accepted : ∀ numbered ∈ groups, (getWhenPinStates portNameToIdx numbered.1.when).isSome) (maxNPin : Nat) :
    ∃ built, convertGroups portNameToIdx maxNPin groups = some built ∧
      built.scan pinStates = firstMatch portNameToIdx pinStates groups ∧
      built.select pinStates = if maxNPin < n then firstMatch portNameToIdx pinStates groups
        else lastMatch portNameToIdx pinStates groups := by
  obtain ⟨built, run, present, states, order⟩ := foldlM_addGroup known groups accepted
    ⟨if maxNPin < n then none else some fun _ => none, []⟩
  have scanned : built.scan pinStates = firstMatch portNameToIdx pinStates groups := by rw [order]; rfl
  refine ⟨built, run, scanned, ?_⟩
  by_cases large : maxNPin < n
  · rw [if_pos large] at present ⊢
    have empty : built.entry pinStates = none := by
      rw [PortLUTs.entry,show built.indexedByState = none from Option.isSome_eq_false_iff.mp present |>
        Option.isNone_iff_eq_none.mp]
      rfl
    rw [PortLUTs.select,empty]
    exact scanned
  · rw [if_neg large] at present states ⊢
    have entry := states rfl
    simp only [PortLUTs.entry,Option.bind_some,Option.or_none] at entry
    rw [PortLUTs.select,PortLUTs.entry,entry,scanned]
    cases last : lastMatch portNameToIdx pinStates groups with
    | some place => rfl
    | none =>
      rw [lastMatch,Option.map_eq_none_iff,List.find?_eq_none] at last
      rw [firstMatch,Option.map_eq_none_iff,List.find?_eq_none]
      exact fun numbered mem => last numbered (List.mem_reverse.mpr mem)

theorem findInternalPower_eq (applies : InternalPower κ α → Bool) (groups : List (InternalPower κ α × Nat))
    (accepted : ∀ numbered ∈ groups, (getWhenPinStates portNameToIdx numbered.1.when).isSome) :
    findInternalPower portNameToIdx applies pinStates groups =
      some (firstMatch portNameToIdx pinStates (groups.filter fun numbered => applies numbered.1)) := by
  induction groups with
  | nil => rfl
  | cons numbered rest ih =>
    obtain ⟨group, place⟩ := numbered
    have later := ih fun other mem => accepted other (List.mem_cons_of_mem _ mem)
    rw [findInternalPower]
    by_cases used : applies group
    · obtain ⟨⟨satisfiable, whenPinStates⟩, collected⟩ :=
        Option.isSome_iff_exists.mp (accepted _ (List.mem_cons_self ..))
      obtain ⟨matched, evaluated, -⟩ := isInternalPowerMatchPinStates_iff collected pinStates
      rw [if_pos used,List.filter_cons_of_pos (by exact used),firstMatch_cons,evaluated]
      cases matched with
      | true =>
        rw [if_pos (show Matches portNameToIdx pinStates group from evaluated)]
        rfl
      | false =>
        have misses : ¬ Matches portNameToIdx pinStates group := by
          rw [Matches,evaluated]
          decide
        rw [if_neg misses]
        exact later
    · rw [if_neg used,List.filter_cons_of_neg (by exact used)]
      exact later

/-- In a list of distinct places the first match is the last one when there is no other. -/
theorem firstMatch_eq_lastMatch_iff {groups : List (InternalPower κ α × Nat)} (distinct : (groups.map Prod.snd).Nodup) :
    firstMatch portNameToIdx pinStates groups = lastMatch portNameToIdx pinStates groups ↔
      ∀ first ∈ groups, ∀ second ∈ groups, Matches portNameToIdx pinStates first.1 →
        Matches portNameToIdx pinStates second.1 → first.2 = second.2 := by
  have first : firstMatch portNameToIdx pinStates groups =
      ((groups.filter fun numbered => Matches portNameToIdx pinStates numbered.1).map Prod.snd).head? := by
    rw [firstMatch,List.head?_map,List.head?_filter]
  have last : lastMatch portNameToIdx pinStates groups =
      ((groups.filter fun numbered => Matches portNameToIdx pinStates numbered.1).map Prod.snd).getLast? := by
    rw [lastMatch,List.getLast?_map,List.getLast?_filter]
  have places : ((groups.filter fun numbered => Matches portNameToIdx pinStates numbered.1).map Prod.snd).Nodup :=
    distinct.sublist (List.filter_sublist.map _)
  have all : (∀ first ∈ groups, ∀ second ∈ groups, Matches portNameToIdx pinStates first.1 →
      Matches portNameToIdx pinStates second.1 → first.2 = second.2) ↔
      ∀ a ∈ (groups.filter fun numbered => Matches portNameToIdx pinStates numbered.1).map Prod.snd,
        ∀ b ∈ (groups.filter fun numbered => Matches portNameToIdx pinStates numbered.1).map Prod.snd, a = b := by
    simp only [List.mem_map,List.mem_filter,decide_eq_true_eq]
    constructor
    · rintro same _ ⟨a, ⟨mema, holda⟩, rfl⟩ _ ⟨b, ⟨memb, holdb⟩, rfl⟩
      exact same a mema b memb holda holdb
    · intro same a mema b memb holda holdb
      exact same _ ⟨a, ⟨mema, holda⟩, rfl⟩ _ ⟨b, ⟨memb, holdb⟩, rfl⟩
  rw [first,last,all]
  generalize (groups.filter fun numbered => Matches portNameToIdx pinStates numbered.1).map Prod.snd = found at places
  cases found with
  | nil => simp
  | cons head rest =>
    rcases List.eq_nil_or_concat rest with rfl | ⟨front, final, rfl⟩
    · simp
    · constructor
      · intro ends
        rw [List.head?_cons,List.concat_eq_append,← List.cons_append,List.getLast?_append] at ends
        simp only [List.getLast?_singleton,Option.some_or,Option.some.injEq] at ends
        subst ends
        exact absurd (List.nodup_cons.mp places).1 (by simp)
      · intro same
        have ends := same head (List.mem_cons_self ..) final (by simp)
        rw [List.head?_cons,List.concat_eq_append,← List.cons_append,List.getLast?_append]
        simp [ends]

theorem convertGroups_agree (known : ∀ pin, pinStates pin = 0 ∨ pinStates pin = 1 ∨ pinStates pin = 2)
    {groups : List (InternalPower κ α × Nat)} (distinct : (groups.map Prod.snd).Nodup)
    (accepted : ∀ numbered ∈ groups, (getWhenPinStates portNameToIdx numbered.1.when).isSome) (host : Option Nat) :
    SelectionsAgree (fun maxNPin => if groups = [] then some ⟨none, []⟩ else convertGroups portNameToIdx maxNPin groups)
        pinStates (some host) ↔
      host = firstMatch portNameToIdx pinStates groups ∧
      ∀ first ∈ groups, ∀ second ∈ groups, Matches portNameToIdx pinStates first.1 →
        Matches portNameToIdx pinStates second.1 → first.2 = second.2 := by
  rw [← firstMatch_eq_lastMatch_iff distinct]
  by_cases empty : groups = []
  · subst empty
    simp only [SelectionsAgree,if_true]
    constructor
    · intro agree
      obtain ⟨built, place, empty, same, selected, -⟩ := agree 0
      obtain rfl := Option.some.inj empty
      exact ⟨(Option.some.inj same).trans selected.symm, rfl⟩
    · rintro ⟨rfl, -⟩ maxNPin
      exact ⟨_, _, rfl, rfl, rfl, rfl⟩
  · simp only [SelectionsAgree,if_neg empty]
    constructor
    · intro agree
      obtain ⟨built, place, run, same, selected, scanned⟩ := agree n
      obtain ⟨_, run', scanned', selected'⟩ := convertGroups_spec known accepted n
      rw [run,Option.some.injEq] at run'
      subst run'
      rw [if_neg (Nat.lt_irrefl n)] at selected'
      have host : host = place := Option.some.inj same
      rw [host,← scanned,scanned']
      exact ⟨rfl, by rw [← selected',selected,← scanned',scanned]⟩
    · rintro ⟨rfl, ends⟩ maxNPin
      obtain ⟨built, run, scanned, selected⟩ := convertGroups_spec known accepted maxNPin
      refine ⟨built, _, run, rfl, ?_, scanned⟩
      rw [selected,ends,ite_self]

theorem mem_zipIdx_getElem? {internalPwrs : List (InternalPower κ α)} {numbered : InternalPower κ α × Nat} :
    numbered ∈ internalPwrs.zipIdx ↔ internalPwrs[numbered.2]? = some numbered.1 := by
  rw [List.mem_zipIdx_iff_getElem?]

theorem zipIdx_distinct (internalPwrs : List (InternalPower κ α)) : (internalPwrs.zipIdx.map Prod.snd).Nodup := by
  rw [List.zipIdx_map_snd]
  exact List.nodup_range'

theorem uniqueMatch_iff (internalPwrs : List (InternalPower κ α)) (applies : InternalPower κ α → Prop)
    [DecidablePred applies] :
    (∀ first ∈ internalPwrs.zipIdx.filter (fun numbered => applies numbered.1),
    ∀ second ∈ internalPwrs.zipIdx.filter (fun numbered => applies numbered.1),
      Matches portNameToIdx pinStates first.1 → Matches portNameToIdx pinStates second.1 → first.2 = second.2) ↔
    UniqueMatch portNameToIdx internalPwrs applies pinStates := by
  simp only [List.mem_filter,mem_zipIdx_getElem?,decide_eq_true_eq,UniqueMatch]
  constructor
  · intro same i j first second at1 at2 used1 used2 match1 match2
    exact same (first, i) ⟨at1, used1⟩ (second, j) ⟨at2, used2⟩ match1 match2
  · rintro unique ⟨first, i⟩ ⟨at1, used1⟩ ⟨second, j⟩ ⟨at2, used2⟩ match1 match2
    exact unique i j first second at1 at2 used1 used2 match1 match2

/-- The table, the scan in order and the loop of the CPU take the same group of an input exactly when at most one group
matches, and of an output and a related input exactly when at most one of its own groups does; where it has none, the
groups without a related input must not match either. -/
theorem groupSelection_agree_iff [DecidableEq κ] (internalPwrs : List (InternalPower κ α))
    (accepted : ∀ group ∈ internalPwrs, (getWhenPinStates portNameToIdx group.when).isSome)
    (known : ∀ pin, pinStates pin = 0 ∨ pinStates pin = 1 ∨ pinStates pin = 2) :
    (SelectionsAgree (fun maxNPin => getInputInternalPower portNameToIdx maxNPin internalPwrs) pinStates
        (findInputGroup portNameToIdx pinStates internalPwrs) ↔
      UniqueMatch portNameToIdx internalPwrs (fun _ => True) pinStates) ∧
    ∀ related, SelectionsAgree (fun maxNPin => getOutputInternalPower portNameToIdx maxNPin internalPwrs related)
    pinStates
        (findOutputGroup portNameToIdx pinStates internalPwrs related) ↔
      if ∃ group ∈ internalPwrs, group.relatedPort = some related then
        UniqueMatch portNameToIdx internalPwrs (fun group => group.relatedPort = some related) pinStates
      else ∀ group ∈ internalPwrs, group.relatedPort = none → ¬ Matches portNameToIdx pinStates group := by
  have members : ∀ numbered ∈ internalPwrs.zipIdx, (getWhenPinStates portNameToIdx numbered.1.when).isSome :=
    fun numbered mem => accepted _ (List.mem_of_getElem? (mem_zipIdx_getElem?.mp mem))
  constructor
  · have same : (fun maxNPin => getInputInternalPower portNameToIdx maxNPin internalPwrs) = fun maxNPin =>
        if internalPwrs.zipIdx = [] then some ⟨none, []⟩
          else convertGroups portNameToIdx maxNPin internalPwrs.zipIdx := by
      funext maxNPin
      rw [getInputInternalPower]
      exact if_congr (by rw [List.zipIdx_eq_nil_iff]) rfl rfl
    have unique := @uniqueMatch_iff _ _ _ portNameToIdx pinStates internalPwrs (fun _ => True) _
    rw [List.filter_eq_self.mpr fun _ _ => decide_eq_true trivial] at unique
    rw [same,findInputGroup,findInternalPower_eq _ _ members,List.filter_eq_self.mpr fun _ _ => rfl,
      convertGroups_agree known (zipIdx_distinct internalPwrs) members,← unique]
    exact and_iff_right rfl
  · intro related
    have part : ∀ numbered ∈ groupsOfRelatedPort internalPwrs related, numbered ∈ internalPwrs.zipIdx := by
      intro numbered mem
      rw [groupsOfRelatedPort] at mem
      split at mem <;> exact (List.mem_filter.mp mem).1
    have distinct : ((groupsOfRelatedPort internalPwrs related).map Prod.snd).Nodup := by
      rw [groupsOfRelatedPort]
      split <;> exact (zipIdx_distinct internalPwrs).sublist (List.filter_sublist.map _)
    have owns : (internalPwrs.zipIdx.filter fun numbered => numbered.1.relatedPort = some related) = [] ↔
        ¬ ∃ group ∈ internalPwrs, group.relatedPort = some related := by
      rw [List.filter_eq_nil_iff]
      constructor
      · rintro none ⟨group, mem, own⟩
        obtain ⟨place, at'⟩ := List.mem_iff_getElem?.mp mem
        exact none (group, place) (mem_zipIdx_getElem?.mpr at') (decide_eq_true own)
      · intro none numbered mem own
        exact none ⟨numbered.1, List.mem_of_getElem? (mem_zipIdx_getElem?.mp mem), of_decide_eq_true own⟩
    rw [findOutputGroup,findInternalPower_eq _ _ members]
    refine (convertGroups_agree known distinct (fun numbered mem => members numbered (part numbered mem)) _).trans ?_
    by_cases own : ∃ group ∈ internalPwrs, group.relatedPort = some related
    · rw [if_pos own,groupsOfRelatedPort,if_neg (mt owns.mp (not_not.mpr own)),
        ← uniqueMatch_iff internalPwrs fun group => group.relatedPort = some related]
      exact and_iff_right rfl
    · rw [if_neg own,groupsOfRelatedPort,if_pos (owns.mpr own),owns.mpr own,firstMatch,List.find?_nil,Option.map_none]
      constructor
      · rintro ⟨nothing, -⟩ group mem free hit
        obtain ⟨place, at'⟩ := List.mem_iff_getElem?.mp mem
        rw [firstMatch,eq_comm,Option.map_eq_none_iff,List.find?_eq_none] at nothing
        exact nothing (group, place) (List.mem_filter.mpr ⟨mem_zipIdx_getElem?.mpr at', decide_eq_true free⟩)
          (decide_eq_true hit)
      · intro nothing
        have misses : ∀ numbered ∈ internalPwrs.zipIdx.filter (fun numbered => numbered.1.relatedPort = none),
            ¬ Matches portNameToIdx pinStates numbered.1 := fun numbered mem =>
          nothing _ (List.mem_of_getElem? (mem_zipIdx_getElem?.mp (List.mem_filter.mp mem).1))
            (of_decide_eq_true (List.mem_filter.mp mem).2)
        refine ⟨?_, fun first mem second _ hit => absurd hit (misses first mem)⟩
        rw [firstMatch,eq_comm,Option.map_eq_none_iff,List.find?_eq_none]
        exact fun numbered mem => by simpa using misses numbered mem

/-- Two groups of one input pin, for its two values. -/
def exclusiveGroups : List (InternalPower (Fin 1) Unit) :=
  [⟨none, some (.port 0), (), ()⟩, ⟨none, some (.not (.port 0)), (), ()⟩]

theorem groupSelection_agree_exclusive :
    SelectionsAgree (fun maxNPin => getInputInternalPower some maxNPin exclusiveGroups) (fun _ : Fin 1 => 2)
      (findInputGroup some (fun _ => 2) exclusiveGroups) := by
  refine (groupSelection_agree_iff exclusiveGroups (by decide) (fun _ => by decide)).1.mpr ?_
  intro i j first second at1 at2 _ _ match1 match2
  match i, j with
  | 0, _ => exact absurd match1 (by cases at1; decide)
  | _, 0 => exact absurd match2 (by cases at2; decide)
  | 1, 1 => rfl
  | i + 2, _ => cases at1
  | _, j + 2 => cases at2

/-- A group without a condition and one for the pin at 1: the table has the second one, the scans find the first. -/
theorem groupSelection_disagrees : ∃ internalPwrs : List (InternalPower (Fin 1) Unit),
    (∀ group ∈ internalPwrs, (getWhenPinStates (some : Fin 1 → Option (Fin 1)) group.when).isSome) ∧
    (getInputInternalPower some 1 internalPwrs).map (·.select fun _ : Fin 1 => 1) = some (some 1) ∧
    (getInputInternalPower some 0 internalPwrs).map (·.select fun _ : Fin 1 => 1) = some (some 0) ∧
    findInputGroup some (fun _ : Fin 1 => 1) internalPwrs = some (some 0) ∧
    ¬ SelectionsAgree (fun maxNPin => getInputInternalPower some maxNPin internalPwrs) (fun _ : Fin 1 => 1)
      (findInputGroup some (fun _ => 1) internalPwrs) := by
  have table : (getInputInternalPower (some : Fin 1 →
    Option (Fin 1)) 1 [(⟨none, none, (), ()⟩ : InternalPower (Fin 1) Unit), ⟨none, some (.port 0), (), ()⟩]).map
      (·.select fun _ : Fin 1 => 1) = some (some 1) := by decide +kernel
  have loop : findInputGroup (some : Fin 1 → Option (Fin 1)) (fun _ : Fin 1 => 1)
      [(⟨none, none, (), ()⟩ : InternalPower (Fin 1) Unit), ⟨none, some (.port 0), (), ()⟩] =
      some (some 0) := by decide +kernel
  refine ⟨[⟨none, none, (), ()⟩, ⟨none, some (.port 0), (), ()⟩], by decide, table, by decide +kernel, loop, ?_⟩
  intro agree
  obtain ⟨built, place, run, host, selected, -⟩ := agree 1
  dsimp only at run
  rw [run,Option.map_some,Option.some.injEq,selected] at table
  rw [loop,table] at host
  exact absurd host (by decide)

end Agree
end GTPower
