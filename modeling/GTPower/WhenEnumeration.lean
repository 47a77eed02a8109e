import GTPower.GroupSelection

/-! The states a condition holds in, as they are enumerated, against the index of the states of the pins, as it is
computed with the integers of the machine. -/
namespace GTPower

namespace Machine

/-- `1 << bit` of type `int`; a shift by the width of the type or more is undefined. -/
def shiftInt (bit : Nat) : Option Int :=
  if bit < 31 then some (2 ^ bit) else if bit = 31 then some (-(2 ^ 31)) else none

/-- `NStateVal{1} << bit` -/
def shiftNStateVal (bit : Nat) : Option Nat := if bit < 64 then some (1 <<< bit) else none

/-- The sum is of type `NStateVal`. -/
def getPinStatesIndex (pinStates : Fin n → Int) : Option Nat :=
  (List.finRange n).foldlM (fun (res : Nat) pin => (shiftInt pin.val).map fun shifted =>
    ((res + (if pinStates pin = 1 then 1 else 0) * shifted) % 2 ^ 64).toNat) 0

def matchedStateIdxs (whenPinStates : Fin n → Int) : Option (List Nat) := do
  let matchedStateIdx ← (List.finRange n).foldlM (fun idx pin =>
    if whenPinStates pin = 1 then (shiftNStateVal pin.val).map fun bit => idx ||| bit else some idx) 0
  (List.finRange n).foldlM (fun idxs pin =>
    if whenPinStates pin = invalidVcdEventVal then (shiftNStateVal pin.val).map fun bit =>
      idxs ++ idxs.map fun idx => idx ||| bit
    else some idxs) [matchedStateIdx]

def getStateIdx (portNameToIdx : κ → Option (Fin n)) (when : Option (FuncExpr κ)) : Option (List Nat) :=
  (getWhenPinStates portNameToIdx when).bind fun (satisfiable, whenPinStates) =>
    if satisfiable then matchedStateIdxs whenPinStates else some []

end Machine

def bitStates (stateIdx : Nat) (pin : Fin n) : Int := if stateIdx.testBit pin.val then 1 else 0

section Bits

theorem getPinStatesIndex_lt (pinStates : Fin n → Int) : getPinStatesIndex pinStates < 2 ^ n := by
  apply Nat.lt_pow_two_of_testBit
  intro i high
  apply Bool.eq_false_iff.mpr
  intro set
  obtain ⟨pin, rfl, -⟩ := (testBit_getPinStatesIndex pinStates i).mp set
  exact absurd pin.isLt (Nat.not_lt.mpr high)

theorem getPinStatesIndex_bitStates (inside : stateIdx < 2 ^ n) : getPinStatesIndex (bitStates stateIdx : Fin n → Int) =
    stateIdx := by
  apply Nat.eq_of_testBit_eq
  intro i
  rw [Bool.eq_iff_iff,testBit_getPinStatesIndex]
  constructor
  · rintro ⟨pin, rfl, one⟩
    by_contra unset
    rw [bitStates,if_neg unset] at one
    cases one
  · intro set
    have low : i < n := by
      by_contra high
      rw [Nat.testBit_lt_two_pow (lt_of_lt_of_le inside (Nat.pow_le_pow_right Nat.two_pos (Nat.not_lt.mp high)))] at set
      cases set
    exact ⟨⟨i, low⟩, rfl, if_pos set⟩

theorem mem_matchedStateIdxs_iff {whenPinStates : Fin n → Int} (requirements : Requirements whenPinStates)
    (stateIdx : Nat) :
    stateIdx ∈ matchedStateIdxs whenPinStates ↔ stateIdx < 2 ^ n ∧ Meets whenPinStates (bitStates stateIdx) := by
  have bounded : stateIdx ∈ matchedStateIdxs whenPinStates → stateIdx < 2 ^ n := by
    rw [matchedStateIdxs,mem_foldl_free]
    simp only [List.mem_singleton,exists_eq_left,Extends,testBit_foldl_fixed,Nat.zero_testBit,
      Bool.false_eq_true,false_or]
    intro bits
    apply Nat.lt_pow_two_of_testBit
    intro i high
    apply Bool.eq_false_iff.mpr
    intro set
    rcases (bits i).2 set with ⟨pin, -, rfl, -⟩ | ⟨pin, -, rfl, -⟩ <;> exact absurd pin.isLt (Nat.not_lt.mpr high)
  constructor
  · intro mem
    have inside := bounded mem
    rw [← getPinStatesIndex_bitStates inside] at mem
    exact ⟨inside, (mem_matchedStateIdxs requirements _).mp mem⟩
  · rintro ⟨inside, meets⟩
    rw [← getPinStatesIndex_bitStates inside]
    exact (mem_matchedStateIdxs requirements _).mpr meets

theorem nodup_foldl_free (whenPinStates : Fin n → Int) {pins : List (Fin n)} (distinct : pins.Nodup) {idxs : List Nat}
    (nodup : idxs.Nodup)
    (unset : ∀ idx ∈ idxs, ∀ pin ∈ pins, whenPinStates pin = invalidVcdEventVal → idx.testBit pin.val = false) :
    (pins.foldl (fun idxs pin => if whenPinStates pin = invalidVcdEventVal then
      idxs ++ idxs.map fun idx => idx ||| 1 <<< pin.val else idxs) idxs).Nodup := by
  induction pins generalizing idxs with
  | nil => exact nodup
  | cons pin rest ih =>
    obtain ⟨new, distinct⟩ := List.nodup_cons.mp distinct
    rw [List.foldl_cons]
    by_cases free : whenPinStates pin = invalidVcdEventVal
    · rw [if_pos free]
      have low : ∀ idx ∈ idxs, idx.testBit pin.val = false :=
        fun idx mem => unset idx mem pin (List.mem_cons_self ..) free
      have high : ∀ idx, (idx ||| 1 <<< pin.val).testBit pin.val = true :=
        fun idx => (testBit_or_shift ..).mpr (Or.inr rfl)
      refine ih distinct (List.nodup_append.mpr ⟨nodup, ?_, ?_⟩) ?_
      · refine List.Nodup.map_on (fun idx mem other mem' same => Nat.eq_of_testBit_eq fun i => ?_) nodup
        have bits := congrArg (fun number : Nat => number.testBit i) same
        by_cases here : pin.val = i
        · rw [← here,low idx mem,low other mem']
        · have apart : ∀ number : Nat, (number ||| 1 <<< pin.val).testBit i = number.testBit i := fun number =>
            Bool.eq_iff_iff.mpr ((testBit_or_shift ..).trans (or_iff_left here))
          simpa only [apart] using bits
      · rintro idx mem other mem' rfl
        obtain ⟨base, -, rfl⟩ := List.mem_map.mp mem'
        have none := low _ mem
        rw [high] at none
        cases none
      · intro idx mem other mem' free'
        have unset' : ∀ number ∈ idxs, number.testBit other.val = false := fun number there =>
          unset number there other (List.mem_cons_of_mem _ mem') free'
        rcases List.mem_append.mp mem with old | doubled
        · exact unset' idx old
        · obtain ⟨base, there, rfl⟩ := List.mem_map.mp doubled
          apply Bool.eq_false_iff.mpr
          intro set
          rcases (testBit_or_shift ..).mp set with old | same
          · exact absurd old (by simp [unset' base there])
          · exact new (Fin.ext same ▸ mem')
    · rw [if_neg free]
      exact ih distinct nodup fun idx mem other mem' => unset idx mem other (List.mem_cons_of_mem _ mem')

theorem nodup_matchedStateIdxs (whenPinStates : Fin n → Int) : (matchedStateIdxs whenPinStates).Nodup := by
  rw [matchedStateIdxs]
  refine nodup_foldl_free whenPinStates (List.nodup_finRange n) (List.nodup_singleton _) fun idx mem pin _ free => ?_
  rw [List.mem_singleton] at mem
  rw [mem]
  apply Bool.eq_false_iff.mpr
  intro set
  obtain none | ⟨other, -, same, one⟩ := (testBit_foldl_fixed ..).mp set
  · simp at none
  · rw [Fin.ext same,free] at one
    exact absurd one (by decide)

end Bits

namespace Machine

theorem foldlM_total {σ α : Type} {f : σ → α → Option σ} {g : σ → α → σ} {l : List α}
    (same : ∀ a ∈ l, ∀ s, f s a = some (g s a)) (s : σ) :
    l.foldlM f s = some (l.foldl g s) := by
  induction l generalizing s with
  | nil => rfl
  | cons a rest ih =>
    rw [List.foldlM_cons,same a (List.mem_cons_self ..),List.foldl_cons]
    exact ih (fun b mem => same b (List.mem_cons_of_mem _ mem)) (g s a)

theorem foldlM_stuck {σ α : Type} {f : σ → α → Option σ} {l : List α} {a : α} (mem : a ∈ l) (stuck : ∀ s, f s a = none)
    (s : σ) :
    l.foldlM f s = none := by
  induction l generalizing s with
  | nil => cases mem
  | cons b rest ih =>
    rw [List.foldlM_cons]
    rcases List.mem_cons.mp mem with rfl | later
    · rw [stuck]
      rfl
    · cases f s b with
      | none => rfl
      | some next => exact ih later next

/-- The shifts of the enumeration are defined up to 64 pins. -/
theorem matchedStateIdxs_eq (few : n ≤ 64) (whenPinStates : Fin n → Int) :
    matchedStateIdxs whenPinStates = some (GTPower.matchedStateIdxs whenPinStates) := by
  have shift : ∀ pin : Fin n, shiftNStateVal pin.val = some (1 <<< pin.val) :=
    fun pin => if_pos (lt_of_lt_of_le pin.isLt few)
  rw [matchedStateIdxs,foldlM_total (fun pin _ idx => ?_),Option.bind_eq_bind,Option.bind_some,
    foldlM_total (fun pin _ idxs => ?_)]
  · rfl
  · rw [shift]
    by_cases free : whenPinStates pin = invalidVcdEventVal
    · rw [if_pos free,Option.map_some]
      exact (if_pos free).symm ▸ rfl
    · rw [if_neg free]
      exact (if_neg free).symm ▸ rfl
  · rw [shift]
    by_cases one : whenPinStates pin = 1
    · rw [if_pos one,Option.map_some]
      exact (if_pos one).symm ▸ rfl
    · rw [if_neg one]
      exact (if_neg one).symm ▸ rfl

theorem foldlM_index (pinStates : Fin n → Int) {pins : List (Fin n)} (low : ∀ pin ∈ pins, pin.val < 31) (res : Nat)
    (fits : res + (pins.map fun pin => (if pinStates pin = 1 then 1 else 0) * 2 ^ pin.val).sum < 2 ^ 64) :
    pins.foldlM (fun (res : Nat) pin => (shiftInt pin.val).map fun shifted =>
        ((res + (if pinStates pin = 1 then 1 else 0) * shifted) % 2 ^ 64).toNat) res =
      some (res + (pins.map fun pin => (if pinStates pin = 1 then 1 else 0) * 2 ^ pin.val).sum) := by
  induction pins generalizing res with
  | nil => rfl
  | cons pin rest ih =>
    rw [List.map_cons,List.sum_cons,← Nat.add_assoc] at fits ⊢
    have next : ((res + (if pinStates pin = 1 then 1 else 0) * 2 ^ pin.val : Int) % 2 ^ 64).toNat =
        res + (if pinStates pin = 1 then 1 else 0) * 2 ^ pin.val := by
      have small : (res + (if pinStates pin = 1 then 1 else 0) * 2 ^ pin.val : Int) =
          ((res + (if pinStates pin = 1 then 1 else 0) * 2 ^ pin.val : Nat) : Int) := by
        push_cast
        rfl
      rw [small]
      omega
    rw [List.foldlM_cons,shiftInt,if_pos (low pin (List.mem_cons_self ..)),Option.map_some,next]
    exact ih (fun other mem => low other (List.mem_cons_of_mem _ mem)) _ fits

theorem getPinStatesIndex_eq (few : n ≤ 31) (pinStates : Fin n → Int) :
    getPinStatesIndex pinStates = some (GTPower.getPinStatesIndex pinStates) := by
  have bound := getPinStatesIndex_lt pinStates
  have small : 2 ^ n ≤ 2 ^ 31 := Nat.pow_le_pow_right Nat.two_pos few
  rw [GTPower.getPinStatesIndex] at bound
  rw [getPinStatesIndex,foldlM_index pinStates (fun pin _ => lt_of_lt_of_le pin.isLt few) 0 (by omega),
    GTPower.getPinStatesIndex,
    Nat.zero_add]

/-- Bit 31 is the sign of an `int`. -/
theorem getPinStatesIndex_sign (pinStates : Fin 32 → Int) : getPinStatesIndex pinStates =
    some (GTPower.getPinStatesIndex pinStates + if pinStates 31 = 1 then 2 ^ 64 - 2 ^ 32 else 0) := by
  have bound := getPinStatesIndex_lt fun pin : Fin 31 => pinStates pin.castSucc
  rw [GTPower.getPinStatesIndex] at bound
  have split : List.finRange 32 = (List.finRange 31).map Fin.castSucc ++ [Fin.last 31] := List.finRange_succ_last
  have front : ((List.finRange 31).map Fin.castSucc).map (fun pin => (if pinStates pin = 1 then 1 else 0) *
    2 ^ pin.val) =
      (List.finRange 31).map fun pin => (if pinStates pin.castSucc = 1 then 1 else 0) * 2 ^ pin.val := by
    rw [List.map_map]
    rfl
  have last : Fin.last 31 = 31 := rfl
  rw [getPinStatesIndex,GTPower.getPinStatesIndex,split,List.foldlM_append,
    foldlM_index pinStates (by simp) 0 (by rw [front]; omega),front,
    List.map_append,List.sum_append,front,last]
  generalize ((List.finRange 31).map fun pin => (if pinStates pin.castSucc = 1 then 1 else 0) * 2 ^ pin.val).sum =
    low at bound
  have sign : shiftInt 31 = some (-(2 ^ 31)) := rfl
  have value : (31 : Fin 32).val = 31 := rfl
  simp only [Option.bind_eq_bind,Option.bind_some,List.foldlM_cons,List.foldlM_nil,sign,Option.map_some,List.map_cons,
    List.map_nil,
    List.sum_cons,List.sum_nil,value,Option.pure_def,Option.some.injEq,Nat.zero_add]
  split <;> omega

theorem getPinStatesIndex_undefined (many : 33 ≤ n) (pinStates : Fin n → Int) : getPinStatesIndex pinStates = none := by
  have stuck : shiftInt 32 = none := rfl
  exact foldlM_stuck (List.mem_finRange (⟨32, many⟩ : Fin n)) (fun res => by rw [stuck]; rfl) 0

end Machine

section Exact
variable {κ : Type} (portNameToIdx : κ → Option (Fin n)) (when : Option (FuncExpr κ))

/-- The condition is satisfied in the states of the pins. -/
def WhenHolds (pinStates : Fin n → Int) : Prop := isInternalPowerMatchPinStates portNameToIdx pinStates when = some true

/-- A condition that cannot be satisfied is recognised, and otherwise the states it holds in are enumerated once each;
the index of the states of the pins is among them exactly when it holds in these states. -/
def Enumerated : Prop :=
  ∃ satisfiable whenPinStates idxs, getWhenPinStates portNameToIdx when = some (satisfiable, whenPinStates) ∧
    Machine.getStateIdx portNameToIdx when = some idxs ∧
    (satisfiable = false → ∀ pinStates, ¬WhenHolds portNameToIdx when pinStates) ∧
    (satisfiable = true → idxs.Nodup ∧ ∀ stateIdx, stateIdx ∈ idxs ↔ stateIdx < 2 ^ n ∧
      WhenHolds portNameToIdx when (bitStates stateIdx)) ∧
    ∀ pinStates : Fin n → Int, ∃ idx, Machine.getPinStatesIndex pinStates = some idx ∧
      (idx ∈ idxs ↔ WhenHolds portNameToIdx when pinStates)

variable {portNameToIdx when}

theorem holds_iff (accepted : getWhenPinStates portNameToIdx when = some (satisfiable, whenPinStates))
    (pinStates : Fin n → Int) :
    WhenHolds portNameToIdx when pinStates ↔ satisfiable = true ∧ Meets whenPinStates pinStates := by
  obtain ⟨matched, evaluated, same⟩ := isInternalPowerMatchPinStates_iff accepted pinStates
  rw [WhenHolds,evaluated,Option.some.injEq]
  exact same

theorem getStateIdx_spec (accepted : getWhenPinStates portNameToIdx when = some (satisfiable, whenPinStates))
    (few : n ≤ 64) :
    ∃ idxs, Machine.getStateIdx portNameToIdx when = some idxs ∧ idxs.Nodup ∧ (∀ stateIdx ∈ idxs, stateIdx < 2 ^ n) ∧
      (∀ stateIdx, stateIdx ∈ idxs ↔ stateIdx < 2 ^ n ∧ WhenHolds portNameToIdx when (bitStates stateIdx)) ∧
      ∀ pinStates : Fin n → Int, getPinStatesIndex pinStates ∈ idxs ↔ WhenHolds portNameToIdx when pinStates := by
  have requirements := requirements_getWhenPinStates accepted
  have holds := holds_iff accepted
  cases satisfiable with
  | false =>
    refine ⟨[], by rw [Machine.getStateIdx,accepted]; rfl, List.nodup_nil, by simp, fun stateIdx =>
      ?_, fun pinStates => ?_⟩ <;>
      simp [holds]
  | true =>
    refine ⟨GTPower.matchedStateIdxs whenPinStates, ?_, nodup_matchedStateIdxs _,
      fun stateIdx mem => ((mem_matchedStateIdxs_iff requirements _).mp mem).1, fun stateIdx => ?_, fun pinStates => ?_⟩
    · rw [Machine.getStateIdx,accepted]
      exact Machine.matchedStateIdxs_eq few whenPinStates
    · rw [mem_matchedStateIdxs_iff requirements,holds]
      simp
    · rw [mem_matchedStateIdxs requirements,holds]
      simp

theorem not_holds (accepted : getWhenPinStates portNameToIdx when = some (false, whenPinStates))
    (pinStates : Fin n → Int) :
    ¬WhenHolds portNameToIdx when pinStates := fun holds => by
  obtain ⟨impossible, -⟩ := (holds_iff accepted pinStates).mp holds
  cases impossible

/-- An accepted condition is enumerated as its evaluation says exactly for up to 31 pins, and for 32 pins when it holds
in no states with the last pin at 1. -/
theorem enumerated_iff (accepted : (getWhenPinStates portNameToIdx when).isSome) : Enumerated portNameToIdx when ↔
    n ≤ 31 ∨ n = 32 ∧ ∀ (pinStates : Fin n → Int) (pin : Fin n), pin.val = 31 → pinStates pin = 1 →
    ¬WhenHolds portNameToIdx when pinStates := by
  obtain ⟨⟨satisfiable, whenPinStates⟩, accepted⟩ := Option.isSome_iff_exists.mp accepted
  have impossible : satisfiable = false → ∀ pinStates, ¬WhenHolds portNameToIdx when pinStates :=
    fun never pinStates => by
    subst never
    exact not_holds accepted pinStates
  constructor
  · rintro ⟨_, _, idxs, -, enumerated, -, -, indexed⟩
    have few : n ≤ 32 := by
      by_contra many
      obtain ⟨idx, defined, -⟩ := indexed fun _ => 0
      rw [Machine.getPinStatesIndex_undefined (Nat.not_le.mp many)] at defined
      cases defined
    rcases Nat.lt_or_eq_of_le few with less | rfl
    · exact Or.inl (Nat.le_of_lt_succ less)
    · refine Or.inr ⟨rfl, fun pinStates pin last one holds => ?_⟩
      obtain ⟨idxs', enumerated', -, bounded, -⟩ := getStateIdx_spec accepted (by decide)
      rw [enumerated,Option.some.injEq] at enumerated'
      subst enumerated'
      obtain ⟨idx, defined, same⟩ := indexed pinStates
      obtain rfl : pin = 31 := Fin.ext last
      rw [Machine.getPinStatesIndex_sign,if_pos one,Option.some.injEq] at defined
      have small := bounded idx (same.mpr holds)
      omega
  · intro few
    have bound : n ≤ 32 := by omega
    obtain ⟨idxs, enumerated, nodup, bounded, exact, indexed⟩ := getStateIdx_spec accepted (by omega)
    refine ⟨satisfiable, whenPinStates, idxs, accepted, enumerated, impossible, fun _ => ⟨nodup, exact⟩,
      fun pinStates => ?_⟩
    rcases few with few | ⟨rfl, never⟩
    · exact ⟨_, Machine.getPinStatesIndex_eq few pinStates, indexed pinStates⟩
    · refine ⟨_, Machine.getPinStatesIndex_sign pinStates, ?_⟩
      by_cases one : pinStates 31 = 1
      · rw [if_pos one]
        have none := never pinStates 31 rfl one
        refine ⟨fun mem => ?_, fun holds => absurd holds none⟩
        have small := bounded _ mem
        omega
      · rw [if_neg one,Nat.add_zero]
        exact indexed pinStates

theorem enumerated_and : Enumerated (some : Fin 2 → Option (Fin 2)) (some (.and (.port 0) (.not (.port 1)))) :=
  (enumerated_iff rfl).mpr (Or.inl (by decide))

/-- The last of 32 pins at 1 makes the index negative. -/
theorem not_enumerated_32 : (getWhenPinStates (some : Fin 32 → Option (Fin 32)) (some (.port 31))).isSome ∧
    ¬Enumerated (some : Fin 32 → Option (Fin 32)) (some (.port 31)) := by
  refine ⟨rfl, ?_⟩
  rintro ⟨_, _, idxs, -, enumerated, -, -, indexed⟩
  have accepted : getWhenPinStates (some : Fin 32 → Option (Fin 32)) (some (.port 31)) = some (true, _) := rfl
  obtain ⟨idxs', enumerated', -, bounded, -⟩ := getStateIdx_spec accepted (by decide)
  rw [enumerated,Option.some.injEq] at enumerated'
  subst enumerated'
  obtain ⟨idx, defined, same⟩ := indexed fun _ => 1
  rw [Machine.getPinStatesIndex_sign,if_pos rfl,Option.some.injEq] at defined
  have small := bounded idx (same.mpr rfl)
  omega

end Exact

end GTPower
