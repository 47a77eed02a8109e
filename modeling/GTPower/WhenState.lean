import GTPower.FuncExpr
import GTPower.Gate

/-! Conditions of internal power groups. A condition the tool accepts is a conjunction of pin values, kept as the
value it requires of each pin; the states of the pins it holds in are then enumerated. -/
namespace GTPower

section Conditions
variable {κ : Type} (portNameToIdx : κ → Option (Fin n))

/-- Whether the condition, or its negation, can hold, with the pin values it adds to those required so far. `none` where
the source reports an error: a port without a pin, or no conjunction. -/
def collectWhenPinStates : FuncExpr κ → Bool → (Fin n → Int) → Option (Bool × (Fin n → Int))
  | .port name, negated, whenPinStates =>
    match portNameToIdx name with
    | none => none
    | some pin =>
      let required : Int := if negated then 0 else 1
      if whenPinStates pin ≠ invalidVcdEventVal ∧ whenPinStates pin ≠ required then some (false, whenPinStates)
      else some (true, Function.update whenPinStates pin required)
  | .not left, negated, whenPinStates => collectWhenPinStates left (!negated) whenPinStates
  | .one, negated, whenPinStates => some (!negated, whenPinStates)
  | .zero, negated, whenPinStates => some (negated, whenPinStates)
  | .and left right, false, whenPinStates => do
    let (leftOk, whenPinStates) ← collectWhenPinStates left false whenPinStates
    let (rightOk, whenPinStates) ← collectWhenPinStates right false whenPinStates
    return (leftOk && rightOk, whenPinStates)
  | .or left right, true, whenPinStates => do
    let (leftOk, whenPinStates) ← collectWhenPinStates left true whenPinStates
    let (rightOk, whenPinStates) ← collectWhenPinStates right true whenPinStates
    return (leftOk && rightOk, whenPinStates)
  | .and _ _, true, _ => none
  | .or _ _, false, _ => none
  | .xor _ _, _, _ => none

def getWhenPinStates : Option (FuncExpr κ) → Option (Bool × (Fin n → Int))
  | none => some (true, fun _ => invalidVcdEventVal)
  | some expr => collectWhenPinStates portNameToIdx expr false fun _ => invalidVcdEventVal

/-- Value of a condition, an unknown pin taken as 0. -/
def evalWhen (pinStates : Fin n → Int) : FuncExpr κ → Option Bool
  | .port name => (portNameToIdx name).map fun pin => pinStates pin == 1
  | .not left => (evalWhen pinStates left).map (! ·)
  | .and left right => do if ← evalWhen pinStates left then evalWhen pinStates right else return false
  | .or left right => do if ← evalWhen pinStates left then return true else evalWhen pinStates right
  | .xor left right => do
    let leftVal ← evalWhen pinStates left
    let rightVal ← evalWhen pinStates right
    return leftVal != rightVal
  | .one => some true
  | .zero => some false

/-- Whether a group applies in the pin states. -/
def isInternalPowerMatchPinStates (pinStates : Fin n → Int) : Option (FuncExpr κ) → Option Bool
  | none => some true
  | some expr => evalWhen portNameToIdx pinStates expr

/-- Indices of the states with the required pin values: first the one with every free pin at 0, then each free pin
doubles them. -/
def matchedStateIdxs (whenPinStates : Fin n → Int) : List Nat :=
  let matchedStateIdx := (List.finRange n).foldl
    (fun idx pin => if whenPinStates pin = 1 then idx ||| 1 <<< pin.val else idx) 0
  (List.finRange n).foldl
    (fun idxs pin => if whenPinStates pin = invalidVcdEventVal then idxs ++ idxs.map fun idx =>
      idx ||| 1 <<< pin.val else idxs)
    [matchedStateIdx]

def getStateIdx (when : Option (FuncExpr κ)) : Option (List Nat) :=
  (getWhenPinStates portNameToIdx when).map fun (satisfiable, whenPinStates) =>
    if satisfiable then matchedStateIdxs whenPinStates else []

end Conditions

def Meets (whenPinStates pinStates : Fin n → Int) : Prop :=
  ∀ pin, whenPinStates pin ≠ invalidVcdEventVal → whenPinStates pin = if pinStates pin = 1 then 1 else 0

def Requirements (whenPinStates : Fin n → Int) : Prop :=
  ∀ pin, whenPinStates pin = invalidVcdEventVal ∨ whenPinStates pin = 0 ∨ whenPinStates pin = 1

section Accepted
variable {κ : Type} {portNameToIdx : κ → Option (Fin n)}

/-- One more required value: it is met with the others, and contradicts only what cannot be met. -/
theorem meets_update (compatible : whenPinStates pin = invalidVcdEventVal ∨ whenPinStates pin = required)
    (valid : required ≠ invalidVcdEventVal) : Meets (Function.update whenPinStates pin required) pinStates ↔
      required = (if pinStates pin = 1 then 1 else 0) ∧ Meets whenPinStates pinStates := by
  constructor
  · intro meets
    have here := meets pin
    rw [Function.update_self] at here
    refine ⟨here valid, fun other bound => ?_⟩
    by_cases same : other = pin
    · subst same
      rcases compatible with free | equal
      · exact absurd free bound
      · exact equal.trans (here valid)
    · have there := meets other
      rw [Function.update_of_ne same] at there
      exact there bound
  · rintro ⟨here, meets⟩ other bound
    by_cases same : other = pin
    · subst same
      rw [Function.update_self]
      exact here
    · rw [Function.update_of_ne same] at bound ⊢
      exact meets other bound

theorem collect_and {left right : FuncExpr κ} {before after : Fin n → Int} {negated ok : Bool}
    (accepted : (do
      let (leftOk, whenPinStates) ← collectWhenPinStates portNameToIdx left negated before
      let (rightOk, whenPinStates) ← collectWhenPinStates portNameToIdx right negated whenPinStates
      return (leftOk && rightOk, whenPinStates)) = some (ok, after)) :
    ∃ leftOk rightOk middle, collectWhenPinStates portNameToIdx left negated before = some (leftOk, middle) ∧
      collectWhenPinStates portNameToIdx right negated middle = some (rightOk, after) ∧ ok = (leftOk && rightOk) := by
  cases first : collectWhenPinStates portNameToIdx left negated before with
  | none => simp [first] at accepted
  | some found =>
    obtain ⟨leftOk, middle⟩ := found
    cases second : collectWhenPinStates portNameToIdx right negated middle with
    | none => simp [first,second] at accepted
    | some found =>
      obtain ⟨rightOk, last⟩ := found
      simp only [first,second,Option.bind_eq_bind,Option.bind_some,Option.pure_def,Option.some.injEq,
        Prod.mk.injEq] at accepted
      exact ⟨leftOk, rightOk, middle, rfl, accepted.2 ▸ second, accepted.1.symm⟩

theorem collect_port {name : κ} {before after : Fin n → Int} {negated ok : Bool}
    (accepted : collectWhenPinStates portNameToIdx (.port name) negated before = some (ok, after)) :
    ∃ pin, portNameToIdx name = some pin ∧
      (before pin ≠ invalidVcdEventVal ∧ before pin ≠ (if negated then 0 else 1) ∧ ok = false ∧ after = before ∨
        (before pin = invalidVcdEventVal ∨ before pin = if negated then 0 else 1) ∧ ok = true ∧
          after = Function.update before pin (if negated then 0 else 1)) := by
  rw [collectWhenPinStates] at accepted
  cases found : portNameToIdx name with
  | none => simp [found] at accepted
  | some pin =>
    refine ⟨pin, rfl, ?_⟩
    simp only [found] at accepted
    by_cases conflict : before pin ≠ invalidVcdEventVal ∧ before pin ≠ (if negated then 0 else 1)
    · rw [if_pos conflict] at accepted
      obtain ⟨rfl, rfl⟩ := Prod.mk.inj (Option.some.inj accepted)
      exact Or.inl ⟨conflict.1, conflict.2, rfl, rfl⟩
    · rw [if_neg conflict] at accepted
      obtain ⟨rfl, rfl⟩ := Prod.mk.inj (Option.some.inj accepted)
      exact Or.inr ⟨by tauto, rfl, rfl⟩

theorem requirements_collect {expr : FuncExpr κ} {before after : Fin n → Int} {negated ok : Bool}
    (accepted : collectWhenPinStates portNameToIdx expr negated before = some (ok, after))
    (start : Requirements before) :
    Requirements after := by
  induction expr generalizing negated ok before after with
  | port name =>
    obtain ⟨pin, -, ⟨-, -, -, rfl⟩ | ⟨-, -, rfl⟩⟩ := collect_port accepted
    · exact start
    · intro other
      by_cases same : other = pin
      · subst same
        rw [Function.update_self]
        cases negated <;> simp
      · rw [Function.update_of_ne same]
        exact start other
  | not left ih => exact ih accepted start
  | or left right ihl ihr =>
    cases negated with
    | false => cases accepted
    | true =>
      obtain ⟨_, _, middle, first, second, -⟩ := collect_and accepted
      exact ihr second (ihl first start)
  | and left right ihl ihr =>
    cases negated with
    | true => cases accepted
    | false =>
      obtain ⟨_, _, middle, first, second, -⟩ := collect_and accepted
      exact ihr second (ihl first start)
  | xor left right _ _ => cases accepted
  | one =>
    obtain ⟨-, rfl⟩ := Prod.mk.inj (Option.some.inj accepted)
    exact start
  | zero =>
    obtain ⟨-, rfl⟩ := Prod.mk.inj (Option.some.inj accepted)
    exact start

/-- An accepted condition has a value in all pin states. It differs from `negated` in states that meet what was required
before exactly when the condition is satisfiable and its requirements are met. -/
theorem evalWhen_collect {expr : FuncExpr κ} {before after : Fin n → Int} {negated ok : Bool}
    (accepted : collectWhenPinStates portNameToIdx expr negated before = some (ok, after)) (pinStates : Fin n → Int) :
    ∃ value, evalWhen portNameToIdx pinStates expr = some value ∧
      (value ≠ negated ∧ Meets before pinStates ↔ ok = true ∧ Meets after pinStates) := by
  induction expr generalizing negated ok before after with
  | port name =>
    obtain ⟨pin, found, ⟨bound, other, rfl, rfl⟩ | ⟨compatible, rfl, rfl⟩⟩ := collect_port accepted
    · refine ⟨pinStates pin == 1, by rw [evalWhen,found]; rfl, ?_⟩
      constructor
      · rintro ⟨differs, meets⟩
        have here := meets pin bound
        cases negated <;> by_cases high : pinStates pin = 1 <;> simp_all
      · rintro ⟨impossible, -⟩
        cases impossible
    · refine ⟨pinStates pin == 1, by rw [evalWhen,found]; rfl, ?_⟩
      rw [meets_update compatible (by cases negated <;> decide)]
      have value : (pinStates pin == 1) ≠ negated ↔ (if negated then (0 : Int) else 1) = if pinStates pin = 1 then 1
        else 0 := by
        cases negated <;> by_cases high : pinStates pin = 1 <;> simp [high]
      rw [value]
      simp
  | not left ih =>
    obtain ⟨value, evaluated, same⟩ := ih accepted
    refine ⟨!value, by rw [evalWhen,evaluated]; rfl, ?_⟩
    rw [← same]
    cases value <;> cases negated <;> simp
  | or left right ihl ihr =>
    cases negated with
    | false => cases accepted
    | true =>
      obtain ⟨leftOk, rightOk, middle, first, second, rfl⟩ := collect_and accepted
      obtain ⟨leftVal, leftEval, leftSame⟩ := ihl first
      obtain ⟨rightVal, rightEval, rightSame⟩ := ihr second
      refine ⟨leftVal || rightVal, by rw [evalWhen,leftEval,rightEval]; cases leftVal <;> rfl, ?_⟩
      clear ihl ihr
      cases leftVal <;> cases rightVal <;> simp_all [and_assoc]
  | and left right ihl ihr =>
    cases negated with
    | true => cases accepted
    | false =>
      obtain ⟨leftOk, rightOk, middle, first, second, rfl⟩ := collect_and accepted
      obtain ⟨leftVal, leftEval, leftSame⟩ := ihl first
      obtain ⟨rightVal, rightEval, rightSame⟩ := ihr second
      refine ⟨leftVal && rightVal, by rw [evalWhen,leftEval,rightEval]; cases leftVal <;> rfl, ?_⟩
      clear ihl ihr
      cases leftVal <;> cases rightVal <;> simp_all [and_assoc]
  | xor left right _ _ => cases accepted
  | one =>
    obtain ⟨rfl, rfl⟩ := Prod.mk.inj (Option.some.inj accepted)
    exact ⟨true, rfl, by cases negated <;> simp⟩
  | zero =>
    obtain ⟨rfl, rfl⟩ := Prod.mk.inj (Option.some.inj accepted)
    exact ⟨false, rfl, by cases negated <;> simp⟩

theorem requirements_free {n : Nat} : Requirements fun _ : Fin n => invalidVcdEventVal := fun _ => Or.inl rfl

theorem meets_free (pinStates : Fin n → Int) : Meets (fun _ => invalidVcdEventVal) pinStates :=
  fun _ bound => absurd rfl bound

/-- A group with an accepted condition matches exactly when its requirements can be met and are. -/
theorem isInternalPowerMatchPinStates_iff {when : Option (FuncExpr κ)}
    (accepted : getWhenPinStates portNameToIdx when = some (satisfiable, whenPinStates)) (pinStates : Fin n → Int) :
    ∃ matched, isInternalPowerMatchPinStates portNameToIdx pinStates when = some matched ∧
      (matched = true ↔ satisfiable = true ∧ Meets whenPinStates pinStates) := by
  cases when with
  | none =>
    obtain ⟨rfl, rfl⟩ := Prod.mk.inj (Option.some.inj accepted)
    exact ⟨true, rfl, by simp [meets_free pinStates]⟩
  | some expr =>
    obtain ⟨value, evaluated, same⟩ := evalWhen_collect accepted pinStates
    refine ⟨value, evaluated, ?_⟩
    rw [← same]
    simp [meets_free pinStates]

theorem requirements_getWhenPinStates {when : Option (FuncExpr κ)}
    (accepted : getWhenPinStates portNameToIdx when = some (satisfiable, whenPinStates)) :
    Requirements whenPinStates := by
  cases when with
  | none =>
    obtain ⟨-, rfl⟩ := Prod.mk.inj (Option.some.inj accepted)
    exact requirements_free
  | some expr => exact requirements_collect accepted requirements_free

end Accepted

section States

theorem testBit_or_shift (idx bit i : Nat) : (idx ||| 1 <<< bit).testBit i = true ↔ idx.testBit i = true ∨ bit = i := by
  rw [Nat.testBit_or,Bool.or_eq_true,Nat.one_shiftLeft,Nat.testBit_two_pow,decide_eq_true_eq]

theorem testBit_foldl_fixed (whenPinStates : Fin n → Int) (pins : List (Fin n)) (start i : Nat) :
    (pins.foldl (fun idx pin => if whenPinStates pin = 1 then idx ||| 1 <<< pin.val else idx) start).testBit i = true ↔
      start.testBit i = true ∨ ∃ pin ∈ pins, pin.val = i ∧ whenPinStates pin = 1 := by
  induction pins generalizing start with
  | nil => simp
  | cons pin rest ih =>
    rw [List.foldl_cons,ih]
    by_cases fixed : whenPinStates pin = 1
    · rw [if_pos fixed,testBit_or_shift]
      constructor
      · rintro ((old | here) | ⟨other, mem, later⟩)
        · exact Or.inl old
        · exact Or.inr ⟨pin, List.mem_cons_self .., here, fixed⟩
        · exact Or.inr ⟨other, List.mem_cons_of_mem _ mem, later⟩
      · rintro (old | ⟨other, mem, here, one⟩)
        · exact Or.inl (Or.inl old)
        · rcases List.mem_cons.mp mem with rfl | later
          · exact Or.inl (Or.inr here)
          · exact Or.inr ⟨other, later, here, one⟩
    · rw [if_neg fixed]
      constructor
      · rintro (old | ⟨other, mem, later⟩)
        · exact Or.inl old
        · exact Or.inr ⟨other, List.mem_cons_of_mem _ mem, later⟩
      · rintro (old | ⟨other, mem, here, one⟩)
        · exact Or.inl old
        · rcases List.mem_cons.mp mem with rfl | later
          · exact absurd one fixed
          · exact Or.inr ⟨other, later, here, one⟩

/-- `idx` has the bits of `base`, and others only where `free` allows. -/
def Extends (base idx : Nat) (free : Nat → Prop) : Prop :=
  ∀ i, (base.testBit i = true → idx.testBit i = true) ∧ (idx.testBit i = true → base.testBit i = true ∨ free i)

theorem extends_cons (bit : Nat) (free : Nat → Prop) (base idx : Nat) : Extends base idx (fun i => bit = i ∨ free i) ↔
    Extends base idx free ∨ Extends (base ||| 1 <<< bit) idx free := by
  constructor
  · intro wide
    by_cases set : idx.testBit bit = true
    · right
      intro i
      rw [testBit_or_shift]
      refine ⟨?_, fun has => ?_⟩
      · rintro (old | rfl)
        · exact (wide i).1 old
        · exact set
      · rcases (wide i).2 has with old | here | later
        · exact Or.inl (Or.inl old)
        · exact Or.inl (Or.inr here)
        · exact Or.inr later
    · left
      intro i
      refine ⟨(wide i).1, fun has => ?_⟩
      rcases (wide i).2 has with old | rfl | later
      · exact Or.inl old
      · exact absurd has set
      · exact Or.inr later
  · rintro (narrow | narrow) i
    · exact ⟨(narrow i).1, fun has => ((narrow i).2 has).imp_right Or.inr⟩
    · have bits := narrow i
      rw [testBit_or_shift] at bits
      refine ⟨fun old => bits.1 (Or.inl old), fun has => ?_⟩
      rcases bits.2 has with (old | here) | later
      · exact Or.inl old
      · exact Or.inr (Or.inl here)
      · exact Or.inr (Or.inr later)

theorem mem_foldl_free (whenPinStates : Fin n → Int) (pins : List (Fin n)) (idxs : List Nat) (idx : Nat) :
    idx ∈ pins.foldl (fun idxs pin => if whenPinStates pin = invalidVcdEventVal then
        idxs ++ idxs.map fun idx => idx ||| 1 <<< pin.val else idxs) idxs ↔
      ∃ base ∈ idxs, Extends base idx fun i => ∃ pin ∈ pins, pin.val = i ∧ whenPinStates pin = invalidVcdEventVal := by
  induction pins generalizing idxs with
  | nil =>
    simp only [List.foldl_nil,List.not_mem_nil,false_and,exists_false]
    constructor
    · intro mem
      exact ⟨idx, mem, fun i => ⟨id, Or.inl⟩⟩
    · rintro ⟨base, mem, same⟩
      have equal : idx = base := Nat.eq_of_testBit_eq fun i => by
        rw [Bool.eq_iff_iff]
        exact ⟨fun has => ((same i).2 has).resolve_right id, (same i).1⟩
      exact equal ▸ mem
  | cons pin rest ih =>
    rw [List.foldl_cons,ih]
    by_cases unbound : whenPinStates pin = invalidVcdEventVal
    · have split : (fun i => ∃ other ∈ pin :: rest, other.val = i ∧ whenPinStates other = invalidVcdEventVal) =
          fun i => pin.val = i ∨ ∃ other ∈ rest, other.val = i ∧ whenPinStates other = invalidVcdEventVal := by
        funext i
        simp [unbound]
      rw [if_pos unbound,split]
      simp only [extends_cons,List.mem_append,List.mem_map]
      constructor
      · rintro ⟨base, old | ⟨start, mem, rfl⟩, extended⟩
        · exact ⟨base, old, Or.inl extended⟩
        · exact ⟨start, mem, Or.inr extended⟩
      · rintro ⟨base, mem, extended | extended⟩
        · exact ⟨base, Or.inl mem, extended⟩
        · exact ⟨_, Or.inr ⟨base, mem, rfl⟩, extended⟩
    · have split : (fun i => ∃ other ∈ pin :: rest, other.val = i ∧ whenPinStates other = invalidVcdEventVal) =
          fun i => ∃ other ∈ rest, other.val = i ∧ whenPinStates other = invalidVcdEventVal := by
        funext i
        simp [unbound]
      rw [if_neg unbound,split]

theorem testBit_getPinStatesIndex (pinStates : Fin n → Int) (i : Nat) :
    (getPinStatesIndex pinStates).testBit i = true ↔ ∃ pin : Fin n, pin.val = i ∧ pinStates pin = 1 := by
  induction n generalizing i with
  | zero => simp [getPinStatesIndex]
  | succ n ih =>
    have step : getPinStatesIndex pinStates =
        (if pinStates 0 = 1 then 1 else 0) + 2 * getPinStatesIndex fun pin : Fin n => pinStates pin.succ := by
      simp only [getPinStatesIndex,List.finRange_succ,List.map_cons,List.sum_cons,List.map_map,Fin.val_zero,
        pow_zero,mul_one,
        ← List.sum_map_mul_left]
      congr 3
      funext pin
      simp only [Function.comp_apply,Fin.val_succ,pow_succ]
      ring
    rw [step]
    cases i with
    | zero =>
      rw [Nat.testBit_zero,decide_eq_true_eq]
      constructor
      · intro odd
        refine ⟨0, rfl, ?_⟩
        by_contra low
        rw [if_neg low] at odd
        omega
      · rintro ⟨pin, zero, high⟩
        obtain rfl : pin = 0 := Fin.ext zero
        rw [if_pos high]
        omega
    | succ i =>
      have half : ((if pinStates 0 = 1 then 1 else 0) + 2 * getPinStatesIndex fun pin : Fin n =>
        pinStates pin.succ) / 2 =
          getPinStatesIndex fun pin : Fin n => pinStates pin.succ := by
        split <;> omega
      rw [Nat.testBit_succ,half,ih]
      constructor
      · rintro ⟨pin, rfl, high⟩
        exact ⟨pin.succ, rfl, high⟩
      · rintro ⟨pin, here, high⟩
        obtain ⟨earlier, rfl⟩ := Fin.exists_succ_eq.mpr (show pin ≠ 0 by rintro rfl; cases here)
        exact ⟨earlier, Nat.succ.inj here, high⟩

/-- The state of the pins is enumerated exactly when the requirements are met. -/
theorem mem_matchedStateIdxs {whenPinStates : Fin n → Int} (requirements : Requirements whenPinStates)
    (pinStates : Fin n → Int) :
    getPinStatesIndex pinStates ∈ matchedStateIdxs whenPinStates ↔ Meets whenPinStates pinStates := by
  rw [matchedStateIdxs,mem_foldl_free]
  simp only [List.mem_singleton,exists_eq_left,Extends,testBit_foldl_fixed,testBit_getPinStatesIndex,Nat.zero_testBit,
    Bool.false_eq_true,false_or,List.mem_finRange,true_and]
  constructor
  · intro bits pin bound
    rcases requirements pin with free | low | high
    · exact absurd free bound
    · rw [if_neg fun one => ?_,low]
      obtain ⟨other, same, fixed⟩ | ⟨other, same, free⟩ := (bits pin.val).2 ⟨pin, rfl, one⟩
      · rw [Fin.ext same,low] at fixed
        exact absurd fixed (by decide)
      · rw [Fin.ext same] at free
        exact bound free
    · obtain ⟨other, same, one⟩ := (bits pin.val).1 ⟨pin, rfl, high⟩
      rw [Fin.ext same] at one
      rw [if_pos one,high]
  · intro meets i
    constructor
    · rintro ⟨pin, rfl, high⟩
      refine ⟨pin, rfl, ?_⟩
      by_contra low
      have := meets pin (by rw [high]; decide)
      rw [high,if_neg low] at this
      exact absurd this (by decide)
    · rintro ⟨pin, rfl, one⟩
      by_cases free : whenPinStates pin = invalidVcdEventVal
      · exact Or.inr ⟨pin, rfl, free⟩
      · have := meets pin free
        rw [if_pos one] at this
        exact Or.inl ⟨pin, rfl, this⟩

end States
end GTPower
