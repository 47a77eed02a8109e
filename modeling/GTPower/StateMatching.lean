import GTPower.WhenEnumeration

/-! A condition as the device compares it with the states of the pins, and as it is evaluated. They part where a pin is
at Z. -/
namespace GTPower

/-- Pins a pair of tables has room for. -/
def LUTPair.maxNPin : Nat := 150

def LUTPair.setWhenState (pair : LUTPair α) (whenState : Fin n → Int) (satisfiable : Bool) : Option (LUTPair α) :=
  if LUTPair.maxNPin < n then none
  else some { pair with
    whenSatisfiable := satisfiable
    whenState := fun pin => if inside : pin < n then whenState ⟨pin, inside⟩ else invalidVcdEventVal }

/-- The pin is at none of 0, 1 and X. -/
def Floating (pinStates : Fin n → Int) (pin : Fin n) : Prop := pinStates pin ≠ 0 ∧ pinStates pin ≠ 1 ∧ pinStates pin ≠ 2

/-- When the other pins have the values that are required of them, none is required of the floating pins, or both 0 and
1 are. -/
def SeenAlike (satisfiable : Bool) (whenPinStates pinStates : Fin n → Int) : Prop :=
  satisfiable = true → (∀ pin, whenPinStates pin ≠ invalidVcdEventVal → ¬Floating pinStates pin →
      whenPinStates pin = if pinStates pin = 1 then 1 else 0) →
    (∀ pin, Floating pinStates pin → whenPinStates pin = invalidVcdEventVal) ∨
      (∃ pin, Floating pinStates pin ∧ whenPinStates pin = 0) ∧ ∃ pin, Floating pinStates pin ∧ whenPinStates pin = 1

section Matching
variable {κ : Type} {portNameToIdx : κ → Option (Fin n)} {when : Option (FuncExpr κ)} {pinStates whenPinStates : Fin n →
    Int}

theorem floating_reads_one (floating : Floating pinStates pin) :
    (if pinStates pin = 2 ∨ pinStates pin = 0 then (0 : Int) else 1) = 1 :=
  if_neg fun either => either.elim floating.2.2 floating.1

theorem reads_alike (known : ¬Floating pinStates pin) :
    (if pinStates pin = 2 ∨ pinStates pin = 0 then (0 : Int) else 1) = if pinStates pin = 1 then 1 else 0 := by
  by_cases zero : pinStates pin = 0
  · simp [zero]
  · by_cases one : pinStates pin = 1
    · simp [one]
    · by_cases two : pinStates pin = 2
      · simp [two]
      · exact absurd ⟨zero, one, two⟩ known

theorem matchPinStates_setWhenState {pair made : LUTPair α}
    (made_eq : pair.setWhenState whenPinStates satisfiable = some made)
    (pinStates : Fin n → Int) : made.matchPinStates pinStates = true ↔ satisfiable = true ∧
      ∀ pin, whenPinStates pin ≠ invalidVcdEventVal → whenPinStates pin = if pinStates pin = 2 ∨
        pinStates pin = 0 then 0 else 1 := by
  rw [LUTPair.setWhenState] at made_eq
  split at made_eq
  case isTrue => cases made_eq
  case isFalse =>
    obtain rfl := Option.some.inj made_eq
    simp only [LUTPair.matchPinStates,Bool.and_eq_true,List.all_eq_true,List.mem_finRange,forall_const,
      Bool.not_eq_true',
      Bool.and_eq_false_iff,bne_eq_false_iff_eq,Fin.is_lt,dite_true,Fin.eta]
    exact and_congr_right' (forall_congr' fun pin => or_iff_not_imp_left)

/-- The device and the evaluation of an accepted condition agree in the states of the pins exactly when its floating
pins do not decide. -/
theorem deviceMatch_iff {pair made : LUTPair α}
    (accepted : getWhenPinStates portNameToIdx when = some (satisfiable, whenPinStates))
    (made_eq : pair.setWhenState whenPinStates satisfiable = some made) (pinStates : Fin n → Int) :
    (made.matchPinStates pinStates = true ↔ isInternalPowerMatchPinStates portNameToIdx pinStates when = some true) ↔
      SeenAlike satisfiable whenPinStates pinStates := by
  have requirements := requirements_getWhenPinStates accepted
  have holds := holds_iff accepted pinStates
  rw [WhenHolds] at holds
  rw [matchPinStates_setWhenState made_eq,holds,SeenAlike]
  cases satisfiable with
  | false => simp
  | true =>
    simp only [true_and,true_implies]
    constructor
    · intro same others
      by_cases free : ∀ pin, Floating pinStates pin → whenPinStates pin = invalidVcdEventVal
      · exact Or.inl free
      · right
        obtain ⟨pin, floating, required⟩ := by simpa only [not_forall,exists_prop] using free
        -- a single required value would let one of the two match and not the other
        constructor
        · by_contra noZero
          have matched := same.mp fun other bound => by
            by_cases float : Floating pinStates other
            · rw [floating_reads_one float]
              rcases requirements other with free | zero | one
              · exact absurd free bound
              · exact absurd ⟨other, float, zero⟩ noZero
              · exact one
            · rw [reads_alike float]
              exact others other bound float
          have zero := matched pin required
          rw [if_neg floating.2.1] at zero
          exact noZero ⟨pin, floating, zero⟩
        · by_contra noOne
          have matched := same.mpr fun other bound => by
            by_cases float : Floating pinStates other
            · rw [if_neg float.2.1]
              rcases requirements other with free | zero | one
              · exact absurd free bound
              · exact zero
              · exact absurd ⟨other, float, one⟩ noOne
            · exact others other bound float
          have one := matched pin required
          rw [floating_reads_one floating] at one
          exact noOne ⟨pin, floating, one⟩
    · intro alike
      by_cases others : ∀ pin, whenPinStates pin ≠ invalidVcdEventVal → ¬Floating pinStates pin →
          whenPinStates pin = if pinStates pin = 1 then 1 else 0
      · rcases alike others with free | ⟨⟨low, floating, zero⟩, high, floating', one⟩
        · refine forall_congr' fun pin => imp_congr_right fun bound => ?_
          rw [reads_alike fun floating => bound (free pin floating)]
        · have device : ¬∀ pin, whenPinStates pin ≠ invalidVcdEventVal →
              whenPinStates pin = if pinStates pin = 2 ∨ pinStates pin = 0 then 0 else 1 := fun all => by
            have here := all low (by rw [zero]; decide)
            rw [floating_reads_one floating,zero] at here
            exact absurd here (by decide)
          have host : ¬Meets whenPinStates pinStates := fun all => by
            have here := all high (by rw [one]; decide)
            rw [if_neg floating'.2.1,one] at here
            exact absurd here (by decide)
          exact iff_of_false device host
      · have device : ¬∀ pin, whenPinStates pin ≠ invalidVcdEventVal →
            whenPinStates pin = if pinStates pin = 2 ∨ pinStates pin = 0 then 0 else 1 := fun all =>
          others fun pin bound known => (reads_alike known) ▸ all pin bound
        exact iff_of_false device fun meets => others fun pin bound _ => meets pin bound

theorem getWhenPinStates_port :
    getWhenPinStates (some : Fin 1 → Option (Fin 1)) (some (.port 0)) = some (true, fun _ => 1) := by
  have required : Function.update (fun _ => invalidVcdEventVal) 0 1 = fun _ : Fin 1 => (1 : Int) := by
    funext pin
    rw [Subsingleton.elim pin 0]
    exact Function.update_self ..
  change some (true, Function.update (fun _ => invalidVcdEventVal) 0 1) = _
  rw [required]

def onePinPair : LUTPair Unit := ⟨(), (), true, fun pin => if pin < 1 then 1 else invalidVcdEventVal⟩

theorem onePinPair_made : onePinPair.setWhenState (fun _ : Fin 1 => 1) true = some onePinPair := rfl

theorem deviceMatch_unknown : onePinPair.matchPinStates (fun _ : Fin 1 => 2) = true ↔
    isInternalPowerMatchPinStates (some : Fin 1 → Option (Fin 1)) (fun _ => 2) (some (.port 0)) = some true := by
  refine (deviceMatch_iff getWhenPinStates_port onePinPair_made fun _ => 2).mpr fun _ _ => Or.inl fun pin floating => ?_
  exact absurd rfl floating.2.2

/-- A pin at Z is read as 1 on the device and as 0 by the evaluation. -/
theorem deviceMatch_floating : getWhenPinStates (some : Fin 1 → Option (Fin 1)) (some (.port 0)) =
    some (true, fun _ => 1) ∧
    onePinPair.setWhenState (fun _ : Fin 1 => 1) true = some onePinPair ∧
    onePinPair.matchPinStates (fun _ : Fin 1 => 3) = true ∧
    isInternalPowerMatchPinStates (some : Fin 1 → Option (Fin 1)) (fun _ => 3) (some (.port 0)) = some false :=
  ⟨getWhenPinStates_port, onePinPair_made, by decide, rfl⟩

end Matching
end GTPower
