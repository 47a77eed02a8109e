import GTPower.SimSound

/-! Runs of edits, constraints and propagations. Instances with a constant pin stay marked, whatever is disconnected and
propagated, so that a propagation from nothing is sound for the netlist and the constraints as they are then. -/
namespace GTPower.Sim

variable {π ι ρ : Type*} [DecidableEq π] [DecidableEq ι]

section Source
variable (nl : Netlist π ι ρ) (sdc : Sdc π)

/-- Of a load that is taken off its net. -/
def removePropagatedValue (pin : π) (st : State π ι) : State π ι :=
  if nl.inst pin ∈ st.instancesWithConstPins then
    let st := { st with invalidInsts := st.invalidInsts.insert (nl.inst pin), valid := false }
    if (sdc.constraintValue pin).isNone && nl.hasVertex pin then setSimValue st pin .unknown else st
  else st

def connectPinAfter (pin : π) (st : State π ι) : State π ι :=
  if st.incremental then
    { recordConstPinFunc nl st pin with
      invalidLoadPins := if nl.isLoad pin then st.invalidLoadPins.insert pin else st.invalidLoadPins
      invalidDrvrPins := if nl.isDriver pin then st.invalidDrvrPins.insert pin else st.invalidDrvrPins
      valid := false }
  else st

def disconnectPinBefore (pin : π) (st : State π ι) : State π ι :=
  if st.incremental then
    let st := if nl.isLoad pin then removePropagatedValue nl sdc pin
      { st with invalidLoadPins := st.invalidLoadPins.insert pin } else st
    if nl.isDriver pin then { st with invalidDrvrPins := st.invalidDrvrPins.insert pin } else st
  else st

end Source

/-- Nets were edited; instances, their pins and functions are those before. -/
structure Netlist.Rewired (nl nl' : Netlist π ι ρ) : Prop where
  inst : nl'.inst = nl.inst
  constFunc : nl'.constFunc = nl.constFunc

variable [DecidableEq ρ]

/-- What a new simulation comes to while pins are connected and disconnected, constraints are set and constants are
propagated. -/
inductive Reached : Netlist π ι ρ → Sdc π → State π ι → Prop
  | initial (nl : Netlist π ι ρ) (sdc : Sdc π) : Reached nl sdc State.initial
  | connectPin {nl nl' : Netlist π ι ρ} {sdc : Sdc π} {st : State π ι} (before : Reached nl sdc st)
    (rewired : nl.Rewired nl') (pin : π) :
      Reached nl' sdc (connectPinAfter nl' pin st)
  | disconnectPin {nl nl' : Netlist π ι ρ} {sdc : Sdc π} {st : State π ι} (before : Reached nl sdc st)
    (rewired : nl.Rewired nl') (pin : π) :
      Reached nl' sdc (disconnectPinBefore nl sdc pin st)
  | constrain {nl : Netlist π ι ρ} {sdc : Sdc π} {st : State π ι} (before : Reached nl sdc st) (sdc' : Sdc π) :
      Reached nl sdc' (constantsInvalid st)
  | propagate {nl : Netlist π ι ρ} {sdc : Sdc π} {st st' : State π ι} (before : Reached nl sdc st) (fuel : ℕ)
      (run : ensureConstantsPropagated nl sdc fuel st = some st') : Reached nl sdc st'

section Steps
variable {nl nl' : Netlist π ι ρ} {sdc : Sdc π} {st st' : State π ι} {fuel : ℕ}

omit [DecidableEq π] [DecidableEq ι] [DecidableEq ρ] in
theorem Recorded.constantsInvalid (recorded : Recorded nl st) : Recorded nl (constantsInvalid st) :=
  ⟨recorded.insts, recorded.funcs⟩

omit [DecidableEq π] [DecidableEq ι] [DecidableEq ρ] in
theorem Recorded.rewired (recorded : Recorded nl st) (rewired : nl.Rewired nl') : Recorded nl' st where
  insts pin := rewired.inst ▸ recorded.insts pin
  funcs pin := rewired.constFunc ▸ recorded.funcs pin

omit [DecidableEq ρ] in
theorem Recorded.seedIncremental (recorded : Recorded nl st) (run : seedIncremental nl sdc fuel st = some st') :
    Recorded nl st' := by
  simp only [Sim.seedIncremental,propagateToInvalidLoads,propagateFromInvalidDrvrsToLoads,Option.bind_eq_bind,
    Option.bind_eq_some_iff,Option.some.injEq] at run
  obtain ⟨_, ⟨st₁, loads, rfl⟩, st₂, drvrs, rfl⟩ := run
  have queued : Recorded nl { st with evalQueue := st.evalQueue ++ st.invalidInsts } := ⟨recorded.insts, recorded.funcs⟩
  have recorded₁ : Recorded nl st₁ := by
    refine foldlM_inv queued loads ?_
    intro loadPin _ st st' recorded run
    split at run
    · exact recorded.setPinValue run
    · exact recorded.setPinValue run
    · cases run
      exact recorded
  have recorded₂ : Recorded nl st₂ := by
    have settled : Recorded nl { st₁ with invalidLoadPins := [] } := ⟨recorded₁.insts, recorded₁.funcs⟩
    refine foldlM_inv settled drvrs ?_
    intro drvrPin _ st st' recorded run
    refine foldlM_inv recorded run ?_
    intro loadPin _ st st' recorded run
    split at run
    · exact recorded.setPinValue run
    · cases run
      exact recorded
  exact ⟨recorded₂.insts, recorded₂.funcs⟩

theorem Recorded.propagateConstants (recorded : Recorded nl st) (run : propagateConstants nl sdc fuel st = some st') :
    Recorded nl st' := by
  induction fuel generalizing st with
  | zero => cases run
  | succ fuel ih =>
    rw [Sim.propagateConstants] at run
    cases queue : st.evalQueue with
    | nil =>
      simp only [queue,Option.some.injEq] at run
      exact run ▸ recorded
    | cons i rest =>
      simp only [queue] at run
      obtain ⟨next, eval, tail⟩ := Option.bind_eq_some_iff.1 run
      have popped : Recorded nl { st with evalQueue := rest } := ⟨recorded.insts, recorded.funcs⟩
      exact ih (popped.evalInstance eval) tail

/-- Every propagation, full or incremental, keeps the records that the next full one clears by. -/
theorem Recorded.ensureConstantsPropagated (recorded : Recorded nl st)
    (run : ensureConstantsPropagated nl sdc fuel st = some st') :
    Recorded nl st' := by
  cases invalid : st.valid with
  | true =>
    simp only [Sim.ensureConstantsPropagated,invalid,if_true,Option.some.injEq] at run
    exact run ▸ recorded
  | false =>
    cases path : st.incremental with
    | false => exact (fullPropagation_sound recorded invalid path run).2
    | true =>
      have still := (ensureConstantFuncPins_incremental nl st).trans path
      simp only [Sim.ensureConstantsPropagated,invalid,still,Bool.false_eq_true,if_true,if_false,Option.bind_eq_bind,
        Option.bind_eq_some_iff,Option.some.injEq] at run
      obtain ⟨seeded, seed, done, propagate, rfl⟩ := run
      have seededRecorded := recorded.ensureConstantFuncPins.seedIncremental seed
      have cleared : Recorded nl { seeded with invalidInsts := [] } := ⟨seededRecorded.insts, seededRecorded.funcs⟩
      have done := cleared.propagateConstants propagate
      exact ⟨done.insts, done.funcs⟩

omit [DecidableEq ρ] in
/-- No mark of an instance goes with a value that is taken off. -/
theorem Recorded.removePropagatedValue (recorded : Recorded nl st) (pin : π) :
    Recorded nl (removePropagatedValue nl sdc pin st) := by
  unfold Sim.removePropagatedValue
  split
  · split
    · refine ⟨fun other known => ?_, recorded.funcs⟩
      simp only [Sim.setSimValue] at known
      split at known
      · cases known
      · exact recorded.insts other known
    · exact ⟨recorded.insts, recorded.funcs⟩
  · exact recorded

omit [DecidableEq ρ] in
theorem Recorded.disconnectPinBefore (recorded : Recorded nl st) (pin : π) :
    Recorded nl (disconnectPinBefore nl sdc pin st) := by
  unfold Sim.disconnectPinBefore
  split
  · have load : Recorded nl (if nl.isLoad pin then
        Sim.removePropagatedValue nl sdc pin { st with invalidLoadPins := st.invalidLoadPins.insert pin } else st) := by
      split
      · have marked : Recorded nl { st with invalidLoadPins := st.invalidLoadPins.insert pin } :=
          ⟨recorded.insts, recorded.funcs⟩
        exact marked.removePropagatedValue pin
      · exact recorded
    dsimp only
    split
    · exact ⟨load.insts, load.funcs⟩
    · exact load
  · exact recorded

omit [DecidableEq ι] [DecidableEq ρ] in
theorem Recorded.connectPinAfter (recorded : Recorded nl st) (pin : π) : Recorded nl (connectPinAfter nl pin st) := by
  unfold Sim.connectPinAfter
  split
  · have func : Recorded nl (recordConstPinFunc nl st pin) := by
      unfold recordConstPinFunc
      split
      · next isConst =>
        refine ⟨recorded.insts, fun other mem => ?_⟩
        obtain rfl | before := List.mem_insert_iff.mp mem
        · exact isConst
        · exact recorded.funcs other before
      · exact recorded
    exact ⟨func.insts, func.funcs⟩
  · exact recorded

theorem Reached.recorded (reached : Reached nl sdc st) : Recorded nl st := by
  induction reached with
  | initial => exact .initial
  | connectPin before rewired pin ih => exact (ih.rewired rewired).connectPinAfter pin
  | disconnectPin before rewired pin ih => exact (ih.disconnectPinBefore pin).rewired rewired
  | constrain before sdc' ih => exact ih.constantsInvalid
  | propagate before fuel run ih => exact ih.ensureConstantsPropagated run

end Steps

/-- After any run, the values that a propagation from nothing leaves are those of the pins in every valuation. -/
theorem propagation_sound {nl : Netlist π ι ρ} {sdc : Sdc π} {st st' : State π ι}
    (reached : Reached nl sdc st) (fuel : ℕ)
    (run : ensureConstantsPropagated nl sdc fuel (constantsInvalid st) = some st') (pin : π) :
    Forced nl sdc pin (st'.simValue pin) :=
  (fullPropagation_sound reached.recorded.constantsInvalid rfl rfl run).1 pin id

/-- The clock is let go after it was held low, and held again. -/
theorem propagation_sound_clockGate : ∃ st st', Reached clockGate clockLow st ∧
    ensureConstantsPropagated clockGate clockLow 4 (constantsInvalid st) = some st' ∧ st'.simValue .gclk = .zero ∧
      Forced clockGate clockLow .gclk (st'.simValue .gclk) := by
  have held : Reached clockGate clockLow _ := (Reached.initial clockGate clockLow).propagate 4 rfl
  have free : Reached clockGate ⟨⟨[], List.nodup_nil⟩, ⟨[], List.nodup_nil⟩⟩ _ := (held.constrain _).propagate 4 rfl
  have again : Reached clockGate clockLow _ := free.constrain clockLow
  exact ⟨_, _, again, rfl, rfl, propagation_sound again 4 rfl .gclk⟩

end GTPower.Sim
