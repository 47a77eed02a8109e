import GTPower.Sim

/-! Constant propagation is sound: a constant value is the value of the pin in every valuation that the netlist and the
constraints allow. The invariant leaves out the pins that a hierarchical logic value may have set against a case value
still to come. -/

namespace GTPower.Sim

section Folds

variable {σ α : Type*} {f : σ → α → Option σ}

theorem foldlM_rest (P : List α → σ → Prop) {st' : σ}
    (step : ∀ a rest st st', P (a :: rest) st → f st a = some st' → P rest st') :
    ∀ {items : List α} {st : σ}, P items st → items.foldlM f st = some st' → P [] st' := by
  intro items
  induction items with
  | nil =>
    intro st holds run
    cases run
    exact holds
  | cons a rest ih =>
    intro st holds run
    rw [List.foldlM_cons] at run
    obtain ⟨next, first, tail⟩ := Option.bind_eq_some_iff.1 run
    exact ih (step a rest st next holds first) tail

theorem foldlM_inv {P : σ → Prop} {items : List α} {st st' : σ} (holds : P st) (run : items.foldlM f st = some st')
    (step : ∀ a ∈ items, ∀ st st', P st → f st a = some st' → P st') : P st' := by
  have rest := foldlM_rest (fun rest st => (∀ a ∈ rest, a ∈ items) ∧ P st)
    (fun a rest st st' ⟨sub, holds⟩ (run : f st a = some st') =>
      ⟨fun b mem => sub b (List.mem_cons_of_mem _ mem), step a (sub a List.mem_cons_self) st st' holds run⟩)
    ⟨fun _ mem => mem, holds⟩ run
  exact rest.2

end Folds

variable {π ι ρ : Type*}

section Meaning
variable [DecidableEq π]

/-- A valuation of the pins and of the ports of every instance. -/
structure Netlist.Satisfies (nl : Netlist π ι ρ) (sdc : Sdc π) (v : π → Bool) (env : ι → ρ → Bool) : Prop where
  port : ∀ pin port, nl.libertyPort pin = some port → env (nl.inst pin) port = v pin
  constraint : ∀ pin value bit, sdc.constraintValue pin = some value → value.zeroOne = some bit → v pin = bit
  constant : ∀ pin value bit, (pin, value) ∈ nl.constantPins → value.zeroOne = some bit → v pin = bit
  load : ∀ drvr load, nl.isDriver drvr → load ∈ nl.connected drvr → nl.isLoad load → v load = v drvr
  hierarchical : ∀ pin load, nl.isHierarchical pin → load ∈ nl.connected pin → nl.isLeafInput load → v load = v pin
  constFunc : ∀ pin bit, nl.constFunc pin = some bit → v pin = bit
  output : ∀ pin port expr, nl.libertyPort pin = some port → (nl.portDirection port).isAnyOutput →
    nl.function port = some expr →
    (∀ enable, nl.tristateEnable port = some enable → enable.eval (env (nl.inst pin)) = true) →
      v pin = expr.eval (env (nl.inst pin))

/-- The output of a clock gate without a function is zero while a clock or an enable of the gate is. -/
def Netlist.GatesClosed (nl : Netlist π ι ρ) (v : π → Bool) : Prop :=
  ∀ pin port, nl.libertyPort pin = some port → (nl.portDirection port).isAnyOutput → nl.function port = none →
    nl.isClockGateOut port → ∀ gatePort ∈ nl.cellPorts (nl.inst pin),
      (nl.isClockGateClock gatePort || nl.isClockGateEnable gatePort) →
        ∀ gatePin, nl.findPin (nl.inst pin) gatePort = some gatePin →
        v gatePin = false → v pin = false

/-- The value is that of the pin in every valuation. -/
def Forced (nl : Netlist π ι ρ) (sdc : Sdc π) (pin : π) (value : LogicValue) : Prop :=
  ∀ v env, nl.Satisfies sdc v env → nl.GatesClosed v → ∀ bit, value.zeroOne = some bit → v pin = bit

/-- What the values of a simulation promise, `pending` pins aside. -/
def SoundOutside (nl : Netlist π ι ρ) (sdc : Sdc π) (pending : π → Prop) (st : State π ι) : Prop :=
  ∀ pin, ¬ pending pin → Forced nl sdc pin (st.simValue pin)

abbrev Sound (nl : Netlist π ι ρ) (sdc : Sdc π) (st : State π ι) : Prop := SoundOutside nl sdc (fun _ => False) st

/-- Instances with a constant pin are marked, and the pins of constant functions have one. -/
structure Recorded (nl : Netlist π ι ρ) (st : State π ι) : Prop where
  insts : ∀ pin, logicValueZeroOne (st.simValue pin) → nl.inst pin ∈ st.instancesWithConstPins
  funcs : ∀ pin ∈ st.constFuncPins, (nl.constFunc pin).isSome

end Meaning

section Steps
variable [DecidableEq ι] {st : State π ι} {value : LogicValue}

@[simp] theorem recordConst_simValue (i : ι) : (recordConst st i value).simValue = st.simValue := by
  unfold recordConst; split <;> rfl
@[simp] theorem enqueue_simValue (i : ι) : (enqueue st i).simValue = st.simValue := by unfold enqueue; split <;> rfl
@[simp] theorem recordConst_constFuncPins (i : ι) : (recordConst st i value).constFuncPins = st.constFuncPins := by
  unfold recordConst; split <;> rfl
@[simp] theorem enqueue_constFuncPins (i : ι) : (enqueue st i).constFuncPins = st.constFuncPins := by
  unfold enqueue; split <;> rfl
@[simp] theorem enqueue_insts (i : ι) : (enqueue st i).instancesWithConstPins = st.instancesWithConstPins := by
  unfold enqueue; split <;> rfl

end Steps

section Constraints
variable [DecidableEq π] {nl : Netlist π ι ρ} {sdc : Sdc π} {pending : π → Prop} {st st' : State π ι} {fuel : Nat}
    {pin : π} {value : LogicValue}

theorem forced_of_not_zeroOne (unknown : value.zeroOne = none) : Forced nl sdc pin value := by
  intro v env _ _ bit known
  rw [unknown] at known
  cases known

theorem forced_constraint (fixed : sdc.constraintValue pin = some value) : Forced nl sdc pin value :=
  fun _ _ sat _ bit known => sat.constraint pin value bit fixed known

theorem Forced.load {load : π} (forced : Forced nl sdc pin value) (drvr : nl.isDriver pin)
    (mem : load ∈ nl.connected pin)
    (isLoad : nl.isLoad load) : Forced nl sdc load value := fun v env sat closed bit known =>
  (sat.load pin load drvr mem isLoad).trans (forced v env sat closed bit known)

variable [DecidableEq ι]

/-- What one call does: nothing, or the pin is set and a leaf input queues its instance, or a driver sets its loads. -/
theorem setPinValue_cases (run : setPinValue nl sdc (fuel + 1) st pin value = some st') :
    (st' = st ∧ ((∃ fixed, sdc.constraintValue pin = some fixed ∧ fixed ≠ value) ∨ nl.hasVertex pin = false ∨
    st.simValue pin = value)) ∨
    ((∀ fixed, sdc.constraintValue pin = some fixed → fixed = value) ∧
      ((nl.isLeafInput pin ∧ st' = enqueue (recordConst (setSimValue st pin value) (nl.inst pin) value) (nl.inst pin)) ∨
       (nl.isLeafInput pin = false ∧ nl.isDriver pin ∧ (nl.connected pin).foldlM
          (fun st pin1 => if pin1 ≠ pin ∧ nl.isLoad pin1 then setPinValue nl sdc fuel st pin1 value else some st)
          (recordConst (setSimValue st pin value) (nl.inst pin) value) = some st') ∨
       (nl.isLeafInput pin = false ∧ st' = recordConst (setSimValue st pin value) (nl.inst pin) value))) := by
  rw [setPinValue] at run
  by_cases differs : (sdc.constraintValue pin).any (· ≠ value)
  · left
    rw [if_pos differs] at run
    cases found : sdc.constraintValue pin with
    | none => simp [found] at differs
    | some fixed => exact ⟨(Option.some.inj run).symm, .inl ⟨fixed, rfl, by simpa [found] using differs⟩⟩
  rw [if_neg differs] at run
  have agrees : ∀ fixed, sdc.constraintValue pin = some fixed → fixed = value := by
    intro fixed found
    simpa [found] using differs
  by_cases changes : nl.hasVertex pin && st.simValue pin ≠ value
  · right
    rw [if_pos changes] at run
    refine ⟨agrees, ?_⟩
    by_cases input : nl.isLeafInput pin
    · left
      simp only [input,if_true] at run
      exact ⟨input, (Option.some.inj run).symm⟩
    have input' : nl.isLeafInput pin = false := by simpa using input
    right
    by_cases drvr : nl.isDriver pin
    · left
      simp only [input',drvr,if_true,Bool.false_eq_true,if_false] at run
      exact ⟨input', drvr, run⟩
    · right
      simp only [input',drvr,Bool.false_eq_true,if_false] at run
      exact ⟨input', (Option.some.inj run).symm⟩
  · left
    rw [if_neg changes] at run
    refine ⟨(Option.some.inj run).symm, .inr ?_⟩
    cases vertex : nl.hasVertex pin with
    | false => exact .inl rfl
    | true => exact .inr (by simpa [vertex] using changes)

theorem SoundOutside.setSimValue (sound : SoundOutside nl sdc pending st) (forced : Forced nl sdc pin value) (i : ι) :
    SoundOutside nl sdc pending (recordConst (setSimValue st pin value) i value) := by
  intro other outside
  simp only [recordConst_simValue,Sim.setSimValue]
  by_cases same : other = pin
  · simpa [same] using forced
  · simpa [same] using sound other outside

theorem SoundOutside.setPinValue (sound : SoundOutside nl sdc pending st)
    (forced : sdc.constraintValue pin = none → Forced nl sdc pin value)
    (run : setPinValue nl sdc fuel st pin value = some st') : SoundOutside nl sdc pending st' := by
  induction fuel generalizing st st' pin with
  | zero => cases run
  | succ fuel ih =>
    rcases setPinValue_cases run with ⟨rfl, _⟩ | ⟨agrees, rest⟩
    · exact sound
    have forced : Forced nl sdc pin value := by
      cases fixed : sdc.constraintValue pin with
      | none => exact forced fixed
      | some found => exact agrees found fixed ▸ forced_constraint fixed
    have here := sound.setSimValue forced (nl.inst pin)
    rcases rest with ⟨_, rfl⟩ | ⟨_, drvr, loads⟩ | ⟨_, rfl⟩
    · intro other outside
      simpa using here other outside
    · refine foldlM_inv here loads ?_
      intro load mem st st' sound run
      split at run
      · next isLoad => exact ih sound (fun _ => forced.load drvr mem isLoad.2) run
      · cases run
        exact sound
    · exact here

theorem Recorded.setSimValue (recorded : Recorded nl st) :
    Recorded nl (recordConst (setSimValue st pin value) (nl.inst pin) value) := by
  constructor
  · intro other known
    simp only [recordConst_simValue,Sim.setSimValue] at known
    unfold recordConst
    by_cases same : other = pin
    · rw [if_pos same] at known
      rw [if_pos known]
      simp [same]
    · rw [if_neg same] at known
      have mem := recorded.insts other known
      split
      · exact List.mem_insert_of_mem mem
      · exact mem
  · simpa [Sim.setSimValue] using recorded.funcs

theorem Recorded.setPinValue (recorded : Recorded nl st) (run : setPinValue nl sdc fuel st pin value = some st') :
    Recorded nl st' := by
  induction fuel generalizing st st' pin with
  | zero => cases run
  | succ fuel ih =>
    have here : Recorded nl (recordConst (Sim.setSimValue st pin value) (nl.inst pin) value) := recorded.setSimValue
    rcases setPinValue_cases run with ⟨rfl, _⟩ | ⟨_, ⟨_, rfl⟩ | ⟨_, _, loads⟩ | ⟨_, rfl⟩⟩
    · exact recorded
    · exact ⟨by simpa using here.insts, by simpa using here.funcs⟩
    · refine foldlM_inv here loads ?_
      intro load _ st st' recorded run
      split at run
      · exact ih recorded run
      · cases run
        exact recorded
    · exact here

theorem setPinValue_leafInput (input : nl.isLeafInput pin) (run : setPinValue nl sdc fuel st pin value = some st') :
    (∀ other, other ≠ pin → st'.simValue other = st.simValue other) ∧
      (sdc.constraintValue pin = none → nl.hasVertex pin → st'.simValue pin = value) := by
  cases fuel with
  | zero => cases run
  | succ fuel =>
    rcases setPinValue_cases run with ⟨rfl, kept⟩ | ⟨_, ⟨_, rfl⟩ | ⟨other, _⟩ | ⟨other, _⟩⟩
    · refine ⟨fun _ _ => rfl, fun free vertex => ?_⟩
      rcases kept with ⟨fixed, found, _⟩ | noVertex | same
      · rw [free] at found
        cases found
      · rw [vertex] at noVertex
        cases noVertex
      · exact same
    · constructor
      · intro other ne
        simp [Sim.setSimValue,ne]
      · intro _ _
        simp [Sim.setSimValue]
    all_goals
      rw [input] at other
      cases other

theorem setPinValue_noVertex (noVertex : nl.hasVertex pin = false)
    (run : setPinValue nl sdc fuel st pin value = some st') :
    st' = st := by
  cases fuel with
  | zero => cases run
  | succ fuel =>
    rw [setPinValue] at run
    simp only [noVertex,Bool.false_and,Bool.false_eq_true,if_false] at run
    split at run <;> exact (Option.some.inj run).symm

end Constraints

section Seeds

variable {nl : Netlist π ι ρ} {sdc : Sdc π} {st st' : State π ι} {fuel : Nat}

theorem leafInput_of_reaches {pin pin1 : π} (reaches : constraintReaches nl pin pin1) : nl.isLeafInput pin1 := by
  simp only [constraintReaches,Bool.and_eq_true] at reaches
  exact reaches.1

variable [DecidableEq π]

theorem forced_reached {pin pin1 : π} {value : LogicValue} (fixed : sdc.constraintValue pin = some value)
    (hier : nl.isHierarchical pin) (mem : pin1 ∈ nl.connected pin) (reaches : constraintReaches nl pin pin1) :
    Forced nl sdc pin1 value := fun _ _ sat _ bit known =>
  (sat.hierarchical pin pin1 hier mem (leafInput_of_reaches reaches)).trans (sat.constraint pin value bit fixed known)

/-- Pins that a case value of a hierarchical pin of `entries` will still set. -/
def Pending (nl : Netlist π ι ρ) (sdc : Sdc π) (entries : List (π × LogicValue)) (pin : π) : Prop :=
  sdc.constraintValue pin = none ∧ nl.hasVertex pin ∧
    ∃ entry ∈ entries, nl.isHierarchical entry.1 ∧ pin ∈ nl.connected entry.1 ∧ constraintReaches nl entry.1 pin

theorem Pending.of_cons {entry : π × LogicValue} {rest : List (π × LogicValue)} {pin : π}
    (pending : Pending nl sdc (entry :: rest) pin) :
    Pending nl sdc rest pin ∨
      (sdc.constraintValue pin = none ∧ nl.hasVertex pin ∧ nl.isHierarchical entry.1 ∧ pin ∈ nl.connected entry.1 ∧
        constraintReaches nl entry.1 pin) := by
  obtain ⟨free, vertex, found, mem, facts⟩ := pending
  rcases List.mem_cons.1 mem with rfl | mem
  · exact .inr ⟨free, vertex, facts⟩
  · exact .inl ⟨free, vertex, found, mem, facts⟩

theorem pinConstFuncValue_forced (pin : π) (isConst : (nl.constFunc pin).isSome) :
    Forced nl sdc pin (pinConstFuncValue nl pin) := by
  intro v env sat _ bit known
  obtain ⟨value, found⟩ := Option.isSome_iff_exists.1 isConst
  refine (sat.constFunc pin value found).trans ?_
  simp only [Netlist.constFunc,Option.bind_eq_some_iff] at found
  obtain ⟨port, atPort, found⟩ := found
  split at found
  · obtain ⟨expr, function, constant⟩ := Option.bind_eq_some_iff.1 found
    simp only [pinConstFuncValue,atPort,Option.bind_some,function,constant] at known
    cases value <;> simpa [LogicValue.zeroOne] using known
  · cases found

theorem ensureConstantFuncPins_incremental (nl : Netlist π ι ρ) (st : State π ι) :
    (ensureConstantFuncPins nl st).incremental = st.incremental := by
  unfold Sim.ensureConstantFuncPins
  split
  · rfl
  have folded : ∀ (pins : List π) (st : State π ι), (pins.foldl (recordConstPinFunc nl) st).incremental =
    st.incremental := by
    intro pins
    induction pins with
    | nil => exact fun _ => rfl
    | cons pin rest ih =>
      intro st
      refine (ih _).trans ?_
      unfold recordConstPinFunc
      split <;> rfl
  exact folded _ st

theorem Recorded.ensureConstantFuncPins (recorded : Recorded nl st) : Recorded nl (ensureConstantFuncPins nl st) := by
  unfold Sim.ensureConstantFuncPins
  split
  · exact recorded
  have folded : ∀ (pins : List π) (st : State π ι), Recorded nl st →
    Recorded nl (pins.foldl (recordConstPinFunc nl) st) := by
    intro pins
    induction pins with
    | nil => exact fun _ recorded => recorded
    | cons pin rest ih =>
      intro st recorded
      refine ih _ ?_
      unfold recordConstPinFunc
      split
      · next isConst =>
        refine ⟨recorded.insts, fun other mem => ?_⟩
        rcases List.mem_insert_iff.1 mem with rfl | mem
        · exact isConst
        · exact recorded.funcs other mem
      · exact recorded
  have done := folded (nl.leafInsts.flatMap nl.pins) st recorded
  exact ⟨done.insts, done.funcs⟩

variable [DecidableEq ι]

theorem clearSimValues_sound (sdc : Sdc π) (recorded : Recorded nl st) (pending : π → Prop) :
    SoundOutside nl sdc pending (clearSimValues nl st) ∧ Recorded nl (clearSimValues nl st) := by
  have cleared : ∀ pin, logicValueZeroOne ((clearSimValues nl st).simValue pin) = false := by
    intro pin
    simp only [clearSimValues]
    split
    · rfl
    · next unmarked => simpa using fun known => unmarked (recorded.insts pin known)
  refine ⟨fun pin _ => forced_of_not_zeroOne ?_, fun pin known => ?_, recorded.funcs⟩
  · cases known : ((clearSimValues nl st).simValue pin).zeroOne with
    | none => rfl
    | some bit =>
      have := cleared pin
      rw [logicValueZeroOne_of_zeroOne known] at this
      cases this
  · rw [cleared pin] at known
    cases known

/-- Until the case values come, a logic value may stand on a pin that a case value of the same hierarchical pin sets. -/
theorem logicValue_step {entry : π × LogicValue} (mem : entry ∈ sdc.logicValues.entries)
    (sound : SoundOutside nl sdc (Pending nl sdc sdc.caseLogicValues.entries) st)
    (run : setConstraintConstPin nl sdc fuel st entry = some st') :
    SoundOutside nl sdc (Pending nl sdc sdc.caseLogicValues.entries) st' := by
  obtain ⟨pin, value⟩ := entry
  unfold setConstraintConstPin at run
  split at run
  · next hier =>
    refine foldlM_inv sound run ?_
    intro pin1 conn st st' sound run
    split at run
    · next reaches =>
      rcases sdc.constraintValue_logic mem with fixed | ⟨case, caseMem⟩
      · exact sound.setPinValue (fun _ => forced_reached fixed hier conn reaches) run
      -- the case value is still to come
      by_cases free : sdc.constraintValue pin1 = none ∧ nl.hasVertex pin1
      · intro other outside
        have ne : other ≠ pin1 := by
          rintro rfl
          exact outside ⟨free.1, free.2, (pin, case), caseMem, hier, conn, reaches⟩
        rw [(setPinValue_leafInput (leafInput_of_reaches reaches) run).1 other ne]
        exact sound other outside
      by_cases vertex : nl.hasVertex pin1
      · exact sound.setPinValue (fun unconstrained => absurd ⟨unconstrained, vertex⟩ free) run
      · rw [setPinValue_noVertex (by simpa using vertex) run]
        exact sound
    · cases run
      exact sound
  · refine sound.setPinValue (fun unconstrained => ?_) run
    rcases sdc.constraintValue_logic mem with fixed | ⟨case, caseMem⟩
    · simp [unconstrained] at fixed
    · have fixed := sdc.constraintValue_case caseMem
      simp [unconstrained] at fixed

theorem caseValue_step {entry : π × LogicValue} {rest : List (π × LogicValue)}
    (mem : entry ∈ sdc.caseLogicValues.entries) (sound : SoundOutside nl sdc (Pending nl sdc (entry :: rest)) st)
    (run : setConstraintConstPin nl sdc fuel st entry = some st') : SoundOutside nl sdc (Pending nl sdc rest) st' := by
  obtain ⟨pin, value⟩ := entry
  have fixed := sdc.constraintValue_case mem
  unfold setConstraintConstPin at run
  split at run
  · next hier =>
    let Left (pins : List π) (other : π) : Prop :=
      Pending nl sdc rest other ∨
        (sdc.constraintValue other = none ∧ nl.hasVertex other ∧ constraintReaches nl pin other ∧ other ∈ pins)
    have start : (∀ pin1 ∈ nl.connected pin, pin1 ∈ nl.connected pin) ∧
      SoundOutside nl sdc (Left (nl.connected pin)) st := by
      refine ⟨fun _ mem => mem, fun other outside => sound other fun pending => outside ?_⟩
      rcases pending.of_cons with later | ⟨free, vertex, _, conn, reaches⟩
      · exact .inl later
      · exact .inr ⟨free, vertex, reaches, conn⟩
    have done := foldlM_rest (fun pins st => (∀ pin1 ∈ pins, pin1 ∈ nl.connected pin) ∧
      SoundOutside nl sdc (Left pins) st)
      (fun pin1 pins st st' ⟨sub, sound⟩ run => ?_) start run
    · intro other outside
      refine done.2 other fun left => ?_
      rcases left with later | ⟨_, _, _, none⟩
      · exact outside later
      · cases none
    · refine ⟨fun pin2 mem => sub pin2 (List.mem_cons_of_mem _ mem), fun other outside => ?_⟩
      have conn := sub pin1 List.mem_cons_self
      split at run
      · next reaches =>
        have forced := forced_reached fixed hier conn reaches
        by_cases here : Left (pin1 :: pins) other
        · have same : other = pin1 := by
            rcases here with later | ⟨free, vertex, reaches, mem⟩
            · exact absurd (.inl later) outside
            · rcases List.mem_cons.1 mem with same | mem
              · exact same
              · exact absurd (.inr ⟨free, vertex, reaches, mem⟩) outside
          subst same
          rcases here with later | ⟨free, vertex, _, _⟩
          · exact absurd (.inl later) outside
          rw [(setPinValue_leafInput (leafInput_of_reaches reaches) run).2 free vertex]
          exact forced
        · exact sound.setPinValue (fun _ => forced) run other here
      · next unreached =>
        cases run
        refine sound other fun left => ?_
        rcases left with later | ⟨free, vertex, reaches, mem⟩
        · exact outside (.inl later)
        · rcases List.mem_cons.1 mem with rfl | mem
          · exact unreached reaches
          · exact outside (.inr ⟨free, vertex, reaches, mem⟩)
  · next hier =>
    have sound : SoundOutside nl sdc (Pending nl sdc rest) st := by
      intro other outside
      refine sound other fun pending => ?_
      rcases pending.of_cons with later | ⟨_, _, hier', _⟩
      · exact outside later
      · exact hier hier'
    exact sound.setPinValue (fun unconstrained => by simp [unconstrained] at fixed) run

theorem enqueueConstantPinInputs_sound {pending : π → Prop} (sound : SoundOutside nl sdc pending st)
    (run : enqueueConstantPinInputs nl sdc fuel st = some st') : SoundOutside nl sdc pending st' := by
  refine foldlM_inv sound run ?_
  intro entry mem st st' sound run
  exact sound.setPinValue (fun _ v env sat _ bit known => sat.constant entry.1 entry.2 bit mem known) run

theorem logicValues_sound (sound : SoundOutside nl sdc (Pending nl sdc sdc.caseLogicValues.entries) st)
    (run : setConstraintConstPins nl sdc fuel st sdc.logicValues = some st') :
    SoundOutside nl sdc (Pending nl sdc sdc.caseLogicValues.entries) st' :=
  foldlM_inv sound run fun _ mem _ _ sound run => logicValue_step mem sound run

theorem caseLogicValues_sound (sound : SoundOutside nl sdc (Pending nl sdc sdc.caseLogicValues.entries) st)
    (run : setConstraintConstPins nl sdc fuel st sdc.caseLogicValues = some st') : Sound nl sdc st' := by
  have done := foldlM_rest
    (fun rest st => (∀ entry ∈ rest, entry ∈ sdc.caseLogicValues.entries) ∧
      SoundOutside nl sdc (Pending nl sdc rest) st)
    (fun entry rest st st' ⟨sub, sound⟩ run => ⟨fun other mem => sub other (List.mem_cons_of_mem _ mem),
      caseValue_step (sub entry List.mem_cons_self) sound run⟩)
    ⟨fun _ mem => mem, sound⟩ run
  intro pin _
  refine done.2 pin ?_
  rintro ⟨_, _, entry, mem, _⟩
  cases mem

theorem setConstFuncPins_sound (sound : Sound nl sdc st) (funcs : ∀ pin ∈ st.constFuncPins, (nl.constFunc pin).isSome)
    (run : setConstFuncPins nl sdc fuel st = some st') : Sound nl sdc st' := by
  refine foldlM_inv sound run ?_
  intro pin mem st st' sound run
  exact sound.setPinValue (fun _ => pinConstFuncValue_forced pin (funcs pin mem)) run

theorem Recorded.setConstraintConstPins {map : LogicValueMap π} (recorded : Recorded nl st)
    (run : setConstraintConstPins nl sdc fuel st map = some st') : Recorded nl st' := by
  refine foldlM_inv recorded run ?_
  intro entry _ st st' recorded run
  unfold setConstraintConstPin at run
  split at run
  · refine foldlM_inv recorded run ?_
    intro pin _ st st' recorded run
    split at run
    · exact recorded.setPinValue run
    · cases run
      exact recorded
  · exact recorded.setPinValue run

theorem Recorded.enqueueConstantPinInputs (recorded : Recorded nl st)
    (run : enqueueConstantPinInputs nl sdc fuel st = some st') : Recorded nl st' :=
  foldlM_inv recorded run fun _ _ _ _ recorded run => recorded.setPinValue run

theorem Recorded.setConstFuncPins (recorded : Recorded nl st) (run : setConstFuncPins nl sdc fuel st = some st') :
    Recorded nl st' :=
  foldlM_inv recorded run fun _ _ _ _ recorded run => recorded.setPinValue run

theorem seedFull_sound (recorded : Recorded nl st) (run : seedFull nl sdc fuel st = some st') : Sound nl sdc st' ∧
    Recorded nl st' := by
  simp only [seedFull,seedConstants,Option.bind_eq_bind,Option.bind_eq_some_iff] at run
  obtain ⟨st₁, constants, st₂, logic, st₃, cases, funcs⟩ := run
  obtain ⟨sound, recorded⟩ := clearSimValues_sound sdc recorded (Pending nl sdc sdc.caseLogicValues.entries)
  have recorded := ((recorded.enqueueConstantPinInputs constants).setConstraintConstPins logic).setConstraintConstPins
    cases
  have sound := caseLogicValues_sound (logicValues_sound (enqueueConstantPinInputs_sound sound constants) logic) cases
  exact ⟨setConstFuncPins_sound sound recorded.funcs funcs, recorded.setConstFuncPins funcs⟩

end Seeds

section Evaluation

variable [DecidableEq π] [DecidableEq ρ] {nl : Netlist π ι ρ} {sdc : Sdc π} {st st' : State π ι} {fuel : Nat} {i : ι}
    {v : π → Bool} {env : ι → ρ → Bool}

theorem known_sound (sound : Sound nl sdc st) (sat : nl.Satisfies sdc v env) (closed : nl.GatesClosed v) (port : ρ)
    (bit : Bool) (found : known nl st i port = some bit) : env i port = bit := by
  obtain ⟨pin, mem, value⟩ := List.exists_of_findSome?_eq_some found
  split at value
  · next atPort =>
    have here := sat.port pin port atPort
    rw [(nl.mem_pins pin i).1 mem] at here
    exact here.trans (sound pin id v env sat closed bit value)
  · cases value

theorem evalExpr_sound (sound : Sound nl sdc st) (sat : nl.Satisfies sdc v env) (closed : nl.GatesClosed v)
    (expr : FuncExpr ρ)
    (bit : Bool) (known : (evalExpr nl st expr i).zeroOne = some bit) : expr.eval (env i) = bit := by
  have agree : ∀ port bit, Sim.known nl st i port = some bit → env i port = bit := known_sound sound sat closed
  unfold evalExpr at known
  split at known
  · next constant =>
    cases known
    exact FuncExpr.eval_of_isConstant constant agree
  · split at known
    · next constant =>
      cases known
      exact FuncExpr.eval_of_isConstant constant agree
    · cases known

theorem outputValue_forced (sound : Sound nl sdc st) {pin : π} {port : ρ} (atPort : nl.libertyPort pin = some port)
    (output : (nl.portDirection port).isAnyOutput) : Forced nl sdc pin (outputValue nl st port (nl.inst pin)) := by
  intro v env sat closed bit known
  unfold outputValue at known
  cases function : nl.function port with
  | some expr =>
    cases tristate : nl.tristateEnable port with
    | some enable =>
      simp only [function,tristate] at known
      split at known
      · next enabled =>
        have on : enable.eval (env (nl.inst pin)) = true :=
          evalExpr_sound sound sat closed enable true (by rw [enabled]; rfl)
        have value := evalExpr_sound sound sat closed expr bit known
        rw [← value]
        exact sat.output pin port expr atPort output function (by simpa [tristate] using on)
      · cases known
    | none =>
      simp only [function,tristate] at known
      rw [← evalExpr_sound sound sat closed expr bit known]
      exact sat.output pin port expr atPort output function (by simp [tristate])
  | none =>
    simp only [function] at known
    split at known
    · next gate =>
      unfold clockGateOutValue at known
      split at known
      · next off =>
        cases known
        obtain ⟨gatePort, mem, gated⟩ := List.any_eq_true.1 off
        obtain ⟨role, found⟩ := Bool.and_eq_true_iff.1 gated
        cases at_ : nl.findPin (nl.inst pin) gatePort with
        | none => simp [at_] at found
        | some gatePin =>
          have zero : st.simValue gatePin = .zero := by simpa [at_] using found
          have low := sound gatePin id v env sat closed false (by rw [zero]; rfl)
          exact closed pin port atPort output function gate gatePort mem role gatePin at_ low
      · cases known
    · cases known

variable [DecidableEq ι]

theorem evalInstance_sound (sound : Sound nl sdc st) (run : evalInstance nl sdc fuel st i = some st') :
    Sound nl sdc st' := by
  refine foldlM_inv sound run ?_
  intro pin mem st st' sound run
  have here : nl.inst pin = i := (nl.mem_pins pin i).1 mem
  subst here
  unfold evalPin at run
  cases atPort : nl.libertyPort pin with
  | none =>
    simp only [atPort] at run
    cases run
    exact sound
  | some port =>
    simp only [atPort] at run
    split at run
    · next output => exact sound.setPinValue (fun _ => outputValue_forced sound atPort output.1) run
    · cases run
      exact sound

theorem Recorded.evalInstance (recorded : Recorded nl st) (run : evalInstance nl sdc fuel st i = some st') :
    Recorded nl st' := by
  refine foldlM_inv recorded run ?_
  intro pin _ st st' recorded run
  unfold evalPin at run
  split at run
  · split at run
    · exact recorded.setPinValue run
    · cases run
      exact recorded
  · cases run
    exact recorded

/-- The queue may hold anything: evaluating an instance keeps the values sound. -/
theorem propagateConstants_sound (sound : Sound nl sdc st) (recorded : Recorded nl st)
    (run : propagateConstants nl sdc fuel st = some st') : Sound nl sdc st' ∧ Recorded nl st' := by
  induction fuel generalizing st with
  | zero => cases run
  | succ fuel ih =>
    rw [propagateConstants] at run
    cases queue : st.evalQueue with
    | nil =>
      simp only [queue,Option.some.injEq] at run
      exact run ▸ ⟨sound, recorded⟩
    | cons i rest =>
      simp only [queue] at run
      obtain ⟨next, eval, tail⟩ := Option.bind_eq_some_iff.1 run
      have popped : Recorded nl { st with evalQueue := rest } := ⟨recorded.insts, recorded.funcs⟩
      have poppedSound : Sound nl sdc { st with evalQueue := rest } := sound
      exact ih (evalInstance_sound poppedSound eval) (popped.evalInstance eval) tail

/-- A propagation from nothing leaves every value sound and every constant recorded for the next one. -/
theorem fullPropagation_sound (recorded : Recorded nl st) (invalid : st.valid = false) (full : st.incremental = false)
    (run : ensureConstantsPropagated nl sdc fuel st = some st') : Sound nl sdc st' ∧ Recorded nl st' := by
  have funcs := recorded.ensureConstantFuncPins
  have stillFull : (ensureConstantFuncPins nl st).incremental = false :=
    (ensureConstantFuncPins_incremental nl st).trans full
  simp only [ensureConstantsPropagated,invalid,stillFull,Bool.false_eq_true,if_false,Option.bind_eq_bind,
    Option.bind_eq_some_iff,Option.some.injEq] at run
  obtain ⟨seeded, seed, done, propagate, rfl⟩ := run
  obtain ⟨sound, recorded⟩ := seedFull_sound funcs seed
  have cleared : Recorded nl { seeded with invalidInsts := [] } := ⟨recorded.insts, recorded.funcs⟩
  have clearedSound : Sound nl sdc { seeded with invalidInsts := [] } := sound
  obtain ⟨sound, recorded⟩ := propagateConstants_sound clearedSound cleared propagate
  exact ⟨sound, recorded.insts, recorded.funcs⟩

end Evaluation

section Runs

variable {nl : Netlist π ι ρ} {sdc : Sdc π} {st st' : State π ι} {fuel : Nat}

theorem Recorded.initial : Recorded nl (State.initial : State π ι) where
  insts _ known := by cases known
  funcs _ mem := by cases mem

variable [DecidableEq π] [DecidableEq ι] [DecidableEq ρ]

/-- A value zero or one of a leaf pin after a full propagation is the value of the pin in every valuation. -/
theorem ensureConstantsPropagated_sound (nl : Netlist π ι ρ) (sdc : Sdc π) (fuel : Nat) (st st' : State π ι)
    (recorded : Recorded nl st) (invalid : st.valid = false) (full : st.incremental = false)
    (run : ensureConstantsPropagated nl sdc fuel st = some st')
    (v : π → Bool) (env : ι → ρ → Bool) (sat : nl.Satisfies sdc v env) (closed : nl.GatesClosed v) (pin : π)
    (leaf : nl.isLeaf (nl.inst pin)) (bit : Bool) (known : (logicValue nl st' pin).zeroOne = some bit) :
    v pin = bit := by
  have sound := (fullPropagation_sound recorded invalid full run).1
  unfold logicValue at known
  split at known
  · exact sound pin id v env sat closed bit known
  · simp [Netlist.isHierarchical,leaf,LogicValue.zeroOne] at known

end Runs

section ClockGate

inductive GatePin where
  | clk
  | en
  | gclk
  deriving DecidableEq

def GatePin.direction : GatePin → PortDirection
  | .gclk => .output
  | _ => .input

theorem GatePin.mem_all (pin : GatePin) (i : Unit) : pin ∈ [GatePin.clk, .en, .gclk] ↔ () = i := by cases pin <;> simp

/-- One clock gate whose output has no function. -/
def clockGate : Netlist GatePin Unit GatePin where
  inst := fun _ => ()
  pins := fun _ => [.clk, .en, .gclk]
  mem_pins := GatePin.mem_all
  leafInsts := [()]
  isLeaf := fun _ => true
  isTop := fun _ => false
  direction := GatePin.direction
  libertyPort := some
  cellPorts := fun _ => [.clk, .en, .gclk]
  findPin := fun _ port => some port
  portDirection := GatePin.direction
  function := fun _ => none
  tristateEnable := fun _ => none
  isClockGateOut := fun port => port = .gclk
  isClockGateClock := fun port => port = .clk
  isClockGateEnable := fun port => port = .en
  hasVertex := fun _ => true
  connected := fun pin => [pin]
  drivers := fun _ => []
  isInside := fun _ _ => false
  tied := fun _ => none
  constantPins := []

def clockLow : Sdc GatePin where
  logicValues := ⟨[], List.nodup_nil⟩
  caseLogicValues := ⟨[(GatePin.clk, .zero)], List.nodup_singleton GatePin.clk⟩

theorem clockGate_satisfies (v : GatePin → Bool) (low : v .clk = false) :
    clockGate.Satisfies clockLow v fun _ => v where
  port := by
    rintro pin port ⟨⟩
    rfl
  constraint := by
    intro pin value bit fixed known
    cases pin with
    | clk =>
      cases fixed
      cases known
      exact low
    | en => cases fixed
    | gclk => cases fixed
  constant := by simp [clockGate]
  load := by
    intro drvr load _ mem _
    rw [List.mem_singleton.1 mem]
  hierarchical := by simp [clockGate,Netlist.isHierarchical]
  constFunc := by simp [clockGate,Netlist.constFunc]
  output := by simp [clockGate]

theorem ensureConstantsPropagated_clockGate :
    ∃ st', ensureConstantsPropagated clockGate clockLow 4 State.initial = some st' ∧
    logicValue clockGate st' .gclk = .zero ∧
      (fun _ : GatePin => false) .gclk = false :=
  ⟨_, rfl, rfl, ensureConstantsPropagated_sound clockGate clockLow 4 State.initial _ Recorded.initial rfl rfl rfl
    (fun _ => false)
    (fun _ _ => false) (clockGate_satisfies _ rfl) (by intro _ _ _ _ _ _ _ _ _ _ _ _; rfl) .gclk rfl false rfl⟩

/-- No function forces the output of the gate, and yet it becomes zero. -/
theorem ensureConstantsPropagated_unforced :
    ∃ st', ensureConstantsPropagated clockGate clockLow 4 State.initial = some st' ∧
      (logicValue clockGate st' .gclk).zeroOne = some false ∧
        ∃ v env, clockGate.Satisfies clockLow v env ∧ v .gclk = true :=
  ⟨_, rfl, rfl, fun pin => pin = .gclk, _, clockGate_satisfies _ rfl, rfl⟩

end ClockGate
end GTPower.Sim
