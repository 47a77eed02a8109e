import GTPower.SimSound
import Mathlib.Data.Fintype.Card
import Mathlib.Data.Finset.Card
import Mathlib.Logic.Function.Iterate

/-! When the propagation of constants ends. Every pin that changes queues at most one instance, so only pins that change
again and again keep the propagation going. Outputs of registers take the value of their data where it goes through
registers. -/

namespace GTPower.Sim

section Source
variable {π ι ρ : Type*}

/-- The data of a register, and its inverted output. -/
structure Sequential (ρ : Type*) where
  data : FuncExpr ρ
  outputInv : Option ρ

def logicNot : LogicValue → LogicValue
  | .zero => .one
  | .one => .zero
  | _ => .unknown

def exprPort : FuncExpr ρ → Option ρ
  | .port r => some r
  | _ => none

variable [DecidableEq π] [DecidableEq ι] [DecidableEq ρ] (nl : Netlist π ι ρ) (sdc : Sdc π) (outputPortSequential : ρ →
    Option (Sequential ρ))
  (thruSequentials : Bool)

/-- The register of an output, if the propagation goes through it. -/
def exprSequential (expr : FuncExpr ρ) : Option (Sequential ρ) :=
  if thruSequentials then (exprPort expr).bind outputPortSequential else none

def outputValueThru (st : State π ι) (port : ρ) (i : ι) : LogicValue :=
  match nl.function port with
  | some expr =>
    match nl.tristateEnable port with
    | some triEnExpr => if evalExpr nl st triEnExpr i = .one then evalExpr nl st expr i else .unknown
    | none =>
      match exprSequential outputPortSequential thruSequentials expr with
      | some sequential =>
        if exprPort expr = sequential.outputInv then logicNot (evalExpr nl st sequential.data i)
          else evalExpr nl st sequential.data i
      | none => evalExpr nl st expr i
  | none => if nl.isClockGateOut port then clockGateOutValue nl st i else .unknown

def evalPinThru (fuel : ℕ) (i : ι) (st : State π ι) (pin : π) : Option (State π ι) :=
  match nl.libertyPort pin with
  | some port =>
    if (nl.portDirection port).isAnyOutput ∧ outputValueThru nl outputPortSequential thruSequentials st port i ≠
      st.simValue pin then
      setPinValue nl sdc fuel st pin (outputValueThru nl outputPortSequential thruSequentials st port i)
    else some st
  | none => some st

def evalInstanceThru (fuel : ℕ) (st : State π ι) (i : ι) : Option (State π ι) :=
  (nl.pins i).foldlM (evalPinThru nl sdc outputPortSequential thruSequentials fuel i) st

def propagateConstantsThru : ℕ → State π ι → Option (State π ι)
  | 0, _ => none
  | fuel + 1, st =>
    match st.evalQueue with
    | [] => some st
    | i :: rest =>
      (evalInstanceThru nl sdc outputPortSequential thruSequentials fuel { st with evalQueue := rest } i).bind
        (propagateConstantsThru fuel)

end Source

section Meaning
variable {π ι ρ : Type*} [DecidableEq π] [DecidableEq ι] [DecidableEq ρ]

def Fills (st st' : State π ι) : Prop := ∀ pin, st.simValue pin ≠ .unknown → st'.simValue pin = st.simValue pin

variable (nl : Netlist π ι ρ) (sdc : Sdc π) (outputPortSequential : ρ → Option (Sequential ρ)) (thruSequentials : Bool)

/-- One output after the other changes only pins that have no value. -/
def OutputsFill (fuel : ℕ) (i : ι) : State π ι → List π → Prop
  | _, [] => True
  | st, pin :: pins => ∀ st', evalPinThru nl sdc outputPortSequential thruSequentials fuel i st pin = some st' →
      Fills st st' ∧ OutputsFill fuel i st' pins

variable [Fintype π]

/-- Evaluates the first instance of the queue. -/
def evalNext (st : State π ι) : State π ι :=
  match st.evalQueue with
  | [] => st
  | i :: rest =>
    (evalInstanceThru nl sdc outputPortSequential thruSequentials (Fintype.card π + 1) { st with
      evalQueue := rest } i).getD st

/-- The evaluation of the first instance of the queue changes only pins that have no value. -/
def EvalFills (st : State π ι) : Prop :=
  match st.evalQueue with
  | [] => True
  | i :: rest => OutputsFill nl sdc outputPortSequential thruSequentials (Fintype.card π + 1) i
    { st with evalQueue := rest } (nl.pins i)

end Meaning

section Values
variable {π ι ρ : Type*} [DecidableEq π] [DecidableEq ι] {nl : Netlist π ι ρ} {sdc : Sdc π} {st st' st'' : State π ι}
  {fuel : ℕ} {pin : π} {value : LogicValue}

def others [Fintype π] (st : State π ι) (value : LogicValue) : Finset π :=
  Finset.univ.filter fun pin => st.simValue pin ≠ value

theorem simValue_assign (st : State π ι) (pin : π) (value : LogicValue) (i : ι) (other : π) :
    (recordConst (setSimValue st pin value) i value).simValue other = if other = pin then value
    else st.simValue other := by
  rw [recordConst_simValue]
  rfl

omit [DecidableEq π] in
@[simp] theorem recordConst_evalQueue (i : ι) : (recordConst st i value).evalQueue = st.evalQueue := by
  unfold recordConst
  split <;> rfl

omit [DecidableEq π] in
theorem length_enqueue (st : State π ι) (i : ι) : (enqueue st i).evalQueue.length ≤ st.evalQueue.length + 1 := by
  unfold enqueue
  split
  · exact Nat.le_succ _
  · simp

theorem foldlM_congr {σ α : Type*} {f g : σ → α → Option σ} {items : List α} {st st' : σ}
    (run : items.foldlM f st = some st')
    (step : ∀ a ∈ items, ∀ before after, f before a = some after → g before a = some after) :
    items.foldlM g st = some st' := by
  induction items generalizing st with
  | nil => exact run
  | cons a items ih =>
    rw [List.foldlM_cons] at run ⊢
    obtain ⟨next, first, rest⟩ := Option.bind_eq_some_iff.1 run
    rw [step a List.mem_cons_self st next first]
    exact ih rest fun b mem => step b (List.mem_cons_of_mem _ mem)

theorem setPinValue_mono {fuel' : ℕ} (more : fuel ≤ fuel') (run : setPinValue nl sdc fuel st pin value = some st') :
    setPinValue nl sdc fuel' st pin value = some st' := by
  induction fuel generalizing fuel' st st' pin with
  | zero => cases run
  | succ fuel ih =>
    obtain ⟨fuel', rfl⟩ : ∃ more, fuel' = more + 1 := ⟨fuel' - 1, by omega⟩
    rw [setPinValue] at run ⊢
    split
    · rename_i fixed
      rw [if_pos fixed] at run
      exact run
    · rename_i free
      rw [if_neg free] at run
      split
      · rename_i changes
        rw [if_pos changes] at run
        simp only at run ⊢
        split
        · rename_i input
          rw [if_pos input] at run
          exact run
        · rename_i notInput
          rw [if_neg notInput] at run
          split
          · rename_i drvr
            rw [if_pos drvr] at run
            apply foldlM_congr run
            intro load mem before after step
            by_cases isLoad : load ≠ pin ∧ nl.isLoad load
            · rw [if_pos isLoad] at step ⊢
              exact ih (by omega) step
            · rw [if_neg isLoad] at step ⊢
              exact step
          · rename_i notDrvr
            rw [if_neg notDrvr] at run
            exact run
      · rename_i same
        rw [if_neg same] at run
        exact run

/-- Pins change to the value only, and each one that does queues at most one instance. -/
structure Toward [Fintype π] (value : LogicValue) (st st' : State π ι) : Prop where
  values : ∀ pin, st'.simValue pin = st.simValue pin ∨ st'.simValue pin = value
  queue : (others st' value).card + st'.evalQueue.length ≤ (others st value).card + st.evalQueue.length

variable [Fintype π]

omit [DecidableEq π] [DecidableEq ι] in
theorem Toward.refl (value : LogicValue) (st : State π ι) : Toward value st st := ⟨fun _ => .inl rfl, le_rfl⟩

omit [DecidableEq π] [DecidableEq ι] in
theorem Toward.trans (toward : Toward value st st') (toward' : Toward value st' st'') : Toward value st st'' where
  values := by
    intro pin
    rcases toward'.values pin with same | set
    · rw [same]
      exact toward.values pin
    · exact .inr set
  queue := toward'.queue.trans toward.queue

omit [DecidableEq π] [DecidableEq ι] in
theorem Toward.others_subset (toward : Toward value st st') : others st' value ⊆ others st value := by
  intro pin mem
  rw [others,Finset.mem_filter_univ] at mem ⊢
  intro set
  rcases toward.values pin with same | set'
  · exact mem (same.trans set)
  · exact mem set'

theorem others_assign (st : State π ι) (pin : π) (value : LogicValue) (i : ι) :
    others (recordConst (setSimValue st pin value) i value) value = (others st value).erase pin := by
  ext other
  rw [others,others,Finset.mem_filter_univ,Finset.mem_erase,Finset.mem_filter_univ,simValue_assign]
  by_cases here : other = pin <;> simp [here]

theorem card_others_assign (changes : st.simValue pin ≠ value) (i : ι) :
    (others (recordConst (setSimValue st pin value) i value) value).card + 1 = (others st value).card := by
  rw [others_assign]
  apply Finset.card_erase_add_one
  rw [others,Finset.mem_filter_univ]
  exact changes

theorem toward_assign (changes : st.simValue pin ≠ value) (i : ι) :
    Toward value st (recordConst (setSimValue st pin value) i value) where
  values := by
    intro other
    rw [simValue_assign]
    by_cases here : other = pin
    · rw [if_pos here]
      exact .inr rfl
    · rw [if_neg here]
      exact .inl rfl
  queue := by
    have less := card_others_assign changes i
    rw [recordConst_evalQueue]
    change _ + st.evalQueue.length ≤ _
    omega

theorem toward_enqueue (changes : st.simValue pin ≠ value) (i : ι) :
    Toward value st (enqueue (recordConst (setSimValue st pin value) i value) i) where
  values := by
    intro other
    rw [enqueue_simValue]
    exact (toward_assign changes i).values other
  queue := by
    have less := card_others_assign changes i
    have longer := length_enqueue (recordConst (setSimValue st pin value) i value) i
    have same : others (enqueue (recordConst (setSimValue st pin value) i value) i) value =
        others (recordConst (setSimValue st pin value) i value) value := by
      unfold others
      rw [enqueue_simValue]
    rw [same]
    rw [recordConst_evalQueue] at longer
    change _ ≤ st.evalQueue.length + 1 at longer
    omega

theorem setPinValue_toward (run : setPinValue nl sdc fuel st pin value = some st') : Toward value st st' := by
  induction fuel generalizing st st' pin with
  | zero => cases run
  | succ fuel ih =>
    by_cases changes : st.simValue pin ≠ value
    · rcases setPinValue_cases run with ⟨rfl, -⟩ | ⟨-, input | ⟨-, -, loads⟩ | plain⟩
      · exact .refl value st'
      · rw [input.2]
        exact toward_enqueue changes _
      · apply (toward_assign changes (nl.inst pin)).trans
        apply foldlM_inv (P := Toward value (recordConst (setSimValue st pin value) (nl.inst pin) value))
          (.refl value _) loads
        intro load mem before after toward step
        split at step
        · exact toward.trans (ih step)
        · cases step
          exact toward
      · rw [plain.2]
        exact toward_assign changes _
    · rw [setPinValue] at run
      have same : (nl.hasVertex pin && decide (st.simValue pin ≠ value)) = false := by simp [not_not.1 changes]
      rw [same] at run
      simp only [Bool.false_eq_true,if_false,ite_self,Option.some.injEq] at run
      rw [run]
      exact .refl value st'

def unknowns (st : State π ι) : Finset π := Finset.univ.filter fun pin => st.simValue pin = .unknown

omit [DecidableEq π] [DecidableEq ι] in
theorem Fills.unknowns_subset (fills : Fills st st') : unknowns st' ⊆ unknowns st := by
  intro pin mem
  rw [unknowns,Finset.mem_filter_univ] at mem ⊢
  by_contra known
  exact known ((fills pin known).symm.trans mem)

omit [DecidableEq ι] in
theorem Toward.sdiff_unknowns (toward : Toward value st st') (fills : Fills st st') (known : value ≠ .unknown) :
    unknowns st \ unknowns st' = others st value \ others st' value := by
  ext pin
  simp only [unknowns,others,Finset.mem_sdiff,Finset.mem_filter_univ,not_not]
  constructor
  · rintro ⟨unset, set⟩
    rcases toward.values pin with same | given
    · exact absurd (same.trans unset) set
    · exact ⟨fun is => known (is.symm.trans unset), given⟩
  · rintro ⟨other, given⟩
    have unset : st.simValue pin = .unknown := by
      by_contra set
      exact other ((fills pin set).symm.trans given)
    exact ⟨unset, fun is => known (given.symm.trans is)⟩

omit [DecidableEq ι] in
/-- A call that changes only pins without a value queues at most one instance for each of them. -/
theorem Toward.queue_le (toward : Toward value st st') (fills : Fills st st') :
    (unknowns st').card + st'.evalQueue.length ≤ (unknowns st).card + st.evalQueue.length := by
  have queue := toward.queue
  by_cases known : value = .unknown
  · have same : st'.simValue = st.simValue := by
      funext pin
      by_cases unset : st.simValue pin = .unknown
      · rcases toward.values pin with same | given
        · exact same
        · rw [given,known,unset]
      · exact fills pin unset
    unfold others at queue
    unfold unknowns
    rw [same] at queue ⊢
    omega
  · have changed := congrArg Finset.card (toward.sdiff_unknowns fills known)
    rw [Finset.card_sdiff_of_subset fills.unknowns_subset,Finset.card_sdiff_of_subset toward.others_subset] at changed
    have fewer := Finset.card_le_card fills.unknowns_subset
    have fewer' := Finset.card_le_card toward.others_subset
    omega

theorem setPinValue_isSome (enough : (others st value).card < fuel) :
    (setPinValue nl sdc fuel st pin value).isSome := by
  induction fuel generalizing st pin with
  | zero => exact absurd enough (Nat.not_lt_zero _)
  | succ fuel ih =>
    rw [setPinValue]
    split
    · rfl
    · split
      · rename_i changes
        simp only [Bool.and_eq_true,decide_eq_true_eq] at changes
        have less := card_others_assign changes.2 (nl.inst pin)
        simp only
        split
        · rfl
        · split
          · have all : ∀ (loads : List π) (st₁ : State π ι), (others st₁ value).card < fuel →
              (loads.foldlM (fun st pin1 =>
                if pin1 ≠ pin ∧ nl.isLoad pin1 then setPinValue nl sdc fuel st pin1 value else some st)
                  st₁).isSome := by
              intro loads
              induction loads with
              | nil => exact fun _ _ => rfl
              | cons load loads ihLoads =>
                intro st₁ enough
                rw [List.foldlM_cons]
                by_cases isLoad : load ≠ pin ∧ nl.isLoad load
                · have total : (setPinValue nl sdc fuel st₁ load value).isSome := ih enough
                  obtain ⟨st₂, run⟩ := Option.isSome_iff_exists.1 total
                  have fewer := Finset.card_le_card (setPinValue_toward run).others_subset
                  simp only [if_pos isLoad,run]
                  exact ihLoads st₂ (by omega)
                · simp only [if_neg isLoad]
                  exact ihLoads st₁ enough
            exact all _ _ (by omega)
          · rfl
      · rfl

end Values

section Ends
variable {π ι ρ : Type*} [DecidableEq π] [DecidableEq ι] [DecidableEq ρ] {nl : Netlist π ι ρ} {sdc : Sdc π}
  {outputPortSequential : ρ → Option (Sequential ρ)} {thruSequentials : Bool} {st st' : State π ι} {fuel fuel' : ℕ}
    {i : ι} {pins : List π}

theorem evalPinThru_mono (more : fuel ≤ fuel') {pin : π}
    (run : evalPinThru nl sdc outputPortSequential thruSequentials fuel i st pin = some st') :
    evalPinThru nl sdc outputPortSequential thruSequentials fuel' i st pin = some st' := by
  unfold evalPinThru at run ⊢
  cases port : nl.libertyPort pin with
  | none =>
    rw [port] at run
    exact run
  | some port' =>
    rw [port] at run
    simp only at run ⊢
    split
    · rename_i changes
      rw [if_pos changes] at run
      exact setPinValue_mono more run
    · rename_i same
      rw [if_neg same] at run
      exact run

theorem evalInstanceThru_mono (more : fuel ≤ fuel')
    (run : evalInstanceThru nl sdc outputPortSequential thruSequentials fuel st i = some st') :
    evalInstanceThru nl sdc outputPortSequential thruSequentials fuel' st i = some st' :=
  foldlM_congr run fun _ _ _ _ step => evalPinThru_mono more step

theorem evalPinThru_output {pin : π} {port : ρ} {value : LogicValue} (atPort : nl.libertyPort pin = some port)
    (output : (nl.portDirection port).isAnyOutput)
    (evaluates : outputValueThru nl outputPortSequential thruSequentials st port i = value)
    (changes : st.simValue pin ≠ value) :
    evalPinThru nl sdc outputPortSequential thruSequentials fuel i st pin = setPinValue nl sdc fuel st pin value := by
  unfold evalPinThru
  rw [atPort]
  simp only
  rw [evaluates,if_pos ⟨output, Ne.symm changes⟩]

theorem evalPinThru_input {pin : π} {port : ρ} (atPort : nl.libertyPort pin = some port)
    (input : (nl.portDirection port).isAnyOutput = false) :
    evalPinThru nl sdc outputPortSequential thruSequentials fuel i st pin = some st := by
  unfold evalPinThru
  rw [atPort]
  simp [input]

variable [Fintype π]

theorem evalPinThru_isSome (enough : Fintype.card π < fuel) (pin : π) :
    (evalPinThru nl sdc outputPortSequential thruSequentials fuel i st pin).isSome := by
  unfold evalPinThru
  cases nl.libertyPort pin with
  | none => rfl
  | some port =>
    simp only
    split
    · exact setPinValue_isSome (Nat.lt_of_le_of_lt (Finset.card_le_univ _) enough)
    · rfl

theorem evalInstanceThru_isSome (enough : Fintype.card π < fuel) :
    (evalInstanceThru nl sdc outputPortSequential thruSequentials fuel st i).isSome := by
  unfold evalInstanceThru
  generalize nl.pins i = pins
  induction pins generalizing st with
  | nil => rfl
  | cons pin pins ih =>
    have total : (evalPinThru nl sdc outputPortSequential thruSequentials fuel i st pin).isSome :=
      evalPinThru_isSome enough pin
    obtain ⟨st', run⟩ := Option.isSome_iff_exists.1 total
    rw [List.foldlM_cons,run]
    exact ih

/-- One output after the other fills pins, and queues no more instances than that. -/
theorem OutputsFill.queue_le (fills : OutputsFill nl sdc outputPortSequential thruSequentials fuel i st pins)
    (run : pins.foldlM (evalPinThru nl sdc outputPortSequential thruSequentials fuel i) st = some st') :
    (unknowns st').card + st'.evalQueue.length ≤ (unknowns st).card + st.evalQueue.length := by
  induction pins generalizing st with
  | nil =>
    cases run
    exact le_rfl
  | cons pin pins ih =>
    rw [List.foldlM_cons] at run
    obtain ⟨next, first, rest⟩ := Option.bind_eq_some_iff.1 run
    obtain ⟨here, later⟩ := fills next first
    have step : (unknowns next).card + next.evalQueue.length ≤ (unknowns st).card + st.evalQueue.length := by
      unfold evalPinThru at first
      split at first
      · split at first
        · exact (setPinValue_toward first).queue_le here
        · cases first
          exact le_rfl
      · cases first
        exact le_rfl
    exact (ih later rest).trans step

theorem evalNext_nil (empty : st.evalQueue = []) : evalNext nl sdc outputPortSequential thruSequentials st = st := by
  unfold evalNext
  rw [empty]

theorem evalNext_cons {rest : List ι} (queue : st.evalQueue = i :: rest) :
    evalInstanceThru nl sdc outputPortSequential thruSequentials (Fintype.card π + 1) { st with evalQueue := rest } i =
      some (evalNext nl sdc outputPortSequential thruSequentials st) := by
  have total : (evalInstanceThru nl sdc outputPortSequential thruSequentials (Fintype.card π + 1) { st with
    evalQueue := rest } i).isSome :=
    evalInstanceThru_isSome (Nat.lt_succ_self _)
  obtain ⟨st', run⟩ := Option.isSome_iff_exists.1 total
  unfold evalNext
  rw [queue]
  simp only [run,Option.getD_some]

theorem EvalFills.measure_lt (fills : EvalFills nl sdc outputPortSequential thruSequentials st)
    (more : st.evalQueue ≠ []) :
    (unknowns (evalNext nl sdc outputPortSequential thruSequentials st)).card +
        (evalNext nl sdc outputPortSequential thruSequentials st).evalQueue.length < (unknowns st).card +
          st.evalQueue.length := by
  cases queue : st.evalQueue with
  | nil => exact absurd queue more
  | cons i rest =>
    unfold EvalFills at fills
    rw [queue] at fills
    have popped := fills.queue_le (evalNext_cons queue)
    change _ ≤ (unknowns st).card + rest.length at popped
    rw [List.length_cons]
    omega

theorem evalNext_iterate_nil (empty : st.evalQueue = []) (count : ℕ) :
    (evalNext nl sdc outputPortSequential thruSequentials)^[count] st = st :=
  Function.iterate_fixed (evalNext_nil empty) count

/-- As many evaluations that fill pins are enough as there are pins without a value and instances in the queue. -/
theorem evalQueue_eq_nil {bound : ℕ} (enough : (unknowns st).card + st.evalQueue.length ≤ bound)
    (fills : ∀ count, EvalFills nl sdc outputPortSequential thruSequentials
      ((evalNext nl sdc outputPortSequential thruSequentials)^[count] st)) :
    ((evalNext nl sdc outputPortSequential thruSequentials)^[bound] st).evalQueue = [] := by
  induction bound generalizing st with
  | zero =>
    have empty : st.evalQueue.length = 0 := by omega
    exact List.length_eq_zero_iff.1 empty
  | succ bound ih =>
    by_cases more : st.evalQueue = []
    · rw [evalNext_iterate_nil more]
      exact more
    · have less := (fills 0).measure_lt more
      rw [Function.iterate_zero,id] at less
      rw [Function.iterate_succ_apply]
      apply ih (by omega)
      intro count
      rw [← Function.iterate_succ_apply]
      exact fills (count + 1)

/-- The loop ends with some fuel when the queue is empty after some evaluations. -/
theorem propagateConstantsThru_isSome_iff :
    (∃ fuel, (propagateConstantsThru nl sdc outputPortSequential thruSequentials fuel st).isSome) ↔
    ∃ count, ((evalNext nl sdc outputPortSequential thruSequentials)^[count] st).evalQueue = [] := by
  constructor
  · rintro ⟨fuel, ends⟩
    induction fuel generalizing st with
    | zero => cases ends
    | succ fuel ih =>
      rw [propagateConstantsThru] at ends
      cases queue : st.evalQueue with
      | nil => exact ⟨0, queue⟩
      | cons i rest =>
        rw [queue] at ends
        obtain ⟨after, ends⟩ := Option.isSome_iff_exists.1 ends
        obtain ⟨next, first, rest'⟩ := Option.bind_eq_some_iff.1 ends
        have same : next = evalNext nl sdc outputPortSequential thruSequentials st := by
          have most := evalInstanceThru_mono (Nat.le_max_left fuel (Fintype.card π + 1)) first
          rw [evalInstanceThru_mono (Nat.le_max_right fuel (Fintype.card π + 1)) (evalNext_cons queue)] at most
          exact (Option.some.inj most).symm
        obtain ⟨count, empty⟩ := ih (by rw [rest']; rfl)
        refine ⟨count + 1, ?_⟩
        rw [Function.iterate_succ_apply,← same]
        exact empty
  · rintro ⟨count, empty⟩
    refine ⟨count + Fintype.card π + 2, ?_⟩
    induction count generalizing st with
    | zero =>
      rw [Function.iterate_zero,id] at empty
      rw [propagateConstantsThru,empty]
      rfl
    | succ count ih =>
      rw [Function.iterate_succ_apply] at empty
      have ends := ih empty
      rw [propagateConstantsThru]
      cases queue : st.evalQueue with
      | nil => rfl
      | cons i rest =>
        simp only
        rw [evalInstanceThru_mono (by omega) (evalNext_cons queue),Option.bind_some]
        have same : count + 1 + Fintype.card π + 1 = count + Fintype.card π + 2 := by omega
        rw [same]
        exact ends

/-- The propagation of constants ends exactly where from some evaluation on no output that is evaluated changes a pin
that has a value. -/
theorem propagateConstants_ends_iff (nl : Netlist π ι ρ) (sdc : Sdc π)
    (outputPortSequential : ρ → Option (Sequential ρ)) (thruSequentials : Bool) (st : State π ι) :
    (∃ fuel, (propagateConstantsThru nl sdc outputPortSequential thruSequentials fuel st).isSome) ↔
      ∃ first, ∀ count, first ≤ count →
        EvalFills nl sdc outputPortSequential thruSequentials
          ((evalNext nl sdc outputPortSequential thruSequentials)^[count] st) := by
  rw [propagateConstantsThru_isSome_iff]
  constructor
  · rintro ⟨first, empty⟩
    refine ⟨first, ?_⟩
    intro count later
    obtain ⟨more, rfl⟩ := Nat.exists_eq_add_of_le' later
    rw [Function.iterate_add_apply,evalNext_iterate_nil empty]
    unfold EvalFills
    rw [empty]
    trivial
  · rintro ⟨first, fills⟩
    generalize last : (evalNext nl sdc outputPortSequential thruSequentials)^[first] st = st₁
    have later : ∀ count, EvalFills nl sdc outputPortSequential thruSequentials
      ((evalNext nl sdc outputPortSequential thruSequentials)^[count] st₁) := by
      intro count
      rw [← last,← Function.iterate_add_apply]
      exact fills _ (Nat.le_add_left ..)
    have empty := evalQueue_eq_nil le_rfl later
    refine ⟨(unknowns st₁).card + st₁.evalQueue.length + first, ?_⟩
    rw [Function.iterate_add_apply,last]
    exact empty

end Ends

section Ring

inductive RingPin where
  | a
  | y
  | z
  deriving DecidableEq

instance : Fintype RingPin := ⟨{.a, .y, .z}, by intro pin; cases pin <;> decide⟩

inductive RingInst where
  | inverter
  | tieLow
  deriving DecidableEq

def RingPin.inst : RingPin → RingInst
  | .z => .tieLow
  | _ => .inverter

def RingPin.direction : RingPin → PortDirection
  | .a => .input
  | _ => .output

def RingInst.pins : RingInst → List RingPin
  | .inverter => [.a, .y]
  | .tieLow => [.z]

def RingPin.function : RingPin → Option (FuncExpr RingPin)
  | .a => none
  | .y => some (.not (.port .a))
  | .z => some .zero

/-- An inverter drives its own input, and so does a cell that ties low. -/
def inverterRing : Netlist RingPin RingInst RingPin where
  inst := RingPin.inst
  pins := RingInst.pins
  mem_pins := by
    intro pin i
    cases pin <;> cases i <;> decide
  leafInsts := [.inverter, .tieLow]
  isLeaf := fun _ => true
  isTop := fun _ => false
  direction := RingPin.direction
  libertyPort := some
  cellPorts := RingInst.pins
  findPin := fun i port => if port.inst = i then some port else none
  portDirection := RingPin.direction
  function := RingPin.function
  tristateEnable := fun _ => none
  isClockGateOut := fun _ => false
  isClockGateClock := fun _ => false
  isClockGateEnable := fun _ => false
  hasVertex := fun _ => true
  connected := fun _ => [.a, .y, .z]
  drivers := fun _ => [.y, .z]
  isInside := fun _ _ => false
  tied := fun _ => none
  constantPins := []

def unconstrained : Sdc RingPin where
  logicValues := ⟨[], List.nodup_nil⟩
  caseLogicValues := ⟨[], List.nodup_nil⟩

/-- The inverter is queued, and its output is not what its input says. -/
structure Turning (value : LogicValue) (st : State RingPin RingInst) : Prop where
  queue : st.evalQueue = [.inverter]
  known : value = .zero ∨ value = .one
  input : st.simValue .a = value
  output : st.simValue .y ≠ logicNot value

/-- The state after the input and the output have turned. -/
def turned (st : State RingPin RingInst) (value : LogicValue) : State RingPin RingInst :=
  enqueue (recordConst (setSimValue (recordConst (setSimValue st .y value) .inverter value) .a value) .inverter value)
    .inverter

theorem setPinValue_ringInput (st : State RingPin RingInst) {value : LogicValue} (changes : st.simValue .a ≠ value)
    (fuel : ℕ) :
    setPinValue inverterRing unconstrained (fuel + 1) st .a value =
      some (enqueue (recordConst (setSimValue st .a value) .inverter value) .inverter) := by
  simp [setPinValue,unconstrained,Sdc.constraintValue,LogicValueMap.findKey,inverterRing,Netlist.isLeafInput,
    RingPin.inst,
    RingPin.direction,PortDirection.isAnyInput,changes]

theorem setPinValue_ringOutput (st : State RingPin RingInst) {value : LogicValue} (output : st.simValue .y ≠ value)
    (input : st.simValue .a ≠ value) (fuel : ℕ) : setPinValue inverterRing unconstrained (fuel + 2) st .y value =
    some (turned st value) := by
  have input' : (recordConst (setSimValue st .y value) .inverter value).simValue .a ≠ value := by
    rw [simValue_assign]
    exact input
  rw [setPinValue]
  simp [unconstrained,Sdc.constraintValue,LogicValueMap.findKey,inverterRing,Netlist.isLeafInput,Netlist.isDriver,
    Netlist.isLoad,
    RingPin.inst,RingPin.direction,PortDirection.isAnyInput,PortDirection.isAnyOutput,PortDirection.isUnknown,output]
  exact setPinValue_ringInput _ input' fuel

theorem outputValueThru_ring {value : LogicValue} {st : State RingPin RingInst} (known : value = .zero ∨ value = .one)
    (input : st.simValue .a = value) : outputValueThru inverterRing (fun _ => none) false st .y .inverter =
    logicNot value := by
  rcases known with rfl | rfl <;>
    simp [outputValueThru,exprSequential,inverterRing,RingPin.function,evalExpr,FuncExpr.isConstant,FuncExpr.ports,
      FuncExpr.eval,
      FuncExpr.substitute,Sim.known,RingInst.pins,input,LogicValue.zeroOne,logicNot]

theorem Turning.evalNext {value : LogicValue} {st : State RingPin RingInst} (turning : Turning value st) :
    Turning (logicNot value) (evalNext inverterRing unconstrained (fun _ => none) false st) := by
  obtain ⟨queue, known, input, output⟩ := turning
  have next : evalInstanceThru inverterRing unconstrained (fun _ => none) false 4
    { st with evalQueue := [] } .inverter =
      some (GTPower.Sim.evalNext inverterRing unconstrained (fun _ => none) false st) := evalNext_cons queue
  have empty : ({ st with evalQueue := [] } : State RingPin RingInst).evalQueue = [] := rfl
  generalize popped : ({ st with evalQueue := [] } : State RingPin RingInst) = st₁ at next empty
  have input₁ : st₁.simValue .a = value := by rw [← popped]; exact input
  have output₁ : st₁.simValue .y ≠ logicNot value := by rw [← popped]; exact output
  have turns : st₁.simValue .a ≠ logicNot value := by
    rw [input₁]
    rcases known with rfl | rfl <;> decide
  have run : evalInstanceThru inverterRing unconstrained (fun _ => none) false 4 st₁ .inverter =
    some (turned st₁ (logicNot value)) := by
    have pins : inverterRing.pins .inverter = [.a, .y] := rfl
    unfold evalInstanceThru
    rw [pins,List.foldlM_cons,evalPinThru_input rfl rfl,Option.bind_eq_bind,Option.bind_some,List.foldlM_cons,
      evalPinThru_output rfl rfl (outputValueThru_ring known input₁) output₁,setPinValue_ringOutput _ output₁ turns]
    rfl
  rw [← Option.some.inj (run.symm.trans next)]
  refine ⟨?_, ?_, ?_, ?_⟩
  · unfold turned enqueue
    simp [setSimValue,empty]
  · rcases known with rfl | rfl <;> simp [logicNot]
  · rw [turned,enqueue_simValue,simValue_assign]
    rfl
  · rw [turned,enqueue_simValue,simValue_assign,if_neg (by decide),simValue_assign,if_pos rfl]
    rcases known with rfl | rfl <;> decide

/-- The constant of the tied net turns around for ever. -/
theorem inverterRing_never_ends :
    ∃ st, seedFull inverterRing unconstrained 3 (ensureConstantFuncPins inverterRing State.initial) = some st ∧
    ¬∃ fuel, (propagateConstantsThru inverterRing unconstrained (fun _ => none) false fuel st).isSome := by
  refine ⟨_, rfl, ?_⟩
  rw [propagateConstantsThru_isSome_iff]
  have turns : ∀ count value st, Turning value st →
    ((evalNext inverterRing unconstrained (fun _ => none) false)^[count] st).evalQueue ≠ [] := by
    intro count
    induction count with
    | zero =>
      intro value st turning empty
      rw [Function.iterate_zero,id,turning.queue] at empty
      cases empty
    | succ count ih =>
      intro value st turning
      rw [Function.iterate_succ_apply]
      exact ih _ _ turning.evalNext
  rintro ⟨count, ends⟩
  exact turns count .zero _ ⟨rfl, .inl rfl, rfl, by decide⟩ ends

end Ring

end GTPower.Sim
