import GTPower.SdcExceptions

/-! The steps of a reset: an expansion that is dropped looks its pins up, and the iterator has to be at a recorded
exception. -/
namespace GTPower.PathDelays

section Results
variable {α β : Type}

theorem lookUp_ok_iff {found : Option α} {a : α} : lookUp found = .ok a ↔ found = some a := by
  cases found with
  | none => simp [lookUp]
  | some b => simp [lookUp]

theorem bind_ok_iff {first : Except SdcFault α} {rest : α → Except SdcFault β} {b : β} :
    first >>= rest = .ok b ↔ ∃ a, first = .ok a ∧ rest a = .ok b := by
  cases first with
  | error fault => exact iff_of_false nofun fun ⟨_, ok, _⟩ => nomatch ok
  | ok a => exact ⟨fun run => ⟨a, rfl, run⟩, fun ⟨_, same, run⟩ => Except.ok.inj same ▸ run⟩

theorem foldlM_inv {σ : Type} (inv : σ → Prop) {f : σ → β → Option σ} {l : List β}
    (step : ∀ x ∈ l, ∀ st st', inv st → f st x = some st' → inv st') {st st' : σ} (start : inv st)
    (run : l.foldlM f st = some st') :
    inv st' := by
  induction l generalizing st with
  | nil =>
    obtain rfl := Option.some.inj run
    exact start
  | cons x rest ih =>
    rw [List.foldlM_cons] at run
    obtain ⟨next, here, run⟩ := Option.bind_eq_some_iff.mp run
    exact ih (fun y mem => step y (List.mem_cons_of_mem _ mem)) (step x (List.mem_cons_self ..) st next start here) run

theorem foldlM_exists {σ : Type} (inv : σ → Prop) {f : σ → β → Option σ} {l : List β}
    (step : ∀ x ∈ l, ∀ st, inv st → ∃ st', f st x = some st' ∧ inv st') {st : σ} (start : inv st) :
    ∃ st', l.foldlM f st = some st' ∧ inv st' := by
  induction l generalizing st with
  | nil => exact ⟨st, rfl, start⟩
  | cons x rest ih =>
    obtain ⟨next, here, inv'⟩ := step x (List.mem_cons_self ..) st start
    obtain ⟨st', run, inv''⟩ := ih (fun y mem => step y (List.mem_cons_of_mem _ mem)) inv'
    refine ⟨st', ?_, inv''⟩
    rw [List.foldlM_cons,here]
    exact run

theorem foldlM_isSome_iff {σ : Type} {f : σ → β → Option σ} (kept : σ → Prop) {found : β → Prop}
    (step : ∀ st b, kept st → ((f st b).isSome ↔ found b)) (keeps : ∀ st b st', kept st → f st b = some st' → kept st')
    {l : List β} {st : σ} (here : kept st) : (l.foldlM f st).isSome ↔ ∀ b ∈ l, found b := by
  induction l generalizing st with
  | nil => simp
  | cons b rest ih =>
    rw [List.foldlM_cons,List.forall_mem_cons,← step st b here]
    cases first : f st b with
    | none => simp
    | some st₁ => simp [ih (keeps st b st₁ here first)]

end Results

section Pins
variable {network : Network} {st st' : State}

theorem unrecordStartpoint_kept {pin : ℕ} (run : st.unrecordStartpoint network pin = some st') :
    ∃ left, st' = { st with internalStartpoints := left } := by
  unfold State.unrecordStartpoint at run
  split at run
  · obtain ⟨isDelay, -, rfl⟩ := Option.map_eq_some_iff.1 run
    cases isDelay
    · exact ⟨_, rfl⟩
    · exact ⟨st.internalStartpoints, rfl⟩
  · exact ⟨st.internalStartpoints, (Option.some.inj run).symm⟩

theorem unrecordEndpoint_kept {pin : ℕ} (run : st.unrecordEndpoint network pin = some st') :
    ∃ left, st' = { st with internalEndpoints := left } := by
  unfold State.unrecordEndpoint at run
  split at run
  · obtain ⟨isDelay, -, rfl⟩ := Option.map_eq_some_iff.1 run
    cases isDelay
    · exact ⟨_, rfl⟩
    · exact ⟨st.internalEndpoints, rfl⟩
  · exact ⟨st.internalEndpoints, (Option.some.inj run).symm⟩

theorem unrecordStartpoints_kept {fromPt : Option ExceptionPt}
    (run : st.unrecordPathDelayInternalStartpoints network fromPt = some st') :
    ∃ left, st' = { st with internalStartpoints := left } := by
  have same : ∃ left, st = { st with internalStartpoints := left } := ⟨st.internalStartpoints, rfl⟩
  unfold State.unrecordPathDelayInternalStartpoints at run
  split at run
  · split at run
    · refine foldlM_inv (fun other => ∃ left, other = { st with internalStartpoints := left }) ?_ same run
      rintro pin - _ st₂ ⟨left, rfl⟩ first
      obtain ⟨left', rfl⟩ := unrecordStartpoint_kept first
      exact ⟨left', rfl⟩
    · rwa [← Option.some.inj run]
  · rwa [← Option.some.inj run]

theorem unrecordEndpoints_kept {exception : ExceptionPath}
    (run : st.unrecordPathDelayInternalEndpoints network exception = some st') :
    ∃ left, st' = { st with internalEndpoints := left } := by
  have same : ∃ left, st = { st with internalEndpoints := left } := ⟨st.internalEndpoints, rfl⟩
  unfold State.unrecordPathDelayInternalEndpoints at run
  split at run
  · split at run
    · refine foldlM_inv (fun other => ∃ left, other = { st with internalEndpoints := left }) ?_ same run
      rintro pin - _ st₂ ⟨left, rfl⟩ first
      obtain ⟨left', rfl⟩ := unrecordEndpoint_kept first
      exact ⟨left', rfl⟩
    · rwa [← Option.some.inj run]
  · rwa [← Option.some.inj run]

/-- The pins of an expansion that are looked up have a set, of exceptions that are not deleted. -/
structure PinsFound (network : Network) (st : State) (expand : ExceptionPath) : Prop where
  fromPt : ∀ pt, expand.fromPt = some pt → st.internalStartpoints ≠ ∅ → ∀ pin ∈ setKeys pt.pins,
    network.internalStartpoint pin = true → (st.pathDelayFrom pin).isSome
  toPt : ∀ pt, expand.toPt = some pt → st.internalEndpoints ≠ ∅ → ∀ pin ∈ setKeys pt.pins,
    network.internalEndpoint pin = true → (st.pathDelayTo pin).isSome

theorem unrecordStartpoint_isSome_iff (pin : ℕ) :
    (st.unrecordStartpoint network pin).isSome ↔
    (network.internalStartpoint pin = true → (st.pathDelayFrom pin).isSome) := by
  unfold State.unrecordStartpoint
  split
  · next isInternal => simp [isInternal]
  · next not => simp [not]

theorem unrecordEndpoint_isSome_iff (pin : ℕ) :
    (st.unrecordEndpoint network pin).isSome ↔ (network.internalEndpoint pin = true → (st.pathDelayTo pin).isSome) := by
  unfold State.unrecordEndpoint
  split
  · next isInternal => simp [isInternal]
  · next not => simp [not]

/-- The pins of the from point are looked up where there are internal startpoints. -/
theorem unrecordStartpoints_isSome_iff (fromPt : Option ExceptionPt) :
    (st.unrecordPathDelayInternalStartpoints network fromPt).isSome ↔
    ∀ pt, fromPt = some pt → st.internalStartpoints ≠ ∅ → ∀ pin ∈ setKeys pt.pins,
      network.internalStartpoint pin = true → (st.pathDelayFrom pin).isSome := by
  unfold State.unrecordPathDelayInternalStartpoints
  cases fromPt with
  | none => simp
  | some pt =>
    have same : ∃ left, st = { st with internalStartpoints := left } := ⟨st.internalStartpoints, rfl⟩
    have pins : ((setKeys pt.pins).sort.foldlM (State.unrecordStartpoint network) st).isSome ↔
        ∀ pin ∈ (setKeys pt.pins).sort, network.internalStartpoint pin = true → (st.pathDelayFrom pin).isSome := by
      refine foldlM_isSome_iff (fun other => ∃ left, other = { st with internalStartpoints := left }) ?_ ?_ same
      · rintro _ pin ⟨left, rfl⟩
        exact unrecordStartpoint_isSome_iff pin
      · rintro _ pin st₂ ⟨left, rfl⟩ first
        obtain ⟨left', rfl⟩ := unrecordStartpoint_kept first
        exact ⟨left', rfl⟩
    simp only [Finset.mem_sort] at pins
    by_cases filled : st.internalStartpoints = ∅
    · simp [filled]
    · by_cases hasPins : setKeys pt.pins = ∅
      · simp [ExceptionPt.hasPins,hasPins]
      · simp [ExceptionPt.hasPins,hasPins,filled,pins]

theorem unrecordEndpoints_isSome_iff (exception : ExceptionPath) :
    (st.unrecordPathDelayInternalEndpoints network exception).isSome ↔
    ∀ pt, exception.toPt = some pt → st.internalEndpoints ≠ ∅ → ∀ pin ∈ setKeys pt.pins,
      network.internalEndpoint pin = true → (st.pathDelayTo pin).isSome := by
  unfold State.unrecordPathDelayInternalEndpoints
  cases exception.toPt with
  | none => simp
  | some pt =>
    have same : ∃ left, st = { st with internalEndpoints := left } := ⟨st.internalEndpoints, rfl⟩
    have pins : ((setKeys pt.pins).sort.foldlM (State.unrecordEndpoint network) st).isSome ↔
        ∀ pin ∈ (setKeys pt.pins).sort, network.internalEndpoint pin = true → (st.pathDelayTo pin).isSome := by
      refine foldlM_isSome_iff (fun other => ∃ left, other = { st with internalEndpoints := left }) ?_ ?_ same
      · rintro _ pin ⟨left, rfl⟩
        exact unrecordEndpoint_isSome_iff pin
      · rintro _ pin st₂ ⟨left, rfl⟩ first
        obtain ⟨left', rfl⟩ := unrecordEndpoint_kept first
        exact ⟨left', rfl⟩
    simp only [Finset.mem_sort] at pins
    by_cases filled : st.internalEndpoints = ∅
    · simp [filled]
    · by_cases hasPins : setKeys pt.pins = ∅
      · simp [ExceptionPt.hasPins,hasPins]
      · simp [ExceptionPt.hasPins,hasPins,filled,pins]

end Pins

section Steps
variable {alloc : Allocator} {edges : ThruEdges} {network : Network} {fuel : ℕ} {request : ResetRequest}
    {st st' start : State}
  {expand match' : ExceptionPath} {address : ℕ}

/-- An expansion that is reset meets no missing set and no deleted exception if and only if all its pins are found. -/
theorem resetExpansion_ok_iff (resets : expand.Resets request = true) :
    (∃ st', st.resetExpansion alloc edges network fuel request expand = .ok st') ↔ PinsFound network st expand := by
  have both : PinsFound network st expand ↔ (st.unrecordPathDelayInternalStartpoints network expand.fromPt).isSome ∧
      (st.unrecordPathDelayInternalEndpoints network expand).isSome := by
    rw [unrecordStartpoints_isSome_iff,unrecordEndpoints_isSome_iff]
    exact ⟨fun found => ⟨found.fromPt, found.toPt⟩, fun found => ⟨found.1, found.2⟩⟩
  have run (st' : State) : st.resetExpansion alloc edges network fuel request expand = .ok st' ↔
      ∃ left, st.unrecordPathDelayInternalStartpoints network expand.fromPt = some left ∧
        left.unrecordPathDelayInternalEndpoints network expand = some st' := by
    unfold State.resetExpansion
    rw [if_pos resets,bind_ok_iff]
    simp only [lookUp_ok_iff]
  simp only [run,both]
  cases first : st.unrecordPathDelayInternalStartpoints network expand.fromPt with
  | none => simp
  | some st₁ =>
    obtain ⟨left, rfl⟩ := unrecordStartpoints_kept first
    -- the endpoints do not depend on the internal startpoints
    have ends : ({ st with internalStartpoints := left : State }.unrecordPathDelayInternalEndpoints network
      expand).isSome ↔
        (st.unrecordPathDelayInternalEndpoints network expand).isSome := by
      rw [unrecordEndpoints_isSome_iff,unrecordEndpoints_isSome_iff]
      exact Iff.rfl
    simpa [Option.isSome_iff_exists] using ends

theorem resetExpansion_reset (resets : expand.Resets request = true)
    (run : st.resetExpansion alloc edges network fuel request expand = .ok st') : st'.sdc = st.sdc := by
  unfold State.resetExpansion at run
  rw [if_pos resets,bind_ok_iff] at run
  obtain ⟨st₁, first, second⟩ := run
  obtain ⟨left, rfl⟩ := unrecordStartpoints_kept (lookUp_ok_iff.1 first)
  obtain ⟨left', rfl⟩ := unrecordEndpoints_kept (lookUp_ok_iff.1 second)
  rfl

/-- The pins of each expansion that is dropped are found, and each one that is added again fits the state it comes
to. -/
def ExpansionsFit (alloc : Allocator) (edges : ThruEdges) (network : Network) (fuel : ℕ) (request : ResetRequest)
    (fits : State → ExceptionPath → Prop) : List ExceptionPath → State → Prop
  | [], _ => True
  | expand :: rest, st => (if expand.Resets request then PinsFound network st expand else fits st expand) ∧
      ∀ st', st.resetExpansion alloc edges network fuel request expand = .ok st' →
        ExpansionsFit alloc edges network fuel request fits rest st'

/-- Places of the iterator with the states there. -/
inductive Reaches (alloc : Allocator) (edges : ThruEdges) (network : Network) (fuel : ℕ) (request : ResetRequest)
    (start : State) :
    Option ℕ → State → Prop
  | start : Reaches alloc edges network fuel request start (leastAddress start.sdc.exceptions) start
  | step {address : ℕ} {st st' : State} {match' : ExceptionPath}
    (reaches : Reaches alloc edges network fuel request start (some address) st)
      (mem : address ∈ st.sdc.exceptions) (here : st.sdc.paths address = some match')
      (reset : st.resetException alloc edges network fuel request address match' = .ok st') :
      Reaches alloc edges network fuel request start (st.next address) st'

theorem Reaches.alone {iter : Option ℕ} (first : leastAddress start.sdc.exceptions = some address)
    (last : start.next address = none)
    (reaches : Reaches alloc edges network fuel request start iter st) : iter = none ∨ iter = some address ∧
    st = start := by
  induction reaches with
  | start => exact .inr ⟨first, rfl⟩
  | step _ _ _ _ ih =>
    left
    rcases ih with none | ⟨same, rfl⟩
    · cases none
    · rw [Option.some.inj same,last]

end Steps
end GTPower.PathDelays
