import GTPower.ResetTuples

/-! Runs of a reset: where every exception that is reset has all its combinations visited, and the ones that are added
again override and move nothing, the exceptions cover what they did but for what is reset. -/
namespace GTPower.PathDelays

section Conditions
variable (alloc : Allocator) (edges : ThruEdges) (network : Network) (fuel : ℕ) (request : ResetRequest)

def Ahead (next : Option ℕ) (address : ℕ) : Prop := ∃ here, next = some here ∧ here ≤ address

/-- Every merge of the loop fits, moves nothing that is reset to where the iterator does not come, and does not delete
the exception the iterator is at. -/
inductive MergesKeep (next : Option ℕ) : Sdc → ℕ → Prop
  | done {sdc : Sdc} {address : ℕ} (none : sdc.mergeOnce address = none) : MergesKeep next sdc address
  | merge {sdc sdc' : Sdc} {address other : ℕ} (merged : sdc.mergeOnce address = some (sdc', other))
      (fits : ∀ exception missing match', sdc.Merge address exception missing other match' →
        exception.MergeFits match' missing ∧ (exception.Resets request = true → Ahead next other))
      (stays : next ≠ some address) (rest : MergesKeep next sdc' other) : MergesKeep next sdc address

/-- Adding an expansion overrides no exception, and merges keep what is reset ahead. -/
structure AddFits (next : Option ℕ) (sdc : Sdc) (expand : ExceptionPath) : Prop where
  overridesNone : (expand.type.isMultiCycle || expand.type.isPathDelay) = true →
    sdc.findMatchingExceptions expand = some ∅
  merges : MergesKeep request next (sdc.recordException (alloc.address sdc) expand) (alloc.address sdc)

/-- Every combination of the exception is visited once, and a copy that is added again is of its kind and fits. -/
structure ExceptionFits (st : State) (address : ℕ) (match' : ExceptionPath) : Prop where
  expandable : ExceptionPath.Expandable edges match'
  copies : ∀ expand ∈ match'.expandException edges, expand.Resets request ≠ true → match'.type ≠ .loop
  expansions : ExpansionsFit alloc edges network fuel request (fun st' expand =>
    AddFits alloc request (st.next address) st'.sdc expand)
    (alloc.order (st.sdc.deleteException address match') (match'.expandException edges))
      { st with sdc := st.sdc.deleteException address match' }

/-- Every exception that is reset fits where the iterator comes to it. -/
def Fits (start : State) : Prop :=
  ∀ address st match', Reaches alloc edges network fuel request start (some address) st →
    st.sdc.paths address = some match' →
    match'.Resets request = true → ExceptionFits alloc edges network fuel request st address match'

/-- With enough rounds the loop ends, and the exceptions cover what they did but for what the request covers. -/
def ResetsExactly (start : State) : Prop :=
  ∃ enough st', (∀ rounds ≥ enough, start.resetPath alloc edges network fuel request rounds = .ok st') ∧
    st'.sdc.covered = start.sdc.covered \ { tuple | request.Covers tuple }

end Conditions

section Merging
variable {request : ResetRequest} {next : Option ℕ} {sdc sdc' : Sdc} {address other : ℕ}

def matching (request : ResetRequest) (sdc : Sdc) : Finset ℕ :=
  sdc.exceptions.filter fun address => (sdc.paths address).any fun exception => exception.Resets request

theorem mem_matching : address ∈ matching request sdc ↔
    address ∈ sdc.exceptions ∧ ∃ exception, sdc.paths address = some exception ∧ exception.Resets request = true := by
  rw [matching,Finset.mem_filter,Option.any_eq_true]

/-- The iterator is at a recorded exception, and comes to all that are reset. -/
structure LoopInv (request : ResetRequest) (next : Option ℕ) (sdc : Sdc) : Prop where
  recorded : sdc.Recorded
  typed : ∀ address ∈ sdc.exceptions, ∀ exception, sdc.paths address = some exception → exception.Typed
  ahead : ∀ address ∈ matching request sdc, Ahead next address
  isAt : ∀ address, next = some address → address ∈ sdc.exceptions

theorem mergePt_typed {exception match' : ExceptionPath} (typed : exception.Typed) (typed' : match'.Typed)
    (missing : PtPos) :
    (match'.mergePt exception missing).Typed := by
  have keys {pt into : Option (Finset ℕ)} (empty : setKeys pt = ∅) (empty' : setKeys into = ∅) :
    setKeys (addKeys pt into) = ∅ := by
    rw [setKeys_addKeys,empty,empty',Finset.empty_union]
  cases missing with
  | fromPt =>
    refine ⟨fun pt here => ?_, typed'.thrus, typed'.toPt, typed'.minMax⟩
    obtain ⟨into, there, rfl⟩ := Option.map_eq_some_iff.1 here
    cases found : exception.fromPt with
    | none => exact typed'.fromPt into there
    | some pt => exact keys (typed.fromPt pt found) (typed'.fromPt into there)
  | thru index =>
    refine ⟨typed'.fromPt, fun thru mem => ?_, typed'.toPt, typed'.minMax⟩
    have merged (into : ExceptionPt) (empty : setKeys into.clks = ∅) :
        setKeys ((exception.thrus[index]?.map fun pt => pt.mergeInto into).getD into).clks = ∅ := by
      cases found : exception.thrus[index]? with
      | none => exact empty
      | some pt => exact keys (typed.thrus pt (List.mem_of_getElem? found)) empty
    obtain ⟨place, inside, rfl⟩ := List.mem_iff_getElem.1 mem
    simp only [ExceptionPath.mergePt,List.length_modify] at inside ⊢
    rw [List.getElem_modify]
    have old := typed'.thrus _ (List.getElem_mem inside)
    split
    · exact merged _ old
    · exact old
  | toPt =>
    refine ⟨typed'.fromPt, typed'.thrus, fun pt here => ?_, typed'.minMax⟩
    obtain ⟨into, there, rfl⟩ := Option.map_eq_some_iff.1 here
    cases found : exception.toPt with
    | none => exact typed'.toPt into there
    | some pt => exact keys (typed.toPt pt found) (typed'.toPt into there)

theorem LoopInv.once (inv : LoopInv request next sdc) (mem : address ∈ sdc.exceptions)
    (merged : sdc.mergeOnce address = some (sdc', other))
    (fits : ∀ exception missing match', sdc.Merge address exception missing other match' →
      exception.MergeFits match' missing ∧ (exception.Resets request = true → Ahead next other))
    (stays : next ≠ some address) :
    LoopInv request next sdc' ∧ (matching request sdc').card ≤ (matching request sdc).card ∧
    sdc'.covered = sdc.covered := by
  obtain ⟨recorded, -, -, covered⟩ := inv.recorded.once mem merged
  obtain ⟨exception, missing, match', merge, same⟩ := Sdc.mergeOnce_cases merged
  obtain ⟨⟨pt, hasPt⟩, differ, ⟨key, hashed⟩, matchPath, there, -, mergeablePts⟩ := Sdc.findMergeMatch_spec merge.found
  obtain rfl := Option.some.inj (merge.there.symm.trans there)
  have known := (inv.recorded.hashes key _ hashed).1
  obtain ⟨mergeFits, keepsAhead⟩ := fits exception missing match' merge
  have union := (ExceptionPath.covered_union_iff hasPt mergeablePts).2 mergeFits
  obtain ⟨paths, exceptions, -⟩ := Sdc.mergeInto_rest sdc address exception missing other match'
  change sdc' = sdc.mergeInto address exception missing other match' at same
  change other ≠ address at differ
  subst same
  have resets : (match'.mergePt exception missing).Resets request = true ↔ exception.Resets request = true ∨
    match'.Resets request = true := by
    simp only [ExceptionPath.resets_iff_covers,← union,Set.mem_union,or_and_right,exists_or]
  -- what is reset is where it was, or has been merged into the other one
  have moved (place : ℕ) (isReset : place ∈ matching request (sdc.mergeInto address exception missing other match')) :
      place ≠ address ∧ (place ∈ matching request sdc ∨ place = other ∧ exception.Resets request = true) := by
    obtain ⟨memPlace, found, isFound, resetsFound⟩ := mem_matching.1 isReset
    rw [exceptions,Finset.mem_erase] at memPlace
    refine ⟨memPlace.1, ?_⟩
    rw [paths,Function.update_of_ne memPlace.1] at isFound
    by_cases isOther : place = other
    · subst isOther
      rw [Function.update_self,Option.some.injEq] at isFound
      subst isFound
      rcases resets.1 resetsFound with first | second
      · exact .inr ⟨rfl, first⟩
      · exact .inl (mem_matching.2 ⟨known, match', merge.there, second⟩)
    · rw [Function.update_of_ne isOther] at isFound
      exact .inl (mem_matching.2 ⟨memPlace.2, found, isFound, resetsFound⟩)
  refine ⟨⟨recorded, fun place memPlace found isFound => ?_, fun place isReset => ?_, fun place isNext => ?_⟩, ?_,
    covered fun exception missing match' merge => (fits exception missing match' merge).1⟩
  · rw [exceptions,Finset.mem_erase] at memPlace
    rw [paths,Function.update_of_ne memPlace.1] at isFound
    by_cases isOther : place = other
    · subst isOther
      rw [Function.update_self,Option.some.injEq] at isFound
      subst isFound
      exact mergePt_typed (inv.typed address mem exception merge.here)
        (inv.typed place known match' merge.there) missing
    · rw [Function.update_of_ne isOther] at isFound
      exact inv.typed place memPlace.2 found isFound
  · rcases (moved place isReset).2 with old | ⟨rfl, resetsException⟩
    · exact inv.ahead place old
    · exact keepsAhead resetsException
  · rw [exceptions,Finset.mem_erase]
    exact ⟨fun eq => stays (eq ▸ isNext), inv.isAt place isNext⟩
  · by_cases resetsException : exception.Resets request = true
    · have wasReset : address ∈ matching request sdc := mem_matching.2 ⟨mem, exception, merge.here, resetsException⟩
      have subset : matching request (sdc.mergeInto address exception missing other match') ⊆ insert other
        ((matching request sdc).erase address) := by
        intro place isReset
        obtain ⟨differs, old | ⟨rfl, -⟩⟩ := moved place isReset
        · exact Finset.mem_insert_of_mem (Finset.mem_erase.2 ⟨differs, old⟩)
        · exact Finset.mem_insert_self _ _
      have card := Finset.card_erase_add_one wasReset
      have bound := (Finset.card_le_card subset).trans (Finset.card_insert_le _ _)
      omega
    · apply Finset.card_le_card
      intro place isReset
      obtain ⟨-, old | ⟨-, isException⟩⟩ := moved place isReset
      · exact old
      · exact absurd isException resetsException

theorem LoopInv.mergeLoop (keep : MergesKeep request next sdc address) (inv : LoopInv request next sdc)
    (mem : address ∈ sdc.exceptions)
    {fuel : ℕ} (enough : sdc.exceptions.card < fuel) : ∃ sdc', Sdc.mergeLoop fuel sdc address = some sdc' ∧
    LoopInv request next sdc' ∧
      (matching request sdc').card ≤ (matching request sdc).card ∧ sdc'.covered = sdc.covered := by
  induction keep generalizing fuel with
  | done none =>
    obtain ⟨fuel, rfl⟩ := Nat.exists_eq_succ_of_ne_zero (Nat.ne_zero_of_lt enough)
    refine ⟨_, ?_, inv, le_refl _, rfl⟩
    rw [Sdc.mergeLoop,none]
  | @merge sdc sdc₁ address other merged fits stays rest ih =>
    obtain ⟨fuel, rfl⟩ := Nat.exists_eq_succ_of_ne_zero (Nat.ne_zero_of_lt enough)
    obtain ⟨-, memOther, fewer, -⟩ := inv.recorded.once mem merged
    obtain ⟨inv₁, card₁, covered₁⟩ := inv.once mem merged fits stays
    change sdc₁.exceptions.card + 1 = _ at fewer
    have few : sdc₁.exceptions.card < fuel := by omega
    obtain ⟨sdc', ended, inv', card', covered'⟩ := ih inv₁ memOther few
    refine ⟨sdc', ?_, inv', card'.trans card₁, covered'.trans covered₁⟩
    rw [Sdc.mergeLoop,merged]
    exact ended

end Merging

section Adding
variable {alloc : Allocator} {edges : ThruEdges} {network : Network} {request : ResetRequest} {next : Option ℕ}
    {sdc : Sdc} {address : ℕ}

theorem covered_recordException (fresh : address ∉ sdc.exceptions) (exception : ExceptionPath) :
    (sdc.recordException address exception).covered = sdc.covered ∪ exception.covered := by
  obtain ⟨paths, exceptions⟩ := Sdc.recordException_rest sdc address exception
  ext tuple
  constructor
  · rintro ⟨place, mem, found, isFound, covers⟩
    rw [exceptions,Finset.mem_insert] at mem
    rw [paths] at isFound
    rcases mem with rfl | mem
    · rw [Function.update_self,Option.some.injEq] at isFound
      exact .inr (isFound ▸ covers)
    · rw [Function.update_of_ne (ne_of_mem_of_not_mem mem fresh)] at isFound
      exact .inl ⟨place, mem, found, isFound, covers⟩
  · rintro (⟨place, mem, found, isFound, covers⟩ | covers)
    · refine ⟨place, ?_, found, ?_, covers⟩
      · rw [exceptions]
        exact Finset.mem_insert_of_mem mem
      · rw [paths,Function.update_of_ne (ne_of_mem_of_not_mem mem fresh)]
        exact isFound
    · refine ⟨address, ?_, exception, ?_, covers⟩
      · rw [exceptions]
        exact Finset.mem_insert_self _ _
      · rw [paths,Function.update_self]

theorem LoopInv.record (inv : LoopInv request next sdc) (fresh : address ∉ sdc.exceptions) {exception : ExceptionPath}
    (typed : exception.Typed) (kept : exception.Resets request ≠ true) :
    LoopInv request next (sdc.recordException address exception) ∧
      matching request (sdc.recordException address exception) ⊆ matching request sdc := by
  obtain ⟨paths, exceptions⟩ := Sdc.recordException_rest sdc address exception
  have old {place : ℕ} {found : ExceptionPath} (mem : place ∈ (sdc.recordException address exception).exceptions)
      (isFound : (sdc.recordException address exception).paths place = some found) :
      found = exception ∨ place ∈ sdc.exceptions ∧ sdc.paths place = some found := by
    rw [exceptions,Finset.mem_insert] at mem
    rw [paths] at isFound
    rcases mem with rfl | mem
    · rw [Function.update_self,Option.some.injEq] at isFound
      exact .inl isFound.symm
    · rw [Function.update_of_ne (ne_of_mem_of_not_mem mem fresh)] at isFound
      exact .inr ⟨mem, isFound⟩
  have subset : matching request (sdc.recordException address exception) ⊆ matching request sdc := by
    intro place isReset
    obtain ⟨mem, found, isFound, resets⟩ := mem_matching.1 isReset
    rcases old mem isFound with rfl | ⟨mem, isFound⟩
    · exact absurd resets kept
    · exact mem_matching.2 ⟨mem, found, isFound, resets⟩
  refine ⟨⟨inv.recorded.record fresh exception, fun place mem found isFound => ?_, fun place isReset =>
    inv.ahead place (subset isReset),
    fun place isNext => ?_⟩, subset⟩
  · rcases old mem isFound with rfl | ⟨mem, isFound⟩
    · exact typed
    · exact inv.typed place mem found isFound
  · rw [exceptions]
    exact Finset.mem_insert_of_mem (inv.isAt place isNext)

theorem deleteMatchingExceptions_none {add : ExceptionPath → State → Except SdcFault State} {st : State}
    {exception : ExceptionPath}
    (none : st.sdc.findMatchingExceptions exception = some ∅) : st.deleteMatchingExceptions alloc edges add exception =
    .ok st := by
  have nothing : alloc.order st.sdc [] = [] := List.perm_nil.1 (alloc.perm st.sdc [])
  have deleted : st.sdc.deleteMatches ∅ = some st.sdc := by simp [Sdc.deleteMatches]
  unfold State.deleteMatchingExceptions
  rw [none]
  change lookUp (st.sdc.deleteMatches ∅) >>= _ = _
  rw [deleted]
  change (alloc.order st.sdc _).foldlM _ _ = _
  simp only [Finset.sort_empty,List.filterMap_nil,List.flatMap_nil,nothing]
  rfl

theorem addException_single {fuel : ℕ} {st : State} {exception expand : ExceptionPath} {sdc' : Sdc}
    (points : ExceptionPath.ExpandedOf edges exception expand)
    (overridesNone : (expand.type.isMultiCycle || expand.type.isPathDelay) = true →
      st.sdc.findMatchingExceptions expand = some ∅)
    (merged : (st.sdc.recordException (alloc.address st.sdc) expand).mergeException (alloc.address st.sdc) =
      some sdc') :
    ∃ st', st.addException alloc edges network (fuel + 1) expand = .ok st' ∧ st'.sdc = sdc' := by
  let delayed := st.recordPathDelay network expand
  have same : delayed.sdc = st.sdc := recordPathDelay_sdc st expand
  have second (add : ExceptionPath → State → Except SdcFault State) :
      delayed.addException2 alloc edges add expand = .ok { delayed.recordFirstPins expand with sdc := sdc' } := by
    have recorded : (do
        let sdc ← lookUp ((delayed.sdc.recordException (alloc.address delayed.sdc) expand).mergeException
          (alloc.address delayed.sdc))
        return { delayed.recordFirstPins expand with sdc := sdc } : Except SdcFault State) =
          .ok { delayed.recordFirstPins expand with sdc := sdc' } := by
      rw [same,merged]
      rfl
    unfold State.addException2
    split
    · next overriding =>
      rw [deleteMatchingExceptions_none (same ▸ overridesNone overriding)]
      exact recorded
    · exact recorded
  have first (add : ExceptionPath → State → Except SdcFault State) :
    delayed.addException1 alloc edges add expand = delayed.addException2 alloc edges add expand := by
    unfold State.addException1
    cases here : expand.toPt with
    | none => rfl
    | some pt =>
      obtain ⟨pt', -, mem⟩ := points.toPt pt here
      simp [ExceptionPath.not_mixed mem]
  have whole : st.addException alloc edges network (fuel + 1) expand =
    delayed.addException1 alloc edges (State.addException alloc edges network fuel) expand := by
    rw [State.addException]
    cases here : expand.fromPt with
    | none => rfl
    | some pt =>
      obtain ⟨pt', -, mem⟩ := points.fromPt pt here
      simp [ExceptionPath.not_mixed mem,delayed]
  refine ⟨{ delayed.recordFirstPins expand with sdc := sdc' }, ?_, rfl⟩
  rw [whole,first,second]

theorem LoopInv.add {fuel : ℕ} {st : State} {exception expand : ExceptionPath} (inv : LoopInv request next st.sdc)
    (points : ExceptionPath.ExpandedOf edges exception expand) (typed : expand.Typed)
    (kept : expand.Resets request ≠ true) (fits : AddFits alloc request next st.sdc expand) :
    ∃ st', st.addException alloc edges network (fuel + 1) expand = .ok st' ∧ LoopInv request next st'.sdc ∧
      (matching request st'.sdc).card ≤ (matching request st.sdc).card ∧
        st'.sdc.covered = st.sdc.covered ∪ expand.covered := by
  obtain ⟨recorded, subset⟩ := inv.record (alloc.fresh st.sdc) typed kept
  have mem : alloc.address st.sdc ∈ (st.sdc.recordException (alloc.address st.sdc) expand).exceptions := by
    rw [(Sdc.recordException_rest _ _ _).2]
    exact Finset.mem_insert_self _ _
  obtain ⟨sdc', ended, inv', card, covered⟩ := recorded.mergeLoop fits.merges mem (Nat.lt_succ_self _)
  have added : ∃ st', st.addException alloc edges network (fuel + 1) expand = .ok st' ∧ st'.sdc = sdc' :=
    addException_single points fits.overridesNone ended
  obtain ⟨st', run, rfl⟩ := added
  refine ⟨st', run, inv', card.trans (Finset.card_le_card subset), covered.trans ?_⟩
  exact covered_recordException (alloc.fresh st.sdc) expand

end Adding

end GTPower.PathDelays
