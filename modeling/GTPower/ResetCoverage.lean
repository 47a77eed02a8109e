import Mathlib.Data.Prod.Lex
import GTPower.ResetRuns

/-! A reset where everything fits: an exception that is reset is deleted and what the request does not cover is added
again, so each step leaves fewer exceptions to reset, or comes nearer to the end, and covers the same outside of the
request. -/
namespace GTPower.PathDelays

section Iterator
variable {request : ResetRequest} {next : Option ℕ} {sdc : Sdc} {address other : ℕ} {match' : ExceptionPath}
    {addresses : Finset ℕ}

theorem leastAddress_le (mem : other ∈ addresses) : Ahead (leastAddress addresses) other := by
  have filled : addresses.Nonempty := ⟨other, mem⟩
  refine ⟨addresses.min' filled, dif_pos filled, ?_⟩
  apply addresses.min'_le
  exact mem

theorem LoopInv.start (recorded : sdc.Recorded)
    (typed : ∀ address ∈ sdc.exceptions, ∀ exception, sdc.paths address = some exception → exception.Typed) :
    LoopInv request (leastAddress sdc.exceptions) sdc where
  recorded := recorded
  typed := typed
  ahead _ isReset := leastAddress_le (mem_matching.1 isReset).1
  isAt _ := leastAddress_mem

/-- Behind the exception the iterator is at. -/
theorem LoopInv.past (inv : LoopInv request (some address) sdc) (isReset : other ∈ matching request sdc)
    (differs : other ≠ address) :
    Ahead (leastAddress (sdc.exceptions.filter (address < ·))) other := by
  obtain ⟨here, isHere, before⟩ := inv.ahead other isReset
  obtain rfl := Option.some.inj isHere
  apply leastAddress_le
  exact Finset.mem_filter.2 ⟨(mem_matching.1 isReset).1, lt_of_le_of_ne before differs.symm⟩

theorem LoopInv.pass (inv : LoopInv request (some address) sdc) (here : sdc.paths address = some match')
    (kept : match'.Resets request ≠ true) :
    LoopInv request (leastAddress (sdc.exceptions.filter (address < ·))) sdc where
  recorded := inv.recorded
  typed := inv.typed
  ahead place isReset := by
    apply inv.past isReset
    rintro rfl
    obtain ⟨-, exception, found, resets⟩ := mem_matching.1 isReset
    obtain rfl := Option.some.inj (here.symm.trans found)
    exact kept resets
  isAt _ least := (Finset.mem_filter.1 (leastAddress_mem least)).1

theorem deleteException_rest (sdc : Sdc) (address : ℕ) (match' : ExceptionPath) :
    (sdc.deleteException address match').paths = Function.update sdc.paths address none ∧
      (sdc.deleteException address match').exceptions = sdc.exceptions.erase address ∧
      (sdc.deleteException address match').mergeHash = unrecordKeys (· ∈ match'.mergeKeys) address sdc.mergeHash := by
  obtain ⟨paths, exceptions, mergeHash⟩ :=
    Sdc.unrecordExceptionFirstPts_rest (sdc.unrecordMergeHashes address match') address match'
  refine ⟨?_, ?_, mergeHash⟩
  · exact congrArg (fun paths => Function.update paths address none) paths
  · exact congrArg (fun exceptions => exceptions.erase address) exceptions

theorem found_deleteException {exception : ExceptionPath} :
    (other ∈ (sdc.deleteException address match').exceptions ∧ (sdc.deleteException address match').paths other =
    some exception) ↔
      other ≠ address ∧ other ∈ sdc.exceptions ∧ sdc.paths other = some exception := by
  obtain ⟨paths, exceptions, -⟩ := deleteException_rest sdc address match'
  rw [paths,exceptions,Finset.mem_erase,and_assoc]
  refine and_congr_right fun differs => ?_
  rw [Function.update_of_ne differs]

theorem matching_deleteException : matching request (sdc.deleteException address match') =
    (matching request sdc).erase address := by
  ext place
  simp only [Finset.mem_erase,mem_matching,← exists_and_left,← and_assoc]
  refine exists_congr fun exception => and_congr_left fun _ => ?_
  rw [found_deleteException,and_assoc]

theorem covered_deleteException (mem : address ∈ sdc.exceptions) (here : sdc.paths address = some match') :
    sdc.covered = (sdc.deleteException address match').covered ∪ match'.covered := by
  ext tuple
  constructor
  · rintro ⟨place, memPlace, found, isFound, covers⟩
    by_cases same : place = address
    · subst same
      obtain rfl := Option.some.inj (here.symm.trans isFound)
      exact .inr covers
    · obtain ⟨memDeleted, isDeleted⟩ := found_deleteException.2 ⟨same, memPlace, isFound⟩
      exact .inl ⟨place, memDeleted, found, isDeleted, covers⟩
  · rintro (⟨place, memDeleted, found, isDeleted, covers⟩ | covers)
    · obtain ⟨-, memPlace, isFound⟩ := found_deleteException.1 ⟨memDeleted, isDeleted⟩
      exact ⟨place, memPlace, found, isFound, covers⟩
    · exact ⟨address, mem, match', here, covers⟩

theorem LoopInv.delete (inv : LoopInv request (some address) sdc) (here : sdc.paths address = some match') :
    LoopInv request (leastAddress (sdc.exceptions.filter (address < ·))) (sdc.deleteException address match') where
  recorded := by
    obtain ⟨-, -, mergeHash⟩ := deleteException_rest sdc address match'
    constructor
    · intro place memDeleted
      have memPlace := memDeleted
      rw [(deleteException_rest sdc address match').2.1,Finset.mem_erase] at memPlace
      obtain ⟨exception, found⟩ := inv.recorded.kept place memPlace.2
      exact ⟨exception, (found_deleteException.2 ⟨memPlace.1, memPlace.2, found⟩).2⟩
    · intro key place hashed
      rw [mergeHash,mem_unrecordKeys] at hashed
      obtain ⟨memPlace, exception, found, isKey⟩ := inv.recorded.hashes key place hashed.1
      have differs : place ≠ address := by
        rintro rfl
        obtain rfl := Option.some.inj (here.symm.trans found)
        exact hashed.2 ⟨isKey, rfl⟩
      obtain ⟨memDeleted, isDeleted⟩ := found_deleteException.2 ⟨differs, memPlace, found⟩
      exact ⟨memDeleted, exception, isDeleted, isKey⟩
  typed place memDeleted exception isDeleted := by
    obtain ⟨-, memPlace, found⟩ := found_deleteException.1 ⟨memDeleted, isDeleted⟩
    exact inv.typed place memPlace exception found
  ahead place isReset := by
    rw [matching_deleteException,Finset.mem_erase] at isReset
    exact inv.past isReset.2 isReset.1
  isAt place least := by
    obtain ⟨mem, after⟩ := Finset.mem_filter.1 (leastAddress_mem least)
    rw [(deleteException_rest sdc address match').2.1,Finset.mem_erase]
    exact ⟨after.ne', mem⟩

end Iterator

section Expansions
variable {alloc : Allocator} {edges : ThruEdges} {network : Network} {fuel : ℕ} {request : ResetRequest}
    {next : Option ℕ}
  {exception expand : ExceptionPath} {st : State}

theorem LoopInv.expansion (inv : LoopInv request next st.sdc) (typed : exception.Typed)
    (expandable : ExceptionPath.Expandable edges exception) (mem : expand ∈ exception.expandException edges)
    (fits : if expand.Resets request then PinsFound network st expand else AddFits alloc request next st.sdc expand) :
    ∃ st', st.resetExpansion alloc edges network (fuel + 1) request expand = .ok st' ∧ LoopInv request next st'.sdc ∧
      (matching request st'.sdc).card ≤ (matching request st.sdc).card ∧
      st'.sdc.covered \ { tuple | request.Covers tuple } =
        (st.sdc.covered ∪ expand.covered) \ { tuple | request.Covers tuple } := by
  by_cases resets : expand.Resets request = true
  · rw [if_pos resets] at fits
    have found : ∃ st', st.resetExpansion alloc edges network (fuel + 1) request expand = .ok st' :=
      (resetExpansion_ok_iff resets).2 fits
    obtain ⟨st', run⟩ := found
    have same := resetExpansion_reset resets run
    have inside : expand.covered ⊆ { tuple | request.Covers tuple } := by
      intro tuple covers
      exact (ExceptionPath.resets_expand typed expandable mem covers).1 resets
    refine ⟨st', run, same ▸ inv, (congrArg (fun sdc => (matching request sdc).card) same).le, ?_⟩
    rw [same,Set.union_sdiff_distrib,Set.sdiff_eq_empty.2 inside,Set.union_empty]
  · rw [if_neg resets] at fits
    have points := ExceptionPath.expandedOf expandable mem
    obtain ⟨st', run, inv', card, covered⟩ :=
      @LoopInv.add alloc edges network request next fuel st exception expand inv points
        (ExceptionPath.expand_typed expandable mem) resets fits
    refine ⟨st', ?_, inv', card, by rw [covered]⟩
    unfold State.resetExpansion
    rw [if_neg resets]
    exact run

theorem LoopInv.expansions {expansions : List ExceptionPath} (inv : LoopInv request next st.sdc)
    (typed : exception.Typed) (expandable : ExceptionPath.Expandable edges exception)
    (mem : ∀ expand ∈ expansions, expand ∈ exception.expandException edges)
    (fits : ExpansionsFit alloc edges network (fuel + 1) request
      (fun st expand => AddFits alloc request next st.sdc expand) expansions st) :
    ∃ st', expansions.foldlM (State.resetExpansion alloc edges network (fuel + 1) request) st = .ok st' ∧
    LoopInv request next st'.sdc ∧
      (matching request st'.sdc).card ≤ (matching request st.sdc).card ∧
      st'.sdc.covered \ { tuple | request.Covers tuple } =
        (st.sdc.covered ∪ { tuple | ∃ expand ∈ expansions, tuple ∈ expand.covered }) \
          { tuple | request.Covers tuple } := by
  induction expansions generalizing st with
  | nil => exact ⟨st, rfl, inv, le_refl _, by simp⟩
  | cons expand rest ih =>
    obtain ⟨memHere, memRest⟩ := List.forall_mem_cons.1 mem
    obtain ⟨fitsHere, fitsRest⟩ := fits
    obtain ⟨st₁, first, inv₁, card₁, covered₁⟩ := inv.expansion typed expandable memHere fitsHere
    obtain ⟨st', others, inv', card', covered'⟩ := ih inv₁ memRest (fitsRest st₁ first)
    refine ⟨st', ?_, inv', card'.trans card₁, ?_⟩
    · rw [List.foldlM_cons,first]
      exact others
    · have split : { tuple | ∃ expand' ∈ expand :: rest, tuple ∈ expand'.covered } =
          expand.covered ∪ { tuple | ∃ expand' ∈ rest, tuple ∈ expand'.covered } := by
        ext tuple
        simp
      rw [covered',Set.union_sdiff_distrib,covered₁,← Set.union_sdiff_distrib,split,Set.union_assoc]

end Expansions

section Steps
variable {alloc : Allocator} {edges : ThruEdges} {network : Network} {fuel : ℕ} {request : ResetRequest}
  {start st : State} {address : ℕ} {match' : ExceptionPath}

theorem LoopInv.reset (inv : LoopInv request (some address) st.sdc) (here : st.sdc.paths address = some match')
    (resets : match'.Resets request = true)
    (fits : ExceptionFits alloc edges network (fuel + 1) request st address match') :
    ∃ st', st.resetException alloc edges network (fuel + 1) request address match' = .ok st' ∧
    LoopInv request (st.next address) st'.sdc ∧
      (matching request st'.sdc).card < (matching request st.sdc).card ∧
      st'.sdc.covered \ { tuple | request.Covers tuple } = st.sdc.covered \ { tuple | request.Covers tuple } := by
  obtain ⟨expandable, copies, expansions⟩ := fits
  let deleted : State := { st with sdc := st.sdc.deleteException address match' }
  have memHere : address ∈ st.sdc.exceptions := inv.isAt address rfl
  have typed := inv.typed address memHere match' here
  have deletedInv : LoopInv request (st.next address) deleted.sdc := inv.delete here
  have visits : ∀ expand, expand ∈ alloc.order deleted.sdc (match'.expandException edges) ↔
    expand ∈ match'.expandException edges :=
    fun expand => (alloc.perm _ _).mem_iff
  obtain ⟨st', run, inv', card, covered⟩ :=
    deletedInv.expansions typed expandable (fun expand mem => (visits expand).1 mem) expansions
  have isReset : address ∈ matching request st.sdc := mem_matching.2 ⟨memHere, match', here, resets⟩
  have whole := ExceptionPath.expansions_covered typed expandable copies
  refine ⟨st', ?_, inv', card.trans_lt ?_, ?_⟩
  · unfold State.resetException
    rw [if_pos resets]
    exact run
  · change (matching request (st.sdc.deleteException address match')).card < _
    rw [matching_deleteException]
    exact Finset.card_erase_lt_of_mem isReset
  · simp only [visits] at covered
    rw [covered,covered_deleteException memHere here,Set.union_sdiff_distrib,Set.union_sdiff_distrib,whole]

theorem LoopInv.round (inv : LoopInv request (some address) st.sdc) (here : st.sdc.paths address = some match')
    (fits : match'.Resets request = true → ExceptionFits alloc edges network (fuel + 1) request st address match') :
    ∃ st', st.resetException alloc edges network (fuel + 1) request address match' = .ok st' ∧
    LoopInv request (st.next address) st'.sdc ∧
      ((matching request st'.sdc).card < (matching request st.sdc).card ∨ st' = st) ∧
      st'.sdc.covered \ { tuple | request.Covers tuple } = st.sdc.covered \ { tuple | request.Covers tuple } := by
  by_cases resets : match'.Resets request = true
  · obtain ⟨st', run, inv', fewer, covered⟩ := inv.reset here resets (fits resets)
    exact ⟨st', run, inv', .inl fewer, covered⟩
  · refine ⟨st, ?_, inv.pass here resets, .inr rfl, rfl⟩
    unfold State.resetException
    rw [if_neg resets]

theorem forExceptions_none {body : ℕ → ExceptionPath → State → Except SdcFault State} (rounds : ℕ) :
    State.forExceptions body rounds none st = .ok st := by
  cases rounds <;> rfl

theorem forExceptions_some {body : ℕ → ExceptionPath → State → Except SdcFault State}
    (mem : address ∈ st.sdc.exceptions) (here : st.sdc.paths address = some match') (rounds : ℕ) :
    State.forExceptions body (rounds + 1) (some address) st = body address match' st >>=
    State.forExceptions body rounds (st.next address) := by
  rw [State.forExceptions,if_pos mem,here]
  rfl

/-- The exceptions the iterator still has to come to. -/
def remaining (next : Option ℕ) (sdc : Sdc) : ℕ := (sdc.exceptions.filter fun address => next.any (· ≤ address)).card

theorem remaining_next (mem : address ∈ st.sdc.exceptions) :
    remaining (st.next address) st.sdc < remaining (some address) st.sdc := by
  apply Finset.card_lt_card
  refine Finset.ssubset_iff_subset_ne.2 ⟨fun place isAhead => ?_, fun same => ?_⟩
  · obtain ⟨memPlace, ahead⟩ := Finset.mem_filter.1 isAhead
    obtain ⟨here, isHere, before⟩ := Option.any_eq_true _ _ |>.1 ahead
    have after := (Finset.mem_filter.1 (leastAddress_mem isHere)).2
    rw [decide_eq_true_eq] at before
    exact Finset.mem_filter.2 ⟨memPlace, decide_eq_true (after.le.trans before)⟩
  · have isAhead : address ∈ st.sdc.exceptions.filter fun place => (st.next address).any (· ≤ place) := by
      rw [same]
      exact Finset.mem_filter.2 ⟨mem, decide_eq_true (le_refl address)⟩
    obtain ⟨here, isHere, before⟩ := Option.any_eq_true _ _ |>.1 (Finset.mem_filter.1 isAhead).2
    have after := (Finset.mem_filter.1 (leastAddress_mem isHere)).2
    rw [decide_eq_true_eq] at before
    exact absurd after (not_lt.2 before)

/-- The loop ends, and covers the same outside of the request. Each round leaves fewer exceptions that are reset, or the
same state and fewer exceptions to come to. -/
theorem LoopInv.run {next : Option ℕ} (fits : Fits alloc edges network (fuel + 1) request start)
    (inv : LoopInv request next st.sdc) (reaches : Reaches alloc edges network (fuel + 1) request start next st) :
    ∃ enough st', (∀ rounds ≥ enough,
      State.forExceptions (State.resetException alloc edges network (fuel + 1) request) rounds next st = .ok st') ∧
      LoopInv request none st'.sdc ∧ st'.sdc.covered \ { tuple | request.Covers tuple } =
        st.sdc.covered \ { tuple | request.Covers tuple } := by
  generalize isMeasure : toLex ((matching request st.sdc).card, remaining next st.sdc) = measure
  induction measure using WellFoundedLT.induction generalizing next st with
  | ind measure ih =>
    subst isMeasure
    cases next with
    | none =>
      exact ⟨0, st, fun rounds _ => forExceptions_none rounds, inv, rfl⟩
    | some address =>
      have mem := inv.isAt address rfl
      obtain ⟨match', here⟩ := inv.recorded.kept address mem
      obtain ⟨st₁, reset, inv₁, progress, covered₁⟩ := inv.round here (fits address st match' reaches here)
      have less : toLex ((matching request st₁.sdc).card, remaining (st.next address) st₁.sdc) <
          toLex ((matching request st.sdc).card, remaining (some address) st.sdc) := by
        rw [Prod.Lex.toLex_lt_toLex]
        rcases progress with fewer | rfl
        · exact .inl fewer
        · exact .inr ⟨rfl, remaining_next mem⟩
      obtain ⟨enough, st', run, inv', covered'⟩ := ih _ less inv₁ (reaches.step mem here reset) rfl
      refine ⟨enough + 1, st', fun rounds more => ?_, inv', covered'.trans covered₁⟩
      obtain ⟨rounds, rfl⟩ : ∃ fewer, rounds = fewer + 1 := ⟨rounds - 1, by omega⟩
      rw [forExceptions_some mem here,reset]
      exact run rounds (by omega)

theorem LoopInv.ended {sdc : Sdc} (inv : LoopInv request none sdc) : ∀ tuple ∈ sdc.covered, ¬request.Covers tuple := by
  rintro tuple ⟨address, mem, exception, here, covers⟩ resets
  have isReset : address ∈ matching request sdc :=
    mem_matching.2 ⟨mem, exception, here, ExceptionPath.resets_iff_covers.2 ⟨tuple, covers, resets⟩⟩
  obtain ⟨_, none, -⟩ := inv.ahead address isReset
  cases none

theorem resetsExactly_of_fits (recorded : start.sdc.Recorded)
    (typed : ∀ address ∈ start.sdc.exceptions, ∀ exception, start.sdc.paths address = some exception → exception.Typed)
    (fits : Fits alloc edges network (fuel + 1) request start) :
    ResetsExactly alloc edges network (fuel + 1) request start := by
  obtain ⟨enough, st', run, inv, covered⟩ := (LoopInv.start recorded typed).run fits .start
  refine ⟨enough, st', run, ?_⟩
  rw [← covered]
  ext tuple
  exact ⟨fun covers => ⟨covers, inv.ended tuple covers⟩, And.left⟩

end Steps

section Requests

/-- A reset with a result comes only to recorded exceptions, and takes each of them. -/
theorem Reaches.left {alloc : Allocator} {edges : ThruEdges} {network : Network} {fuel rounds : ℕ}
    {request : ResetRequest} {start st st' : State}
    {iter : Option ℕ} (reaches : Reaches alloc edges network fuel request start iter st)
    (run : start.resetPath alloc edges network fuel request rounds = .ok st') :
    ∃ left, State.forExceptions (State.resetException alloc edges network fuel request) left iter st = .ok st' := by
  induction reaches with
  | start => exact ⟨rounds, run⟩
  | @step address st st₁ match' _ mem here reset ih =>
    obtain ⟨left, run⟩ := ih
    cases left with
    | zero => cases run
    | succ left =>
      rw [forExceptions_some mem here,reset] at run
      exact ⟨left, run⟩

theorem Reaches.resets {alloc : Allocator} {edges : ThruEdges} {network : Network} {fuel rounds : ℕ}
    {request : ResetRequest}
    {start st st' : State} {address : ℕ} (reaches : Reaches alloc edges network fuel request start (some address) st)
    (run : start.resetPath alloc edges network fuel request rounds = .ok st') :
    address ∈ st.sdc.exceptions ∧ ∃ match' reset, st.sdc.paths address = some match' ∧
      st.resetException alloc edges network fuel request address match' = .ok reset := by
  obtain ⟨left, run⟩ := reaches.left run
  cases left with
  | zero => cases run
  | succ left =>
    rw [State.forExceptions] at run
    split at run
    · next mem =>
      obtain ⟨match', found, run⟩ := bind_ok_iff.1 run
      obtain ⟨reset, once, -⟩ := bind_ok_iff.1 run
      exact ⟨mem, match', reset, lookUp_ok_iff.1 found, once⟩
    · cases run

/-- Every combination of an exception is visited exactly once if and only if all its points have objects and no -through
but the last one has several; an expansion that is reset meets no missing set if and only if its pins are found; the
iterator of an exact reset is always at a recorded exception; and a reset where everything fits takes exactly what the
request covers. -/
theorem resetPath_exact (alloc : Allocator) (edges : ThruEdges) (network : Network) (fuel : ℕ) (request : ResetRequest)
    (start : State) (enough : 0 < fuel) (recorded : start.sdc.Recorded)
    (typed : ∀ address ∈ start.sdc.exceptions, ∀ exception, start.sdc.paths address = some exception →
      exception.Typed) :
    (∀ exception, (ExceptionPath.expandException edges exception).Perm (exception.combinations edges) ↔
    ExceptionPath.Expandable edges exception) ∧
      (∀ st expand, expand.Resets request = true →
        ((∃ st', State.resetExpansion alloc edges network fuel request st expand = .ok st') ↔
          PinsFound network st expand)) ∧
      (ResetsExactly alloc edges network fuel request start →
        ∀ address st, Reaches alloc edges network fuel request start (some address) st →
        address ∈ st.sdc.exceptions ∧ ∃ match' reset, st.sdc.paths address = some match' ∧
          st.resetException alloc edges network fuel request address match' = .ok reset) ∧
      (Fits alloc edges network fuel request start → ResetsExactly alloc edges network fuel request start) := by
  obtain ⟨fuel, rfl⟩ := Nat.exists_eq_succ_of_ne_zero enough.ne'
  refine ⟨ExceptionPath.expandException_perm_iff edges, fun st expand resets => resetExpansion_ok_iff resets, ?_,
    fun fits => ?_⟩
  · rintro ⟨rounds, st', run, -⟩ address st reaches
    exact reaches.resets (run rounds (le_refl rounds))
  · exact resetsExactly_of_fits recorded typed fits

theorem sort_pins : ({1, 2} : Finset ℕ).sort = [1, 2] :=
  (List.toFinset_sort (l := [1, 2]) (· ≤ ·) (by decide)).2 (by decide)

theorem expandFromTo_pinsAt (pins : Finset ℕ) : (pinsAt pins).expandFromTo = pins.sort.map fun id => pinsAt {id} := by
  simp [ExceptionPt.expandFromTo,pinsAt,makeExceptionFromTo,setKeys_nonemptySet,setKeys_some,setKeys_none]

def twoStartpoints : ExceptionPath := falsePathTo {1, 2} ⟨pinsAt {3}, .riseFall⟩

def startpointsState : State := ⟨Sdc.init.recordException 1 twoStartpoints, {1, 2}, ∅, ∅, ∅⟩

theorem resetPath_exact_startpoint : ResetsExactly .upward .none internalPins 1 (requestFrom 1) startpointsState := by
  have fresh : 1 ∉ Sdc.init.exceptions := by decide
  have here : startpointsState.sdc.paths 1 = some twoStartpoints := by decide +kernel
  have only : startpointsState.sdc.exceptions = {1} := by decide +kernel
  have visits : twoStartpoints.expandException .none =
      [falsePathTo {1} ⟨pinsAt {3}, .riseFall⟩, falsePathTo {2} ⟨pinsAt {3}, .riseFall⟩] := by
    change (ExceptionPath.clones _ ((pinsAt {1, 2}).expandFromTo.map some) [[]]
      ((pinsAt {3}).expandFromTo.map fun single => some ⟨single, .riseFall⟩)) = _
    rw [expandFromTo_pinsAt,expandFromTo_pinsAt,sort_pins,Finset.sort_singleton]
    rfl
  have first : leastAddress startpointsState.sdc.exceptions = some 1 := by decide +kernel
  have last : startpointsState.next 1 = none := by decide +kernel
  have typed : twoStartpoints.Typed := ⟨by rintro pt ⟨⟩; rfl, nofun, by rintro pt ⟨⟩; rfl, by decide⟩
  have recorded : startpointsState.sdc.Recorded := Sdc.Recorded.init.record fresh twoStartpoints
  apply (resetPath_exact .upward .none internalPins 1 (requestFrom 1) startpointsState one_pos recorded _).2.2.2
  · intro address st match' reaches isHere resets
    rcases reaches.alone first last with none | ⟨same, rfl⟩
    · cases none
    obtain rfl := Option.some.inj same
    obtain rfl := Option.some.inj (here.symm.trans isHere)
    have froms : (pinsAt {1, 2}).expandFromTo ≠ [] := by simp [expandFromTo_pinsAt,sort_pins]
    have tos : (pinsAt {3}).expandFromTo ≠ [] := by simp [expandFromTo_pinsAt]
    refine ⟨⟨by rintro pt ⟨⟩; exact froms, by rintro pt ⟨⟩; exact tos, nofun, nofun⟩, fun _ _ _ => by decide, ?_⟩
    change ExpansionsFit _ _ _ _ _ _ (twoStartpoints.expandException .none) _
    rw [visits]
    refine ⟨?_, fun st' run => ⟨?_, fun _ _ => trivial⟩⟩
    · rw [if_pos (by decide +kernel)]
      exact ⟨fun _ _ some => absurd rfl some, fun _ _ some => absurd rfl some⟩
    · rw [if_neg (by decide +kernel)]
      change AddFits _ _ _ st'.sdc _
      rw [resetExpansion_reset (by decide +kernel) run]
      exact ⟨nofun, .done (Option.isNone_iff_eq_none.1 (by decide +kernel))⟩
  · intro address mem exception isHere
    rw [only,Finset.mem_singleton] at mem
    subst mem
    obtain rfl := Option.some.inj (here.symm.trans isHere)
    exact typed

/-- A false path from two pins to every rising endpoint. -/
def toTransition : ExceptionPath := falsePathTo {1, 2} ⟨makeExceptionFromTo none none none .rise, .riseFall⟩

def transitionState : State := ⟨Sdc.init.recordException 1 toTransition, {1, 2}, ∅, ∅, ∅⟩

def lostPts : PtPos → Option TuplePt
  | .fromPt => some ⟨some (.pin 2), .riseFall⟩
  | .thru _ => none
  | .toPt => some ⟨none, .rise⟩

def lostTuple : ExceptionTuple := ⟨.falsePath, .all, some .riseFall, lostPts⟩

/-- A false path through two pins and then two others. -/
def throughPairs : ExceptionPath :=
  ExceptionPath.make .falsePath none [makeExceptionThru .none (some {1, 2}) none none .riseFall,
    makeExceptionThru .none (some {3, 4}) none none .riseFall] none .all none

/-- A false path between two pins, and a path delay to a third one. -/
def betweenPins : ExceptionPath := falsePathTo {1} ⟨pinsAt {2}, .riseFall⟩

def delayState : State where
  sdc := (Sdc.init.recordException 2 (ExceptionPath.make (.pathDelay false 5) none [] (some ⟨pinsAt {9}, .riseFall⟩)
    .all none)).recordException
    1 betweenPins
  firstFromPins := {1}
  firstToPins := {9}
  internalStartpoints := ∅
  internalEndpoints := {9}

def instanceTo (inst : ℕ) (tos : Finset ℕ) : ExceptionPath :=
  ExceptionPath.make .falsePath (some (makeExceptionFromTo none none (some {inst}) .riseFall)) []
    (some ⟨pinsAt tos, .riseFall⟩) .all none

/-- What a reset leaves of the first false path is merged into the second, and that into the third. -/
def mergedState : State where
  sdc := ((Sdc.init.recordException 1 (falsePathFrom 3 1 12)).recordException 2 (instanceTo 1 {11})).recordException 3
    (instanceTo 2 {11, 12})
  firstFromPins := {3}
  firstToPins := ∅
  internalStartpoints := ∅
  internalEndpoints := ∅

/-- To a transition nothing is visited, and what starts at the other pin is lost. -/
theorem transition_lost : ¬ResetsExactly .upward .none internalPins 1 (requestFrom 1) transitionState := by
  rintro ⟨enough, st', run, covered⟩
  have here : transitionState.sdc.paths 1 = some toTransition := by decide +kernel
  have mem : 1 ∈ transitionState.sdc.exceptions := by decide +kernel
  have first : leastAddress transitionState.sdc.exceptions = some 1 := by decide +kernel
  have last : transitionState.next 1 = none := by decide +kernel
  have visits : toTransition.expandException .none = [] := by
    by_contra visited
    obtain ⟨-, -, tos⟩ := ExceptionPath.clones_ne_nil.1 visited
    have objects : (makeExceptionFromTo none none none .rise).expandFromTo ≠ [] :=
      ExceptionPath.visitedTos_ne_nil.1 tos _ rfl
    exact objects (by decide +kernel)
  have deleted : transitionState.resetException .upward .none internalPins 1 (requestFrom 1) 1 toTransition =
      .ok { transitionState with sdc := transitionState.sdc.deleteException 1 toTransition } := by
    unfold State.resetException
    rw [if_pos (by decide +kernel),visits]
    rfl
  have ended := run (enough + 1) (Nat.le_succ enough)
  rw [State.resetPath,first,forExceptions_some mem here,deleted,last] at ended
  obtain rfl := Except.ok.inj ((forExceptions_none enough).symm.trans ended)
  have covers : lostTuple ∈ toTransition.covered := by
    refine (ExceptionPath.mem_covered_iff _ _).2 ⟨rfl, rfl, rfl, .some ⟨rfl, ?_⟩, fun index =>
      .none, .some ⟨rfl, fun object => ?_⟩⟩
    · change 2 ∈ setKeys (pinsAt {1, 2}).pins
      decide
    · cases object <;> exact Finset.notMem_empty _
  have kept : ¬(requestFrom 1).Covers lostTuple := by
    intro resets
    obtain ⟨-, object, same, has⟩ := resets.pts .fromPt (pinsAt {1}) ⟨some (.pin 2), .riseFall⟩ rfl rfl
    obtain rfl := Option.some.inj same
    change 2 ∈ setKeys (pinsAt {1}).pins at has
    exact absurd has (by decide)
  have left : lostTuple ∈ (transitionState.sdc.deleteException 1 toTransition).covered :=
    covered.symm ▸ ⟨⟨1, mem, toTransition, here, covers⟩, kept⟩
  have empty : (transitionState.sdc.deleteException 1 toTransition).exceptions = ∅ := by decide +kernel
  obtain ⟨address, isLeft, -⟩ := left
  rw [empty] at isLeft
  cases isLeft

/-- The iterator is at a deleted exception after the first step. -/
theorem resetPath_missing {start st : State} {address other rounds : ℕ} {match' : ExceptionPath}
    {request : ResetRequest}
    (first : leastAddress start.sdc.exceptions = some address) (here : start.sdc.paths address = some match')
    (isNext : start.next address = some other)
    (reset : start.resetException .upward .none internalPins 1 request address match' = .ok st)
    (deleted : other ∉ st.sdc.exceptions) :
    start.resetPath .upward .none internalPins 1 request (rounds + 2) = .error .missing := by
  rw [State.resetPath,first,forExceptions_some (leastAddress_mem first) here,reset,isNext]
  change State.forExceptions _ (rounds + 1) (some other) st = _
  rw [State.forExceptions,if_neg deleted]

/-- Nothing is visited to a transition, combinations of several -through points are missed, an endpoint of no path delay
has no set, and the exception the iterator is at is merged into another one. -/
theorem resetPath_inexact : ¬ResetsExactly .upward .none internalPins 1 (requestFrom 1) transitionState ∧
    ¬(throughPairs.expandException .none).Perm (throughPairs.combinations .none) ∧
    (∀ rounds, delayState.resetPath .upward .none internalPins 1 (requestFrom 1) (rounds + 1) = .error .missing) ∧
    ∀ rounds, mergedState.resetPath .upward .none internalPins 1 (requestFrom 3) (rounds + 2) = .error .missing := by
  refine ⟨transition_lost, fun perm => ?_, fun rounds => ?_, fun rounds => ?_⟩
  · have expandable := (ExceptionPath.expandException_perm_iff _ _).1 perm
    have several := expandable.single (makeExceptionThru .none (some {1, 2}) none none .riseFall) List.mem_cons_self
    simp [ExceptionPt.expandThru,makeExceptionThru,setKeys_nonemptySet,setKeys_some,setKeys_none] at several
  · have here : delayState.sdc.paths 1 = some betweenPins := by decide +kernel
    have mem : 1 ∈ delayState.sdc.exceptions := by decide +kernel
    have first : leastAddress delayState.sdc.exceptions = some 1 := by decide +kernel
    have missing : delayState.resetException .upward .none internalPins 1 (requestFrom 1) 1 betweenPins =
      .error .missing :=
      eq_error_of_faultOf (by decide +kernel)
    rw [State.resetPath,first,forExceptions_some mem here,missing]
    rfl
  · have first : leastAddress mergedState.sdc.exceptions = some 1 := by decide +kernel
    have here : mergedState.sdc.paths 1 = some (falsePathFrom 3 1 12) := by decide +kernel
    have isNext : mergedState.next 1 = some 2 := by decide +kernel
    have merged : (mergedState.resetException .upward .none internalPins 1 (requestFrom 3) 1
      (falsePathFrom 3 1 12)).toOption.map
        (fun st => decide (2 ∈ st.sdc.exceptions)) = some false := by decide +kernel
    generalize isReset : mergedState.resetException .upward .none internalPins 1 (requestFrom 3) 1
      (falsePathFrom 3 1 12) = reset at merged
    cases reset with
    | error fault => cases merged
    | ok st => exact resetPath_missing first here isNext isReset (of_decide_eq_false (Option.some.inj merged))

end Requests

end GTPower.PathDelays
