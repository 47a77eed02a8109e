import GTPower.VcdReader

/-! The value lists of a VCD store under every order of the two append functions. A change at the time of the last
record fails an assertion, and a change is lost or doubled where the redundancy filter compares it with a record of
another kind or with the inserted initial record. -/
namespace GTPower

/-- A call of `varAppendValue` or `varAppendBusValue`. -/
structure AppendCall where
  id : Token
  time : Nat
  change : VarChange
  deriving DecidableEq

abbrev IdValues := Token → Option (List VcdValue)

def appendCall (idValues : IdValues) (call : AppendCall) : Option IdValues := do
  let values ← idValues call.id
  let values ← parseVarValue values call.time call.change
  return Function.update idValues call.id (some values)

def appendCalls (idValues : IdValues) (calls : List AppendCall) : Option IdValues := calls.foldlM appendCall idValues

/-- The calls the reader makes for a record at its current time. -/
def Record.calls (time : Nat) : Record → List AppendCall
  | .scalar value id => [⟨id, time, .scalar value⟩]
  | .vector text id => [⟨id, time, .bus (busValueOf text) text.length⟩]
  | .marker _ => []
  | .ignored => []

theorem parseRecord_calls (loop : ValueLoop) (parsed : loop.parseRecord maxEventNum record = some next) :
    appendCalls loop.idValues (record.calls loop.time) = some next.idValues := by
  have appended : ∀ id change count,
    (loop.append id change).map (ValueLoop.countRecords maxEventNum · count) = some next →
      appendCalls loop.idValues [⟨id, loop.time, change⟩] = some next.idValues := by
    intro id change count parsed
    obtain ⟨after, done, rfl⟩ := Option.map_eq_some_iff.mp parsed
    obtain ⟨values, found, done⟩ := Option.bind_eq_some_iff.mp done
    obtain ⟨values', added, done⟩ := Option.bind_eq_some_iff.mp done
    obtain rfl := Option.some.inj done
    simp [appendCalls,appendCall,found,added,ValueLoop.countRecords]
  cases record with
  | scalar value id => exact appended id _ _ parsed
  | vector text id => exact appended id _ _ parsed
  | ignored =>
    obtain rfl := Option.some.inj parsed
    rfl
  | marker time =>
    rcases time with _ | time | time
    · cases parsed
    · obtain rfl := Option.some.inj parsed
      rfl
    · cases parsed

def VarChange.ShownBy : VarChange → VcdValue → Prop
  | .scalar value, entry => entry.value = some value
  | .bus busValue _, entry => entry.value = none ∧ entry.busValue = busValue

instance (change : VarChange) (entry : VcdValue) : Decidable (change.ShownBy entry) := by
  cases change
  · exact inferInstanceAs (Decidable (_ = _))
  · exact inferInstanceAs (Decidable (_ ∧ _))

/-- The record inserted in front of a first change that is not at time 0. -/
def VarChange.initial : VarChange → VcdValue
  | .scalar _ => ⟨0, some .x, 0, 1⟩
  | .bus _ busWidth => ⟨0, none, 0, busWidth⟩

def VarChange.record (time : Nat) : VarChange → VcdValue
  | .scalar value => ⟨time, some value, 0, 1⟩
  | .bus busValue busWidth => ⟨time, none, busValue, busWidth⟩

/-- The filter and the assertion let a change through after a record. -/
def VarChange.Follows (change : VarChange) (time : Nat) (last : VcdValue) : Prop :=
  last.time < time ∧
    match change with
    | .scalar value => last.value ≠ some value ∧ last.busWidth = 1
    | .bus busValue _ => last.busValue ≠ busValue

/-- A change that is kept as it is: the first one, unless the inserted record already shows it; one the last record
shows; or one the last record lets through. -/
def Fits (values : List VcdValue) (time : Nat) (change : VarChange) : Prop :=
  match values.getLast? with
  | none => time = 0 ∨ ¬ change.ShownBy change.initial
  | some last => change.ShownBy last ∨ change.Follows time last

/-- A value list as it should be: from time 0 on, increasing, and without repeated values. -/
structure Kept (values : List VcdValue) : Prop where
  stored : Stored values
  changes : values.IsChain fun entry next => entry.value ≠ next.value ∨ entry.busValue ≠ next.busValue

/-- After the calls no assertion has failed, every list is as it should be and ends with the last value appended for its
id. -/
def Maintained (start : IdValues) (calls : List AppendCall) : Prop :=
  ∃ idValues, appendCalls start calls = some idValues ∧ ∀ id values, idValues id = some values →
    Kept values ∧ ∀ call, (calls.filter fun call => call.id = id).getLast? = some call →
      ∃ entry, values.getLast? = some entry ∧ call.change.ShownBy entry

theorem shownBy_record (time : Nat) (change : VarChange) : change.ShownBy (change.record time) := by
  cases change
  · rfl
  · exact ⟨rfl, rfl⟩

theorem parseVarValue_first (empty : values.getLast? = none) (time : Nat) (change : VarChange) :
    parseVarValue values time change = some ((if time ≠ 0 then [change.initial] else []) ++ [change.record time]) := by
  cases change <;> simp [parseVarValue,varAppendValue,varAppendBusValue,empty,VarChange.initial,VarChange.record]

theorem Kept.first (time : Nat) (change : VarChange) :
    Kept ((if time ≠ 0 then [change.initial] else []) ++ [change.record time]) ↔ time = 0 ∨
    ¬ change.ShownBy change.initial := by
  have starts : change.initial.time = 0 ∧ (change.record time).time = time := by
    cases change <;> exact ⟨rfl, rfl⟩
  have differ : (change.initial.value ≠ (change.record time).value ∨
    change.initial.busValue ≠ (change.record time).busValue) ↔
      ¬ change.ShownBy change.initial := by
    cases change <;> simp [VarChange.initial,VarChange.record,VarChange.ShownBy]
  constructor
  · intro kept
    by_cases zero : time = 0
    · exact Or.inl zero
    · have chain := kept.changes
      rw [if_pos zero] at chain
      exact Or.inr (differ.mp (by simpa using chain))
  · intro fits
    refine ⟨stored_first _ _ starts.1 starts.2, ?_⟩
    by_cases zero : time = 0
    · simp [zero]
    · simpa [zero] using differ.mpr (fits.resolve_left zero)

theorem Kept.append {change : VarChange} (kept : Kept values) (last : values.getLast? = some entry)
    (follows : change.Follows time entry) :
    Kept (values ++ [change.record time]) := by
  have here : (change.record time).time = time := by cases change <;> rfl
  refine ⟨kept.stored.append last follows.1 _ here, ?_⟩
  refine List.isChain_append.mpr ⟨kept.changes, List.isChain_singleton _, fun prior isLast next isHead => ?_⟩
  rw [last,Option.mem_some_iff] at isLast
  subst isLast
  obtain rfl := Option.some.inj isHead
  cases change with
  | scalar value => exact Or.inl follows.2.1
  | bus busValue busWidth => exact Or.inr follows.2

/-- One call keeps the list as it should be, with the new value at its end, exactly when the change fits. -/
theorem parseVarValue_iff (kept : Kept values) (time : Nat) (change : VarChange) :
    (∃ values', parseVarValue values time change = some values' ∧ Kept values' ∧
      ∃ entry, values'.getLast? = some entry ∧ change.ShownBy entry) ↔ Fits values time change := by
  cases last : values.getLast? with
  | none =>
    rw [parseVarValue_first last,Fits,last,← Kept.first]
    constructor
    · rintro ⟨_, done, kept, -⟩
      rwa [← Option.some.inj done] at kept
    · intro kept
      exact ⟨_, rfl, kept, change.record time, by simp, shownBy_record time change⟩
  | some entry =>
    rw [Fits,last]
    dsimp only
    by_cases shown : change.ShownBy entry
    · have same : parseVarValue values time change = some values := by
        cases change with
        | scalar value =>
          have value_eq : entry.value = some value := shown
          simp [parseVarValue,varAppendValue,last,value_eq]
        | bus busValue busWidth => simp [parseVarValue,varAppendBusValue,last,shown.2]
      exact ⟨fun _ => Or.inl shown, fun _ => ⟨values, same, kept, entry, last, shown⟩⟩
    · rw [or_iff_right shown]
      by_cases follows : change.Follows time entry
      · have grown : parseVarValue values time change = some (values ++ [change.record time]) := by
          cases change with
          | scalar value => simp [parseVarValue,varAppendValue,last,follows.1,follows.2,VarChange.record]
          | bus busValue busWidth =>
            have differs : entry.busValue ≠ busValue := follows.2
            simp [parseVarValue,varAppendBusValue,last,follows.1,differs,VarChange.record]
        exact ⟨fun _ => follows, fun _ => ⟨_, grown, kept.append last follows, _, by simp, shownBy_record time change⟩⟩
      · -- the change is refused, or dropped for a record that does not show it
        refine ⟨?_, fun impossible => absurd impossible follows⟩
        rintro ⟨values', done, -, entry', last', shown'⟩
        cases change with
        | scalar value =>
          have differs : entry.value ≠ some value := shown
          have refused : ¬ (entry.time < time ∧ entry.busWidth = 1) := fun both => follows ⟨both.1, differs, both.2⟩
          simp [parseVarValue,varAppendValue,last,differs,refused] at done
        | bus busValue busWidth =>
          by_cases same : entry.busValue = busValue
          · simp only [parseVarValue,varAppendBusValue,last,same,ne_eq,not_true_eq_false,if_false,
              Option.some.injEq] at done
            rw [← done,last,Option.some.injEq] at last'
            exact absurd (last' ▸ shown') shown
          · have refused : ¬ entry.time < time := fun later => follows ⟨later, same⟩
            simp [parseVarValue,varAppendBusValue,last,same,refused] at done

theorem appendCalls_snoc (start : IdValues) (calls : List AppendCall) (call : AppendCall) :
    appendCalls start (calls ++ [call]) = (appendCalls start calls).bind fun idValues => appendCall idValues call := by
  simp [appendCalls,List.foldlM_append]

theorem appendCalls_declared {start : IdValues} {id : Token} (declared : (start id).isSome)
    (run : appendCalls start calls = some idValues) : (idValues id).isSome := by
  induction calls using List.reverseRecOn generalizing idValues with
  | nil =>
    obtain rfl := Option.some.inj run
    exact declared
  | append_singleton calls call ih =>
    rw [appendCalls_snoc] at run
    obtain ⟨before, earlier, step⟩ := Option.bind_eq_some_iff.mp run
    obtain ⟨values, found, step⟩ := Option.bind_eq_some_iff.mp step
    obtain ⟨values', added, step⟩ := Option.bind_eq_some_iff.mp step
    obtain rfl := Option.some.inj step
    by_cases same : id = call.id
    · simp [same]
    · rw [Function.update_of_ne same]
      exact ih earlier

theorem Maintained.snoc (maintained : Maintained start calls) (run : appendCalls start calls = some idValues)
    (declared : (idValues call.id).isSome) :
    Maintained start (calls ++ [call]) ↔ ∀ values, idValues call.id = some values →
    Fits values call.time call.change := by
  obtain ⟨_, run', kept⟩ := maintained
  rw [run,Option.some.injEq] at run'
  subst run'
  obtain ⟨values, found⟩ := Option.isSome_iff_exists.mp declared
  have step := parseVarValue_iff (kept call.id values found).1 call.time call.change
  have own : ((calls ++ [call]).filter fun other => other.id = call.id).getLast? = some call := by simp
  constructor
  · rintro ⟨after, done, kept'⟩ _ found'
    rw [found,Option.some.injEq] at found'
    subst found'
    rw [appendCalls_snoc,run,Option.bind_some] at done
    obtain ⟨_, found', done⟩ := Option.bind_eq_some_iff.mp done
    rw [found,Option.some.injEq] at found'
    subst found'
    obtain ⟨values', added, done⟩ := Option.bind_eq_some_iff.mp done
    obtain rfl := Option.some.inj done
    have after := kept' call.id values' (by simp)
    exact step.mp ⟨values', added, after.1, after.2 call own⟩
  · intro fits
    obtain ⟨values', added, kept', shown⟩ := step.mpr (fits values found)
    refine ⟨Function.update idValues call.id (some values'), ?_, fun id listed at' => ?_⟩
    · simp [appendCalls_snoc,run,appendCall,found,added]
    · by_cases same : id = call.id
      · subst same
        rw [Function.update_self,Option.some.injEq] at at'
        subst at'
        refine ⟨kept', fun other last => ?_⟩
        obtain rfl := Option.some.inj (own.symm.trans last)
        exact shown
      · rw [Function.update_of_ne same] at at'
        refine ⟨(kept id listed at').1, fun other last => (kept id listed at').2 other ?_⟩
        simpa [List.filter_append,Ne.symm same] using last

/-- The store keeps its invariant after every call exactly when every change fits the list before it. -/
theorem storeInvariant_iff (start : IdValues) (empty : ∀ id values, start id = some values → values = [])
    (calls : List AppendCall) (declared : ∀ call ∈ calls, (start call.id).isSome) :
    (∀ k ≤ calls.length, Maintained start (calls.take k)) ↔
      ∀ k call idValues values, calls[k]? = some call → appendCalls start (calls.take k) = some idValues →
        idValues call.id = some values → Fits values call.time call.change := by
  have snoc : ∀ k call, calls[k]? = some call → calls.take (k + 1) = calls.take k ++ [call] := by
    intro k call at'
    rw [List.take_add_one,at']
    rfl
  constructor
  · intro all k call idValues values at' run found
    obtain ⟨inside, -⟩ := List.getElem?_eq_some_iff.mp at'
    have known := appendCalls_declared (declared call (List.mem_of_getElem? at')) run
    have after := all (k + 1) inside
    rw [snoc k call at'] at after
    exact ((all k (Nat.le_of_lt inside)).snoc run known).mp after values found
  · intro fits k within
    induction k with
    | zero =>
      refine ⟨start, rfl, fun id values found => ?_⟩
      rw [empty id values found]
      exact ⟨⟨⟨(fun _ head => by cases head), List.Pairwise.nil⟩, List.isChain_nil⟩, fun _ last => (by cases last)⟩
    | succ k ih =>
      have before := ih (by omega)
      obtain ⟨idValues, run, -⟩ := before
      have at' : calls[k]? = some calls[k] := List.getElem?_eq_getElem (by omega)
      have known := appendCalls_declared (declared _ (List.mem_of_getElem? at')) run
      rw [snoc k _ at']
      exact ((ih (by omega)).snoc run known).mpr fun values found => fits k _ idValues values at' run found

def oneId : IdValues := fun id => if id = [] then some [] else none

theorem storeInvariant_late : oneId [] = some [] ∧ ∀ k ≤ [(⟨[], 3, .scalar .one⟩ : AppendCall)].length,
    Maintained oneId ([(⟨[], 3, .scalar .one⟩ : AppendCall)].take k) := by
  refine ⟨rfl, (storeInvariant_iff oneId ?_ [⟨[], 3, .scalar .one⟩] ?_).mpr ?_⟩
  · intro id values found
    by_cases here : id = []
    · simpa [oneId,here,eq_comm] using found
    · simp [oneId,here] at found
  · simp [oneId]
  · intro k call idValues values at' run found
    match k with
    | 0 =>
      obtain rfl := Option.some.inj at'
      obtain rfl := Option.some.inj run
      obtain rfl := Option.some.inj found
      exact Or.inr (by simp [VarChange.ShownBy,VarChange.initial])
    | k + 1 => cases at'

/-- Two changes of one id at one time: the assertion on the time of the last record fails. -/
theorem storeInvariant_zero_delay : ∃ (start : IdValues) (calls : List AppendCall),
    (∀ id values, start id = some values → values = []) ∧ (∀ call ∈ calls, (start call.id).isSome) ∧
    calls.Pairwise (fun call next => call.time ≤ next.time) ∧ appendCalls start calls = none ∧
    ¬ ∀ k ≤ calls.length, Maintained start (calls.take k) := by
  have fails : appendCalls oneId [⟨[], 3, .scalar .one⟩, ⟨[], 3, .scalar .zero⟩] = none := rfl
  refine ⟨oneId, [⟨[], 3, .scalar .one⟩, ⟨[], 3, .scalar .zero⟩], ?_, by simp [oneId], by simp, fails, ?_⟩
  · intro id values found
    by_cases here : id = []
    · simpa [oneId,here,eq_comm] using found
    · simp [oneId,here] at found
  · intro all
    obtain ⟨idValues, run, -⟩ := all 2 (Nat.le_refl 2)
    rw [List.take_of_length_le (Nat.le_refl 2),fails] at run
    cases run

end GTPower
