import GTPower.ScopeFilter

/-! Names of variables declared inside scopes against the names the same statements give at the top level. -/
namespace GTPower

def scopePath (scope : List Token) : List Char := scope.flatMap fun context => context ++ ['/']

/-- The scopes as they are given for filtering. -/
def scopeName (scope : List Token) : List Char := List.intercalate ['/'] scope

/-- Name of the variable a statement declares, `none` for a statement that declares none or is not accepted. -/
def recordedName (reader : VcdReader) (words : List Token) : Option (List Char) :=
  (parseVar reader words).bind fun next => next.vcd.vars[reader.vcd.vars.length]?.map VcdVar.name

def VcdReader.atTop (reader : VcdReader) : VcdReader := { reader with scope := [] }

/-- A statement gives its name at the top level behind the path of the scopes, and filtering by the scopes gives that
name back. -/
structure NamedBelowScope (reader : VcdReader) (words : List Token) : Prop where
  named : recordedName reader words = (recordedName reader.atTop words).map (scopePath reader.scope ++ ·)
  recovered : scopeName reader.scope ≠ [] → ∀ name, recordedName reader words = some name →
    relativeName (scopeName reader.scope) name = some (recordedName reader.atTop words)

def isEscaped (text : List Char) : Prop := text.head? = some '\\'

/-- The base name of a variable, with the divider escaped. -/
def escapedBase (base : Token) : List Char := base.flatMap fun ch => if ch = '/' then ['\\', '/'] else [ch]

def DeclaresRange (words : List Token) (base : Token) : Prop :=
  ∃ typeName width id range, words = [typeName, width, id, base, range] ∧ (vcdVarTypeMap.lookup typeName).isSome ∧
    (stoi width).isSome

section Names

theorem scopePath_cons (context : Token) (scope : List Token) : scopePath (context :: scope) = context ++ '/' ::
    scopePath scope := by
  simp [scopePath]

theorem scopePath_eq (inside : scope ≠ []) : scopePath scope = scopeName scope ++ ['/'] := by
  induction scope with
  | nil => exact absurd rfl inside
  | cons context rest ih =>
    rw [scopePath_cons]
    cases rest with
    | nil => simp [scopePath,scopeName]
    | cons next rest =>
      rw [ih (List.cons_ne_nil _ _)]
      simp [scopeName,List.intercalate]

theorem varName_some (scope : List Token) (base range : Token) : varName scope base (some range) =
    scopePath scope ++ escapedBase base ++ (if (scopePath scope ++ escapedBase base).head? = some '\\' then [' ']
    else []) ++ range := rfl

theorem varName_top (base range : Token) : varName [] base (some range) =
    escapedBase base ++ (if (escapedBase base).head? = some '\\' then [' '] else []) ++ range := rfl

theorem isEscaped_append (inside : scope ≠ []) (base : List Char) :
    (scopePath scope ++ base).head? = some '\\' ↔ isEscaped (scopePath scope) := by
  cases scope with
  | nil => exact absurd rfl inside
  | cons context rest =>
    rw [scopePath_cons,isEscaped]
    cases context <;> simp

theorem spaces_eq_iff (left right : Prop) [Decidable left] [Decidable right] :
    (if left then [' '] else []) = (if right then [' '] else []) ↔ (left ↔ right) := by
  by_cases one : left <;> by_cases other : right <;> simp [one,other]

/-- The scopes stay in front of a name unless the space behind its base is put by one of them and not by the other. -/
theorem varName_scope (scope : List Token) (base range : Token) :
    varName scope base (some range) = scopePath scope ++ varName [] base (some range) ↔
      scope = [] ∨ (isEscaped (scopePath scope) ↔ isEscaped (escapedBase base)) := by
  by_cases inside : scope = []
  · simp [inside,scopePath]
  · rw [varName_some,varName_top]
    simp only [inside,false_or,List.append_assoc,List.append_cancel_left_eq]
    rw [List.append_cancel_right_eq,spaces_eq_iff,isEscaped_append inside]
    rfl

theorem recordedName_declared (reader : VcdReader) (typeName width id base : Token) (range : Option Token) :
    (declareVar reader typeName width id base range).bind (fun next =>
    next.vcd.vars[reader.vcd.vars.length]?.map VcdVar.name) =
      (vcdVarTypeMap.lookup typeName).bind fun _ => (stoi width).map fun _ => varName reader.scope base range := by
  unfold declareVar
  cases vcdVarTypeMap.lookup typeName with
  | none => simp
  | some type => cases stoi width <;> simp [makeVar]

theorem recordedName_four (reader : VcdReader) (typeName width id base : Token) :
    recordedName reader [typeName, width, id, base] =
      (vcdVarTypeMap.lookup typeName).bind fun _ => (stoi width).map fun _ => varName reader.scope base none :=
  recordedName_declared reader typeName width id base none

theorem recordedName_five (reader : VcdReader) (typeName width id base range : Token) :
    recordedName reader [typeName, width, id, base, range] =
      (vcdVarTypeMap.lookup typeName).bind fun _ => (stoi width).map fun _ => varName reader.scope base (some range) :=
  recordedName_declared reader typeName width id base (some range)

theorem recordedName_other (four : ∀ typeName width id base, words ≠ [typeName, width, id, base])
    (five : ∀ typeName width id base range, words ≠ [typeName, width, id, base, range]) (reader : VcdReader) :
    recordedName reader words = none := by
  unfold recordedName parseVar
  split
  case h_1 => exact absurd rfl (four _ _ _ _)
  case h_2 => exact absurd rfl (five _ _ _ _ _)
  case h_3 => rfl

end Names

section Recover

theorem relativeName_scopePath (inside : scope ≠ []) (given : scopeName scope ≠ []) (name : List Char) :
    relativeName (scopeName scope) (scopePath scope ++ name) = some (some name) := by
  apply relativeName_below
  rw [BelowScope,if_neg given,scopePath_eq inside,List.append_assoc]
  rfl

/-- Names behind the path of the scopes are recovered, so the second law follows from the first. -/
theorem NamedBelowScope.of_named
    (named : recordedName reader words = (recordedName reader.atTop words).map (scopePath reader.scope ++ ·)) :
    NamedBelowScope reader words := by
  refine ⟨named, fun given name recorded => ?_⟩
  have inside : reader.scope ≠ [] := fun outside => given (by rw [outside]; rfl)
  rw [named] at recorded
  obtain ⟨top, first, rfl⟩ := Option.map_eq_some_iff.mp recorded
  rw [relativeName_scopePath inside given,first]

end Recover

/-- The scopes are only a path in front of the names exactly if no escape of theirs is taken for that of a name with a
bit range, and none of such a name is missed behind them. -/
theorem namedBelowScope_iff (reader : VcdReader) (words : List Token) : NamedBelowScope reader words ↔
    ∀ base, DeclaresRange words base → reader.scope = [] ∨
    (isEscaped (scopePath reader.scope) ↔ isEscaped (escapedBase base)) := by
  constructor
  · rintro ⟨named, -⟩ base ⟨typeName, width, id, range, rfl, known, readable⟩
    obtain ⟨type, known⟩ := Option.isSome_iff_exists.mp known
    obtain ⟨number, readable⟩ := Option.isSome_iff_exists.mp readable
    rw [recordedName_five,recordedName_five,known,readable] at named
    exact (varName_scope reader.scope base range).mp (Option.some.inj named)
  · intro agrees
    apply NamedBelowScope.of_named
    by_cases four : ∃ typeName width id base, words = [typeName, width, id, base]
    · obtain ⟨typeName, width, id, base, rfl⟩ := four
      rw [recordedName_four,recordedName_four]
      cases vcdVarTypeMap.lookup typeName with
      | none => rfl
      | some type => cases stoi width <;> rfl
    · by_cases five : ∃ typeName width id base range, words = [typeName, width, id, base, range]
      · obtain ⟨typeName, width, id, base, range, rfl⟩ := five
        rw [recordedName_five,recordedName_five]
        cases known : vcdVarTypeMap.lookup typeName with
        | none => rfl
        | some type =>
          cases readable : stoi width with
          | none => rfl
          | some number =>
            have same := agrees base ⟨typeName, width, id, range, rfl, by rw [known]; rfl, by rw [readable]; rfl⟩
            exact congrArg some ((varName_scope reader.scope base range).mpr same)
      · have other := recordedName_other (fun typeName width id base equal => four ⟨typeName, width, id, base, equal⟩)
          (fun typeName width id base range equal => five ⟨typeName, width, id, base, range, equal⟩)
        rw [other,other]
        rfl

/-- An escaped bus of the scope `t`, with its range as a word of its own. -/
def escapedBus : List Token := [['w', 'i', 'r', 'e'], ['8'], ['!'], ['\\', 'a'], ['[', '7', ':', '0', ']']]

theorem escapedBus_unspaced : ¬NamedBelowScope { VcdReader.init with scope := [['t']] } escapedBus := by
  rintro ⟨named, -⟩
  revert named
  decide

end GTPower
