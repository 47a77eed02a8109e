import GTPower.VcdReader

/-! The variables of a dump below a given scope. A variable is selected by the text its name begins with, and its path
in the scope is what follows the divider. -/
namespace GTPower

section Select

/-- `substr` from a position on, `none` where it throws. -/
def substr (text : List Char) (pos : Nat) : Option (List Char) :=
  if pos ≤ text.length then some (text.drop pos) else none

/-- Path of a variable in the scope, `some none` for a variable that is left out. No scope selects every variable. -/
def relativeName (scope name : List Char) : Option (Option (List Char)) :=
  if scope = [] then some (some name)
  else if name.take scope.length = scope then (substr name (scope.length + 1)).map some
  else some none

def VcdVar.isAnnotated (var : VcdVar) : Prop := var.type = .wire ∨ var.type = .reg

def isDigitalVar (var : VcdVar) : Prop :=
  var.type ∈ [VcdVarType.wire, .reg, .tri, .triand, .trior, .trireg, .tri0, .tri1, .wand, .wor]

instance (var : VcdVar) : Decidable var.isAnnotated := inferInstanceAs (Decidable (_ ∨ _))
instance (var : VcdVar) : Decidable (isDigitalVar var) := inferInstanceAs (Decidable (_ ∈ _))

def Vcd.values (vcd : Vcd) (var : VcdVar) : List VcdValue := (vcd.idValues var.id).getD []

variable (scope : List Char) (vcd : Vcd)

def selectVar (passes : VcdVar → Prop) [DecidablePred passes] (var : VcdVar) : Option (Option (List Char)) :=
  if vcd.values var ≠ [] ∧ passes var then relativeName scope var.name else some none

/-- The variables that pass a test and have values, with their paths in the scope. -/
def selectVars (passes : VcdVar → Prop) [DecidablePred passes] : List VcdVar → Option (List (VcdVar × List Char))
  | [] => some []
  | var :: rest => do
    let selected ← selectVar scope vcd passes var
    let others ← selectVars passes rest
    return selected.toList.map (fun path => (var, path)) ++ others

/-- The variables that are looked up for their activity to be set, by the names that are handed on. -/
def setActivities : Option (List (VcdVar × List Char)) := selectVars scope vcd VcdVar.isAnnotated vcd.vars

/-- The variables whose events are counted, by the names they are looked up with. -/
def reportWaveformStat : Option (List (VcdVar × List Char)) := selectVars scope vcd isDigitalVar vcd.vars

end Select

/-- The name is the scope, a divider and the rest. Without a scope every name is its own rest. -/
def BelowScope (scope name rest : List Char) : Prop := name = if scope = [] then rest else scope ++ '/' :: rest

/-- Exactly the wires and registers below the scope are looked up, by their paths in it, and nothing is thrown. -/
structure ScopeFiltered (scope : List Char) (vcd : Vcd) : Prop where
  annotated : ∃ annotations, setActivities scope vcd = some annotations ∧ ∀ var path,
    (var, path) ∈ annotations ↔ var ∈ vcd.vars ∧ var.isAnnotated ∧ BelowScope scope var.name path
  counted : (reportWaveformStat scope vcd).isSome

/-- What the names and values have to be like. -/
structure ScopeDivided (scope : List Char) (vcd : Vcd) : Prop where
  /-- A wire or register whose name begins with the scope goes on with a divider. -/
  divided : ∀ var ∈ vcd.vars, var.isAnnotated → vcd.values var ≠ [] → scope <+: var.name →
    ∃ rest, BelowScope scope var.name rest
  /-- No variable is called as the scope. -/
  inside : ∀ var ∈ vcd.vars, isDigitalVar var → vcd.values var ≠ [] → scope ≠ [] → var.name ≠ scope
  /-- The wires and registers below the scope have values. -/
  valued : ∀ var ∈ vcd.vars, var.isAnnotated → ∀ rest, BelowScope scope var.name rest → vcd.values var ≠ []

section Names

theorem relativeName_below (below : BelowScope scope name rest) : relativeName scope name = some (some rest) := by
  unfold BelowScope at below
  unfold relativeName
  by_cases whole : scope = []
  · rw [if_pos whole] at below ⊢
    rw [below]
  · rw [if_neg whole] at below ⊢
    subst below
    have begins : (scope ++ '/' :: rest).take scope.length = scope := by simp
    have rest_eq : substr (scope ++ '/' :: rest) (scope.length + 1) = some rest := by
      unfold substr
      rw [if_pos (by simp),List.drop_append]
      simp
    rw [if_pos begins,rest_eq]
    rfl

theorem relativeName_none_iff : relativeName scope name = none ↔ scope ≠ [] ∧ name = scope := by
  unfold relativeName substr
  by_cases whole : scope = []
  · simp [whole]
  · rw [if_neg whole]
    by_cases begins : name.take scope.length = scope
    · rw [if_pos begins]
      have least : scope.length ≤ name.length := by
        have length_eq := congrArg List.length begins
        rw [List.length_take] at length_eq
        omega
      by_cases longer : scope.length + 1 ≤ name.length
      · have other : name ≠ scope := fun equal => by rw [equal] at longer; omega
        simp [Nat.lt_of_succ_le longer,other]
      · have equal : name = scope := by
          rw [← begins,List.take_of_length_le (by omega)]
        simp [equal,whole]
    · have other : name ≠ scope := fun equal => begins (by rw [equal,List.take_length])
      simp [if_neg begins,other]

theorem scope_begins (selected : relativeName scope name = some (some path)) : scope <+: name := by
  unfold relativeName at selected
  by_cases whole : scope = []
  · rw [whole]
    exact List.nil_prefix
  · rw [if_neg whole] at selected
    by_cases begins : name.take scope.length = scope
    · rw [List.prefix_iff_eq_take,begins]
    · rw [if_neg begins] at selected
      cases selected

theorem relativeName_begins (begins : scope <+: name) : relativeName scope name ≠ some none := by
  intro left
  unfold relativeName at left
  by_cases whole : scope = []
  · rw [if_pos whole] at left
    cases left
  · rw [if_neg whole,if_pos (List.prefix_iff_eq_take.mp begins).symm] at left
    cases found : substr name (scope.length + 1) with
    | none => rw [found] at left; cases left
    | some rest => rw [found] at left; cases left

end Names

section Selection
variable {scope : List Char} {vcd : Vcd} {passes : VcdVar → Prop} [DecidablePred passes]

theorem selectVar_none_iff (var : VcdVar) : selectVar scope vcd passes var = none ↔
    passes var ∧ vcd.values var ≠ [] ∧ scope ≠ [] ∧ var.name = scope := by
  unfold selectVar
  by_cases kept : vcd.values var ≠ [] ∧ passes var
  · rw [if_pos kept,relativeName_none_iff]
    exact ⟨fun thrown => ⟨kept.2, kept.1, thrown⟩, fun thrown => thrown.2.2⟩
  · rw [if_neg kept]
    exact ⟨fun thrown => (by cases thrown), fun thrown => absurd ⟨thrown.2.1, thrown.1⟩ kept⟩

theorem selectVar_some_iff (var : VcdVar) (path : List Char) : selectVar scope vcd passes var = some (some path) ↔
    passes var ∧ vcd.values var ≠ [] ∧ relativeName scope var.name = some (some path) := by
  unfold selectVar
  by_cases kept : vcd.values var ≠ [] ∧ passes var
  · rw [if_pos kept]
    exact ⟨fun found => ⟨kept.2, kept.1, found⟩, fun found => found.2.2⟩
  · rw [if_neg kept]
    exact ⟨fun found => (by cases found), fun found => absurd ⟨found.2.1, found.1⟩ kept⟩

theorem selectVars_none_iff (vars : List VcdVar) : selectVars scope vcd passes vars = none ↔
    ∃ var ∈ vars, passes var ∧ vcd.values var ≠ [] ∧ scope ≠ [] ∧ var.name = scope := by
  simp only [← selectVar_none_iff]
  induction vars with
  | nil => simp [selectVars]
  | cons var rest ih =>
    rw [List.exists_mem_cons_iff,← ih]
    simp only [selectVars]
    cases selectVar scope vcd passes var with
    | none => simp
    | some selected => cases selectVars scope vcd passes rest <;> simp

theorem mem_selectVars (selected : selectVars scope vcd passes vars = some found) (var : VcdVar) (path : List Char) :
    (var, path) ∈ found ↔ var ∈ vars ∧ passes var ∧ vcd.values var ≠ [] ∧
    relativeName scope var.name = some (some path) := by
  rw [← selectVar_some_iff]
  induction vars generalizing found with
  | nil =>
    obtain rfl := Option.some.inj selected
    simp
  | cons head rest ih =>
    simp only [selectVars,Option.bind_eq_bind,Option.bind_eq_some_iff] at selected
    obtain ⟨name, here, others, run, result⟩ := selected
    obtain rfl := Option.some.inj result
    rw [List.mem_append,ih run,List.mem_cons]
    have front : (var, path) ∈ name.toList.map (fun path => (head, path)) ↔
        var = head ∧ selectVar scope vcd passes var = some (some path) := by
      constructor
      · intro mem
        obtain ⟨name, chosen, equal⟩ := List.mem_map.mp mem
        obtain ⟨rfl, rfl⟩ := Prod.mk.inj equal
        rw [Option.mem_toList.mp chosen] at here
        exact ⟨rfl, here⟩
      · rintro ⟨rfl, chosen⟩
        obtain rfl := Option.some.inj (here.symm.trans chosen)
        simp
    rw [front]
    constructor
    · rintro (⟨rfl, kept⟩ | ⟨mem, kept⟩)
      · exact ⟨Or.inl rfl, kept⟩
      · exact ⟨Or.inr mem, kept⟩
    · rintro ⟨rfl | mem, kept⟩
      · exact Or.inl ⟨rfl, kept⟩
      · exact Or.inr ⟨mem, kept⟩

end Selection

/-- The scope is filtered as its name says exactly if the names that begin with it are divided from it. -/
theorem scopeFiltered_iff (scope : List Char) (vcd : Vcd) : ScopeFiltered scope vcd ↔ ScopeDivided scope vcd := by
  constructor
  · rintro ⟨⟨annotations, selected, exactly⟩, counted⟩
    refine ⟨fun var mem wire valued begins => ?_, fun var mem digital valued named equal =>
      ?_, fun var mem wire rest below => ?_⟩
    · cases found : relativeName scope var.name with
      | none =>
        have thrown := (selectVars_none_iff vcd.vars).mpr ⟨var, mem, wire, valued, relativeName_none_iff.mp found⟩
        rw [setActivities,thrown] at selected
        cases selected
      | some name =>
        cases name with
        | none => exact absurd found (relativeName_begins begins)
        | some path =>
          exact ⟨path, ((exactly var path).mp ((mem_selectVars selected var path).mpr ⟨mem, wire, valued, found⟩)).2.2⟩
    · have thrown := (selectVars_none_iff vcd.vars).mpr ⟨var, mem, digital, valued, named, equal⟩
      rw [reportWaveformStat,thrown] at counted
      cases counted
    · have annotated := (exactly var rest).mpr ⟨mem, wire, below⟩
      exact ((mem_selectVars selected var rest).mp annotated).2.2.1
  · intro divided
    constructor
    · cases selected : setActivities scope vcd with
      | none =>
        obtain ⟨var, mem, wire, valued, named, equal⟩ := (selectVars_none_iff vcd.vars).mp selected
        obtain ⟨rest, below⟩ := divided.divided var mem wire valued (by rw [equal])
        rw [BelowScope,if_neg named] at below
        have length_eq := congrArg List.length (equal.symm.trans below)
        simp at length_eq
      | some annotations =>
        refine ⟨annotations, rfl, fun var path => ?_⟩
        rw [mem_selectVars selected]
        constructor
        · rintro ⟨mem, wire, valued, found⟩
          obtain ⟨rest, below⟩ := divided.divided var mem wire valued (scope_begins found)
          obtain rfl := Option.some.inj (Option.some.inj ((relativeName_below below).symm.trans found))
          exact ⟨mem, wire, below⟩
        · rintro ⟨mem, wire, below⟩
          exact ⟨mem, wire, divided.valued var mem wire path below, relativeName_below below⟩
    · rw [Option.isSome_iff_ne_none]
      intro thrown
      obtain ⟨var, mem, digital, valued, named, equal⟩ := (selectVars_none_iff vcd.vars).mp thrown
      exact divided.inside var mem digital valued named equal

/-- A wire of the scope `t` and one of the scope `top`, read with the scope `t`. -/
def siblingScopes : Vcd :=
  ⟨1, [⟨['t', '/', 'a'], .wire, 1, ['!']⟩, ⟨['t', 'o', 'p', '/', 'b'], .wire, 1, ['!']⟩],
    fun id => if id = ['!'] then some [⟨0, some .zero, 0, 1⟩] else none, 0, 5, [(0, 6)]⟩

theorem siblingScopes_mixed : ¬ScopeFiltered ['t'] siblingScopes := by
  rintro ⟨⟨annotations, selected, exactly⟩, -⟩
  have listed : setActivities ['t'] siblingScopes = some [(⟨['t', '/', 'a'], .wire, 1, ['!']⟩, ['a']),
      (⟨['t', 'o', 'p', '/', 'b'], .wire, 1, ['!']⟩, ['p', '/', 'b'])] := by decide
  obtain rfl := Option.some.inj (listed.symm.trans selected)
  have below := ((exactly _ ['p', '/', 'b']).mp (List.mem_cons_of_mem _ (List.mem_singleton_self _))).2.2
  exact absurd below (by unfold BelowScope; decide)

end GTPower
