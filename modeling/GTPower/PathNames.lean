import GTPower.BusNames

/-! Path names of instances: names joined by dividers, where a divider inside a name is escaped. The first divider is
searched for forward and the last one backward. -/
namespace GTPower.PathNames
open BusNames (strrchr)

section Source
variable (divider escape : Char)

/-- What is before and what is after the first divider that does not follow an escape. -/
def pathNameFirstFrom : Option Char → List Char → Option (List Char × List Char)
  | _, [] => none
  | before, ch :: path =>
    if ch = divider ∧ before ≠ some escape then some ([], path)
    else (pathNameFirstFrom (some ch) path).map fun (first, tail) => (ch :: first, tail)

def pathNameFirst (path : List Char) : Option (List Char × List Char) := pathNameFirstFrom divider escape none path

/-- The backward search passes this index. An escape is only looked for from the third character on. -/
def Passes (path : List Char) (d : ℕ) : Prop := path[d]? ≠ some divider ∨ (1 < d ∧ path[d - 1]? = some escape)

instance (path : List Char) (d : ℕ) : Decidable (Passes divider escape path d) :=
  inferInstanceAs (Decidable (_ ∨ _))

def lastDivider (path : List Char) : ℕ → ℕ
  | 0 => 0
  | d + 1 => if Passes divider escape path (d + 1) then lastDivider path d else d + 1

def pathNameLast (path : List Char) : Option (List Char × List Char) := do
  let (before, _) ← strrchr divider path
  let d := lastDivider divider escape path before.length
  if d ≠ 0 then some (path.take d, path.drop (d + 1)) else none

variable {ι : Type} (findChild : ι → List Char → Option ι)

def findTail : ℕ → Option ι → Option (List Char) → Option ι
  | _, none, _ => none
  | _, some inst, none => some inst
  | 0, some _, some _ => none
  | fuel + 1, some inst, some tail =>
    match pathNameFirst divider escape tail with
    | some (first, nextTail) => findTail fuel (findChild inst first) (some nextTail)
    | none => findTail fuel (findChild inst tail) none

/-- Each round takes at least a divider off the path. -/
def findInstanceRelative (inst : ι) (path : List Char) : Option ι :=
  match pathNameFirst divider escape path with
  | some (first, tail) => findTail divider escape findChild path.length (findChild inst first) (some tail)
  | none => findChild inst path

end Source

section Names
variable {divider escape : Char} {name rest path : List Char} {names : List (List Char)}

structure IsName (divider escape : Char) (name : List Char) : Prop where
  nonempty : name ≠ []
  escaped : ∀ i : ℕ, name[i]? = some divider → ∃ j : ℕ, i = j + 1 ∧ name[j]? = some escape
  last : name.getLast? ≠ some escape

def pathOf (divider : Char) (names : List (List Char)) : List Char := [divider].intercalate names

theorem pathOf_singleton (divider : Char) (name : List Char) : pathOf divider [name] = name := by
  simp [pathOf,List.intercalate]

theorem pathOf_cons (divider : Char) (name : List Char) (names : List (List Char)) (filled : names ≠ []) :
    pathOf divider (name :: names) = name ++ divider :: pathOf divider names := by
  cases names with
  | nil => exact absurd rfl filled
  | cons name' names => simp [pathOf,List.intercalate,List.intersperse]

theorem pathOf_append (divider : Char) (names : List (List Char)) (name : List Char) (filled : names ≠ []) :
    pathOf divider (names ++ [name]) = pathOf divider names ++ divider :: name := by
  induction names with
  | nil => exact absurd rfl filled
  | cons first names ih =>
    cases names with
    | nil => rw [List.singleton_append,pathOf_cons _ _ _ (by simp),pathOf_singleton,pathOf_singleton]
    | cons second names =>
      rw [List.cons_append,pathOf_cons _ _ _ (by simp),ih (by simp),pathOf_cons divider first (second ::
        names) (by simp)]
      simp

theorem pathOf_last (filled : names ≠ []) (areNames : ∀ name ∈ names, IsName divider escape name) :
    pathOf divider names ≠ [] ∧ (pathOf divider names).getLast? ≠ some escape := by
  obtain ⟨front, name, rfl⟩ : ∃ front name, names = front ++ [name] :=
    ⟨names.dropLast, names.getLast filled, (List.dropLast_concat_getLast filled).symm⟩
  obtain ⟨nonempty, -, last⟩ := areNames name (by simp)
  cases front with
  | nil =>
    rw [List.nil_append,pathOf_singleton]
    exact ⟨nonempty, last⟩
  | cons first front =>
    rw [pathOf_append _ _ _ (by simp)]
    refine ⟨by simp, ?_⟩
    rw [List.getLast?_append,List.getLast?_cons_of_ne_nil nonempty]
    cases found : name.getLast? with
    | none => exact absurd (List.getLast?_eq_none_iff.1 found) nonempty
    | some ch =>
      rw [found] at last
      exact last

end Names

section First
variable {divider escape : Char} {name rest path : List Char} {names : List (List Char)}

theorem pathNameFirstFrom_append (before : Option Char) (escaped : ∀ i : ℕ, name[i]? = some divider →
      (i = 0 ∧ before = some escape) ∨ ∃ j : ℕ, i = j + 1 ∧ name[j]? = some escape) (rest : List Char) :
    pathNameFirstFrom divider escape before (name ++ rest) =
      (pathNameFirstFrom divider escape (name.getLast?.or before) rest).map fun found =>
        (name ++ found.1, found.2) := by
  induction name generalizing before with
  | nil => simp
  | cons ch name ih =>
    have passed : ¬(ch = divider ∧ before ≠ some escape) := by
      rintro ⟨rfl, not⟩
      rcases escaped 0 rfl with ⟨-, here⟩ | ⟨j, none, -⟩
      · exact not here
      · cases none
    have later : ∀ i : ℕ, name[i]? = some divider → (i = 0 ∧ some ch = some escape) ∨ ∃ j : ℕ, i = j + 1 ∧
      name[j]? = some escape := by
      intro i found
      rcases escaped (i + 1) found with ⟨none, -⟩ | ⟨j, same, here⟩
      · cases none
      · obtain rfl := Nat.succ.inj same
        cases i with
        | zero => exact .inl ⟨rfl, here⟩
        | succ i => exact .inr ⟨i, rfl, here⟩
    have last : (ch :: name).getLast?.or before = name.getLast?.or (some ch) := by
      cases name <;> simp [List.getLast?_cons]
    rw [List.cons_append,pathNameFirstFrom,if_neg passed,ih (some ch) later,last,Option.map_map]
    rfl

theorem IsName.pathNameFirst_append (isName : IsName divider escape name) (rest : List Char) :
    pathNameFirst divider escape (name ++ rest) =
      (pathNameFirstFrom divider escape name.getLast? rest).map fun found => (name ++ found.1, found.2) := by
  have escaped : ∀ i : ℕ, name[i]? = some divider → (i = 0 ∧ none = some escape) ∨ ∃ j : ℕ, i = j + 1 ∧
    name[j]? = some escape :=
    fun i found => .inr (isName.escaped i found)
  rw [pathNameFirst,pathNameFirstFrom_append none escaped rest,Option.or_none]

theorem IsName.pathNameFirst_eq_none (isName : IsName divider escape name) :
    pathNameFirst divider escape name = none := by
  have whole := isName.pathNameFirst_append []
  rwa [List.append_nil] at whole

theorem pathNameFirst_pathOf (isName : IsName divider escape name) (filled : names ≠ []) :
    pathNameFirst divider escape (pathOf divider (name :: names)) = some (name, pathOf divider names) := by
  rw [pathOf_cons _ _ _ filled,isName.pathNameFirst_append,pathNameFirstFrom,if_pos ⟨rfl, isName.last⟩]
  simp

end First

section Descent
variable {divider escape : Char} {ι : Type} (findChild : ι → List Char → Option ι) {names : List (List Char)}

theorem findTail_pathOf (filled : names ≠ []) (areNames : ∀ name ∈ names, IsName divider escape name) {fuel : ℕ}
    (enough : names.length ≤ fuel)
    (inst : Option ι) : findTail divider escape findChild fuel inst (some (pathOf divider names)) =
      inst.bind fun inst => names.foldlM findChild inst := by
  induction names generalizing fuel inst with
  | nil => exact absurd rfl filled
  | cons name names ih =>
    obtain ⟨isName, others⟩ := List.forall_mem_cons.1 areNames
    obtain ⟨fuel, rfl⟩ := Nat.exists_eq_succ_of_ne_zero (Nat.ne_zero_of_lt enough)
    cases inst with
    | none =>
      unfold findTail
      rfl
    | some inst =>
      cases names with
      | nil =>
        rw [pathOf_singleton,findTail,isName.pathNameFirst_eq_none]
        cases found : findChild inst name <;> cases fuel <;> simp [findTail,found]
      | cons name' names =>
        rw [findTail,pathNameFirst_pathOf isName (by simp)]
        exact ih (by simp) others (Nat.le_of_succ_le_succ enough) (findChild inst name)

theorem length_le_pathOf (filled : names ≠ []) : names.length ≤ (pathOf divider names).length + 1 := by
  induction names with
  | nil => exact absurd rfl filled
  | cons name names ih =>
    cases names with
    | nil => simp
    | cons name' names =>
      rw [pathOf_cons _ _ _ (by simp)]
      have later := ih (by simp)
      simp only [List.length_cons,List.length_append] at later ⊢
      omega

theorem findInstanceRelative_pathOf (filled : names ≠ []) (areNames : ∀ name ∈ names, IsName divider escape name)
    (inst : ι) :
    findInstanceRelative divider escape findChild inst (pathOf divider names) = names.foldlM findChild inst := by
  cases names with
  | nil => exact absurd rfl filled
  | cons name names =>
    obtain ⟨isName, others⟩ := List.forall_mem_cons.1 areNames
    cases names with
    | nil =>
      rw [findInstanceRelative,pathOf_singleton,isName.pathNameFirst_eq_none]
      simp
    | cons name' names =>
      have enough := @length_le_pathOf divider _ (List.cons_ne_nil name (name' :: names))
      rw [findInstanceRelative,pathNameFirst_pathOf isName (by simp)]
      exact findTail_pathOf findChild (by simp) others (Nat.le_of_succ_le_succ enough) (findChild inst name)

end Descent

section Last
variable {divider escape : Char} {name path : List Char} {names : List (List Char)}

theorem lastDivider_eq {n d : ℕ} (le : n ≤ d) (passed : ∀ i, n < i → i ≤ d → Passes divider escape path i)
    (stops : n = 0 ∨ ¬Passes divider escape path n) : lastDivider divider escape path d = n := by
  induction d with
  | zero => exact (Nat.le_zero.1 le).symm
  | succ d ih =>
    by_cases here : n = d + 1
    · subst here
      rw [lastDivider,if_neg (stops.resolve_left (Nat.succ_ne_zero d))]
    · have before : n ≤ d := by omega
      rw [lastDivider,if_pos (passed (d + 1) (by omega) (le_refl _))]
      exact ih before fun i after within => passed i after (by omega)

/-- An escaped divider is passed, from the third character on. -/
theorem passes_of_escaped {i : ℕ} (escaped : path[i]? = some divider → path[i - 1]? = some escape) (third : 1 < i) :
    Passes divider escape path i := by
  by_cases here : path[i]? = some divider
  · exact .inr ⟨third, escaped here⟩
  · exact .inl here

theorem strrchr_eq_none {ch : Char} (none : strrchr ch path = none) : ch ∉ path := by
  induction path with
  | nil => exact List.not_mem_nil
  | cons c path ih =>
    rw [strrchr] at none
    cases later : strrchr ch path with
    | some parts => simp [later] at none
    | none =>
      rw [later] at none
      dsimp only at none
      split at none
      · cases none
      · next differs => exact fun mem => (List.mem_cons.1 mem).elim (fun same => differs same.symm) (ih later)

theorem strrchr_spec {ch : Char} {before after : List Char} (found : strrchr ch path = some (before, after)) :
    path = before ++ ch :: after ∧ ch ∉ after := by
  induction path generalizing before with
  | nil => cases found
  | cons c path ih =>
    rw [strrchr] at found
    cases later : strrchr ch path with
    | some parts =>
      obtain ⟨before', after'⟩ := parts
      rw [later,Option.some.injEq,Prod.mk.injEq] at found
      obtain ⟨rfl, rfl⟩ := found
      obtain ⟨whole, absent⟩ := ih later
      exact ⟨congrArg (c :: ·) whole, absent⟩
    | none =>
      rw [later] at found
      dsimp only at found
      split at found
      · next same =>
        rw [Option.some.injEq,Prod.mk.injEq] at found
        obtain ⟨rfl, rfl⟩ := found
        rw [same]
        exact ⟨rfl, strrchr_eq_none later⟩
      · cases found

theorem IsName.passes_behind (isName : IsName divider escape name) {front : List Char} {i : ℕ}
    (after : front.length < i) :
    Passes divider escape (front ++ divider :: name) i := by
  obtain ⟨j, rfl⟩ : ∃ j, i = front.length + 1 + j := ⟨i - (front.length + 1), by omega⟩
  have at' (k : ℕ) : (front ++ divider :: name)[front.length + 1 + k]? = name[k]? := by
    rw [List.getElem?_append_right (by omega)]
    have place : front.length + 1 + k - front.length = k + 1 := by omega
    rw [place,List.getElem?_cons_succ]
  by_cases here : name[j]? = some divider
  · obtain ⟨k, rfl, escaped⟩ := isName.escaped j here
    right
    refine ⟨by omega, ?_⟩
    have place : front.length + 1 + (k + 1) - 1 = front.length + 1 + k := by omega
    rw [place,at',escaped]
  · left
    rwa [at']

theorem pathNameLast_pathOf (filled : names ≠ []) (areNames : ∀ name ∈ names, IsName divider escape name)
    (isName : IsName divider escape name) :
    pathNameLast divider escape (pathOf divider (names ++ [name])) = some (pathOf divider names, name) := by
  obtain ⟨nonempty, last⟩ := pathOf_last filled areNames
  rw [pathOf_append _ _ _ filled]
  generalize pathOf divider names = front at nonempty last
  obtain ⟨ch, rest, rfl⟩ := List.exists_cons_of_ne_nil nonempty
  have here : (ch :: rest ++ divider :: name)[(ch :: rest).length]? = some divider := by
    rw [List.getElem?_append_right (le_refl _),Nat.sub_self]
    rfl
  have stops : ¬Passes divider escape (ch :: rest ++ divider :: name) (ch :: rest).length := by
    rintro (other | ⟨-, escaped⟩)
    · exact other here
    · rw [List.getElem?_append_left (by simp),← List.getLast?_eq_getElem?] at escaped
      exact last escaped
  unfold pathNameLast
  cases found : strrchr divider (ch :: rest ++ divider :: name) with
  | none => exact absurd (List.mem_append_right _ List.mem_cons_self) (strrchr_eq_none found)
  | some parts =>
    obtain ⟨before, after⟩ := parts
    have within : (ch :: rest).length ≤ before.length := by
      by_contra less
      obtain ⟨whole, absent⟩ := strrchr_spec found
      rw [whole,List.getElem?_append_right (by omega),List.getElem?_cons] at here
      rw [if_neg (by omega)] at here
      exact absent (List.mem_of_getElem? here)
    have index := lastDivider_eq within (fun i after _ => isName.passes_behind after) (.inr stops)
    simp only [Option.bind_eq_bind,Option.bind_some,index]
    simp

/-- One name is split at an escaped divider of its first two characters. -/
theorem IsName.pathNameLast_eq (isName : IsName divider escape name) :
    pathNameLast divider escape name = if name[0]? = some escape ∧
    name[1]? = some divider then some ([escape], name.drop 2) else none := by
  have third : ∀ i, 1 < i → Passes divider escape name i := by
    intro i after
    refine passes_of_escaped (fun here => ?_) after
    obtain ⟨j, rfl, escaped⟩ := isName.escaped i here
    exact escaped
  unfold pathNameLast
  cases found : strrchr divider name with
  | none =>
    rw [if_neg fun escaped => strrchr_eq_none found (List.mem_of_getElem? escaped.2)]
    rfl
  | some parts =>
    obtain ⟨before, after⟩ := parts
    obtain ⟨whole, -⟩ := strrchr_spec found
    have here : name[before.length]? = some divider := by rw [whole]; simp
    obtain ⟨j, same, -⟩ := isName.escaped _ here
    simp only [Option.bind_eq_bind,Option.bind_some]
    by_cases escaped : name[0]? = some escape ∧ name[1]? = some divider
    · have stops : ¬Passes divider escape name 1 := by
        rintro (other | ⟨less, -⟩)
        · exact other escaped.2
        · exact absurd less (lt_irrefl 1)
      have index : lastDivider divider escape name before.length = 1 :=
        lastDivider_eq (by omega) (fun i after _ => third i after) (.inr stops)
      have first : name.take 1 = [escape] := by
        cases name with
        | nil => cases here
        | cons ch name => simpa using escaped.1
      rw [if_pos escaped,index,if_pos Nat.one_ne_zero,first]
    · have second : Passes divider escape name 1 := by
        left
        intro divided
        obtain ⟨i, one, before⟩ := isName.escaped 1 divided
        obtain rfl := Nat.succ.inj one
        exact escaped ⟨before, divided⟩
      have index : lastDivider divider escape name before.length = 0 := by
        refine lastDivider_eq (Nat.zero_le _) (fun i after _ => ?_) (.inl rfl)
        by_cases one : i = 1
        · exact one ▸ second
        · exact third i (by omega)
      rw [if_neg escaped,index]
      rfl

end Last

section Splitting

/-- The splits and the descent give exactly the names. -/
structure Splits (divider escape : Char) (names : List (List Char)) : Prop where
  first : pathNameFirst divider escape (pathOf divider names) =
    if names.length = 1 then none else names.head?.map fun name => (name, pathOf divider names.tail)
  last : pathNameLast divider escape (pathOf divider names) =
    if names.length = 1 then none else names.getLast?.map fun name => (pathOf divider names.dropLast, name)
  descent : ∀ (ι : Type) (findChild : ι → List Char → Option ι) inst,
    findInstanceRelative divider escape findChild inst (pathOf divider names) = names.foldlM findChild inst

/-- The names of a path are found, but for a single name whose first two characters are an escaped divider. -/
theorem splits_iff (divider escape : Char) (names : List (List Char)) (filled : names ≠ [])
    (areNames : ∀ name ∈ names, IsName divider escape name) :
    Splits divider escape names ↔ ∀ rest, names ≠ [escape :: divider :: rest] := by
  obtain ⟨front, name, rfl⟩ : ∃ front name, names = front ++ [name] :=
    ⟨names.dropLast, names.getLast filled, (List.dropLast_concat_getLast filled).symm⟩
  have isName := areNames name (by simp)
  have descent (ι : Type) (findChild : ι → List Char → Option ι) (inst : ι) :=
    findInstanceRelative_pathOf findChild filled areNames inst
  cases front with
  | nil =>
    rw [List.nil_append] at descent ⊢
    have split := isName.pathNameLast_eq
    constructor
    · rintro ⟨-, last, -⟩ rest single
      obtain rfl := List.singleton_inj.1 single
      rw [pathOf_singleton,split] at last
      simp at last
    · intro other
      refine ⟨?_, ?_, descent⟩
      · rw [pathOf_singleton,isName.pathNameFirst_eq_none]
        simp
      · rw [pathOf_singleton,split,if_neg]
        · simp
        · rintro ⟨first, second⟩
          cases name with
          | nil => cases first
          | cons ch name =>
            cases name with
            | nil => cases second
            | cons ch' name =>
              obtain rfl := Option.some.inj first
              obtain rfl := Option.some.inj second
              exact other name rfl
  | cons first front =>
    have several : (first :: front ++ [name]).length ≠ 1 := by simp
    refine iff_of_true ⟨?_, ?_, descent⟩ fun rest single => ?_
    · rw [if_neg several]
      exact pathNameFirst_pathOf (areNames first (by simp)) (by simp)
    · rw [if_neg several,pathNameLast_pathOf (List.cons_ne_nil first front) (fun name mem =>
        areNames name (List.mem_append_left _ mem)) isName]
      rw [List.getLast?_concat,List.dropLast_concat]
      rfl
    · rw [single] at several
      exact several rfl

/-- A top level, a block with an escaped divider, and a cell. -/
theorem splits_hierarchy : Splits '/' '\\' [['t', 'o', 'p'], ['b', '\\', '/', '1'], ['u']] := by
  apply (splits_iff '/' '\\' [['t', 'o', 'p'], ['b', '\\', '/', '1'], ['u']] (List.cons_ne_nil _ _) _).2 nofun
  have plain (name : List Char) (nonempty : name ≠ []) (noDivider : '/' ∉ name) (last : name.getLast? ≠ some '\\') :
    IsName '/' '\\' name :=
    ⟨nonempty, fun i found => absurd (List.mem_of_getElem? found) noDivider, last⟩
  intro name mem
  simp only [List.mem_cons,List.not_mem_nil,or_false] at mem
  rcases mem with rfl | rfl | rfl
  · exact plain _ (by decide) (by decide) (by decide)
  · refine ⟨by decide, fun i found => ?_, by decide⟩
    rcases i with _ | _ | _ | _ | i
    · cases found
    · cases found
    · exact ⟨1, rfl, rfl⟩
    · cases found
    · cases found
  · exact plain _ (by decide) (by decide) (by decide)

/-- A single name that starts with an escaped divider is split. -/
theorem escape_split : ¬Splits '/' '\\' [['\\', '/', 'a']] := by
  intro splits
  exact absurd splits.last (by decide)

end Splitting

end GTPower.PathNames
