import Mathlib.Computability.Language

/-! Glob matching. The scan over equal characters also runs over a star of the pattern that meets one of the string, and
a star tries no empty rest of the string. -/
namespace GTPower.PatternMatch

section Source

/-- Some rest of the string that is not empty. -/
def anyRest (matches' : List Char → Bool) : List Char → Bool
  | [] => false
  | ch :: str => matches' (ch :: str) || anyRest matches' str

/-- The two matchers differ in how they compare characters. A rest of the string is matched from the start again. -/
def globMatch (equal : Char → Char → Bool) : List Char → List Char → Bool
  | [], str => str.isEmpty
  | p :: pattern, [] => p = '*' && pattern.isEmpty
  | p :: pattern, s :: str =>
    if equal s p || p = '?' then globMatch equal pattern str
    else if p = '*' then pattern.isEmpty || anyRest (globMatch equal pattern) (s :: str)
    else false

def patternMatch (pattern str : List Char) : Bool := globMatch (fun s p => s = p) pattern str

def equalCase (nocase : Bool) (s p : Char) : Bool := if nocase then s.toLower = p.toLower else s = p

def patternMatchNoCase (pattern str : List Char) (nocase : Bool) : Bool := globMatch (equalCase nocase) pattern str

end Source

section Languages

/-- What one character of a pattern stands for. -/
def StandsFor (equal : Char → Char → Bool) (p : Char) (word : List Char) : Prop :=
  if p = '?' then ∃ s, word = [s] else if p = '*' then True else ∃ s, equal s p ∧ word = [s]

def symbol (equal : Char → Char → Bool) (p : Char) : Language Char := {word | StandsFor equal p word}

def language (equal : Char → Char → Bool) (pattern : List Char) : Language Char := (pattern.map (symbol equal)).prod

/-- The string is split along the pattern such that a star that meets a star takes just that, and any other star leaves
something for the pattern after it. -/
inductive Split (equal : Char → Char → Bool) : List Char → List Char → Prop
  | nil : Split equal [] []
  | any {s : Char} {pattern str : List Char} : Split equal pattern str → Split equal ('?' :: pattern) (s :: str)
  | same {p s : Char} {pattern str : List Char} : equal s p → Split equal pattern str →
    Split equal (p :: pattern) (s :: str)
  | last {str : List Char} : (∀ s ∈ str.head?, ¬equal s '*') → Split equal ['*'] str
  | star {pattern taken rest str : List Char} : taken ++ rest = str → (∀ s ∈ str.head?, ¬equal s '*') → rest ≠ [] →
    pattern ≠ [] →
      Split equal pattern rest → Split equal ('*' :: pattern) str

end Languages

section Meaning
variable {equal : Char → Char → Bool} {p s : Char} {pattern str : List Char}

theorem mem_language_nil : str ∈ language equal [] ↔ str = [] := by
  simp [language,Language.mem_one]

theorem mem_language_cons : str ∈ language equal (p :: pattern) ↔
    ∃ taken ∈ symbol equal p, ∃ rest ∈ language equal pattern, taken ++ rest = str := by
  simp [language,Language.mem_mul]

theorem mem_symbol_star (word : List Char) : word ∈ symbol equal '*' := by
  show StandsFor equal '*' word
  simp [StandsFor]

theorem mem_symbol_any (s : Char) : [s] ∈ symbol equal '?' := by
  show StandsFor equal '?' [s]
  simp [StandsFor]

theorem mem_symbol_same (same : equal s p) : [s] ∈ symbol equal p := by
  show StandsFor equal p [s]
  unfold StandsFor
  split
  · exact ⟨s, rfl⟩
  · split
    · trivial
    · exact ⟨s, same, rfl⟩

theorem Split.language (split : Split equal pattern str) : str ∈ language equal pattern := by
  induction split with
  | nil => exact mem_language_nil.2 rfl
  | any _ ih => exact mem_language_cons.2 ⟨_, mem_symbol_any _, _, ih, rfl⟩
  | same eq _ ih => exact mem_language_cons.2 ⟨_, mem_symbol_same eq, _, ih, rfl⟩
  | last _ => exact mem_language_cons.2 ⟨_, mem_symbol_star _, _, mem_language_nil.2 rfl, List.append_nil _⟩
  | star word _ _ _ _ ih => exact mem_language_cons.2 ⟨_, mem_symbol_star _, _, ih, word⟩

theorem anyRest_iff {matches' : List Char → Bool} : anyRest matches' str = true ↔ ∃ taken rest, taken ++ rest = str ∧
    rest ≠ [] ∧ matches' rest := by
  induction str with
  | nil => simp [anyRest]
  | cons s str ih =>
    rw [anyRest,Bool.or_eq_true,ih]
    constructor
    · rintro (here | ⟨taken, rest, rfl, more, matched⟩)
      · exact ⟨[], s :: str, rfl, by simp, here⟩
      · exact ⟨s :: taken, rest, rfl, more, matched⟩
    · rintro ⟨taken, rest, split, more, matched⟩
      cases taken with
      | nil =>
        rw [List.nil_append] at split
        exact .inl (split ▸ matched)
      | cons t taken =>
        rw [List.cons_append,List.cons.injEq] at split
        exact .inr ⟨taken, rest, split.2, more, matched⟩

theorem globMatch_iff (pattern str : List Char) : globMatch equal pattern str = true ↔ Split equal pattern str := by
  induction pattern generalizing str with
  | nil =>
    cases str with
    | nil => simp [globMatch,Split.nil]
    | cons s str =>
      simp only [globMatch,List.isEmpty_cons,Bool.false_eq_true,false_iff]
      intro split
      cases split
  | cons p pattern ih =>
    cases str with
    | nil =>
      rw [globMatch,Bool.and_eq_true,decide_eq_true_eq,List.isEmpty_iff]
      constructor
      · rintro ⟨rfl, rfl⟩
        exact .last (by simp)
      · intro split
        cases split with
        | last _ => exact ⟨rfl, rfl⟩
        | star word _ more _ _ => exact absurd (List.append_eq_nil_iff.1 word).2 more
    | cons s str =>
      rw [globMatch]
      split
      · next runs =>
        rw [ih]
        constructor
        · intro split
          rcases Bool.or_eq_true_iff.1 runs with same | isAny
          · exact .same same split
          · rw [decide_eq_true_eq] at isAny
            exact isAny ▸ .any split
        · intro split
          cases split with
          | any split => exact split
          | same _ split => exact split
          | last apart => simp [apart s rfl] at runs
          | star _ apart _ _ _ => simp [apart s rfl] at runs
      · next stays =>
        rw [Bool.or_eq_true,not_or,decide_eq_true_eq] at stays
        split
        · next isStar =>
          subst isStar
          have apart : ∀ ch ∈ (s :: str).head?, ¬equal ch '*' := by simpa using stays.1
          rw [Bool.or_eq_true,List.isEmpty_iff,anyRest_iff]
          constructor
          · rintro (rfl | ⟨taken, rest, word, more, matched⟩)
            · exact .last apart
            · by_cases none : pattern = []
              · subst none
                exact .last apart
              · exact .star word apart more none ((ih rest).1 matched)
          · intro split
            cases split with
            | same same _ => exact absurd same stays.1
            | last _ => exact .inl rfl
            | star word _ more _ split => exact .inr ⟨_, _, word, more, (ih _).2 split⟩
        · next notStar =>
          simp only [Bool.false_eq_true,false_iff]
          intro split
          cases split with
          | any _ => exact stays.2 rfl
          | same same _ => exact stays.1 same
          | last _ => exact notStar rfl
          | star _ _ _ _ _ => exact notStar rfl

/-- Both matchers are right about a string that is not in the language, or that is split so. -/
theorem patternMatch_right_iff (pattern str : List Char) (nocase : Bool) :
    ((patternMatch pattern str = true ↔ str ∈ language (fun s p => s = p) pattern) ↔
        (str ∈ language (fun s p => s = p) pattern → Split (fun s p => s = p) pattern str)) ∧
      ((patternMatchNoCase pattern str nocase = true ↔ str ∈ language (equalCase nocase) pattern) ↔
        (str ∈ language (equalCase nocase) pattern → Split (equalCase nocase) pattern str)) := by
  have right : ∀ equal : Char → Char → Bool, (globMatch equal pattern str = true ↔ str ∈ language equal pattern) ↔
      (str ∈ language equal pattern → Split equal pattern str) := by
    intro equal
    rw [globMatch_iff]
    exact ⟨Iff.mpr, fun split => ⟨Split.language, split⟩⟩
  exact ⟨right _, right _⟩

/-- The star of the pattern runs over that of the string, and a second star finds the string at its end. -/
theorem patternMatch_misses :
    ("*ba".toList ∈ language (fun s p => s = p) "*a".toList ∧ patternMatch "*a".toList "*ba".toList = false) ∧
      "a".toList ∈ language (fun s p => s = p) "a**".toList ∧ patternMatch "a**".toList "a".toList = false := by
  refine ⟨⟨?_, by decide⟩, ?_, by decide⟩
  · refine mem_language_cons.2 ⟨['*', 'b'], mem_symbol_star _, ['a'], ?_, rfl⟩
    exact mem_language_cons.2 ⟨['a'], mem_symbol_same (by decide), [], mem_language_nil.2 rfl, rfl⟩
  · refine mem_language_cons.2 ⟨['a'], mem_symbol_same (by decide), [], ?_, rfl⟩
    refine mem_language_cons.2 ⟨[], mem_symbol_star _, [], ?_, rfl⟩
    exact mem_language_cons.2 ⟨[], mem_symbol_star _, [], mem_language_nil.2 rfl, rfl⟩

end Meaning

end GTPower.PatternMatch
