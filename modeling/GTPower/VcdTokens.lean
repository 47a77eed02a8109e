import Mathlib

/-! Words of a VCD file. The reader takes them one by one; a word that the file ends in, without whitespace after it, is
reported as the end of the file. -/
namespace GTPower

abbrev Token := List Char

def isSpace (ch : Char) : Bool := ch == ' ' || ch == '\t' || ch == '\n' || ch == '\x0b' || ch == '\x0c' || ch == '\r'

/-- The next word and the text after the character that ended it; the empty word at the end of the file. -/
def getToken (text : List Char) : Token × List Char :=
  let start := text.dropWhile isSpace
  match start.dropWhile fun ch => !isSpace ch with
  | [] => ([], [])
  | _ :: rest => (start.takeWhile fun ch => !isSpace ch, rest)

/-- The words read one after the other up to the end of the file, as many as `fuel` allows. -/
def tokensFrom : Nat → List Char → List Token
  | 0, _ => []
  | fuel + 1, text =>
    match getToken text with
    | ([], _) => []
    | (token, rest) => token :: tokensFrom fuel rest

def tokens (text : List Char) : List Token := tokensFrom (text.length + 1) text

/-- The text has the words in order, each followed by whitespace or the end of the text. -/
inductive Layout : List Token → List Char → Prop
  | nil {text : List Char} (gap : ∀ ch ∈ text, isSpace ch) : Layout [] text
  | cons {space token rest : List Char} {words : List Token} (gap : ∀ ch ∈ space, isSpace ch) (word : ∀ ch ∈ token,
    ¬ isSpace ch) (nonempty : token ≠ [])
      (stop : ∀ ch, rest.head? = some ch → isSpace ch) (tail : Layout words rest) :
      Layout (token :: words) (space ++ token ++ rest)

/-- Words with a blank after each. -/
def render (words : List Token) : List Char := words.flatMap fun word => word ++ [' ']

def Terminated (text : List Char) : Prop := ∃ ch, text.getLast? = some ch ∧ isSpace ch

section Words

theorem getToken_length : (getToken text).1 ≠ [] → (getToken text).2.length < text.length := by
  unfold getToken
  have start : (text.dropWhile isSpace).length ≤ text.length := (List.dropWhile_suffix _).length_le
  have word : ((text.dropWhile isSpace).dropWhile fun ch => !isSpace ch).length ≤ (text.dropWhile isSpace).length :=
    (List.dropWhile_suffix _).length_le
  dsimp only
  split
  case h_1 => exact fun none => absurd rfl none
  case h_2 found =>
    intro _
    rw [found,List.length_cons] at word
    dsimp only
    omega

theorem tokensFrom_of_enough (enough : text.length < fuel) : tokensFrom fuel text = tokens text := by
  have agree : ∀ {size fuel fuel' : Nat} {text : List Char}, text.length ≤ size → text.length < fuel →
    text.length < fuel' →
      tokensFrom fuel text = tokensFrom fuel' text := by
    intro size
    induction size with
    | zero =>
      intro fuel fuel' text small more more'
      obtain rfl : text = [] := List.length_eq_zero_iff.mp (by omega)
      obtain ⟨fuel, rfl⟩ := Nat.exists_eq_succ_of_ne_zero (show fuel ≠ 0 by omega)
      obtain ⟨fuel', rfl⟩ := Nat.exists_eq_succ_of_ne_zero (show fuel' ≠ 0 by omega)
      rfl
    | succ size ih =>
      intro fuel fuel' text small more more'
      obtain ⟨fuel, rfl⟩ := Nat.exists_eq_succ_of_ne_zero (show fuel ≠ 0 by omega)
      obtain ⟨fuel', rfl⟩ := Nat.exists_eq_succ_of_ne_zero (show fuel' ≠ 0 by omega)
      rw [tokensFrom,tokensFrom]
      rcases found : getToken text with ⟨token, rest⟩
      cases token with
      | nil => rfl
      | cons head tail =>
        have less : (getToken text).2.length < text.length := getToken_length (by rw [found]; simp)
        rw [found] at less
        dsimp only at less ⊢
        exact congrArg _ (ih (by omega) (by omega) (by omega))
  exact agree (Nat.le_refl _) enough (Nat.lt_succ_self _)

theorem tokens_eq (text : List Char) : tokens text =
    match getToken text with
    | ([], _) => []
    | (token, rest) => token :: tokens rest := by
  rw [tokens,tokensFrom]
  rcases found : getToken text with ⟨token, rest⟩
  cases token with
  | nil => rfl
  | cons head tail =>
    have less : (getToken text).2.length < text.length := getToken_length (by rw [found]; simp)
    rw [found] at less
    dsimp only at less ⊢
    rw [tokensFrom_of_enough less]

theorem tokens_blank (gap : ∀ ch ∈ text, isSpace ch) : tokens text = [] := by
  have skipped : text.dropWhile isSpace = [] := List.dropWhile_eq_nil_iff.mpr gap
  rw [tokens_eq,getToken,skipped]
  rfl

theorem dropWhile_space (gap : ∀ ch ∈ space, isSpace ch) (word : ∀ ch ∈ token, ¬ isSpace ch) (nonempty : token ≠ []) :
    (space ++ token ++ rest).dropWhile isSpace = token ++ rest := by
  rw [List.append_assoc,List.dropWhile_append_of_pos gap]
  obtain ⟨head, tail, rfl⟩ := List.exists_cons_of_ne_nil nonempty
  exact List.dropWhile_cons_of_neg (word head (List.mem_cons_self ..))

theorem tokens_word (gap : ∀ ch ∈ space, isSpace ch) (word : ∀ ch ∈ token, ¬ isSpace ch) (nonempty : token ≠ [])
    (stop : isSpace ch) : tokens (space ++ token ++ ch :: rest) = token :: tokens rest := by
  have letters : ∀ ch ∈ token, (!isSpace ch) = true := fun ch mem => by simp [word ch mem]
  have read : getToken (space ++ token ++ ch :: rest) = (token, rest) := by
    rw [getToken,dropWhile_space gap word nonempty]
    simp only [List.dropWhile_append_of_pos letters,List.takeWhile_append_of_pos letters]
    rw [List.dropWhile_cons_of_neg (by simp [stop]),List.takeWhile_cons_of_neg (by simp [stop]),List.append_nil]
  rw [tokens_eq,read]
  obtain ⟨head, tail, rfl⟩ := List.exists_cons_of_ne_nil nonempty
  rfl

theorem tokens_word_last (gap : ∀ ch ∈ space, isSpace ch) (word : ∀ ch ∈ token, ¬ isSpace ch) (nonempty : token ≠ []) :
    tokens (space ++ token ++ []) = [] := by
  have letters : ∀ ch ∈ token, (!isSpace ch) = true := fun ch mem => by simp [word ch mem]
  have read : getToken (space ++ token ++ []) = ([], []) := by
    rw [getToken,dropWhile_space gap word nonempty,List.dropWhile_append_of_pos letters]
    rfl
  rw [tokens_eq,read]

theorem tokens_cons_space (stop : isSpace ch) (rest : List Char) : tokens (ch :: rest) = tokens rest := by
  rw [tokens_eq,tokens_eq rest,getToken,getToken,List.dropWhile_cons_of_pos stop]

theorem terminated_append (nonempty : rest ≠ []) : Terminated (front ++ rest) ↔ Terminated rest := by
  rw [Terminated,Terminated,List.getLast?_append_of_ne_nil front nonempty]

theorem not_terminated_word (word : ∀ ch ∈ token, ¬ isSpace ch) (nonempty : token ≠ []) :
    ¬ Terminated (space ++ token) := by
  rw [terminated_append nonempty]
  rintro ⟨ch, last, stop⟩
  exact word ch (List.mem_of_getLast? last) stop

theorem layout_nil (layout : Layout words []) : words = [] := by
  generalize blank : ([] : List Char) = text at layout
  cases layout with
  | nil _ => rfl
  | cons _ _ nonempty _ _ =>
    have empty := List.append_eq_nil_iff.mp (List.append_eq_nil_iff.mp blank.symm).1
    exact absurd empty.2 nonempty

theorem layout_blank (layout : Layout [] text) : ∀ ch ∈ text, isSpace ch := by
  cases layout with
  | nil gap => exact gap

theorem layout_render (proper : ∀ word ∈ words, word ≠ [] ∧ ∀ ch ∈ word, ¬ isSpace ch) :
    Layout words (render words) := by
  have blank : ∀ words : List Token, (∀ word ∈ words, word ≠ [] ∧ ∀ ch ∈ word, ¬ isSpace ch) →
    Layout words (' ' :: render words) := by
    intro words proper
    induction words with
    | nil => exact .nil (by simp [render,isSpace])
    | cons word rest ih =>
      obtain ⟨nonempty, letters⟩ := proper word (List.mem_cons_self ..)
      have tail := ih fun other mem => proper other (List.mem_cons_of_mem _ mem)
      have cons := Layout.cons (show ∀ ch ∈ [' '], isSpace ch by simp [isSpace]) letters nonempty
        (by simp [isSpace]) tail
      simpa [render] using cons
  cases words with
  | nil => exact .nil (by simp [render])
  | cons word rest =>
    obtain ⟨nonempty, letters⟩ := proper word (List.mem_cons_self ..)
    have tail := blank rest fun other mem => proper other (List.mem_cons_of_mem _ mem)
    have cons := Layout.cons (show ∀ ch ∈ [], isSpace ch by simp) letters nonempty (by simp [isSpace]) tail
    simpa [render] using cons

theorem terminated_render (nonempty : words ≠ []) : Terminated (render words) := by
  rcases List.eq_nil_or_concat words with rfl | ⟨front, last, rfl⟩
  · exact absurd rfl nonempty
  · exact ⟨' ', by simp [render], by decide⟩

open Classical in
/-- A laid out text is read word by word; a last word without whitespace after it is lost. -/
theorem tokens_layout (layout : Layout words text) :
    tokens text = if Terminated text then words else words.dropLast := by
  induction layout with
  | nil gap => rw [tokens_blank gap,List.dropLast_nil,ite_self]
  | @cons space token rest words gap word nonempty stop tail ih =>
    cases rest with
    | nil =>
      rw [tokens_word_last gap word nonempty,List.append_nil,if_neg (not_terminated_word word nonempty),layout_nil tail]
      rfl
    | cons ch rest =>
      have blank := stop ch rfl
      have ends : Terminated (space ++ token ++ ch :: rest) ↔ Terminated (ch :: rest) := terminated_append (by simp)
      rw [tokens_word gap word nonempty blank,← tokens_cons_space blank,ih]
      by_cases terminated : Terminated (ch :: rest)
      · rw [if_pos terminated,if_pos (ends.mpr terminated)]
      · rw [if_neg terminated,if_neg (mt ends.mp terminated)]
        cases words with
        | nil =>
          have found := List.getLast?_eq_getLast_of_ne_nil (List.cons_ne_nil ch rest)
          exact absurd ⟨_, found, layout_blank tail _ (List.mem_of_getLast? found)⟩ terminated
        | cons first words => rfl

end Words
end GTPower
