import Mathlib.Logic.Function.Basic
import Mathlib.Data.Nat.Notation

/-! Temporary strings: a ring of buffers that are given out in turn. A string stays as it was written until its place
has its turn again; a place whose buffer is too short gets a new one, and the old one is freed. -/
namespace GTPower

def tmpStringCount : ℕ := 256

/-- Place of the ring. Buffers of a place are counted. -/
structure TmpString where
  buffer : ℕ
  length : ℕ
  text : List Char

structure TmpStrings where
  strings : ℕ → TmpString
  next : ℕ
  next_le : next ≤ tmpStringCount

/-- Pointer to a string that stays, or to a buffer of a place. -/
inductive CString
  | literal (text : List Char)
  | tmp (place buffer : ℕ)

def CString.place : CString → Option ℕ
  | literal _ => none
  | tmp place _ => some place

namespace TmpStrings

def place (s : TmpStrings) : ℕ := if s.next = tmpStringCount then 0 else s.next

/-- A freed string cannot be read. -/
def read (s : TmpStrings) : CString → Option (List Char)
  | .literal text => some text
  | .tmp place buffer => if (s.strings place).buffer = buffer then some (s.strings place).text else none

theorem place_lt (s : TmpStrings) : s.place < tmpStringCount := by
  have := s.next_le
  unfold place
  unfold tmpStringCount at *
  split <;> omega

/-- A string of its length is given out. -/
def makeTmpString (s : TmpStrings) (length : ℕ) : CString × TmpStrings :=
  let str := s.strings s.place
  let str := if str.length < length then ⟨str.buffer + 1, length, []⟩ else str
  (.tmp s.place str.buffer, ⟨Function.update s.strings s.place str, s.place + 1, s.place_lt⟩)

/-- A string that is read while the result is written cannot be in the place of the result. -/
def readInto (s : TmpStrings) (result str : CString) : Option (List Char) :=
  if str.place = result.place then none else s.read str

def write (s : TmpStrings) (result : CString) (text : List Char) : TmpStrings :=
  match result with
  | .literal _ => s
  | .tmp place _ => { s with strings := Function.update s.strings place { s.strings place with text := text } }

/-- As many strings are made before the place has its turn. -/
def turn (s : TmpStrings) (place : ℕ) : ℕ := (place + tmpStringCount - s.place) % tmpStringCount

section Turns
variable {s : TmpStrings}

theorem turn_place (s : TmpStrings) : s.turn s.place = 0 := by
  have := s.place_lt
  unfold turn
  unfold tmpStringCount at *
  omega

theorem place_next (s : TmpStrings) (length : ℕ) :
    (s.makeTmpString length).2.place = (s.place + 1) % tmpStringCount := by
  have := s.place_lt
  change (if s.place + 1 = tmpStringCount then 0 else s.place + 1) = _
  unfold tmpStringCount at *
  split <;> omega

theorem turn_made (length : ℕ) : (s.makeTmpString length).2.turn s.place = tmpStringCount - 1 := by
  have := s.place_lt
  unfold turn
  rw [place_next]
  unfold tmpStringCount at *
  omega

theorem turn_other {place : ℕ} (length : ℕ) (lt : place < tmpStringCount) (later : 0 < s.turn place) :
    (s.makeTmpString length).2.turn place = s.turn place - 1 := by
  have := s.place_lt
  unfold turn at *
  rw [place_next]
  unfold tmpStringCount at *
  omega

theorem write_turn (s : TmpStrings) (result : CString) (text : List Char) (place : ℕ) :
    (s.write result text).turn place = s.turn place := by
  cases result <;> rfl

end Turns

/-- What is made of a string: it can be read, only places whose turn came have changed, and its own place is the last
one to have its turn again. -/
structure Made (s : TmpStrings) (count : ℕ) (text : List Char) (result : CString) (s' : TmpStrings) : Prop where
  read : s'.read result = some text
  kept : ∀ place < tmpStringCount, count ≤ s.turn place → s'.strings place = s.strings place ∧
    s'.turn place = s.turn place - count
  last : ∀ place, result.place = some place → 0 < count ∧ place < tmpStringCount ∧ s'.turn place = tmpStringCount - 1

theorem Made.literal (s : TmpStrings) (text : List Char) : Made s 0 text (.literal text) s where
  read := rfl
  kept _ _ _ := ⟨rfl, rfl⟩
  last _ inPlace := by cases inPlace

theorem made_written (s : TmpStrings) (length : ℕ) (text : List Char) :
    Made s 1 text (s.makeTmpString length).1 ((s.makeTmpString length).2.write (s.makeTmpString length).1 text) where
  read := by simp [makeTmpString,write,TmpStrings.read]
  kept place lt later := by
    have differ : place ≠ s.place := fun eq => by
      rw [eq,turn_place] at later
      exact absurd later (by decide)
    refine ⟨?_, ?_⟩
    · simp [makeTmpString,write,differ]
    · rw [write_turn]
      exact turn_other length lt later
  last place inPlace := by
    have eq : s.place = place := Option.some.inj inPlace
    rw [write_turn,← eq]
    exact ⟨Nat.one_pos, s.place_lt, turn_made length⟩

theorem Made.read_later {s s' s'' : TmpStrings} {count count' : ℕ} {text text' : List Char} {result result' : CString}
    (made : Made s count text result s') (later : Made s' count' text' result' s'')
    (fits : count = 0 ∨ count' < tmpStringCount) :
    s''.read result = some text := by
  cases result with
  | literal literal => exact made.read
  | tmp place buffer =>
    obtain ⟨pos, lt, turn⟩ := made.last place rfl
    have early : count' ≤ s'.turn place := by
      rw [turn]
      unfold tmpStringCount at *
      omega
    have read := made.read
    simp only [TmpStrings.read] at read ⊢
    rw [(later.kept place lt early).1]
    exact read

theorem Made.followed {s s' s'' : TmpStrings} {count count' : ℕ} {text text' : List Char} {result result' : CString}
    (made : Made s count text result s') (later : Made s' count' text' result' s'') :
    Made s (count + count') text' result' s'' where
  read := later.read
  kept place lt early := by
    obtain ⟨string, turn⟩ := made.kept place lt (by omega)
    obtain ⟨string', turn'⟩ := later.kept place lt (by omega)
    exact ⟨string'.trans string, by omega⟩
  last place inPlace := by
    obtain ⟨pos, lt, turn⟩ := later.last place inPlace
    exact ⟨by omega, lt, turn⟩

/-- It is read into another one as long as its place is not the next one to have its turn either. -/
theorem Made.readInto_eq {s s' s'' : TmpStrings} {count count' : ℕ} {text text' : List Char} {result result' : CString}
    (made : Made s count text result s') (later : Made s' count' text' result' s'') (length : ℕ)
    (fits : count = 0 ∨ count' < tmpStringCount - 1) :
    (s''.makeTmpString length).2.readInto (s''.makeTmpString length).1 result = some text := by
  have written := made_written s'' length []
  have read := made.read_later (later.followed written) (fits.imp_right fun fits => by
    unfold tmpStringCount at *; omega)
  have apart : result.place ≠ some s''.place := by
    intro eq
    obtain ⟨pos, lt, turn⟩ := made.last _ eq
    have turn' := (later.kept _ lt (by unfold tmpStringCount at *; omega)).2
    rw [turn_place] at turn'
    unfold tmpStringCount at *
    omega
  have place : (s''.makeTmpString length).1.place = some s''.place := rfl
  rw [readInto,place,if_neg apart]
  cases result with
  | literal literal => exact read
  | tmp place buffer =>
    have differ : place ≠ s''.place := fun eq => apart (congrArg some eq)
    simpa [TmpStrings.read,write,makeTmpString,differ] using read

end TmpStrings

end GTPower
