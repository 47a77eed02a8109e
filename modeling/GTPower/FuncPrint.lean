import GTPower.FuncText

/-! The text that is printed of an expression. The string of a left operand is read after those of the right operand
were made, so its place must not have had its turn again. -/
namespace GTPower.FuncText

variable {κ : Type} (name : κ → List Char)

/-- Text of two operands with the operator between them. -/
def binaryText (withParens : Bool) (op : Char) (left right : List Char) : List Char :=
  if withParens then '(' :: left ++ op :: right ++ [')'] else left ++ op :: right

def text : Bool → FuncExpr κ → List Char
  | _, .port port => name port
  | _, .not left => '!' :: text true left
  | withParens, .or left right => binaryText withParens '+' (text true left) (text true right)
  | withParens, .and left right => binaryText withParens '*' (text true left) (text true right)
  | withParens, .xor left right => binaryText withParens '^' (text true left) (text true right)
  | _, .one => ['1']
  | _, .zero => ['0']

/-- As many temporary strings are made to print it. -/
def stringCount : FuncExpr κ → ℕ
  | .port _ => 0
  | .not left => stringCount left + 1
  | .or left right => stringCount left + stringCount right + 1
  | .and left right => stringCount left + stringCount right + 1
  | .xor left right => stringCount left + stringCount right + 1
  | .one => 0
  | .zero => 0

/-- The string of the left operand outlasts those of the right one. -/
def Outlasts (left right : FuncExpr κ) : Prop := stringCount left = 0 ∨ stringCount right < tmpStringCount - 1

instance (left right : FuncExpr κ) : Decidable (Outlasts left right) := inferInstanceAs (Decidable (_ ∨ _))

/-- So it does for every binary subexpression. -/
def LeftsOutlast : FuncExpr κ → Prop
  | .port _ => True
  | .not left => LeftsOutlast left
  | .or left right => LeftsOutlast left ∧ LeftsOutlast right ∧ Outlasts left right
  | .and left right => LeftsOutlast left ∧ LeftsOutlast right ∧ Outlasts left right
  | .xor left right => LeftsOutlast left ∧ LeftsOutlast right ∧ Outlasts left right
  | .one => True
  | .zero => True

def Prints (withParens : Bool) (expr : FuncExpr κ) (s : TmpStrings) : Prop :=
  ∃ result, asString name withParens expr s = some result ∧
    s.Made (stringCount expr) (text name withParens expr) result.1 result.2

variable {name} {s : TmpStrings}

theorem notString_made {s₁ : TmpStrings} {count : ℕ} {left : CString} {leftText : List Char}
    (made : s.Made count leftText left s₁) :
    ∃ result, notString left s₁ = some result ∧ s.Made (count + 1) ('!' :: leftText) result.1 result.2 := by
  have read := made.readInto_eq (.literal s₁ []) (leftText.length + 2) (.inr (by decide))
  have written := TmpStrings.made_written s₁ (leftText.length + 2) ('!' :: leftText)
  let string := s₁.makeTmpString (leftText.length + 2)
  refine ⟨(string.1, string.2.write string.1 ('!' :: leftText)), ?_, made.followed written⟩
  simp only [notString,made.read,Option.bind_eq_bind,Option.bind_some,read]
  rfl

theorem binaryString_made {s₁ s₂ : TmpStrings} {count count' : ℕ} {left right : CString}
    {leftText rightText : List Char}
    (first : s.Made count leftText left s₁) (second : s₁.Made count' rightText right s₂) (withParens : Bool) (op : Char)
    (outlasts : count = 0 ∨ count' < tmpStringCount - 1) :
    ∃ result, binaryString withParens op left right s₂ = some result ∧
      s.Made (count + count' + 1) (binaryText withParens op leftText rightText) result.1 result.2 := by
  let length := leftText.length + 1 + rightText.length + 1 + if withParens then 2 else 0
  have early := first.read_later second (outlasts.imp_right fun few => Nat.lt_of_lt_of_le few (Nat.sub_le _ _))
  have readLeft := first.readInto_eq second length outlasts
  have readRight := second.readInto_eq (.literal s₂ []) length (.inr (by decide))
  have written := TmpStrings.made_written s₂ length (binaryText withParens op leftText rightText)
  let string := s₂.makeTmpString length
  refine ⟨(string.1, string.2.write string.1 (binaryText withParens op leftText rightText)), ?_,
    (first.followed second).followed written⟩
  simp only [binaryString,early,second.read,Option.bind_eq_bind,Option.bind_some,readLeft,readRight,length]
  rfl

theorem printed_binary {left right : FuncExpr κ} {withParens : Bool} {op : Char}
    (printsLeft : ∀ s, Prints name true left s) (printsRight : ∀ s, Prints name true right s)
    (outlasts : Outlasts left right) :
    ∃ result, (do
        let left ← asString name true left s
        let right ← asString name true right left.2
        binaryString withParens op left.1 right.1 right.2) = some result ∧
      s.Made (stringCount left + stringCount right + 1)
        (binaryText withParens op (text name true left) (text name true right))
        result.1 result.2 := by
  obtain ⟨result₁, print₁, made₁⟩ := printsLeft s
  obtain ⟨result₂, print₂, made₂⟩ := printsRight result₁.2
  obtain ⟨result, print, made⟩ := binaryString_made made₁ made₂ withParens op outlasts
  refine ⟨result, ?_, made⟩
  simp only [print₁,Option.bind_eq_bind,Option.bind_some,print₂,print]

theorem prints {expr : FuncExpr κ} (outlast : LeftsOutlast expr) (withParens : Bool) (s : TmpStrings) :
    Prints name withParens expr s := by
  induction expr generalizing withParens s with
  | port port => exact ⟨_, rfl, .literal s _⟩
  | one => exact ⟨_, rfl, .literal s _⟩
  | zero => exact ⟨_, rfl, .literal s _⟩
  | not left ih =>
    obtain ⟨result, print, made⟩ := ih outlast true s
    obtain ⟨result', print', made'⟩ := notString_made made
    refine ⟨result', ?_, made'⟩
    simp only [asString,print,Option.bind_eq_bind,Option.bind_some,print']
  | or left right ihl ihr => exact printed_binary (ihl outlast.1 true) (ihr outlast.2.1 true) outlast.2.2
  | and left right ihl ihr => exact printed_binary (ihl outlast.1 true) (ihr outlast.2.1 true) outlast.2.2
  | xor left right ihl ihr => exact printed_binary (ihl outlast.1 true) (ihr outlast.2.1 true) outlast.2.2

end GTPower.FuncText
