import GTPower.TmpStrings
import GTPower.BddEvaluation

/-! The text of a function expression, and its parsing: the printer with its temporary strings, the lexer and the
grammar. A pointer to an expression may be null. -/
namespace GTPower.FuncText

section Print
variable {κ : Type} (name : κ → List Char)

def notString (left : CString) (s : TmpStrings) : Option (CString × TmpStrings) := do
  let leftText ← s.read left
  let made := s.makeTmpString (leftText.length + 2)
  let leftText ← made.2.readInto made.1 left
  return (made.1, made.2.write made.1 ('!' :: leftText))

def binaryString (withParens : Bool) (op : Char) (left right : CString) (s : TmpStrings) :
    Option (CString × TmpStrings) := do
  let leftText ← s.read left
  let rightText ← s.read right
  let made := s.makeTmpString (leftText.length + 1 + rightText.length + 1 + if withParens then 2 else 0)
  let leftText ← made.2.readInto made.1 left
  let rightText ← made.2.readInto made.1 right
  return (made.1, made.2.write made.1
    (if withParens then '(' :: leftText ++ op :: rightText ++ [')'] else leftText ++ op :: rightText))

/-- A string that is freed, or is written while it is read, is an error. -/
def asString : Bool → FuncExpr κ → TmpStrings → Option (CString × TmpStrings)
  | _, .port port, s => some (.literal (name port), s)
  | _, .not left, s => do
    let left ← asString true left s
    notString left.1 left.2
  | withParens, .or left right, s => do
    let left ← asString true left s
    let right ← asString true right left.2
    binaryString withParens '+' left.1 right.1 right.2
  | withParens, .and left right, s => do
    let left ← asString true left s
    let right ← asString true right left.2
    binaryString withParens '*' left.1 right.1 right.2
  | withParens, .xor left right, s => do
    let left ← asString true left s
    let right ← asString true right left.2
    binaryString withParens '^' left.1 right.1 right.2
  | _, .one, s => some (.literal ['1'], s)
  | _, .zero, s => some (.literal ['0'], s)

end Print

section Lex

/-- A port, or a character that stands for itself. -/
inductive Token
  | port (name : List Char)
  | char (ch : Char)
  deriving DecidableEq

def isLetter (ch : Char) : Bool := 'A' ≤ ch && ch ≤ 'Z' || 'a' ≤ ch && ch ≤ 'z'

def isDigit (ch : Char) : Bool := '0' ≤ ch && ch ≤ '9'

def isPortStart (ch : Char) : Bool := isLetter ch || ch == '_'

def isPortChar (ch : Char) : Bool := isPortStart ch || isDigit ch || ch == '.' || ch == '[' || ch == ']'

def IsPort (text : List Char) : Prop := ∃ ch rest, text = ch :: rest ∧ isPortStart ch = true ∧
    ∀ ch ∈ rest, isPortChar ch = true

inductive LexState
  | initial
  | port (name : List Char)
  | escape
  | escapeReturn
  | string (token : List Char)
  | stringEscape (token : List Char)
  deriving DecidableEq

/-- Start of a match. Blanks are skipped; other characters that no rule matches are copied to the output. -/
def lexInitial (ch : Char) : List Token × LexState :=
  if isPortStart ch then ([], .port [ch])
  else if ch = '\\' then ([], .escape)
  else if ch = ' ' ∨ ch = '\t' ∨ ch = '\r' ∨ ch = '\n' then ([], .initial)
  else ([.char ch], .initial)

def lexStep : LexState → Char → List Token × LexState
  | .initial, ch => lexInitial ch
  | .port name, ch =>
    if isPortChar ch then ([], .port (name ++ [ch]))
    else (.port name :: (lexInitial ch).1, (lexInitial ch).2)
  | .escape, ch =>
    if ch = '"' then ([], .string [])
    else if ch = '\n' then ([], .initial)
    else if ch = '\r' then ([], .escapeReturn)
    else (.char '\\' :: (lexInitial ch).1, (lexInitial ch).2)
  | .escapeReturn, ch =>
    if ch = '\n' then ([], .initial)
    else (.char '\\' :: (lexInitial ch).1, (lexInitial ch).2)
  | .string token, ch =>
    if ch = '\\' then ([], .stringEscape token)
    else if ch = '\n' then ([], .string token)
    else ([], .string (token ++ [ch]))
  | .stringEscape token, ch =>
    if ch = '"' then ([.port token], .initial)
    else if ch = '\\' then ([], .stringEscape (token ++ ['\\']))
    else if ch = '\n' then ([], .string (token ++ ['\\']))
    else ([], .string (token ++ ['\\', ch]))

def lexEnd : LexState → List Token
  | .port name => [.port name]
  | .escape => [.char '\\']
  | .escapeReturn => [.char '\\']
  | _ => []

def lexFrom : LexState → List Char → List Token
  | state, [] => lexEnd state
  | state, ch :: rest => (lexStep state ch).1 ++ lexFrom (lexStep state ch).2 rest

def lex (text : List Char) : List Token := lexFrom .initial text

end Lex

section Parse
variable {κ : Type}

/-- Binary operators of the grammar, from the lowest precedence on. -/
inductive BinaryOp
  | or | and | xor
  deriving DecidableEq

def binaryOp : Token → Option BinaryOp
  | .char '+' => some .or
  | .char '|' => some .or
  | .char '*' => some .and
  | .char '&' => some .and
  | .char '^' => some .xor
  | _ => none

def BinaryOp.precedence : BinaryOp → ℕ
  | or => 0
  | and => 1
  | xor => 2

/-- Null where an operand is null. -/
def makeFuncExprNot (arg : Option (FuncExpr κ)) : Option (FuncExpr κ) := arg.map .not

def makeFuncExprBinary (make : FuncExpr κ → FuncExpr κ → FuncExpr κ) : Option (FuncExpr κ) → Option (FuncExpr κ) →
    Option (FuncExpr κ)
  | some arg1, some arg2 => some (make arg1 arg2)
  | _, _ => none

def makeFuncExprAnd : Option (FuncExpr κ) → Option (FuncExpr κ) → Option (FuncExpr κ) := makeFuncExprBinary .and

def makeFuncExprOr : Option (FuncExpr κ) → Option (FuncExpr κ) → Option (FuncExpr κ) := makeFuncExprBinary .or

def makeFuncExprXor : Option (FuncExpr κ) → Option (FuncExpr κ) → Option (FuncExpr κ) := makeFuncExprBinary .xor

def BinaryOp.makeFuncExpr : BinaryOp → Option (FuncExpr κ) → Option (FuncExpr κ) → Option (FuncExpr κ)
  | or => makeFuncExprOr
  | and => makeFuncExprAnd
  | xor => makeFuncExprXor

/-- Symbols of the grammar on the stack of the parser. -/
inductive Symbol (κ : Type)
  | lparen
  | bang
  | op (op : BinaryOp)
  | terminal (value : Option (FuncExpr κ))
  | terminalExpr (value : Option (FuncExpr κ))
  | implicitAnd (value : Option (FuncExpr κ))
  | expr (value : Option (FuncExpr κ))

def startsTerminal : Option Token → Bool
  | some (.port _) => true
  | some (.char ch) => ch = '0' ∨ ch = '1' ∨ ch = '(' ∨ ch = '!'
  | none => false

/-- Rules of `terminal_expr`. A quote after a terminal is shifted. -/
def reduceTerminal (lookahead : Option Token) : List (Symbol κ) → List (Symbol κ)
  | .terminal value :: .bang :: stack => .terminalExpr (makeFuncExprNot value) :: stack
  | .terminal value :: stack => if lookahead = some (.char '\'') then .terminal value ::
    stack else .terminalExpr value :: stack
  | stack => stack

def reduceAnd : List (Symbol κ) → List (Symbol κ)
  | .terminalExpr value :: .terminalExpr left :: stack => .implicitAnd (makeFuncExprAnd left value) :: stack
  | .terminalExpr value :: .implicitAnd left :: stack => .implicitAnd (makeFuncExprAnd left value) :: stack
  | stack => stack

/-- Rules of `expr` with an operator, unless the next operator has a higher precedence. -/
def reduceOps (lookahead : Option Token) (value : Option (FuncExpr κ)) : List (Symbol κ) → List (Symbol κ)
  | .op op :: .expr left :: stack =>
    match lookahead.bind binaryOp with
    | some next =>
      if op.precedence < next.precedence then .expr value :: .op op :: .expr left :: stack
      else reduceOps lookahead (op.makeFuncExpr left value) stack
    | none => reduceOps lookahead (op.makeFuncExpr left value) stack
  | stack => .expr value :: stack

def reduceExpr (lookahead : Option Token) : List (Symbol κ) → List (Symbol κ)
  | .terminalExpr value :: stack =>
    if startsTerminal lookahead then .terminalExpr value :: stack else reduceOps lookahead value stack
  | .implicitAnd value :: stack =>
    if startsTerminal lookahead then .implicitAnd value :: stack else reduceOps lookahead value stack
  | stack => stack

def reduce (lookahead : Option Token) (stack : List (Symbol κ)) : List (Symbol κ) :=
  reduceExpr lookahead (reduceAnd (reduceTerminal lookahead stack))

def takesTerminal : List (Symbol κ) → Bool
  | .terminal _ :: _ => false
  | .expr _ :: _ => false
  | _ => true

def takesBang : List (Symbol κ) → Bool
  | .bang :: _ => false
  | stack => takesTerminal stack

variable (findPort : List Char → Option κ)

def makeFuncExprPort (portName : List Char) : Option (FuncExpr κ) := (findPort portName).map .port

/-- Undefined where the parser has an error. -/
def shift (token : Token) (stack : List (Symbol κ)) : Option (List (Symbol κ)) :=
  match token with
  | .port portName => if takesTerminal stack then some (.terminal (makeFuncExprPort findPort portName) ::
    stack) else none
  | .char '0' => if takesTerminal stack then some (.terminal (some .zero) :: stack) else none
  | .char '1' => if takesTerminal stack then some (.terminal (some .one) :: stack) else none
  | .char '(' => if takesTerminal stack then some (.lparen :: stack) else none
  | .char '!' => if takesBang stack then some (.bang :: stack) else none
  | .char ')' =>
    match stack with
    | .expr value :: .lparen :: stack => some (.terminal value :: stack)
    | _ => none
  | .char '\'' =>
    match stack with
    | .terminal value :: stack => some (.terminalExpr (makeFuncExprNot value) :: stack)
    | _ => none
  | token =>
    match binaryOp token, stack with
    | some op, .expr value :: stack => some (.op op :: .expr value :: stack)
    | _, _ => none

def accept : List (Symbol κ) → Option (Option (FuncExpr κ))
  | [.expr value] => some value
  | _ => none

/-- The most that the lexer asks for at a time. -/
def yyReadBufSize : ℕ := 8192

def yyMaxDepth : ℕ := 10000

/-- A longer text is copied without its end, and the length of what was copied is not defined. -/
def copyInput (func : List Char) (maxSize : ℕ) : Option (List Char) := if func.length < maxSize then some func else none

/-- With the symbol that is shifted, and the state below the first symbol, the parser is out of memory. -/
def exhausted (stack : List (Symbol κ)) : Bool := yyMaxDepth ≤ stack.length + 2

/-- A semicolon can only be the last token. -/
def parseFrom : List (Symbol κ) → List Token → Option (Option (FuncExpr κ))
  | stack, [] => accept (reduce none stack)
  | stack, token :: rest =>
    if token = .char ';' then if rest.isEmpty then accept (reduce (some token) stack) else none
    else if exhausted (reduce (some token) stack) then none
    else (shift findPort token (reduce (some token) stack)).bind fun stack => parseFrom stack rest

def parseFuncExpr (func : List Char) : Option (Option (FuncExpr κ)) :=
  if func = [] then some none else (copyInput func yyReadBufSize).bind fun text => parseFrom findPort [] (lex text)

end Parse

section Cell
variable {κ : Type}

/-- Of a name that may have brackets that the cell has escaped. -/
def escapeChars (ch1 ch2 escape : Char) : List Char → List Char
  | [] => []
  | ch :: rest =>
    if ch = escape then
      match rest with
      | [] => []
      | nextCh :: rest => ch :: nextCh :: escapeChars ch1 ch2 escape rest
    else if ch = ch1 ∨ ch = ch2 then escape :: ch :: escapeChars ch1 ch2 escape rest
    else ch :: escapeChars ch1 ch2 escape rest

/-- A cell, of which the ports are known by name, and the brackets of its library. -/
structure Cell (κ : Type) where
  name : κ → List Char
  direction : κ → PortDirection
  findLibertyPort : List Char → Option κ
  busBrktLeft : Char
  busBrktRight : Char

def libertyReaderFindPort (cell : Cell κ) (portName : List Char) : Option κ :=
  match cell.findLibertyPort portName with
  | some port => some port
  | none => cell.findLibertyPort (escapeChars cell.busBrktLeft cell.busBrktRight '\\' portName)

/-- Ports are compared by name and direction. -/
def equiv (cell : Cell κ) : FuncExpr κ → FuncExpr κ → Bool
  | .port port1, .port port2 => cell.name port1 == cell.name port2 && cell.direction port1 == cell.direction port2
  | .not left1, .not left2 => equiv cell left1 left2
  | .or left1 right1, .or left2 right2 => equiv cell left1 left2 && equiv cell right1 right2
  | .and left1 right1, .and left2 right2 => equiv cell left1 left2 && equiv cell right1 right2
  | .xor left1 right1, .xor left2 right2 => equiv cell left1 left2 && equiv cell right1 right2
  | .one, .one => true
  | .zero, .zero => true
  | _, _ => false

def NoDoubleNegation : FuncExpr κ → Prop
  | .port _ => True
  | .not (.not _) => False
  | .not left => NoDoubleNegation left
  | .or left right => NoDoubleNegation left ∧ NoDoubleNegation right
  | .and left right => NoDoubleNegation left ∧ NoDoubleNegation right
  | .xor left right => NoDoubleNegation left ∧ NoDoubleNegation right
  | .one => True
  | .zero => True

/-- The text that is printed of an expression is parsed, to one of the same values; to an equivalent one where no
negation is negated. -/
def RoundTrips (cell : Cell κ) (s : TmpStrings) (expr : FuncExpr κ) : Prop :=
  ∃ result text expr', asString cell.name false expr s = some result ∧ result.2.read result.1 = some text ∧
    parseFuncExpr (libertyReaderFindPort cell) text = some (some expr') ∧
    (∀ env, FuncExpr.eval env expr' = FuncExpr.eval env expr) ∧
    (NoDoubleNegation expr → equiv cell expr expr' = true)

end Cell

end GTPower.FuncText
