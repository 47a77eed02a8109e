import GTPower.FuncPrint

/-! The text that is printed of an expression, read back. Every operand is in parentheses or a terminal, so the grammar
never has to choose by precedence; but it does not negate a negation. -/
namespace GTPower.FuncText

variable {κ : Type}

section Tokens
variable (name : κ → List Char)

def binaryTokens (withParens : Bool) (op : Char) (left right : List Token) : List Token :=
  if withParens then .char '(' :: left ++ .char op :: right ++ [.char ')'] else left ++ .char op :: right

def tokens : Bool → FuncExpr κ → List Token
  | _, .port port => [.port (name port)]
  | _, .not left => .char '!' :: tokens true left
  | withParens, .or left right => binaryTokens withParens '+' (tokens true left) (tokens true right)
  | withParens, .and left right => binaryTokens withParens '*' (tokens true left) (tokens true right)
  | withParens, .xor left right => binaryTokens withParens '^' (tokens true left) (tokens true right)
  | _, .one => [.char '1']
  | _, .zero => [.char '0']

end Tokens

section Lex

def EndsPort (rest : List Char) : Prop := ∀ ch ∈ rest.head?, isPortChar ch = false

theorem lexFrom_port (portName : List Char) {rest : List Char} (ends : EndsPort rest) :
    lexFrom (.port portName) rest = .port portName :: lexFrom .initial rest := by
  cases rest with
  | nil => rfl
  | cons ch rest =>
    have other : isPortChar ch = false := ends ch rfl
    simp [lexFrom,lexStep,other]

theorem lexFrom_portChars (portName : List Char) {chars rest : List Char} (inPort : ∀ ch ∈ chars, isPortChar ch = true)
    (ends : EndsPort rest) : lexFrom (.port portName) (chars ++ rest) = .port (portName ++ chars) ::
    lexFrom .initial rest := by
  induction chars generalizing portName with
  | nil =>
    rw [List.append_nil]
    exact lexFrom_port portName ends
  | cons ch chars ih =>
    obtain ⟨here, others⟩ := List.forall_mem_cons.1 inPort
    have step := ih (portName ++ [ch]) others
    rw [List.append_assoc] at step
    simpa [lexFrom,lexStep,here] using step

theorem lexFrom_name {portName rest : List Char} (isPort : IsPort portName) (ends : EndsPort rest) :
    lexFrom .initial (portName ++ rest) = .port portName :: lexFrom .initial rest := by
  obtain ⟨ch, chars, rfl, start, inPort⟩ := isPort
  have step := lexFrom_portChars [ch] inPort ends
  simpa [lexFrom,lexStep,lexInitial,start] using step

theorem lexFrom_char {ch : Char} (lexes : lexInitial ch = ([.char ch], .initial)) (rest : List Char) :
    lexFrom .initial (ch :: rest) = .char ch :: lexFrom .initial rest := by
  simp [lexFrom,lexStep,lexes]

/-- A character that is a token of its own, and ends a port. -/
structure IsSymbol (ch : Char) : Prop where
  lexes : lexInitial ch = ([.char ch], .initial)
  ends : isPortChar ch = false

theorem IsSymbol.endsPort {ch : Char} (symbol : IsSymbol ch) (rest : List Char) : EndsPort (ch :: rest) := by
  intro ch' eq
  rw [← Option.some.inj eq]
  exact symbol.ends

def Lexes (text : List Char) (tokens : List Token) : Prop :=
  ∀ rest, EndsPort rest → lexFrom .initial (text ++ rest) = tokens ++ lexFrom .initial rest

theorem lexes_binary {op : Char} {left right : List Char} {leftTokens rightTokens : List Token}
    (lexLeft : Lexes left leftTokens) (lexRight : Lexes right rightTokens) (symbol : IsSymbol op) (withParens : Bool) :
    Lexes (binaryText withParens op left right) (binaryTokens withParens op leftTokens rightTokens) := by
  have lparen : IsSymbol '(' := ⟨by decide, by decide⟩
  have rparen : IsSymbol ')' := ⟨by decide, by decide⟩
  have operands {rest : List Char} (ends : EndsPort rest) : lexFrom .initial (left ++ op :: (right ++ rest)) =
      leftTokens ++ .char op :: (rightTokens ++ lexFrom .initial rest) := by
    rw [lexLeft _ (symbol.endsPort _),lexFrom_char symbol.lexes,lexRight _ ends]
  intro rest ends
  cases withParens with
  | false => simpa [binaryText,binaryTokens] using operands ends
  | true =>
    have inner := operands (rparen.endsPort rest)
    rw [lexFrom_char rparen.lexes] at inner
    simp [binaryText,binaryTokens,lexFrom_char lparen.lexes,inner]

variable [DecidableEq κ] {name : κ → List Char}

theorem lexes_text {expr : FuncExpr κ} (names : ∀ port ∈ BddEvaluation.exprPorts expr, IsPort (name port))
    (withParens : Bool) :
    Lexes (text name withParens expr) (tokens name withParens expr) := by
  induction expr generalizing withParens with
  | port port => exact fun rest ends => lexFrom_name (names port (Finset.mem_singleton_self port)) ends
  | one => exact fun rest _ => lexFrom_char (by decide) rest
  | zero => exact fun rest _ => lexFrom_char (by decide) rest
  | not left ih =>
    intro rest ends
    have bang : lexInitial '!' = ([.char '!'], .initial) := by decide
    have inner := ih names true rest ends
    simp [text,tokens,lexFrom_char bang,inner]
  | or left right ihl ihr =>
    obtain ⟨inLeft, inRight⟩ := Finset.forall_mem_union.1 names
    exact lexes_binary (ihl inLeft true) (ihr inRight true) ⟨by decide, by decide⟩ withParens
  | and left right ihl ihr =>
    obtain ⟨inLeft, inRight⟩ := Finset.forall_mem_union.1 names
    exact lexes_binary (ihl inLeft true) (ihr inRight true) ⟨by decide, by decide⟩ withParens
  | xor left right ihl ihr =>
    obtain ⟨inLeft, inRight⟩ := Finset.forall_mem_union.1 names
    exact lexes_binary (ihl inLeft true) (ihr inRight true) ⟨by decide, by decide⟩ withParens

theorem lex_text {expr : FuncExpr κ} (names : ∀ port ∈ BddEvaluation.exprPorts expr, IsPort (name port))
    (withParens : Bool) :
    lex (text name withParens expr) = tokens name withParens expr := by
  have all := lexes_text names withParens [] (fun _ eq => by cases eq)
  simpa [lexFrom,lexEnd,lex] using all

end Lex

section Parse
variable (findPort : List Char → Option κ)

/-- The stack when the tokens of an operand were shifted. -/
def shifted (expr : FuncExpr κ) (stack : List (Symbol κ)) : List (Symbol κ) :=
  match expr with
  | .not left => .terminal (some left) :: .bang :: stack
  | expr => .terminal (some expr) :: stack

inductive Opens : List (Symbol κ) → Prop
  | empty : Opens []
  | lparen (stack : List (Symbol κ)) : Opens (.lparen :: stack)
  | op (op : BinaryOp) (stack : List (Symbol κ)) : Opens (.op op :: stack)

/-- So it can after a negation, if it is none itself. -/
inductive OpensFor (expr : FuncExpr κ) : List (Symbol κ) → Prop
  | opens {stack : List (Symbol κ)} (opens : Opens stack) : OpensFor expr stack
  | bang (stack : List (Symbol κ)) (isNoNot : ∀ left, expr ≠ .not left) : OpensFor expr (.bang :: stack)

variable {findPort} {expr left right : FuncExpr κ} {stack : List (Symbol κ)}

theorem OpensFor.reduce (opens : OpensFor expr stack) (lookahead : Option Token) : reduce lookahead stack = stack := by
  rcases opens with ⟨_ | _ | _⟩ | _ <;> rfl

theorem OpensFor.takesTerminal (opens : OpensFor expr stack) : takesTerminal stack = true := by
  rcases opens with ⟨_ | _ | _⟩ | _ <;> rfl

theorem Opens.takesBang (opens : Opens stack) : takesBang stack = true := by
  cases opens <;> rfl

def parseGrammar (findPort : List Char → Option κ) : List (Symbol κ) → List Token → Option (Option (FuncExpr κ))
  | stack, [] => accept (reduce none stack)
  | stack, token :: rest =>
    if token = .char ';' then if rest.isEmpty then accept (reduce (some token) stack) else none
    else (shift findPort token (reduce (some token) stack)).bind fun stack => parseGrammar findPort stack rest

theorem reduceOps_length (lookahead : Option Token) (value : Option (FuncExpr κ)) (stack : List (Symbol κ)) :
    (reduceOps lookahead value stack).length ≤ stack.length + 1 := by
  fun_induction reduceOps lookahead value stack with
  | case1 => exact Nat.le_refl _
  | case2 value op left stack next _ _ ih => exact ih.trans (by simp)
  | case3 value op left stack _ ih => exact ih.trans (by simp)
  | case4 => exact Nat.le_refl _

theorem reduce_length (lookahead : Option Token) (stack : List (Symbol κ)) :
    (reduce lookahead stack).length ≤ stack.length := by
  have terminal : (reduceTerminal lookahead stack).length ≤ stack.length := by
    unfold reduceTerminal
    split
    · simp
    · split <;> simp
    · exact Nat.le_refl _
  have and (stack : List (Symbol κ)) : (reduceAnd stack).length ≤ stack.length := by
    unfold reduceAnd
    split
    · simp
    · simp
    · exact Nat.le_refl _
  have expr (stack : List (Symbol κ)) : (reduceExpr lookahead stack).length ≤ stack.length := by
    unfold reduceExpr
    split
    · split
      · exact Nat.le_refl _
      · exact reduceOps_length lookahead _ _
    · split
      · exact Nat.le_refl _
      · exact reduceOps_length lookahead _ _
    · exact Nat.le_refl _
  exact (expr _).trans ((and _).trans terminal)

theorem shift_length {token : Token} {stack' : List (Symbol κ)} (shifts : shift findPort token stack = some stack') :
    stack'.length ≤ stack.length + 1 := by
  unfold shift at shifts
  split at shifts
  case h_6 =>
    split at shifts
    · obtain rfl := Option.some.inj shifts
      simp
    · cases shifts
  case h_7 =>
    split at shifts
    · obtain rfl := Option.some.inj shifts
      simp
    · cases shifts
  case h_8 =>
    split at shifts
    · obtain rfl := Option.some.inj shifts
      simp
    · cases shifts
  all_goals
    split at shifts
    · obtain rfl := Option.some.inj shifts
      exact Nat.le_refl _
    · cases shifts

/-- A few tokens do not exhaust the stack. -/
theorem parseFrom_eq {tokens : List Token} (few : stack.length + tokens.length + 2 ≤ yyMaxDepth) :
    parseFrom findPort stack tokens = parseGrammar findPort stack tokens := by
  induction tokens generalizing stack with
  | nil => rfl
  | cons token rest ih =>
    have shorter := reduce_length (some token) stack
    rw [List.length_cons] at few
    have fits : ¬exhausted (reduce (some token) stack) = true := by
      rw [exhausted,decide_eq_true_eq]
      omega
    rw [parseFrom,parseGrammar,if_neg fits]
    refine congrArg _ (Option.bind_congr fun stack' shifts => ih ?_)
    have longer := shift_length shifts
    omega

theorem parseGrammar_cons {token : Token} (other : token ≠ .char ';') (stack : List (Symbol κ)) (rest : List Token) :
    parseGrammar findPort stack (token :: rest) =
      (shift findPort token (reduce (some token) stack)).bind fun stack => parseGrammar findPort stack rest := by
  rw [parseGrammar,if_neg other]

def EndsOperand (lookahead : Option Token) : Prop := startsTerminal lookahead = false ∧ lookahead ≠ some (.char '\'')

theorem reduce_shifted {lookahead : Option Token} (ends : EndsOperand lookahead) (opens : Opens stack) :
    reduce lookahead (shifted expr stack) = reduceOps lookahead (some expr) stack := by
  obtain ⟨notStarts, notQuote⟩ := ends
  cases opens <;> cases expr <;>
    simp [reduce,shifted,reduceTerminal,notQuote,reduceAnd,reduceExpr,notStarts,makeFuncExprNot]

structure IsOperator (findPort : List Char → Option κ) (op : Char) (binary : BinaryOp) : Prop where
  ends : EndsOperand (some (.char op))
  other : Token.char op ≠ .char ';'
  shifts : ∀ value (stack : List (Symbol κ)), shift findPort (.char op) (.expr value :: stack) = some (.op binary ::
    .expr value :: stack)

def Parses (findPort : List Char → Option κ) (tokens : List Token) (expr : FuncExpr κ) : Prop :=
  ∀ (stack : List (Symbol κ)) (rest : List Token), OpensFor expr stack →
    parseGrammar findPort stack (tokens ++ rest) = parseGrammar findPort (shifted expr stack) rest

theorem parses_infix {op : Char} {binary : BinaryOp} {leftTokens rightTokens : List Token}
    (parsesLeft : Parses findPort leftTokens left)
    (parsesRight : Parses findPort rightTokens right) (isOperator : IsOperator findPort op binary) (opens : Opens stack)
    (alone : ∀ lookahead value, reduceOps lookahead value stack = .expr value :: stack) (rest : List Token) :
    parseGrammar findPort stack (leftTokens ++ .char op :: (rightTokens ++ rest)) =
      parseGrammar findPort (shifted right (.op binary :: .expr (some left) :: stack)) rest := by
  rw [parsesLeft stack _ (.opens opens),parseGrammar_cons isOperator.other,reduce_shifted isOperator.ends opens,alone,
    isOperator.shifts,
    Option.bind_some]
  exact parsesRight _ rest (.opens (.op _ _))

def Fails (findPort : List Char → Option κ) (tokens : List Token) (expr : FuncExpr κ) : Prop :=
  ∀ (stack : List (Symbol κ)) (rest : List Token), OpensFor expr stack →
    parseGrammar findPort stack (tokens ++ rest) = none

theorem fails_infix {op : Char} {binary : BinaryOp} {leftTokens rightTokens : List Token}
    (fails : Fails findPort leftTokens left ∨ Parses findPort leftTokens left ∧ Fails findPort rightTokens right)
    (isOperator : IsOperator findPort op binary) (opens : Opens stack)
    (alone : ∀ lookahead value, reduceOps lookahead value stack = .expr value :: stack) (rest : List Token) :
    parseGrammar findPort stack (leftTokens ++ .char op :: (rightTokens ++ rest)) = none := by
  rcases fails with failsLeft | ⟨parsesLeft, failsRight⟩
  · exact failsLeft stack _ (.opens opens)
  · rw [parsesLeft stack _ (.opens opens),parseGrammar_cons isOperator.other,reduce_shifted isOperator.ends opens,alone,
      isOperator.shifts,
      Option.bind_some]
    exact failsRight _ rest (.opens (.op _ _))

theorem parseGrammar_lparen (opens : OpensFor expr stack) (rest : List Token) :
    parseGrammar findPort stack (.char '(' :: rest) = parseGrammar findPort (.lparen :: stack) rest := by
  rw [parseGrammar_cons (by decide),opens.reduce]
  simp [shift,opens.takesTerminal]

theorem parseGrammar_bang (opens : Opens stack) (rest : List Token) :
    parseGrammar findPort stack (.char '!' :: rest) = parseGrammar findPort (.bang :: stack) rest := by
  rw [parseGrammar_cons (by decide),(OpensFor.opens opens : OpensFor .one stack).reduce]
  simp [shift,opens.takesBang]

theorem parses_parens {op : Char} {binary : BinaryOp} {leftTokens rightTokens : List Token}
    (parsesLeft : Parses findPort leftTokens left)
    (parsesRight : Parses findPort rightTokens right) (isOperator : IsOperator findPort op binary)
    (made : binary.makeFuncExpr (some left) (some right) = some expr)
    (isShifted : ∀ stack, shifted expr stack = .terminal (some expr) :: stack) :
    Parses findPort (binaryTokens true op leftTokens rightTokens) expr := by
  intro stack rest opens
  have ends : EndsOperand (some (.char ')')) := ⟨by decide, by decide⟩
  have reduced : reduceOps (some (.char ')')) (some right) (.op binary :: .expr (some left) :: .lparen :: stack) =
      .expr (some expr) :: .lparen :: stack := by
    simp [reduceOps,binaryOp,made]
  have inner := parses_infix parsesLeft parsesRight isOperator (.lparen stack) (fun _ _ => rfl) (.char ')' :: rest)
  have close : parseGrammar findPort (shifted right (.op binary :: .expr (some left) :: .lparen :: stack))
    (.char ')' :: rest) =
      parseGrammar findPort (.terminal (some expr) :: stack) rest := by
    rw [parseGrammar_cons (by decide),reduce_shifted ends (.op _ _),reduced]
    rfl
  have append : binaryTokens true op leftTokens rightTokens ++ rest =
      .char '(' :: (leftTokens ++ .char op :: (rightTokens ++ .char ')' :: rest)) := by
    simp [binaryTokens]
  rw [append,parseGrammar_lparen opens,inner,close,isShifted]

theorem fails_parens {op : Char} {binary : BinaryOp} {leftTokens rightTokens : List Token}
    (fails : Fails findPort leftTokens left ∨ Parses findPort leftTokens left ∧ Fails findPort rightTokens right)
    (isOperator : IsOperator findPort op binary) :
    Fails findPort (binaryTokens true op leftTokens rightTokens) expr := by
  intro stack rest opens
  have append : binaryTokens true op leftTokens rightTokens ++ rest =
      .char '(' :: (leftTokens ++ .char op :: (rightTokens ++ .char ')' :: rest)) := by
    simp [binaryTokens]
  rw [append,parseGrammar_lparen opens]
  exact fails_infix fails isOperator (.lparen stack) (fun _ _ => rfl) _

theorem isOperator_or : IsOperator findPort '+' .or := ⟨⟨by decide, by decide⟩, by decide, fun _ _ => rfl⟩

theorem isOperator_and : IsOperator findPort '*' .and := ⟨⟨by decide, by decide⟩, by decide, fun _ _ => rfl⟩

theorem isOperator_xor : IsOperator findPort '^' .xor := ⟨⟨by decide, by decide⟩, by decide, fun _ _ => rfl⟩

theorem noDoubleNegation_not : NoDoubleNegation (.not expr) ↔ (∀ left, expr ≠ .not left) ∧ NoDoubleNegation expr := by
  cases expr <;> simp [NoDoubleNegation]

variable [DecidableEq κ] {name : κ → List Char}

theorem parses_tokens (found : ∀ port ∈ BddEvaluation.exprPorts expr, findPort (name port) = some port)
    (noDouble : NoDoubleNegation expr) :
    Parses findPort (tokens name true expr) expr := by
  induction expr with
  | port port =>
    intro stack rest opens
    have port := found port (Finset.mem_singleton_self port)
    simp [tokens,parseGrammar_cons,opens.reduce,shift,opens.takesTerminal,makeFuncExprPort,port,shifted]
  | one =>
    intro stack rest opens
    simp [tokens,parseGrammar_cons,opens.reduce,shift,opens.takesTerminal,shifted]
  | zero =>
    intro stack rest opens
    simp [tokens,parseGrammar_cons,opens.reduce,shift,opens.takesTerminal,shifted]
  | not left ih =>
    intro stack rest opens
    obtain ⟨isNoNot, noDouble⟩ := noDoubleNegation_not.1 noDouble
    rcases opens with opens | ⟨stack, notNot⟩
    · have inner := ih found noDouble (.bang :: stack) rest (.bang stack isNoNot)
      have isShifted : shifted left (.bang :: stack) = .terminal (some left) :: .bang :: stack := by
        cases left <;> first | rfl | exact absurd rfl (isNoNot _)
      rw [tokens,List.cons_append,parseGrammar_bang opens,inner,isShifted]
      rfl
    · exact absurd rfl (notNot left)
  | or left right ihl ihr =>
    obtain ⟨inLeft, inRight⟩ := Finset.forall_mem_union.1 found
    exact parses_parens (ihl inLeft noDouble.1) (ihr inRight noDouble.2) isOperator_or rfl (fun _ => rfl)
  | and left right ihl ihr =>
    obtain ⟨inLeft, inRight⟩ := Finset.forall_mem_union.1 found
    exact parses_parens (ihl inLeft noDouble.1) (ihr inRight noDouble.2) isOperator_and rfl (fun _ => rfl)
  | xor left right ihl ihr =>
    obtain ⟨inLeft, inRight⟩ := Finset.forall_mem_union.1 found
    exact parses_parens (ihl inLeft noDouble.1) (ihr inRight noDouble.2) isOperator_xor rfl (fun _ => rfl)

theorem fails_operands (foundLeft : ∀ port ∈ BddEvaluation.exprPorts left, findPort (name port) = some port)
    (failsLeft : ¬NoDoubleNegation left → Fails findPort (tokens name true left) left)
    (failsRight : ¬NoDoubleNegation right → Fails findPort (tokens name true right) right)
    (double : ¬(NoDoubleNegation left ∧ NoDoubleNegation right)) : Fails findPort (tokens name true left) left ∨
      Parses findPort (tokens name true left) left ∧ Fails findPort (tokens name true right) right := by
  by_cases noDouble : NoDoubleNegation left
  · exact .inr ⟨parses_tokens foundLeft noDouble, failsRight fun noDouble' => double ⟨noDouble, noDouble'⟩⟩
  · exact .inl (failsLeft noDouble)

theorem fails_tokens (found : ∀ port ∈ BddEvaluation.exprPorts expr, findPort (name port) = some port)
    (double : ¬NoDoubleNegation expr) :
    Fails findPort (tokens name true expr) expr := by
  induction expr with
  | port port => exact absurd trivial double
  | one => exact absurd trivial double
  | zero => exact absurd trivial double
  | not left ih =>
    intro stack rest opens
    rcases opens with opens | ⟨stack, notNot⟩
    · rw [tokens,List.cons_append,parseGrammar_bang opens]
      by_cases isNoNot : ∀ inner, left ≠ .not inner
      · exact ih found (fun noDouble => double (noDoubleNegation_not.2 ⟨isNoNot, noDouble⟩)) _ rest
          (.bang stack isNoNot)
      · -- the second negation is no terminal
        obtain ⟨inner, rfl⟩ := not_forall_not.1 isNoNot
        rw [tokens,List.cons_append,parseGrammar_cons (by decide)]
        rfl
    · exact absurd rfl (notNot left)
  | or left right ihl ihr =>
    obtain ⟨inLeft, inRight⟩ := Finset.forall_mem_union.1 found
    exact fails_parens (fails_operands inLeft (ihl inLeft) (ihr inRight) double) isOperator_or
  | and left right ihl ihr =>
    obtain ⟨inLeft, inRight⟩ := Finset.forall_mem_union.1 found
    exact fails_parens (fails_operands inLeft (ihl inLeft) (ihr inRight) double) isOperator_and
  | xor left right ihl ihr =>
    obtain ⟨inLeft, inRight⟩ := Finset.forall_mem_union.1 found
    exact fails_parens (fails_operands inLeft (ihl inLeft) (ihr inRight) double) isOperator_xor

omit [DecidableEq κ] in
theorem parseGrammar_end (expr : FuncExpr κ) (opens : Opens stack) :
    parseGrammar findPort (shifted expr stack) [] = accept (reduceOps none (some expr) stack) := by
  rw [parseGrammar,reduce_shifted ⟨rfl, by simp⟩ opens]

theorem parseGrammar_operand (found : ∀ port ∈ BddEvaluation.exprPorts expr, findPort (name port) = some port)
    (noDouble : NoDoubleNegation expr) : parseGrammar findPort [] (tokens name true expr) = some (some expr) := by
  have whole := parses_tokens found noDouble [] [] (.opens .empty)
  rw [List.append_nil,parseGrammar_end expr .empty] at whole
  exact whole

theorem parseGrammar_infix {op : Char} {binary : BinaryOp}
    (foundLeft : ∀ port ∈ BddEvaluation.exprPorts left, findPort (name port) = some port)
    (foundRight : ∀ port ∈ BddEvaluation.exprPorts right, findPort (name port) = some port)
    (noDouble : NoDoubleNegation left ∧ NoDoubleNegation right) (isOperator : IsOperator findPort op binary)
    (made : binary.makeFuncExpr (some left) (some right) = some expr) :
    parseGrammar findPort [] (binaryTokens false op (tokens name true left) (tokens name true right)) =
    some (some expr) := by
  have whole := parses_infix (parses_tokens foundLeft noDouble.1) (parses_tokens foundRight noDouble.2) isOperator
    .empty (fun _ _ => rfl) []
  rw [List.append_nil,parseGrammar_end right (.op _ _)] at whole
  rw [← made]
  exact whole

theorem parseGrammar_tokens (found : ∀ port ∈ BddEvaluation.exprPorts expr, findPort (name port) = some port)
    (noDouble : NoDoubleNegation expr) : parseGrammar findPort [] (tokens name false expr) = some (some expr) := by
  cases expr with
  | port port => exact parseGrammar_operand found noDouble
  | one => exact parseGrammar_operand found noDouble
  | zero => exact parseGrammar_operand found noDouble
  | not left => exact parseGrammar_operand found noDouble
  | or left right =>
    obtain ⟨inLeft, inRight⟩ := Finset.forall_mem_union.1 found
    exact parseGrammar_infix inLeft inRight noDouble isOperator_or rfl
  | and left right =>
    obtain ⟨inLeft, inRight⟩ := Finset.forall_mem_union.1 found
    exact parseGrammar_infix inLeft inRight noDouble isOperator_and rfl
  | xor left right =>
    obtain ⟨inLeft, inRight⟩ := Finset.forall_mem_union.1 found
    exact parseGrammar_infix inLeft inRight noDouble isOperator_xor rfl

theorem fails_whole {op : Char} {binary : BinaryOp}
    (foundLeft : ∀ port ∈ BddEvaluation.exprPorts left, findPort (name port) = some port)
    (foundRight : ∀ port ∈ BddEvaluation.exprPorts right, findPort (name port) = some port)
    (double : ¬(NoDoubleNegation left ∧ NoDoubleNegation right)) (isOperator : IsOperator findPort op binary) :
    parseGrammar findPort [] (binaryTokens false op (tokens name true left) (tokens name true right)) = none := by
  have fails := fails_operands foundLeft (fails_tokens foundLeft) (fails_tokens foundRight) double
  have whole := fails_infix fails isOperator .empty (fun _ _ => rfl) []
  rwa [List.append_nil] at whole

theorem parseGrammar_double (found : ∀ port ∈ BddEvaluation.exprPorts expr, findPort (name port) = some port)
    (double : ¬NoDoubleNegation expr) : parseGrammar findPort [] (tokens name false expr) = none := by
  cases expr with
  | port port => exact absurd trivial double
  | one => exact absurd trivial double
  | zero => exact absurd trivial double
  | not left =>
    have whole := fails_tokens found double [] [] (.opens .empty)
    rwa [List.append_nil] at whole
  | or left right =>
    obtain ⟨inLeft, inRight⟩ := Finset.forall_mem_union.1 found
    exact fails_whole inLeft inRight double isOperator_or
  | and left right =>
    obtain ⟨inLeft, inRight⟩ := Finset.forall_mem_union.1 found
    exact fails_whole inLeft inRight double isOperator_and
  | xor left right =>
    obtain ⟨inLeft, inRight⟩ := Finset.forall_mem_union.1 found
    exact fails_whole inLeft inRight double isOperator_xor

end Parse

section RoundTrip
variable [DecidableEq κ]

/-- The ports of the expression are in the cell, under names that are read as ports. -/
structure InCell (cell : Cell κ) (expr : FuncExpr κ) : Prop where
  names : ∀ port ∈ BddEvaluation.exprPorts expr, IsPort (cell.name port)
  found : ∀ port ∈ BddEvaluation.exprPorts expr, cell.findLibertyPort (cell.name port) = some port

theorem InCell.findPort {cell : Cell κ} {expr : FuncExpr κ} (inCell : InCell cell expr) :
    ∀ port ∈ BddEvaluation.exprPorts expr, libertyReaderFindPort cell (cell.name port) = some port := by
  intro port mem
  simp [libertyReaderFindPort,inCell.found port mem]

omit [DecidableEq κ] in
theorem tokens_ne_nil (name : κ → List Char) (withParens : Bool) (expr : FuncExpr κ) :
    tokens name withParens expr ≠ [] := by
  cases expr <;> cases withParens <;> simp [tokens,binaryTokens]

theorem tokens_length {name : κ → List Char} {expr : FuncExpr κ}
    (names : ∀ port ∈ BddEvaluation.exprPorts expr, IsPort (name port)) (withParens : Bool) :
    (tokens name withParens expr).length ≤ (text name withParens expr).length := by
  have binary (left right : List Token) (leftText rightText : List Char) (op : Char) (withParens : Bool)
      (shortLeft : left.length ≤ leftText.length) (shortRight : right.length ≤ rightText.length) :
      (binaryTokens withParens op left right).length ≤ (binaryText withParens op leftText rightText).length := by
    unfold binaryTokens binaryText
    split
    · simp only [List.length_append,List.length_cons]
      omega
    · simp only [List.length_append,List.length_cons]
      omega
  induction expr generalizing withParens with
  | port port =>
    obtain ⟨ch, rest, isName, -⟩ := names port (Finset.mem_singleton_self port)
    simp [tokens,text,isName]
  | one => exact Nat.le_refl _
  | zero => exact Nat.le_refl _
  | not left ih => exact Nat.succ_le_succ (ih names true)
  | or left right ihl ihr =>
    obtain ⟨inLeft, inRight⟩ := Finset.forall_mem_union.1 names
    exact binary _ _ _ _ _ _ (ihl inLeft true) (ihr inRight true)
  | and left right ihl ihr =>
    obtain ⟨inLeft, inRight⟩ := Finset.forall_mem_union.1 names
    exact binary _ _ _ _ _ _ (ihl inLeft true) (ihr inRight true)
  | xor left right ihl ihr =>
    obtain ⟨inLeft, inRight⟩ := Finset.forall_mem_union.1 names
    exact binary _ _ _ _ _ _ (ihl inLeft true) (ihr inRight true)

omit [DecidableEq κ] in
theorem parseFuncExpr_long (findPort : List Char → Option κ) {func : List Char} (long : yyReadBufSize ≤ func.length) :
    parseFuncExpr findPort func = none := by
  have some : func ≠ [] := by
    rintro rfl
    exact absurd long (by decide)
  rw [parseFuncExpr,if_neg some,copyInput,if_neg (Nat.not_lt.2 long)]
  rfl

theorem parseFuncExpr_text {cell : Cell κ} {expr : FuncExpr κ} (inCell : InCell cell expr)
    (short : (text cell.name false expr).length < yyReadBufSize) :
    parseFuncExpr (libertyReaderFindPort cell) (text cell.name false expr) =
      parseGrammar (libertyReaderFindPort cell) [] (tokens cell.name false expr) := by
  have lexed := lex_text inCell.names false
  have some : text cell.name false expr ≠ [] := by
    intro empty
    rw [empty] at lexed
    exact tokens_ne_nil cell.name false expr lexed.symm
  have few := tokens_length inCell.names false
  rw [parseFuncExpr,if_neg some,copyInput,if_pos short,Option.bind_some,lexed]
  apply parseFrom_eq
  unfold yyReadBufSize at short
  rw [List.length_nil,yyMaxDepth]
  omega

omit [DecidableEq κ] in
theorem equiv_self (cell : Cell κ) (expr : FuncExpr κ) : equiv cell expr expr = true := by
  induction expr with
  | or left right ihl ihr => simp [equiv,ihl,ihr]
  | and left right ihl ihr => simp [equiv,ihl,ihr]
  | xor left right ihl ihr => simp [equiv,ihl,ihr]
  | not left ih => exact ih
  | _ => simp [equiv]

/-- Where the strings of left operands outlast those of the right ones, an expression is read back exactly if its text
is copied whole and it does not negate a negation. -/
theorem roundTrips_iff (cell : Cell κ) (s : TmpStrings) (expr : FuncExpr κ) (inCell : InCell cell expr)
    (outlast : LeftsOutlast expr) :
    RoundTrips cell s expr ↔ NoDoubleNegation expr ∧ (text cell.name false expr).length < yyReadBufSize := by
  obtain ⟨result, print, made⟩ : Prints cell.name false expr s := prints outlast false s
  constructor
  · rintro ⟨result', printed, expr', print', read, parsed, -, -⟩
    rw [print,Option.some.injEq] at print'
    rw [← print',made.read,Option.some.injEq] at read
    rw [← read] at parsed
    by_cases short : (text cell.name false expr).length < yyReadBufSize
    · refine ⟨?_, short⟩
      by_contra double
      rw [parseFuncExpr_text inCell short,parseGrammar_double inCell.findPort double] at parsed
      cases parsed
    · rw [parseFuncExpr_long _ (Nat.not_lt.1 short)] at parsed
      cases parsed
  · rintro ⟨noDouble, short⟩
    have parse := parseFuncExpr_text inCell short
    rw [parseGrammar_tokens inCell.findPort noDouble] at parse
    exact ⟨result, _, expr, print, made.read, parse, fun _ => rfl, fun _ => equiv_self cell expr⟩

end RoundTrip

def gateCell : Cell Bool where
  name port := if port then ['A'] else ['B']
  direction _ := .input
  findLibertyPort portName := if portName = ['A'] then some true else if portName = ['B'] then some false else none
  busBrktLeft := '['
  busBrktRight := ']'

def freshStrings : TmpStrings := ⟨fun _ => ⟨0, 0, []⟩, 0, by decide⟩

def conjunctions : ℕ → FuncExpr Bool
  | 0 => .port true
  | n + 1 => .and (.port true) (conjunctions n)

theorem gateCell_inCell (expr : FuncExpr Bool) : InCell gateCell expr where
  names port _ := by
    cases port
    · exact ⟨'B', [], rfl, by decide, by simp⟩
    · exact ⟨'A', [], rfl, by decide, by simp⟩
  found port _ := by cases port <;> decide

theorem roundTrips_iff_xor : InCell gateCell (.xor (.or (.port true) (.port false)) (.not (.port true))) ∧
    LeftsOutlast (.xor (.or (.port true) (.port false)) (.not (.port true)) : FuncExpr Bool) ∧
    (RoundTrips gateCell freshStrings (.xor (.or (.port true) (.port false)) (.not (.port true))) ↔
      NoDoubleNegation (.xor (.or (.port true) (.port false)) (.not (.port true)) : FuncExpr Bool) ∧
        (text gateCell.name false (.xor (.or (.port true) (.port false)) (.not (.port true)))).length <
          yyReadBufSize) := by
  have outlast : LeftsOutlast (.xor (.or (.port true) (.port false)) (.not (.port true)) : FuncExpr Bool) := by
    simp [LeftsOutlast,Outlasts,stringCount,tmpStringCount]
  exact ⟨gateCell_inCell _, outlast, roundTrips_iff gateCell freshStrings _ (gateCell_inCell _) outlast⟩

theorem leftsOutlast_conjunctions (n : ℕ) : LeftsOutlast (conjunctions n) := by
  induction n with
  | zero => trivial
  | succ n ih => exact ⟨trivial, ih, .inl rfl⟩

theorem stringCount_conjunctions (n : ℕ) : stringCount (conjunctions n) = n := by
  induction n with
  | zero => rfl
  | succ n ih => rw [conjunctions,stringCount,ih,stringCount,Nat.zero_add]

theorem length_conjunctions (n : ℕ) : (text gateCell.name true (conjunctions n)).length = 4 * n + 1 := by
  induction n with
  | zero => rfl
  | succ n ih =>
    simp only [conjunctions,text,binaryText,if_true,List.length_append,List.length_cons,List.length_nil,ih]
    simp only [gateCell,if_true,List.length_cons,List.length_nil]
    omega

theorem binaryString_buffer {s : TmpStrings} {left right : CString} {leftText rightText : List Char} {withParens : Bool}
    {op : Char} {result : CString × TmpStrings} (print : binaryString withParens op left right s = some result)
    (readLeft : s.read left = some leftText) (readRight : s.read right = some rightText)
    (short : (s.strings s.place).length < leftText.length + rightText.length + 2) :
    (result.2.strings s.place).buffer = (s.strings s.place).buffer + 1 := by
  simp only [binaryString,readLeft,readRight,Option.bind_eq_bind,Option.bind_some] at print
  obtain ⟨leftText', -, print⟩ := Option.bind_eq_some_iff.1 print
  obtain ⟨rightText', -, print⟩ := Option.bind_eq_some_iff.1 print
  obtain rfl := Option.some.inj print
  have longer : (s.strings s.place).length < leftText.length + 1 + rightText.length + 1 + if withParens then 2
    else 0 := by omega
  simp [TmpStrings.makeTmpString,TmpStrings.write,longer]

/-- The place of the sum has its turn again for the last conjunction, whose string is longer. -/
theorem sum_freed {n : ℕ} (turns : n + 2 = tmpStringCount) :
    asString gateCell.name false (.or (.or (.port true) (.port false)) (conjunctions (n + 2))) freshStrings = none := by
  let sum : CString × TmpStrings :=
    (.tmp 0 1, (freshStrings.makeTmpString 6).2.write (.tmp 0 1) ['(', 'A', '+', 'B', ')'])
  have first : asString gateCell.name true (.or (.port true) (.port false)) freshStrings = some sum := rfl
  have printed : Prints gateCell.name true (conjunctions (n + 1)) sum.2 :=
    prints (leftsOutlast_conjunctions (n + 1)) true sum.2
  obtain ⟨⟨right, s⟩, print, made⟩ := printed
  rw [stringCount_conjunctions] at made
  change sum.2.Made (n + 1) _ right s at made
  have sumTurn : sum.2.turn 0 = n + 1 := by
    change tmpStringCount - 1 = n + 1
    omega
  obtain ⟨kept, turn⟩ := made.kept 0 (by decide) sumTurn.ge
  have place : s.place = 0 := by
    have inside := s.place_lt
    rw [sumTurn,Nat.sub_self] at turn
    unfold TmpStrings.turn tmpStringCount at *
    omega
  obtain ⟨result, joined, -⟩ := binaryString_made (.literal sum.2 ['A']) made true '*' (.inl rfl)
  have short : (s.strings s.place).length < ['A'].length +
    (text gateCell.name true (conjunctions (n + 1))).length + 2 := by
    have long := length_conjunctions (n + 1)
    rw [place,kept]
    change 6 < 1 + _ + 2
    omega
  have freed := binaryString_buffer joined rfl made.read short
  rw [place,kept] at freed
  have gone : result.2.read (.tmp 0 1) = none := if_neg (by rw [freed]; decide)
  have last : asString gateCell.name true (conjunctions (n + 2)) sum.2 = some result := by
    rw [conjunctions,asString,asString,Option.bind_eq_bind,Option.bind_some,print]
    exact joined
  rw [asString,first,Option.bind_eq_bind,Option.bind_some,last,Option.bind_some]
  unfold binaryString
  rw [gone]
  rfl

/-- A long chain is printed, but not copied whole. -/
theorem chain_lost {n : ℕ} (long : yyReadBufSize ≤ 4 * n) :
    ¬RoundTrips gateCell freshStrings (conjunctions (n + 1)) := by
  obtain ⟨result, print, made⟩ : Prints gateCell.name false (conjunctions (n + 1)) freshStrings :=
    prints (leftsOutlast_conjunctions (n + 1)) false freshStrings
  rintro ⟨result', printed, expr', print', read, parsed, -, -⟩
  rw [print,Option.some.injEq] at print'
  rw [← print',made.read,Option.some.injEq] at read
  have length : (text gateCell.name false (conjunctions (n + 1))).length = 4 * n + 3 := by
    have operand := length_conjunctions n
    simp only [conjunctions,text,binaryText,Bool.false_eq_true,if_false,List.length_append,List.length_cons,operand]
    simp only [gateCell,if_true,List.length_cons,List.length_nil]
    omega
  rw [← read,parseFuncExpr_long _ (by omega)] at parsed
  cases parsed

/-- The negation of a negation is not parsed; the string of a sum is freed while a chain of conjunctions is printed; and
a long text is not copied whole. -/
theorem text_lost : InCell gateCell (.not (.not (.port true))) ∧
    ¬RoundTrips gateCell freshStrings (.not (.not (.port true))) ∧
    InCell gateCell (.or (.or (.port true) (.port false)) (conjunctions 256)) ∧
    NoDoubleNegation (.or (.or (.port true) (.port false)) (conjunctions 256)) ∧
    ¬RoundTrips gateCell freshStrings (.or (.or (.port true) (.port false)) (conjunctions 256)) ∧
    InCell gateCell (conjunctions 2100) ∧ NoDoubleNegation (conjunctions 2100) ∧
    ¬RoundTrips gateCell freshStrings (conjunctions 2100) := by
  have noDouble (n : ℕ) : NoDoubleNegation (conjunctions n) := by
    induction n with
    | zero => trivial
    | succ n ih => exact ⟨trivial, ih⟩
  refine ⟨gateCell_inCell _, ?_, gateCell_inCell _, ⟨⟨trivial, trivial⟩, noDouble 256⟩, ?_, gateCell_inCell _,
    noDouble 2100, ?_⟩
  · rintro ⟨result, text, expr', print, read, parsed, -, -⟩
    have text' : (asString gateCell.name false (.not (.not (.port true))) freshStrings).bind (fun result =>
      result.2.read result.1) =
        some ['!', '!', 'A'] := by decide +kernel
    have fails : parseFuncExpr (libertyReaderFindPort gateCell) ['!', '!', 'A'] = none := by decide +kernel
    rw [print,Option.bind_some,read,Option.some.injEq] at text'
    rw [text',fails] at parsed
    cases parsed
  · rintro ⟨result, text, expr', print, -, -, -, -⟩
    have freed := sum_freed (show 254 + 2 = tmpStringCount by rfl)
    simp only [Nat.reduceAdd] at freed
    rw [print] at freed
    cases freed
  · have lost : ¬RoundTrips gateCell freshStrings (conjunctions (2099 + 1)) := chain_lost (by decide)
    exact lost

end GTPower.FuncText
