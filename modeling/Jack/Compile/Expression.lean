import Jack.Compile.Pass

/-! Expressions. Operators apply from left to right, without precedence:

expression: term (op term)*
expressionList: (expression (',' expression)*)?
subroutineCall: subroutineName '(' expressionList ')' |
  (className | varName) '.' subroutineName '(' expressionList ')'
term: integerConstant | stringConstant | keywordConstant | varName | varName '[' expression ']' |
  subroutineCall | '(' expression ')' | unaryOp term

A procedure that can meet itself again takes a bound on the number of tokens left: whatever leads back
to it takes a token first, and at zero nothing but the end of input is left. -/

namespace Jack.Pass

/-- The instruction of a binary operator. Products and quotients are library calls. -/
def operation? : Terminal → Option Instruction
  | .punct .plus => some (.arithmetic .add)
  | .punct .minus => some (.arithmetic .sub)
  | .punct .lt => some (.arithmetic .lt)
  | .punct .gt => some (.arithmetic .gt)
  | .punct .eq => some (.arithmetic .eq)
  | .punct .and => some (.arithmetic .and)
  | .punct .or => some (.arithmetic .or)
  | .punct .asterisk => some (.call "Math.multiply" 2)
  | .punct .slash => some (.call "Math.divide" 2)
  | _ => none

def operationBy (term : Pass Unit) (op : Terminal) : Option (Pass Unit) :=
  (operation? op).map fun i => do
    discard <| expect [op]
    term
    emit i

def expressionBy (term : Pass Unit) (n : Nat) : Pass Unit := within .expression do
  term
  discard <| repeatBy (operationBy term) n

def expressionListBy (expression : Pass Unit) (n : Nat) : Pass Nat := within .expressionList do
  if (← peek) = .punct .rparen then return 0
  expression
  return (← repeatBy (afterComma expression) n) + 1

/-- The rest of a call behind its first identifier. A call without a qualifier is a call of a method of the
current object; one that is qualified by a variable is a call of a method of that object. -/
def callBy (expression : Pass Unit) (n : Nat) (name : Token) : Pass Unit := do
  let (callee, receivers) ← if (← peek) = .punct .lparen then do
      emit (.push .pointer 0)
      pure (← ownSubroutine name.lexeme, 1)
    else do
      punct .dot
      let subroutine ← ident
      match (← get).scopes.resolve? name.lexeme with
      | some object =>
        pushVariable object
        pure (object.type ++ "." ++ subroutine.lexeme, 1)
      | none => pure (name.lexeme ++ "." ++ subroutine.lexeme, 0)
  punct .lparen
  let arguments ← expressionListBy expression n
  punct .rparen
  emit (.call callee (receivers + arguments : Nat))

/-- A string constant: an object of the constant's length, to which its characters are appended. Each
call leaves the object on the stack for the next. -/
def stringConstant (lexeme : Text) : Pass Unit := do
  let codes := Utf8.codePoints lexeme
  emit (.push .constant codes.length)
  emit (.call "String.new" 1)
  for code in codes do
    emit (.push .constant code)
    emit (.call "String.appendChar" 2)

/-- Here `inner` reads a term nested in this one. -/
def termBy (inner : Pass Unit) (n : Nat) : Pass Unit := within .term do
  match ← peek with
  | .number =>
    let constant ← expect [.number]
    match constant.word? with
    | some value => emit (.push .constant value)
    | none => throw (.outOfRange constant)
  | .string =>
    let constant ← expect [.string]
    stringConstant constant.lexeme
  | .keyword .true =>
    keyword .true
    emit (.push .constant 0)
    emit (.arithmetic .not)
  | .keyword .false =>
    keyword .false
    emit (.push .constant 0)
  | .keyword .null =>
    keyword .null
    emit (.push .constant 0)
  | .keyword .this =>
    keyword .this
    emit (.push .pointer 0)
  | .ident =>
    let name ← ident
    match ← peek with
    | .punct .lparen | .punct .dot => callBy (expressionBy inner n) n name
    | .punct .lbracket =>
      let array ← resolve name
      punct .lbracket
      expressionBy inner n
      punct .rbracket
      pushVariable array
      emit (.arithmetic .add)
      emit (.pop .pointer 1)
      emit (.push .that 0)
    | _ => pushVariable (← resolve name)
  | .punct .lparen =>
    punct .lparen
    expressionBy inner n
    punct .rparen
  | .punct .minus =>
    punct .minus
    inner
    emit (.arithmetic .neg)
  | .punct .not =>
    punct .not
    inner
    emit (.arithmetic .not)
  | _ => reject .term

def term : Nat → Pass Unit
  | 0 => within .term (reject .term)
  | n + 1 => termBy (term n) n

def expression (n : Nat) : Pass Unit := expressionBy (term n) n

def call (n : Nat) (name : Token) : Pass Unit := callBy (expression n) n name

end Jack.Pass
