import Jack.Compile.Error
import Jack.Compile.Trace
import Jack.Token.Source

/-! The single pass over the tokens of a class: its state and the steps that all procedures share. -/

namespace Jack

/-- What a pass notes for the log. -/
inductive Note where
  | compiling (className : Text)
  | registered (v : Variable)
  | wroteFunction (name : Text) (locals : Nat)
  | aborted (className : Text) (error : CompileError)
  deriving DecidableEq, Repr

namespace Pass

structure State where
  /-- The one token of lookahead. -/
  peek : Token
  /-- The tokens behind it. -/
  source : Source
  className : Text := []
  scopes : Scopes := {}
  /-- The number of the next conditional of the subroutine. -/
  nextIf : Nat := 0
  /-- The number of the next loop of the subroutine. -/
  nextWhile : Nat := 0
  code : Array Instruction := #[]
  trace : Array Trace.Entry := #[]
  notes : Array Note := #[]

/-- A pass starts by taking its lookahead from the source. -/
def State.start (source : Source) : State :=
  let (peek, source) := source.next
  { peek, source }

def State.accept (s : State) : State :=
  let (peek, source) := s.source.next
  { s with peek, source, trace := s.trace.push (.terminal s.peek) }

end Pass

/-- A step of a pass. The state survives a failure, so that its notes can be shown. -/
abbrev Pass := EStateM CompileError Pass.State

namespace Pass

def peek : Pass Terminal := fun s => .ok s.peek.terminal s

def reject {α : Type} (expected : Expectation) : Pass α :=
  fun s => .error (.unexpected s.peek expected) s

/-- Accepts the lookahead if it is one of the given terminals. -/
def expect (terminals : List Terminal) : Pass Token := fun s =>
  if s.peek.terminal ∈ terminals then .ok s.peek s.accept
  else .error (.unexpected s.peek (.oneOf terminals)) s

def keyword (k : Keyword) : Pass Unit := discard <| expect [.keyword k]

def punct (p : Punct) : Pass Unit := discard <| expect [.punct p]

def ident : Pass Token := expect [.ident]

def emit (i : Instruction) : Pass Unit :=
  modify fun s => { s with code := s.code.push i }

def note (n : Note) : Pass Unit :=
  modify fun s => { s with notes := s.notes.push n }

def record (e : Trace.Entry) : Pass Unit :=
  modify fun s => { s with trace := s.trace.push e }

/-- Runs a procedure as one nonterminal of the trace. -/
def within {α : Type} (n : Nonterminal) (body : Pass α) : Pass α := do
  record (.opened n)
  let a ← body
  record (.closed n)
  return a

/-- Runs the procedure that the lookahead selects, again and again until it selects none, and counts
how often. Every selected procedure takes a token, so a bound on the tokens left bounds the loop. -/
def repeatBy (select : Terminal → Option (Pass Unit)) : Nat → Pass Nat
  | 0 => return 0
  | n + 1 => do
    match select (← peek) with
    | none => return 0
    | some body =>
      body
      return (← repeatBy select n) + 1

/-- Selects a further item of a list: a comma and what follows it. -/
def afterComma (item : Pass Unit) : Terminal → Option (Pass Unit)
  | .punct .comma => some do
    punct .comma
    item
  | _ => none

def declare (name type : Text) (storage : Storage) : Pass Unit := do
  let v ← modifyGet fun s =>
    let (v, scopes) := s.scopes.declare name type storage
    (v, { s with scopes })
  note (.registered v)

def resolve (use : Token) : Pass Variable := fun s =>
  match s.scopes.resolve? use.lexeme with
  | some v => .ok v s
  | none => .error (.undefined use) s

def pushVariable (v : Variable) : Pass Unit := emit (.push v.storage.segment v.index)

def popVariable (v : Variable) : Pass Unit := emit (.pop v.storage.segment v.index)

def ownSubroutine (name : Text) : Pass Text := fun s => .ok (s.className ++ "." ++ name) s

end Pass

end Jack
