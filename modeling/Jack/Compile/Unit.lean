import Jack.Compile.Class
import Jack.Token.Lexer

/-! Compiling a class from a source of tokens or from text. -/

namespace Jack

structure Compiled where
  className : Text
  instructions : List Instruction
  trace : List Trace.Entry
  deriving DecidableEq, Repr

namespace Compiled

def codeLines (c : Compiled) : List Text := c.instructions.map Instruction.text

def traceLines (c : Compiled) : List Text := Trace.lines 0 c.trace

/-- The code as the text of a file. -/
def code (c : Compiled) : Text := Text.unlines c.codeLines

def xml (c : Compiled) : Text := Text.unlines c.traceLines

end Compiled

/-- What compiling a class comes to. -/
structure Compilation where
  outcome : Except CompileError Compiled
  /-- What is left of the source; the lookahead of the pass is gone. -/
  source : Source
  notes : List Note

/-- Compiles the class that starts at the lookahead of a state. -/
def Pass.State.compile (s : Pass.State) : Compilation :=
  match (Pass.wholeClass (s.source.tokens.length + 1)).run s with
  | .ok _ s =>
    { outcome := .ok ⟨s.className, s.code.toList, s.trace.toList⟩
      source := s.source
      notes := s.notes.toList }
  | .error e s =>
    { outcome := .error e
      source := s.source
      notes := s.notes.toList ++ [.aborted s.className e] }

def compile (source : Source) : Compilation := (Pass.State.start source).compile

def compileText (s : Text) : Except CompileError Compiled :=
  (compile (Lexer.ofText s).toSource).outcome

/-- A compiler for one class, which it compiles once. -/
inductive Compiler where
  | ready (s : Pass.State)
  | spent

inductive Compiler.Refusal where
  | spent
  | rejected (e : CompileError)

def Compiler.Refusal.message : Compiler.Refusal → Text
  | .spent => "translator already compiled its class"
  | .rejected e => e.message

def Compiler.new (source : Source) : Compiler := .ready (.start source)

def Compiler.compile : Compiler → Except Compiler.Refusal Compiled × Compiler
  | .ready s => (s.compile.outcome.mapError .rejected, .spent)
  | .spent => (.error .spent, .spent)

end Jack
