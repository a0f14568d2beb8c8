import Jack.Text.Basic

/-! Instructions of the stack machine, and the text of each. -/

namespace Jack

/-- A memory segment. Text may name a segment that the machine does not have. -/
inductive Segment where
  | constant
  | argument
  | «local»
  | static
  | this
  | that
  | pointer
  | temp
  | other (name : Text)
  deriving DecidableEq, Repr

def Segment.name : Segment → Text
  | .constant => "constant"
  | .argument => "argument"
  | .local => "local"
  | .static => "static"
  | .this => "this"
  | .that => "that"
  | .pointer => "pointer"
  | .temp => "temp"
  | .other name => name

/-- The segments of the machine. -/
def Segment.all : List Segment :=
  [.constant, .argument, .local, .static, .this, .that, .pointer, .temp]

def Segment.ofName (name : Text) : Segment :=
  (Segment.all.find? (·.name == name)).getD (.other name)

inductive Arithmetic where
  | add
  | sub
  | neg
  | eq
  | gt
  | lt
  | and
  | or
  | not
  deriving DecidableEq, Repr

def Arithmetic.name : Arithmetic → Text
  | .add => "add"
  | .sub => "sub"
  | .neg => "neg"
  | .eq => "eq"
  | .gt => "gt"
  | .lt => "lt"
  | .and => "and"
  | .or => "or"
  | .not => "not"

/-- The target of a jump. Conditionals and loops have labels of their own, numbered within a
subroutine. -/
inductive Label where
  | ifTrue (n : Nat)
  | ifFalse (n : Nat)
  | ifEnd (n : Nat)
  | whileExp (n : Nat)
  | whileEnd (n : Nat)
  | named (name : Text)
  deriving DecidableEq, Repr

def Label.name : Label → Text
  | .ifTrue n => "IF_TRUE" ++ Text.ofNat n
  | .ifFalse n => "IF_FALSE" ++ Text.ofNat n
  | .ifEnd n => "IF_END" ++ Text.ofNat n
  | .whileExp n => "WHILE_EXP" ++ Text.ofNat n
  | .whileEnd n => "WHILE_END" ++ Text.ofNat n
  | .named name => name

inductive Instruction where
  | push (segment : Segment) (index : Int)
  | pop (segment : Segment) (index : Int)
  | arithmetic (op : Arithmetic)
  | label (l : Label)
  | goto (l : Label)
  | ifGoto (l : Label)
  | call (callee : Text) (arguments : Int)
  | function (name : Text) (locals : Int)
  | ret
  /-- A line that is taken as it is. -/
  | verbatim (line : Text)
  deriving DecidableEq, Repr

/-- The line of code of an instruction. -/
def Instruction.text : Instruction → Text
  | .push segment index => "push " ++ segment.name ++ " " ++ Text.ofInt index
  | .pop segment index => "pop " ++ segment.name ++ " " ++ Text.ofInt index
  | .arithmetic op => op.name
  | .label l => "label " ++ l.name
  | .goto l => "goto " ++ l.name
  | .ifGoto l => "if-goto " ++ l.name
  | .call callee arguments => "call " ++ callee ++ " " ++ Text.ofInt arguments
  | .function name locals => "function " ++ name ++ " " ++ Text.ofInt locals
  | .ret => "return"
  | .verbatim line => line

end Jack
