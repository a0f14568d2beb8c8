import Jack.Compile.Class
import Jack.Proofs.Tree.Statement

/-! Derivation trees of declarations, up to a whole class, and the variables they declare. -/

namespace Jack

/-- A variable as a source declares it. -/
structure Declaration where
  name : Text
  type : Text
  storage : Storage
  deriving DecidableEq, Repr

namespace Tree

/-- A further item of a list: a comma and what follows it. -/
structure Further (α : Type) where
  comma : Symbol .comma
  item : α

/-- type varName (',' varName)* ';' -/
structure VarNames where
  type : Leaf Pass.typeTerminals
  first : Name
  rest : List (Further Name)
  semicolon : Symbol .semicolon

theorem terminal_ne_eof_of_type (type : Leaf Pass.typeTerminals) : type.token.terminal ≠ .eof :=
  type.terminal_ne_eof (by simp [Pass.typeTerminals])

namespace VarNames

def tokens (v : VarNames) : List Token :=
  v.type.token :: v.first.token :: v.rest.flatMap (fun f => [f.comma.token, f.item.token]) ++
    [v.semicolon.token]

def entries (v : VarNames) : List Trace.Entry :=
  v.type.entry :: v.first.entry :: v.rest.flatMap (fun f => [f.comma.entry, f.item.entry]) ++
    [v.semicolon.entry]

def names (v : VarNames) : List Name := v.first :: v.rest.map Further.item

theorem terminal_ne_eof (v : VarNames) : ∀ x ∈ v.tokens, x.terminal ≠ .eof := by
  have hr : ∀ x ∈ v.rest.flatMap fun f => [f.comma.token, f.item.token], x.terminal ≠ .eof := by
    intro x hx
    obtain ⟨f, _, hx⟩ := List.mem_flatMap.mp hx
    simp only [List.mem_cons, List.not_mem_nil, or_false] at hx
    obtain rfl | rfl := hx <;> simp
  simpa [tokens, or_imp, forall_and, terminal_ne_eof_of_type, -List.mem_flatMap] using hr

def declarations (storage : Storage) (v : VarNames) : List Declaration :=
  v.names.map fun x => ⟨x.lexeme, v.type.lexeme, storage⟩

theorem map_name_declarations (v : VarNames) (storage : Storage) :
    (v.declarations storage).map Declaration.name = v.names.map Leaf.lexeme := by
  simp [declarations, Function.comp_def]

end VarNames

/-- The two kinds of variable that a class declares. -/
inductive ClassStorage where
  | static
  | field

namespace ClassStorage

def keyword : ClassStorage → Keyword
  | .static => .static
  | .field => .field

def storage : ClassStorage → Storage
  | .static => .static
  | .field => .field

end ClassStorage

/-- classVarDec: ('static' | 'field') type varName (',' varName)* ';' -/
structure ClassVarDec where
  storage : ClassStorage
  word : Word storage.keyword
  vars : VarNames

namespace ClassVarDec

def tokens (d : ClassVarDec) : List Token := d.word.token :: d.vars.tokens

def entries (d : ClassVarDec) : List Trace.Entry :=
  Trace.node .classVarDec (d.word.entry :: d.vars.entries)

def declarations (d : ClassVarDec) : List Declaration := d.vars.declarations d.storage.storage

end ClassVarDec

/-- varDec: 'var' type varName (',' varName)* ';' -/
structure VarDec where
  word : Word .var
  vars : VarNames

namespace VarDec

def tokens (d : VarDec) : List Token := d.word.token :: d.vars.tokens

def entries (d : VarDec) : List Trace.Entry := Trace.node .varDec (d.word.entry :: d.vars.entries)

def declarations (d : VarDec) : List Declaration := d.vars.declarations .var

end VarDec

/-- type varName -/
structure Parameter where
  type : Leaf Pass.typeTerminals
  name : Name

namespace Parameter

def tokens (p : Parameter) : List Token := [p.type.token, p.name.token]

theorem terminal_ne_eof (p : Parameter) : ∀ x ∈ p.tokens, x.terminal ≠ .eof := by
  simp [tokens, terminal_ne_eof_of_type]

def entries (p : Parameter) : List Trace.Entry := [p.type.entry, p.name.entry]

def declaration (p : Parameter) : Declaration := ⟨p.name.lexeme, p.type.lexeme, .argument⟩

end Parameter

/-- parameterList: (type varName (',' type varName)*)? -/
inductive ParameterList where
  | none
  | some (first : Parameter) (rest : List (Further Parameter))

namespace ParameterList

def tokens : ParameterList → List Token
  | .none => []
  | .some first rest => first.tokens ++ rest.flatMap fun f => f.comma.token :: f.item.tokens

theorem terminal_ne_eof (ps : ParameterList) : ∀ x ∈ ps.tokens, x.terminal ≠ .eof := by
  cases ps with
  | none => simp [tokens]
  | some first rest =>
    have hr : ∀ x ∈ rest.flatMap fun f => f.comma.token :: f.item.tokens, x.terminal ≠ .eof := by
      intro x hx
      obtain ⟨f, _, hx⟩ := List.mem_flatMap.mp hx
      obtain rfl | hx := List.mem_cons.mp hx
      · simp
      · exact f.item.terminal_ne_eof x hx
    simpa only [tokens, List.mem_append, or_imp, forall_and] using ⟨first.terminal_ne_eof, hr⟩

def entries : ParameterList → List Trace.Entry
  | .none => Trace.node .parameterList []
  | .some first rest => Trace.node .parameterList
      (first.entries ++ rest.flatMap fun f => f.comma.entry :: f.item.entries)

def parameters : ParameterList → List Parameter
  | .none => []
  | .some first rest => first :: rest.map Further.item

end ParameterList

/-- The three kinds of subroutine. -/
inductive SubroutineKind where
  | constructor
  | function
  | method
  deriving DecidableEq

def SubroutineKind.keyword : SubroutineKind → Keyword
  | .constructor => .constructor
  | .function => .function
  | .method => .method

/-- A method has its object as its first argument. -/
def SubroutineKind.receiver (className : Text) : SubroutineKind → List Declaration
  | .method => [⟨"this", className, .argument⟩]
  | _ => []

/-- subroutineDec: ('constructor' | 'function' | 'method') ('void' | type) subroutineName
'(' parameterList ')' subroutineBody
subroutineBody: '{' varDec* statements '}' -/
structure SubroutineDec where
  kind : SubroutineKind
  word : Word kind.keyword
  type : Leaf (.keyword .void :: Pass.typeTerminals)
  name : Name
  parens : Parens
  parameters : ParameterList
  braces : Braces
  vars : List VarDec
  body : Statements

namespace SubroutineDec

def tokens (d : SubroutineDec) : List Token :=
  d.word.token :: d.type.token :: d.name.token :: d.parens.tokens d.parameters.tokens ++
    d.braces.tokens (d.vars.flatMap VarDec.tokens ++ d.body.tokens)

theorem terminal_ne_eof (d : SubroutineDec) : ∀ x ∈ d.tokens, x.terminal ≠ .eof := by
  have ht : d.type.token.terminal ≠ .eof := d.type.terminal_ne_eof (by simp [Pass.typeTerminals])
  have hv : ∀ x ∈ d.vars.flatMap VarDec.tokens, x.terminal ≠ .eof := by
    intro x hx
    obtain ⟨v, _, hx⟩ := List.mem_flatMap.mp hx
    obtain rfl | hx := List.mem_cons.mp hx
    · simp
    · exact v.vars.terminal_ne_eof x hx
  simpa [tokens, or_imp, forall_and, ht, -List.mem_flatMap] using
    ⟨d.parameters.terminal_ne_eof, hv, d.body.terminal_ne_eof⟩

def entries (d : SubroutineDec) : List Trace.Entry :=
  Trace.node .subroutineDec
    (d.word.entry :: d.type.entry :: d.name.entry :: d.parens.entries d.parameters.entries ++
      Trace.node .subroutineBody (d.braces.entries
        (d.vars.flatMap VarDec.entries ++ Trace.node .statements d.body.entries)))

def parameterNames (d : SubroutineDec) : List Text :=
  d.parameters.parameters.map fun p => p.name.lexeme

/-- The names of the arguments, the object of a method among them. -/
def argumentNames (d : SubroutineDec) : List Text :=
  match d.kind with
  | .method => "this" :: d.parameterNames
  | _ => d.parameterNames

def localNames (d : SubroutineDec) : List Text :=
  d.vars.flatMap fun v => v.vars.names.map Leaf.lexeme

def argumentDeclarations (className : Text) (d : SubroutineDec) : List Declaration :=
  d.kind.receiver className ++ d.parameters.parameters.map Parameter.declaration

def localDeclarations (d : SubroutineDec) : List Declaration := d.vars.flatMap VarDec.declarations

/-- What the subroutine declares, in order: its object, its parameters and its locals. -/
def declarations (className : Text) (d : SubroutineDec) : List Declaration :=
  d.argumentDeclarations className ++ d.localDeclarations

section

variable (d : SubroutineDec) {className : Text}

theorem map_name_argumentDeclarations (className : Text) :
    (d.argumentDeclarations className).map Declaration.name = d.argumentNames := by
  simp only [argumentDeclarations, argumentNames, parameterNames, List.map_append, List.map_map]
  cases d.kind <;> rfl

theorem map_name_localDeclarations : d.localDeclarations.map Declaration.name = d.localNames := by
  simp [localDeclarations, localNames, VarDec.declarations, List.map_flatMap,
    VarNames.map_name_declarations]

theorem storage_of_mem_arguments {x : Declaration} (h : x ∈ d.argumentDeclarations className) :
    x.storage = .argument := by
  obtain h | h := List.mem_append.mp h
  · unfold SubroutineKind.receiver at h
    split at h <;> simp_all
  · obtain ⟨p, _, rfl⟩ := List.mem_map.mp h
    rfl

theorem storage_of_mem_locals {x : Declaration} (h : x ∈ d.localDeclarations) : x.storage = .var := by
  obtain ⟨v, _, h⟩ := List.mem_flatMap.mp h
  obtain ⟨y, _, rfl⟩ := List.mem_map.mp h
  rfl

end

end SubroutineDec

/-- class: 'class' className '{' classVarDec* subroutineDec* '}' -/
structure ClassDec where
  word : Word .class
  name : Name
  braces : Braces
  vars : List ClassVarDec
  subroutines : List SubroutineDec

namespace ClassDec

def tokens (c : ClassDec) : List Token :=
  c.word.token :: c.name.token ::
    c.braces.tokens (c.vars.flatMap ClassVarDec.tokens ++ c.subroutines.flatMap SubroutineDec.tokens)

/-- No token of a class is the end of input. -/
theorem terminal_ne_eof (c : ClassDec) : ∀ x ∈ c.tokens, x.terminal ≠ .eof := by
  have hv : ∀ x ∈ c.vars.flatMap ClassVarDec.tokens, x.terminal ≠ .eof := by
    intro x hx
    obtain ⟨v, _, hx⟩ := List.mem_flatMap.mp hx
    obtain rfl | hx := List.mem_cons.mp hx
    · simp
    · exact v.vars.terminal_ne_eof x hx
  have hs : ∀ x ∈ c.subroutines.flatMap SubroutineDec.tokens, x.terminal ≠ .eof := by
    intro x hx
    obtain ⟨d, _, hx⟩ := List.mem_flatMap.mp hx
    exact d.terminal_ne_eof x hx
  simpa [tokens, or_imp, forall_and, -List.mem_flatMap] using ⟨hv, hs⟩

def entries (c : ClassDec) : List Trace.Entry :=
  Trace.node .classDec (c.word.entry :: c.name.entry :: c.braces.entries
    (c.vars.flatMap ClassVarDec.entries ++ c.subroutines.flatMap SubroutineDec.entries))

def variableNames (c : ClassDec) : List Text :=
  c.vars.flatMap fun v => v.vars.names.map Leaf.lexeme

def declarations (c : ClassDec) : List Declaration := c.vars.flatMap ClassVarDec.declarations

/-- Every name used as a variable is declared in the class or in the subroutine around it. -/
def WellScoped (c : ClassDec) : Prop :=
  ∀ d ∈ c.subroutines, ∀ x, .use x ∈ d.body.mentions →
    x.lexeme ∈ c.variableNames ∨ x.lexeme ∈ d.parameterNames ∨ x.lexeme ∈ d.localNames ∨
      d.kind = .method ∧ x.lexeme = ("this" : Text)

/-- Every integer constant is a word. -/
def ConstantsFit (c : ClassDec) : Prop :=
  ∀ d ∈ c.subroutines, ∀ t, .constant t ∈ d.body.mentions → ∃ value, t.word? = some value

end ClassDec

end Tree

end Jack
