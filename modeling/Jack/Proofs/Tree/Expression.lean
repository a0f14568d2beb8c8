import Jack.Compile.Trace

/-! Derivation trees of expressions. The type of a tree is a nonterminal of the grammar and each
constructor is one of its alternatives: a tree is a derivation, and none is malformed. -/

namespace Jack

/-- The entries of a nonterminal with the given entries inside. -/
@[simp] def Trace.node (n : Nonterminal) (inner : List Trace.Entry) : List Trace.Entry :=
  .opened n :: inner ++ [.closed n]

/-- The tokens that entries record, in order. -/
def Trace.terminals : List Trace.Entry → List Token
  | [] => []
  | .terminal t :: rest => t :: terminals rest
  | .opened _ :: rest | .closed _ :: rest => terminals rest

@[simp] theorem Trace.terminals_append (a b : List Trace.Entry) :
    Trace.terminals (a ++ b) = Trace.terminals a ++ Trace.terminals b := by
  induction a with
  | nil => rfl
  | cons e a ih => cases e <;> simp [Trace.terminals, ih]

namespace Tree

/-- A token of one of the given terminals. -/
structure Leaf (terminals : List Terminal) where
  token : Token
  terminal_mem : token.terminal ∈ terminals

abbrev Word (k : Keyword) := Leaf [.keyword k]

abbrev Symbol (p : Punct) := Leaf [.punct p]

abbrev Name := Leaf [.ident]

namespace Leaf

variable {terminals : List Terminal}

abbrev lexeme (l : Leaf terminals) : Text := l.token.lexeme

abbrev entry (l : Leaf terminals) : Trace.Entry := .terminal l.token

@[simp] theorem terminal_eq {t : Terminal} (l : Leaf [t]) : l.token.terminal = t :=
  List.mem_singleton.mp l.terminal_mem

theorem terminal_ne_eof (h : .eof ∉ terminals) (l : Leaf terminals) : l.token.terminal ≠ .eof :=
  fun he => h (he ▸ l.terminal_mem)

end Leaf

/-- An opening and a closing symbol. -/
structure Pair (p q : Punct) where
  opening : Symbol p
  closing : Symbol q

abbrev Parens := Pair .lparen .rparen

abbrev Brackets := Pair .lbracket .rbracket

abbrev Braces := Pair .lbrace .rbrace

namespace Pair

variable {p q : Punct}

@[simp] def tokens (pair : Pair p q) (inner : List Token) : List Token :=
  pair.opening.token :: inner ++ [pair.closing.token]

@[simp] def entries (pair : Pair p q) (inner : List Trace.Entry) : List Trace.Entry :=
  pair.opening.entry :: inner ++ [pair.closing.entry]

end Pair

/-- keywordConstant: 'true' | 'false' | 'null' | 'this' -/
inductive Literal where
  | true
  | false
  | null
  | this

def Literal.keyword : Literal → Keyword
  | .true => .true
  | .false => .false
  | .null => .null
  | .this => .this

/-- unaryOp: '-' | '~' -/
inductive Unary where
  | neg
  | not

def Unary.punct : Unary → Punct
  | .neg => .minus
  | .not => .not

/-- op: '+' | '-' | '*' | '/' | '&' | '|' | '<' | '>' | '=' -/
inductive Operator where
  | add
  | sub
  | mul
  | div
  | and
  | or
  | lt
  | gt
  | eq

def Operator.punct : Operator → Punct
  | .add => .plus
  | .sub => .minus
  | .mul => .asterisk
  | .div => .slash
  | .and => .and
  | .or => .or
  | .lt => .lt
  | .gt => .gt
  | .eq => .eq

mutual

/-- term: integerConstant | stringConstant | keywordConstant | varName | varName '[' expression ']' |
subroutineCall | '(' expression ')' | unaryOp term -/
inductive Term where
  | number (constant : Leaf [.number])
  | string (constant : Leaf [.string])
  | literal (l : Literal) (word : Word l.keyword)
  | var (x : Name)
  | element (x : Name) (brackets : Brackets) (index : Expression)
  | call (c : Call)
  | paren (parens : Parens) (e : Expression)
  | unary (op : Unary) (sign : Symbol op.punct) (t : Term)

/-- expression: term (op term)* -/
inductive Expression where
  | mk (first : Term) (rest : Operations)

/-- (op term)* -/
inductive Operations where
  | nil
  | cons (op : Operator) (sign : Symbol op.punct) (t : Term) (rest : Operations)

/-- subroutineCall: subroutineName '(' expressionList ')' |
(className | varName) '.' subroutineName '(' expressionList ')' -/
inductive Call where
  | own (f : Name) (parens : Parens) (args : Arguments)
  | qualified (x : Name) (dot : Symbol .dot) (f : Name) (parens : Parens) (args : Arguments)

/-- expressionList: (expression (',' expression)*)? -/
inductive Arguments where
  | none
  | some (first : Expression) (rest : MoreArguments)

/-- (',' expression)* -/
inductive MoreArguments where
  | nil
  | cons (comma : Symbol .comma) (e : Expression) (rest : MoreArguments)

end

/-! The tokens that a tree derives. -/

mutual

@[simp] def Term.tokens : Term → List Token
  | .number constant => [constant.token]
  | .string constant => [constant.token]
  | .literal _ word => [word.token]
  | .var x => [x.token]
  | .element x brackets index => x.token :: brackets.tokens index.tokens
  | .call c => c.tokens
  | .paren parens e => parens.tokens e.tokens
  | .unary _ sign t => sign.token :: t.tokens

@[simp] def Expression.tokens : Expression → List Token
  | .mk first rest => first.tokens ++ rest.tokens

@[simp] def Operations.tokens : Operations → List Token
  | .nil => []
  | .cons _ sign t rest => sign.token :: t.tokens ++ rest.tokens

@[simp] def Call.tokens : Call → List Token
  | .own f parens args => f.token :: parens.tokens args.tokens
  | .qualified x dot f parens args =>
    x.token :: dot.token :: f.token :: parens.tokens args.tokens

@[simp] def Arguments.tokens : Arguments → List Token
  | .none => []
  | .some first rest => first.tokens ++ rest.tokens

@[simp] def MoreArguments.tokens : MoreArguments → List Token
  | .nil => []
  | .cons comma e rest => comma.token :: e.tokens ++ rest.tokens

end

theorem Term.tokens_ne_nil (t : Term) : t.tokens ≠ [] := by
  cases t with
  | call call => cases call <;> simp
  | _ => simp

/-! No token of a tree is the end of input. -/

mutual

theorem Term.terminal_ne_eof : (t : Term) → ∀ x ∈ t.tokens, x.terminal ≠ .eof
  | .number _ => by simp
  | .string _ => by simp
  | .literal _ _ => by simp
  | .var _ => by simp
  | .element _ _ index => by simpa [or_imp, forall_and] using index.terminal_ne_eof
  | .call c => by simpa using c.terminal_ne_eof
  | .paren _ e => by simpa [or_imp, forall_and] using e.terminal_ne_eof
  | .unary _ _ t => by simpa using t.terminal_ne_eof

theorem Expression.terminal_ne_eof : (e : Expression) → ∀ x ∈ e.tokens, x.terminal ≠ .eof
  | .mk first rest => by
    simpa [or_imp, forall_and] using ⟨first.terminal_ne_eof, rest.terminal_ne_eof⟩

theorem Operations.terminal_ne_eof : (o : Operations) → ∀ x ∈ o.tokens, x.terminal ≠ .eof
  | .nil => by simp
  | .cons _ _ t rest => by
    simpa [or_imp, forall_and] using ⟨t.terminal_ne_eof, rest.terminal_ne_eof⟩

theorem Call.terminal_ne_eof : (c : Call) → ∀ x ∈ c.tokens, x.terminal ≠ .eof
  | .own _ _ args => by simpa [or_imp, forall_and] using args.terminal_ne_eof
  | .qualified _ _ _ _ args => by simpa [or_imp, forall_and] using args.terminal_ne_eof

theorem Arguments.terminal_ne_eof : (a : Arguments) → ∀ x ∈ a.tokens, x.terminal ≠ .eof
  | .none => by simp
  | .some first rest => by
    simpa [or_imp, forall_and] using ⟨first.terminal_ne_eof, rest.terminal_ne_eof⟩

theorem MoreArguments.terminal_ne_eof : (a : MoreArguments) → ∀ x ∈ a.tokens, x.terminal ≠ .eof
  | .nil => by simp
  | .cons _ e rest => by
    simpa [or_imp, forall_and] using ⟨e.terminal_ne_eof, rest.terminal_ne_eof⟩

end

/-! The trace of a tree. Calls add no level of their own. -/

mutual

@[simp] def Term.entries : Term → List Trace.Entry
  | .number constant => Trace.node .term [constant.entry]
  | .string constant => Trace.node .term [constant.entry]
  | .literal _ word => Trace.node .term [word.entry]
  | .var x => Trace.node .term [x.entry]
  | .element x brackets index => Trace.node .term (x.entry :: brackets.entries index.entries)
  | .call c => Trace.node .term c.entries
  | .paren parens e => Trace.node .term (parens.entries e.entries)
  | .unary _ sign t => Trace.node .term (sign.entry :: t.entries)

@[simp] def Expression.entries : Expression → List Trace.Entry
  | .mk first rest => Trace.node .expression (first.entries ++ rest.entries)

@[simp] def Operations.entries : Operations → List Trace.Entry
  | .nil => []
  | .cons _ sign t rest => sign.entry :: t.entries ++ rest.entries

@[simp] def Call.entries : Call → List Trace.Entry
  | .own f parens args => f.entry :: parens.entries args.entries
  | .qualified x dot f parens args =>
    x.entry :: dot.entry :: f.entry :: parens.entries args.entries

@[simp] def Arguments.entries : Arguments → List Trace.Entry
  | .none => Trace.node .expressionList []
  | .some first rest => Trace.node .expressionList (first.entries ++ rest.entries)

@[simp] def MoreArguments.entries : MoreArguments → List Trace.Entry
  | .nil => []
  | .cons comma e rest => comma.entry :: e.entries ++ rest.entries

end

/-- What the pass has to check besides the grammar. -/
inductive Mention where
  /-- A name that has to stand for a variable. -/
  | use (x : Token)
  /-- An integer constant, which has to be a word. -/
  | constant (t : Token)

/-! The mentions of a tree in the order of its tokens. A name before a parenthesis or a dot is no use of
a variable. -/

mutual

@[simp] def Term.mentions : Term → List Mention
  | .number constant => [.constant constant.token]
  | .string _ => []
  | .literal _ _ => []
  | .var x => [.use x.token]
  | .element x _ index => .use x.token :: index.mentions
  | .call c => c.mentions
  | .paren _ e => e.mentions
  | .unary _ _ t => t.mentions

@[simp] def Expression.mentions : Expression → List Mention
  | .mk first rest => first.mentions ++ rest.mentions

@[simp] def Operations.mentions : Operations → List Mention
  | .nil => []
  | .cons _ _ t rest => t.mentions ++ rest.mentions

@[simp] def Call.mentions : Call → List Mention
  | .own _ _ args => args.mentions
  | .qualified _ _ _ _ args => args.mentions

@[simp] def Arguments.mentions : Arguments → List Mention
  | .none => []
  | .some first rest => first.mentions ++ rest.mentions

@[simp] def MoreArguments.mentions : MoreArguments → List Mention
  | .nil => []
  | .cons _ e rest => e.mentions ++ rest.mentions

end

/-- The number of arguments. -/
@[simp] def MoreArguments.count : MoreArguments → Nat
  | .nil => 0
  | .cons _ _ rest => rest.count + 1

@[simp] def Arguments.count : Arguments → Nat
  | .none => 0
  | .some _ rest => rest.count + 1

@[simp] def Operations.count : Operations → Nat
  | .nil => 0
  | .cons _ _ _ rest => rest.count + 1

end Tree

end Jack
