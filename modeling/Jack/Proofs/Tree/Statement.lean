import Jack.Proofs.Tree.Expression

/-! Derivation trees of statements. -/

namespace Jack.Tree

mutual

/-- letStatement: 'let' varName ('[' expression ']')? '=' expression ';'
ifStatement: 'if' '(' expression ')' '{' statements '}' ('else' '{' statements '}')?
whileStatement: 'while' '(' expression ')' '{' statements '}'
doStatement: 'do' subroutineCall ';'
returnStatement: 'return' expression? ';' -/
inductive Statement where
  | letVar (word : Word .let) (x : Name) (eq : Symbol .eq) (value : Expression)
      (semicolon : Symbol .semicolon)
  | letElement (word : Word .let) (x : Name) (brackets : Brackets) (index : Expression)
      (eq : Symbol .eq) (value : Expression) (semicolon : Symbol .semicolon)
  | ifThen (word : Word .if) (parens : Parens) (cond : Expression) (braces : Braces)
      (body : Statements)
  | ifElse (word : Word .if) (parens : Parens) (cond : Expression) (braces : Braces)
      (body : Statements) (elseWord : Word .else) (elseBraces : Braces) (elseBody : Statements)
  | while (word : Word .while) (parens : Parens) (cond : Expression) (braces : Braces)
      (body : Statements)
  | do (word : Word .do) (c : Call) (semicolon : Symbol .semicolon)
  | return (word : Word .return) (semicolon : Symbol .semicolon)
  | returnValue (word : Word .return) (value : Expression) (semicolon : Symbol .semicolon)

/-- statements: statement* -/
inductive Statements where
  | nil
  | cons (first : Statement) (rest : Statements)

end

mutual

/-- The tokens that a tree derives. -/
@[simp] def Statement.tokens : Statement → List Token
  | .letVar word x eq value semicolon =>
    word.token :: x.token :: eq.token :: value.tokens ++ [semicolon.token]
  | .letElement word x brackets index eq value semicolon =>
    word.token :: x.token :: brackets.tokens index.tokens ++
      eq.token :: value.tokens ++ [semicolon.token]
  | .ifThen word parens cond braces body =>
    word.token :: parens.tokens cond.tokens ++ braces.tokens body.tokens
  | .ifElse word parens cond braces body elseWord elseBraces elseBody =>
    word.token :: parens.tokens cond.tokens ++ braces.tokens body.tokens ++
      elseWord.token :: elseBraces.tokens elseBody.tokens
  | .while word parens cond braces body =>
    word.token :: parens.tokens cond.tokens ++ braces.tokens body.tokens
  | .do word c semicolon => word.token :: c.tokens ++ [semicolon.token]
  | .return word semicolon => [word.token, semicolon.token]
  | .returnValue word value semicolon => word.token :: value.tokens ++ [semicolon.token]

@[simp] def Statements.tokens : Statements → List Token
  | .nil => []
  | .cons first rest => first.tokens ++ rest.tokens

end

theorem Statement.tokens_ne_nil (st : Statement) : st.tokens ≠ [] := by
  cases st <;> simp

mutual

theorem Statement.terminal_ne_eof : (st : Statement) → ∀ x ∈ st.tokens, x.terminal ≠ .eof
  | .letVar _ _ _ value _ => by simpa [or_imp, forall_and] using value.terminal_ne_eof
  | .letElement _ _ _ index _ value _ => by
    simpa [or_imp, forall_and] using ⟨index.terminal_ne_eof, value.terminal_ne_eof⟩
  | .ifThen _ _ cond _ body => by
    simpa [or_imp, forall_and] using ⟨cond.terminal_ne_eof, body.terminal_ne_eof⟩
  | .ifElse _ _ cond _ body _ _ elseBody => by
    simpa [or_imp, forall_and] using
      ⟨cond.terminal_ne_eof, body.terminal_ne_eof, elseBody.terminal_ne_eof⟩
  | .while _ _ cond _ body => by
    simpa [or_imp, forall_and] using ⟨cond.terminal_ne_eof, body.terminal_ne_eof⟩
  | .do _ c _ => by simpa [or_imp, forall_and] using c.terminal_ne_eof
  | .return _ _ => by simp
  | .returnValue _ value _ => by simpa [or_imp, forall_and] using value.terminal_ne_eof

theorem Statements.terminal_ne_eof : (sts : Statements) → ∀ x ∈ sts.tokens, x.terminal ≠ .eof
  | .nil => by simp
  | .cons first rest => by
    simpa [or_imp, forall_and] using ⟨first.terminal_ne_eof, rest.terminal_ne_eof⟩

end

mutual

/-- The trace of a statement. -/
@[simp] def Statement.entries : Statement → List Trace.Entry
  | .letVar word x eq value semicolon => Trace.node .letStatement
      (word.entry :: x.entry :: eq.entry :: value.entries ++ [semicolon.entry])
  | .letElement word x brackets index eq value semicolon => Trace.node .letStatement
      (word.entry :: x.entry :: brackets.entries index.entries ++
        eq.entry :: value.entries ++ [semicolon.entry])
  | .ifThen word parens cond braces body => Trace.node .ifStatement
      (word.entry :: parens.entries cond.entries ++
        braces.entries (Trace.node .statements body.entries))
  | .ifElse word parens cond braces body elseWord elseBraces elseBody => Trace.node .ifStatement
      (word.entry :: parens.entries cond.entries ++
        braces.entries (Trace.node .statements body.entries) ++
        elseWord.entry :: elseBraces.entries (Trace.node .statements elseBody.entries))
  | .while word parens cond braces body => Trace.node .whileStatement
      (word.entry :: parens.entries cond.entries ++
        braces.entries (Trace.node .statements body.entries))
  | .do word c semicolon => Trace.node .doStatement
      (word.entry :: c.entries ++ [semicolon.entry])
  | .return word semicolon => Trace.node .returnStatement [word.entry, semicolon.entry]
  | .returnValue word value semicolon => Trace.node .returnStatement
      (word.entry :: value.entries ++ [semicolon.entry])

/-- The trace of the statements inside their own nonterminal. -/
@[simp] def Statements.entries : Statements → List Trace.Entry
  | .nil => []
  | .cons first rest => first.entries ++ rest.entries

end

mutual

/-- The mentions of a tree in the order of its tokens. -/
@[simp] def Statement.mentions : Statement → List Mention
  | .letVar _ x _ value _ => .use x.token :: value.mentions
  | .letElement _ x _ index _ value _ => .use x.token :: index.mentions ++ value.mentions
  | .ifThen _ _ cond _ body => cond.mentions ++ body.mentions
  | .ifElse _ _ cond _ body _ _ elseBody =>
    cond.mentions ++ body.mentions ++ elseBody.mentions
  | .while _ _ cond _ body => cond.mentions ++ body.mentions
  | .do _ c _ => c.mentions
  | .return _ _ => []
  | .returnValue _ value _ => value.mentions

@[simp] def Statements.mentions : Statements → List Mention
  | .nil => []
  | .cons first rest => first.mentions ++ rest.mentions

end

mutual

/-- How many conditionals a tree has, nested ones counted. -/
@[simp] def Statement.ifs : Statement → Nat
  | .ifThen _ _ _ _ body => 1 + body.ifs
  | .ifElse _ _ _ _ body _ _ elseBody => 1 + body.ifs + elseBody.ifs
  | .while _ _ _ _ body => body.ifs
  | _ => 0

@[simp] def Statements.ifs : Statements → Nat
  | .nil => 0
  | .cons first rest => first.ifs + rest.ifs

end

mutual

/-- How many loops a tree has, nested ones counted. -/
@[simp] def Statement.whiles : Statement → Nat
  | .ifThen _ _ _ _ body => body.whiles
  | .ifElse _ _ _ _ body _ _ elseBody => body.whiles + elseBody.whiles
  | .while _ _ _ _ body => 1 + body.whiles
  | _ => 0

@[simp] def Statements.whiles : Statements → Nat
  | .nil => 0
  | .cons first rest => first.whiles + rest.whiles

end

@[simp] def Statements.count : Statements → Nat
  | .nil => 0
  | .cons _ rest => rest.count + 1

end Jack.Tree
