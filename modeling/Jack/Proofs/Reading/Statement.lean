import Jack.Proofs.Reading.Expression

/-! Statements are read: given the tokens of a tree, the pass has the effect of that tree. -/

namespace Jack.Pass

open Jack.Tree

variable {c : Context} {rest : List Token} {n : Nat}

/-- A procedure reads every list of statements of at most `n` tokens before a closing brace. -/
def ReadsStatements (p : Pass Unit) (n : Nat) : Prop :=
  ∀ (sts : Statements) c rest, sts.tokens.length ≤ n → next rest = .punct .rbrace →
    Runs p c rest () ((sts.effect c).node .statements)

theorem nextIf_runs :
    Runs (modifyGet fun s : State => (s.nextIf, { s with nextIf := s.nextIf + 1 })) c rest c.nextIf
      (.update (.advance 1 0)) :=
  modifyGet_runs fun _ hc => ⟨congrArg Context.nextIf hc, .update rfl rfl rfl rfl rfl⟩

theorem nextWhile_runs :
    Runs (modifyGet fun s : State => (s.nextWhile, { s with nextWhile := s.nextWhile + 1 })) c rest
      c.nextWhile (.update (.advance 0 1)) :=
  modifyGet_runs fun _ hc => ⟨congrArg Context.nextWhile hc, .update rfl rfl rfl rfl rfl⟩

theorem condition_runs (parens : Parens) (cond : Expression) (hl : cond.tokens.length ≤ n) :
    Runs (condition n) c rest () (conditionEffect c parens cond) :=
  .bind (punct_runs parens.opening) <|
    .bind (expression_runs n cond c _ hl (by simp [endsExpression])) (punct_runs parens.closing)

theorem block_runs {p : Pass Unit} (hp : ReadsStatements p n) (braces : Braces) (body : Statements)
    (hl : body.tokens.length ≤ n) : Runs (block p) c rest () (blockEffect c braces body) :=
  .bind (punct_runs braces.opening) <|
    .bind (hp body c _ hl (by simp)) (punct_runs braces.closing)

theorem letVar_runs (word : Word .let) (x : Name) (eq : Symbol .eq) (value : Expression)
    (semicolon : Symbol .semicolon) (hl : value.tokens.length ≤ n) :
    Runs (letStatement n) c rest () (Statement.effect c (.letVar word x eq value semicolon)) := by
  refine .congr (within_runs (.bind (keyword_runs word) <| .bind (ident_runs x) <|
    .bind (resolve_runs x) <| .peek_bind (t := .punct .eq) ?_ <| .bind (punct_runs eq) <|
    .bind (expression_runs n value c _ hl (by simp [endsExpression])) <|
    .bind (punct_runs semicolon) (emit_runs _))) ?_
  · simp
  · apply Effect.ext <;> simp [Env.pop]

theorem letElement_runs (word : Word .let) (x : Name) (brackets : Brackets) (index : Expression)
    (eq : Symbol .eq) (value : Expression) (semicolon : Symbol .semicolon)
    (hi : index.tokens.length ≤ n) (hv : value.tokens.length ≤ n) :
    Runs (letStatement n) c rest ()
      (Statement.effect c (.letElement word x brackets index eq value semicolon)) := by
  refine .congr (within_runs (.bind (keyword_runs word) <| .bind (ident_runs x) <|
    .bind (resolve_runs x) <| .peek_bind (t := .punct .lbracket) ?_ <|
    .bind (punct_runs brackets.opening) <|
    .bind (expression_runs n index c _ hi (by simp [endsExpression])) <|
    .bind (punct_runs brackets.closing) <| .bind (emit_runs _) <| .bind (emit_runs _) <|
    .bind (punct_runs eq) <|
    .bind (expression_runs n value c _ hv (by simp [endsExpression])) <|
    .bind (punct_runs semicolon) <| .bind (emit_runs _) <| .bind (emit_runs _) <|
    .bind (emit_runs _) (emit_runs _))) ?_
  · simp
  · apply Effect.ext <;> simp [Env.push]

theorem ifThen_runs {p : Pass Unit} (hp : ReadsStatements p n) (word : Word .if) (parens : Parens)
    (cond : Expression) (braces : Braces) (body : Statements) (hc : cond.tokens.length ≤ n)
    (hb : body.tokens.length ≤ n) (hr : next rest ≠ .keyword .else) :
    Runs (ifStatement p n) c rest () (Statement.effect c (.ifThen word parens cond braces body)) := by
  refine .congr (within_runs (.bind nextIf_runs <| .bind (keyword_runs word) <|
    .bind (condition_runs parens cond hc) <| .bind (emit_runs _) <| .bind (emit_runs _) <|
    .bind (emit_runs _) <| .bind (block_runs hp braces body hb) <|
    .peek_bind (t := next rest) (e := .emit (.label (.ifFalse c.nextIf))) ?_ ?_)) ?_
  · simp
  · rw [if_neg hr]
    exact emit_runs _
  · apply Effect.ext <;> simp

theorem ifElse_runs {p : Pass Unit} (hp : ReadsStatements p n) (word : Word .if) (parens : Parens)
    (cond : Expression) (braces : Braces) (body : Statements) (elseWord : Word .else)
    (elseBraces : Braces) (elseBody : Statements) (hc : cond.tokens.length ≤ n)
    (hb : body.tokens.length ≤ n) (he : elseBody.tokens.length ≤ n) :
    Runs (ifStatement p n) c rest ()
      (Statement.effect c (.ifElse word parens cond braces body elseWord elseBraces elseBody)) := by
  refine .congr (within_runs (.bind nextIf_runs <| .bind (keyword_runs word) <|
    .bind (condition_runs parens cond hc) <| .bind (emit_runs _) <| .bind (emit_runs _) <|
    .bind (emit_runs _) <| .bind (block_runs hp braces body hb) <|
    .peek_bind (t := .keyword .else) ?_ <| .bind (emit_runs _) <| .bind (emit_runs _) <|
    .bind (keyword_runs elseWord) <| .bind (block_runs hp elseBraces elseBody he) <|
    emit_runs _)) ?_
  · simp
  · apply Effect.ext <;> simp [Nat.add_assoc]

theorem while_runs {p : Pass Unit} (hp : ReadsStatements p n) (word : Word .while) (parens : Parens)
    (cond : Expression) (braces : Braces) (body : Statements) (hc : cond.tokens.length ≤ n)
    (hb : body.tokens.length ≤ n) :
    Runs (whileStatement p n) c rest () (Statement.effect c (.while word parens cond braces body)) := by
  refine .congr (within_runs (.bind nextWhile_runs <| .bind (emit_runs _) <|
    .bind (keyword_runs word) <| .bind (condition_runs parens cond hc) <| .bind (emit_runs _) <|
    .bind (emit_runs _) <| .bind (block_runs hp braces body hb) <| .bind (emit_runs _) <|
    emit_runs _)) ?_
  apply Effect.ext <;> simp

theorem do_runs (word : Word .do) (call : Call) (semicolon : Symbol .semicolon)
    (hl : call.tokens.length ≤ n + 1) :
    Runs (doStatement n) c rest () (Statement.effect c (.do word call semicolon)) := by
  refine .congr (within_runs (.bind (keyword_runs word) <| .bind (ident_runs call.name) <|
    .bind (call_runs call hl) <| .bind (punct_runs semicolon) (emit_runs _))) ?_
  cases call <;> apply Effect.ext <;> simp [Call.name]

theorem return_runs (word : Word .return) (semicolon : Symbol .semicolon) :
    Runs (returnStatement n) c rest () (Statement.effect c (.return word semicolon)) := by
  refine .congr (within_runs (.bind (keyword_runs word) <| .peek_bind (t := .punct .semicolon) ?_ <|
    .bind (emit_runs _) <| .bind (punct_runs semicolon) (emit_runs _))) ?_
  · simp
  · apply Effect.ext <;> simp

theorem returnValue_runs (word : Word .return) (value : Expression) (semicolon : Symbol .semicolon)
    (hl : value.tokens.length ≤ n) :
    Runs (returnStatement n) c rest () (Statement.effect c (.returnValue word value semicolon)) := by
  have hn : next (value.tokens ++ semicolon.token :: rest) ≠ .punct .semicolon := by
    intro h
    simpa [h, startsTerm] using startsTerm_expression value (semicolon.token :: rest)
  have hv := expression_runs n value c (semicolon.token :: rest) hl (by simp [endsExpression])
  refine .congr (within_runs (.bind (keyword_runs word) <| .peek_bind rfl
    (e := value.effect c ++ (.take semicolon.token ++ .emit .ret)) ?_)) ?_
  · simp only [Effect.tokens_append, Expression.effect, Effect.reading, Effect.take, Effect.emit,
      List.append_nil, List.append_assoc, List.singleton_append, if_neg hn]
    exact .bind hv (.bind (punct_runs semicolon) (emit_runs _))
  · apply Effect.ext <;> simp

/-- The first token of a statement selects the procedure that reads it. -/
theorem statement_runs {p : Pass Unit} (hp : ReadsStatements p n) (st : Statement)
    (hl : st.tokens.length ≤ n + 1) (hr : next rest ≠ .keyword .else) :
    ∃ body, statementBy p n (next (st.tokens ++ rest)) = some body ∧
      Runs body c rest () (st.effect c) := by
  cases st with
  | letVar word x eq value semicolon =>
    simp only [Statement.tokens, List.cons_append, List.length_cons, List.length_append] at hl
    exact ⟨letStatement n, by simp [statementBy], letVar_runs word x eq value semicolon (by omega)⟩
  | letElement word x brackets index eq value semicolon =>
    simp only [Statement.tokens, Pair.tokens, List.cons_append, List.length_cons,
      List.length_append] at hl
    exact ⟨letStatement n, by simp [statementBy],
      letElement_runs word x brackets index eq value semicolon (by omega) (by omega)⟩
  | ifThen word parens cond braces body =>
    simp only [Statement.tokens, Pair.tokens, List.cons_append, List.length_cons,
      List.length_append] at hl
    exact ⟨ifStatement p n, by simp [statementBy],
      ifThen_runs hp word parens cond braces body (by omega) (by omega) hr⟩
  | ifElse word parens cond braces body elseWord elseBraces elseBody =>
    simp only [Statement.tokens, Pair.tokens, List.cons_append, List.length_cons,
      List.length_append] at hl
    exact ⟨ifStatement p n, by simp [statementBy],
      ifElse_runs hp word parens cond braces body elseWord elseBraces elseBody (by omega) (by omega)
        (by omega)⟩
  | «while» word parens cond braces body =>
    simp only [Statement.tokens, Pair.tokens, List.cons_append, List.length_cons,
      List.length_append] at hl
    exact ⟨whileStatement p n, by simp [statementBy],
      while_runs hp word parens cond braces body (by omega) (by omega)⟩
  | «do» word call semicolon =>
    simp only [Statement.tokens, List.cons_append, List.length_cons, List.length_append] at hl
    exact ⟨doStatement n, by simp [statementBy], do_runs word call semicolon (by omega)⟩
  | «return» word semicolon =>
    exact ⟨returnStatement n, by simp [statementBy], return_runs word semicolon⟩
  | returnValue word value semicolon =>
    simp only [Statement.tokens, List.cons_append, List.length_cons, List.length_append] at hl
    exact ⟨returnStatement n, by simp [statementBy], returnValue_runs word value semicolon (by omega)⟩

theorem next_statement_ne_else (st : Statement) (rest : List Token) :
    next (st.tokens ++ rest) ≠ .keyword .else := by
  cases st <;> simp

theorem statementList_runs {p : Pass Unit} (hp : ReadsStatements p n)
    (hr : next rest = .punct .rbrace) (sts : Statements) (m : Nat) (c : Context)
    (hl : sts.tokens.length ≤ n + 1) (hm : sts.tokens.length ≤ m) :
    Runs (repeatBy (statementBy p n) m) c rest sts.count (sts.effect c) :=
  match sts, m, hm with
  | .nil, m, _ => repeatBy_runs_done m (by simp [statementBy, hr])
  | .cons st sts, 0, hm => by
    simp [Statement.tokens_ne_nil] at hm
  | .cons st sts, m + 1, hm => by
    have hst := List.length_pos_iff.mpr st.tokens_ne_nil
    simp only [Statements.tokens, List.length_append] at hl hm
    -- A conditional without `else` ends here only because no `else` follows it.
    have hn : next (sts.tokens ++ rest) ≠ .keyword .else := by
      cases sts with
      | nil => simp [hr]
      | cons st sts => simpa using next_statement_ne_else st (sts.tokens ++ rest)
    obtain ⟨body, hb, h⟩ := statement_runs (c := c) hp st (by omega) hn
    have hs := statementList_runs hp hr sts m (c.advance st.ifs st.whiles) (by omega) (by omega)
    refine .congr (repeatBy_runs_more (d := st.effect c) ?_ h hs) ?_
    · simpa using hb
    · apply Effect.ext <;> simp

theorem statements_runs (n : Nat) : ReadsStatements (statements n) n := by
  induction n with
  | zero =>
    intro sts c rest hl _
    cases sts with
    | nil => exact within_runs (.pure ())
    | cons st sts => simp [Statement.tokens_ne_nil] at hl
  | succ n ih =>
    intro sts c rest hl hr
    exact within_runs (statementList_runs ih hr sts (n + 1) c hl hl).discard

end Jack.Pass
