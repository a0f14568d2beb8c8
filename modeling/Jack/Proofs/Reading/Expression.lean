import Jack.Proofs.Pass.Rules
import Jack.Proofs.Tree.Effect

/-! Expressions are read: given the tokens of a tree, the pass has the effect of that tree. -/

namespace Jack.Pass

open Jack.Tree

variable {c : Context} {rest : List Token} {n : Nat}

theorem resolve_runs (x : Name) :
    Runs (resolve x.token) c rest (c.env.get x.lexeme)
      (.check (Mention.fault c.env (.use x.token))) := by
  intro s hc _
  subst hc
  cases h : s.scopes.resolve? x.token.lexeme with
  | none =>
    have hf : Mention.fault s.context.env (.use x.token) = some (.undefined x.token) := by
      simp [Mention.fault, Context.env, State.context, h]
    simp only [Effect.check, hf]
    exact ⟨s, by simp [resolve, h]⟩
  | some v =>
    have hf : Mention.fault s.context.env (.use x.token) = none := by
      simp [Mention.fault, Context.env, State.context, h]
    simp only [Effect.check, hf]
    exact ⟨s, by simp [resolve, h, Env.get, Context.env, State.context], .refl s⟩

theorem ownSubroutine_runs (name : Text) :
    Runs (ownSubroutine name) c rest (c.className ++ "." ++ name) {} :=
  .of_ok rfl fun s hc _ => ⟨s, by simp [ownSubroutine, ← hc, State.context], .refl s⟩

/-- Terminals that make a name more than a variable. -/
def continuesTerm : Terminal → Bool
  | .punct .lparen | .punct .dot | .punct .lbracket => true
  | _ => false

/-- Terminals that stand behind an expression. -/
def endsExpression : Terminal → Bool
  | .punct .rparen | .punct .rbracket | .punct .semicolon | .punct .comma => true
  | _ => false

/-- Terminals that a term starts with. -/
def startsTerm : Terminal → Bool
  | .number | .string | .ident => true
  | .keyword .true | .keyword .false | .keyword .null | .keyword .this => true
  | .punct .lparen | .punct .minus | .punct .not => true
  | _ => false

theorem startsTerm_term (t : Term) (rest : List Token) :
    startsTerm (next (t.tokens ++ rest)) = true := by
  cases t with
  | literal l word => cases l <;> simp [Literal.keyword, startsTerm]
  | unary op sign t => cases op <;> simp [Unary.punct, startsTerm]
  | call call => cases call <;> simp [startsTerm]
  | _ => simp [startsTerm]

theorem startsTerm_expression (e : Expression) (rest : List Token) :
    startsTerm (next (e.tokens ++ rest)) = true := by
  cases e
  simpa using startsTerm_term _ _

/-- A procedure reads every term of at most `n` tokens. -/
def ReadsTerms (p : Pass Unit) (n : Nat) : Prop :=
  ∀ (t : Term) c rest, t.tokens.length ≤ n → continuesTerm (next rest) = false →
    Runs p c rest () (t.effect c)

/-- A procedure reads every expression of at most `n` tokens. -/
def ReadsExpressions (p : Pass Unit) (n : Nat) : Prop :=
  ∀ (e : Expression) c rest, e.tokens.length ≤ n → endsExpression (next rest) = true →
    Runs p c rest () (e.effect c)

theorem operation?_punct (op : Operator) : operation? (.punct op.punct) = some op.code := by
  cases op <;> rfl

theorem operation?_of_endsExpression {t : Terminal} (h : endsExpression t = true) :
    operation? t = none := by
  unfold endsExpression at h
  split at h <;> first | rfl | simp at h

theorem continuesTerm_operator (op : Operator) : continuesTerm (.punct op.punct) = false := by
  cases op <;> rfl

theorem continuesTerm_operations (o : Operations) (h : endsExpression (next rest) = true) :
    continuesTerm (next (o.tokens ++ rest)) = false := by
  cases o with
  | nil =>
    unfold endsExpression at h
    split at h <;> simp_all [continuesTerm]
  | cons op sign t o => simpa using continuesTerm_operator op

theorem operations_runs {p : Pass Unit} (hp : ReadsTerms p n) (hr : endsExpression (next rest) = true)
    (o : Operations) (m : Nat) (hl : o.tokens.length ≤ n) (hm : o.tokens.length ≤ m) :
    Runs (repeatBy (operationBy p) m) c rest o.count (o.effect c) :=
  match o, m, hm with
  | .nil, m, _ => repeatBy_runs_done m (by simp [operationBy, operation?_of_endsExpression hr])
  | .cons op sign t o, m + 1, hm => by
    simp only [Operations.tokens, List.cons_append, List.length_cons, List.length_append] at hl hm
    have ho := operations_runs hp hr o m (by omega) (by omega)
    have ht : Runs (do discard <| expect [.punct op.punct]; p; emit op.code) c (o.tokens ++ rest) ()
        (.take sign.token ++ (t.effect c ++ .emit op.code)) :=
      .bind (expect_runs sign).discard <|
        .bind (hp t c _ (by omega) (continuesTerm_operations o hr)) (emit_runs _)
    refine .congr (repeatBy_runs_more (e := o.effect c) ?_ ht ho) ?_
    · simp [operationBy, operation?_punct]
    · apply Effect.ext <;> simp

theorem expressionBy_runs {p : Pass Unit} (hp : ReadsTerms p n) :
    ReadsExpressions (expressionBy p n) n := by
  rintro ⟨first, o⟩ c rest hl hr
  simp only [Expression.tokens, List.length_append] at hl
  have ho := operations_runs (c := c) hp hr o n (by omega) (by omega)
  refine .congr (within_runs (.bind (e := o.effect c) (hp first c _ (by omega) ?_) ho.discard)) ?_
  · exact continuesTerm_operations o hr
  · apply Effect.ext <;> simp

theorem moreArguments_runs {p : Pass Unit} (hp : ReadsExpressions p n)
    (hr : next rest = .punct .rparen) (a : MoreArguments) (m : Nat) (hl : a.tokens.length ≤ n)
    (hm : a.tokens.length ≤ m) : Runs (repeatBy (afterComma p) m) c rest a.count (a.effect c) :=
  match a, m, hm with
  | .nil, m, _ => repeatBy_runs_done m (by simp [afterComma, hr])
  | .cons comma e a, m + 1, hm => by
    simp only [MoreArguments.tokens, List.cons_append, List.length_cons, List.length_append] at hl hm
    have ha := moreArguments_runs hp hr a m (by omega) (by omega)
    have he : Runs (do punct .comma; p) c (a.tokens ++ rest) () (.take comma.token ++ e.effect c) :=
      .bind (punct_runs comma) (hp e c _ (by omega) (by cases a <;> simp [hr, endsExpression]))
    refine .congr (repeatBy_runs_more (e := a.effect c) ?_ he ha) ?_
    · simp [afterComma]
    · apply Effect.ext <;> simp

theorem expressionListBy_runs {p : Pass Unit} (hp : ReadsExpressions p n)
    (hr : next rest = .punct .rparen) (a : Arguments) (hl : a.tokens.length ≤ n) :
    Runs (expressionListBy p n) c rest a.count (a.effect c) := by
  cases a with
  | none => exact within_runs (.peek_bind (e := {}) hr (.pure 0))
  | some e a =>
    simp only [Arguments.tokens, List.length_append] at hl
    have ha := moreArguments_runs (c := c) hp hr a n (by omega) (by omega)
    have he := hp e c (a.tokens ++ rest) (by omega) (by cases a <;> simp [hr, endsExpression])
    have hk : Runs (do return (← repeatBy (afterComma p) n) + 1) c rest (a.count + 1) (a.effect c) :=
      .congr (.bind (e := {}) ha (.pure _)) (Effect.append_empty _)
    have hn : next (e.tokens ++ (a.tokens ++ rest)) ≠ .punct .rparen := by
      intro h
      simpa [h, startsTerm] using startsTerm_expression e (a.tokens ++ rest)
    refine .congr (within_runs (.peek_bind (e := e.effect c ++ a.effect c) rfl ?_)) ?_
    · simp only [Effect.tokens_append, Expression.effect, MoreArguments.effect, Effect.reading,
        List.append_assoc, if_neg hn]
      exact .bind he hk
    · apply Effect.ext <;> simp

theorem callArguments_runs {p : Pass Unit} (hp : ReadsExpressions p n) (parens : Parens)
    (args : Arguments) (hl : args.tokens.length ≤ n) (callee : Text) (receivers : Nat) :
    Runs (do
        punct .lparen
        let arguments ← expressionListBy p n
        punct .rparen
        emit (.call callee (receivers + arguments : Nat))) c rest ()
      (callEffect c parens args callee receivers) :=
  .bind (punct_runs parens.opening) <|
    .bind (expressionListBy_runs hp (by simp) args hl) <|
      .bind (punct_runs parens.closing) (emit_runs _)

theorem callBy_runs {p : Pass Unit} (hp : ReadsExpressions p n) (call : Call)
    (hl : call.tokens.length ≤ n + 1) : Runs (callBy p n call.name.token) c rest () (call.effect c) := by
  cases call with
  | own f parens args =>
    simp only [Call.tokens, Pair.tokens, List.length_cons, List.length_append] at hl
    refine .congr (.peek_bind (t := .punct .lparen) ?_ <| .bind (emit_runs _) <|
      .bind (ownSubroutine_runs _) <| .bind (.pure _) <|
      callArguments_runs hp parens args (by omega) _ _) ?_
    · simp
    · apply Effect.ext <;> simp [Call.name, Context.env]
  | qualified x dot f parens args =>
    simp only [Call.tokens, Pair.tokens, List.length_cons, List.length_append] at hl
    have hs : ∀ s : State, s.context = c → s.scopes.resolve? = c.env.find? := by
      rintro s rfl
      rfl
    cases hx : c.env.find? x.token.lexeme with
    | none =>
      let e := callEffect c parens args (x.token.lexeme ++ "." ++ f.token.lexeme) 0
      refine .congr (.peek_bind (t := .punct .dot) ?_ <| .bind (punct_runs dot) <|
        .bind (ident_runs f) <| .get_bind (e := {} ++ e) fun s h => ?_) ?_
      · simp
      · simp only [Call.name, hs s h, hx]
        exact .bind (.pure _) (callArguments_runs hp parens args (by omega) _ _)
      · apply Effect.ext <;> simp [e, hx]
    | some v =>
      let e := callEffect c parens args (v.type ++ "." ++ f.token.lexeme) 1
      refine .congr (.peek_bind (t := .punct .dot) ?_ <| .bind (punct_runs dot) <|
        .bind (ident_runs f) <|
        .get_bind (e := .emit (.push v.storage.segment v.index) ++ ({} ++ e)) fun s h => ?_) ?_
      · simp
      · simp only [Call.name, hs s h, hx]
        exact .bind (emit_runs _) <| .bind (.pure _) <|
          callArguments_runs hp parens args (by omega) _ _
      · apply Effect.ext <;> simp [e, hx]

theorem stringConstant_runs (lexeme : Text) :
    Runs (stringConstant lexeme) c rest () { code := stringCode lexeme } := by
  have hl : ∀ codes : List Nat, Runs (forIn codes PUnit.unit fun (code : Nat) _ => do
      emit (.push .constant code)
      emit (.call "String.appendChar" 2)
      pure (ForInStep.yield PUnit.unit)) c rest PUnit.unit
        { code := codes.flatMap fun (c : Nat) =>
            [.push .constant c, .call "String.appendChar" 2] } := by
    intro codes
    induction codes with
    | nil => exact .pure _
    | cons code codes ih =>
      rw [List.forIn_cons]
      refine .congr (.bind (.bind (emit_runs _) <| .bind (emit_runs _) (.pure _)) ih) ?_
      apply Effect.ext <;> simp
  refine .congr (.bind (emit_runs _) <| .bind (emit_runs _) <| .bind (e := {}) (hl _) (.pure ())) ?_
  apply Effect.ext <;> simp [stringCode]

theorem number_runs (constant : Leaf [.number]) :
    Runs (do
        let constant ← expect [.number]
        match constant.word? with
        | some value => emit (.push .constant value)
        | none => throw (.outOfRange constant)) c rest ()
      (.take constant.token ++ (.check (Mention.fault c.env (.constant constant.token)) ++
        .emit (.push .constant (constant.token.word?.getD 0)))) := by
  refine .bind (expect_runs constant) ?_
  cases h : constant.token.word? with
  | some value =>
    have hf : Mention.fault c.env (.constant constant.token) = none := by simp [Mention.fault, h]
    rw [hf]
    exact emit_runs _
  | none =>
    have hf : Mention.fault c.env (.constant constant.token) = some (.outOfRange constant.token) := by
      simp [Mention.fault, h]
    rw [hf]
    exact fun s _ _ => ⟨s, rfl⟩

section

variable {p : Pass Unit}

theorem literal_runs (l : Literal) (word : Word l.keyword) :
    Runs (termBy p n) c rest () (Term.effect c (.literal l word)) := by
  cases l with
  | true =>
    refine .congr (within_runs (.peek_bind (t := .keyword .true) ?_ <| .bind (keyword_runs word) <|
      .bind (emit_runs _) (emit_runs _))) ?_
    · simp [Literal.keyword]
    · apply Effect.ext <;> simp [Literal.code]
  | false =>
    refine .congr (within_runs (.peek_bind (t := .keyword .false) ?_ <| .bind (keyword_runs word) <|
      emit_runs _)) ?_
    · simp [Literal.keyword]
    · apply Effect.ext <;> simp [Literal.code]
  | null =>
    refine .congr (within_runs (.peek_bind (t := .keyword .null) ?_ <| .bind (keyword_runs word) <|
      emit_runs _)) ?_
    · simp [Literal.keyword]
    · apply Effect.ext <;> simp [Literal.code]
  | this =>
    refine .congr (within_runs (.peek_bind (t := .keyword .this) ?_ <| .bind (keyword_runs word) <|
      emit_runs _)) ?_
    · simp [Literal.keyword]
    · apply Effect.ext <;> simp [Literal.code]

theorem var_runs (x : Name) (hr : continuesTerm (next rest) = false) :
    Runs (termBy p n) c rest () (Term.effect c (.var x)) := by
  let used : Effect := .check (Mention.fault c.env (.use x.token)) ++ .emit (c.env.push x.lexeme)
  have hv : Runs (do pushVariable (← resolve x.token)) c rest () used :=
    .bind (resolve_runs x) (emit_runs _)
  refine .congr (within_runs (.peek_bind (t := .ident) ?_ <| .bind (ident_runs x) <|
    .peek_bind (t := next rest) ?_ (?_ : Runs _ c rest () used))) ?_
  · simp
  · rfl
  -- What follows cannot continue a name, so it is read as a variable.
  · split
    case h_4 => exact hv
    all_goals simp_all [continuesTerm]
  · apply Effect.ext <;> simp [used]

theorem element_runs (he : ReadsExpressions (expressionBy p n) n) (x : Name) (brackets : Brackets)
    (index : Expression) (hl : index.tokens.length ≤ n) :
    Runs (termBy p n) c rest () (Term.effect c (.element x brackets index)) := by
  refine .congr (within_runs (.peek_bind (t := .ident) ?_ <| .bind (ident_runs x) <|
    .peek_bind (t := .punct .lbracket) ?_ <| .bind (resolve_runs x) <|
    .bind (punct_runs brackets.opening) <| .bind (he index c _ hl (by simp [endsExpression])) <|
    .bind (punct_runs brackets.closing) <| .bind (emit_runs _) <| .bind (emit_runs _) <|
    .bind (emit_runs _) (emit_runs _))) ?_
  · simp
  · simp
  · apply Effect.ext <;> simp [Env.push]

theorem callTerm_runs (he : ReadsExpressions (expressionBy p n) n) (call : Call)
    (hl : call.tokens.length ≤ n + 1) :
    Runs (termBy p n) c rest () (Term.effect c (.call call)) := by
  cases call with
  | own f parens args =>
    refine .congr (within_runs (.peek_bind (t := .ident) ?_ <| .bind (ident_runs f) <|
      .peek_bind (t := .punct .lparen) ?_ (callBy_runs he (.own f parens args) hl))) ?_
    · simp
    · simp
    · apply Effect.ext <;> simp
  | qualified x dot f parens args =>
    refine .congr (within_runs (.peek_bind (t := .ident) ?_ <| .bind (ident_runs x) <|
      .peek_bind (t := .punct .dot) ?_ (callBy_runs he (.qualified x dot f parens args) hl))) ?_
    · simp
    · simp
    · apply Effect.ext <;> simp

theorem unary_runs (hp : ReadsTerms p n) (op : Unary) (sign : Symbol op.punct) (t : Term)
    (hl : t.tokens.length ≤ n) (hr : continuesTerm (next rest) = false) :
    Runs (termBy p n) c rest () (Term.effect c (.unary op sign t)) := by
  have hr : continuesTerm (next ([] ++ rest)) = false := hr
  cases op with
  | neg =>
    refine .congr (within_runs (.peek_bind (t := .punct .minus) ?_ <| .bind (punct_runs sign) <|
      .bind (hp t c _ hl hr) <| emit_runs _)) ?_
    · simp [Unary.punct]
    · apply Effect.ext <;> simp [Unary.code]
  | not =>
    refine .congr (within_runs (.peek_bind (t := .punct .not) ?_ <| .bind (punct_runs sign) <|
      .bind (hp t c _ hl hr) <| emit_runs _)) ?_
    · simp [Unary.punct]
    · apply Effect.ext <;> simp [Unary.code]

/-- One more level of nesting reads terms that are one token longer. -/
theorem termBy_runs (hp : ReadsTerms p n) : ReadsTerms (termBy p n) (n + 1) := by
  have he := expressionBy_runs hp
  intro t c rest hl hr
  cases t with
  | number constant =>
    refine .congr (within_runs (.peek_bind (t := .number) ?_ (number_runs constant))) ?_
    · simp
    · apply Effect.ext <;> simp
  | string constant =>
    refine .congr (within_runs (.peek_bind (t := .string) ?_ <| .bind (expect_runs constant) <|
      stringConstant_runs _)) ?_
    · simp
    · apply Effect.ext <;> simp
  | literal l word => exact literal_runs l word
  | var x => exact var_runs x hr
  | element x brackets index =>
    simp only [Term.tokens, Pair.tokens, List.length_cons, List.length_append] at hl
    exact element_runs he x brackets index (by omega)
  | call call => exact callTerm_runs he call hl
  | paren parens e =>
    simp only [Term.tokens, Pair.tokens, List.length_cons, List.length_append] at hl
    refine .congr (within_runs (.peek_bind (t := .punct .lparen) ?_ <|
      .bind (punct_runs parens.opening) <| .bind (he e c _ (by omega) (by simp [endsExpression])) <|
      punct_runs parens.closing)) ?_
    · simp
    · apply Effect.ext <;> simp
  | unary op sign t =>
    simp only [Term.tokens, List.length_cons] at hl
    exact unary_runs hp op sign t (by omega) hr

end

theorem term_runs (n : Nat) : ReadsTerms (term n) n := by
  induction n with
  | zero =>
    intro t c rest hl
    exact absurd (List.eq_nil_of_length_eq_zero (Nat.le_zero.mp hl)) t.tokens_ne_nil
  | succ n ih => exact termBy_runs ih

theorem expression_runs (n : Nat) : ReadsExpressions (expression n) n := expressionBy_runs (term_runs n)

theorem call_runs (call : Call) (hl : call.tokens.length ≤ n + 1) :
    Runs (Pass.call n call.name.token) c rest () (call.effect c) :=
  callBy_runs (expression_runs n) call hl

end Jack.Pass
