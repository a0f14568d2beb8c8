import Jack.Proofs.Reading.Expression

/-! Only expressions are accepted: where the pass succeeds, it has had the effect of a tree. -/

namespace Jack.Pass

open Jack.Tree

variable {c : Context} {n : Nat}

/-- A procedure accepts nothing but terms. -/
def AcceptsTerms (p : Pass Unit) : Prop := ∀ c, Ensures p c fun _ e => ∃ t : Term, e = t.effect c

def AcceptsExpressions (p : Pass Unit) : Prop :=
  ∀ c, Ensures p c fun _ e => ∃ x : Expression, e = x.effect c

theorem operation?_eq_some {t : Terminal} {i : Instruction} (h : operation? t = some i) :
    ∃ op : Operator, t = .punct op.punct ∧ i = op.code := by
  unfold operation? at h
  split at h
  case h_10 => simp at h
  all_goals cases h
  · exact ⟨.add, rfl, rfl⟩
  · exact ⟨.sub, rfl, rfl⟩
  · exact ⟨.lt, rfl, rfl⟩
  · exact ⟨.gt, rfl, rfl⟩
  · exact ⟨.eq, rfl, rfl⟩
  · exact ⟨.and, rfl, rfl⟩
  · exact ⟨.or, rfl, rfl⟩
  · exact ⟨.mul, rfl, rfl⟩
  · exact ⟨.div, rfl, rfl⟩

theorem resolve_ensures {x : Name} {Q : Variable → Effect → Prop}
    (h : Q (c.env.get x.lexeme) (.check (Mention.fault c.env (.use x.token)))) :
    Ensures (resolve x.token) c Q :=
  .of_runs (fun _ => resolve_runs x) rfl h

theorem ownSubroutine_ensures {name : Text} {Q : Text → Effect → Prop}
    (h : Q (c.className ++ "." ++ name) {}) : Ensures (ownSubroutine name) c Q :=
  .of_runs (fun _ => ownSubroutine_runs name) rfl h

theorem operations_ensures {p : Pass Unit} (hp : AcceptsTerms p) (m : Nat) :
    Ensures (repeatBy (operationBy p) m) c fun _ e => ∃ o : Operations, e = o.effect c := by
  refine repeatBy_ensures (I := fun _ => True) (Q := fun c _ e => ∃ o : Operations, e = o.effect c)
    (fun c _ => ⟨.nil, rfl⟩) (fun c t body _ h => ?_) m trivial
  obtain ⟨i, hi, rfl⟩ := Option.map_eq_some_iff.mp h
  obtain ⟨op, rfl, rfl⟩ := operation?_eq_some hi
  refine .bind (.discard (expect_ensures (by simp) fun sign => ?_))
  refine .bind ((hp c).mono ?_)
  rintro _ _ ⟨t, rfl⟩
  refine emit_ensures ⟨trivial, ?_⟩
  rintro k _ ⟨o, rfl⟩
  refine ⟨.cons op sign t o, ?_⟩
  apply Effect.ext <;> simp

theorem expressionBy_ensures {p : Pass Unit} (hp : AcceptsTerms p) :
    AcceptsExpressions (expressionBy p n) := by
  intro c
  refine within_ensures (.bind ((hp c).mono ?_))
  rintro _ _ ⟨t, rfl⟩
  refine .discard ((operations_ensures hp n).mono ?_)
  rintro _ _ ⟨o, rfl⟩
  refine ⟨.mk t o, ?_⟩
  apply Effect.ext <;> simp

theorem moreArguments_ensures {p : Pass Unit} (hp : AcceptsExpressions p) (m : Nat) :
    Ensures (repeatBy (afterComma p) m) c fun k e =>
      ∃ a : MoreArguments, a.count = k ∧ e = a.effect c := by
  refine repeatBy_ensures (I := fun _ => True)
    (Q := fun c k e => ∃ a : MoreArguments, a.count = k ∧ e = a.effect c)
    (fun c _ => ⟨.nil, rfl, rfl⟩) (fun c t body _ h => ?_) m trivial
  unfold afterComma at h
  split at h
  case h_2 => simp at h
  cases h
  refine .bind (punct_ensures fun comma => (hp c).mono ?_)
  rintro _ _ ⟨x, rfl⟩
  refine ⟨trivial, ?_⟩
  rintro _ _ ⟨a, rfl, rfl⟩
  refine ⟨.cons comma x a, rfl, ?_⟩
  apply Effect.ext <;> simp

theorem expressionListBy_ensures {p : Pass Unit} (hp : AcceptsExpressions p) :
    Ensures (expressionListBy p n) c fun k e => ∃ a : Arguments, a.count = k ∧ e = a.effect c := by
  refine within_ensures (.peek_bind fun t => ?_)
  split
  · exact .pure ⟨.none, rfl, rfl⟩
  · refine .bind ((hp c).mono ?_)
    rintro _ _ ⟨x, rfl⟩
    refine .bind ((moreArguments_ensures hp n).mono ?_)
    rintro _ _ ⟨a, rfl, rfl⟩
    refine .pure ⟨.some x a, rfl, ?_⟩
    apply Effect.ext <;> simp

theorem callArguments_ensures {p : Pass Unit} (hp : AcceptsExpressions p) (callee : Text)
    (receivers : Nat) :
    Ensures (do
        punct .lparen
        let arguments ← expressionListBy p n
        punct .rparen
        emit (.call callee (receivers + arguments : Nat))) c
      fun _ e => ∃ parens args, e = callEffect c parens args callee receivers := by
  refine .bind (punct_ensures fun opening => .bind ((expressionListBy_ensures hp).mono ?_))
  rintro _ _ ⟨args, rfl, rfl⟩
  exact .bind (punct_ensures fun closing => emit_ensures ⟨⟨opening, closing⟩, args, rfl⟩)

theorem callBy_ensures {p : Pass Unit} (hp : AcceptsExpressions p) (x : Name) :
    Ensures (callBy p n x.token) c fun _ e => ∃ call : Call, call.name = x ∧ e = call.effect c := by
  refine .peek_bind fun t => ?_
  dsimp only
  split
  · refine .bind (emit_ensures (.bind (ownSubroutine_ensures (.bind (.pure ?_)))))
    refine (callArguments_ensures hp _ _).mono ?_
    rintro _ _ ⟨parens, args, rfl⟩
    refine ⟨.own x parens args, rfl, ?_⟩
    apply Effect.ext <;> simp [Context.env]
  · refine .bind (punct_ensures fun dot => .bind (ident_ensures fun f => .get_bind fun s hs => ?_))
    have hs : s.scopes.resolve? = c.env.find? := congrArg (fun c => c.scopes.resolve?) hs
    rw [hs]
    split
    case h_1 v hv =>
      refine .bind (emit_ensures (.bind (.pure ((callArguments_ensures hp _ _).mono ?_))))
      rintro _ _ ⟨parens, args, rfl⟩
      refine ⟨.qualified x dot f parens args, rfl, ?_⟩
      apply Effect.ext <;> simp [hv]
    case h_2 hv =>
      refine .bind (.pure ((callArguments_ensures hp _ _).mono ?_))
      rintro _ _ ⟨parens, args, rfl⟩
      refine ⟨.qualified x dot f parens args, rfl, ?_⟩
      apply Effect.ext <;> simp [hv]

theorem stringConstant_ensures {lexeme : Text} {Q : Unit → Effect → Prop}
    (h : Q () { code := stringCode lexeme }) : Ensures (stringConstant lexeme) c Q :=
  .of_runs (fun _ => stringConstant_runs lexeme) rfl h

theorem callTerm_ensures {p : Pass Unit} (hp : AcceptsExpressions p) (x : Name) :
    Ensures (callBy p n x.token) c fun _ e =>
      ∃ t : Term, (Effect.take x.token ++ e).node .term = t.effect c := by
  refine (callBy_ensures hp x).mono ?_
  rintro _ _ ⟨call, rfl, rfl⟩
  refine ⟨.call call, ?_⟩
  cases call <;> apply Effect.ext <;> simp [Call.name]

theorem termBy_ensures {p : Pass Unit} (hp : AcceptsTerms p) : AcceptsTerms (termBy p n) := by
  have he := expressionBy_ensures (n := n) hp
  intro c
  refine within_ensures (.peek_bind fun t => ?_)
  split
  case h_1 =>
    refine .bind (expect_ensures (by simp) fun constant => ?_)
    split
    case h_1 value hv =>
      refine emit_ensures ⟨.number constant, ?_⟩
      apply Effect.ext <;> simp [Mention.fault, hv]
    case h_2 => exact .of_error fun s => ⟨_, rfl⟩
  case h_2 =>
    refine .bind (expect_ensures (by simp) fun constant => stringConstant_ensures ⟨.string constant, ?_⟩)
    apply Effect.ext <;> simp
  case h_3 =>
    refine .bind (keyword_ensures fun word => ?_)
    refine .bind (emit_ensures (emit_ensures ⟨.literal .true word, ?_⟩))
    apply Effect.ext <;> simp [Literal.code]
  case h_4 =>
    refine .bind (keyword_ensures fun word => emit_ensures ⟨.literal .false word, ?_⟩)
    apply Effect.ext <;> simp [Literal.code]
  case h_5 =>
    refine .bind (keyword_ensures fun word => emit_ensures ⟨.literal .null word, ?_⟩)
    apply Effect.ext <;> simp [Literal.code]
  case h_6 =>
    refine .bind (keyword_ensures fun word => emit_ensures ⟨.literal .this word, ?_⟩)
    apply Effect.ext <;> simp [Literal.code]
  case h_7 =>
    refine .bind (ident_ensures fun x => .peek_bind fun t => ?_)
    split
    · exact callTerm_ensures he x
    · exact callTerm_ensures he x
    · refine .bind (resolve_ensures (.bind (punct_ensures fun opening => ?_)))
      refine .bind ((he c).mono ?_)
      rintro _ _ ⟨index, rfl⟩
      refine .bind (punct_ensures fun closing => .bind (emit_ensures (.bind (emit_ensures ?_))))
      refine .bind (emit_ensures (emit_ensures ⟨.element x ⟨opening, closing⟩ index, ?_⟩))
      apply Effect.ext <;> simp [Env.push]
    · refine .bind (resolve_ensures (emit_ensures ⟨.var x, ?_⟩))
      apply Effect.ext <;> simp [Env.push]
  case h_8 =>
    refine .bind (punct_ensures fun opening => .bind ((he c).mono ?_))
    rintro _ _ ⟨x, rfl⟩
    refine punct_ensures fun closing => ⟨.paren ⟨opening, closing⟩ x, ?_⟩
    apply Effect.ext <;> simp
  case h_9 =>
    refine .bind (punct_ensures fun sign => .bind ((hp c).mono ?_))
    rintro _ _ ⟨t, rfl⟩
    refine emit_ensures ⟨.unary .neg sign t, ?_⟩
    apply Effect.ext <;> simp [Unary.code]
  case h_10 =>
    refine .bind (punct_ensures fun sign => .bind ((hp c).mono ?_))
    rintro _ _ ⟨t, rfl⟩
    refine emit_ensures ⟨.unary .not sign t, ?_⟩
    apply Effect.ext <;> simp [Unary.code]
  case h_11 => exact .of_error fun s => ⟨_, rfl⟩

theorem term_ensures (n : Nat) : AcceptsTerms (term n) := by
  induction n with
  | zero => exact fun c => within_ensures (.of_error fun s => ⟨_, rfl⟩)
  | succ n ih => exact termBy_ensures ih

theorem expression_ensures (n : Nat) : AcceptsExpressions (expression n) :=
  expressionBy_ensures (term_ensures n)

end Jack.Pass
