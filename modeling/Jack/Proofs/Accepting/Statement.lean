import Jack.Proofs.Accepting.Expression
import Jack.Proofs.Reading.Statement

/-! Only statements are accepted: where the pass succeeds, it has had the effect of a tree. -/

namespace Jack.Pass

open Jack.Tree

variable {c : Context} {n : Nat} {p : Pass Unit}

/-- A procedure accepts nothing but lists of statements. -/
def AcceptsStatements (p : Pass Unit) : Prop :=
  ∀ c, Ensures p c fun _ e => ∃ sts : Statements, e = (sts.effect c).node .statements

/-- A procedure accepts nothing but statements. -/
def AcceptsStatement (p : Pass Unit) : Prop :=
  ∀ c, Ensures p c fun _ e => ∃ st : Statement, e = st.effect c

theorem nextIf_ensures {Q : Nat → Effect → Prop} (h : Q c.nextIf (.update (.advance 1 0))) :
    Ensures (modifyGet fun s : State => (s.nextIf, { s with nextIf := s.nextIf + 1 })) c Q :=
  .of_runs (fun _ => nextIf_runs) rfl h

theorem nextWhile_ensures {Q : Nat → Effect → Prop} (h : Q c.nextWhile (.update (.advance 0 1))) :
    Ensures (modifyGet fun s : State => (s.nextWhile, { s with nextWhile := s.nextWhile + 1 })) c Q :=
  .of_runs (fun _ => nextWhile_runs) rfl h

theorem condition_ensures :
    Ensures (condition n) c fun _ e => ∃ parens cond, e = conditionEffect c parens cond := by
  refine .bind (punct_ensures fun opening => .bind ((expression_ensures n c).mono ?_))
  rintro _ _ ⟨cond, rfl⟩
  exact punct_ensures fun closing => ⟨⟨opening, closing⟩, cond, rfl⟩

theorem block_ensures (hp : AcceptsStatements p) :
    Ensures (block p) c fun _ e => ∃ braces body, e = blockEffect c braces body := by
  refine .bind (punct_ensures fun opening => .bind ((hp c).mono ?_))
  rintro _ _ ⟨body, rfl⟩
  exact punct_ensures fun closing => ⟨⟨opening, closing⟩, body, rfl⟩

theorem letStatement_ensures : AcceptsStatement (letStatement n) := by
  intro c
  refine within_ensures (.bind (keyword_ensures fun word => .bind (ident_ensures fun x => ?_)))
  refine .bind (resolve_ensures (.peek_bind fun t => ?_))
  split
  · refine .bind (punct_ensures fun opening => .bind ((expression_ensures n c).mono ?_))
    rintro _ _ ⟨index, rfl⟩
    refine .bind (punct_ensures fun closing => .bind (emit_ensures (.bind (emit_ensures ?_))))
    refine .bind (punct_ensures fun eq => .bind ((expression_ensures n c).mono ?_))
    rintro _ _ ⟨value, rfl⟩
    refine .bind (punct_ensures fun semicolon => .bind (emit_ensures (.bind (emit_ensures ?_))))
    refine .bind (emit_ensures (emit_ensures
      ⟨.letElement word x ⟨opening, closing⟩ index eq value semicolon, ?_⟩))
    apply Effect.ext <;> simp [Env.push]
  · refine .bind (punct_ensures fun eq => .bind ((expression_ensures n c).mono ?_))
    rintro _ _ ⟨value, rfl⟩
    refine .bind (punct_ensures fun semicolon => emit_ensures ⟨.letVar word x eq value semicolon, ?_⟩)
    apply Effect.ext <;> simp [Env.pop]

theorem ifStatement_ensures (hp : AcceptsStatements p) : AcceptsStatement (ifStatement p n) := by
  intro c
  refine within_ensures (.bind (nextIf_ensures (.bind (keyword_ensures fun word => ?_))))
  refine .bind (condition_ensures.mono ?_)
  rintro _ _ ⟨parens, cond, rfl⟩
  refine .bind (emit_ensures (.bind (emit_ensures (.bind (emit_ensures ?_)))))
  refine .bind ((block_ensures hp).mono ?_)
  rintro _ _ ⟨braces, body, rfl⟩
  refine .peek_bind fun t => ?_
  split
  · refine .bind (emit_ensures (.bind (emit_ensures (.bind (keyword_ensures fun elseWord => ?_)))))
    refine .bind ((block_ensures hp).mono ?_)
    rintro _ _ ⟨elseBraces, elseBody, rfl⟩
    refine emit_ensures
      ⟨.ifElse word parens cond braces body elseWord elseBraces elseBody, ?_⟩
    apply Effect.ext <;> simp [Nat.add_assoc]
  · refine emit_ensures ⟨.ifThen word parens cond braces body, ?_⟩
    apply Effect.ext <;> simp

theorem whileStatement_ensures (hp : AcceptsStatements p) :
    AcceptsStatement (whileStatement p n) := by
  intro c
  refine within_ensures (.bind (nextWhile_ensures (.bind (emit_ensures ?_))))
  refine .bind (keyword_ensures fun word => .bind (condition_ensures.mono ?_))
  rintro _ _ ⟨parens, cond, rfl⟩
  refine .bind (emit_ensures (.bind (emit_ensures (.bind ((block_ensures hp).mono ?_)))))
  rintro _ _ ⟨braces, body, rfl⟩
  refine .bind (emit_ensures (emit_ensures ⟨.while word parens cond braces body, ?_⟩))
  apply Effect.ext <;> simp

theorem doStatement_ensures : AcceptsStatement (doStatement n) := by
  intro c
  refine within_ensures (.bind (keyword_ensures fun word => .bind (ident_ensures fun x => ?_)))
  refine .bind ((callBy_ensures (expression_ensures n) x).mono ?_)
  rintro _ _ ⟨call, rfl, rfl⟩
  refine .bind (punct_ensures fun semicolon => emit_ensures ⟨.do word call semicolon, ?_⟩)
  cases call <;> apply Effect.ext <;> simp [Call.name]

theorem returnStatement_ensures : AcceptsStatement (returnStatement n) := by
  intro c
  refine within_ensures (.bind (keyword_ensures fun word => .peek_bind fun t => ?_))
  split
  · refine .bind (emit_ensures (.bind (punct_ensures fun semicolon => ?_)))
    refine emit_ensures ⟨.return word semicolon, ?_⟩
    apply Effect.ext <;> simp
  · refine .bind ((expression_ensures n c).mono ?_)
    rintro _ _ ⟨value, rfl⟩
    refine .bind (punct_ensures fun semicolon => emit_ensures ⟨.returnValue word value semicolon, ?_⟩)
    apply Effect.ext <;> simp

/-- Whatever the first token selects accepts statements only. -/
theorem statementBy_ensures (hp : AcceptsStatements p) {t : Terminal} {body : Pass Unit}
    (h : statementBy p n t = some body) : AcceptsStatement body := by
  unfold statementBy at h
  split at h <;> cases h
  · exact letStatement_ensures
  · exact ifStatement_ensures hp
  · exact whileStatement_ensures hp
  · exact doStatement_ensures
  · exact returnStatement_ensures

theorem statementList_ensures (hp : AcceptsStatements p) (m : Nat) :
    Ensures (repeatBy (statementBy p n) m) c fun _ e => ∃ sts : Statements, e = sts.effect c := by
  refine repeatBy_ensures (I := fun _ => True) (Q := fun c _ e => ∃ sts : Statements, e = sts.effect c)
    (fun c _ => ⟨.nil, rfl⟩) (fun c t body _ h => ?_) m trivial
  refine (statementBy_ensures hp h c).mono ?_
  rintro _ _ ⟨st, rfl⟩
  refine ⟨trivial, ?_⟩
  rintro _ _ ⟨sts, rfl⟩
  refine ⟨.cons st sts, ?_⟩
  apply Effect.ext <;> simp

theorem statements_ensures (n : Nat) : AcceptsStatements (statements n) := by
  induction n with
  | zero => exact fun c => within_ensures (.pure ⟨.nil, rfl⟩)
  | succ n ih =>
    refine fun c => within_ensures (.discard ((statementList_ensures ih (n + 1)).mono ?_))
    rintro _ _ ⟨sts, rfl⟩
    exact ⟨sts, rfl⟩

end Jack.Pass
