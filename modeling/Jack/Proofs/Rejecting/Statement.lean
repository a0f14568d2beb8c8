import Jack.Proofs.Reading.Statement
import Jack.Proofs.Rejecting.Expression

/-! Statements are rejected at their first error: the pass tracks the language of statements. -/

namespace Jack.Pass

open Jack.Tree

variable {n : Nat} {K : Language} {p : Pass Unit} {c : Context} {w : List Mark}

instance : Inhabited Statements := ⟨.nil⟩

instance : Inhabited Statement := ⟨.return default default⟩

namespace Language

def statement (K : Language) : Language := tree (fun c => Statement.marks c.env) K

def statements (K : Language) : Language := tree (fun c => Statements.marks c.env) K

/-- A block in braces, and what may follow it. -/
def blocks (K : Language) : Language :=
  enclosed .lbrace .rbrace (fun c => Statements.marks c.env) K

/-- An equals sign, a value and a semicolon, and what may follow them. -/
def assigned (K : Language) : Language :=
  token (.punct .eq) (expressions (token (.punct .semicolon) K))

/-- The statements that start with a keyword. -/
def statementAt (K : Language) : Keyword → Language
  | .let => token (.keyword .let) (checked [.ident] .use (either K.assigned.bracketed K.assigned))
  | .if => token (.keyword .if) (parenthesized (blocks (either (token (.keyword .else) K.blocks) K)))
  | .while => token (.keyword .while) (parenthesized (blocks K))
  | .do => token (.keyword .do) (token .ident (callRest (token (.punct .semicolon) K)))
  | .return => token (.keyword .return)
      (either (token (.punct .semicolon) K) (expressions (token (.punct .semicolon) K)))
  | _ => K.statement

end Language

theorem assigned_iff : K.assigned c w ↔
    ∃ (eq : Symbol .eq) (value : Expression) (semicolon : Symbol .semicolon) (k : List Mark),
      K c k ∧ w = eq.mark :: value.marks c.env ++ semicolon.mark :: k := by
  constructor
  · rintro ⟨eq, _, ⟨value, _, ⟨semicolon, k, hk, rfl⟩, rfl⟩, rfl⟩
    exact ⟨eq, value, semicolon, k, hk, rfl⟩
  · rintro ⟨eq, value, semicolon, k, hk, rfl⟩
    exact ⟨eq, _, ⟨value, _, ⟨semicolon, k, hk, rfl⟩, rfl⟩, rfl⟩

theorem statements_iff : K.statements c w ↔ K c w ∨ K.statements.statement c w := by
  constructor
  · rintro ⟨_ | ⟨first, rest⟩, k, hk, rfl⟩
    · exact .inl hk
    · exact .inr ⟨first, _, ⟨rest, k, hk, rfl⟩, by simp⟩
  · rintro (hk | ⟨first, _, ⟨rest, k, hk, rfl⟩, rfl⟩)
    · exact ⟨.nil, w, hk, rfl⟩
    · exact ⟨.cons first rest, k, hk, by simp⟩

theorem starts_statements {P : Terminal → Prop} (hK : Starts P K)
    (hP : ∀ (st : Statement) rest, P (next (st.tokens ++ rest))) : Starts P K.statements := by
  rintro c _ ⟨_ | ⟨first, rest⟩, k, hk, rfl⟩
  · exact hK c _ hk
  · simpa using hP first _

theorem narrows_statementAt (keyword : Keyword) :
    Narrows (.keyword keyword) K.statement (K.statementAt keyword) where
  sub c w := by
    unfold Language.statementAt
    split
    · rintro ⟨word, _, ⟨x, _, h | h, rfl⟩, rfl⟩
      · obtain ⟨brackets, index, _, ha, rfl⟩ := Language.enclosed_iff.mp h
        obtain ⟨eq, value, semicolon, k, hk, rfl⟩ := assigned_iff.mp ha
        exact ⟨.letElement word x brackets index eq value semicolon, k, hk, by simp⟩
      · obtain ⟨eq, value, semicolon, k, hk, rfl⟩ := assigned_iff.mp h
        exact ⟨.letVar word x eq value semicolon, k, hk, by simp⟩
    · rintro ⟨word, _, h, rfl⟩
      obtain ⟨parens, cond, _, hb, rfl⟩ := Language.enclosed_iff.mp h
      obtain ⟨braces, body, _, ⟨elseWord, _, he, rfl⟩ | hk, rfl⟩ := Language.enclosed_iff.mp hb
      · obtain ⟨elseBraces, elseBody, k, hk, rfl⟩ := Language.enclosed_iff.mp he
        exact ⟨.ifElse word parens cond braces body elseWord elseBraces elseBody, k, hk, by simp⟩
      · exact ⟨.ifThen word parens cond braces body, _, hk, by simp⟩
    · rintro ⟨word, _, h, rfl⟩
      obtain ⟨parens, cond, _, hb, rfl⟩ := Language.enclosed_iff.mp h
      obtain ⟨braces, body, k, hk, rfl⟩ := Language.enclosed_iff.mp hb
      exact ⟨.while word parens cond braces body, k, hk, by simp⟩
    · rintro ⟨word, _, ⟨x, _, h | ⟨dot, _, ⟨f, _, h, rfl⟩, rfl⟩, rfl⟩, rfl⟩
      · obtain ⟨parens, args, _, ⟨semicolon, k, hk, rfl⟩, rfl⟩ := Language.enclosed_iff.mp h
        exact ⟨.do word (.own x parens args) semicolon, k, hk, by simp⟩
      · obtain ⟨parens, args, _, ⟨semicolon, k, hk, rfl⟩, rfl⟩ := Language.enclosed_iff.mp h
        exact ⟨.do word (.qualified x dot f parens args) semicolon, k, hk, by simp⟩
    · rintro ⟨word, _, ⟨semicolon, k, hk, rfl⟩ | ⟨value, _, ⟨semicolon, k, hk, rfl⟩, rfl⟩, rfl⟩
      · exact ⟨.return word semicolon, k, hk, rfl⟩
      · exact ⟨.returnValue word value semicolon, k, hk, by simp⟩
    · exact id
  all c := by
    rintro _ ⟨st, k, hk, rfl⟩ hn
    cases st with
    | letVar word x eq value semicolon =>
      obtain rfl : keyword = .let := by simpa using hn.symm
      have h := assigned_iff.mpr ⟨eq, value, semicolon, k, hk, rfl⟩
      exact ⟨word, _, ⟨x, _, .inr h, rfl⟩, by simp⟩
    | letElement word x brackets index eq value semicolon =>
      obtain rfl : keyword = .let := by simpa using hn.symm
      have h := assigned_iff.mpr ⟨eq, value, semicolon, k, hk, rfl⟩
      have h : K.assigned.bracketed c _ := Language.enclosed_iff.mpr ⟨brackets, index, _, h, rfl⟩
      exact ⟨word, _, ⟨x, _, .inl h, rfl⟩, by simp⟩
    | ifThen word parens cond braces body =>
      obtain rfl : keyword = .if := by simpa using hn.symm
      have h : Language.blocks (.either (.token (.keyword .else) K.blocks) K) c _ :=
        Language.enclosed_iff.mpr ⟨braces, body, k, .inr hk, rfl⟩
      exact ⟨word, _, Language.enclosed_iff.mpr ⟨parens, cond, _, h, rfl⟩, by simp⟩
    | ifElse word parens cond braces body elseWord elseBraces elseBody =>
      obtain rfl : keyword = .if := by simpa using hn.symm
      have h : K.blocks c _ := Language.enclosed_iff.mpr ⟨elseBraces, elseBody, k, hk, rfl⟩
      have h : Language.blocks (.either (.token (.keyword .else) K.blocks) K) c _ :=
        Language.enclosed_iff.mpr ⟨braces, body, _, .inl ⟨elseWord, _, h, rfl⟩, rfl⟩
      exact ⟨word, _, Language.enclosed_iff.mpr ⟨parens, cond, _, h, rfl⟩, by simp⟩
    | «while» word parens cond braces body =>
      obtain rfl : keyword = .while := by simpa using hn.symm
      have h : K.blocks c _ := Language.enclosed_iff.mpr ⟨braces, body, k, hk, rfl⟩
      exact ⟨word, _, Language.enclosed_iff.mpr ⟨parens, cond, _, h, rfl⟩, by simp⟩
    | «do» word call semicolon =>
      obtain rfl : keyword = .do := by simpa using hn.symm
      cases call with
      | own f parens args =>
        have h : Language.callArguments (.token (.punct .semicolon) K) c _ :=
          Language.enclosed_iff.mpr ⟨parens, args, _, ⟨semicolon, k, hk, rfl⟩, rfl⟩
        exact ⟨word, _, ⟨f, _, .inl h, rfl⟩, by simp⟩
      | qualified x dot f parens args =>
        have h : Language.callArguments (.token (.punct .semicolon) K) c _ :=
          Language.enclosed_iff.mpr ⟨parens, args, _, ⟨semicolon, k, hk, rfl⟩, rfl⟩
        exact ⟨word, _, ⟨x, _, .inr ⟨dot, _, ⟨f, _, h, rfl⟩, rfl⟩, rfl⟩, by simp⟩
    | «return» word semicolon =>
      obtain rfl : keyword = .return := by simpa using hn.symm
      exact ⟨word, _, .inl ⟨semicolon, k, hk, rfl⟩, rfl⟩
    | returnValue word value semicolon =>
      obtain rfl : keyword = .return := by simpa using hn.symm
      exact ⟨word, _, .inr ⟨value, _, ⟨semicolon, k, hk, rfl⟩, rfl⟩, by simp⟩

/-- A procedure tracks the statements of a block. -/
def TracksStatements (n : Nat) (p : Pass Unit) : Prop :=
  ∀ K, Starts (· = .punct .rbrace) K → Tracks n p K.statements fun _ => K

theorem silent_nextIf :
    Silent id (modifyGet fun s : State => (s.nextIf, { s with nextIf := s.nextIf + 1 })) :=
  fun _ => ⟨_, _, rfl, rfl, rfl, rfl⟩

theorem silent_nextWhile :
    Silent id (modifyGet fun s : State => (s.nextWhile, { s with nextWhile := s.nextWhile + 1 })) :=
  fun _ => ⟨_, _, rfl, rfl, rfl, rfl⟩

theorem condition_tracks : Tracks n (condition n) K.parenthesized fun _ => K :=
  (token_tracks (by simp)).bind fun _ =>
    (expression_tracks n _ (starts_token rfl)).bind fun _ => token_tracks (by simp)

theorem block_tracks (hp : TracksStatements n p) : Tracks n (block p) K.blocks fun _ => K :=
  (token_tracks (by simp)).bind fun _ => (hp _ (starts_token rfl)).bind fun _ => token_tracks (by simp)

theorem letStatement_tracks : Tracks (n + 1) (letStatement n) (K.statementAt .let) fun _ => K := by
  refine .within (token_bind (by simp) (.mono (use_bind fun v => ?_) (Nat.le_succ n)))
  refine .peek_bind fun t => ?_
  by_cases ht : t = .punct .lbracket
  · subst ht
    simp only [if_true]
    refine TracksAt.narrow ?_ (narrows_left (fun _ _ => Iff.rfl) (starts_token (by simp)))
    refine Tracks.bind (token_tracks (by simp)) (fun _ => ?_) _
    refine (expression_tracks n _ (starts_token rfl)).bind fun _ => ?_
    refine (token_tracks (by simp)).bind fun _ => (silent_emit _).skip fun _ => ?_
    refine (silent_emit _).skip fun _ => (token_tracks (by simp)).bind fun _ => ?_
    refine (expression_tracks n _ (starts_token rfl)).bind fun _ => ?_
    refine (token_tracks (by simp)).bind fun _ => (silent_emit _).skip fun _ => ?_
    exact (silent_emit _).skip fun _ => (silent_emit _).skip fun _ => (silent_emit _).stay
  · simp only [ht, if_false]
    refine TracksAt.narrow ?_ (narrows_right (fun _ _ => Iff.rfl) (starts_token (Ne.symm ht)))
    refine Tracks.bind (token_tracks (by simp)) (fun _ => ?_) _
    refine (expression_tracks n _ (starts_token rfl)).bind fun _ => ?_
    exact (token_tracks (by simp)).bind fun _ => (silent_emit _).stay

theorem ifStatement_tracks (hp : TracksStatements n p) (hK : Starts (· ≠ .keyword .else) K) :
    Tracks (n + 1) (ifStatement p n) (K.statementAt .if) fun _ => K := by
  refine .within (silent_nextIf.skip fun i => token_bind (by simp) (condition_tracks.bind fun _ => ?_))
  refine (silent_emit _).skip fun _ => (silent_emit _).skip fun _ => (silent_emit _).skip fun _ => ?_
  refine (block_tracks hp).bind fun _ => .peek_bind fun t => ?_
  by_cases ht : t = .keyword .else
  · subst ht
    simp only [if_true]
    refine TracksAt.narrow ?_ (narrows_left (fun _ _ => Iff.rfl) hK)
    refine Silent.skip (silent_emit _) (fun _ => (silent_emit _).skip fun _ => ?_) _
    refine (token_tracks (by simp)).bind fun _ => (block_tracks hp).bind fun _ => ?_
    exact (silent_emit _).stay
  · simp only [ht, if_false]
    exact ((silent_emit _).stay _).narrow
      (narrows_right (fun _ _ => Iff.rfl) (starts_token (Ne.symm ht)))

theorem whileStatement_tracks (hp : TracksStatements n p) :
    Tracks (n + 1) (whileStatement p n) (K.statementAt .while) fun _ => K := by
  refine .within (silent_nextWhile.skip fun i => (silent_emit _).skip fun _ => ?_)
  refine token_bind (by simp) (condition_tracks.bind fun _ => ?_)
  refine (silent_emit _).skip fun _ => (silent_emit _).skip fun _ => (block_tracks hp).bind fun _ => ?_
  exact (silent_emit _).skip fun _ => (silent_emit _).stay

theorem doStatement_tracks : Tracks (n + 1) (doStatement n) (K.statementAt .do) fun _ => K := by
  refine .within (token_bind (by simp) (.mono (expect_bind (by simp) fun x => ?_) (Nat.le_succ n)))
  refine (callBy_tracks (expression_tracks n) x.token).bind fun _ => ?_
  exact (token_tracks (by simp)).bind fun _ => (silent_emit _).stay

theorem returnStatement_tracks :
    Tracks (n + 1) (returnStatement n) (K.statementAt .return) fun _ => K := by
  refine .within (token_bind (by simp) (.peek_bind fun t => ?_))
  by_cases ht : t = .punct .semicolon
  · subst ht
    simp only [if_true]
    refine TracksAt.narrow ?_ (narrows_left (fun _ _ => Iff.rfl) (starts_expressions.mono ?_))
    · refine Silent.skip (silent_emit _) (fun _ => ?_) _
      exact (token_tracks (by simp)).bind fun _ => (silent_emit _).stay
    · rintro _ h rfl
      simp [startsTerm] at h
  · simp only [ht, if_false]
    refine TracksAt.narrow ?_ (narrows_right (fun _ _ => Iff.rfl) (starts_token (Ne.symm ht)))
    refine Tracks.bind (expression_tracks n _ (starts_token rfl)) (fun _ => ?_) _
    exact (token_tracks (by simp)).bind fun _ => (silent_emit _).stay

theorem statementBy_tracks (hp : TracksStatements n p) (hK : Starts (· ≠ .keyword .else) K)
    {t : Terminal} {body : Pass Unit} (h : statementBy p n t = some body) :
    TracksAt (n + 1) t body K.statement fun _ => K := by
  unfold statementBy at h
  split at h <;> cases h
  · exact (letStatement_tracks _).narrow (narrows_statementAt _)
  · exact (ifStatement_tracks hp hK _).narrow (narrows_statementAt _)
  · exact (whileStatement_tracks hp _).narrow (narrows_statementAt _)
  · exact (doStatement_tracks _).narrow (narrows_statementAt _)
  · exact (returnStatement_tracks _).narrow (narrows_statementAt _)

theorem starts_statement : Starts (statementBy p n · ≠ none) K.statement := by
  rintro c _ ⟨st, k, -, rfl⟩
  cases st <;> simp [statementBy]

theorem statements_tracks (n : Nat) : TracksStatements n (statements n) := by
  induction n with
  | zero =>
    intro K hK
    refine .zero (.within ((TracksAt.pure (G := fun _ => K) ()).narrow
      (narrows_left (fun _ _ => statements_iff) ?_)))
    exact (starts_statement (p := pure ()) (n := 0)).mono fun _ h => by rintro rfl; simp [statementBy] at h
  | succ n ih =>
    intro K hK
    have he : Starts (· ≠ .keyword .else) K.statements :=
      starts_statements (hK.mono fun t ht => by simp [ht]) next_statement_ne_else
    refine .within (.discard (repeatBy_tracks rfl (fun _ _ => statements_iff) ?_ starts_statement
      (fun t body h => statementBy_tracks ih he h) (n + 1) (Nat.le_refl _)))
    exact hK.mono fun t ht => by simp [ht, statementBy]

end Jack.Pass
