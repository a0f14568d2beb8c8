import Jack.Proofs.Accepting.Expression
import Jack.Proofs.Pass.Tracking

/-! Expressions are rejected at their first error: the pass tracks the language of expressions. -/

namespace Jack.Pass

open Jack.Tree

variable {n : Nat} {K : Language} {p : Pass Unit} {c : Context} {w : List Mark}

instance : Inhabited Term := ⟨.var default⟩

instance : Inhabited Operations := ⟨.nil⟩

instance : Inhabited Expression := ⟨.mk default default⟩

instance : Inhabited Arguments := ⟨.none⟩

instance : Inhabited MoreArguments := ⟨.nil⟩

namespace Language

def terms (K : Language) : Language := tree (fun c => Term.marks c.env) K

def operations (K : Language) : Language := tree (fun c => Operations.marks c.env) K

def expressions (K : Language) : Language := tree (fun c => Expression.marks c.env) K

def arguments (K : Language) : Language := tree (fun c => Arguments.marks c.env) K

def moreArguments (K : Language) : Language := tree (fun c => MoreArguments.marks c.env) K

/-- An operator, and what may follow it. -/
def operator (K : Language) : Language where
  words c w := ∃ (op : Operator) (sign : Symbol op.punct) (k : List Mark), K c k ∧ w = sign.mark :: k
  live c := by
    obtain ⟨k, hk⟩ := K.live c
    exact ⟨_, .add, default, k, hk, rfl⟩

/-- An expression in parentheses. -/
def parenthesized (K : Language) : Language :=
  enclosed .lparen .rparen (fun c => Expression.marks c.env) K

/-- An index in brackets. -/
def bracketed (K : Language) : Language :=
  enclosed .lbracket .rbracket (fun c => Expression.marks c.env) K

/-- The arguments of a call in their parentheses. -/
def callArguments (K : Language) : Language :=
  enclosed .lparen .rparen (fun c => Arguments.marks c.env) K

/-- What follows the first name of a call. -/
def callRest (K : Language) : Language :=
  either K.callArguments (token (.punct .dot) (token .ident K.callArguments))

/-- The terms that start with a terminal. -/
def termsAt (K : Language) : Terminal → Language
  | .number => checked [.number] .constant K
  | .ident => named K.callRest (either K K.bracketed)
  | .punct .lparen => K.parenthesized
  | .punct .minus => token (.punct .minus) K.terms
  | .punct .not => token (.punct .not) K.terms
  | t => token t K

end Language

theorem starts_terms : Starts (startsTerm · = true) K.terms := by
  rintro c _ ⟨t, k, -, rfl⟩
  simpa using startsTerm_term t _

theorem starts_expressions : Starts (startsTerm · = true) K.expressions := by
  rintro c _ ⟨e, k, -, rfl⟩
  simpa using startsTerm_expression e _

theorem starts_operations (hK : Starts (endsExpression · = true) K) :
    Starts (continuesTerm · = false) K.operations := by
  rintro c _ ⟨o, k, hk, rfl⟩
  simpa using continuesTerm_operations o (hK c k hk)

theorem starts_moreArguments (hK : Starts (· = .punct .rparen) K) :
    Starts (endsExpression · = true) K.moreArguments := by
  rintro c _ ⟨a, k, hk, rfl⟩
  cases a with
  | nil =>
    have := hK c k hk
    simp [this, endsExpression]
  | cons comma e rest => simp [endsExpression]

theorem expressions_iff : K.expressions c w ↔ K.operations.terms c w := by
  constructor
  · rintro ⟨⟨first, rest⟩, k, hk, rfl⟩
    exact ⟨first, rest.marks c.env ++ k, ⟨rest, k, hk, rfl⟩, by simp⟩
  · rintro ⟨first, _, ⟨rest, k, hk, rfl⟩, rfl⟩
    exact ⟨.mk first rest, k, hk, by simp⟩

theorem operations_iff : K.operations c w ↔ K c w ∨ K.operations.terms.operator c w := by
  constructor
  · rintro ⟨_ | ⟨op, sign, t, rest⟩, k, hk, rfl⟩
    · exact .inl hk
    · exact .inr ⟨op, sign, _, ⟨t, _, ⟨rest, k, hk, rfl⟩, rfl⟩, by simp⟩
  · rintro (hk | ⟨op, sign, _, ⟨t, _, ⟨rest, k, hk, rfl⟩, rfl⟩, rfl⟩)
    · exact ⟨.nil, w, hk, rfl⟩
    · exact ⟨.cons op sign t rest, k, hk, by simp⟩

theorem moreArguments_iff :
    K.moreArguments c w ↔ K c w ∨ Language.token (.punct .comma) K.moreArguments.expressions c w := by
  constructor
  · rintro ⟨_ | ⟨comma, e, rest⟩, k, hk, rfl⟩
    · exact .inl hk
    · exact .inr ⟨comma, _, ⟨e, _, ⟨rest, k, hk, rfl⟩, rfl⟩, by simp⟩
  · rintro (hk | ⟨comma, _, ⟨e, _, ⟨rest, k, hk, rfl⟩, rfl⟩, rfl⟩)
    · exact ⟨.nil, w, hk, rfl⟩
    · exact ⟨.cons comma e rest, k, hk, by simp⟩

theorem arguments_iff : K.arguments c w ↔ K c w ∨ K.moreArguments.expressions c w := by
  constructor
  · rintro ⟨_ | ⟨first, rest⟩, k, hk, rfl⟩
    · exact .inl hk
    · exact .inr ⟨first, _, ⟨rest, k, hk, rfl⟩, by simp⟩
  · rintro (hk | ⟨first, _, ⟨rest, k, hk, rfl⟩, rfl⟩)
    · exact ⟨.none, w, hk, rfl⟩
    · exact ⟨.some first rest, k, hk, by simp⟩

/-- A procedure tracks terms, if what follows them does not continue a name. -/
def TracksTerms (n : Nat) (p : Pass Unit) : Prop :=
  ∀ K, Starts (continuesTerm · = false) K → Tracks n p K.terms fun _ => K

def TracksExpressions (n : Nat) (p : Pass Unit) : Prop :=
  ∀ K, Starts (endsExpression · = true) K → Tracks n p K.expressions fun _ => K

theorem operations_tracks (hp : TracksTerms n p) (hK : Starts (endsExpression · = true) K) :
    Tracks n (repeatBy (operationBy p) n) K.operations fun _ => K := by
  refine repeatBy_tracks rfl (fun _ _ => operations_iff) ?_ ?_ ?_ n (Nat.le_refl n)
  · exact hK.mono fun t ht => by simp [operationBy, operation?_of_endsExpression ht]
  · rintro c _ ⟨op, sign, k, -, rfl⟩
    simp [operationBy, operation?_punct]
  · intro t body h
    obtain ⟨i, hi, rfl⟩ := Option.map_eq_some_iff.mp h
    obtain ⟨op, rfl, rfl⟩ := operation?_eq_some hi
    have ht : Tracks n (do discard <| expect [.punct op.punct]; p; emit op.code)
        (.token (.punct op.punct) K.operations.terms) fun _ => K.operations :=
      (token_tracks (by simp)).bind fun _ =>
        (hp _ (starts_operations hK)).bind fun _ => (silent_emit _).stay
    refine (ht _).narrow ⟨?_, ?_⟩
    · rintro c _ ⟨sign, k, hk, rfl⟩
      exact ⟨op, sign, k, hk, rfl⟩
    · rintro c _ ⟨op', sign, k, hk, rfl⟩ hn
      exact ⟨⟨sign.token, by simpa using hn⟩, k, hk, rfl⟩

theorem expressionBy_tracks (hp : TracksTerms n p) : TracksExpressions n (expressionBy p n) := by
  intro K hK
  refine .within (.congr ?_ fun _ _ => expressions_iff)
  exact (hp _ (starts_operations hK)).bind fun _ => (operations_tracks hp hK).discard

theorem moreArguments_tracks (hp : TracksExpressions n p) (hK : Starts (· = .punct .rparen) K) :
    Tracks n (repeatBy (afterComma p) n) K.moreArguments fun _ => K := by
  refine repeatBy_tracks rfl (fun _ _ => moreArguments_iff) ?_ ?_ ?_ n (Nat.le_refl n)
  · exact hK.mono fun t ht => by simp [ht, afterComma]
  · exact starts_token (by simp [afterComma])
  · intro t body h
    unfold afterComma at h
    split at h <;> cases h
    have ht : Tracks n (do punct .comma; p) (.token (.punct .comma) K.moreArguments.expressions)
        fun _ => K.moreArguments :=
      (token_tracks (by simp)).bind fun _ => hp _ (starts_moreArguments hK)
    exact ht _

theorem expressionListBy_tracks (hp : TracksExpressions n p) (hK : Starts (· = .punct .rparen) K) :
    Tracks n (expressionListBy p n) K.arguments fun _ => K := by
  refine .within (.peek_bind fun t => ?_)
  by_cases ht : t = .punct .rparen
  · subst ht
    refine (TracksAt.pure (G := fun _ => K) 0).narrow
      (narrows_left (fun _ _ => arguments_iff) (starts_expressions.mono ?_))
    rintro _ hs rfl
    simp [startsTerm] at hs
  · simp only [ht, if_false]
    have hs : Tracks n (do p; let k ← repeatBy (afterComma p) n; return k + 1)
        K.moreArguments.expressions fun _ => K :=
      (hp _ (starts_moreArguments hK)).bind fun _ => (moreArguments_tracks hp hK).bind fun k =>
        Tracks.pure (G := fun _ => K) (k + 1)
    exact (hs t).narrow (narrows_right (fun _ _ => arguments_iff) (hK.mono fun _ h => h ▸ Ne.symm ht))

/-- The end of a call behind the opening parenthesis. -/
theorem callArguments_tracks (hp : TracksExpressions n p) (callee : Text) (receivers : Nat) :
    Tracks n (do
        let arguments ← expressionListBy p n
        punct .rparen
        emit (.call callee (receivers + arguments : Nat)))
      (.arguments (.token (.punct .rparen) K)) fun _ => K :=
  (expressionListBy_tracks hp (starts_token rfl)).bind fun _ =>
    (token_tracks (by simp)).bind fun _ => (silent_emit _).stay

/-- Terminals that make a name that of a call. -/
def startsCall : Terminal → Bool
  | .punct .lparen | .punct .dot => true
  | _ => false

theorem starts_callRest : Starts (startsCall · = true) K.callRest :=
  starts_either (starts_token rfl) (starts_token rfl)

theorem callBy_takes (hp : TracksExpressions n p) (x : Token) {t : Terminal}
    (ht : startsCall t = true) : TakesAt n t (callBy p n x) K.callRest fun _ => K := by
  refine .peek_bind ?_
  dsimp only
  by_cases hl : t = .punct .lparen
  · subst hl
    simp only [if_true]
    refine TakesAt.narrow ?_ (narrows_left (fun _ _ => Iff.rfl) (starts_token (by simp)))
    refine (silent_emit _).takes fun _ => (silent_ownSubroutine _).takes fun _ => ?_
    refine (silent_pure _).takes fun _ => ?_
    exact (token_takes (by simp) (callArguments_tracks hp _ _)).mono (Nat.le_succ n)
  · obtain rfl : t = .punct .dot := by
      unfold startsCall at ht
      split at ht <;> simp_all
    simp only [hl, if_false]
    refine TakesAt.narrow ?_ (narrows_right (fun _ _ => Iff.rfl) (starts_token (by simp)))
    refine (token_takes (by simp) ?_).mono (Nat.le_succ n)
    refine (expect_bind (by simp) fun f => ?_).mono (Nat.le_succ n)
    refine silent_get.skip fun s => ?_
    split
    · refine (silent_emit _).skip fun _ => (silent_pure _).skip fun _ => ?_
      exact (token_tracks (by simp)).bind fun _ => callArguments_tracks hp _ _
    · refine (silent_pure _).skip fun _ => ?_
      exact (token_tracks (by simp)).bind fun _ => callArguments_tracks hp _ _

theorem callBy_tracks (hp : TracksExpressions n p) (x : Token) :
    Tracks n (callBy p n x) K.callRest fun _ => K := by
  intro t
  cases ht : startsCall t with
  | true => exact (callBy_takes hp x ht).tracksAt (by rintro rfl; simp [startsCall] at ht)
  | false =>
    have hl : t ≠ .punct .lparen := by
      rintro rfl
      simp [startsCall] at ht
    have hd : t ≠ .punct .dot := by
      rintro rfl
      simp [startsCall] at ht
    refine TracksAt.peek_bind ?_
    dsimp only
    simp only [hl, if_false]
    exact (token_rejects hd).narrow (narrows_right (fun _ _ => Iff.rfl) (starts_token hl.symm))

theorem narrows_termsAt {t : Terminal} (ht : startsTerm t = true) :
    Narrows t K.terms (K.termsAt t) where
  sub c := by
    unfold startsTerm at ht
    split at ht
    · rintro _ ⟨l, k, hk, rfl⟩
      exact ⟨.number l, k, hk, rfl⟩
    · rintro _ ⟨l, k, hk, rfl⟩
      exact ⟨.string l, k, hk, rfl⟩
    · rintro _ (⟨x, _, hk | h, rfl⟩ | ⟨x, _, h | ⟨dot, _, ⟨f, _, h, rfl⟩, rfl⟩, rfl⟩)
      · exact ⟨.var x, _, hk, rfl⟩
      · obtain ⟨brackets, e, k, hk, rfl⟩ := Language.enclosed_iff.mp h
        exact ⟨.element x brackets e, k, hk, rfl⟩
      · obtain ⟨parens, a, k, hk, rfl⟩ := Language.enclosed_iff.mp h
        exact ⟨.call (.own x parens a), k, hk, rfl⟩
      · obtain ⟨parens, a, k, hk, rfl⟩ := Language.enclosed_iff.mp h
        exact ⟨.call (.qualified x dot f parens a), k, hk, rfl⟩
    · rintro _ ⟨l, k, hk, rfl⟩
      exact ⟨.literal .true l, k, hk, rfl⟩
    · rintro _ ⟨l, k, hk, rfl⟩
      exact ⟨.literal .false l, k, hk, rfl⟩
    · rintro _ ⟨l, k, hk, rfl⟩
      exact ⟨.literal .null l, k, hk, rfl⟩
    · rintro _ ⟨l, k, hk, rfl⟩
      exact ⟨.literal .this l, k, hk, rfl⟩
    · intro _ h
      obtain ⟨parens, e, k, hk, rfl⟩ := Language.enclosed_iff.mp h
      exact ⟨.paren parens e, k, hk, rfl⟩
    · rintro _ ⟨sign, _, ⟨t, k, hk, rfl⟩, rfl⟩
      exact ⟨.unary .neg sign t, k, hk, rfl⟩
    · rintro _ ⟨sign, _, ⟨t, k, hk, rfl⟩, rfl⟩
      exact ⟨.unary .not sign t, k, hk, rfl⟩
    · simp at ht
  all c := by
    rintro _ ⟨x, k, hk, rfl⟩ rfl
    cases x with
    | number l =>
      rw [show next _ = Terminal.number by simp [Mention.token]]
      exact ⟨l, k, hk, rfl⟩
    | string l =>
      rw [show next _ = Terminal.string by simp]
      exact ⟨l, k, hk, rfl⟩
    | literal l word =>
      rw [show next _ = Terminal.keyword l.keyword by simp]
      cases l <;> exact ⟨word, k, hk, rfl⟩
    | var x =>
      rw [show next _ = Terminal.ident by simp [Mention.token]]
      exact .inl ⟨x, k, .inl hk, rfl⟩
    | element x brackets e =>
      rw [show next _ = Terminal.ident by simp [Mention.token]]
      exact .inl ⟨x, _, .inr (Language.enclosed_iff.mpr ⟨brackets, e, k, hk, rfl⟩), rfl⟩
    | call call =>
      cases call with
      | own f parens a =>
        rw [show next _ = Terminal.ident by simp]
        exact .inr ⟨f, _, .inl (Language.enclosed_iff.mpr ⟨parens, a, k, hk, rfl⟩), rfl⟩
      | qualified x dot f parens a =>
        rw [show next _ = Terminal.ident by simp]
        have h : K.callArguments c _ := Language.enclosed_iff.mpr ⟨parens, a, k, hk, rfl⟩
        exact .inr ⟨x, _, .inr ⟨dot, _, ⟨f, _, h, rfl⟩, rfl⟩, rfl⟩
    | paren parens e =>
      rw [show next _ = Terminal.punct .lparen by simp]
      exact Language.enclosed_iff.mpr ⟨parens, e, k, hk, rfl⟩
    | unary op sign t =>
      rw [show next _ = Terminal.punct op.punct by simp]
      cases op <;> exact ⟨sign, _, ⟨t, k, hk, rfl⟩, rfl⟩

theorem starts_index (hK : Starts (continuesTerm · = false) K) :
    Starts (startsCall · = false) (.either K K.bracketed) := by
  refine starts_either (hK.mono fun t ht => ?_) (starts_token rfl)
  unfold continuesTerm at ht
  split at ht <;> simp_all [startsCall]

theorem number_tracks :
    Tracks (n + 1) (do
        let constant ← expect [.number]
        match constant.word? with
        | some value => emit (.push .constant value)
        | none => throw (.outOfRange constant))
      (.checked [.number] .constant K) fun _ => K := by
  refine checked_bind (fun _ => rfl) (by simp) (fun l s hf hs => ?_) fun l s e hf => ?_
  · cases hv : l.token.word? with
    | none => simp [Mention.fault, hv] at hf
    | some value => exact (silent_emit _).stay _ s rfl hs
  · cases hv : l.token.word? with
    | some value => simp [Mention.fault, hv] at hf
    | none =>
      obtain rfl : CompileError.outOfRange l.token = e := by simpa [Mention.fault, hv] using hf
      rfl

theorem silent_stringConstant (lexeme : Text) : Silent id (stringConstant lexeme) := by
  have hl : ∀ codes : List Nat, Silent id (forIn codes PUnit.unit fun (code : Nat) _ => do
      emit (.push .constant code)
      emit (.call "String.appendChar" 2)
      pure (ForInStep.yield PUnit.unit) : Pass PUnit) := by
    intro codes
    induction codes with
    | nil => exact silent_pure _
    | cons code codes ih =>
      rw [List.forIn_cons]
      refine Silent.andThen ?_ fun next => ?_
      · exact (silent_emit _).andThen fun _ => (silent_emit _).andThen fun _ => silent_pure _
      · cases next with
        | done => exact silent_pure _
        | yield => exact ih
  exact (silent_emit _).andThen fun _ => (silent_emit _).andThen fun _ => (hl _).andThen fun _ =>
    silent_pure _

theorem named_tracks (hp : TracksExpressions n p) (hK : Starts (continuesTerm · = false) K) :
    Tracks (n + 1) (do
        let name ← ident
        match ← peek with
        | .punct .lparen | .punct .dot => callBy p n name
        | .punct .lbracket =>
          let array ← resolve name
          punct .lbracket
          p
          punct .rbracket
          pushVariable array
          emit (.arithmetic .add)
          emit (.pop .pointer 1)
          emit (.push .that 0)
        | _ => pushVariable (← resolve name))
      (.named K.callRest (.either K K.bracketed)) fun _ => K := by
  refine name_bind startsCall rfl starts_callRest (starts_index hK) ?_ ?_
  · intro x t ht
    split
    · exact callBy_takes hp _ rfl
    · exact callBy_takes hp _ rfl
    · simp [startsCall] at ht
    · unfold startsCall at ht
      split at ht <;> simp_all
  · intro x t ht
    split
    · simp [startsCall] at ht
    · simp [startsCall] at ht
    · refine ⟨_, rfl, fun v => TracksAt.narrow ?_ (narrows_right (fun _ _ => Iff.rfl) (hK.mono ?_))⟩
      · refine Tracks.bind (token_tracks (by simp)) (fun _ => ?_) _
        refine (hp _ (starts_token rfl)).bind fun _ => (token_tracks (by simp)).bind fun _ => ?_
        refine (silent_emit _).skip fun _ => (silent_emit _).skip fun _ => ?_
        exact (silent_emit _).skip fun _ => (silent_emit _).stay
      · rintro _ h rfl
        simp [continuesTerm] at h
    · refine ⟨_, rfl, fun v => TracksAt.narrow ((silent_emit _).stay _)
        (narrows_left (fun _ _ => Iff.rfl) (starts_token ?_))⟩
      rintro rfl
      simp_all

theorem termBy_tracks (hp : TracksTerms n p) : TracksTerms (n + 1) (termBy p n) := by
  have he := expressionBy_tracks hp
  intro K hK
  refine .within (.peek_bind fun t => ?_)
  split
  case h_1 => exact (number_tracks _).narrow (narrows_termsAt rfl)
  case h_2 =>
    refine TracksAt.narrow ?_ (narrows_termsAt rfl)
    exact expect_bind (by simp) (fun l => (silent_stringConstant _).stay) _
  case h_3 =>
    refine TracksAt.narrow ?_ (narrows_termsAt rfl)
    exact token_bind (by simp) ((silent_emit _).skip fun _ => (silent_emit _).stay) _
  case h_4 =>
    refine TracksAt.narrow ?_ (narrows_termsAt rfl)
    exact token_bind (by simp) (silent_emit _).stay _
  case h_5 =>
    refine TracksAt.narrow ?_ (narrows_termsAt rfl)
    exact token_bind (by simp) (silent_emit _).stay _
  case h_6 =>
    refine TracksAt.narrow ?_ (narrows_termsAt rfl)
    exact token_bind (by simp) (silent_emit _).stay _
  case h_7 => exact (named_tracks he hK _).narrow (narrows_termsAt rfl)
  case h_8 =>
    refine TracksAt.narrow ?_ (narrows_termsAt rfl)
    exact token_bind (by simp) ((he _ (starts_token rfl)).bind fun _ => token_tracks (by simp)) _
  case h_9 =>
    refine TracksAt.narrow ?_ (narrows_termsAt rfl)
    exact token_bind (by simp) ((hp _ hK).bind fun _ => (silent_emit _).stay) _
  case h_10 =>
    refine TracksAt.narrow ?_ (narrows_termsAt rfl)
    exact token_bind (by simp) ((hp _ hK).bind fun _ => (silent_emit _).stay) _
  case h_11 =>
    refine TracksAt.reject (starts_terms.mono ?_) (by simp)
    rintro _ ht rfl
    unfold startsTerm at ht
    split at ht <;> simp_all

theorem term_tracks (n : Nat) : TracksTerms n (term n) := by
  induction n with
  | zero =>
    refine fun K _ => .zero (.within (.reject (starts_terms.mono ?_) (by simp)))
    rintro _ ht rfl
    simp [startsTerm] at ht
  | succ n ih => exact termBy_tracks ih

theorem expression_tracks (n : Nat) : TracksExpressions n (expression n) :=
  expressionBy_tracks (term_tracks n)

end Jack.Pass
