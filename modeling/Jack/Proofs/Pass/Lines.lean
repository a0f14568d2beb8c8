import Jack.Compile.Unit

/-! Lines play no part in the pass. Run on tokens whose lines are taken off, it does the same, with the lines
taken off what it gives. -/

namespace Jack

/-- The token without its line. -/
def Token.unlined (t : Token) : Token := { t with line := 0 }

/-- The error without the line of its token. -/
def CompileError.unlined : CompileError → CompileError
  | .unexpected t expected => .unexpected t.unlined expected
  | .outOfRange t => .outOfRange t.unlined
  | .undefined t => .undefined t.unlined

def Trace.Entry.unlined : Trace.Entry → Trace.Entry
  | .terminal t => .terminal t.unlined
  | e => e

def Source.unlined (source : Source) : Source :=
  { source with tokens := source.tokens.map Token.unlined, endLine := 0 }

def Compiled.unlined (u : Compiled) : Compiled := { u with trace := u.trace.map Trace.Entry.unlined }

namespace Pass

def State.unlined (s : State) : State :=
  { s with
    peek := s.peek.unlined
    source := s.source.unlined
    trace := s.trace.map Trace.Entry.unlined }

theorem next_unlined (source : Source) :
    source.unlined.next = (source.next.1.unlined, source.next.2.unlined) := by
  unfold Source.next Source.unlined
  cases source.tokens <;> rfl

theorem State.start_unlined (source : Source) :
    State.start source.unlined = (State.start source).unlined := by
  unfold State.start
  rw [next_unlined]
  simp [State.unlined]

theorem State.accept_unlined (s : State) : s.unlined.accept = s.accept.unlined := by
  have hn : s.unlined.source.next = _ := next_unlined s.source
  unfold accept
  rw [hn]
  simp [unlined, Trace.Entry.unlined]

variable {α β γ δ : Type}

/-- The result of a step without its lines, where `g` takes them off the value. -/
def unline (g : α → β) :
    EStateM.Result CompileError State α → EStateM.Result CompileError State β
  | .ok a s => .ok (g a) s.unlined
  | .error e s => .error e.unlined s.unlined

/-- Without lines, `q` does what `p` does with them. -/
def Blind (g : α → β) (p : Pass α) (q : Pass β) : Prop :=
  ∀ s : State, q s.unlined = unline g (p s)

/-- A step that does not depend on lines and gives a value without them. -/
def LineBlind (p : Pass α) : Prop := Blind id p p

theorem Blind.bind {g : α → β} {h : γ → δ} {p : Pass α} {q : Pass β} {k : α → Pass γ} {l : β → Pass δ}
    (hp : Blind g p q) (hk : ∀ a, Blind h (k a) (l (g a))) : Blind h (p >>= k) (q >>= l) := by
  intro s
  change EStateM.bind q l s.unlined = unline h (EStateM.bind p k s)
  unfold EStateM.bind
  rw [hp s]
  cases p s with
  | ok a s₁ => exact hk a s₁
  | error e s₁ => rfl

theorem blind_throw {g : α → β} (e : CompileError) : Blind g (throw e) (throw e.unlined) :=
  fun _ => rfl

theorem blind_expect (terminals : List Terminal) :
    Blind Token.unlined (expect terminals) (expect terminals) := by
  intro s
  have hp : s.unlined.peek.terminal = s.peek.terminal := rfl
  unfold expect
  rw [s.accept_unlined, hp]
  split <;> rfl

theorem blind_resolve (use : Token) : Blind id (resolve use) (resolve use.unlined) := by
  intro s
  have hr : s.unlined.scopes.resolve? use.unlined.lexeme = s.scopes.resolve? use.lexeme := rfl
  unfold resolve
  rw [hr]
  cases s.scopes.resolve? use.lexeme <;> rfl

namespace LineBlind

variable {p : Pass α} {k : α → Pass β} {n : Nat} {select : Terminal → Option (Pass Unit)}

theorem pure (a : α) : LineBlind (Pure.pure a : Pass α) := fun _ => rfl

theorem bind (hp : LineBlind p) (hk : ∀ a, LineBlind (k a)) : LineBlind (p >>= k) :=
  Blind.bind hp hk

theorem discard (h : LineBlind p) : LineBlind (Functor.discard p) := h.bind fun _ => pure ()

theorem peek : LineBlind peek := fun _ => rfl

theorem reject (expected : Expectation) : LineBlind (reject expected : Pass α) := fun _ => rfl

theorem expect_bind {terminals : List Terminal} {k : Token → Pass β} (hk : ∀ t, k t.unlined = k t)
    (h : ∀ t, LineBlind (k t)) : LineBlind (expect terminals >>= k) := by
  refine (blind_expect terminals).bind fun t => ?_
  rw [hk]
  exact h t

theorem expect (terminals : List Terminal) : LineBlind (Functor.discard (expect terminals)) :=
  expect_bind (fun _ => rfl) fun _ => pure ()

theorem keyword (k : Keyword) : LineBlind (keyword k) := expect _

theorem punct (p : Punct) : LineBlind (punct p) := expect _

theorem emit (i : Instruction) : LineBlind (emit i) := fun _ => rfl

theorem note (n : Note) : LineBlind (note n) := fun _ => rfl

theorem ownSubroutine (name : Text) : LineBlind (ownSubroutine name) := fun _ => rfl

theorem get_bind {k : State → Pass β} (hk : ∀ s, k s.unlined = k s) (h : ∀ s, LineBlind (k s)) :
    LineBlind (get >>= k) := by
  intro s
  change k s.unlined s.unlined = unline id (k s s)
  rw [hk]
  exact h s s

theorem within {nonterminal : Nonterminal} (h : LineBlind p) : LineBlind (within nonterminal p) := by
  have hr : ∀ e : Trace.Entry, e.unlined = e → LineBlind (record e) := by
    intro e he s
    change EStateM.Result.ok () { s.unlined with trace := s.unlined.trace.push e } =
      EStateM.Result.ok () (State.unlined { s with trace := s.trace.push e })
    simp [State.unlined, he]
  exact (hr (.opened nonterminal) rfl).bind fun _ => h.bind fun a =>
    (hr (.closed nonterminal) rfl).bind fun _ => pure a

theorem repeatBy (h : ∀ t body, select t = some body → LineBlind body) (n : Nat) :
    LineBlind (repeatBy select n) := by
  induction n with
  | zero => exact pure 0
  | succ n ih =>
    refine peek.bind fun t => ?_
    split
    · exact pure 0
    · next body hb => exact (h t body hb).bind fun _ => ih.bind fun _ => pure _

theorem afterComma {item : Pass Unit} (h : LineBlind item) (n : Nat) :
    LineBlind (Pass.repeatBy (afterComma item) n) := by
  refine repeatBy (fun t body hb => ?_) n
  unfold Pass.afterComma at hb
  split at hb <;> cases hb
  exact (punct _).bind fun _ => h

theorem declare (name type : Text) (storage : Storage) : LineBlind (declare name type storage) :=
  fun _ => rfl

/-! Expressions. -/

theorem operationBy {term : Pass Unit} (h : LineBlind term) (n : Nat) :
    LineBlind (Pass.repeatBy (operationBy term) n) := by
  refine repeatBy (fun t body hb => ?_) n
  obtain ⟨i, -, rfl⟩ := Option.map_eq_some_iff.mp hb
  exact (expect [t]).bind fun _ => h.bind fun _ => emit i

theorem expressionBy {term : Pass Unit} (h : LineBlind term) (n : Nat) :
    LineBlind (expressionBy term n) :=
  within (h.bind fun _ => (operationBy h n).discard)

theorem expressionListBy {expression : Pass Unit} (h : LineBlind expression) (n : Nat) :
    LineBlind (expressionListBy expression n) := by
  refine within (peek.bind fun t => ?_)
  split
  · exact pure 0
  · exact h.bind fun _ => (afterComma h n).bind fun _ => pure _

theorem callBy {expression : Pass Unit} (h : LineBlind expression) (n : Nat) (name : Token) :
    LineBlind (callBy expression n name) := by
  have ha : ∀ callee receivers, LineBlind (do
      Pass.punct .lparen
      let arguments ← Pass.expressionListBy expression n
      Pass.punct .rparen
      Pass.emit (.call callee (receivers + arguments : Nat))) := by
    intro callee receivers
    exact (punct _).bind fun _ => (expressionListBy h n).bind fun _ => (punct _).bind fun _ => emit _
  refine peek.bind fun t => ?_
  dsimp only
  split
  · exact (emit _).bind fun _ => (ownSubroutine _).bind fun _ => (pure _).bind fun _ => ha _ _
  · refine (punct _).bind fun _ => expect_bind (fun _ => rfl) fun subroutine => ?_
    refine get_bind (fun _ => rfl) fun s => ?_
    split
    · exact (emit _).bind fun _ => (pure _).bind fun _ => ha _ _
    · exact (pure _).bind fun _ => ha _ _

theorem stringConstant (lexeme : Text) : LineBlind (stringConstant lexeme) := by
  have hc : ∀ codes : List Nat, LineBlind (forIn codes PUnit.unit fun (code : Nat) _ => do
      Pass.emit (.push .constant code)
      Pass.emit (.call "String.appendChar" 2)
      Pure.pure (ForInStep.yield PUnit.unit)) := by
    intro codes
    induction codes with
    | nil => exact pure _
    | cons code codes ih =>
      rw [List.forIn_cons]
      exact ((emit _).bind fun _ => (emit _).bind fun _ => pure _).bind fun step => by
        cases step
        · exact pure _
        · exact ih
  exact (emit _).bind fun _ => (emit _).bind fun _ => (hc _).bind fun _ => pure _

theorem number : LineBlind (do
    let constant ← Pass.expect [.number]
    match constant.word? with
    | some value => Pass.emit (.push .constant value)
    | none => throw (.outOfRange constant)) := by
  refine (blind_expect _).bind fun constant => ?_
  have hw : constant.unlined.word? = constant.word? := rfl
  rw [hw]
  cases constant.word? with
  | some value => exact emit _
  | none => exact blind_throw _

theorem termBy {inner : Pass Unit} (h : LineBlind inner) (n : Nat) : LineBlind (termBy inner n) := by
  have he := expressionBy h n
  refine within (peek.bind fun t => ?_)
  split
  · exact number
  · exact expect_bind (fun _ => rfl) fun constant => stringConstant _
  · exact (keyword _).bind fun _ => (emit _).bind fun _ => emit _
  · exact (keyword _).bind fun _ => emit _
  · exact (keyword _).bind fun _ => emit _
  · exact (keyword _).bind fun _ => emit _
  · refine (blind_expect _).bind fun name => Blind.bind peek fun t => ?_
    unfold id
    split
    · exact callBy he n name
    · exact callBy he n name
    · refine (blind_resolve name).bind fun array => ?_
      exact (punct _).bind fun _ => he.bind fun _ => (punct _).bind fun _ => (emit _).bind fun _ =>
        (emit _).bind fun _ => (emit _).bind fun _ => emit _
    · exact (blind_resolve name).bind fun v => emit _
  · exact (punct _).bind fun _ => he.bind fun _ => punct _
  · exact (punct _).bind fun _ => h.bind fun _ => emit _
  · exact (punct _).bind fun _ => h.bind fun _ => emit _
  · exact reject _

theorem term (n : Nat) : LineBlind (term n) := by
  induction n with
  | zero => exact within (reject _)
  | succ n ih => exact termBy ih n

theorem expression (n : Nat) : LineBlind (expression n) := expressionBy (term n) n

theorem call (n : Nat) (name : Token) : LineBlind (call n name) := callBy (expression n) n name

/-! Statements. -/

theorem letStatement (n : Nat) : LineBlind (letStatement n) := by
  refine within ((keyword _).bind fun _ => (blind_expect _).bind fun name => ?_)
  refine (blind_resolve name).bind fun target => peek.bind fun t => ?_
  split
  · refine (punct _).bind fun _ => (expression n).bind fun _ => (punct _).bind fun _ => ?_
    refine (emit _).bind fun _ => (emit _).bind fun _ => (punct _).bind fun _ => ?_
    refine (expression n).bind fun _ => (punct _).bind fun _ => (emit _).bind fun _ => ?_
    exact (emit _).bind fun _ => (emit _).bind fun _ => emit _
  · exact (punct _).bind fun _ => (expression n).bind fun _ => (punct _).bind fun _ => emit _

theorem block {statements : Pass Unit} (h : LineBlind statements) : LineBlind (block statements) :=
  (punct _).bind fun _ => h.bind fun _ => punct _

theorem condition (n : Nat) : LineBlind (condition n) :=
  (punct _).bind fun _ => (expression n).bind fun _ => punct _

theorem ifStatement {statements : Pass Unit} (h : LineBlind statements) (n : Nat) :
    LineBlind (ifStatement statements n) := by
  have hi : LineBlind (modifyGet fun s => (s.nextIf, { s with nextIf := s.nextIf + 1 })) := fun _ => rfl
  refine within (hi.bind fun i => (keyword _).bind fun _ => (condition n).bind fun _ => ?_)
  refine (emit _).bind fun _ => (emit _).bind fun _ => (emit _).bind fun _ => ?_
  refine (block h).bind fun _ => peek.bind fun t => ?_
  split
  · exact (emit _).bind fun _ => (emit _).bind fun _ => (keyword _).bind fun _ =>
      (block h).bind fun _ => emit _
  · exact emit _

theorem whileStatement {statements : Pass Unit} (h : LineBlind statements) (n : Nat) :
    LineBlind (whileStatement statements n) := by
  have hi : LineBlind (modifyGet fun s => (s.nextWhile, { s with nextWhile := s.nextWhile + 1 })) :=
    fun _ => rfl
  refine within (hi.bind fun i => (emit _).bind fun _ => (keyword _).bind fun _ => ?_)
  refine (condition n).bind fun _ => (emit _).bind fun _ => (emit _).bind fun _ => ?_
  exact (block h).bind fun _ => (emit _).bind fun _ => emit _

theorem doStatement (n : Nat) : LineBlind (doStatement n) := by
  refine within ((keyword _).bind fun _ => expect_bind (fun _ => rfl) fun name => ?_)
  exact (call n name).bind fun _ => (punct _).bind fun _ => emit _

theorem returnStatement (n : Nat) : LineBlind (returnStatement n) := by
  refine within ((keyword _).bind fun _ => peek.bind fun t => ?_)
  split
  · exact (emit _).bind fun _ => (punct _).bind fun _ => emit _
  · exact (expression n).bind fun _ => (punct _).bind fun _ => emit _

theorem statements (n : Nat) : LineBlind (statements n) := by
  induction n with
  | zero => exact within (pure ())
  | succ n ih =>
    refine within (discard (repeatBy (fun t body hb => ?_) (n + 1)))
    unfold statementBy at hb
    split at hb <;> cases hb
    · exact letStatement n
    · exact ifStatement ih n
    · exact whileStatement ih n
    · exact doStatement n
    · exact returnStatement n

/-! Declarations. -/

theorem declareNext (type : Text) (storage : Storage) : LineBlind (declareNext type storage) :=
  expect_bind (fun _ => rfl) fun _ => declare _ _ _

theorem varNames (storage : Storage) (n : Nat) : LineBlind (varNames storage n) := by
  refine expect_bind (fun _ => rfl) fun type => (declareNext _ _).bind fun _ => ?_
  exact (afterComma (declareNext _ _) n).discard.bind fun _ => punct _

theorem classVarDec (n : Nat) : LineBlind (classVarDec n) :=
  within (expect_bind (fun _ => rfl) fun _ => varNames _ n)

theorem varDec (n : Nat) : LineBlind (varDec n) := within ((keyword _).bind fun _ => varNames _ n)

theorem parameter : LineBlind parameter := expect_bind (fun _ => rfl) fun _ => declareNext _ _

theorem parameterList (n : Nat) : LineBlind (parameterList n) := by
  refine within (peek.bind fun t => ?_)
  split
  · exact pure ()
  · exact parameter.bind fun _ => (afterComma parameter n).discard

theorem prologue (kind : Terminal) : LineBlind (prologue kind) := by
  unfold Pass.prologue
  split
  · exact get_bind (fun _ => rfl) fun _ => (emit _).bind fun _ => (emit _).bind fun _ => emit _
  · exact (emit _).bind fun _ => emit _
  · exact pure ()

theorem subroutineBody (name : Text) (kind : Terminal) (n : Nat) :
    LineBlind (subroutineBody name kind n) := by
  have hv : LineBlind (Pass.repeatBy (varDecBy n) n) := by
    refine repeatBy (fun t body hb => ?_) n
    unfold varDecBy at hb
    split at hb <;> cases hb
    exact varDec n
  refine within ((punct _).bind fun _ => hv.discard.bind fun _ => get_bind (fun _ => rfl) fun s => ?_)
  exact (emit _).bind fun _ => (note _).bind fun _ => (prologue kind).bind fun _ =>
    (statements n).bind fun _ => punct _

theorem subroutineDec (n : Nat) : LineBlind (subroutineDec n) := by
  have hs : LineBlind startSubroutine := fun _ => rfl
  have hr : ∀ kind : Token, LineBlind (do
      Functor.discard <| Pass.expect (.keyword .void :: typeTerminals)
      let name ← Pass.ownSubroutine (← ident).lexeme
      Pass.punct .lparen
      Pass.parameterList n
      Pass.punct .rparen
      Pass.subroutineBody name kind.terminal n) := by
    intro kind
    refine (expect _).bind fun _ => expect_bind (fun _ => rfl) fun name => ?_
    refine (ownSubroutine _).bind fun _ => (punct _).bind fun _ => (parameterList n).bind fun _ => ?_
    exact (punct _).bind fun _ => subroutineBody _ _ n
  refine within (hs.bind fun _ => expect_bind (fun _ => rfl) fun kind => ?_)
  dsimp only
  split
  · exact get_bind (fun _ => rfl) fun s => (declare _ _ _).bind fun _ => hr kind
  · exact hr kind

theorem classDec (n : Nat) : LineBlind (classDec n) := by
  have hv : LineBlind (Pass.repeatBy (classVarDecBy n) n) := by
    refine repeatBy (fun t body hb => ?_) n
    unfold classVarDecBy at hb
    split at hb <;> cases hb <;> exact classVarDec n
  have hd : LineBlind (Pass.repeatBy (subroutineDecBy n) n) := by
    refine repeatBy (fun t body hb => ?_) n
    unfold subroutineDecBy at hb
    split at hb <;> cases hb <;> exact subroutineDec n
  refine within ((keyword _).bind fun _ => expect_bind (fun _ => rfl) fun name => ?_)
  refine bind (fun _ => rfl) fun _ => (note _).bind fun _ => (punct _).bind fun _ => ?_
  exact hv.discard.bind fun _ => hd.discard.bind fun _ => punct _

theorem wholeClass (n : Nat) : LineBlind (wholeClass n) := by
  refine (classDec n).bind fun _ => peek.bind fun t => ?_
  split
  · exact reject _
  · exact pure ()

end LineBlind

end Pass

/-! Compiling. -/

theorem Trace.lines_unlined (depth : Nat) (entries : List Trace.Entry) :
    Trace.lines depth (entries.map Trace.Entry.unlined) = Trace.lines depth entries := by
  induction entries generalizing depth with
  | nil => rfl
  | cons e entries ih => cases e <;> exact congrArg (_ :: ·) (ih _)

/-- An outcome without lines. -/
def unlinedOutcome : Except CompileError Compiled → Except CompileError Compiled
  | .ok u => .ok u.unlined
  | .error e => .error e.unlined

theorem outcome_unlined (source : Source) :
    (compile source.unlined).outcome = unlinedOutcome (compile source).outcome := by
  unfold compile
  rw [Pass.State.start_unlined]
  generalize Pass.State.start source = s
  have hl : s.unlined.source.tokens.length = s.source.tokens.length := List.length_map _
  have hw := Pass.LineBlind.wholeClass (s.source.tokens.length + 1) s
  unfold Pass.State.compile EStateM.run
  rw [hl, hw]
  cases Pass.wholeClass (s.source.tokens.length + 1) s with
  | ok _ s =>
    simp only [Pass.unline, unlinedOutcome, Compiled.unlined, Pass.State.unlined, Array.toList_map]
  | error e s => rfl

/-- Outcomes that differ in lines at most: the same class, code and trace, or the same error but for its
line. -/
def SameButLines : Except CompileError Compiled → Except CompileError Compiled → Prop
  | .ok u, .ok v =>
    u.className = v.className ∧ u.instructions = v.instructions ∧ u.traceLines = v.traceLines
  | .error d, .error e => d.unlined = e.unlined
  | _, _ => False

theorem sameButLines_of_unlined {r r' : Except CompileError Compiled}
    (h : unlinedOutcome r = unlinedOutcome r') : SameButLines r r' := by
  cases r with
  | ok u =>
    cases r' with
    | ok v =>
      have hu : u.unlined = v.unlined := Except.ok.inj h
      have hc : u.unlined.className = v.unlined.className := by rw [hu]
      have hi : u.unlined.instructions = v.unlined.instructions := by rw [hu]
      have ht : u.unlined.traceLines = v.unlined.traceLines := by rw [hu]
      unfold Compiled.traceLines Compiled.unlined at ht
      rw [Trace.lines_unlined, Trace.lines_unlined] at ht
      exact ⟨hc, hi, ht⟩
    | error e => cases h
  | error d =>
    cases r' with
    | ok v => cases h
    | error e => exact Except.error.inj h

end Jack
