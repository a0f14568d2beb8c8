import Jack.Proofs.Pass.Execution

/-! The pass ends by itself. The bound that a procedure takes is never what ends it: with fewer tokens left
than the bound, every larger bound has the same execution, step for step. There is a rule for each step of
the pass, and each turn of a loop takes a token. -/

namespace Jack.Pass

variable {α β : Type} {k b : Nat}

/-- With fewer than `k` tokens left, the procedures of a family have one and the same execution for all
bounds from `b` on. -/
def Settles (k b : Nat) (P : Nat → Pass α) : Prop :=
  ∀ s : State, s.ahead.length < k → ∃ moments r, ∀ n, b ≤ n → Execution Primitive (P n) s moments r

/-- They settle, and if they succeed they have taken a token. -/
def Takes (k b : Nat) (P : Nat → Pass α) : Prop :=
  ∀ s : State, s.ahead.length < k → ∃ moments r, (∀ n, b ≤ n → Execution Primitive (P n) s moments r) ∧
    ∀ a s', r = .ok a s' → s'.ahead.length < s.ahead.length

theorem Primitive.settles {p : Pass α} (h : Primitive p) : Settles k b fun _ => p :=
  fun s _ => ⟨[s], p s, fun _ _ => .step h⟩

namespace Settles

variable {P : Nat → Pass α} {Q : Nat → α → Pass β}

theorem mono {k' b' : Nat} (h : Settles k b P) (hk : k' ≤ k) (hb : b ≤ b') : Settles k' b' P := by
  intro s hs
  obtain ⟨moments, r, he⟩ := h s (by omega)
  exact ⟨moments, r, fun n hn => he n (by omega)⟩

theorem bind (hP : Settles k b P) (hQ : ∀ a, Settles k b fun n => Q n a) :
    Settles k b fun n => P n >>= Q n := by
  intro s hs
  obtain ⟨front, r, hp⟩ := hP s hs
  cases r with
  | error e s₁ => exact ⟨front, .error e s₁, fun n hn => .abort (hp n hn)⟩
  | ok a s₁ =>
    have hl : s₁.ahead.length ≤ s.ahead.length := (hp b (Nat.le_refl b)).length_ahead_le
    obtain ⟨back, r, hq⟩ := hQ a s₁ (by omega)
    exact ⟨front ++ back, r, fun n hn => .bind (hp n hn) (hq n hn)⟩

theorem discard (h : Settles k b P) : Settles k b fun n => Functor.discard (P n) :=
  h.bind fun _ => (Primitive.pure ()).settles

theorem ite {c : Prop} [Decidable c] {P' : Nat → Pass α} (h : c → Settles k b P)
    (h' : ¬ c → Settles k b P') : Settles k b fun n => if c then P n else P' n := by
  by_cases hc : c
  · simpa only [hc, if_true] using h hc
  · simpa only [hc, if_false] using h' hc

end Settles

theorem Primitive.before {p : Pass α} {Q : Nat → α → Pass β} (h : Primitive p)
    (hQ : ∀ a, Settles k b fun n => Q n a) : Settles k b fun n => p >>= Q n :=
  h.settles.bind hQ

namespace Takes

variable {P : Nat → Pass α} {Q : Nat → α → Pass β}

theorem settles (h : Takes k b P) : Settles k b P := by
  intro s hs
  obtain ⟨moments, r, he, _⟩ := h s hs
  exact ⟨moments, r, he⟩

/-- Behind the token taken, there is one less. -/
theorem bindBelow (hP : Takes (k + 1) b P) (hQ : ∀ a, Settles k b fun n => Q n a) :
    Takes (k + 1) b fun n => P n >>= Q n := by
  intro s hs
  obtain ⟨front, r, hp, ht⟩ := hP s hs
  cases r with
  | error e s₁ => exact ⟨front, .error e s₁, fun n hn => .abort (hp n hn), by simp⟩
  | ok a s₁ =>
    have hlt : s₁.ahead.length < s.ahead.length := ht a s₁ rfl
    obtain ⟨back, r, hq⟩ := hQ a s₁ (by omega)
    refine ⟨front ++ back, r, fun n hn => .bind (hp n hn) (hq n hn), ?_⟩
    rintro c s' rfl
    have hle : s'.ahead.length ≤ s₁.ahead.length := (hq b (Nat.le_refl b)).length_ahead_le
    omega

theorem bind (hP : Takes k b P) (hQ : ∀ a, Settles k b fun n => Q n a) :
    Takes k b fun n => P n >>= Q n := by
  cases k with
  | zero => exact fun s hs => absurd hs (Nat.not_lt_zero _)
  | succ k => exact hP.bindBelow fun a => (hQ a).mono (Nat.le_succ k) (Nat.le_refl b)

/-- Steps may come before the one that takes a token. -/
theorem after (hP : Settles k b P) (hQ : ∀ a, Takes k b fun n => Q n a) :
    Takes k b fun n => P n >>= Q n := by
  intro s hs
  obtain ⟨front, r, hp⟩ := hP s hs
  cases r with
  | error e s₁ => exact ⟨front, .error e s₁, fun n hn => .abort (hp n hn), by simp⟩
  | ok a s₁ =>
    have hle : s₁.ahead.length ≤ s.ahead.length := (hp b (Nat.le_refl b)).length_ahead_le
    obtain ⟨back, r, hq, ht⟩ := hQ a s₁ (by omega)
    refine ⟨front ++ back, r, fun n hn => .bind (hp n hn) (hq n hn), fun c s' hr => ?_⟩
    have hlt := ht c s' hr
    omega

end Takes

/-! Steps. -/

theorem declare_settles (name type : Text) (storage : Storage) :
    Settles k b fun _ => declare name type storage :=
  (Primitive.place name type storage).before fun _ => (Primitive.note _).settles

theorem expect_takes_one {terminals : List Terminal} (hk : ∀ t ∈ terminals, t.category ≠ .unknown) :
    Takes k b fun _ => expect terminals := by
  intro s _
  refine ⟨[s], expect terminals s, fun _ _ => .step (.expect terminals hk), ?_⟩
  intro t s' hr
  unfold expect at hr
  split at hr
  case isTrue hm =>
    cases hr
    have hp : s.peek.terminal ≠ .eof := Terminal.ne_eof_of_category (hk _ hm)
    rw [s.ahead_eq_cons hp, List.length_cons]
    omega
  case isFalse => simp at hr

theorem keyword_takes (w : Keyword) : Takes k b fun _ => keyword w :=
  (expect_takes_one (by simp [Terminal.category])).bind fun _ => (Primitive.pure ()).settles

theorem punct_takes (p : Punct) : Takes k b fun _ => punct p :=
  (expect_takes_one (by simp [Terminal.category])).bind fun _ => (Primitive.pure ()).settles

theorem ident_takes : Takes k b fun _ => ident := expect_takes_one (by simp [Terminal.category])

theorem type_takes : Takes k b fun _ => expect typeTerminals :=
  expect_takes_one (by simp [typeTerminals, Terminal.category])

theorem within_settles {P : Nat → Pass α} {nonterminal : Nonterminal} (h : Settles k b P) :
    Settles k b fun n => within nonterminal (P n) :=
  (Primitive.opened nonterminal).before fun _ => h.bind fun a =>
    (Primitive.closed nonterminal).before fun _ => (Primitive.pure a).settles

theorem within_takes {P : Nat → Pass α} {nonterminal : Nonterminal} (h : Takes k b P) :
    Takes k b fun n => within nonterminal (P n) :=
  .after (Primitive.opened nonterminal).settles fun _ => h.bind fun a =>
    (Primitive.closed nonterminal).before fun _ => (Primitive.pure a).settles

section

variable {select : Terminal → Option (Pass Unit)} {s : State} {m : Nat}

theorem peek_execution (s : State) : Execution Primitive peek s [s] (.ok s.peek.terminal s) :=
  .step .peek

theorem pure_execution (a : α) (s : State) : Execution Primitive (pure a : Pass α) s [s] (.ok a s) :=
  .step (.pure a)

/-- The last turn of a loop. -/
theorem repeatBy_execution_done (h : select s.peek.terminal = none) :
    Execution Primitive (repeatBy select (m + 1)) s ([s] ++ [s]) (.ok 0 s) := by
  refine .bind (peek_execution s) ?_
  simp only [h]
  exact pure_execution 0 s

/-- A turn of a loop, and what the loop goes on with. -/
theorem repeatBy_execution_more {body : Pass Unit} {moments : List State} {r : Result Nat}
    (h : select s.peek.terminal = some body)
    (hb : Execution Primitive (body >>= fun _ => repeatBy select m >>= fun c => pure (c + 1)) s moments r) :
    Execution Primitive (repeatBy select (m + 1)) s ([s] ++ moments) r := by
  refine .bind (peek_execution s) ?_
  simp only [h]
  exact hb

end

/-- A loop whose turns each take a token ends before its bound is reached. -/
theorem repeatBy_settles {S : Nat → Terminal → Option (Pass Unit)} {limit : Nat → Nat}
    (turn : ∀ t, (∀ n, S n t = none) ∨ ∃ B, (∀ n, S n t = some (B n)) ∧ Takes k b B)
    (hl : ∀ n, b ≤ n → k ≤ limit n) : Settles k b fun n => repeatBy (S n) (limit n) := by
  -- The induction is on a number that is above the tokens left and not above the bound.
  have loop : ∀ j, j ≤ k → ∀ s : State, s.ahead.length < j →
      ∃ moments r, ∀ n, b ≤ n → ∀ m, j ≤ m → Execution Primitive (repeatBy (S n) m) s moments r := by
    intro j
    induction j with
    | zero => exact fun _ s hs => absurd hs (Nat.not_lt_zero _)
    | succ j ih =>
      intro hj s hs
      have bound : ∀ {m}, j + 1 ≤ m → ∃ m', m = m' + 1 := fun {m} hm => ⟨m - 1, by omega⟩
      rcases turn s.peek.terminal with hn | ⟨B, hB, hT⟩
      · refine ⟨[s] ++ [s], .ok 0 s, fun n _ m hm => ?_⟩
        obtain ⟨m, rfl⟩ := bound hm
        exact repeatBy_execution_done (hn n)
      obtain ⟨front, r, hb, ht⟩ := hT s (by omega)
      cases r with
      | error e s₁ =>
        refine ⟨[s] ++ front, .error e s₁, fun n hn m hm => ?_⟩
        obtain ⟨m, rfl⟩ := bound hm
        exact repeatBy_execution_more (hB n) (.abort (hb n hn))
      | ok u s₁ =>
        have hlt : s₁.ahead.length < s.ahead.length := ht u s₁ rfl
        obtain ⟨back, r, hr⟩ := ih (by omega) s₁ (by omega)
        cases r with
        | error e s₂ =>
          refine ⟨[s] ++ (front ++ back), .error e s₂, fun n hn m hm => ?_⟩
          obtain ⟨m, rfl⟩ := bound hm
          exact repeatBy_execution_more (hB n) (.bind (hb n hn) (.abort (hr n hn m (by omega))))
        | ok c s₂ =>
          refine ⟨[s] ++ (front ++ (back ++ [s₂])), .ok (c + 1) s₂, fun n hn m hm => ?_⟩
          obtain ⟨m, rfl⟩ := bound hm
          refine repeatBy_execution_more (hB n) (.bind (hb n hn) ?_)
          exact .bind (hr n hn m (by omega)) (pure_execution (c + 1) s₂)
  intro s hs
  obtain ⟨moments, r, he⟩ := loop k (Nat.le_refl k) s hs
  exact ⟨moments, r, fun n hn => he n hn (limit n) (hl n hn)⟩

theorem afterComma_settles {item : Nat → Pass Unit} (h : Settles k b item) (hk : k ≤ b) :
    Settles k b fun n => repeatBy (afterComma (item n)) n := by
  refine repeatBy_settles (fun t => ?_) fun n hn => Nat.le_trans hk hn
  by_cases ht : t = .punct .comma
  · subst ht
    exact .inr ⟨_, fun n => rfl, (punct_takes .comma).bind fun _ => h⟩
  · left
    intro n
    unfold afterComma
    split
    · exact absurd rfl ht
    · rfl

/-! Expressions. -/

section

variable {T : Nat → Pass Unit}

theorem operations_settles (h : Settles k b T) (hk : k ≤ b) :
    Settles k b fun n => repeatBy (operationBy (T n)) n := by
  refine repeatBy_settles (fun t => ?_) fun n hn => Nat.le_trans hk hn
  cases ho : operation? t with
  | none => exact .inl fun n => by simp [operationBy, ho]
  | some i =>
    have ht : ∀ t' ∈ [t], t'.category ≠ .unknown := by
      rw [List.forall_mem_singleton]
      cases t <;> simp_all [operation?, Terminal.category]
    have hd : Takes k b fun _ => discard (expect [t]) :=
      (expect_takes_one ht).bind fun _ => (Primitive.pure ()).settles
    have hs : ∀ n, operationBy (T n) t = some (discard (expect [t]) >>= fun _ => T n >>= fun _ => emit i) :=
      fun n => by simp [operationBy, ho]
    exact .inr ⟨_, hs, hd.bind fun _ => h.bind fun _ => (Primitive.emit i).settles⟩

theorem expressionBy_settles (h : Settles k b T) (hk : k ≤ b) :
    Settles k b fun n => expressionBy (T n) n :=
  within_settles (h.bind fun _ => (operations_settles h hk).discard)

theorem expressionListBy_settles {E : Nat → Pass Unit} (h : Settles k b E) (hk : k ≤ b) :
    Settles k b fun n => expressionListBy (E n) n := by
  refine within_settles (Primitive.peek.before fun t => ?_)
  refine .ite (fun _ => (Primitive.pure 0).settles) fun _ => ?_
  exact h.bind fun _ => (afterComma_settles h hk).bind fun _ => (Primitive.pure _).settles

theorem callBy_settles {E : Nat → Pass Unit} (h : Settles k b E) (hk : k ≤ b) (name : Token) :
    Settles k b fun n => callBy (E n) n name := by
  have arguments : ∀ callee receivers, Settles k b fun n => (do
      punct .lparen
      let arguments ← expressionListBy (E n) n
      punct .rparen
      emit (.call callee (receivers + arguments : Nat))) := by
    intro callee receivers
    refine (punct_takes .lparen).settles.bind fun _ => (expressionListBy_settles h hk).bind fun _ => ?_
    exact (punct_takes .rparen).settles.bind fun _ => (Primitive.emit _).settles
  refine Primitive.peek.before fun t => ?_
  dsimp only
  refine .ite (fun _ => ?_) fun _ => ?_
  · refine (Primitive.emit _).before fun _ => (Primitive.ownSubroutine _).before fun _ => ?_
    exact (Primitive.pure _).before fun _ => arguments _ _
  · refine (punct_takes .dot).settles.bind fun _ => ident_takes.settles.bind fun subroutine => ?_
    refine Primitive.get.before fun s => ?_
    cases s.scopes.resolve? name.lexeme with
    | some object =>
      exact (Primitive.emit _).before fun _ => (Primitive.pure _).before fun _ => arguments _ _
    | none => exact (Primitive.pure _).before fun _ => arguments _ _

theorem stringConstant_settles (lexeme : Text) : Settles k b fun _ => stringConstant lexeme := by
  have append : ∀ codes : List Nat, Settles k b fun _ =>
      (forIn codes PUnit.unit fun (code : Nat) _ => do
        emit (.push .constant code)
        emit (.call "String.appendChar" 2)
        pure (ForInStep.yield PUnit.unit) : Pass PUnit) := by
    intro codes
    induction codes with
    | nil => exact (Primitive.pure _).settles
    | cons code codes ih =>
      simp only [List.forIn_cons]
      have one : Settles k b fun _ => (do
          emit (.push .constant code)
          emit (.call "String.appendChar" 2)
          pure (ForInStep.yield PUnit.unit) : Pass (ForInStep PUnit)) :=
        (Primitive.emit _).before fun _ => (Primitive.emit _).before fun _ => (Primitive.pure _).settles
      refine one.bind fun step => ?_
      cases step with
      | done => exact (Primitive.pure _).settles
      | yield => exact ih
  refine (Primitive.emit _).before fun _ => (Primitive.emit _).before fun _ => ?_
  exact (append _).bind fun _ => (Primitive.pure _).settles

theorem termBy_settles (h : Settles k b T) (hk : k ≤ b) :
    Settles (k + 1) b fun n => termBy (T n) n := by
  have he := expressionBy_settles h hk
  refine within_settles (Primitive.peek.before fun t => ?_)
  cases t with
  | number =>
    refine (expect_takes_one (by simp [Terminal.category])).settles.bind fun constant => ?_
    cases constant.word? with
    | some value => exact (Primitive.emit _).settles
    | none => exact (Primitive.outOfRange constant).settles
  | string =>
    refine (expect_takes_one (by simp [Terminal.category])).settles.bind fun constant => ?_
    exact stringConstant_settles _
  | ident =>
    -- The name is one token, so there is one less for what is nested behind it.
    refine (ident_takes.bindBelow fun name => Primitive.peek.before fun t => ?_).settles
    have use : Settles k b fun _ => resolve name >>= pushVariable :=
      (Primitive.resolve name).before fun _ => (Primitive.emit _).settles
    cases t with
    | punct p =>
      cases p with
      | lparen => exact callBy_settles he hk name
      | dot => exact callBy_settles he hk name
      | lbracket =>
        refine (Primitive.resolve name).before fun array => (punct_takes _).settles.bind fun _ => ?_
        refine he.bind fun _ => (punct_takes _).settles.bind fun _ => ?_
        refine (Primitive.emit _).before fun _ => (Primitive.emit _).before fun _ => ?_
        exact (Primitive.emit _).before fun _ => (Primitive.emit _).settles
      | _ => exact use
    | _ => exact use
  | keyword w =>
    cases w with
    | true =>
      refine (keyword_takes _).settles.bind fun _ => ?_
      exact (Primitive.emit _).before fun _ => (Primitive.emit _).settles
    | false => exact (keyword_takes _).settles.bind fun _ => (Primitive.emit _).settles
    | null => exact (keyword_takes _).settles.bind fun _ => (Primitive.emit _).settles
    | this => exact (keyword_takes _).settles.bind fun _ => (Primitive.emit _).settles
    | _ => exact (Primitive.reject _).settles
  | punct p =>
    cases p with
    | lparen =>
      refine ((punct_takes _).bindBelow fun _ => ?_).settles
      exact he.bind fun _ => (punct_takes _).settles
    | minus => exact ((punct_takes _).bindBelow fun _ => h.bind fun _ => (Primitive.emit _).settles).settles
    | not => exact ((punct_takes _).bindBelow fun _ => h.bind fun _ => (Primitive.emit _).settles).settles
    | _ => exact (Primitive.reject _).settles
  | _ => exact (Primitive.reject _).settles

end

theorem term_settles (hk : k ≤ b) : Settles k b term := by
  have h : ∀ k, Settles k k term := by
    intro k
    induction k with
    | zero => exact fun s hs => absurd hs (Nat.not_lt_zero _)
    | succ k ih =>
      intro s hs
      obtain ⟨moments, r, he⟩ := termBy_settles ih (Nat.le_refl k) s hs
      refine ⟨moments, r, fun n hn => ?_⟩
      obtain ⟨m, rfl⟩ : ∃ m, n = m + 1 := ⟨n - 1, by omega⟩
      exact he m (by omega)
  exact (h k).mono (Nat.le_refl k) hk

theorem expression_settles (hk : k ≤ b) : Settles k b expression :=
  expressionBy_settles (term_settles hk) hk

theorem call_settles (hk : k ≤ b) (name : Token) : Settles k b fun n => call n name :=
  callBy_settles (expression_settles hk) hk name

/-! Statements. The first token of a statement is its keyword. -/

section

variable {S : Nat → Pass Unit}

theorem condition_settles (hk : k ≤ b) : Settles k b condition :=
  (punct_takes _).settles.bind fun _ => (expression_settles hk).bind fun _ => (punct_takes _).settles

theorem block_settles (h : Settles k b S) : Settles k b fun n => block (S n) :=
  (punct_takes _).settles.bind fun _ => h.bind fun _ => (punct_takes _).settles

theorem letStatement_takes (hk : k ≤ b) : Takes (k + 1) b letStatement := by
  have he := expression_settles hk
  refine within_takes ((keyword_takes _).bindBelow fun _ => ident_takes.settles.bind fun name => ?_)
  refine (Primitive.resolve name).before fun target => Primitive.peek.before fun t => ?_
  refine .ite (fun _ => ?_) fun _ => ?_
  · refine (punct_takes _).settles.bind fun _ => he.bind fun _ => (punct_takes _).settles.bind fun _ => ?_
    refine (Primitive.emit _).before fun _ => (Primitive.emit _).before fun _ => ?_
    refine (punct_takes _).settles.bind fun _ => he.bind fun _ => (punct_takes _).settles.bind fun _ => ?_
    refine (Primitive.emit _).before fun _ => (Primitive.emit _).before fun _ => ?_
    exact (Primitive.emit _).before fun _ => (Primitive.emit _).settles
  · refine (punct_takes _).settles.bind fun _ => he.bind fun _ => ?_
    exact (punct_takes _).settles.bind fun _ => (Primitive.emit _).settles

theorem ifStatement_takes (h : Settles k b S) (hk : k ≤ b) :
    Takes (k + 1) b fun n => ifStatement (S n) n := by
  refine within_takes (.after Primitive.nextIf.settles fun i => (keyword_takes _).bindBelow fun _ => ?_)
  refine (condition_settles hk).bind fun _ => (Primitive.emit _).before fun _ => ?_
  refine (Primitive.emit _).before fun _ => (Primitive.emit _).before fun _ => ?_
  refine (block_settles h).bind fun _ => ?_
  refine Primitive.peek.before fun t => .ite (fun _ => ?_) fun _ => (Primitive.emit _).settles
  refine (Primitive.emit _).before fun _ => (Primitive.emit _).before fun _ => ?_
  exact (keyword_takes _).settles.bind fun _ => (block_settles h).bind fun _ => (Primitive.emit _).settles

theorem whileStatement_takes (h : Settles k b S) (hk : k ≤ b) :
    Takes (k + 1) b fun n => whileStatement (S n) n := by
  refine within_takes (.after Primitive.nextWhile.settles fun i => ?_)
  refine .after (Primitive.emit _).settles fun _ => ?_
  refine (keyword_takes _).bindBelow fun _ => (condition_settles hk).bind fun _ => ?_
  refine (Primitive.emit _).before fun _ => (Primitive.emit _).before fun _ => ?_
  refine (block_settles h).bind fun _ => ?_
  exact (Primitive.emit _).before fun _ => (Primitive.emit _).settles

theorem doStatement_takes (hk : k ≤ b) : Takes (k + 1) b doStatement := by
  refine within_takes ((keyword_takes _).bindBelow fun _ => ident_takes.settles.bind fun name => ?_)
  refine (call_settles hk name).bind fun _ => ?_
  exact (punct_takes _).settles.bind fun _ => (Primitive.emit _).settles

theorem returnStatement_takes (hk : k ≤ b) : Takes (k + 1) b returnStatement := by
  refine within_takes ((keyword_takes _).bindBelow fun _ => Primitive.peek.before fun t => ?_)
  have ends : Settles k b fun _ => punct .semicolon >>= fun _ => emit .ret :=
    (punct_takes _).settles.bind fun _ => (Primitive.emit _).settles
  exact .ite (fun _ => (Primitive.emit _).before fun _ => ends)
    fun _ => (expression_settles hk).bind fun _ => ends

/-- A statement is selected by its first token, whatever the bound, and takes that token. -/
theorem statementBy_takes (h : Settles k b S) (hk : k ≤ b) (t : Terminal) :
    (∀ n, statementBy (S n) n t = none) ∨
      ∃ B, (∀ n, statementBy (S n) n t = some (B n)) ∧ Takes (k + 1) b B := by
  cases t with
  | keyword w =>
    cases w with
    | «let» => exact .inr ⟨_, fun n => rfl, letStatement_takes hk⟩
    | «if» => exact .inr ⟨_, fun n => rfl, ifStatement_takes h hk⟩
    | «while» => exact .inr ⟨_, fun n => rfl, whileStatement_takes h hk⟩
    | «do» => exact .inr ⟨_, fun n => rfl, doStatement_takes hk⟩
    | «return» => exact .inr ⟨_, fun n => rfl, returnStatement_takes hk⟩
    | _ => exact .inl fun n => rfl
  | _ => exact .inl fun n => rfl

end

theorem statements_settles (hk : k ≤ b) : Settles k b statements := by
  have h : ∀ k, Settles k k statements := by
    intro k
    induction k with
    | zero => exact fun s hs => absurd hs (Nat.not_lt_zero _)
    | succ k ih =>
      have loop : Settles (k + 1) k fun n => repeatBy (statementBy (statements n) n) (n + 1) :=
        repeatBy_settles (statementBy_takes ih (Nat.le_refl k)) fun n hn => Nat.succ_le_succ hn
      intro s hs
      obtain ⟨moments, r, he⟩ := within_settles loop.discard s hs
      refine ⟨moments, r, fun n hn => ?_⟩
      obtain ⟨m, rfl⟩ : ∃ m, n = m + 1 := ⟨n - 1, by omega⟩
      exact he m (by omega)
  exact (h k).mono (Nat.le_refl k) hk

/-! Declarations. -/

theorem declareNext_settles (type : Text) (storage : Storage) :
    Settles k b fun _ => declareNext type storage :=
  ident_takes.settles.bind fun _ => declare_settles _ _ _

theorem varNames_settles (storage : Storage) (hk : k ≤ b) : Settles k b (varNames storage) := by
  refine type_takes.settles.bind fun type => ?_
  have names := declareNext_settles (k := k) (b := b) type.lexeme storage
  exact names.bind fun _ => (afterComma_settles names hk).discard.bind fun _ => (punct_takes _).settles

theorem classVarDec_takes (hk : k ≤ b) : Takes k b classVarDec :=
  within_takes ((expect_takes_one (by simp [Terminal.category])).bind fun _ => varNames_settles _ hk)

theorem varDec_takes (hk : k ≤ b) : Takes k b varDec :=
  within_takes ((keyword_takes _).bind fun _ => varNames_settles _ hk)

theorem parameter_settles : Settles k b fun _ => parameter :=
  type_takes.settles.bind fun _ => declareNext_settles _ _

theorem parameterList_settles (hk : k ≤ b) : Settles k b parameterList := by
  refine within_settles (Primitive.peek.before fun t => ?_)
  refine .ite (fun _ => (Primitive.pure ()).settles) fun _ => ?_
  exact parameter_settles.bind fun _ => (afterComma_settles parameter_settles hk).discard

theorem prologue_settles (kind : Terminal) : Settles k b fun _ => prologue kind := by
  unfold prologue
  split
  · refine Primitive.get.before fun _ => (Primitive.emit _).before fun _ => ?_
    exact (Primitive.emit _).before fun _ => (Primitive.emit _).settles
  · exact (Primitive.emit _).before fun _ => (Primitive.emit _).settles
  · exact (Primitive.pure ()).settles

theorem varDecs_settles (hk : k ≤ b) : Settles k b fun n => repeatBy (varDecBy n) n := by
  refine repeatBy_settles (fun t => ?_) fun n hn => Nat.le_trans hk hn
  cases t with
  | keyword w =>
    cases w with
    | var => exact .inr ⟨_, fun n => rfl, varDec_takes hk⟩
    | _ => exact .inl fun n => rfl
  | _ => exact .inl fun n => rfl

theorem subroutineBody_settles (name : Text) (kind : Terminal) (hk : k ≤ b) :
    Settles k b (subroutineBody name kind) := by
  refine within_settles ((punct_takes _).settles.bind fun _ => ?_)
  refine (varDecs_settles hk).discard.bind fun _ => Primitive.get.before fun s => ?_
  refine (Primitive.emit _).before fun _ => (Primitive.note _).before fun _ => ?_
  refine (prologue_settles kind).bind fun _ => (statements_settles hk).bind fun _ => ?_
  exact (punct_takes _).settles

theorem subroutineDec_takes (hk : k ≤ b) : Takes k b subroutineDec := by
  have signature : ∀ kind : Token, Settles k b fun n => (do
      discard <| expect (.keyword .void :: typeTerminals)
      let name ← ownSubroutine (← ident).lexeme
      punct .lparen
      parameterList n
      punct .rparen
      subroutineBody name kind.terminal n) := by
    intro kind
    have type : Settles k b fun _ => discard (expect (.keyword .void :: typeTerminals)) :=
      (expect_takes_one (by simp [typeTerminals, Terminal.category])).settles.discard
    refine type.bind fun _ => ident_takes.settles.bind fun _ => ?_
    refine (Primitive.ownSubroutine _).before fun _ => ?_
    refine (punct_takes _).settles.bind fun _ => (parameterList_settles hk).bind fun _ => ?_
    exact (punct_takes _).settles.bind fun _ => subroutineBody_settles _ _ hk
  refine within_takes (.after Primitive.startSubroutine.settles fun _ => ?_)
  refine (expect_takes_one (by simp [Terminal.category])).bind fun kind => ?_
  dsimp only
  refine .ite (fun _ => ?_) fun _ => signature kind
  exact Primitive.get.before fun s => (declare_settles _ _ _).bind fun _ => signature kind

theorem classVarDecs_settles (hk : k ≤ b) : Settles k b fun n => repeatBy (classVarDecBy n) n := by
  refine repeatBy_settles (fun t => ?_) fun n hn => Nat.le_trans hk hn
  cases t with
  | keyword w =>
    cases w with
    | static => exact .inr ⟨_, fun n => rfl, classVarDec_takes hk⟩
    | field => exact .inr ⟨_, fun n => rfl, classVarDec_takes hk⟩
    | _ => exact .inl fun n => rfl
  | _ => exact .inl fun n => rfl

theorem subroutineDecs_settles (hk : k ≤ b) : Settles k b fun n => repeatBy (subroutineDecBy n) n := by
  refine repeatBy_settles (fun t => ?_) fun n hn => Nat.le_trans hk hn
  cases t with
  | keyword w =>
    cases w with
    | constructor => exact .inr ⟨_, fun n => rfl, subroutineDec_takes hk⟩
    | function => exact .inr ⟨_, fun n => rfl, subroutineDec_takes hk⟩
    | method => exact .inr ⟨_, fun n => rfl, subroutineDec_takes hk⟩
    | _ => exact .inl fun n => rfl
  | _ => exact .inl fun n => rfl

/-- The first token of a class leaves fewer than the bound. -/
theorem classDec_settles (hk : k ≤ b) : Settles (k + 1) b classDec := by
  refine within_settles ((keyword_takes _).bindBelow fun _ => ident_takes.settles.bind fun name => ?_).settles
  refine (Primitive.className name.lexeme).before fun _ => (Primitive.note _).before fun _ => ?_
  refine (punct_takes _).settles.bind fun _ => (classVarDecs_settles hk).discard.bind fun _ => ?_
  refine (subroutineDecs_settles hk).discard.bind fun _ => ?_
  exact (punct_takes _).settles

theorem wholeClass_settles (hk : k ≤ b) : Settles (k + 1) b wholeClass := by
  refine (classDec_settles hk).bind fun _ => Primitive.peek.before fun t => ?_
  exact .ite (fun _ => (Primitive.reject _).settles) fun _ => (Primitive.pure ()).settles

end Jack.Pass
