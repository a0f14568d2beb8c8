import Jack.Proofs.Pass.Language

/-! The pass step by step. An execution goes through a procedure one step after another, the finest one
through the primitive steps that the procedures are written in, and so shows the states in between. What
every such step preserves holds at all moments of an execution; in particular, the tokens handed out by the
source are those recorded in the trace and the lookahead. -/

namespace Jack

/-- The tokens of the next `n` readings of a source, and the source after them. -/
def Source.pull : Nat → Source → List Token × Source
  | 0, source => ([], source)
  | n + 1, source =>
    let (ts, source) := source.pull n
    let (t, source) := source.next
    (ts ++ [t], source)

@[simp] theorem Source.taken_next (source : Source) : source.next.2.taken = source.taken + 1 := by
  unfold Source.next
  cases source.tokens <;> rfl

theorem Source.taken_pull (n : Nat) (source : Source) :
    (source.pull n).2.taken = source.taken + n := by
  induction n with
  | zero => rfl
  | succ n ih =>
    have hp : (source.pull (n + 1)).2 = (source.pull n).2.next.2 := rfl
    rw [hp, Source.taken_next, ih, Nat.add_assoc]

theorem Terminal.ne_eof_of_category {t : Terminal} (h : t.category ≠ .unknown) : t ≠ .eof :=
  fun ht => h (ht ▸ rfl)

theorem Terminal.ne_illegal_of_category {t : Terminal} (h : t.category ≠ .unknown) : t ≠ .illegal :=
  fun ht => h (ht ▸ rfl)

namespace Pass

variable {α β : Type}

/-- What running a procedure comes to. -/
abbrev Result (α : Type) := EStateM.Result CompileError State α

/-- The state in which a procedure ends, whether it succeeds or not. -/
def Result.state : Result α → State
  | .ok _ s => s
  | .error _ s => s

/-- The tokens that a state has taken. -/
def State.taken (s : State) : List Token := Trace.terminals s.trace.toList

/-- The primitive steps, as the procedures are written in them. -/
inductive Primitive : ⦃α : Type⦄ → Pass α → Prop
  | expect (terminals : List Terminal) (h : ∀ t ∈ terminals, t.category ≠ .unknown) :
      Primitive (expect terminals)
  | opened (n : Nonterminal) : Primitive (record (.opened n))
  | closed (n : Nonterminal) : Primitive (record (.closed n))
  | pure {α : Type} (a : α) : Primitive (Pure.pure a : Pass α)
  | peek : Primitive peek
  | get : Primitive (MonadState.get : Pass State)
  | reject {α : Type} (expected : Expectation) : Primitive (reject expected : Pass α)
  | outOfRange {α : Type} (constant : Token) : Primitive (throw (.outOfRange constant) : Pass α)
  | emit (i : Instruction) : Primitive (emit i)
  | note (n : Note) : Primitive (note n)
  | resolve (use : Token) : Primitive (resolve use)
  | ownSubroutine (name : Text) : Primitive (ownSubroutine name)
  | place (name type : Text) (storage : Storage) : Primitive (modifyGet fun s =>
      let (v, scopes) := s.scopes.declare name type storage
      (v, { s with scopes }) : Pass Variable)
  | startSubroutine : Primitive startSubroutine
  | className (name : Text) : Primitive (modify fun s => { s with className := name } : Pass Unit)
  | nextIf : Primitive (modifyGet fun s => (s.nextIf, { s with nextIf := s.nextIf + 1 }) : Pass Nat)
  | nextWhile :
      Primitive (modifyGet fun s => (s.nextWhile, { s with nextWhile := s.nextWhile + 1 }) : Pass Nat)

/-- Steps by what they do. A step either takes the lookahead, where that is a terminal of the language, or
opens or closes a nonterminal, or leaves the lookahead, the source and the trace alone. -/
inductive Elementary : ⦃α : Type⦄ → Pass α → Prop
  | expect (terminals : List Terminal) (h : ∀ t ∈ terminals, t.category ≠ .unknown) :
      Elementary (expect terminals)
  | opened (n : Nonterminal) : Elementary (record (.opened n))
  | closed (n : Nonterminal) : Elementary (record (.closed n))
  | quiet {α : Type} {p : Pass α} (hp : ∀ s, (Result.state (p s)).peek = s.peek)
      (hs : ∀ s, (Result.state (p s)).source = s.source)
      (ht : ∀ s, (Result.state (p s)).trace = s.trace) : Elementary p

theorem Primitive.elementary {p : Pass α} (h : Primitive p) : Elementary p := by
  cases h with
  | expect terminals hk => exact .expect terminals hk
  | opened n => exact .opened n
  | closed n => exact .closed n
  | resolve use =>
    have hr : ∀ s : State, Result.state (Pass.resolve use s) = s := by
      intro s
      unfold Pass.resolve
      cases s.scopes.resolve? use.lexeme <;> rfl
    exact .quiet (fun s => by rw [hr s]) (fun s => by rw [hr s]) fun s => by rw [hr s]
  | _ => exact .quiet (fun _ => rfl) (fun _ => rfl) fun _ => rfl

/-- In the state `s`, a procedure goes through steps that start in the states `moments` and ends with the
result `r`. An error ends it at once. -/
inductive Execution (Step : ⦃α : Type⦄ → Pass α → Prop) :
    {α : Type} → Pass α → State → List State → Result α → Prop
  | step {α : Type} {p : Pass α} {s : State} (h : Step p) : Execution Step p s [s] (p s)
  | bind {α β : Type} {p : Pass α} {f : α → Pass β} {s s₁ : State} {a : α} {r : Result β}
      {front back : List State} (hp : Execution Step p s front (.ok a s₁))
      (hf : Execution Step (f a) s₁ back r) : Execution Step (p >>= f) s (front ++ back) r
  | abort {α β : Type} {p : Pass α} {f : α → Pass β} {s s₁ : State} {e : CompileError}
      {moments : List State} (hp : Execution Step p s moments (.error e s₁)) :
      Execution Step (p >>= f) s moments (.error e s₁)

/-- All that a step can do. -/
inductive Move (s : State) : State → Prop
  | take (h : s.peek.terminal.category ≠ .unknown) : Move s s.accept
  | keep {s' : State} (hp : s'.peek = s.peek) (hs : s'.source = s.source) (ht : s'.taken = s.taken) :
      Move s s'

theorem Elementary.move {p : Pass α} (h : Elementary p) (s : State) : Move s (Result.state (p s)) := by
  cases h with
  | expect terminals hk =>
    unfold Pass.expect
    split
    case isTrue hm => exact .take (hk _ hm)
    case isFalse => exact .keep rfl rfl rfl
  | opened n =>
    have ht : Trace.terminals (s.trace.push (.opened n)).toList = s.taken := by
      simp [State.taken, Trace.terminals]
    exact .keep rfl rfl ht
  | closed n =>
    have ht : Trace.terminals (s.trace.push (.closed n)).toList = s.taken := by
      simp [State.taken, Trace.terminals]
    exact .keep rfl rfl ht
  | quiet hp hs ht => exact .keep (hp s) (hs s) (by rw [State.taken, ht s, State.taken])

namespace Execution

variable {Step : ⦃α : Type⦄ → Pass α → Prop} {p : Pass α} {s : State} {moments : List State} {r : Result α}

/-- An execution ends with the result of the procedure. -/
theorem eq_run (h : Execution Step p s moments r) : p s = r := by
  induction h with
  | step h => rfl
  | @bind α β p f s s₁ a r front back _ _ ihp ihf =>
    change EStateM.bind p f s = r
    unfold EStateM.bind
    rw [ihp]
    exact ihf
  | @abort α β p f s s₁ e moments _ ihp =>
    change EStateM.bind p f s = .error e s₁
    unfold EStateM.bind
    rw [ihp]

theorem elementary (h : Execution Primitive p s moments r) : Execution Elementary p s moments r := by
  induction h with
  | step h => exact .step h.elementary
  | bind _ _ ihp ihf => exact .bind ihp ihf
  | abort _ ihp => exact .abort ihp

/-- What every step preserves holds at all moments, the last one among them. -/
theorem invariant {I : State → Prop} (step : ∀ s s', Move s s' → I s → I s')
    (h : Execution Elementary p s moments r) (hs : I s) : ∀ m ∈ moments ++ [r.state], I m := by
  induction h with
  | @step α p s h =>
    have hl : I (Result.state (p s)) := step _ _ (h.move s) hs
    simpa using ⟨hs, hl⟩
  | @bind α β p f s s₁ a r front back _ _ ihp ihf =>
    have hf := ihp hs
    have hb := ihf (hf s₁ (by simp [Result.state]))
    intro m hm
    rw [List.append_assoc] at hm
    rcases List.mem_append.mp hm with hm | hm
    · exact hf m (List.mem_append_left _ hm)
    · exact hb m hm
  | abort _ ihp => exact ihp hs

theorem invariant_end {I : State → Prop} (step : ∀ s s', Move s s' → I s → I s')
    (h : Execution Primitive p s moments r) (hs : I s) : I r.state :=
  h.elementary.invariant step hs _ (by simp)

end Execution

theorem Move.length_ahead_le {s s' : State} (h : Move s s') : s'.ahead.length ≤ s.ahead.length := by
  cases h with
  | take hk =>
    rw [s.ahead_eq_cons (Terminal.ne_eof_of_category hk), List.length_cons]
    omega
  | keep hp hs =>
    have ha : s'.ahead = s.ahead := by
      unfold State.ahead
      rw [hp, hs]
    exact Nat.le_of_eq (congrArg List.length ha)

/-- No execution puts tokens back. -/
theorem Execution.length_ahead_le {p : Pass α} {s : State} {moments : List State} {r : Result α}
    (h : Execution Primitive p s moments r) : r.state.ahead.length ≤ s.ahead.length := by
  have step : ∀ m m', Move m m' → m.ahead.length ≤ s.ahead.length →
      m'.ahead.length ≤ s.ahead.length :=
    fun m m' hm hl => Nat.le_trans hm.length_ahead_le hl
  exact h.invariant_end step (Nat.le_refl _)

/-- The source has handed out the tokens taken and the lookahead, and nothing else. None of the tokens
taken is the end of input, and none is illegal. -/
structure InStep (source : Source) (s : State) : Prop where
  pulled : source.pull (s.taken.length + 1) = (s.taken ++ [s.peek], s.source)
  unended : ∀ t ∈ s.taken, t.terminal ≠ .eof
  legal : ∀ t ∈ s.taken, t.terminal ≠ .illegal

theorem State.taken_accept (s : State) : s.accept.taken = s.taken ++ [s.peek] := by
  simp [taken, accept, Trace.terminals]

theorem inStep_start (source : Source) : InStep source (State.start source) where
  pulled := rfl
  unended := by simp [State.taken, State.start, Trace.terminals]
  legal := by simp [State.taken, State.start, Trace.terminals]

theorem InStep.move {source : Source} {s s' : State} (hm : Move s s') (h : InStep source s) :
    InStep source s' := by
  cases hm with
  | take hk =>
    constructor
    · rw [s.taken_accept, List.length_append, List.length_singleton, Source.pull, h.pulled]
      rfl
    · rw [s.taken_accept, List.forall_mem_append, List.forall_mem_singleton]
      exact ⟨h.unended, Terminal.ne_eof_of_category hk⟩
    · rw [s.taken_accept, List.forall_mem_append, List.forall_mem_singleton]
      exact ⟨h.legal, Terminal.ne_illegal_of_category hk⟩
  | keep hp hs ht =>
    constructor
    · rw [ht, hp, hs]
      exact h.pulled
    · rw [ht]
      exact h.unended
    · rw [ht]
      exact h.legal

end Pass

end Jack
