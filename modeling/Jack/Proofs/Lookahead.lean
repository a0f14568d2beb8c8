import Jack.Proofs.FirstError
import Jack.Proofs.Pass.Settling

/-! One token of lookahead. Compiling ends by itself, and at every moment the source has handed out the tokens
recorded in the trace and the lookahead behind them. So it is never asked again behind its end, and how
often it was asked follows from the outcome. -/

namespace Jack

open Jack.Pass Jack.Tree

/-- How many tokens were handed out from the one that an error cites on. An unexpected token is the lookahead,
and any other has the lookahead behind it when it is checked. -/
def CompileError.pulled : CompileError → Nat
  | .unexpected _ _ => 1
  | .outOfRange _ | .undefined _ => 2

/-- How often a source is asked for a token until its class is compiled or rejected. The error is the first
one behind the tokens `before`. -/
def Source.AskedFor (source : Source) (n : Nat) : Except CompileError Compiled → Prop
  | .ok _ => n = source.beforeEnd.length + 1
  | .error err => ∃ before after, source.beforeEnd ++ [source.stop] = before ++ err.token :: after ∧
      FirstError before err ∧ n = before.length + err.pulled

theorem Source.terminal_stop (source : Source) : source.stop.terminal = .eof := by
  unfold Source.stop
  cases h : source.tokens.find? (·.terminal = .eof) with
  | none => rfl
  | some t => simpa using List.find?_some h

theorem length_leftBy (after : List Token) (e : CompileError) :
    (leftBy after e).length + e.pulled = after.length + 2 := by
  cases e <;> rfl

namespace Pass

/-- The tokens taken and those left are the tokens of the source. -/
def Shares (source : Source) (s : State) : Prop :=
  source.beforeEnd ++ [source.stop] = s.taken ++ s.rest

theorem shares_start (source : Source) : Shares source (State.start source) :=
  (State.rest_start source).symm

theorem Shares.move {source : Source} {s s' : State} (hm : Move s s') (h : Shares source s) :
    Shares source s' := by
  cases hm with
  | take hk =>
    have hr := s.rest_eq_cons_accept (Terminal.ne_eof_of_category hk)
    rw [Shares, s.taken_accept, List.append_assoc, List.singleton_append, ← hr]
    exact h
  | keep hp hs ht =>
    have hr : s'.rest = s.rest := by
      unfold State.rest State.ahead State.stop
      rw [hp, hs]
    rw [Shares, ht, hr]
    exact h

/-- What the pass over a source comes to. -/
def runOf (source : Source) : Result Unit :=
  (wholeClass ((State.start source).source.tokens.length + 1)).run (State.start source)

/-- With the bound that compiling takes, and with every larger one, the pass goes through the same primitive
steps. -/
theorem exists_execution (source : Source) :
    ∃ moments, ∀ n, (State.start source).source.tokens.length < n →
      Execution Primitive (wholeClass n) (State.start source) moments (runOf source) := by
  have hl := State.length_ahead_le (State.start source)
  obtain ⟨moments, r, he⟩ :=
    wholeClass_settles (Nat.le_refl _) (State.start source) (Nat.lt_succ_of_le hl)
  have hr : runOf source = r := (he _ (Nat.le_refl _)).eq_run
  exact ⟨moments, fun n hn => hr ▸ he n hn⟩

/-- What a move keeps holds when the pass is over. -/
theorem runOf_invariant (source : Source) {P : State → Prop} (move : ∀ s s', Move s s' → P s → P s')
    (h : P (State.start source)) : P (runOf source).state := by
  obtain ⟨moments, he⟩ := exists_execution source
  exact (he _ (Nat.lt_succ_self _)).invariant_end move h

theorem shares_runOf (source : Source) : Shares source (runOf source).state :=
  runOf_invariant source (fun _ _ hm h => Shares.move hm h) (shares_start source)

theorem inStep_runOf (source : Source) : InStep source (runOf source).state :=
  runOf_invariant source (fun _ _ hm h => InStep.move hm h) (inStep_start source)

variable {source : Source} {s : State}

/-- How often the source was asked is the number of tokens taken, and one more. -/
theorem InStep.asked (h : InStep source s) :
    s.source.taken = source.taken + (s.taken.length + 1) := by
  have hp := Source.taken_pull (s.taken.length + 1) source
  rw [h.pulled] at hp
  exact hp

theorem compile_of_ok {u : Unit} (h : runOf source = .ok u s) :
    (compile source).outcome = .ok ⟨s.className, s.code.toList, s.trace.toList⟩ ∧
      (compile source).source = s.source := by
  unfold compile State.compile
  rw [show (wholeClass _).run _ = _ from h]
  exact ⟨rfl, rfl⟩

theorem compile_of_error {e : CompileError} (h : runOf source = .error e s) :
    (compile source).outcome = .error e ∧ (compile source).source = s.source := by
  unfold compile State.compile
  rw [show (wholeClass _).run _ = _ from h]
  exact ⟨rfl, rfl⟩

/-- A class that is compiled has all its tokens taken. -/
theorem Shares.taken_of_ok {u : Unit} (h : Shares source s) (hr : runOf source = .ok u s) :
    s.taken = source.beforeEnd := by
  obtain ⟨c, _, ha⟩ := wholeClass_ok rfl hr
  rw [Shares, State.rest, ha] at h
  exact (List.append_inj_left' h rfl).symm

theorem Shares.length_of_error {e : CompileError} (h : Shares source s) (hr : runOf source = .error e s) :
    ∃ before after, source.beforeEnd ++ [source.stop] = before ++ e.token :: after ∧
      FirstError before e ∧ s.taken.length + 1 = before.length + e.pulled := by
  have ha := wholeClass_tracks _ _ rfl (State.length_ahead_le (State.start source))
  change Answers _ _ _ (runOf source) at ha
  rw [hr] at ha
  obtain ⟨before, after, hb, hf⟩ := ha
  rw [State.rest_start] at hb
  refine ⟨before, after, hb, hf.firstError fun w => classes_iff rfl, ?_⟩
  have hl := congrArg List.length (h.symm.trans hb)
  have hp := length_leftBy after e
  simp only [hf.rest_eq, List.length_append, List.length_cons] at hl
  omega

end Pass

section

variable {source : Source} {u : Compiled}

theorem exists_runOf_of_ok (h : (compile source).outcome = .ok u) :
    ∃ s, runOf source = .ok () s ∧ u = ⟨s.className, s.code.toList, s.trace.toList⟩ := by
  cases hr : runOf source with
  | ok _ s =>
    rw [(compile_of_ok hr).1] at h
    cases h
    exact ⟨s, rfl, rfl⟩
  | error e s =>
    rw [(compile_of_error hr).1] at h
    cases h

theorem exists_runOf_of_error {e : CompileError} (h : (compile source).outcome = .error e) :
    ∃ s, runOf source = .error e s := by
  cases hr : runOf source with
  | ok _ s =>
    rw [(compile_of_ok hr).1] at h
    cases h
  | error e' s =>
    rw [(compile_of_error hr).1] at h
    cases h
    exact ⟨s, rfl⟩

/-- The terminals of a trace are the tokens of the class, and none of them is illegal. -/
theorem terminals_trace (h : (compile source).outcome = .ok u) :
    Trace.terminals u.trace = source.beforeEnd ∧ ∀ t ∈ source.beforeEnd, t.terminal ≠ .illegal := by
  obtain ⟨s, hr, rfl⟩ := exists_runOf_of_ok h
  have hs := shares_runOf source
  have hi := (inStep_runOf source).legal
  rw [hr] at hs hi
  have ht := hs.taken_of_ok hr
  exact ⟨ht, ht ▸ hi⟩

/-- No token in front of an unexpected one is illegal. -/
theorem legal_before_unexpected {found : Token} {expected : Expectation}
    (h : (compile source).outcome = .error (.unexpected found expected))
    (hf : found.terminal ≠ .eof) :
    ∃ before after, source.beforeEnd = before ++ found :: after ∧ ∀ t ∈ before, t.terminal ≠ .illegal := by
  obtain ⟨s, hr⟩ := exists_runOf_of_error h
  have hs := shares_runOf source
  have hi := (inStep_runOf source).legal
  have ha := wholeClass_tracks _ _ rfl (State.length_ahead_le (State.start source))
  change Answers _ _ _ (runOf source) at ha
  rw [hr] at hs hi ha
  obtain ⟨before, after, -, hx⟩ := ha
  have hb : source.beforeEnd ++ [source.stop] = s.taken ++ found :: after :=
    hs.trans (congrArg (s.taken ++ ·) hx.rest_eq)
  rcases List.eq_nil_or_concat after with rfl | ⟨after, last, rfl⟩
  · have he : source.stop = found := List.singleton_inj.mp (List.append_inj_right' hb rfl)
    exact absurd (he ▸ source.terminal_stop) hf
  · rw [List.concat_eq_append, ← List.cons_append, ← List.append_assoc] at hb
    exact ⟨s.taken, after, List.append_inj_left' hb rfl, hi⟩

end

/-- Compiling ends whatever the bound on its steps, and at every moment the source has handed out the tokens
of the trace and the lookahead. It was asked once more than there are tokens of the class, once for each token
up to an unexpected one, and once more than that for any other error. -/
theorem compile_inStep (source : Source) :
    (∃ moments, ∀ n, (State.start source).source.tokens.length < n →
        Execution Primitive (wholeClass n) (State.start source) moments (runOf source)) ∧
      (∀ n moments r, Execution Elementary (wholeClass n) (State.start source) moments r →
        ∀ s ∈ moments ++ [r.state], InStep source s) ∧
      ∃ asked, (compile source).source.taken = source.taken + asked ∧
        source.AskedFor asked (compile source).outcome := by
  have ht := (inStep_runOf source).asked
  have hs := shares_runOf source
  refine ⟨exists_execution source,
    fun n moments r he => he.invariant (fun _ _ hm h => InStep.move hm h) (inStep_start source),
    (runOf source).state.taken.length + 1, ?_⟩
  cases hr : runOf source with
  | ok u s =>
    rw [hr] at hs ht
    obtain ⟨ho, hsrc⟩ := compile_of_ok hr
    rw [ho, hsrc]
    have hl : s.taken.length = source.beforeEnd.length := congrArg List.length (hs.taken_of_ok hr)
    exact ⟨ht, congrArg (· + 1) hl⟩
  | error e s =>
    rw [hr] at hs ht
    obtain ⟨ho, hsrc⟩ := compile_of_error hr
    rw [ho, hsrc]
    exact ⟨ht, hs.length_of_error hr⟩

end Jack
