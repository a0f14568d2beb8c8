import Jack.Proofs.Tree.Class

/-! What a stretch of the pass does: the tokens it takes, the entries and the code it adds, the context
it leaves. Effects compose along `bind`, so a procedure is described by the effects of its parts. -/

namespace Jack.Pass

/-- The part of the state that decides which code a tree gets. -/
@[ext] structure Context where
  className : Text
  scopes : Scopes
  nextIf : Nat
  nextWhile : Nat

def State.context (s : State) : Context := ⟨s.className, s.scopes, s.nextIf, s.nextWhile⟩

/-- The tokens not taken yet, up to the end of input. -/
def State.ahead (s : State) : List Token :=
  (s.peek :: s.source.tokens).takeWhile (·.terminal ≠ .eof)

/-- The terminal of the first token, or the end of input. -/
def next : List Token → Terminal
  | [] => .eof
  | t :: _ => t.terminal

@[simp] theorem next_cons (t : Token) (rest : List Token) : next (t :: rest) = t.terminal := rfl

namespace State

variable (s : State)

theorem next_ahead : next s.ahead = s.peek.terminal := by
  unfold ahead
  by_cases h : s.peek.terminal = .eof <;> simp [List.takeWhile, h, next]

theorem ahead_start (source : Source) :
    (State.start source).ahead = source.tokens.takeWhile (·.terminal ≠ .eof) := by
  unfold start ahead Source.next
  cases h : source.tokens <;> simp [Source.endToken]

theorem ahead_eq_cons (h : s.peek.terminal ≠ .eof) : s.ahead = s.peek :: s.accept.ahead := by
  unfold accept ahead Source.next
  cases hs : s.source.tokens <;> simp [Source.endToken, h]

variable {s}

theorem accept_of_ahead {t : Token} {rest : List Token} (h : s.ahead = t :: rest) :
    s.peek = t ∧ s.accept.ahead = rest := by
  have hp : s.peek.terminal ≠ .eof := by
    intro hp
    simp [ahead, hp] at h
  rw [s.ahead_eq_cons hp] at h
  exact List.cons.inj h

end State

@[ext] structure Effect where
  tokens : List Token := []
  entries : List Trace.Entry := []
  code : List Instruction := []
  /-- The first error met, if any. -/
  fault : Option CompileError := none
  context : Context → Context := id

namespace Effect

instance : Append Effect where
  append a b :=
    { tokens := a.tokens ++ b.tokens
      entries := a.entries ++ b.entries
      code := a.code ++ b.code
      fault := a.fault.or b.fault
      context := b.context ∘ a.context }

section

variable (a b : Effect)

@[simp] theorem tokens_append : (a ++ b).tokens = a.tokens ++ b.tokens := rfl

@[simp] theorem entries_append : (a ++ b).entries = a.entries ++ b.entries := rfl

@[simp] theorem code_append : (a ++ b).code = a.code ++ b.code := rfl

@[simp] theorem fault_append : (a ++ b).fault = a.fault.or b.fault := rfl

@[simp] theorem context_append : (a ++ b).context = b.context ∘ a.context := rfl

theorem append_empty : a ++ ({} : Effect) = a := by
  apply Effect.ext <;> simp

theorem empty_append : ({} : Effect) ++ a = a := by
  apply Effect.ext <;> simp

end

/-- Taking a token. -/
@[simp] def take (t : Token) : Effect := { tokens := [t], entries := [.terminal t] }

@[simp] def emit (i : Instruction) : Effect := { code := [i] }

@[simp] def record (e : Trace.Entry) : Effect := { entries := [e] }

@[simp] def update (f : Context → Context) : Effect := { context := f }

@[simp] def check (fault : Option CompileError) : Effect := { fault }

/-- An effect inside a nonterminal of the trace. -/
@[simp] def node (n : Nonterminal) (e : Effect) : Effect :=
  { e with entries := Trace.node n e.entries }

/-- One effect after another. -/
def concat : List Effect → Effect
  | [] => {}
  | e :: es => e ++ concat es

section

variable (es : List Effect)

@[simp] theorem concat_cons (e : Effect) : concat (e :: es) = e ++ concat es := rfl

@[simp] theorem tokens_concat : (concat es).tokens = es.flatMap tokens := by
  induction es with
  | nil => rfl
  | cons e es ih => simp [ih]

@[simp] theorem entries_concat : (concat es).entries = es.flatMap entries := by
  induction es with
  | nil => rfl
  | cons e es ih => simp [ih]

@[simp] theorem code_concat : (concat es).code = es.flatMap code := by
  induction es with
  | nil => rfl
  | cons e es ih => simp [ih]

@[simp] theorem fault_concat : (concat es).fault = es.findSome? fault := by
  induction es with
  | nil => rfl
  | cons e es ih => cases h : e.fault <;> simp [ih, h]

end

end Effect

/-- A stretch without error that leads from one state to another. -/
structure Took (s : State) (e : Effect) (s' : State) : Prop where
  ahead : s.ahead = e.tokens ++ s'.ahead
  trace : s'.trace.toList = s.trace.toList ++ e.entries
  code : s'.code.toList = s.code.toList ++ e.code
  context : s'.context = e.context s.context
  fault : e.fault = none

theorem Took.refl (s : State) : Took s {} s := ⟨by simp, by simp, by simp, rfl, rfl⟩

theorem Took.append {s s₁ s₂ : State} {a b : Effect} (ha : Took s a s₁) (hb : Took s₁ b s₂) :
    Took s (a ++ b) s₂ where
  ahead := by simp [ha.ahead, hb.ahead]
  trace := by simp [ha.trace, hb.trace]
  code := by simp [ha.code, hb.code]
  context := by simp [ha.context, hb.context]
  fault := by simp [ha.fault, hb.fault]

/-- A change of the context alone. -/
theorem Took.update {s s' : State} {f : Context → Context} (hp : s'.peek = s.peek)
    (hs : s'.source = s.source) (ht : s'.trace = s.trace) (hc : s'.code = s.code)
    (hf : s'.context = f s.context) : Took s (.update f) s' where
  ahead := by simp [State.ahead, hp, hs]
  trace := by simp [ht]
  code := by simp [hc]
  context := hf
  fault := rfl

theorem took_accept {s : State} (h : s.peek.terminal ≠ .eof) : Took s (.take s.peek) s.accept where
  ahead := s.ahead_eq_cons h
  trace := by simp [State.accept]
  code := by simp [State.accept]
  context := rfl
  fault := rfl

theorem took_emit (s : State) (i : Instruction) :
    Took s (.emit i) { s with code := s.code.push i } :=
  ⟨rfl, by simp, by simp, rfl, rfl⟩

theorem took_record (s : State) (e : Trace.Entry) :
    Took s (.record e) { s with trace := s.trace.push e } :=
  ⟨rfl, by simp, by simp, rfl, rfl⟩

theorem took_note (s : State) (n : Note) : Took s {} { s with notes := s.notes.push n } :=
  ⟨rfl, by simp, by simp, rfl, rfl⟩

end Jack.Pass
