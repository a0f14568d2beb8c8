import Jack.Proofs.Pass.Effect

/-! Two ways to describe a procedure by its effects, with a rule for each step of the pass. `Runs` says
what it does with tokens that are given, and `Ensures` what it has done if it succeeded. -/

namespace Jack.Pass

open Jack.Tree

variable {α β : Type} {p : Pass α} {c : Context} {rest : List Token} {a : α}

/-- In a context `c` and with tokens `rest` behind those it takes, a procedure ends with the fault of
an effect, if that has one, and with a result and that effect otherwise. -/
def Runs (p : Pass α) (c : Context) (rest : List Token) (a : α) (e : Effect) : Prop :=
  ∀ s : State, s.context = c → s.ahead = e.tokens ++ rest →
    match e.fault with
    | none => ∃ s', p s = .ok a s' ∧ Took s e s'
    | some err => ∃ s', p s = .error err s'

namespace Runs

theorem congr {e e' : Effect} (h : Runs p c rest a e) (he : e = e') : Runs p c rest a e' := he ▸ h

/-- A procedure that has no fault may be described state by state. -/
theorem of_ok {e : Effect} (hf : e.fault = none)
    (h : ∀ s : State, s.context = c → s.ahead = e.tokens ++ rest → ∃ s', p s = .ok a s' ∧ Took s e s') :
    Runs p c rest a e := by
  intro s hc ht
  rw [hf]
  exact h s hc ht

theorem bind {f : α → Pass β} {b : β} {d e : Effect} (h₁ : Runs p c (e.tokens ++ rest) a d)
    (h₂ : Runs (f a) (d.context c) rest b e) : Runs (p >>= f) c rest b (d ++ e) := by
  intro s hc ht
  have h := h₁ s hc (by simpa using ht)
  simp only [Effect.fault_append]
  change match d.fault.or e.fault with
    | none => ∃ s', EStateM.bind p f s = .ok b s' ∧ Took s (d ++ e) s'
    | some err => ∃ s', EStateM.bind p f s = .error err s'
  cases hf : d.fault with
  | some err =>
    rw [hf] at h
    obtain ⟨s', hs'⟩ := h
    exact ⟨s', by simp [EStateM.bind, hs']⟩
  | none =>
    rw [hf] at h
    obtain ⟨s₁, hs₁, t₁⟩ := h
    -- The first part took its own tokens and no more, so those of the second are next.
    have ha : s₁.ahead = e.tokens ++ rest := by
      have := t₁.ahead
      simp only [ht, Effect.tokens_append, List.append_assoc, List.append_cancel_left_eq] at this
      exact this.symm
    have h := h₂ s₁ (by rw [t₁.context, hc]) ha
    simp only [Option.none_or, EStateM.bind, hs₁]
    cases hf₂ : e.fault with
    | some err =>
      rw [hf₂] at h
      exact h
    | none =>
      rw [hf₂] at h
      obtain ⟨s₂, hs₂, t₂⟩ := h
      exact ⟨s₂, hs₂, t₁.append t₂⟩

/-- A step without effect. -/
theorem skip {f : α → Pass β} {b : β} {e : Effect} (h₁ : Runs p c (e.tokens ++ rest) a {})
    (h₂ : Runs (f a) c rest b e) : Runs (p >>= f) c rest b e :=
  (h₁.bind h₂).congr e.empty_append

/-- Looking at the next token has no effect. -/
theorem peek_bind {f : Terminal → Pass β} {b : β} {e : Effect} {t : Terminal}
    (ht : next (e.tokens ++ rest) = t) (h : Runs (f t) c rest b e) : Runs (peek >>= f) c rest b e := by
  intro s hc ha
  have hp : s.peek.terminal = t := by rw [← s.next_ahead, ha, ht]
  subst hp
  exact h s hc ha

theorem get_bind {f : State → Pass β} {b : β} {e : Effect}
    (h : ∀ s : State, s.context = c → Runs (f s) c rest b e) : Runs (get >>= f) c rest b e :=
  fun s hc ha => h s hc s hc ha

theorem pure (a : α) : Runs (Pure.pure a : Pass α) c rest a {} :=
  .of_ok rfl fun s _ _ => ⟨s, rfl, .refl s⟩

theorem discard {e : Effect} (h : Runs p c rest a e) : Runs (Functor.discard p) c rest () e :=
  .congr (.bind (e := {}) h (.pure ())) e.append_empty

end Runs

theorem expect_runs {terminals : List Terminal} (l : Leaf terminals) :
    Runs (expect terminals) c rest l.token (.take l.token) := by
  refine .of_ok rfl fun s _ ha => ?_
  obtain ⟨hp, hr⟩ := State.accept_of_ahead ha
  refine ⟨s.accept, by simp [expect, hp, l.terminal_mem], ?_, ?_, ?_, rfl, rfl⟩
  · rw [ha, hr]
    rfl
  · simp [State.accept, hp]
  · simp [State.accept]

theorem keyword_runs {k : Keyword} (word : Word k) :
    Runs (keyword k) c rest () (.take word.token) :=
  (expect_runs word).discard

theorem punct_runs {p : Punct} (symbol : Symbol p) :
    Runs (punct p) c rest () (.take symbol.token) :=
  (expect_runs symbol).discard

theorem ident_runs (x : Name) : Runs ident c rest x.token (.take x.token) := expect_runs x

theorem emit_runs (i : Instruction) : Runs (emit i) c rest () (.emit i) :=
  .of_ok rfl fun s _ _ => ⟨_, rfl, took_emit s i⟩

theorem record_runs (e : Trace.Entry) : Runs (record e) c rest () (.record e) :=
  .of_ok rfl fun s _ _ => ⟨_, rfl, took_record s e⟩

/-- A change of the context alone. -/
theorem modifyGet_runs {f : State → α × State} {g : Context → Context}
    (h : ∀ s : State, s.context = c → (f s).1 = a ∧ Took s (.update g) (f s).2) :
    Runs (modifyGet f) c rest a (.update g) := by
  refine .of_ok rfl fun s hc _ => ⟨(f s).2, ?_, (h s hc).2⟩
  rw [← (h s hc).1]
  rfl

theorem note_runs (n : Note) : Runs (note n) c rest () {} :=
  .of_ok rfl fun s _ _ => ⟨_, rfl, took_note s n⟩

theorem within_runs {n : Nonterminal} {e : Effect} (h : Runs p c rest a e) :
    Runs (within n p) c rest a (e.node n) := by
  have hc : Runs (record (.closed n) >>= fun _ => pure a) (e.context c) rest a (.record (.closed n)) :=
    ((record_runs _).bind (.pure a)).congr (Effect.append_empty _)
  refine .congr (.bind (record_runs (.opened n)) (.bind (e := .record (.closed n)) h hc)) ?_
  apply Effect.ext <;> simp

theorem repeatBy_runs_done {select : Terminal → Option (Pass Unit)} (n : Nat)
    (h : select (next rest) = none) : Runs (repeatBy select n) c rest 0 {} := by
  cases n with
  | zero => exact .pure 0
  | succ n =>
    refine .peek_bind (t := next rest) rfl ?_
    simp only [h]
    exact .pure 0

theorem repeatBy_runs_more {select : Terminal → Option (Pass Unit)} {n k : Nat} {body : Pass Unit}
    {d e : Effect} (h : select (next (d.tokens ++ e.tokens ++ rest)) = some body)
    (h₁ : Runs body c (e.tokens ++ rest) () d)
    (h₂ : Runs (repeatBy select n) (d.context c) rest k e) :
    Runs (repeatBy select (n + 1)) c rest (k + 1) (d ++ e) := by
  refine .peek_bind rfl ?_
  simp only [Effect.tokens_append, h]
  exact .bind h₁ (.congr (.bind (e := {}) h₂ (.pure (k + 1))) e.append_empty)

/-- In contexts that satisfy `I`, a selector reads the items whose effects `f` gives, if they have at
most `n` tokens. -/
structure ReadsItems {ι : Type} (select : Terminal → Option (Pass Unit)) (n : Nat)
    (I : Context → Prop) (f : ι → Effect) : Prop where
  nonempty : ∀ x, (f x).tokens ≠ []
  keeps : ∀ x c, I c → I ((f x).context c)
  reads : ∀ x c rest, I c → (f x).tokens.length ≤ n →
    ∃ body, select (next ((f x).tokens ++ rest)) = some body ∧ Runs body c rest () (f x)

theorem ReadsItems.runs {ι : Type} {select : Terminal → Option (Pass Unit)} {n : Nat}
    {I : Context → Prop} {f : ι → Effect} (h : ReadsItems select n I f)
    (hr : select (next rest) = none) (items : List ι) (m : Nat) (hc : I c)
    (hl : (Effect.concat (items.map f)).tokens.length ≤ n)
    (hm : (Effect.concat (items.map f)).tokens.length ≤ m) :
    Runs (repeatBy select m) c rest items.length (.concat (items.map f)) := by
  induction items generalizing m c with
  | nil => exact repeatBy_runs_done m hr
  | cons x items ih =>
    -- Every item takes a token, so there are no more turns than tokens.
    have hx := List.length_pos_iff.mpr (h.nonempty x)
    simp only [List.map_cons, Effect.concat_cons, Effect.tokens_append, List.length_append] at hl hm
    obtain ⟨m, rfl⟩ : ∃ k, m = k + 1 := ⟨m - 1, by omega⟩
    obtain ⟨body, hb, hx⟩ := h.reads x c ((Effect.concat (items.map f)).tokens ++ rest) hc (by omega)
    rw [← List.append_assoc] at hb
    exact repeatBy_runs_more hb hx (ih m (h.keeps x c hc) (by omega) (by omega))

/-- Whenever a procedure succeeds in a context `c`, it has had an effect that `Q` admits. -/
def Ensures (p : Pass α) (c : Context) (Q : α → Effect → Prop) : Prop :=
  ∀ s a s', s.context = c → p s = .ok a s' → ∃ e, Q a e ∧ Took s e s'

namespace Ensures

variable {Q : α → Effect → Prop}

theorem mono {Q' : α → Effect → Prop} (h : Ensures p c Q) (hq : ∀ a e, Q a e → Q' a e) :
    Ensures p c Q' := by
  intro s a s' hc hs
  obtain ⟨e, he, ht⟩ := h s a s' hc hs
  exact ⟨e, hq a e he, ht⟩

theorem bind {f : α → Pass β} {Q : β → Effect → Prop}
    (h : Ensures p c fun a e₁ => Ensures (f a) (e₁.context c) fun b e₂ => Q b (e₁ ++ e₂)) :
    Ensures (p >>= f) c Q := by
  intro s b s' hc hs
  change EStateM.bind p f s = .ok b s' at hs
  unfold EStateM.bind at hs
  cases hp : p s with
  | error err s₁ => simp [hp] at hs
  | ok a s₁ =>
    simp only [hp] at hs
    obtain ⟨e₁, hf, t₁⟩ := h s a s₁ hc hp
    obtain ⟨e₂, hq, t₂⟩ := hf s₁ b s' (by rw [t₁.context, hc]) hs
    exact ⟨e₁ ++ e₂, hq, t₁.append t₂⟩

theorem peek_bind {f : Terminal → Pass β} {Q : β → Effect → Prop} (h : ∀ t, Ensures (f t) c Q) :
    Ensures (peek >>= f) c Q :=
  fun s b s' hc hs => h s.peek.terminal s b s' hc hs

theorem get_bind {f : State → Pass β} {Q : β → Effect → Prop}
    (h : ∀ s : State, s.context = c → Ensures (f s) c Q) : Ensures (get >>= f) c Q :=
  fun s b s' hc hs => h s hc s b s' hc hs

/-- What a procedure does without taking tokens, it does in every state. -/
theorem of_runs {e : Effect} (h : ∀ rest, Runs p c rest a e) (ht : e.tokens = []) (hq : Q a e) :
    Ensures p c Q := by
  intro s b s' hc hs
  have h := h s.ahead s hc (by simp [ht])
  cases hf : e.fault with
  | some err =>
    rw [hf] at h
    obtain ⟨s₁, hs₁⟩ := h
    simp [hs₁] at hs
  | none =>
    rw [hf] at h
    obtain ⟨s₁, hs₁, t⟩ := h
    rw [hs₁] at hs
    cases hs
    exact ⟨e, hq, t⟩

/-- A step without effect. -/
theorem skip {f : α → Pass β} {Q : β → Effect → Prop} (hp : ∀ rest, Runs p c rest a {})
    (h : Ensures (f a) c Q) : Ensures (p >>= f) c Q :=
  .bind (.of_runs hp rfl (h.mono fun _ e he => e.empty_append.symm ▸ he))

theorem pure (h : Q a {}) : Ensures (Pure.pure a : Pass α) c Q := .of_runs (fun _ => .pure a) rfl h

theorem discard {Q : Unit → Effect → Prop} (h : Ensures p c fun _ e => Q () e) :
    Ensures (Functor.discard p) c Q :=
  .bind (h.mono fun _ e he => .pure (e.append_empty.symm ▸ he))

/-- A procedure that never succeeds ensures anything. -/
theorem of_error (h : ∀ s, ∃ err, p s = .error err s) : Ensures p c Q := by
  intro s a s' _ hs
  obtain ⟨err, he⟩ := h s
  simp [he] at hs

end Ensures

theorem expect_ensures {terminals : List Terminal} {Q : Token → Effect → Prop}
    (he : .eof ∉ terminals) (h : ∀ l : Leaf terminals, Q l.token (.take l.token)) :
    Ensures (expect terminals) c Q := by
  intro s t s' _ hs
  unfold expect at hs
  split at hs
  case isTrue hm =>
    cases hs
    exact ⟨_, h ⟨s.peek, hm⟩, took_accept fun hp => he (hp ▸ hm)⟩
  case isFalse => simp at hs

theorem keyword_ensures {k : Keyword} {Q : Unit → Effect → Prop}
    (h : ∀ word : Word k, Q () (.take word.token)) : Ensures (keyword k) c Q :=
  .discard (expect_ensures (by simp) h)

theorem punct_ensures {p : Punct} {Q : Unit → Effect → Prop}
    (h : ∀ symbol : Symbol p, Q () (.take symbol.token)) : Ensures (punct p) c Q :=
  .discard (expect_ensures (by simp) h)

theorem ident_ensures {Q : Token → Effect → Prop} (h : ∀ x : Name, Q x.token (.take x.token)) :
    Ensures ident c Q :=
  expect_ensures (by simp) h

theorem emit_ensures {i : Instruction} {Q : Unit → Effect → Prop} (h : Q () (.emit i)) :
    Ensures (emit i) c Q :=
  .of_runs (fun _ => emit_runs i) rfl h

theorem record_ensures {e : Trace.Entry} {Q : Unit → Effect → Prop} (h : Q () (.record e)) :
    Ensures (record e) c Q :=
  .of_runs (fun _ => record_runs e) rfl h

theorem within_ensures {n : Nonterminal} {Q : α → Effect → Prop}
    (h : Ensures p c fun a e => Q a (e.node n)) : Ensures (within n p) c Q := by
  refine .bind (record_ensures (.bind (h.mono fun a e he => ?_)))
  refine .bind (record_ensures (.pure ?_))
  have : Effect.record (.opened n) ++ (e ++ (Effect.record (.closed n) ++ {})) = e.node n := by
    apply Effect.ext <;> simp
  rw [this]
  exact he

/-- `Q` has to hold of no iteration, and of one more wherever it holds of what follows it, in contexts
that satisfy `I`. -/
theorem repeatBy_ensures {select : Terminal → Option (Pass Unit)} {I : Context → Prop}
    {Q : Context → Nat → Effect → Prop} (done : ∀ c, I c → Q c 0 {})
    (more : ∀ c t body, I c → select t = some body → Ensures body c fun _ d =>
      I (d.context c) ∧ ∀ k e, Q (d.context c) k e → Q c (k + 1) (d ++ e))
    (n : Nat) (hc : I c) : Ensures (repeatBy select n) c (Q c) := by
  induction n generalizing c with
  | zero => exact .pure (done c hc)
  | succ n ih =>
    refine .peek_bind fun t => ?_
    cases hs : select t with
    | none => exact .pure (done c hc)
    | some body =>
      refine .bind ((more c t body hc hs).mono fun _ d h => ?_)
      refine .bind ((ih h.1).mono fun k e he => .pure ?_)
      rw [e.append_empty]
      exact h.2 k e he

theorem repeatBy_ensures_items {ι : Type} {select : Terminal → Option (Pass Unit)}
    {I : Context → Prop} {f : ι → Effect} (keeps : ∀ x c, I c → I ((f x).context c))
    (more : ∀ c t body, I c → select t = some body → Ensures body c fun _ e => ∃ x, e = f x)
    (n : Nat) (hc : I c) :
    Ensures (repeatBy select n) c fun _ e => ∃ items : List ι, e = .concat (items.map f) := by
  refine repeatBy_ensures (Q := fun _ _ e => ∃ items : List ι, e = .concat (items.map f))
    (fun _ _ => ⟨[], rfl⟩) (fun c t body hc hs => (more c t body hc hs).mono ?_) n hc
  rintro _ _ ⟨x, rfl⟩
  refine ⟨keeps x c hc, ?_⟩
  rintro k _ ⟨items, rfl⟩
  exact ⟨x :: items, rfl⟩

end Jack.Pass
