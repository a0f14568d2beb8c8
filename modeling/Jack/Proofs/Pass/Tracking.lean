import Jack.Proofs.Pass.Language

/-! A procedure tracks a language if each token that it takes leaves exactly those words possible that go
on with it. Then an error cites the first token with which no word goes on, or the first that is wrong in
itself. There is a rule for each step of the pass. -/

namespace Jack.Pass

open Jack.Tree

variable {α β : Type} {n : Nat} {t : Terminal} {p : Pass α} {f : α → Pass β} {F F' K : Language}
  {G : α → Language} {H : β → Language}

/-- The tokens left where an error is met that has `after` behind the token it cites. An unexpected token is
not taken, and any other is taken before it is checked. -/
def leftBy (after : List Token) : CompileError → List Token
  | .unexpected found _ => found :: after
  | .outOfRange _ | .undefined _ => after

theorem leftBy_of_fault {m : Mention} {env : Env} {e : CompileError} (h : m.fault env = some e)
    (after : List Token) : leftBy after e = after := by
  cases m with
  | use x =>
    obtain ⟨-, rfl⟩ : _ ∧ CompileError.undefined x = e := by simpa [Mention.fault] using h
    rfl
  | constant t =>
    obtain ⟨-, rfl⟩ : _ ∧ CompileError.outOfRange t = e := by simpa [Mention.fault] using h
    rfl

/-- An error is the first one behind the tokens `before`, and is met in the state `s`. -/
structure RefusesIn (W : List Mark → Prop) (before after : List Token) (e : CompileError)
    (s : State) : Prop extends Refuses W before e where
  rest_eq : s.rest = leftBy after e

/-- With the words `W` possible and the tokens `rest` to come, a procedure has ended with the words that
`G` gives left possible, or with the first error. -/
def Answers (W : List Mark → Prop) (rest : List Token) (G : α → Language) :
    EStateM.Result CompileError State α → Prop
  | .ok a s => ∃ taken, rest = taken ++ s.rest ∧ Leads W taken s.peek.terminal (G a s.names)
  | .error e s => ∃ before after, rest = before ++ e.token :: after ∧ RefusesIn W before after e s

/-- With the terminal `t` next and at most `n` tokens left, a procedure tracks a language. -/
def TracksAt (n : Nat) (t : Terminal) (p : Pass α) (F : Language) (G : α → Language) : Prop :=
  ∀ s : State, s.peek.terminal = t → s.ahead.length ≤ n → Answers (F s.names) s.rest G (p s)

/-- With at most `n` tokens left, a procedure tracks a language. -/
def Tracks (n : Nat) (p : Pass α) (F : Language) (G : α → Language) : Prop := ∀ t, TracksAt n t p F G

/-- With the terminal `t` next and at most `n` tokens left, a procedure takes a token that is not checked
and tracks a language behind it. -/
def TakesAt (n : Nat) (t : Terminal) (p : Pass α) (F : Language) (G : α → Language) : Prop :=
  ∀ s : State, s.peek.terminal = t → s.ahead.length ≤ n →
    ∃ V, Leads (F s.names) [s.peek] (next s.accept.rest) V ∧ Answers V s.accept.rest G (p s)

theorem State.length_accept_le {s : State} (hp : s.peek.terminal ≠ .eof)
    (hs : s.ahead.length ≤ n + 1) : s.accept.ahead.length ≤ n := by
  rw [s.ahead_eq_cons hp, List.length_cons] at hs
  omega

section

variable {W V : List Mark → Prop} {taken rest : List Token} {s : State}

theorem Leads.answers {r : EStateM.Result CompileError State α} (h : Leads W taken (next rest) V)
    (hr : Answers V rest G r) : Answers W (taken ++ rest) G r := by
  cases r with
  | ok a s =>
    obtain ⟨more, rfl, hm⟩ := hr
    exact ⟨taken ++ more, by simp, h.trans hm s.next_rest⟩
  | error e s =>
    obtain ⟨before, after, rfl, hb⟩ := hr
    exact ⟨taken ++ before, after, by simp, h.refuses hb.toRefuses, hb.rest_eq⟩

/-- What follows answers with the words that are left possible, and takes no more than the tokens left. -/
theorem Answers.bind (h : Answers W rest G (p s))
    (hf : ∀ a s₁, p s = .ok a s₁ → s₁.rest.length ≤ rest.length →
      Answers (G a s₁.names) s₁.rest H (f a s₁)) : Answers W rest H ((p >>= f) s) := by
  change Answers _ _ _ (EStateM.bind p f s)
  unfold EStateM.bind
  cases hr : p s with
  | error e s₁ =>
    rw [hr] at h
    exact h
  | ok a s₁ =>
    rw [hr] at h
    obtain ⟨taken, rfl, hl⟩ := h
    rw [← s₁.next_rest] at hl
    exact hl.answers (hf a s₁ hr (by simp))

/-- The lookahead is rejected where no word starts with it. -/
theorem answers_unexpected {expected : Expectation}
    (hs : ∀ w, F s.names w → next (w.map Mark.token) ≠ s.peek.terminal)
    (he : ∀ ts, expected = .oneOf ts → ∀ l : Leaf ts, Viable (F s.names) [l.token]) :
    Answers (F s.names) s.rest G (.error (.unexpected s.peek expected) s) := by
  obtain ⟨ts, hr⟩ := s.exists_rest_eq_cons
  exact ⟨[], ts, hr, refuses_unexpected hs he, hr⟩

end

namespace TracksAt

theorem narrow (h : TracksAt n t p F' G) (hF : Narrows t F F') : TracksAt n t p F G := by
  intro s hp hs
  have hl : Leads (F s.names) [] (next s.rest) (F' s.names) := by
    rw [s.next_rest, hp]
    exact hF.leads _
  exact hl.answers (h s hp hs)

theorem mono {m : Nat} (h : TracksAt n t p F G) (hm : m ≤ n) : TracksAt m t p F G :=
  fun s hp hs => h s hp (Nat.le_trans hs hm)

theorem pure (a : α) : TracksAt n t (Pure.pure a : Pass α) (G a) G :=
  fun s _ _ => ⟨[], rfl, Narrows.leads ⟨fun _ _ h => h, fun _ _ h _ => h⟩ s.names⟩

theorem bind (h : TracksAt n t p F G) (hf : ∀ a, Tracks n (f a) (G a) H) :
    TracksAt n t (p >>= f) F H := by
  intro s hp hs
  refine (h s hp hs).bind fun a s₁ _ hl => hf a _ s₁ rfl ?_
  rw [State.length_rest, State.length_rest] at hl
  omega

theorem peek_bind {f : Terminal → Pass β} (h : TracksAt n t (f t) F H) :
    TracksAt n t (peek >>= f) F H := by
  intro s hp hs
  change Answers _ _ _ (f s.peek.terminal s)
  rw [hp]
  exact h s hp hs

/-- A procedure that leaves a word which was none before has taken a token. -/
theorem length_lt (h : TracksAt n t p F G) {s s₁ : State} {a : α} (hp : s.peek.terminal = t)
    (hs : s.ahead.length ≤ n) (hr : p s = .ok a s₁) (hG : ∃ w, G a s₁.names w ∧ ¬ F s.names w) :
    s₁.ahead.length < s.ahead.length := by
  have h := h s hp hs
  rw [hr] at h
  obtain ⟨taken, ht, hl⟩ := h
  obtain ⟨w, hw, hf⟩ := hG
  obtain ⟨u, hu, htu⟩ := hl.extend w hw
  have hne : taken ≠ [] := by
    rintro rfl
    rw [List.map_eq_nil_iff.mp htu] at hu
    exact hf hu
  have hlen := congrArg List.length ht
  have hpos := List.length_pos_iff.mpr hne
  simp only [List.length_append, State.length_rest] at hlen
  omega

/-- A token with which no word starts is rejected. -/
theorem reject {expected : Expectation} (h : Starts (· ≠ t) F) (he : ∀ ts, expected ≠ .oneOf ts) :
    TracksAt n t (reject expected : Pass α) F G := by
  intro s hp _
  exact answers_unexpected (fun w hw => hp ▸ h _ w hw) fun ts ht => absurd ht (he ts)

end TracksAt

namespace Tracks

theorem congr (h : Tracks n p F' G) (hF : ∀ c w, F c w ↔ F' c w) : Tracks n p F G :=
  fun t => (h t).narrow ⟨fun c w => (hF c w).mpr, fun c w hw _ => (hF c w).mp hw⟩

theorem mono {m : Nat} (h : Tracks n p F G) (hm : m ≤ n) : Tracks m p F G := fun t => (h t).mono hm

theorem pure (a : α) : Tracks n (Pure.pure a : Pass α) (G a) G := fun _ => .pure a

theorem bind (h : Tracks n p F G) (hf : ∀ a, Tracks n (f a) (G a) H) : Tracks n (p >>= f) F H :=
  fun t => (h t).bind hf

theorem discard (h : Tracks n p F fun _ => K) : Tracks n (Functor.discard p) F fun _ => K :=
  h.bind fun _ => Tracks.pure (G := fun _ => K) ()

theorem peek_bind {f : Terminal → Pass β} (h : ∀ t, TracksAt n t (f t) F H) :
    Tracks n (peek >>= f) F H := fun t => (h t).peek_bind

/-- With no token left, the end of input comes next. -/
theorem zero (h : TracksAt 0 .eof p F G) : Tracks 0 p F G := by
  intro t s _ hs
  refine h s ?_ hs
  rw [← s.next_ahead, List.length_eq_zero_iff.mp (Nat.le_zero.mp hs)]
  rfl

end Tracks

namespace TakesAt

theorem tracksAt (h : TakesAt n t p F G) (ht : t ≠ .eof) : TracksAt n t p F G := by
  intro s hp hs
  obtain ⟨V, hl, hr⟩ := h s hp hs
  rw [s.rest_eq_cons_accept (hp ▸ ht)]
  exact hl.answers hr

theorem narrow (h : TakesAt n t p F' G) (hF : Narrows t F F') : TakesAt n t p F G := by
  intro s hp hs
  obtain ⟨V, hl, hr⟩ := h s hp hs
  have hn : Leads (F s.names) [] (next ([s.peek] ++ s.accept.rest)) (F' s.names) := by
    rw [List.singleton_append, next_cons, hp]
    exact hF.leads _
  exact ⟨V, hn.trans hl rfl, hr⟩

theorem mono {m : Nat} (h : TakesAt n t p F G) (hm : m ≤ n) : TakesAt m t p F G :=
  fun s hp hs => h s hp (Nat.le_trans hs hm)

theorem peek_bind {f : Terminal → Pass β} (h : TakesAt n t (f t) F H) :
    TakesAt n t (peek >>= f) F H := by
  intro s hp hs
  change ∃ V, _ ∧ Answers _ _ _ (f s.peek.terminal s)
  rw [hp]
  exact h s hp hs

end TakesAt

/-- A step that takes no token and changes the context by `g`. -/
def Silent (g : Context → Context) (p : Pass α) : Prop :=
  ∀ s : State, ∃ a s', p s = .ok a s' ∧ s'.peek = s.peek ∧ s'.source = s.source ∧ s'.names = g s.names

namespace Silent

variable {g : Context → Context}

theorem tracks (h : Silent g p) (K : Language) : Tracks n p (K.via g) fun _ => K := by
  intro t s hp hs
  obtain ⟨a, s', hr, hp', hs', hn⟩ := h s
  rw [hr]
  have hK := Narrows.leads (t := s'.peek.terminal) (F := K) ⟨fun _ _ h => h, fun _ _ h _ => h⟩ s'.names
  rw [hn] at hK
  exact ⟨[], by simp [State.rest, State.ahead, State.stop, hp', hs'], hn ▸ hK⟩

theorem bindAt (h : Silent g p) (hf : ∀ a, TracksAt n t (f a) K H) :
    TracksAt n t (p >>= f) (K.via g) H := by
  intro s hp hs
  obtain ⟨a, s', hr, hp', hs', hn⟩ := h s
  have ha : s'.ahead = s.ahead := by simp [State.ahead, hp', hs']
  have hw := hf a s' (by rw [hp', hp]) (by rw [ha]; exact hs)
  rw [hn, show s'.rest = s.rest by simp [State.rest, State.stop, ha, hp', hs']] at hw
  change Answers (K (g s.names)) _ _ (EStateM.bind p f s)
  simpa only [EStateM.bind, hr] using hw

theorem bind (h : Silent g p) (hf : ∀ a, Tracks n (f a) K H) : Tracks n (p >>= f) (K.via g) H :=
  fun t => h.bindAt fun a => hf a t

/-! Most of these steps leave the names as they are. -/

theorem andThen (h : Silent id p) (hf : ∀ a, Silent id (f a)) : Silent id (p >>= f) := by
  intro s
  obtain ⟨a, s₁, h₁, hp, hs, hn⟩ := h s
  obtain ⟨b, s₂, h₂, hp', hs', hn'⟩ := hf a s₁
  refine ⟨b, s₂, ?_, hp'.trans hp, hs'.trans hs, hn'.trans hn⟩
  change EStateM.bind p f s = _
  simp only [EStateM.bind, h₁, h₂]

theorem stay (h : Silent id p) : Tracks n p K fun _ => K := h.tracks K

theorem skip (h : Silent id p) (hf : ∀ a, Tracks n (f a) F H) : Tracks n (p >>= f) F H := h.bind hf

theorem takes (h : Silent id p) (hf : ∀ a, TakesAt n t (f a) F H) : TakesAt n t (p >>= f) F H := by
  intro s hp hs
  obtain ⟨a, s', hr, hp', hs', hn⟩ := h s
  have ha : s'.ahead = s.ahead := by simp [State.ahead, hp', hs']
  have hx : s'.accept.rest = s.accept.rest := by
    simp [State.rest, State.ahead, State.stop, State.accept, hs']
  have hw := hf a s' (by rw [hp', hp]) (by rw [ha]; exact hs)
  rw [hn, hx, hp', id] at hw
  change ∃ V, _ ∧ Answers _ _ _ (EStateM.bind p f s)
  simpa only [EStateM.bind, hr] using hw

end Silent

theorem silent_pure (a : α) : Silent id (pure a : Pass α) := fun s => ⟨a, s, rfl, rfl, rfl, rfl⟩

theorem silent_emit (i : Instruction) : Silent id (emit i) := fun _ => ⟨(), _, rfl, rfl, rfl, rfl⟩

theorem silent_record (e : Trace.Entry) : Silent id (record e) :=
  fun _ => ⟨(), _, rfl, rfl, rfl, rfl⟩

theorem silent_note (x : Note) : Silent id (note x) := fun _ => ⟨(), _, rfl, rfl, rfl, rfl⟩

theorem silent_get : Silent id (get : Pass State) := fun s => ⟨s, s, rfl, rfl, rfl, rfl⟩

theorem silent_ownSubroutine (name : Text) : Silent id (ownSubroutine name) :=
  fun s => ⟨_, s, rfl, rfl, rfl, rfl⟩

theorem silent_declare (name type : Text) (storage : Storage) :
    Silent (.declareAll [⟨name, type, storage⟩]) (declare name type storage) :=
  fun _ => ⟨(), _, rfl, rfl, rfl, rfl⟩

theorem TracksAt.within {k : Nonterminal} (h : TracksAt n t p F G) : TracksAt n t (within k p) F G :=
  (silent_record _).bindAt (K := F) fun _ => h.bind fun a => (silent_record _).skip fun _ => .pure a

theorem Tracks.within {k : Nonterminal} (h : Tracks n p F G) : Tracks n (within k p) F G :=
  fun t => (h t).within

section

variable {ts : List Terminal} [Nonempty (Leaf ts)]

theorem expect_takes {q : Token → Pass β} {L : Leaf ts → Language} (he : .eof ∉ ts) (ht : t ∈ ts)
    (h : ∀ l : Leaf ts, Tracks n (q l.token) (L l) H) :
    TakesAt (n + 1) t (expect ts >>= q) (.leaf ts L) H := by
  intro s hp hs
  subst hp
  refine ⟨_, leads_leaf ⟨s.peek, ht⟩ _, ?_⟩
  change Answers _ _ _ (EStateM.bind (expect ts) q s)
  simp only [EStateM.bind, expect, ht, if_true]
  exact h ⟨s.peek, ht⟩ _ s.accept rfl (s.length_accept_le (fun hp => he (hp ▸ ht)) hs)

theorem expect_rejects {q : Token → Pass β} {L : Leaf ts → Language} (ht : t ∉ ts) :
    TracksAt n t (expect ts >>= q) (.leaf ts L) H := by
  intro s hp _
  subst hp
  change Answers _ _ _ (EStateM.bind (expect ts) q s)
  simp only [EStateM.bind, expect, ht, if_false]
  refine answers_unexpected (F := .leaf ts L) ?_ ?_
  · rintro _ ⟨l, k, -, rfl⟩ hl
    exact ht (hl ▸ l.terminal_mem)
  · rintro _ ⟨⟩ l
    obtain ⟨k, hk⟩ := (L l).live s.names
    exact ⟨[l.mark], k, ⟨l, k, hk, rfl⟩, rfl⟩

theorem expect_bind {q : Token → Pass β} {L : Leaf ts → Language} (he : .eof ∉ ts)
    (h : ∀ l : Leaf ts, Tracks n (q l.token) (L l) H) :
    Tracks (n + 1) (expect ts >>= q) (.leaf ts L) H := by
  intro t
  by_cases ht : t ∈ ts
  · exact (expect_takes he ht h).tracksAt fun hp => he (hp ▸ ht)
  · exact expect_rejects ht

/-- A token is checked after it is taken. -/
theorem checked_bind {m : Token → Mention} (hm : ∀ t, (m t).token = t) {q : Token → Pass β}
    (he : .eof ∉ ts)
    (ok : ∀ (l : Leaf ts) (s : State), (m l.token).fault s.names.env = none → s.ahead.length ≤ n →
      Answers (K s.names) s.rest H (q l.token s))
    (error : ∀ (l : Leaf ts) (s : State) e, (m l.token).fault s.names.env = some e →
      q l.token s = .error e s) :
    Tracks (n + 1) (expect ts >>= q) (.checked ts m K) H := by
  intro t s _ hs
  change Answers _ _ _ (EStateM.bind (expect ts) q s)
  unfold EStateM.bind expect
  obtain ⟨k, hk⟩ := K.live s.names
  by_cases hp : s.peek.terminal ∈ ts
  · let l : Leaf ts := ⟨s.peek, hp⟩
    have hp' : s.peek.terminal ≠ .eof := fun h => he (h ▸ hp)
    simp only [hp, if_true]
    rw [s.rest_eq_cons_accept hp']
    cases hf : (m s.peek).fault s.names.env with
    | some e =>
      rw [error l s.accept e hf]
      obtain ⟨ht, hr⟩ := refuses_mark hf (W := Language.checked ts m K s.names) ⟨l, k, hk, rfl⟩
      exact ⟨[], _, by rw [ht, hm]; rfl, hr, (leftBy_of_fault hf _).symm⟩
    | none =>
      exact (leads_checked hm l _ hf).answers (ok l s.accept hf (s.length_accept_le hp' hs))
  · simp only [hp, if_false]
    refine answers_unexpected (F := .checked ts m K) ?_ ?_
    · rintro _ ⟨l, k, -, rfl⟩ hl
      rw [List.map_cons, Mention.token_mark, hm, next_cons] at hl
      exact hp (hl ▸ l.terminal_mem)
    · rintro _ ⟨⟩ l
      exact ⟨[(m l.token).mark s.names.env], k, ⟨l, k, hk, rfl⟩, by simp [hm]⟩

end

section

theorem discard_bind (p : Pass α) (f : Unit → Pass β) :
    Functor.discard p >>= f = p >>= fun _ => f () := by
  funext s
  change EStateM.bind (EStateM.bind p _) f s = EStateM.bind p _ s
  unfold EStateM.bind
  cases p s <;> rfl

variable {f : Unit → Pass β}

theorem token_bind (ht : t ≠ .eof) (h : Tracks n (f ()) K H) :
    Tracks (n + 1) (discard (expect [t]) >>= f) (.token t K) H := by
  rw [discard_bind]
  exact expect_bind (by simpa using ht.symm) fun _ => h

theorem token_takes (ht : t ≠ .eof) (h : Tracks n (f ()) K H) :
    TakesAt (n + 1) t (discard (expect [t]) >>= f) (.token t K) H := by
  rw [discard_bind]
  exact expect_takes (by simpa using ht.symm) (by simp) fun _ => h

theorem token_rejects {t' : Terminal} (ht : t ≠ t') :
    TracksAt n t (discard (expect [t']) >>= f) (.token t' K) H := by
  rw [discard_bind]
  exact expect_rejects (by simpa using ht)

theorem leaf_tracks {ts : List Terminal} [Nonempty (Leaf ts)] (he : .eof ∉ ts) :
    Tracks n (discard (expect ts)) (.leaf ts fun _ => K) fun _ => K := by
  have h : Tracks (n + 1) (expect ts >>= fun _ => pure ()) (.leaf ts fun _ => K) fun _ => K :=
    expect_bind he fun _ => Tracks.pure (G := fun _ => K) ()
  exact h.mono (Nat.le_succ n)

theorem token_tracks (ht : t ≠ .eof) : Tracks n (discard (expect [t])) (.token t K) fun _ => K :=
  leaf_tracks (by simpa using ht.symm)

end

section

variable {r : Variable → Pass β} {x : Token} {s : State}

theorem resolve_bind_error {e : CompileError} (h : (Mention.use x).fault s.names.env = some e) :
    (resolve x >>= r) s = .error e s := by
  change EStateM.bind (resolve x) r s = _
  cases hv : s.scopes.resolve? x.lexeme with
  | some v => simp [Mention.fault, Context.env, State.names, hv] at h
  | none =>
    obtain rfl : CompileError.undefined x = e := by
      simpa [Mention.fault, Context.env, State.names, hv] using h
    simp [EStateM.bind, resolve, hv]

theorem resolve_bind_ok (h : (Mention.use x).fault s.names.env = none) :
    ∃ v, (resolve x >>= r) s = r v s := by
  change ∃ v, EStateM.bind (resolve x) r s = _
  cases hv : s.scopes.resolve? x.lexeme with
  | some v => exact ⟨v, by simp [EStateM.bind, resolve, hv]⟩
  | none => simp [Mention.fault, Context.env, State.names, hv] at h

end

theorem use_bind {r : Variable → Pass β} (h : ∀ v, Tracks n (r v) K H) :
    Tracks (n + 1) (ident >>= fun x => resolve x >>= r) (.checked [.ident] .use K) H := by
  refine checked_bind (fun _ => rfl) (by simp) (fun x s hf hs => ?_) fun x s e hf => ?_
  · obtain ⟨v, hv⟩ := resolve_bind_ok (r := r) hf
    rw [hv]
    exact h v _ s rfl hs
  · exact resolve_bind_error hf

/-- A name that is taken before it is known whether it is used as a variable. It is not where one of the
terminals `calls` comes next. -/
theorem name_bind (calls : Terminal → Bool) (he : calls .eof = false) {q : Token → Terminal → Pass β}
    {Q R : Language} (hQ : Starts (calls · = true) Q) (hR : Starts (calls · = false) R)
    (call : ∀ (x : Name) t, calls t = true → TakesAt n t (q x.token t) Q H)
    (use : ∀ (x : Name) t, calls t = false → ∃ r : Variable → Pass β,
      q x.token t = resolve x.token >>= r ∧ ∀ v, TracksAt n t (r v) R H) :
    Tracks (n + 1) (ident >>= fun x => peek >>= q x) (.named Q R) H := by
  intro t s _ hs
  change Answers _ _ _ (EStateM.bind (expect [.ident]) (fun x => peek >>= q x) s)
  unfold EStateM.bind expect
  obtain ⟨k, hk⟩ := R.live s.names
  by_cases hp : s.peek.terminal ∈ [Terminal.ident]
  · let x : Name := ⟨s.peek, hp⟩
    have hp' : s.peek.terminal ≠ .eof := by simp [List.mem_singleton.mp hp]
    have ha := s.length_accept_le hp' hs
    simp only [hp, if_true]
    rw [s.rest_eq_cons_accept hp']
    cases hc : calls s.accept.peek.terminal with
    | true =>
      obtain ⟨V, hV, hr⟩ := (call x _ hc).peek_bind s.accept rfl ha
      have hn : s.accept.peek.terminal ≠ .eof := by
        intro h
        simp [h, he] at hc
      rw [s.accept.rest_eq_cons_accept hn]
      exact (leads_named_call hR x hc hV).answers hr
    | false =>
      obtain ⟨r, hq, hr⟩ := use x _ hc
      change Answers _ _ _ (q x.token s.accept.peek.terminal s.accept)
      rw [hq]
      cases hf : (Mention.use s.peek).fault s.names.env with
      | some e =>
        rw [resolve_bind_error (s := s.accept) hf]
        obtain ⟨ht, hr⟩ :=
          refuses_mark hf (W := Language.named Q R s.names) (.inl ⟨x, k, hk, rfl⟩)
        exact ⟨[], _, by rw [ht]; rfl, hr, (leftBy_of_fault hf _).symm⟩
      | none =>
        obtain ⟨v, hv⟩ := resolve_bind_ok (r := r) (s := s.accept) hf
        rw [hv]
        have hn : calls (next s.accept.rest) = false := by rw [State.next_rest, hc]
        exact (leads_named_use hQ x hn hf).answers (hr v s.accept rfl ha)
  · simp only [hp, if_false]
    refine answers_unexpected (F := .named Q R) ?_ ?_
    · rintro _ (⟨l, k, -, rfl⟩ | ⟨l, k, -, rfl⟩) hl
      · exact hp (hl ▸ l.terminal_mem)
      · exact hp (hl ▸ l.terminal_mem)
    · rintro _ ⟨⟩ l
      exact ⟨[(Mention.use l.token).mark s.names.env], k, .inl ⟨l, k, hk, rfl⟩, rfl⟩

/-- A loop tracks the items that `B` allows and, behind them, what `K` allows. An item is followed by the
loop again, and the lookahead tells whether there is one. -/
theorem repeatBy_tracks {select : Terminal → Option (Pass Unit)} {L B : Language}
    (he : select .eof = none) (hL : ∀ c w, L c w ↔ K c w ∨ B c w)
    (hK : Starts (select · = none) K) (hB : Starts (select · ≠ none) B)
    (more : ∀ t body, select t = some body → TracksAt n t body B fun _ => L) (m : Nat) (hm : m ≤ n) :
    Tracks m (repeatBy select m) L fun _ => K := by
  have done : ∀ m t, select t = none → TracksAt m t (pure 0 : Pass Nat) L fun _ => K := by
    intro m t ht
    refine (TracksAt.pure (G := fun _ => K) 0).narrow (narrows_left hL (hB.mono ?_))
    rintro _ hb rfl
    exact hb ht
  induction m with
  | zero => exact .zero (done 0 _ he)
  | succ m ih =>
    refine .peek_bind fun t => ?_
    cases ht : select t with
    | none => exact done _ t ht
    | some body =>
      have hb : TracksAt n t body L fun _ => L := by
        refine (more t body ht).narrow (narrows_right hL (hK.mono ?_))
        rintro _ hk rfl
        simp [ht] at hk
      have hr : Tracks m (repeatBy select m >>= fun k => pure (k + 1)) L fun _ => K :=
        (ih (Nat.le_of_succ_le hm)).bind fun k => Tracks.pure (G := fun _ => K) (k + 1)
      intro s hp hs
      refine (hb s hp (Nat.le_trans hs hm)).bind fun a s₁ hbs _ => hr _ s₁ rfl ?_
      -- What may follow the loop could not have stood in place of the item.
      have hlt : s₁.ahead.length < s.ahead.length := by
        refine (more t body ht).length_lt hp (Nat.le_trans hs hm) hbs ?_
        obtain ⟨w, hw⟩ := K.live s₁.names
        exact ⟨w, (hL _ w).mpr (.inl hw), fun h => hB _ w h (hK _ w hw)⟩
      omega

end Jack.Pass
