import Jack.Proofs.Tree.Mark
import Jack.Proofs.Tree.ClassEffect

/-! What the tokens taken so far leave possible. A language gives the words that may follow in a context,
and taking tokens leads from its words to those that go on with them. -/

namespace Jack.Pass

open Jack.Tree

namespace State

variable (s : State)

/-- The part of the context that decides which names stand for variables. -/
def names : Context := ⟨s.className, s.scopes, 0, 0⟩

/-- The token at which the input ends. -/
def stop : Token :=
  ((s.peek :: s.source.tokens).find? (·.terminal = .eof)).getD s.source.endToken

/-- The tokens not taken yet, and the one at which the input ends. -/
def rest : List Token := s.ahead ++ [s.stop]

theorem length_rest : s.rest.length = s.ahead.length + 1 := by simp [rest]

theorem rest_eq_cons_accept (h : s.peek.terminal ≠ .eof) : s.rest = s.peek :: s.accept.rest := by
  have hs : s.stop = s.accept.stop := by
    unfold stop accept Source.next
    cases ht : s.source.tokens <;> simp [Source.endToken, h]
  simp [rest, hs, s.ahead_eq_cons h]

theorem exists_rest_eq_cons : ∃ ts, s.rest = s.peek :: ts := by
  by_cases h : s.peek.terminal = .eof
  · exact ⟨[], by simp [rest, ahead, stop, h]⟩
  · exact ⟨_, s.rest_eq_cons_accept h⟩

@[simp] theorem next_rest : next s.rest = s.peek.terminal := by
  obtain ⟨ts, h⟩ := s.exists_rest_eq_cons
  rw [h, next_cons]

end State

/-- The words that may follow in a context. There always are some. -/
structure Language where
  words : Context → List Mark → Prop
  live : ∀ c, ∃ w, words c w

instance : CoeFun Language fun _ => Context → List Mark → Prop := ⟨Language.words⟩

instance {t : Terminal} {ts : List Terminal} : Inhabited (Leaf (t :: ts)) :=
  ⟨⟨⟨t, [], 0⟩, List.mem_cons_self⟩⟩

instance : Nonempty Name := ⟨default⟩

namespace Language

/-- Nothing follows. -/
def nil : Language where
  words _ w := w = []
  live _ := ⟨[], rfl⟩

/-- A token of one of the given terminals, and what may follow it. -/
def leaf (ts : List Terminal) [h : Nonempty (Leaf ts)] (K : Leaf ts → Language) : Language where
  words c w := ∃ l k, K l c k ∧ w = l.mark :: k
  live c := by
    obtain ⟨l⟩ := h
    obtain ⟨k, hk⟩ := (K l).live c
    exact ⟨_, l, k, hk, rfl⟩

/-- A token that is checked, and what may follow it. -/
def checked (ts : List Terminal) [h : Nonempty (Leaf ts)] (m : Token → Mention) (K : Language) :
    Language where
  words c w := ∃ (l : Leaf ts) (k : List Mark), K c k ∧ w = (m l.token).mark c.env :: k
  live c := by
    obtain ⟨l⟩ := h
    obtain ⟨k, hk⟩ := K.live c
    exact ⟨_, l, k, hk, rfl⟩

/-- A tree that declares nothing, and what may follow it. -/
def tree {ι : Type} [h : Nonempty ι] (marks : Context → ι → List Mark) (K : Language) :
    Language where
  words c w := ∃ x k, K c k ∧ w = marks c x ++ k
  live c := by
    obtain ⟨x⟩ := h
    obtain ⟨k, hk⟩ := K.live c
    exact ⟨_, x, k, hk, rfl⟩

/-- A tree that declares variables, and what may follow it where they are declared. -/
def declaring {ι : Type} [h : Nonempty ι] (tokens : ι → List Token)
    (declarations : ι → List Declaration) (K : Language) : Language where
  words c w := ∃ x k, K (c.declareAll (declarations x)) k ∧ w = plain (tokens x) ++ k
  live c := by
    obtain ⟨x⟩ := h
    obtain ⟨k, hk⟩ := K.live (c.declareAll (declarations x))
    exact ⟨_, x, k, hk, rfl⟩

/-- The words of a language in a context that is changed first. -/
def via (g : Context → Context) (K : Language) : Language := ⟨fun c => K (g c), fun c => K.live (g c)⟩

/-- A token of the given terminal, and what may follow it. -/
abbrev token (t : Terminal) (K : Language) : Language := leaf [t] fun _ => K

def either (F G : Language) : Language where
  words c w := F c w ∨ G c w
  live c := (F.live c).imp fun _ => .inl

/-- A tree between two symbols, and what may follow it. -/
def enclosed (p q : Punct) {ι : Type} [Nonempty ι] (marks : Context → ι → List Mark) (K : Language) :
    Language :=
  token (.punct p) (tree marks (token (.punct q) K))

theorem enclosed_iff {p q : Punct} {ι : Type} [Nonempty ι] {marks : Context → ι → List Mark}
    {K : Language} {c : Context} {w : List Mark} :
    enclosed p q marks K c w ↔
      ∃ (pair : Pair p q) (x : ι) (k : List Mark), K c k ∧ w = pair.marks (marks c x) ++ k := by
  constructor
  · rintro ⟨opening, _, ⟨x, _, ⟨closing, k, hk, rfl⟩, rfl⟩, rfl⟩
    exact ⟨⟨opening, closing⟩, x, k, hk, by simp⟩
  · rintro ⟨pair, x, k, hk, rfl⟩
    exact ⟨pair.opening, _, ⟨x, _, ⟨pair.closing, k, hk, rfl⟩, rfl⟩, by simp⟩

end Language

/-- Every word of a language starts with a terminal that satisfies `P`. -/
def Starts (P : Terminal → Prop) (F : Language) : Prop :=
  ∀ c w, F c w → P (next (w.map Mark.token))

section

variable {P Q : Terminal → Prop} {K F G : Language}

theorem Starts.mono (h : Starts P K) (hP : ∀ t, P t → Q t) : Starts Q K :=
  fun c w hw => hP _ (h c w hw)

theorem starts_leaf {ts : List Terminal} [Nonempty (Leaf ts)] {L : Leaf ts → Language}
    (h : ∀ t ∈ ts, P t) : Starts P (.leaf ts L) := by
  rintro c _ ⟨l, k, -, rfl⟩
  exact h _ l.terminal_mem

theorem starts_token {t : Terminal} (h : P t) : Starts P (.token t K) :=
  starts_leaf (by simpa using h)

theorem starts_either (hF : Starts P F) (hG : Starts P G) : Starts P (.either F G) := by
  rintro c w (h | h)
  · exact hF c w h
  · exact hG c w h

end

/-- As long as the terminal `t` comes first, two languages have the same words, and those of the second
are words of the first in any case. -/
structure Narrows (t : Terminal) (F F' : Language) : Prop where
  sub : ∀ c w, F' c w → F c w
  all : ∀ c w, F c w → next (w.map Mark.token) = t → F' c w

section

variable {F A B : Language} {t : Terminal}

/-- Of two alternatives, the one is left that the terminal does not exclude. -/
theorem narrows_left (h : ∀ c w, F c w ↔ A c w ∨ B c w) (hB : Starts (· ≠ t) B) : Narrows t F A where
  sub c w hw := (h c w).mpr (.inl hw)
  all c w hw hn := ((h c w).mp hw).resolve_right fun hw => hB c w hw hn

theorem narrows_right (h : ∀ c w, F c w ↔ A c w ∨ B c w) (hA : Starts (· ≠ t) A) : Narrows t F B :=
  narrows_left (fun c w => (h c w).trans or_comm) hA

end

section

variable {W V : List Mark → Prop} {taken before rest : List Token} {t : Terminal} {e : CompileError}

/-- Some word starts with the given tokens. -/
def Viable (W : List Mark → Prop) (ts : List Token) : Prop :=
  ∃ u v, W (u ++ v) ∧ u.map Mark.token = ts

/-- Taking tokens leaves the words `V` of `W`, where `t` comes next. -/
structure Leads (W : List Mark → Prop) (taken : List Token) (t : Terminal)
    (V : List Mark → Prop) : Prop where
  /-- None of the tokens is wrong, whatever follows them. -/
  clean : ∀ u v, W (u ++ v) → u.map Mark.token = taken → Clean u
  drop : ∀ u v, W (u ++ v) → u.map Mark.token = taken → next (v.map Mark.token) = t → V v
  extend : ∀ v, V v → ∃ u, W (u ++ v) ∧ u.map Mark.token = taken

/-- An error is the first one behind the tokens `before`. -/
structure Refuses (W : List Mark → Prop) (before : List Token) (e : CompileError) : Prop where
  clean : ∀ u v, W (u ++ v) → u.map Mark.token = before → Clean u
  /-- No word goes on with an unexpected token, and some word with each of those expected. In every other
  case some word goes on with the token, which is wrong there. -/
  cause : match e with
    | .unexpected found expected =>
      Viable W before ∧
      (∀ u v, W (u ++ v) → u.map Mark.token = before → next (v.map Mark.token) ≠ found.terminal) ∧
      ∀ ts, expected = .oneOf ts → ∀ l : Leaf ts, Viable W (before ++ [l.token])
    | .outOfRange t | .undefined t => ∃ u v, W (u ++ ⟨t, some e⟩ :: v) ∧ u.map Mark.token = before

theorem Viable.of_leads (h : Leads W taken t V) {ts : List Token} (hv : Viable V ts) :
    Viable W (taken ++ ts) := by
  obtain ⟨u, v, hv, hu⟩ := hv
  obtain ⟨u', hw, hu'⟩ := h.extend _ hv
  exact ⟨u' ++ u, v, by simpa using hw, by simp [hu, hu']⟩

/-- What is left of a word behind the tokens taken, if it goes on with the tokens that come next. -/
theorem Leads.split (h : Leads W taken (next (before ++ rest)) V) {u v : List Mark} (hw : W (u ++ v))
    (hu : u.map Mark.token = taken ++ before)
    (hn : before = [] → next (v.map Mark.token) = next rest) :
    ∃ u₁ u₂, u = u₁ ++ u₂ ∧ u₂.map Mark.token = before ∧ Clean u₁ ∧ V (u₂ ++ v) := by
  obtain ⟨u₁, u₂, rfl, h₁, h₂⟩ := List.map_eq_append_iff.mp hu
  rw [List.append_assoc] at hw
  refine ⟨u₁, u₂, rfl, h₂, h.clean _ _ hw h₁, h.drop _ _ hw h₁ ?_⟩
  rw [List.map_append, h₂]
  cases before with
  | nil => exact hn rfl
  | cons t ts => rfl

/-- Tokens are clean if those taken first are and those taken behind them. -/
theorem Leads.clean_append (h : Leads W taken (next (before ++ rest)) V)
    (hV : ∀ u v, V (u ++ v) → u.map Mark.token = before → Clean u) (u v : List Mark)
    (hw : W (u ++ v)) (hu : u.map Mark.token = taken ++ before) : Clean u := by
  by_cases hb : before = []
  · exact h.clean u v hw (by simpa [hb] using hu)
  · obtain ⟨u₁, u₂, rfl, h₂, hc, hv⟩ := h.split hw hu fun h => absurd h hb
    exact Tree.clean_append.mpr ⟨hc, hV _ _ hv h₂⟩

theorem Leads.trans {t' : Terminal} {X : List Mark → Prop} (h : Leads W taken (next (before ++ rest)) V)
    (h' : Leads V before t' X) (ht : next rest = t') : Leads W (taken ++ before) t' X where
  clean := h.clean_append h'.clean
  drop u v hw hu hn := by
    obtain ⟨u₁, u₂, rfl, h₂, -, hv⟩ := h.split hw hu fun _ => hn.trans ht.symm
    exact h'.drop _ _ hv h₂ hn
  extend v hx := by
    obtain ⟨u₂, hv, h₂⟩ := h'.extend v hx
    obtain ⟨u₁, hw, h₁⟩ := h.extend _ hv
    exact ⟨u₁ ++ u₂, by simpa using hw, by simp [h₁, h₂]⟩

theorem Leads.refuses (h : Leads W taken (next (before ++ e.token :: rest)) V)
    (hr : Refuses V before e) : Refuses W (taken ++ before) e where
  clean := h.clean_append hr.clean
  cause := by
    have hm : ∀ x, (∃ u v, V (u ++ x :: v) ∧ u.map Mark.token = before) →
        ∃ u v, W (u ++ x :: v) ∧ u.map Mark.token = taken ++ before := by
      rintro x ⟨u, v, hv, hu⟩
      obtain ⟨u', hw, hu'⟩ := h.extend _ hv
      exact ⟨u' ++ u, v, by simpa using hw, by simp [hu, hu']⟩
    cases e with
    | unexpected found expected =>
      obtain ⟨hv, hn, he⟩ := hr.cause
      refine ⟨hv.of_leads h, fun u v hw hu hf => ?_, fun ts ht l => ?_⟩
      · obtain ⟨u₁, u₂, rfl, h₂, -, hv⟩ := h.split hw hu fun _ => hf
        exact hn u₂ v hv h₂ hf
      · rw [List.append_assoc]
        exact (he ts ht l).of_leads h
    | outOfRange t => exact hm _ hr.cause
    | undefined t => exact hm _ hr.cause

end

/-- Nothing is taken, and the lookahead decides between the words of two languages. -/
theorem Narrows.leads {F F' : Language} {t : Terminal} (h : Narrows t F F') (c : Context) :
    Leads (F c) [] t (F' c) where
  clean u _ _ hu := by simp [List.map_eq_nil_iff.mp hu]
  drop u v hw hu hn := by
    rw [List.map_eq_nil_iff.mp hu] at hw
    exact h.all c v hw hn
  extend v hv := ⟨[], h.sub c v hv, rfl⟩

section

variable {ts : List Terminal} [Nonempty (Leaf ts)]

theorem leads_leaf {L : Leaf ts → Language} {c : Context} (l : Leaf ts) (t : Terminal) :
    Leads (Language.leaf ts L c) [l.token] t (L l c) where
  clean u v := by
    rintro ⟨l', k, -, hw⟩ hu
    obtain ⟨m, rfl, -⟩ := List.map_eq_singleton_iff.mp hu
    obtain ⟨rfl, -⟩ := List.cons.inj hw
    simp
  drop u v := by
    rintro ⟨⟨t', ht'⟩, k, hk, hw⟩ hu -
    obtain ⟨m, rfl, hm⟩ := List.map_eq_singleton_iff.mp hu
    obtain ⟨rfl, rfl⟩ := List.cons.inj hw
    obtain rfl : t' = l.token := hm
    exact hk
  extend v hv := ⟨[l.mark], ⟨l, v, hv, rfl⟩, rfl⟩

/-- A token that passes its check leads on like any other. -/
theorem leads_checked {K : Language} {m : Token → Mention} (hm : ∀ t, (m t).token = t) {c : Context}
    (l : Leaf ts) (t : Terminal) (hf : (m l.token).fault c.env = none) :
    Leads (Language.checked ts m K c) [l.token] t (K c) where
  clean u v := by
    rintro ⟨l', k, -, hw⟩ hu
    obtain ⟨x, rfl, hx⟩ := List.map_eq_singleton_iff.mp hu
    obtain ⟨rfl, -⟩ := List.cons.inj hw
    have hx : l'.token = l.token := (hm _).symm.trans hx
    simpa [Mention.mark, hx] using hf
  drop u v := by
    rintro ⟨l', k, hk, hw⟩ hu -
    obtain ⟨x, rfl, -⟩ := List.map_eq_singleton_iff.mp hu
    obtain ⟨-, rfl⟩ := List.cons.inj hw
    exact hk
  extend v hv := ⟨[(m l.token).mark c.env], ⟨l, v, hv, rfl⟩, by simp [hm]⟩

end

/-- A token that fails its check is the first error. -/
theorem refuses_mark {m : Mention} {env : Env} {e : CompileError} {W : List Mark → Prop}
    {v : List Mark} (hf : m.fault env = some e) (hw : W (m.mark env :: v)) :
    e.token = m.token ∧ Refuses W [] e := by
  have hc : ∀ u v, W (u ++ v) → u.map Mark.token = [] → Clean u := by
    intro u _ _ hu
    simp [List.map_eq_nil_iff.mp hu]
  have hm : m.mark env = ⟨m.token, some e⟩ := by simp [Mention.mark, hf]
  rw [hm] at hw
  cases m with
  | use x =>
    obtain ⟨-, rfl⟩ : _ ∧ CompileError.undefined x = e := by simpa [Mention.fault] using hf
    exact ⟨rfl, hc, [], v, hw, rfl⟩
  | constant t =>
    obtain ⟨-, rfl⟩ : _ ∧ CompileError.outOfRange t = e := by simpa [Mention.fault] using hf
    exact ⟨rfl, hc, [], v, hw, rfl⟩

/-- A token with which no word starts is the first error. -/
theorem refuses_unexpected {F : Language} {c : Context} {found : Token} {expected : Expectation}
    (h : ∀ w, F c w → next (w.map Mark.token) ≠ found.terminal)
    (he : ∀ ts, expected = .oneOf ts → ∀ l : Leaf ts, Viable (F c) [l.token]) :
    Refuses (F c) [] (.unexpected found expected) where
  clean u _ _ hu := by simp [List.map_eq_nil_iff.mp hu]
  cause := by
    obtain ⟨w, hw⟩ := F.live c
    refine ⟨⟨[], w, hw, rfl⟩, fun u v hw hu => ?_, he⟩
    rw [List.map_eq_nil_iff.mp hu] at hw
    exact h v hw

/-! A name that is followed by one of the terminals `calls` is not used as a variable. -/

section

variable {calls : Terminal → Bool} {Q R : Language} {c : Context} {t : Terminal}

/-- A name that is used as a variable, or one that is not, and what may follow it. -/
def Language.named (Q R : Language) : Language := .either (.checked [.ident] .use R) (.token .ident Q)

theorem leads_named_use (hQ : Starts (calls · = true) Q) (x : Name) (ht : calls t = false)
    (hf : (Mention.use x.token).fault c.env = none) :
    Leads (Language.named Q R c) [x.token] t (R c) where
  clean u v := by
    rintro (hw | hw) hu
    · exact (leads_checked (fun _ => rfl) x t hf).clean u v hw hu
    · exact (leads_leaf x t).clean u v hw hu
  drop u v := by
    rintro (hw | hw) hu hn
    · exact (leads_checked (fun _ => rfl) x t hf).drop u v hw hu hn
    · have hv := hQ c v ((leads_leaf x t).drop u v hw hu hn)
      simp [hn, ht] at hv
  extend v hv := by
    obtain ⟨u, hw, hu⟩ := (leads_checked (fun _ => rfl) x t hf).extend v hv
    exact ⟨u, .inl hw, hu⟩

/-- Behind a name and a terminal that follows it in no use, the name is known not to be used. -/
theorem leads_named_call {V : List Mark → Prop} {y : Token} (hR : Starts (calls · = false) R)
    (x : Name) (hy : calls y.terminal = true) (h : Leads (Q c) [y] t V) :
    Leads (Language.named Q R c) [x.token, y] t V := by
  have hq : ∀ u v, Language.named Q R c (u ++ v) → u.map Mark.token = [x.token, y] →
      ∃ m, u = [x.mark, m] ∧ [m].map Mark.token = [y] ∧ Q c ([m] ++ v) := by
    intro u v hw hu
    obtain ⟨m₁, u, rfl, h₁, hu⟩ := List.map_eq_cons_iff.mp hu
    obtain ⟨m₂, rfl, h₂⟩ := List.map_eq_singleton_iff.mp hu
    obtain ⟨l, k, hk, hw⟩ | ⟨l, k, hk, hw⟩ := hw
    · obtain ⟨-, rfl⟩ := List.cons.inj hw
      have := hR c _ hk
      simp [h₂, hy] at this
    · obtain ⟨rfl, rfl⟩ := List.cons.inj hw
      exact ⟨m₂, by simp [← h₁], by simp [h₂], hk⟩
  constructor
  · intro u v hw hu
    obtain ⟨m, rfl, hm, hv⟩ := hq u v hw hu
    simpa using h.clean [m] v hv hm
  · intro u v hw hu hn
    obtain ⟨m, rfl, hm, hv⟩ := hq u v hw hu
    exact h.drop [m] v hv hm hn
  · intro v hv
    obtain ⟨u, hw, hu⟩ := h.extend v hv
    exact ⟨x.mark :: u, .inr ⟨x, _, hw, rfl⟩, by simp [hu]⟩

end

end Jack.Pass
