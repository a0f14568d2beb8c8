import Jack.Proofs.Rejecting.Class
import Jack.Proofs.SinglePass

/-! The error reported is the leftmost one. Up to the token that it cites, the tokens are those of a class
that has no fault there. An unexpected token continues no class, and every other token cited continues one
in which it is wrong. -/

namespace Jack

open Jack.Tree

/-- The token at which a source ends. -/
def Source.stop (source : Source) : Token :=
  (source.tokens.find? (·.terminal = .eof)).getD source.endToken

namespace Tree

/-- Some class starts with the given tokens. -/
def StartsClass (ts : List Token) : Prop := ∃ c : ClassDec, ts <+: c.tokens

/-- Behind the tokens `before`, an error is the first. -/
structure FirstError (before : List Token) (err : CompileError) : Prop where
  /-- In no class that starts with these tokens is one of them an undeclared name used as a variable or an
  integer constant that is no word. -/
  clean : ∀ c : ClassDec, before <+: c.tokens → Clean (c.marks.take before.length)
  /-- An unexpected token starts no class behind the others, and the end of input ends none, but each
  terminal expected instead does start one. -/
  cause : match err with
    | .unexpected found expected =>
      StartsClass before ∧ ¬ StartsClass (before ++ [found]) ∧
      (found.terminal = .eof → ∀ c : ClassDec, c.tokens ≠ before) ∧
      ∀ ts, expected = .oneOf ts → ∀ x : Token, x.terminal ∈ ts → StartsClass (before ++ [x])
    | .outOfRange t | .undefined t =>
      ∃ c : ClassDec, before ++ [t] <+: c.tokens ∧ c.marks[before.length]? = some ⟨t, some err⟩

/-- The marks of a class, cut behind tokens with which it starts. -/
theorem ClassDec.marks_split {c : ClassDec} {ts : List Token} (h : ts <+: c.tokens) :
    (c.marks.take ts.length).map Mark.token = ts ∧
      ts ++ (c.marks.drop ts.length).map Mark.token = c.tokens := by
  have ht : (c.marks.take ts.length).map Mark.token = ts := by
    rw [List.map_take, c.map_token_marks]
    exact (List.prefix_iff_eq_take.mp h).symm
  have hd : (c.marks.take ts.length ++ c.marks.drop ts.length).map Mark.token = c.tokens := by
    rw [List.take_append_drop, c.map_token_marks]
  rw [List.map_append, ht] at hd
  exact ⟨ht, hd⟩

end Tree

namespace Pass

theorem State.rest_start (source : Source) :
    (State.start source).rest = source.beforeEnd ++ [source.stop] := by
  have hs : (State.start source).stop = source.stop := by
    unfold State.start State.stop Source.next Source.stop
    cases h : source.tokens <;> simp [Source.endToken]
  rw [State.rest, State.ahead_start, hs]
  rfl

theorem State.length_ahead_le (s : State) : s.ahead.length ≤ s.source.tokens.length + 1 :=
  (List.takeWhile_sublist _).length_le

variable {W : List Mark → Prop} {before : List Token} {err : CompileError}

theorem Viable.startsClass (hW : ∀ w, W w ↔ ∃ c : ClassDec, c.marks = w) {ts : List Token}
    (h : Viable W ts) : StartsClass ts := by
  obtain ⟨u, v, hw, rfl⟩ := h
  obtain ⟨c, hc⟩ := (hW _).mp hw
  exact ⟨c, by rw [← c.map_token_marks, hc, List.map_append]; exact List.prefix_append _ _⟩

/-- What an error says of the words that are possible, it says of classes. -/
theorem Refuses.firstError (hW : ∀ w, W w ↔ ∃ c : ClassDec, c.marks = w) (h : Refuses W before err) :
    FirstError before err where
  clean c hc := by
    refine h.clean _ (c.marks.drop before.length) ?_ (ClassDec.marks_split hc).1
    rw [List.take_append_drop]
    exact (hW _).mpr ⟨c, rfl⟩
  cause := by
    have hm : ∀ t, (∃ u v, W (u ++ ⟨t, some err⟩ :: v) ∧ u.map Mark.token = before) →
        ∃ c : ClassDec, before ++ [t] <+: c.tokens ∧ c.marks[before.length]? = some ⟨t, some err⟩ := by
      rintro t ⟨u, v, hw, rfl⟩
      obtain ⟨c, hc⟩ := (hW _).mp hw
      refine ⟨c, ⟨v.map Mark.token, ?_⟩, by simp [hc]⟩
      simp [← c.map_token_marks, hc]
    cases err with
    | unexpected found expected =>
      obtain ⟨hv, hn, he⟩ := h.cause
      refine ⟨hv.startsClass hW, ?_, ?_, fun ts ht x hx => (he ts ht ⟨x, hx⟩).startsClass hW⟩
      · rintro ⟨c, hc⟩
        have hb := ClassDec.marks_split ((List.prefix_append _ _).trans hc)
        refine hn _ (c.marks.drop before.length) ((hW _).mpr ⟨c, (List.take_append_drop _ _).symm⟩) hb.1 ?_
        obtain ⟨r, hr⟩ := hc
        have hd := hb.2.trans hr.symm
        rw [List.append_assoc, List.append_cancel_left_eq] at hd
        rw [hd]
        rfl
      · rintro hf c rfl
        refine hn c.marks [] ((hW _).mpr ⟨c, (List.append_nil _).symm⟩) c.map_token_marks ?_
        rw [hf]
        rfl
    | outOfRange t => exact hm t h.cause
    | undefined t => exact hm t h.cause

end Pass

open Pass

/-- A source that does not compile is rejected at its leftmost error. -/
theorem compile_firstError (source : Source) (err : CompileError)
    (h : (compile source).outcome = .error err) :
    ∃ before after, source.beforeEnd ++ [source.stop] = before ++ err.token :: after ∧
      FirstError before err := by
  let s := State.start source
  have ha := wholeClass_tracks s.peek.terminal s rfl s.length_ahead_le
  unfold compile State.compile EStateM.run at h
  split at h
  case h_1 => cases h
  case h_2 e s' hs =>
    cases h
    rw [hs] at ha
    obtain ⟨before, after, hr, hf⟩ := ha
    rw [State.rest_start] at hr
    exact ⟨before, after, hr, hf.firstError fun w => classes_iff rfl⟩

namespace Counter

/-- class Counter { field int n; method int add(int k) { while (k > 0 ] -/
def broken : Source := .replay (tree.tokens.take 20 ++ [⟨.punct .rbracket, [Punct.rbracket.byte], 1⟩])

theorem outcome_broken : (compile broken).outcome =
    .error (.unexpected ⟨.punct .rbracket, [Punct.rbracket.byte], 1⟩ (.oneOf [.punct .rparen])) := by
  decide +kernel

end Counter

theorem compile_firstError_counter :
    (compile Counter.broken).outcome =
        .error (.unexpected ⟨.punct .rbracket, [Punct.rbracket.byte], 1⟩ (.oneOf [.punct .rparen])) ∧
      ∃ before after, Counter.broken.beforeEnd ++ [Counter.broken.stop] =
          before ++ ⟨.punct .rbracket, [Punct.rbracket.byte], 1⟩ :: after ∧
        FirstError before
          (.unexpected ⟨.punct .rbracket, [Punct.rbracket.byte], 1⟩ (.oneOf [.punct .rparen])) :=
  ⟨Counter.outcome_broken, compile_firstError Counter.broken _ Counter.outcome_broken⟩

end Jack
