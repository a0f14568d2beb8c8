import Jack.Proofs.Dump
import Jack.Proofs.Utf8

/-! Diagnostics. Whatever the text that is rejected, its diagnostic is one line: it names the line of the token
that it cites and shows the token as the text has it there, or it says that the text ended. -/

namespace Jack

open Jack.Pass Jack.Lexical Jack.Tree

/-! Messages without newlines. -/

namespace Text

theorem newline_not_mem_ofNat (n : Nat) : Byte.newline ∉ ofNat n :=
  fun h => absurd (isDigit_of_mem_ofNat h) (by decide)

theorem newline_not_mem_ofInt (n : Int) : Byte.newline ∉ ofInt n := by
  cases n with
  | ofNat n => exact newline_not_mem_ofNat n
  | negSucc n =>
    intro h
    rcases List.mem_cons.mp h with h | h
    · cases h
    · exact newline_not_mem_ofNat _ h

theorem newline_not_mem_hex (width n : Nat) : Byte.newline ∉ hex width n := by
  have hd : ∀ d < 16, Byte.newline ≠ hexDigit d := by decide
  induction width generalizing n with
  | zero => exact List.not_mem_nil
  | succ width ih =>
    rw [hex, List.mem_append, List.mem_singleton]
    rintro (h | h)
    · exact ih _ h
    · exact hd _ (Nat.mod_lt _ (by decide)) h

theorem newline_not_mem_letterEscape {n : Nat} {escape : Text} (h : letterEscape? n = some escape) :
    Byte.newline ∉ escape := by
  unfold letterEscape? at h
  split at h <;> cases h <;> decide

/-- A newline is shown by an escape. -/
theorem newline_not_mem_quotePiece (p : Utf8.Piece) : Byte.newline ∉ quotePiece p := by
  have hx : ∀ {mark : Text} {width n : Nat}, Byte.newline ∉ mark → Byte.newline ∉ mark ++ hex width n :=
    fun hm => List.not_mem_append hm (newline_not_mem_hex _ _)
  cases p with
  | stray b => exact hx (by decide)
  | char c =>
    rw [quotePiece]
    split
    · next escape he => exact newline_not_mem_letterEscape he
    · next he =>
      split
      · intro h
        rw [Utf8.encode, List.flatMap_singleton] at h
        have hc := Utf8.toNat_of_mem_utf8EncodeChar (by decide) h
        rw [hc] at he
        cases he
      split
      · exact hx (by decide)
      split
      · exact hx (by decide)
      · exact hx (by decide)

theorem newline_not_mem_quoted (s : Text) : Byte.newline ∉ quoted s := by
  have hq : Byte.newline ∉ [Byte.quote] := by decide
  have hp : Byte.newline ∉ (Utf8.pieces s).flatMap quotePiece := by
    intro h
    obtain ⟨p, -, h⟩ := List.mem_flatMap.mp h
    exact newline_not_mem_quotePiece p h
  simp only [quoted, List.mem_append, hq, hp, or_self, not_false_eq_true]

end Text

theorem Terminal.newline_not_mem_name (t : Terminal) : Byte.newline ∉ t.name := by
  cases t with
  | keyword k => cases k <;> decide
  | punct p => cases p <;> decide
  | other n =>
    have hl : Byte.newline ∉ Text.ofString "Type(" := by decide
    have hr : Byte.newline ∉ Text.ofString ")" := by decide
    simp only [name, List.mem_append, hl, hr, Text.newline_not_mem_ofInt, or_self, not_false_eq_true]
  | _ => decide

namespace CompileError

theorem newline_not_mem_reason (e : CompileError) : Byte.newline ∉ e.reason := by
  cases e with
  | unexpected t expected =>
    rw [reason]
    split
    · decide
    · cases expected with
      | oneOf ts =>
        have hl : Byte.newline ∉ Text.ofString "Expected one of: [" := by decide
        have hr : Byte.newline ∉ Text.ofString "]" := by decide
        have ht : Byte.newline ∉ Text.joinWith ", " (ts.map Terminal.name) := by
          apply Text.not_mem_joinWith (by decide)
          intro p hp
          obtain ⟨t, -, rfl⟩ := List.mem_map.mp hp
          exact t.newline_not_mem_name
        simp only [Expectation.message, List.mem_append, hl, hr, ht, or_self, not_false_eq_true]
      | term => decide
      | endOfInput => decide
  | outOfRange t =>
    rw [reason]
    decide
  | undefined t =>
    have hl : Byte.newline ∉ Text.ofString "undefined identifier " := by decide
    simp only [reason, Scopes.undefined, List.mem_append, hl, Text.newline_not_mem_quoted, or_self,
      not_false_eq_true]

/-- What a message shows behind its line: the end of input or the token that is cited. -/
def place (e : CompileError) : Text := if e.atEnd then "end" else "'" ++ e.token.lexeme ++ "'"

theorem message_eq {e : CompileError} {n : Nat} (h : e.token.line = n) :
    e.message = ("[line " ++ Text.ofNat n ++ "] Error at ") ++ (e.place ++ (": " ++ e.reason)) := by
  rw [message, h, ← List.append_assoc, ← List.append_assoc]
  rfl

theorem opening_prefix_message {e : CompileError} {n : Nat} (h : e.token.line = n) :
    ("[line " ++ Text.ofNat n ++ "] Error at " : Text) <+: e.message := by
  rw [message_eq h]
  exact List.prefix_append _ _

theorem newline_not_mem_message {e : CompileError} (h : Byte.newline ∉ e.token.lexeme) :
    Byte.newline ∉ e.message := by
  have hp : Byte.newline ∉ e.place := by
    have hq : Byte.newline ∉ Text.ofString "'" := by decide
    rw [place]
    split
    · decide
    · simp only [List.mem_append, hq, h, or_self, not_false_eq_true]
  have h1 : Byte.newline ∉ Text.ofString "[line " := by decide
  have h2 : Byte.newline ∉ Text.ofString "] Error at " := by decide
  have h3 : Byte.newline ∉ Text.ofString ": " := by decide
  change Byte.newline ∉ "[line " ++ Text.ofInt e.token.line ++ "] Error at " ++ e.place ++ ": " ++ e.reason
  simp only [List.mem_append, h1, h2, h3, hp, Text.newline_not_mem_ofInt, newline_not_mem_reason, or_self,
    not_false_eq_true]

/-- A message reads "end" exactly if the tokens ran out: a lexeme would stand in quotes. -/
theorem end_prefix_message_iff {e : CompileError} {n : Nat} (h : e.token.line = n) :
    ("[line " ++ Text.ofNat n ++ "] Error at end" : Text) <+: e.message ↔ e.atEnd = true := by
  have he : Text.ofString "] Error at end" = "] Error at " ++ "end" := by decide
  rw [message_eq h, he, ← List.append_assoc, List.prefix_append_right_inj, place]
  cases e.atEnd with
  | true => simp
  | false =>
    simp only [Bool.false_eq_true, if_false, iff_false]
    rintro ⟨rest, hr⟩
    cases congrArg List.head? hr

theorem quoted_prefix_message {e : CompileError} {n : Nat} (h : e.token.line = n) (ha : e.atEnd = false) :
    ("[line " ++ Text.ofNat n ++ "] Error at '" ++ e.token.lexeme ++ "': " : Text) <+: e.message := by
  have hl : Text.ofString "] Error at '" = "] Error at " ++ "'" := by decide
  have hr : Text.ofString "': " = "'" ++ ": " := by decide
  refine ⟨e.reason, ?_⟩
  rw [message_eq h, place, ha, hl, hr]
  simp only [Bool.false_eq_true, if_false, List.append_assoc]

end CompileError

/-! Where the token stands that a message cites. -/

namespace Lexical

namespace Lexeme

variable {terminal : Terminal} {lexeme bytes after : Text}

theorem newline_not_mem_lexeme (h : Lexeme terminal lexeme bytes after) : Byte.newline ∉ lexeme := by
  cases h with
  | spelled sp h => exact sp.newline_not_mem_lexeme
  | openString hb he =>
    intro hm
    rcases List.mem_cons.mp hm with hm | hm
    · cases hm
    · exact newline_not_mem_of_isStringByte hb hm
  | openComment hb => decide
  | stray hb hw =>
    intro hm
    rcases List.mem_cons.mp hm with rfl | hm
    · cases hb
    · exact newline_not_mem_of_isTail (isTail_of_width hw) hm

/-- A lexeme starts where its bytes do, and a string constant behind their first, the quote. -/
theorem exists_around (h : Lexeme terminal lexeme bytes after) :
    ∃ front back, bytes = front ++ lexeme ++ back ∧ newlines front = 0 ∧
      (terminal = .string → [Byte.quote] <:+ front) := by
  cases h with
  | spelled sp h =>
    cases sp with
    | string body plain => exact ⟨[Byte.quote], [Byte.quote], rfl, by decide, fun _ => List.suffix_rfl⟩
    | keyword k => exact ⟨[], [], (List.append_nil _).symm, rfl, Terminal.noConfusion⟩
    | punct p => exact ⟨[], [], (List.append_nil _).symm, rfl, Terminal.noConfusion⟩
    | ident w hw hk => exact ⟨[], [], (List.append_nil _).symm, rfl, Terminal.noConfusion⟩
    | number ds hn hd => exact ⟨[], [], (List.append_nil _).symm, rfl, Terminal.noConfusion⟩
  | openString hb he => exact ⟨[], [], (List.append_nil _).symm, rfl, Terminal.noConfusion⟩
  | @openComment body hb => exact ⟨[], body, rfl, rfl, Terminal.noConfusion⟩
  | stray hb hw => exact ⟨[], [], (List.append_nil _).symm, rfl, Terminal.noConfusion⟩

end Lexeme

/-- A token stands in a text on its line, behind its opening quote if it is a string constant. -/
def StandsIn (s : Text) (t : Token) : Prop :=
  ∃ before after, s = before ++ t.lexeme ++ after ∧ t.line = (1 + newlines before : Nat) ∧
    (t.terminal = .string → [Byte.quote] <:+ before)

theorem Tiling.standsIn {s tail : Text} {tiles : List Tile} (h : Tiling [] s tiles tail) {t : Tile}
    (ht : t ∈ tiles) : StandsIn s t.token ∧ Byte.newline ∉ t.token.lexeme := by
  obtain ⟨before, after, rfl⟩ := List.append_of_mem ht
  have hf := h.fits before t after rfl
  obtain ⟨front, back, hb, hn, hq⟩ := hf.lexeme.exists_around
  refine ⟨⟨before.flatMap Tile.text ++ t.gap ++ front, back ++ (after.flatMap Tile.text ++ tail), ?_, ?_, ?_⟩,
    hf.lexeme.newline_not_mem_lexeme⟩
  · rw [h.covers]
    simp [Tile.text, hb]
  · rw [hf.line, newlines_append _ front, hn]
    rfl
  · exact fun hs => (hq hs).trans (List.suffix_append _ _)

/-- The tokens of a text stand in it, and it ends on the line behind all its newlines. -/
theorem toSource_ofText (s : Text) :
    (∀ t ∈ (Lexer.ofText s).toSource.tokens, StandsIn s t ∧ Byte.newline ∉ t.lexeme) ∧
      (Lexer.ofText s).toSource.stop = endOf s := by
  obtain ⟨tiles, tail, h⟩ := exists_tiling [] s
  have he := h.exhaust_eq (Nat.lt_succ_of_le h.length_le)
  have ht : (Lexer.ofText s).toSource.tokens = tiles.map Tile.token := congrArg Prod.fst he
  have hl : (Lexer.ofText s).toSource.endLine = (1 + newlines s : Nat) :=
    congrArg (fun r => (r.2.line : Int)) he
  constructor
  · intro t hm
    rw [ht] at hm
    obtain ⟨tile, htile, rfl⟩ := List.mem_map.mp hm
    exact h.standsIn htile
  · have hn : (Lexer.ofText s).toSource.tokens.find? (·.terminal = .eof) = none := by
      rw [List.find?_eq_none]
      intro t hm
      obtain ⟨_, _, hx⟩ := exists_lexeme_of_mem hm
      simpa using hx.terminal_ne_eof
    rw [Source.stop, hn, Option.getD_none, Source.endToken, hl]
    rfl

end Lexical

/-- An error that cites the end of input says so: a wrong name or constant is a token of a class. -/
theorem Tree.FirstError.atEnd_iff {before : List Token} {e : CompileError} (h : FirstError before e) :
    e.atEnd = true ↔ e.token.terminal = .eof := by
  have hc := h.cause
  cases e with
  | unexpected t expected => exact decide_eq_true_iff
  | outOfRange t => exact decide_eq_true_iff
  | undefined t =>
    obtain ⟨c, hp, -⟩ := hc
    have ht : t.terminal ≠ .eof := c.terminal_ne_eof t (hp.subset (by simp))
    simp [CompileError.atEnd, CompileError.token, ht]

/-- The token that an error cites is one of the text or its end. -/
theorem cited_token {s : Text} {e : CompileError} (h : compileText s = .error e) :
    (e.token ∈ (Lexer.ofText s).toSource.tokens ∧ e.token.terminal ≠ .eof ∨ e.token = endOf s) ∧
      (e.atEnd = true ↔ e.token.terminal = .eof) := by
  obtain ⟨s', hr⟩ := exists_runOf_of_error h
  have hs := shares_runOf (Lexer.ofText s).toSource
  rw [hr] at hs
  obtain ⟨before, after, hb, hf, -⟩ := hs.length_of_error hr
  refine ⟨?_, hf.atEnd_iff⟩
  have hm : e.token ∈ (Lexer.ofText s).toSource.beforeEnd ++ [(Lexer.ofText s).toSource.stop] := by
    rw [hb]
    simp
  rw [beforeEnd_ofText, (toSource_ofText s).2, List.mem_append, List.mem_singleton] at hm
  apply hm.imp_left
  intro ht
  obtain ⟨_, _, hx⟩ := exists_lexeme_of_mem ht
  exact ⟨ht, hx.terminal_ne_eof⟩

/-- A text that does not compile is rejected with a message of one line. It starts with the number of a line of
the text and reads "end" exactly if the tokens ran out, on the last line; otherwise it quotes the token that it
cites, which stands in the text on that line. -/
theorem diagnostic_one_line (s : Text) (e : CompileError) (h : compileText s = .error e) :
    Byte.newline ∉ e.message ∧
    ∃ n, 1 ≤ n ∧ n ≤ 1 + newlines s ∧
      ("[line " ++ Text.ofNat n ++ "] Error at " : Text) <+: e.message ∧
      (("[line " ++ Text.ofNat n ++ "] Error at end" : Text) <+: e.message ↔ e.atEnd = true) ∧
      (e.atEnd = true ↔ e.token = endOf s) ∧
      (e.atEnd = true → n = 1 + newlines s) ∧
      (e.atEnd = false →
        ("[line " ++ Text.ofNat n ++ "] Error at '" ++ e.token.lexeme ++ "': " : Text) <+: e.message ∧
        ∃ before after, s = before ++ e.token.lexeme ++ after ∧ n = 1 + newlines before ∧
          (e.token.terminal = .string → [Byte.quote] <:+ before)) := by
  obtain ⟨htoken, hend⟩ := cited_token h
  rcases htoken with ⟨hm, hne⟩ | he
  · obtain ⟨⟨before, after, hb, hl, hq⟩, hn⟩ := (toSource_ofText s).1 _ hm
    have ha : e.atEnd = false := by rw [Bool.eq_false_iff, ne_eq, hend]; exact hne
    have hle : newlines before ≤ newlines s := by
      rw [hb, newlines_append, newlines_append]
      omega
    have hne' : e.token ≠ endOf s := fun he => hne (congrArg Token.terminal he)
    refine ⟨CompileError.newline_not_mem_message hn, 1 + newlines before, by omega, by omega,
      CompileError.opening_prefix_message hl, CompileError.end_prefix_message_iff hl, ?_, ?_, ?_⟩
    · simp [ha, hne']
    · rw [ha]
      exact Bool.noConfusion
    · exact fun _ => ⟨CompileError.quoted_prefix_message hl ha, before, after, hb, rfl, hq⟩
  · have hl : e.token.line = (1 + newlines s : Nat) := congrArg Token.line he
    have ha : e.atEnd = true := hend.mpr (congrArg Token.terminal he)
    refine ⟨CompileError.newline_not_mem_message ?_, 1 + newlines s, by omega, by omega,
      CompileError.opening_prefix_message hl, CompileError.end_prefix_message_iff hl, ?_, ?_, ?_⟩
    · rw [he]
      exact List.not_mem_nil
    · simp [ha, he]
    · exact fun _ => rfl
    · rw [ha]
      exact Bool.noConfusion

/-- A string constant is quoted without its quotes, and the end of input is on the last line. -/
theorem diagnostic_one_line_samples :
    (∃ e, compileText "class A \x7b\n \"b\"" = .error e ∧ Byte.newline ∉ e.message ∧
      ∃ before after, Text.ofString "class A \x7b\n \"b\"" = before ++ "b" ++ after ∧ [Byte.quote] <:+ before) ∧
    ∃ e, compileText "class A \x7b\n\n" = .error e ∧ Text.ofString "[line 3] Error at end" <+: e.message := by
  constructor
  · have he : compileText "class A \x7b\n \"b\"" =
        .error (.unexpected ⟨.string, "b", 2⟩ (.oneOf [.punct .rbrace])) := by decide +kernel
    obtain ⟨hm, n, -, -, -, -, -, -, hq⟩ := diagnostic_one_line _ _ he
    obtain ⟨-, before, after, hb, -, hs⟩ := hq rfl
    exact ⟨_, he, hm, before, after, hb, hs rfl⟩
  · have he : compileText "class A \x7b\n\n" =
        .error (.unexpected ⟨.eof, [], 3⟩ (.oneOf [.punct .rbrace])) := by decide +kernel
    obtain ⟨-, n, -, -, -, hp, -, hn, -⟩ := diagnostic_one_line _ _ he
    obtain rfl : n = 3 := hn rfl
    exact ⟨_, he, hp.mpr rfl⟩

end Jack
