import Jack.Proofs.Lexer
import Jack.Proofs.Lexical.Gap
import Mathlib.Data.List.TakeWhile

/-! The lexemes of a source: the tokens that can be spelled, and what is illegal. A text that starts with
one is read as its token, and every text starts with filler and then ends or goes on with one. -/

namespace Jack.Lexical

open Lexer

/-- A token as a source spells it. -/
inductive Spelling where
  | keyword (k : Keyword)
  | punct (p : Punct)
  | ident (word : Text) (isName : word.isName = true) (notKeyword : Keyword.ofSpelling? word = none)
  | number (digits : Text) (nonempty : digits ≠ []) (allDigits : ∀ b ∈ digits, Byte.isDigit b = true)
  /-- Neither a quote nor a newline stands in a string constant. -/
  | string (body : Text) (plain : ∀ b ∈ body, isStringByte b = true)

namespace Spelling

def terminal : Spelling → Terminal
  | .keyword k => .keyword k
  | .punct p => .punct p
  | .ident .. => .ident
  | .number .. => .number
  | .string .. => .string

def lexeme : Spelling → Text
  | .keyword k => k.spelling
  | .punct p => [p.byte]
  | .ident word _ _ => word
  | .number digits _ _ => digits
  | .string body _ => body

/-- The bytes of the token in a source, the quotes of a string constant among them. -/
def text : Spelling → Text
  | .string body _ => Byte.quote :: body ++ [Byte.quote]
  | sp => sp.lexeme

/-- The bytes behind the token do not make it longer or another. -/
def EndsBefore (after : Text) : Spelling → Prop
  | .keyword _ | .ident .. => ∀ b ∈ after.head?, Byte.isWord b = false
  | .number .. => ∀ b ∈ after.head?, Byte.isDigit b = false
  | .punct .slash => ∀ b ∈ after.head?, b ≠ Byte.slash ∧ b ≠ Byte.star
  | .punct _ | .string .. => True

end Spelling

/-- A byte that starts neither filler nor a token. -/
def isStray (b : UInt8) : Bool :=
  !isWhite b && b != Byte.quote && !Byte.isDigit b && !Byte.isNameStart b && (Punct.ofByte? b).isNone

/-- The bytes `bytes`, with `after` behind them, are a token of the given terminal and lexeme. -/
inductive Lexeme : Terminal → Text → Text → Text → Prop where
  | spelled (sp : Spelling) {after : Text} (h : sp.EndsBefore after) :
      Lexeme sp.terminal sp.lexeme sp.text after
  /-- A string constant that is not closed on its line. -/
  | openString {body after : Text} (hb : ∀ b ∈ body, isStringByte b = true) (he : EndsLine after) :
      Lexeme .illegal (Byte.quote :: body) (Byte.quote :: body) after
  /-- A block comment that is never closed takes all the rest. -/
  | openComment {body : Text} (hb : ¬ closing <:+: body) :
      Lexeme .illegal [Byte.slash, Byte.star] (Byte.slash :: Byte.star :: body) []
  /-- Any other character, or a byte that belongs to none. -/
  | stray {b : UInt8} {tail after : Text} (hb : isStray b = true)
      (hw : (b :: tail).length = Utf8.width (b :: tail ++ after)) :
      Lexeme .illegal (b :: tail) (b :: tail) after

/-! Bytes of different classes differ. -/

section

variable {b : UInt8}

theorem isDigit_of_isNameStart (h : Byte.isNameStart b = true) : Byte.isDigit b = false := by
  unfold Byte.isNameStart Byte.isLower Byte.isUpper at h
  unfold Byte.isDigit
  grind

theorem isWhite_of_isWord (h : Byte.isWord b = true) : isWhite b = false := by
  unfold Byte.isWord Byte.isNameStart Byte.isDigit Byte.isLower Byte.isUpper at h
  unfold isWhite isBlank
  grind

theorem ne_slash_of_isWord (h : Byte.isWord b = true) : b ≠ Byte.slash := by
  rintro rfl
  cases h

theorem ne_quote_of_isWord (h : Byte.isWord b = true) : b ≠ Byte.quote := by
  rintro rfl
  cases h

theorem isWord_of_isDigit (h : Byte.isDigit b = true) : Byte.isWord b = true := by
  rw [Byte.isWord, h, Bool.or_true]

theorem isWord_of_isNameStart (h : Byte.isNameStart b = true) : Byte.isWord b = true := by
  rw [Byte.isWord, h, Bool.true_or]

theorem newline_not_mem_of_isWord {s : Text} (h : ∀ b ∈ s, Byte.isWord b = true) : Byte.newline ∉ s :=
  fun hm => absurd (h _ hm) (by decide)

theorem newline_not_mem_of_isStringByte {s : Text} (h : ∀ b ∈ s, isStringByte b = true) :
    Byte.newline ∉ s :=
  fun hm => absurd (h _ hm) (by decide)

theorem newline_not_mem_punct (p : Punct) : Byte.newline ∉ [p.byte] := by
  cases p <;> decide

end

/-! A token is read up to where its bytes end. -/

section

variable {line : Nat} {p : UInt8 → Bool} {b c : UInt8} {s w body tail after : Text}

theorem readToken_word (hw : w.isName = true) (ha : ∀ b ∈ after.head?, Byte.isWord b = false) :
    readToken ⟨w ++ after, line⟩ = (⟨wordTerminal w, w, line⟩, ⟨after, line⟩) := by
  obtain ⟨ht, hd⟩ := Text.takeWhile_append_of_head (fun b hb => Text.isWord_of_mem hw hb) ha
  cases w with
  | nil => cases hw
  | cons c w =>
    have hn : Byte.isNameStart c = true := (Bool.and_eq_true_iff.mp hw).1
    have hq : c ≠ Byte.quote := ne_quote_of_isWord (isWord_of_isNameStart hn)
    rw [List.cons_append] at ht hd ⊢
    simp [readToken, emit, hq, isDigit_of_isNameStart hn, hn, ht, hd]

theorem readToken_number (hne : w ≠ []) (hw : ∀ b ∈ w, Byte.isDigit b = true)
    (ha : ∀ b ∈ after.head?, Byte.isDigit b = false) :
    readToken ⟨w ++ after, line⟩ = (⟨.number, w, line⟩, ⟨after, line⟩) := by
  obtain ⟨ht, hd⟩ := Text.takeWhile_append_of_head hw ha
  cases w with
  | nil => exact absurd rfl hne
  | cons c w =>
    have hc : Byte.isDigit c = true := hw c (by simp)
    have hq : c ≠ Byte.quote := ne_quote_of_isWord (isWord_of_isDigit hc)
    rw [List.cons_append] at ht hd ⊢
    simp [readToken, emit, hq, hc, ht, hd]

theorem readToken_string (hb : ∀ b ∈ body, isStringByte b = true) :
    readToken ⟨Byte.quote :: body ++ [Byte.quote] ++ after, line⟩ =
      (⟨.string, body, line⟩, ⟨after, line⟩) := by
  have ha : ∀ b ∈ (Byte.quote :: after).head?, isStringByte b = false := by
    rintro b ⟨⟩
    rfl
  obtain ⟨ht, hd⟩ := Text.takeWhile_append_of_head hb ha
  rw [List.append_assoc, List.cons_append, List.singleton_append]
  simp only [readToken, emit, ht, hd, beq_self_eq_true, if_true]
  rfl

theorem readToken_openString (hb : ∀ b ∈ body, isStringByte b = true) (he : EndsLine after) :
    readToken ⟨Byte.quote :: body ++ after, line⟩ =
      (⟨.illegal, Byte.quote :: body, line⟩, ⟨after, line⟩) := by
  have ha : ∀ b ∈ after.head?, isStringByte b = false := by
    intro b hb
    rw [he b hb]
    rfl
  obtain ⟨ht, hd⟩ := Text.takeWhile_append_of_head hb ha
  rw [List.cons_append]
  simp only [readToken, emit, ht, hd, beq_self_eq_true, if_true]
  split
  · next he' =>
    have := he Byte.quote rfl
    cases this
  · rfl

theorem readToken_punct (p : Punct) :
    readToken ⟨p.byte :: after, line⟩ = (⟨.punct p, [p.byte], line⟩, ⟨after, line⟩) := by
  cases p <;> rfl

theorem readToken_stray (hb : isStray b = true)
    (hw : (b :: tail).length = Utf8.width (b :: tail ++ after)) :
    readToken ⟨b :: tail ++ after, line⟩ = (⟨.illegal, b :: tail, line⟩, ⟨after, line⟩) := by
  simp only [isStray, Bool.and_eq_true, bne_iff_ne, Bool.not_eq_eq_eq_not, Bool.not_true,
    Option.isNone_iff_eq_none] at hb
  obtain ⟨⟨⟨⟨-, hq⟩, hd⟩, hn⟩, hp⟩ := hb
  rw [List.cons_append] at hw ⊢
  simp [readToken, emit, hq, hd, hn, hp, ← hw]

/-! A lexeme does not start with filler. -/

theorem bare_cons (hw : isWhite b = false)
    (hs : b = Byte.slash → ∀ c ∈ s.head?, c ≠ Byte.slash ∧ c ≠ Byte.star) : Bare (b :: s) where
  noWhite := by
    rintro c ⟨⟩
    exact hw
  noLine := by
    rintro ⟨t, ⟨⟩⟩
    exact (hs rfl Byte.slash rfl).1 rfl
  noBlock := by
    rintro ⟨t, ⟨⟩⟩
    exact (hs rfl Byte.star rfl).2 rfl

theorem bare_word (hne : w ≠ []) (hw : ∀ b ∈ w, Byte.isWord b = true) : Bare (w ++ after) := by
  cases w with
  | nil => exact absurd rfl hne
  | cons b w =>
    have hb : Byte.isWord b = true := hw b (by simp)
    exact bare_cons (isWhite_of_isWord hb) fun hs => absurd hs (ne_slash_of_isWord hb)

theorem ne_nil_of_isName (h : w.isName = true) : w ≠ [] := by
  rintro rfl
  cases h

theorem isName_spelling (k : Keyword) : Text.isName k.spelling = true := by
  cases k <;> rfl

theorem ofSpelling?_spelling (k : Keyword) : Keyword.ofSpelling? k.spelling = some k := by
  have hm : k ∈ Keyword.all := by cases k <;> decide
  have hs : ∀ k ∈ Keyword.all, Keyword.ofSpelling? k.spelling = some k := by decide +kernel
  exact hs k hm

theorem wordTerminal_spelling (k : Keyword) : wordTerminal k.spelling = .keyword k := by
  rw [wordTerminal, ofSpelling?_spelling]

namespace Spelling

theorem bare {sp : Spelling} (h : sp.EndsBefore after) : Bare (sp.text ++ after) := by
  cases sp with
  | keyword k =>
    have hk := isName_spelling k
    exact bare_word (ne_nil_of_isName hk) fun b hb => Text.isWord_of_mem hk hb
  | punct p =>
    have hw : isWhite p.byte = false := by cases p <;> rfl
    refine bare_cons hw fun hs => ?_
    cases p with
    | slash => exact h
    | _ => cases hs
  | ident w hw _ => exact bare_word (ne_nil_of_isName hw) fun b hb => Text.isWord_of_mem hw hb
  | number w hne hw => exact bare_word hne fun b hb => isWord_of_isDigit (hw b hb)
  | string body _ => exact bare_cons rfl fun hs => absurd hs (by decide)

theorem newline_not_mem_text (sp : Spelling) : Byte.newline ∉ sp.text := by
  cases sp with
  | keyword k => exact newline_not_mem_of_isWord fun b hb => Text.isWord_of_mem (isName_spelling k) hb
  | punct p => exact newline_not_mem_punct p
  | ident w hw _ => exact newline_not_mem_of_isWord fun b hb => Text.isWord_of_mem hw hb
  | number w _ hw => exact newline_not_mem_of_isWord fun b hb => isWord_of_isDigit (hw b hb)
  | string body hb =>
    have hn : Byte.newline ∉ body := newline_not_mem_of_isStringByte hb
    simp only [text, List.cons_append, List.mem_cons, List.mem_append, hn, List.not_mem_nil]
    decide

theorem readToken_text {sp : Spelling} (h : sp.EndsBefore after) :
    readToken ⟨sp.text ++ after, line⟩ = (⟨sp.terminal, sp.lexeme, line⟩, ⟨after, line⟩) := by
  cases sp with
  | keyword k => rw [terminal, ← wordTerminal_spelling k]; exact readToken_word (isName_spelling k) h
  | punct p => exact readToken_punct p
  | ident w hw hk =>
    have ht : wordTerminal w = .ident := by rw [wordTerminal, hk]
    rw [terminal, ← ht]
    exact readToken_word hw h
  | number w hne hw => exact readToken_number hne hw h
  | string body hb => exact readToken_string hb

end Spelling

/-! The bytes of a stray character. -/

theorem newline_not_mem_of_isTail (h : ∀ b ∈ s, Utf8.isTail b = true) : Byte.newline ∉ s :=
  fun hm => absurd (h _ hm) (by decide)

/-- The first character of a text takes its first byte and bytes that continue a character. -/
theorem exists_width (b : UInt8) (s : Text) : ∃ tail after, s = tail ++ after ∧
    (b :: tail).length = Utf8.width (b :: s) ∧ ∀ c ∈ tail, Utf8.isTail c = true := by
  unfold Utf8.width
  cases hc : Utf8.char? (b :: s) with
  | none => exact ⟨[], s, rfl, rfl, by simp⟩
  | some r =>
    obtain ⟨c, n⟩ := r
    simp only [Utf8.char?, Option.bind_eq_bind, Option.bind_eq_some_iff] at hc
    obtain ⟨lead, hl, hc⟩ := hc
    split at hc
    · next ht =>
      obtain ⟨hlen, hall, -, -⟩ := ht
      cases hc
      refine ⟨s.take lead.tails, s.drop lead.tails, by simp, ?_, ?_⟩
      · rw [List.length_cons, hlen]
      · exact List.all_eq_true.mp hall
    · cases hc

theorem isTail_of_width (h : (b :: tail).length = Utf8.width (b :: tail ++ after)) :
    ∀ c ∈ tail, Utf8.isTail c = true := by
  obtain ⟨tail', after', hs, hw, ht⟩ := exists_width b (tail ++ after)
  have hl : tail.length = tail'.length := by
    rw [List.cons_append, ← hw, List.length_cons, List.length_cons] at h
    omega
  rw [(List.append_inj hs hl).1]
  exact ht

end

/-! Reading past filler, at a lexeme and at the end. -/

section

variable {line : Nat} {terminal : Terminal} {gap rest lexeme bytes after : Text}

theorem next_filler (h : Filler gap rest) :
    next ⟨gap ++ rest, line⟩ = next ⟨rest, line + newlines gap⟩ := by
  unfold next
  rw [skipGap_filler h]

theorem next_nil : next ⟨[], line⟩ = (⟨.eof, [], line⟩, ⟨[], line⟩) := rfl

theorem next_of_bare (h : Bare rest) : next ⟨rest, line⟩ = readToken ⟨rest, line⟩ := by
  unfold next
  rw [skipGap_bare h]

namespace Lexeme

theorem bytes_ne_nil (h : Lexeme terminal lexeme bytes after) : bytes ≠ [] := by
  cases h with
  | spelled sp h =>
    cases sp with
    | keyword k => exact ne_nil_of_isName (isName_spelling k)
    | punct p => exact List.cons_ne_nil _ _
    | ident w hw _ => exact ne_nil_of_isName hw
    | number w hne _ => exact hne
    | string body _ => exact List.cons_ne_nil _ _
  | openString | openComment | stray => exact List.cons_ne_nil _ _

theorem terminal_ne_eof (h : Lexeme terminal lexeme bytes after) : terminal ≠ .eof := by
  cases h with
  | spelled sp h => cases sp <;> exact Terminal.noConfusion
  | openString | openComment | stray => exact Terminal.noConfusion

/-- A lexeme is read as its token, on the line where it starts. -/
theorem next_append (h : Lexeme terminal lexeme bytes after) :
    next ⟨bytes ++ after, line⟩ = (⟨terminal, lexeme, line⟩, ⟨after, line + newlines bytes⟩) := by
  cases h with
  | spelled sp h =>
    rw [next_of_bare (Spelling.bare h), Spelling.readToken_text h,
      newlines_eq_zero sp.newline_not_mem_text, Nat.add_zero]
  | @openString body after hb he =>
    have hn : newlines (Byte.quote :: body) = 0 := by
      rw [newlines_cons_of_ne (by decide), newlines_eq_zero (newline_not_mem_of_isStringByte hb)]
    have hq : Bare (Byte.quote :: body ++ after) := bare_cons rfl fun hs => absurd hs (by decide)
    rw [next_of_bare hq, readToken_openString hb he, hn, Nat.add_zero]
  | @openComment body hb =>
    rw [List.append_nil, newlines_cons_of_ne (by decide), newlines_cons_of_ne (by decide)]
    unfold next
    rw [skipGap_unclosed hb]
    rfl
  | @stray b tail after hb hw =>
    have hn : newlines (b :: tail) = 0 := by
      have hb : b ≠ Byte.newline := by
        rintro rfl
        cases hb
      rw [newlines_cons_of_ne hb, newlines_eq_zero (newline_not_mem_of_isTail (isTail_of_width hw))]
    have hs : Bare (b :: tail ++ after) := by
      refine bare_cons ?_ ?_
      · simp only [isStray, Bool.and_eq_true, Bool.not_eq_eq_eq_not, Bool.not_true] at hb
        exact hb.1.1.1.1
      · rintro rfl
        cases hb
    rw [next_of_bare hs, readToken_stray hb hw, hn, Nat.add_zero]

end Lexeme

/-! Every text that does not start with filler starts with a lexeme. -/

theorem ofSpelling?_eq_some {w : Text} {k : Keyword} (h : Keyword.ofSpelling? w = some k) :
    k.spelling = w := by
  simpa using List.find?_some h

theorem ofByte?_eq_some {b : UInt8} {p : Punct} (h : Punct.ofByte? b = some p) : p.byte = b := by
  simpa using List.find?_some h

theorem exists_lexeme_quote (s : Text) : ∃ terminal lexeme bytes after,
    Byte.quote :: s = bytes ++ after ∧ Lexeme terminal lexeme bytes after := by
  have hb : ∀ b ∈ s.takeWhile isStringByte, isStringByte b = true := fun b hb => List.mem_takeWhile_imp hb
  have hs := List.takeWhile_append_dropWhile (p := isStringByte) (l := s)
  by_cases hq : ∃ after, s.dropWhile isStringByte = Byte.quote :: after
  · obtain ⟨after, ha⟩ := hq
    rw [ha] at hs
    exact ⟨_, _, _, after, by simp [Spelling.text, hs], .spelled (.string _ hb) trivial⟩
  · have he : EndsLine (s.dropWhile isStringByte) := by
      intro b hb
      have hn : isStringByte b = false := not_of_mem_head?_dropWhile hb
      have hbq : b ≠ Byte.quote := by
        rintro rfl
        exact hq ⟨_, (List.head?_eq_some_iff.mp hb).choose_spec⟩
      simpa [isStringByte, hbq] using hn
    exact ⟨_, _, _, _, by simp [hs], .openString hb he⟩

theorem exists_lexeme_digit {b : UInt8} (hb : Byte.isDigit b = true) (s : Text) :
    ∃ terminal lexeme bytes after, b :: s = bytes ++ after ∧ Lexeme terminal lexeme bytes after := by
  have hne : (b :: s).takeWhile Byte.isDigit ≠ [] := by
    rw [List.takeWhile_cons_of_pos hb]
    exact List.cons_ne_nil _ _
  exact ⟨_, _, _, (b :: s).dropWhile Byte.isDigit, List.takeWhile_append_dropWhile.symm,
    .spelled (.number _ hne fun b hb => List.mem_takeWhile_imp hb) fun b hb => not_of_mem_head?_dropWhile hb⟩

theorem exists_lexeme_nameStart {b : UInt8} (hb : Byte.isNameStart b = true) (s : Text) :
    ∃ terminal lexeme bytes after, b :: s = bytes ++ after ∧ Lexeme terminal lexeme bytes after := by
  have hs := List.takeWhile_append_dropWhile (p := Byte.isWord) (l := b :: s)
  have ha : ∀ c ∈ ((b :: s).dropWhile Byte.isWord).head?, Byte.isWord c = false :=
    fun c hc => not_of_mem_head?_dropWhile hc
  cases hk : Keyword.ofSpelling? ((b :: s).takeWhile Byte.isWord) with
  | none => exact ⟨_, _, _, _, hs.symm, .spelled (.ident _ (isName_takeWhile hb s) hk) ha⟩
  | some k =>
    rw [← ofSpelling?_eq_some hk] at hs
    exact ⟨_, _, _, _, hs.symm, .spelled (.keyword k) ha⟩

theorem exists_lexeme {s : Text} (hb : Bare s) (hne : s ≠ []) :
    ∃ terminal lexeme bytes after, s = bytes ++ after ∧ Lexeme terminal lexeme bytes after := by
  obtain ⟨b, s, rfl⟩ := List.exists_cons_of_ne_nil hne
  by_cases hq : b = Byte.quote
  · subst hq
    exact exists_lexeme_quote s
  by_cases hd : Byte.isDigit b = true
  · exact exists_lexeme_digit hd s
  by_cases hn : Byte.isNameStart b = true
  · exact exists_lexeme_nameStart hn s
  cases hp : Punct.ofByte? b with
  | some p =>
    obtain rfl := ofByte?_eq_some hp
    have he : (Spelling.punct p).EndsBefore s := by
      cases p with
      | slash =>
        intro c hc
        obtain ⟨t, rfl⟩ := List.head?_eq_some_iff.mp hc
        refine ⟨?_, ?_⟩
        · rintro rfl
          exact hb.noLine ⟨t, rfl⟩
        · rintro rfl
          exact hb.noBlock ⟨t, rfl⟩
      | _ => trivial
    exact ⟨_, _, _, s, rfl, .spelled (.punct p) he⟩
  | none =>
    obtain ⟨tail, after, rfl, hw, -⟩ := exists_width b s
    have hs : isStray b = true := by simp [isStray, hb.noWhite b rfl, hq, hd, hn, hp]
    exact ⟨_, _, _, after, rfl, .stray hs hw⟩

/-- Every text is filler, or filler up to a lexeme. -/
theorem filler_or_lexeme (s : Text) : Filler s [] ∨ ∃ gap terminal lexeme bytes after,
    s = gap ++ (bytes ++ after) ∧ Filler gap (bytes ++ after) ∧ Lexeme terminal lexeme bytes after := by
  obtain ⟨gap, rest, rfl, hg, hb | ⟨body, rfl, hb⟩⟩ := exists_filler s
  · by_cases hr : rest = []
    · subst hr
      left
      rwa [List.append_nil]
    · right
      obtain ⟨terminal, lexeme, bytes, after, rfl, hl⟩ := exists_lexeme hb hr
      exact ⟨gap, terminal, lexeme, bytes, after, rfl, hg, hl⟩
  · right
    rw [← List.append_nil (Byte.slash :: Byte.star :: body)] at hg ⊢
    exact ⟨gap, _, _, _, [], rfl, hg, .openComment hb⟩

end

end Jack.Lexical
