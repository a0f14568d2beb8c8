import Jack.Token.Lexer

/-! What may stand between tokens: white space, comments to the end of a line and comments in marks. The
lexer skips all of it and counts its newlines. -/

namespace Jack.Lexical

open Lexer

/-- White space, the newline included. -/
def isWhite (b : UInt8) : Bool := b == Byte.newline || isBlank b

/-- The mark that closes a block comment. -/
def closing : Text := [Byte.star, Byte.slash]

/-- A text that is empty or starts with a newline. -/
def EndsLine (s : Text) : Prop := ∀ b ∈ s.head?, b = Byte.newline

/-- The bytes `gap`, with `rest` behind them, are white space and comments. A line comment reaches up to
the next newline or the end, and a block comment up to its first closing mark. -/
inductive Filler : Text → Text → Prop where
  | nil {rest : Text} : Filler [] rest
  | white {b : UInt8} {gap rest : Text} (hb : isWhite b = true) (hg : Filler gap rest) :
      Filler (b :: gap) rest
  | line {body gap rest : Text} (hb : Byte.newline ∉ body) (he : EndsLine (gap ++ rest))
      (hg : Filler gap rest) : Filler (Byte.slash :: Byte.slash :: body ++ gap) rest
  | block {body gap rest : Text} (hb : ¬ closing <:+: body ++ [Byte.star]) (hg : Filler gap rest) :
      Filler (Byte.slash :: Byte.star :: body ++ closing ++ gap) rest

/-- A text that does not start with filler. -/
structure Bare (s : Text) : Prop where
  noWhite : ∀ b ∈ s.head?, isWhite b = false
  noLine : ¬ [Byte.slash, Byte.slash] <+: s
  noBlock : ¬ [Byte.slash, Byte.star] <+: s

/-- The number of newlines in a text. -/
def newlines (s : Text) : Nat := s.count Byte.newline

@[simp] theorem newlines_nil : newlines [] = 0 := rfl

@[simp] theorem newlines_append (s t : Text) : newlines (s ++ t) = newlines s + newlines t :=
  List.count_append

theorem newlines_cons (b : UInt8) (s : Text) : newlines (b :: s) = newlines [b] + newlines s :=
  newlines_append [b] s

theorem newlines_cons_of_ne {b : UInt8} (h : b ≠ Byte.newline) (s : Text) :
    newlines (b :: s) = newlines s :=
  List.count_cons_of_ne h

theorem newlines_eq_zero {s : Text} (h : Byte.newline ∉ s) : newlines s = 0 := List.count_eq_zero.mpr h

/-! How each beginning of a text is skipped. -/

section

variable {line start : Nat} {starred : Bool} {b c : UInt8} {s body next gap rest : Text}

theorem skipGap_white (h : isWhite b = true) :
    skipGap .blank line (b :: s) = skipGap .blank (line + newlines [b]) s := by
  conv => lhs; unfold skipGap
  by_cases hn : b = Byte.newline
  · subst hn
    rfl
  · have hb : isBlank b = true := by simpa [isWhite, hn] using h
    rw [newlines_cons_of_ne hn]
    simp [hn, hb]

theorem skipGap_lineComment (hb : Byte.newline ∉ body) (he : EndsLine next) :
    skipGap .lineComment line (body ++ next) = skipGap .blank line next := by
  induction body with
  | nil =>
    cases next with
    | nil => rfl
    | cons c next =>
      obtain rfl : c = Byte.newline := he c rfl
      rw [skipGap_white rfl]
      rfl
  | cons c body ih =>
    rw [List.mem_cons, not_or] at hb
    have hc : c ≠ Byte.newline := Ne.symm hb.1
    rw [List.cons_append, ← ih hb.2, skipGap]
    simp [hc]

theorem skipGap_line (hb : Byte.newline ∉ body) (he : EndsLine next) :
    skipGap .blank line (Byte.slash :: Byte.slash :: body ++ next) = skipGap .blank line next := by
  rw [← skipGap_lineComment hb he]
  rfl

/-- Inside a block comment every byte is skipped but the slash that closes it. -/
theorem skipGap_comment_cons (h : starred = true → c ≠ Byte.slash) :
    skipGap (.blockComment start starred) line (c :: s) =
      skipGap (.blockComment start (c == Byte.star)) (line + newlines [c]) s := by
  rw [skipGap]
  by_cases hn : c = Byte.newline
  · subst hn
    rfl
  · have hc : (starred && c == Byte.slash) = false := by
      cases starred with
      | false => rfl
      | true => simpa using h rfl
    rw [newlines_cons_of_ne hn]
    simp [hn, hc]

/-- A block comment goes on over bytes that hold no closing mark, the star in front of them included. -/
theorem skipGap_comment_append (h : ¬ closing <:+: (if starred then [Byte.star] else []) ++ body) :
    skipGap (.blockComment start starred) line (body ++ next) =
      skipGap (.blockComment start (body.foldl (fun _ c => c == Byte.star) starred))
        (line + newlines body) next := by
  induction body generalizing starred line with
  | nil => rfl
  | cons c body ih =>
    have hc : starred = true → c ≠ Byte.slash := by
      rintro rfl rfl
      exact h ⟨[], body, rfl⟩
    have hs : (if (c == Byte.star) = true then [Byte.star] else []) ++ body <:+: c :: body := by
      by_cases hc : c = Byte.star
      · simp [hc]
      · simpa [hc] using (List.suffix_cons c body).isInfix
    have hb : ¬ closing <:+: (if (c == Byte.star) = true then [Byte.star] else []) ++ body :=
      fun hi => h ((hi.trans hs).trans (List.suffix_append _ _).isInfix)
    rw [List.cons_append, skipGap_comment_cons hc, ih hb, newlines_cons c body, Nat.add_assoc]
    rfl

theorem skipGap_block (h : ¬ closing <:+: body ++ [Byte.star]) :
    skipGap .blank line (Byte.slash :: Byte.star :: body ++ closing ++ next) =
      skipGap .blank (line + newlines body) next := by
  -- The star of the closing mark is read as part of the comment, and the slash behind it ends it.
  have hs : (body ++ [Byte.star]).foldl (fun _ c => c == Byte.star) false = true := by
    rw [List.foldl_append]
    rfl
  have hb : skipGap (.blockComment line false) line ((body ++ [Byte.star]) ++ Byte.slash :: next) =
      skipGap .blank (line + newlines body) next := by
    rw [skipGap_comment_append h, hs, newlines_append]
    rfl
  rw [← hb, List.append_assoc, List.append_assoc]
  rfl

theorem skipGap_unclosed (h : ¬ closing <:+: body) :
    skipGap .blank line (Byte.slash :: Byte.star :: body) = .unclosed line (line + newlines body) := by
  have hb : skipGap (.blockComment line false) line (body ++ []) =
      .unclosed line (line + newlines body) := by
    rw [skipGap_comment_append (by simpa using h)]
    rfl
  rw [List.append_nil] at hb
  exact hb

theorem skipGap_bare (h : Bare s) : skipGap .blank line s = .token ⟨s, line⟩ := by
  cases s with
  | nil => rfl
  | cons b s =>
    have hw : isWhite b = false := h.noWhite b rfl
    rw [isWhite, Bool.or_eq_false_iff] at hw
    unfold skipGap
    rw [hw.1, hw.2]
    by_cases hs : b = Byte.slash
    · subst hs
      cases s with
      | nil => rfl
      | cons c s =>
        have hl : c ≠ Byte.slash := fun hc => h.noLine ⟨s, by simp [hc]⟩
        have hb : c ≠ Byte.star := fun hc => h.noBlock ⟨s, by simp [hc]⟩
        simp only [Bool.false_eq_true, if_false, beq_self_eq_true, if_true]
        split
        · next he => exact absurd (List.cons.inj he).1 hl
        · next he => exact absurd (List.cons.inj he).1 hb
        · rfl
    · simp [hs]

/-- Filler is skipped and its newlines are counted. -/
theorem skipGap_filler (h : Filler gap rest) :
    skipGap .blank line (gap ++ rest) = skipGap .blank (line + newlines gap) rest := by
  induction h generalizing line with
  | nil => rfl
  | @white b gap rest hb hg ih =>
    rw [List.cons_append, skipGap_white hb, ih, newlines_cons b gap, Nat.add_assoc]
  | @line body gap rest hb he hg ih =>
    have hn : newlines (Byte.slash :: Byte.slash :: body ++ gap) = newlines gap := by
      rw [newlines_append, newlines_cons_of_ne (by decide), newlines_cons_of_ne (by decide),
        newlines_eq_zero hb, Nat.zero_add]
    rw [List.append_assoc, skipGap_line hb he, ih, hn]
  | @block body gap rest hb hg ih =>
    have hn : newlines (Byte.slash :: Byte.star :: body ++ closing ++ gap) =
        newlines body + newlines gap := by
      rw [newlines_append, newlines_append, newlines_cons_of_ne (by decide),
        newlines_cons_of_ne (by decide)]
      rfl
    rw [List.append_assoc, skipGap_block hb, ih, hn, Nat.add_assoc]

/-- The first closing mark of a text ends what could be a comment. -/
theorem exists_first_closing (h : closing <:+: s) :
    ∃ body next, s = body ++ closing ++ next ∧ ¬ closing <:+: body ++ [Byte.star] := by
  induction s with
  | nil => simp [closing] at h
  | cons c s ih =>
    by_cases hp : closing <+: c :: s
    · obtain ⟨next, hn⟩ := hp
      exact ⟨[], next, hn.symm, by decide⟩
    · obtain ⟨body, next, rfl, hb⟩ := ih ((List.infix_cons_iff.mp h).resolve_left hp)
      refine ⟨c :: body, next, by simp, fun hi => ?_⟩
      rcases List.infix_cons_iff.mp hi with hi | hi
      · have hs : c :: (body ++ [Byte.star]) <+: c :: (body ++ closing ++ next) :=
          ⟨Byte.slash :: next, by simp [closing]⟩
        exact hp (hi.trans hs)
      · exact hb hi

theorem not_of_mem_head?_dropWhile {p : UInt8 → Bool} (h : b ∈ (s.dropWhile p).head?) : p b = false := by
  have hn := List.head?_dropWhile_not p s
  rw [Option.mem_def.mp h] at hn
  exact hn

/-- Every text is filler up to a text that does not start with filler, or up to a comment without end. -/
theorem exists_filler (s : Text) : ∃ gap rest, s = gap ++ rest ∧ Filler gap rest ∧
    (Bare rest ∨ ∃ body, rest = Byte.slash :: Byte.star :: body ∧ ¬ closing <:+: body) := by
  induction hn : s.length using Nat.strongRecOn generalizing s with
  | ind n ih =>
    by_cases hw : ∃ b ∈ s.head?, isWhite b = true
    · obtain ⟨b, hb, hw⟩ := hw
      obtain ⟨s, rfl⟩ := List.head?_eq_some_iff.mp hb
      obtain ⟨gap, rest, rfl, hg, hr⟩ := ih s.length (by simp [← hn]) s rfl
      exact ⟨b :: gap, rest, rfl, .white hw hg, hr⟩
    by_cases hl : [Byte.slash, Byte.slash] <+: s
    · obtain ⟨t, rfl⟩ := hl
      have hd : (t.dropWhile (· != Byte.newline)).length < n := by
        have hle := (List.dropWhile_suffix (l := t) (· != Byte.newline)).length_le
        rw [← hn, List.length_append, List.length_cons]
        omega
      obtain ⟨gap, rest, hs, hg, hr⟩ := ih _ hd _ rfl
      have hb : Byte.newline ∉ t.takeWhile (· != Byte.newline) := by
        intro hm
        simpa using List.all_eq_true.mp List.all_takeWhile _ hm
      have he : EndsLine (gap ++ rest) := by
        intro b hb
        rw [← hs] at hb
        simpa using not_of_mem_head?_dropWhile hb
      refine ⟨_, rest, ?_, .line hb he hg, hr⟩
      rw [List.append_assoc, ← hs]
      simp [List.takeWhile_append_dropWhile]
    by_cases hb : [Byte.slash, Byte.star] <+: s
    · obtain ⟨t, rfl⟩ := hb
      by_cases hc : closing <:+: t
      · obtain ⟨body, next, rfl, hb⟩ := exists_first_closing hc
        have hd : next.length < n := by
          rw [← hn]
          simp only [List.length_append, List.length_cons]
          omega
        obtain ⟨gap, rest, rfl, hg, hr⟩ := ih _ hd next rfl
        exact ⟨_, rest, by simp, .block hb hg, hr⟩
      · exact ⟨[], _, rfl, .nil, .inr ⟨t, rfl, hc⟩⟩
    · exact ⟨[], s, rfl, .nil, .inl ⟨by simpa using hw, hl, hb⟩⟩

end

end Jack.Lexical
