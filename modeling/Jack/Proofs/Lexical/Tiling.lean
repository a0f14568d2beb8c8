import Jack.Proofs.Lexical.Lexeme

/-! The tokens of a text tile it: each takes the filler in front of it and its own bytes, and what is left
behind the last one is filler. Every text has such a tiling, and the lexer reads it tile by tile. -/

namespace Jack.Lexical

open Lexer

/-- A token in a text with the filler in front of it. -/
structure Tile where
  gap : Text
  bytes : Text
  token : Token

namespace Tile

def text (t : Tile) : Text := t.gap ++ t.bytes

/-- The tile stands right between two texts. Its token is on the line on which its bytes start. -/
structure Fits (before after : Text) (t : Tile) : Prop where
  gap : Filler t.gap (t.bytes ++ after)
  lexeme : Lexeme t.token.terminal t.token.lexeme t.bytes after
  nonempty : t.bytes ≠ []
  line : t.token.line = (1 + newlines (before ++ t.gap) : Nat)

end Tile

/-- The text `rest`, with `before` in front of it, is made of tiles and the filler `tail`. -/
structure Tiling (before rest : Text) (tiles : List Tile) (tail : Text) : Prop where
  covers : rest = tiles.flatMap Tile.text ++ tail
  filler : Filler tail []
  fits : ∀ front t back, tiles = front ++ t :: back →
    t.Fits (before ++ front.flatMap Tile.text) (back.flatMap Tile.text ++ tail)

/-- The end of input behind a text. -/
def endOf (s : Text) : Token := ⟨.eof, [], (1 + newlines s : Nat)⟩

section

variable {n : Nat} {before rest after tail : Text} {t : Tile} {tiles : List Tile}

/-- One reading takes one tile. -/
theorem Tile.Fits.next (h : t.Fits before after) :
    next ⟨t.text ++ after, 1 + newlines before⟩ =
      (t.token, ⟨after, 1 + newlines (before ++ t.text)⟩) := by
  have hl : 1 + newlines before + newlines t.gap = 1 + newlines (before ++ t.gap) := by
    rw [newlines_append, Nat.add_assoc]
  have hb : 1 + newlines (before ++ t.gap) + newlines t.bytes = 1 + newlines (before ++ t.text) := by
    rw [Tile.text, newlines_append, newlines_append, newlines_append, Nat.add_assoc, Nat.add_assoc]
  rw [Tile.text, List.append_assoc, next_filler h.gap, hl, h.lexeme.next_append, hb, ← h.line,
    Tile.text]

namespace Tiling

theorem nil (h : Filler tail []) : Tiling before tail [] tail where
  covers := rfl
  filler := h
  fits front t back he := by simp at he

theorem cons (ht : t.Fits before rest) (h : Tiling (before ++ t.text) rest tiles tail) :
    Tiling before (t.text ++ rest) (t :: tiles) tail where
  covers := by rw [h.covers, List.flatMap_cons, List.append_assoc]
  filler := h.filler
  fits front u back he := by
    cases front with
    | nil =>
      obtain ⟨rfl, rfl⟩ := List.cons.inj he
      rw [List.flatMap_nil, List.append_nil, ← h.covers]
      exact ht
    | cons v front =>
      obtain ⟨rfl, hs⟩ := List.cons.inj he
      rw [List.flatMap_cons, ← List.append_assoc]
      exact h.fits front u back hs

theorem fits_head (h : Tiling before rest (t :: tiles) tail) :
    t.Fits before (tiles.flatMap Tile.text ++ tail) := by
  simpa using h.fits [] t tiles rfl

theorem covers_cons (h : Tiling before rest (t :: tiles) tail) :
    rest = t.text ++ (tiles.flatMap Tile.text ++ tail) := by
  rw [h.covers, List.flatMap_cons, List.append_assoc]

theorem of_cons (h : Tiling before rest (t :: tiles) tail) :
    Tiling (before ++ t.text) (tiles.flatMap Tile.text ++ tail) tiles tail where
  covers := rfl
  filler := h.filler
  fits front u back he := by
    rw [List.append_assoc, ← List.flatMap_cons]
    exact h.fits (t :: front) u back (by rw [he, List.cons_append])

/-- Every tile takes a byte. -/
theorem length_le (h : Tiling before rest tiles tail) : tiles.length ≤ rest.length := by
  induction tiles generalizing before rest with
  | nil => exact Nat.zero_le _
  | cons t tiles ih =>
    have hb := List.length_pos_of_ne_nil h.fits_head.nonempty
    have hi := ih h.of_cons
    rw [h.covers_cons, List.length_append, Tile.text, List.length_append, List.length_cons]
    omega

end Tiling

theorem exists_tiling (before rest : Text) : ∃ tiles tail, Tiling before rest tiles tail := by
  induction hn : rest.length using Nat.strongRecOn generalizing before rest with
  | ind n ih =>
    rcases filler_or_lexeme rest with hf | ⟨gap, terminal, lexeme, bytes, after, rfl, hg, hl⟩
    · exact ⟨[], rest, .nil hf⟩
    · have hb := List.length_pos_of_ne_nil hl.bytes_ne_nil
      have ha : after.length < n := by
        rw [← hn, List.length_append, List.length_append]
        omega
      let t : Tile := ⟨gap, bytes, terminal, lexeme, (1 + newlines (before ++ gap) : Nat)⟩
      obtain ⟨tiles, tail, h⟩ := ih _ ha (before ++ t.text) after rfl
      have ht := Tiling.cons (t := t) ⟨hg, hl, hl.bytes_ne_nil, rfl⟩ h
      rw [Tile.text, List.append_assoc] at ht
      exact ⟨t :: tiles, tail, ht⟩

theorem take_nil (n line : Nat) : take n ⟨[], line⟩ = List.replicate n ⟨.eof, [], line⟩ := by
  induction n with
  | zero => rfl
  | succ n ih => rw [take, next_nil, ih, List.replicate_succ]

theorem next_end (h : Filler tail []) :
    next ⟨tail, 1 + newlines before⟩ =
      (endOf (before ++ tail), ⟨[], 1 + newlines (before ++ tail)⟩) := by
  have hn : next ⟨tail ++ [], 1 + newlines before⟩ = _ := next_filler h
  rw [List.append_nil, next_nil, Nat.add_assoc, ← newlines_append] at hn
  exact hn

theorem take_end (h : Filler tail []) :
    take n ⟨tail, 1 + newlines before⟩ = List.replicate n (endOf (before ++ tail)) := by
  cases n with
  | zero => rfl
  | succ n => rw [take, next_end h, take_nil, List.replicate_succ, endOf]

/-- Successive readings give the tokens of the tiles and then the end of input ever after. -/
theorem Tiling.take_eq (h : Tiling before rest tiles tail) :
    take (tiles.length + n) ⟨rest, 1 + newlines before⟩ =
      tiles.map Tile.token ++ List.replicate n (endOf (before ++ rest)) := by
  induction tiles generalizing before rest with
  | nil =>
    obtain rfl : rest = tail := h.covers
    rw [List.length_nil, Nat.zero_add, take_end h.filler]
    rfl
  | cons t tiles ih =>
    have hl : (t :: tiles).length + n = tiles.length + n + 1 := by
      rw [List.length_cons]
      omega
    rw [hl, take, h.covers_cons, h.fits_head.next, ih h.of_cons, List.append_assoc]
    rfl

theorem Tiling.exhaust_eq (h : Tiling before rest tiles tail) (hn : tiles.length < n) :
    exhaust n ⟨rest, 1 + newlines before⟩ =
      (tiles.map Tile.token, ⟨[], 1 + newlines (before ++ rest)⟩) := by
  induction tiles generalizing before rest n with
  | nil =>
    obtain rfl : rest = tail := h.covers
    obtain ⟨n, rfl⟩ := Nat.exists_eq_succ_of_ne_zero (Nat.ne_of_gt hn)
    rw [exhaust, next_end h.filler]
    rfl
  | cons t tiles ih =>
    obtain ⟨n, rfl⟩ := Nat.exists_eq_succ_of_ne_zero (Nat.ne_of_gt (Nat.zero_lt_of_lt hn))
    have hi := ih h.of_cons (Nat.lt_of_succ_lt_succ hn)
    rw [exhaust, h.covers_cons, h.fits_head.next]
    dsimp only
    split
    · next he => exact absurd he h.fits_head.lexeme.terminal_ne_eof
    · rw [hi, List.append_assoc]
      rfl

theorem drain_eq_exhaust {l : Lexer} (h : ∀ t ∈ (exhaust n l).1, t.terminal ≠ .illegal) :
    drain n l = exhaust n l := by
  induction n generalizing l with
  | zero => rfl
  | succ n ih =>
    unfold drain
    unfold exhaust at h ⊢
    generalize l.next = taken at h ⊢
    obtain ⟨⟨terminal, lexeme, line⟩, l⟩ := taken
    cases terminal with
    | eof => rfl
    | illegal => exact absurd rfl (h _ List.mem_cons_self)
    | _ =>
      have hi := ih fun t ht => h t (List.mem_cons_of_mem _ ht)
      dsimp only
      rw [hi]

/-- The tokens of a text stand in it in order, apart and with filler between them, each on its line; at
most one for each byte comes before the end of input, which then stays. -/
theorem take_ofText_tiling (s : Text) : ∃ tiles tail, Tiling [] s tiles tail ∧
    tiles.length ≤ s.length ∧
    ∀ n, (ofText s).take (tiles.length + n) =
      tiles.map Tile.token ++ List.replicate n (endOf s) := by
  obtain ⟨tiles, tail, h⟩ := exists_tiling [] s
  exact ⟨tiles, tail, h, h.length_le, fun n => h.take_eq⟩

end

end Jack.Lexical
