import Jack.Proofs.Lexical.Tiling
import Jack.Proofs.Pass.Lines

/-! Layouts: tokens spelled out with filler before, between and behind them. Whatever the layout, the lexer
reads the tokens back, and so two layouts of the same tokens compile alike. -/

namespace Jack

namespace Lexical

open Lexer

/-- A text that starts with white space. -/
def StartsWhite (s : Text) : Prop := ∃ b ∈ s.head?, isWhite b = true

/-- Behind a token, a text goes on with the given ones. White space keeps them apart. -/
inductive Follows : List Spelling → Text → Prop where
  | nil : Follows [] []
  | filler {gap : Text} (hw : StartsWhite gap) (hg : Filler gap []) : Follows [] gap
  | cons {sp : Spelling} {sps : List Spelling} {gap rest : Text} (hw : StartsWhite gap)
      (hg : Filler gap (sp.text ++ rest)) (h : Follows sps rest) :
      Follows (sp :: sps) (gap ++ (sp.text ++ rest))

/-- A text lays out the given tokens. Filler of any kind stands before the first. -/
inductive Layout : List Spelling → Text → Prop where
  | nil {gap : Text} (hg : Filler gap []) : Layout [] gap
  | cons {sp : Spelling} {sps : List Spelling} {gap rest : Text} (hg : Filler gap (sp.text ++ rest))
      (h : Follows sps rest) : Layout (sp :: sps) (gap ++ (sp.text ++ rest))

/-- The token of a spelling, without a line. -/
def Spelling.token (sp : Spelling) : Token := ⟨sp.terminal, sp.lexeme, 0⟩

section

variable {b : UInt8} {before s rest gap : Text} {sp : Spelling} {sps : List Spelling}

theorem isWord_of_isWhite (h : isWhite b = true) : Byte.isWord b = false := by
  cases hw : Byte.isWord b with
  | false => rfl
  | true => rw [isWhite_of_isWord hw] at h; cases h

theorem isDigit_of_isWhite (h : isWhite b = true) : Byte.isDigit b = false :=
  (Bool.or_eq_false_iff.mp (isWord_of_isWhite h)).2

/-- White space ends every token. -/
theorem Spelling.endsBefore_of_white (sp : Spelling) (h : ∀ b ∈ rest.head?, isWhite b = true) :
    sp.EndsBefore rest := by
  cases sp with
  | keyword | ident => exact fun b hb => isWord_of_isWhite (h b hb)
  | number => exact fun b hb => isDigit_of_isWhite (h b hb)
  | string => trivial
  | punct p =>
    cases p with
    | slash =>
      intro b hb
      have hw := h b hb
      refine ⟨?_, ?_⟩ <;> rintro rfl <;> cases hw
    | _ => trivial

theorem StartsWhite.append (h : StartsWhite gap) : ∀ b ∈ (gap ++ rest).head?, isWhite b = true := by
  obtain ⟨c, hc, hw⟩ := h
  obtain ⟨gap, rfl⟩ := List.head?_eq_some_iff.mp hc
  rintro b ⟨⟩
  exact hw

theorem Follows.white (h : Follows sps rest) : ∀ b ∈ rest.head?, isWhite b = true := by
  cases h with
  | nil => simp
  | filler hw hg =>
    rw [← List.append_nil rest]
    exact hw.append
  | cons hw hg h => exact hw.append

/-- The tokens of a text are laid out in it as its tiles. -/
def Tiles (before s : Text) (sps : List Spelling) : Prop :=
  ∃ tiles tail, Tiling before s tiles tail ∧
    tiles.map (fun t => t.token.unlined) = sps.map Spelling.token

theorem tiles_nil (h : Filler s []) : Tiles before s [] := ⟨[], s, .nil h, rfl⟩

theorem tiles_cons (hg : Filler gap (sp.text ++ rest)) (he : sp.EndsBefore rest)
    (h : ∀ before, Tiles before rest sps) : Tiles before (gap ++ (sp.text ++ rest)) (sp :: sps) := by
  let t : Tile :=
    ⟨gap, sp.text, sp.terminal, sp.lexeme, (1 + newlines (before ++ gap) : Nat)⟩
  obtain ⟨tiles, tail, ht, hs⟩ := h (before ++ t.text)
  have hl : Lexeme sp.terminal sp.lexeme sp.text rest := .spelled sp he
  have hc := Tiling.cons (t := t) ⟨hg, hl, hl.bytes_ne_nil, rfl⟩ ht
  rw [Tile.text, List.append_assoc] at hc
  refine ⟨t :: tiles, tail, hc, ?_⟩
  rw [List.map_cons, List.map_cons, hs]
  rfl

theorem Follows.tiles (h : Follows sps rest) (before : Text) : Tiles before rest sps := by
  induction h generalizing before with
  | nil => exact tiles_nil .nil
  | filler hw hg => exact tiles_nil hg
  | @cons sp sps gap rest hw hg h ih => exact tiles_cons hg (sp.endsBefore_of_white h.white) ih

theorem Layout.tiles (h : Layout sps s) : Tiles [] s sps := by
  cases h with
  | nil hg => exact tiles_nil hg
  | @cons sp sps gap rest hg h => exact tiles_cons hg (sp.endsBefore_of_white h.white) h.tiles

theorem Layout.exhaust (h : Layout sps s) :
    (exhaust ((ofText s).rest.length + 1) (ofText s)).1.map Token.unlined = sps.map Spelling.token := by
  obtain ⟨tiles, tail, ht, hs⟩ := h.tiles
  have he : Lexer.exhaust ((ofText s).rest.length + 1) (ofText s) = _ :=
    ht.exhaust_eq (Nat.lt_succ_of_le ht.length_le)
  rw [he, List.map_map]
  exact hs

theorem Layout.unlined_toSource (h : Layout sps s) :
    (ofText s).toSource.unlined = { tokens := sps.map Spelling.token, endLine := 0 } := by
  rw [← h.exhaust]
  rfl

theorem Layout.tokens (h : Layout sps s) :
    (ofText s).tokens.1.map Token.unlined = sps.map Spelling.token := by
  have hl : ∀ t ∈ (Lexer.exhaust ((ofText s).rest.length + 1) (ofText s)).1,
      t.terminal ≠ .illegal := by
    intro t ht
    have hm : t.unlined ∈ sps.map Spelling.token := h.exhaust ▸ List.mem_map_of_mem ht
    obtain ⟨sp, -, hsp⟩ := List.mem_map.mp hm
    have hsp : sp.terminal = t.terminal := congrArg Token.terminal hsp
    rw [← hsp]
    cases sp <;> exact Terminal.noConfusion
  rw [Lexer.tokens, drain_eq_exhaust hl, h.exhaust]

end

end Lexical

open Lexical

/-- Every layout of tokens is read back as these tokens, and all its layouts compile alike. -/
theorem layout_compiles_alike (sps : List Spelling) (s s' : Text) (h : Layout sps s)
    (h' : Layout sps s') :
    (Lexer.ofText s).tokens.1.map (fun t => (t.terminal, t.lexeme)) =
      sps.map (fun sp => (sp.terminal, sp.lexeme)) ∧
    SameButLines (compileText s) (compileText s') := by
  refine ⟨?_, sameButLines_of_unlined ?_⟩
  · have ht := congrArg (List.map fun t => (t.terminal, t.lexeme)) h.tokens
    rw [List.map_map, List.map_map] at ht
    exact ht
  · unfold compileText
    rw [← outcome_unlined, ← outcome_unlined, h.unlined_toSource, h'.unlined_toSource]

namespace EmptyClass

/-- class Main { } -/
def spellings : List Spelling :=
  [.keyword .class, .ident "Main" rfl rfl, .punct .lbrace, .punct .rbrace]

def spaced : Text := "class Main \x7b \x7d"

/-- With a quote and a star in a comment, a brace in another and a line in every gap. -/
def commented : Text := "/*\"**/class\n//\x7d\nMain\t/**//**/\x7b\n\x7d\n//"

theorem layout_spaced : Layout spellings spaced := by
  have hw : ∀ rest, Filler [Byte.space] rest := fun _ => .white rfl .nil
  have hs : StartsWhite [Byte.space] := ⟨_, rfl, rfl⟩
  exact .cons .nil (.cons hs (hw _) (.cons hs (hw _) (.cons hs (hw _) .nil)))

theorem layout_commented : Layout spellings commented := by
  have hl : ∀ rest, Filler [Byte.newline] rest := fun _ => .white rfl .nil
  have hs : ∀ gap, StartsWhite (Byte.newline :: gap) := fun _ => ⟨_, rfl, rfl⟩
  have ht : ∀ gap, StartsWhite (Byte.tab :: gap) := fun _ => ⟨_, rfl, rfl⟩
  have hq : ∀ rest, Filler (Byte.slash :: Byte.star :: [Byte.quote, Byte.star] ++ closing ++ []) rest :=
    fun _ => .block (by decide) .nil
  have hb : ∀ rest, Filler (Byte.newline ::
      (Byte.slash :: Byte.slash :: [Punct.rbrace.byte] ++ [Byte.newline])) rest :=
    fun _ => .white rfl (.line (by decide) (by rintro b ⟨⟩; rfl) (hl _))
  have hc : ∀ rest, Filler (Byte.tab :: (Byte.slash :: Byte.star :: [] ++ closing ++
      (Byte.slash :: Byte.star :: [] ++ closing ++ []))) rest :=
    fun _ => .white rfl (.block (by decide) (.block (by decide) .nil))
  have he : Filler (Byte.newline :: (Byte.slash :: Byte.slash :: [] ++ [])) [] :=
    .white rfl (.line (by decide) (by rintro b ⟨⟩) .nil)
  exact .cons (hq _) (.cons (hs _) (hb _) (.cons (ht _) (hc _) (.cons (hs _) (hl _) (.filler (hs _) he))))

end EmptyClass

theorem layout_compiles_alike_empty :
    Layout EmptyClass.spellings EmptyClass.commented ∧ Layout EmptyClass.spellings EmptyClass.spaced ∧
      (Lexer.ofText EmptyClass.commented).tokens.1.map (fun t => (t.terminal, t.lexeme)) =
        EmptyClass.spellings.map (fun sp => (sp.terminal, sp.lexeme)) ∧
      SameButLines (compileText EmptyClass.commented) (compileText EmptyClass.spaced) :=
  ⟨EmptyClass.layout_commented, EmptyClass.layout_spaced,
    layout_compiles_alike _ _ _ EmptyClass.layout_commented EmptyClass.layout_spaced⟩

end Jack
