import Jack.Proofs.Reading.Expression
import Jack.Proofs.Text
import Jack.Proofs.Utf8

/-! String constants. The code of a string constant holds its code points, each once and in their order, so
that the bytes of the constant can be read back from the code where they are characters. -/

namespace Jack

open String (utf8EncodeChar)

namespace Utf8

/-- A text is the bytes of some characters. -/
def IsValid (s : Text) : Prop := ∃ cs, encode cs = s

/-- The bytes of a valid text are those of its code points. -/
theorem IsValid.encode_codePoints {s : Text} (h : IsValid s) : encode ((codePoints s).map Char.ofNat) = s := by
  obtain ⟨cs, rfl⟩ := h
  have hc : (cs.map Char.toNat).map Char.ofNat = cs := by
    simp [Function.comp_def]
  rw [codePoints_encode, hc]

theorem IsValid.codePoints_injective {s t : Text} (hs : IsValid s) (ht : IsValid t)
    (h : codePoints s = codePoints t) : s = t := by
  rw [← hs.encode_codePoints, h, ht.encode_codePoints]

/-- A byte that neither starts nor continues a character is stray wherever it stands. -/
theorem stray_of_lead?_eq_none {b : UInt8} (hl : lead? b = none) (ht : isTail b = false) (before after : Text) :
    Stray before b after := by
  intro p q c _ _ hc
  obtain ⟨b', tails, lead, hb, hlead, h⟩ := exists_spells c
  have hm : b ∈ b' :: tails := by
    rw [← hb, hc]
    simp
  rcases List.mem_cons.mp hm with rfl | hm
  · rw [hl] at hlead
    cases hlead
  · rw [h.isTail b hm] at ht
    cases ht

end Utf8

/-- The code that makes a string: room for its characters, and each of them appended. -/
def makeString (codes : List Nat) : List Instruction :=
  .push .constant codes.length :: .call "String.new" 1 ::
    codes.flatMap fun (c : Nat) => [.push .constant c, .call "String.appendChar" 2]

theorem Instruction.text_constant_injective {m n : Nat}
    (h : Instruction.text (.push .constant m) = Instruction.text (.push .constant n)) : m = n :=
  Text.ofNat_injective (List.append_cancel_left h)

/-- The characters that are appended can be read off the lines of code. -/
theorem appended_text_injective {a b : List Nat}
    (h : (a.flatMap fun (c : Nat) => [Instruction.push .constant c, .call "String.appendChar" 2]).map
        Instruction.text =
      (b.flatMap fun (c : Nat) => [Instruction.push .constant c, .call "String.appendChar" 2]).map
        Instruction.text) : a = b := by
  induction a generalizing b with
  | nil =>
    cases b with
    | nil => rfl
    | cons d b => cases h
  | cons c a ih =>
    cases b with
    | nil => cases h
    | cons d b =>
      simp only [List.flatMap_cons, List.cons_append, List.nil_append, List.map_cons, List.cons.injEq] at h
      obtain ⟨hc, -, hrest⟩ := h
      rw [Instruction.text_constant_injective hc, ih hrest]

theorem makeString_text_injective {a b : List Nat}
    (h : (makeString a).map Instruction.text = (makeString b).map Instruction.text) : a = b := by
  simp only [makeString, List.map_cons, List.cons.injEq] at h
  exact appended_text_injective h.2.2

/-- A string constant is compiled in every state, to the code that makes a string of its code points. -/
theorem Pass.stringConstant_code (lexeme : Text) (s : State) :
    ∃ s', stringConstant lexeme s = .ok () s' ∧
      s'.code.toList = s.code.toList ++ makeString (Utf8.codePoints lexeme) := by
  have hr : ∃ s', stringConstant lexeme s = .ok () s' ∧ Took s { code := Tree.stringCode lexeme } s' :=
    stringConstant_runs lexeme s rfl rfl
  obtain ⟨s', hs, took⟩ := hr
  exact ⟨s', hs, took.code⟩

/-- The code of a string constant makes a string with room for exactly the characters that are appended. If
the constant is valid, its bytes are the encoding of those characters and no other valid constant has the
same lines of code; in any constant a character is appended for its bytes wherever they stand, and U+FFFD for
each byte that stands in no character. -/
theorem string_constants_faithful :
    (∀ (lexeme : Text) (s : Pass.State), ∃ s', Pass.stringConstant lexeme s = .ok () s' ∧
      s'.code.toList = s.code.toList ++ makeString (Utf8.codePoints lexeme)) ∧
    (∀ lexeme, Utf8.IsValid lexeme → Utf8.encode ((Utf8.codePoints lexeme).map Char.ofNat) = lexeme) ∧
    (∀ (a b : Text) (s s₁ s₂ : Pass.State), Utf8.IsValid a → Utf8.IsValid b →
      Pass.stringConstant a s = .ok () s₁ → Pass.stringConstant b s = .ok () s₂ →
      s₁.code.toList.map Instruction.text = s₂.code.toList.map Instruction.text → a = b) ∧
    (∀ (before after : Text) (c : Char), Utf8.codePoints (before ++ utf8EncodeChar c ++ after) =
      Utf8.codePoints before ++ c.toNat :: Utf8.codePoints after) ∧
    ∀ (before after : Text) (b : UInt8), Utf8.Stray before b after →
      Utf8.codePoints (before ++ b :: after) = Utf8.codePoints before ++ 65533 :: Utf8.codePoints after := by
  refine ⟨Pass.stringConstant_code, fun _ h => h.encode_codePoints, ?_, ?_, ?_⟩
  · intro a b s s₁ s₂ ha hb h₁ h₂ h
    obtain ⟨s₁', h₁', hc₁⟩ := Pass.stringConstant_code a s
    obtain ⟨s₂', h₂', hc₂⟩ := Pass.stringConstant_code b s
    rw [h₁'] at h₁
    rw [h₂'] at h₂
    cases h₁
    cases h₂
    rw [hc₁, hc₂, List.map_append, List.map_append] at h
    exact ha.codePoints_injective hb (makeString_text_injective (List.append_cancel_left h))
  · intro before after c
    rw [Utf8.codePoints, Utf8.pieces_char_between, List.map_append, List.map_cons]
    rfl
  · intro before after b h
    rw [Utf8.codePoints, h.pieces_eq, List.map_append, List.map_cons]
    rfl

/-- A stray byte between two characters is one U+FFFD, and an accent changes the code. -/
theorem string_constants_faithful_samples :
    (∃ s', Pass.stringConstant [0x61, 0xFF, 0xC3, 0xA9] (.start (.replay [])) = .ok () s' ∧
      s'.code.toList = makeString [97, 65533, 233]) ∧
    Utf8.encode ((Utf8.codePoints "né").map Char.ofNat) = "né" ∧
    ∃ s₁ s₂, Pass.stringConstant "né" (.start (.replay [])) = .ok () s₁ ∧
      Pass.stringConstant "ne" (.start (.replay [])) = .ok () s₂ ∧
      s₁.code.toList.map Instruction.text ≠ s₂.code.toList.map Instruction.text := by
  obtain ⟨hcode, hvalid, hinj, hchar, hstray⟩ := string_constants_faithful
  have ha : Utf8.IsValid "né" := ⟨['n', 'é'], by decide⟩
  have hb : Utf8.IsValid "ne" := ⟨['n', 'e'], by decide⟩
  refine ⟨?_, hvalid _ ha, ?_⟩
  · obtain ⟨s', hs, hc⟩ := hcode [0x61, 0xFF, 0xC3, 0xA9] (.start (.replay []))
    have hf := hstray [0x61] [0xC3, 0xA9] 0xFF (Utf8.stray_of_lead?_eq_none (by decide) (by decide) _ _)
    have hl : Utf8.codePoints [0x61] = [97] := by decide
    have hr : Utf8.codePoints [0xC3, 0xA9] = [233] := by decide
    rw [hl, hr] at hf
    refine ⟨s', hs, ?_⟩
    rw [hc]
    exact congrArg makeString hf
  · obtain ⟨s₁, h₁, -⟩ := hcode "né" (.start (.replay []))
    obtain ⟨s₂, h₂, -⟩ := hcode "ne" (.start (.replay []))
    exact ⟨s₁, s₂, h₁, h₂, fun h => absurd (hinj _ _ _ _ _ ha hb h₁ h₂ h) (by decide)⟩

end Jack
