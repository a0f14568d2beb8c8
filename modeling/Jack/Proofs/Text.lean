import Jack.Text.Basic
import Mathlib.Data.Nat.Digits.Lemmas

/-! Text that is read back: pieces between separators, lines of a file, decimal numbers and names. -/

namespace Jack

namespace Text

section

variable {b : UInt8} {s : Text}

theorem splitOn_append (h : b ∉ s) (t : Text) : splitOn b (s ++ b :: t) = s :: splitOn b t := by
  induction s with
  | nil => simp [splitOn]
  | cons c s ih =>
    rw [List.mem_cons, not_or] at h
    rw [List.cons_append, splitOn, ih h.2]
    simp [Ne.symm h.1]

theorem splitOn_of_not_mem (h : b ∉ s) : splitOn b s = [s] := by
  induction s with
  | nil => rfl
  | cons c s ih =>
    rw [List.mem_cons, not_or] at h
    rw [splitOn, ih h.2]
    simp [Ne.symm h.1]

theorem joinWith_cons_cons (separator p q : Text) (pieces : List Text) :
    joinWith separator (p :: q :: pieces) = p ++ separator ++ joinWith separator (q :: pieces) := by
  simp [joinWith]

theorem not_mem_joinWith {separator : Text} {pieces : List Text} (hs : b ∉ separator)
    (h : ∀ p ∈ pieces, b ∉ p) : b ∉ joinWith separator pieces := by
  induction pieces with
  | nil => simp [joinWith]
  | cons p pieces ih =>
    have ih := ih fun q hq => h q (List.mem_cons_of_mem _ hq)
    cases pieces with
    | nil => simpa [joinWith] using h p
    | cons q pieces =>
      rw [joinWith_cons_cons, List.mem_append, List.mem_append, not_or, not_or]
      exact ⟨⟨h p (by simp), hs⟩, ih⟩

/-- Pieces without the separator are read back. -/
theorem splitOn_joinWith {piece : Text} {pieces : List Text} (h : ∀ p ∈ piece :: pieces, b ∉ p) :
    splitOn b (joinWith [b] (piece :: pieces)) = piece :: pieces := by
  induction pieces generalizing piece with
  | nil => simpa [joinWith] using splitOn_of_not_mem (h piece (by simp))
  | cons next pieces ih =>
    rw [joinWith_cons_cons, List.append_assoc, List.singleton_append,
      splitOn_append (h piece (by simp)), ih fun p hp => h p (List.mem_cons_of_mem _ hp)]

/-- Lines are read back from the text of a file, in which nothing stands behind the last newline. -/
theorem splitOn_unlines {lines : List Text} (h : ∀ l ∈ lines, Byte.newline ∉ l) :
    splitOn Byte.newline (unlines lines) = lines ++ [[]] := by
  induction lines with
  | nil => rfl
  | cons line lines ih =>
    have hu : unlines (line :: lines) = line ++ Byte.newline :: unlines lines := by simp [unlines]
    rw [hu, splitOn_append (h line (by simp)), ih fun l hl => h l (List.mem_cons_of_mem _ hl)]
    rfl

end

theorem takeWhile_append_of_head {p : UInt8 → Bool} {w after : Text} (hw : ∀ b ∈ w, p b = true)
    (ha : ∀ b ∈ after.head?, p b = false) :
    (w ++ after).takeWhile p = w ∧ (w ++ after).dropWhile p = after := by
  rw [List.takeWhile_append_of_pos hw, List.dropWhile_append_of_pos hw]
  cases after with
  | nil => simp
  | cons c after => simp [ha c rfl]

/-- The number that decimal digits denote. -/
def decimal? (s : Text) : Option Nat :=
  if s.isEmpty || !s.all Byte.isDigit then none else some (digitsValue s)

theorem toNat_toUInt8_of_isDigit {c : Char} (h : c.isDigit = true) :
    c.toUInt8.toNat = c.toNat ∧ 48 ≤ c.toNat ∧ c.toNat ≤ 57 := by
  simp only [Char.isDigit, Bool.and_eq_true, decide_eq_true_eq, ge_iff_le] at h
  have hl : 48 ≤ c.toNat := UInt32.le_iff_toNat_le.mp h.1
  have hu : c.toNat ≤ 57 := UInt32.le_iff_toNat_le.mp h.2
  have hlt : c.toNat < 256 := by omega
  exact ⟨Nat.mod_eq_of_lt hlt, hl, hu⟩

theorem isDigit_of_mem_ofNat {n : Nat} {b : UInt8} (h : b ∈ ofNat n) : Byte.isDigit b = true := by
  obtain ⟨c, hc, rfl⟩ := List.mem_map.mp h
  obtain ⟨hn, hl, hu⟩ := toNat_toUInt8_of_isDigit (Nat.isDigit_of_mem_toDigits (by omega) (by omega) hc)
  simp only [Byte.isDigit, Bool.and_eq_true, decide_eq_true_eq, UInt8.le_iff_toNat_le, hn]
  exact ⟨hl, hu⟩

theorem digitsValue_ofNat (n : Nat) : digitsValue (ofNat n) = n := by
  have hd : ∀ (cs : List Char) (m : Nat), (∀ c ∈ cs, c.isDigit = true) →
      (cs.map Char.toUInt8).foldl (fun n b => n * 10 + (b.toNat - 0x30)) m =
        Nat.ofDigitChars 10 cs m := by
    intro cs
    induction cs with
    | nil => exact fun m _ => rfl
    | cons c cs ih =>
      intro m h
      obtain ⟨hn, -⟩ := toNat_toUInt8_of_isDigit (h c (by simp))
      rw [List.map_cons, List.foldl_cons, ih _ fun c hc => h c (by simp [hc]), Nat.ofDigitChars_cons,
        hn, Nat.mul_comm 10]
      rfl
  rw [digitsValue, ofNat, hd _ _ fun c hc => Nat.isDigit_of_mem_toDigits (by omega) (by omega) hc]
  exact Nat.ofDigitChars_toDigits (by omega) (by omega)

/-- A number has no other digits. -/
theorem ofNat_injective {m n : Nat} (h : ofNat m = ofNat n) : m = n := by
  rw [← digitsValue_ofNat m, h, digitsValue_ofNat]

theorem decimal?_ofNat (n : Nat) : decimal? (ofNat n) = some n := by
  have he : (ofNat n).isEmpty = false := by
    rw [ofNat, List.isEmpty_map, List.isEmpty_eq_false_iff]
    exact Nat.toDigits_ne_nil
  have ha : (ofNat n).all Byte.isDigit = true := List.all_eq_true.mpr fun b hb => isDigit_of_mem_ofNat hb
  rw [decimal?, he, ha, digitsValue_ofNat]
  rfl

/-- A letter or an underscore, and then letters, digits and underscores. -/
def isName : Text → Bool
  | [] => false
  | b :: rest => Byte.isNameStart b && rest.all Byte.isWord

theorem isWord_of_mem {s : Text} (h : s.isName = true) {b : UInt8} (hb : b ∈ s) :
    Byte.isWord b = true := by
  cases s with
  | nil => simp at hb
  | cons c rest =>
    rw [isName, Bool.and_eq_true, List.all_eq_true] at h
    obtain rfl | hb := List.mem_cons.mp hb
    · rw [Byte.isWord, h.1, Bool.true_or]
    · exact h.2 b hb

theorem isName_append {s t : Text} (hs : s.isName = true) (ht : ∀ b ∈ t, Byte.isWord b = true) :
    isName (s ++ t) = true := by
  cases s with
  | nil => simp [isName] at hs
  | cons c rest =>
    rw [isName, Bool.and_eq_true] at hs
    rw [List.cons_append, isName, hs.1, List.all_append, hs.2, Bool.true_and, Bool.true_and]
    exact List.all_eq_true.mpr ht

/-- Without a space or a newline. -/
def isUnbroken (s : Text) : Bool := s.all fun b => b != Byte.space && b != Byte.newline

theorem isUnbroken_iff {s : Text} :
    s.isUnbroken = true ↔ ∀ b ∈ s, b ≠ Byte.space ∧ b ≠ Byte.newline := by
  simp [isUnbroken]

theorem isUnbroken_of_isName {s : Text} (h : s.isName = true) : s.isUnbroken = true := by
  refine isUnbroken_iff.mpr fun b hb => ?_
  have hw := isWord_of_mem h hb
  exact ⟨fun he => absurd (he ▸ hw) (by decide), fun he => absurd (he ▸ hw) (by decide)⟩

theorem isUnbroken_ofInt {n : Int} (h : 0 ≤ n) : (ofInt n).isUnbroken = true := by
  obtain ⟨n, rfl⟩ := Int.eq_ofNat_of_zero_le h
  refine isUnbroken_iff.mpr fun b hb => ?_
  have hd : Byte.isDigit b = true := isDigit_of_mem_ofNat hb
  exact ⟨fun he => absurd (he ▸ hd) (by decide), fun he => absurd (he ▸ hd) (by decide)⟩

theorem isUnbroken_append {s t : Text} (hs : s.isUnbroken = true) (ht : t.isUnbroken = true) :
    (s ++ t).isUnbroken = true := by
  rw [isUnbroken, List.all_append, ← isUnbroken, ← isUnbroken, hs, ht, Bool.and_true]

/-- Two names with a dot between them. -/
def isQualified (s : Text) : Bool :=
  match splitOn Byte.dot s with
  | [a, b] => isName a && isName b
  | _ => false

theorem isQualified_append {a b : Text} (ha : a.isName = true) (hb : b.isName = true) :
    isQualified (a ++ "." ++ b) = true := by
  have hd : ∀ {s : Text}, s.isName = true → Byte.dot ∉ s :=
    fun h hm => absurd (isWord_of_mem h hm) (by decide)
  have hs : splitOn Byte.dot (a ++ Byte.dot :: b) = [a, b] := by
    rw [splitOn_append (hd ha), splitOn_of_not_mem (hd hb)]
  have he : a ++ "." ++ b = a ++ Byte.dot :: b := List.append_assoc _ _ _
  simp [isQualified, he, hs, ha, hb]

end Text

end Jack
