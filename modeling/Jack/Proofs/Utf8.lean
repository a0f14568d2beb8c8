import Jack.Text.Utf8
import Mathlib.Data.List.Infix

/-! UTF-8 reading and writing. A text is read as characters exactly where the bytes of a character stand, and
every byte that belongs to no character is read as a stray byte of its own: the reading of a text is cut
wherever no character is. -/

namespace Jack.Utf8

open String (utf8EncodeChar)

/-- The bytes that follow a first byte make it a character. -/
structure Spells (lead : Lead) (tails : Text) (c : Char) : Prop where
  length : tails.length = lead.tails
  isTail : ∀ t ∈ tails, isTail t = true
  code : tails.foldl (fun n t => n * 64 + t.toNat % 64) lead.payload = c.toNat
  least : lead.least ≤ c.toNat

theorem toNat_ofNat {n : Nat} (h : n.isValidChar) : (Char.ofNat n).toNat = n := by
  rw [Char.ofNat, dif_pos h]
  rfl

/-- The character that a text starts with is read off its first byte and the bytes that follow it. -/
theorem char?_eq_some_iff_spells {s : Text} {c : Char} {n : Nat} :
    char? s = some (c, n) ↔ ∃ b tails rest lead, s = b :: (tails ++ rest) ∧ lead? b = some lead ∧
      Spells lead tails c ∧ n = lead.tails + 1 := by
  constructor
  · intro h
    cases s with
    | nil => cases h
    | cons b s =>
      simp only [char?, Option.bind_eq_bind, Option.bind_eq_some_iff] at h
      obtain ⟨lead, hl, h⟩ := h
      split at h
      · next hc =>
        obtain ⟨hlen, hall, hleast, hvalid⟩ := hc
        cases h
        have hcode := toNat_ofNat hvalid
        exact ⟨b, s.take lead.tails, s.drop lead.tails, lead, by simp, hl,
          ⟨hlen, List.all_eq_true.mp hall, hcode.symm, by rw [hcode]; exact hleast⟩, rfl⟩
      · cases h
  · rintro ⟨b, tails, rest, lead, rfl, hl, h, rfl⟩
    have ht : (tails ++ rest).take lead.tails = tails := List.take_left' h.length
    have hvalid : c.toNat.isValidChar := c.valid
    simp only [char?, hl, Option.bind_eq_bind, Option.bind_some, ht, h.code, h.length, h.least, hvalid,
      List.all_eq_true.mpr h.isTail, and_self, if_true, Char.ofNat_toNat]

/-! First bytes and continuing bytes by their ranges. -/

theorem lead?_eq (b : UInt8) : lead? b =
    if b.toNat < 0x80 then some ⟨0, b.toNat, 0⟩
    else if b.toNat < 0xC0 then none
    else if b.toNat < 0xE0 then some ⟨1, b.toNat - 0xC0, 0x80⟩
    else if b.toNat < 0xF0 then some ⟨2, b.toNat - 0xE0, 0x800⟩
    else if b.toNat < 0xF8 then some ⟨3, b.toNat - 0xF0, 0x10000⟩
    else none := by
  simp only [lead?, UInt8.lt_iff_toNat_lt]
  rfl

theorem isTail_iff {b : UInt8} : isTail b = true ↔ 0x80 ≤ b.toNat ∧ b.toNat ≤ 0xBF := by
  simp [isTail, UInt8.le_iff_toNat_le]

theorem toNat_byte {n : Nat} (h : n < 256) : (UInt8.ofNat n).toNat = n := by
  rw [UInt8.toNat_ofNat', Nat.mod_eq_of_lt h]

theorem lead?_byte_zero {n : Nat} (h : n < 128) : lead? (UInt8.ofNat n) = some ⟨0, n, 0⟩ := by
  rw [lead?_eq, toNat_byte (by omega), if_pos h]

theorem lead?_byte_one (n : Nat) : lead? (UInt8.ofNat (n % 32 + 192)) = some ⟨1, n % 32, 0x80⟩ := by
  rw [lead?_eq, toNat_byte (by omega), if_neg (by omega), if_neg (by omega), if_pos (by omega),
    Nat.add_sub_cancel]

theorem lead?_byte_two (n : Nat) : lead? (UInt8.ofNat (n % 16 + 224)) = some ⟨2, n % 16, 0x800⟩ := by
  rw [lead?_eq, toNat_byte (by omega), if_neg (by omega), if_neg (by omega), if_neg (by omega),
    if_pos (by omega), Nat.add_sub_cancel]

theorem lead?_byte_three (n : Nat) : lead? (UInt8.ofNat (n % 8 + 240)) = some ⟨3, n % 8, 0x10000⟩ := by
  rw [lead?_eq, toNat_byte (by omega), if_neg (by omega), if_neg (by omega), if_neg (by omega),
    if_neg (by omega), if_pos (by omega), Nat.add_sub_cancel]

/-- The byte that continues a character with the last six bits of a number. -/
def tailByte (n : Nat) : UInt8 := UInt8.ofNat (n % 64 + 128)

theorem toNat_tailByte (n : Nat) : (tailByte n).toNat = n % 64 + 128 :=
  toNat_byte (by omega)

@[simp] theorem isTail_tailByte (n : Nat) : isTail (tailByte n) = true := by
  rw [isTail_iff, toNat_tailByte]
  omega

@[simp] theorem tailByte_mod (n : Nat) : (tailByte n).toNat % 64 = n % 64 := by
  rw [toNat_tailByte]
  omega

theorem utf8EncodeChar_eq (c : Char) : utf8EncodeChar c =
    if c.toNat ≤ 0x7F then [UInt8.ofNat c.toNat]
    else if c.toNat ≤ 0x7FF then [UInt8.ofNat (c.toNat / 64 % 32 + 192), tailByte c.toNat]
    else if c.toNat ≤ 0xFFFF then
      [UInt8.ofNat (c.toNat / 4096 % 16 + 224), tailByte (c.toNat / 64), tailByte c.toNat]
    else
      [UInt8.ofNat (c.toNat / 262144 % 8 + 240), tailByte (c.toNat / 4096), tailByte (c.toNat / 64),
        tailByte c.toNat] := rfl

/-- The bytes of a character are read as that character. -/
theorem exists_spells (c : Char) : ∃ b tails lead, utf8EncodeChar c = b :: tails ∧
    lead? b = some lead ∧ Spells lead tails c := by
  have hv : c.toNat < 0xD800 ∨ 0xDFFF < c.toNat ∧ c.toNat < 0x110000 := c.valid
  rw [utf8EncodeChar_eq]
  split
  · exact ⟨_, _, _, rfl, lead?_byte_zero (by omega), rfl, by simp, rfl, Nat.zero_le _⟩
  split
  · refine ⟨_, _, _, rfl, lead?_byte_one _, rfl, by simp, ?_, by dsimp only; omega⟩
    simp only [List.foldl_cons, List.foldl_nil, tailByte_mod]
    omega
  split
  · refine ⟨_, _, _, rfl, lead?_byte_two _, rfl, by simp, ?_, by dsimp only; omega⟩
    simp only [List.foldl_cons, List.foldl_nil, tailByte_mod]
    omega
  · refine ⟨_, _, _, rfl, lead?_byte_three _, rfl, by simp, ?_, by dsimp only; omega⟩
    simp only [List.foldl_cons, List.foldl_nil, tailByte_mod]
    omega

theorem ofNat_eq_byte {n : Nat} {b : UInt8} (h : n = b.toNat) : UInt8.ofNat n = b := by
  rw [h, UInt8.ofNat_toNat]

theorem tailByte_eq {n : Nat} {t : UInt8} (ht : isTail t = true) (h : n % 64 = t.toNat % 64) :
    tailByte n = t := by
  rw [isTail_iff] at ht
  exact ofNat_eq_byte (by omega)

/-- Bytes that are read as a character are the bytes of that character. -/
theorem utf8EncodeChar_of_spells {b : UInt8} {tails : Text} {lead : Lead} {c : Char} (hl : lead? b = some lead)
    (h : Spells lead tails c) : utf8EncodeChar c = b :: tails := by
  obtain ⟨hlen, htail, hcode, hleast⟩ := h
  rw [lead?_eq] at hl
  split at hl
  · cases hl
    obtain rfl := List.length_eq_zero_iff.mp hlen
    simp only [List.foldl_nil] at hcode
    rw [utf8EncodeChar_eq, if_pos (by omega), ofNat_eq_byte hcode.symm]
  split at hl
  · cases hl
  split at hl
  · cases hl
    obtain ⟨t, rfl⟩ := List.length_eq_one_iff.mp hlen
    simp only [List.foldl_cons, List.foldl_nil] at hcode hleast
    rw [utf8EncodeChar_eq, if_neg (by omega), if_pos (by omega), ofNat_eq_byte (b := b) (by omega),
      tailByte_eq (htail t (by simp)) (by omega)]
  split at hl
  · cases hl
    obtain ⟨t, u, rfl⟩ := List.length_eq_two.mp hlen
    simp only [List.foldl_cons, List.foldl_nil] at hcode hleast
    rw [utf8EncodeChar_eq, if_neg (by omega), if_neg (by omega), if_pos (by omega),
      ofNat_eq_byte (b := b) (by omega), tailByte_eq (htail t (by simp)) (by omega),
      tailByte_eq (htail u (by simp)) (by omega)]
  split at hl
  · cases hl
    obtain ⟨t, u, v, rfl⟩ := List.length_eq_three.mp hlen
    simp only [List.foldl_cons, List.foldl_nil] at hcode hleast
    rw [utf8EncodeChar_eq, if_neg (by omega), if_neg (by omega), if_neg (by omega),
      ofNat_eq_byte (b := b) (by omega), tailByte_eq (htail t (by simp)) (by omega),
      tailByte_eq (htail u (by simp)) (by omega), tailByte_eq (htail v (by simp)) (by omega)]
  · cases hl

/-- A text starts with a character exactly if it starts with the bytes of that character. -/
theorem char?_eq_some_iff {s : Text} {c : Char} {n : Nat} :
    char? s = some (c, n) ↔ utf8EncodeChar c <+: s ∧ n = (utf8EncodeChar c).length := by
  rw [char?_eq_some_iff_spells]
  constructor
  · rintro ⟨b, tails, rest, lead, rfl, hl, h, rfl⟩
    rw [utf8EncodeChar_of_spells hl h]
    exact ⟨List.prefix_append (b :: tails) rest, by rw [List.length_cons, h.length]⟩
  · rintro ⟨⟨rest, rfl⟩, rfl⟩
    obtain ⟨b, tails, lead, hc, hl, h⟩ := exists_spells c
    exact ⟨b, tails, rest, lead, by rw [hc, List.cons_append], hl, h, by rw [hc, List.length_cons, h.length]⟩

theorem char?_eq_none_iff {s : Text} : char? s = none ↔ ∀ c, ¬ utf8EncodeChar c <+: s := by
  constructor
  · intro h c hc
    have := char?_eq_some_iff.mpr ⟨hc, rfl⟩
    rw [h] at this
    cases this
  · intro h
    rw [Option.eq_none_iff_forall_ne_some]
    rintro ⟨c, n⟩ hc
    exact h c (char?_eq_some_iff.mp hc).1

/-- The first byte of a character continues none, and the others do. -/
theorem exists_bytes (c : Char) :
    ∃ b tails, utf8EncodeChar c = b :: tails ∧ isTail b = false ∧ ∀ t ∈ tails, isTail t = true := by
  obtain ⟨b, tails, lead, hc, hl, h⟩ := exists_spells c
  refine ⟨b, tails, hc, ?_, h.isTail⟩
  rw [Bool.eq_false_iff, ne_eq, isTail_iff]
  rintro ⟨hlo, hhi⟩
  rw [lead?_eq, if_neg (by omega), if_pos (by omega)] at hl
  cases hl

/-- A byte below 0x80 stands only in the character whose code it is. -/
theorem toNat_of_mem_utf8EncodeChar {b : UInt8} {c : Char} (hb : b.toNat < 0x80) (h : b ∈ utf8EncodeChar c) :
    c.toNat = b.toNat := by
  obtain ⟨b', tails, lead, hc, hl, hs⟩ := exists_spells c
  rw [hc] at h
  rcases List.mem_cons.mp h with rfl | ht
  · rw [lead?_eq, if_pos hb] at hl
    cases hl
    have hn : tails = [] := List.length_eq_zero_iff.mp hs.length
    rw [← hs.code, hn, List.foldl_nil]
  · have := isTail_iff.mp (hs.isTail b ht)
    omega

/-! The pieces of a text. -/

theorem piecesFrom_eq (n : Nat) (s : Text) : piecesFrom n s = pieces (s.drop n) := by
  induction s generalizing n with
  | nil => cases n <;> rfl
  | cons b rest ih =>
    cases n with
    | zero => rfl
    | succ n => exact ih n

/-- A character at the start of a text is a piece of it. -/
theorem pieces_char (c : Char) (rest : Text) : pieces (utf8EncodeChar c ++ rest) = .char c :: pieces rest := by
  obtain ⟨b, tails, hc, -, -⟩ := exists_bytes c
  have h : char? (b :: (tails ++ rest)) = some (c, tails.length + 1) :=
    char?_eq_some_iff.mpr ⟨⟨rest, by rw [hc, List.cons_append]⟩, by rw [hc, List.length_cons]⟩
  rw [hc, List.cons_append, pieces, piecesFrom, h]
  simp only [Nat.add_sub_cancel, piecesFrom_eq, List.drop_left]

/-- So is a byte at which no character starts. -/
theorem pieces_stray {b : UInt8} {rest : Text} (h : ∀ c, ¬ utf8EncodeChar c <+: b :: rest) :
    pieces (b :: rest) = .stray b :: pieces rest := by
  rw [pieces, piecesFrom, char?_eq_none_iff.mpr h]
  rfl

/-- No character has bytes on both sides of the place between two texts. -/
def Apart (before after : Text) : Prop :=
  ∀ p q c, p <:+ before → q <+: after → utf8EncodeChar c = p ++ q → p = [] ∨ q = []

theorem Apart.of_suffix {before before' after : Text} (h : Apart before after) (hs : before' <:+ before) :
    Apart before' after :=
  fun p q c hp hq hc => h p q c (hp.trans hs) hq hc

/-- A text is read as its two parts are, wherever it is cut between characters. -/
theorem pieces_append {before after : Text} (h : Apart before after) :
    pieces (before ++ after) = pieces before ++ pieces after := by
  -- on the length: a character takes several bytes at once
  induction hn : before.length using Nat.strongRecOn generalizing before with
  | ind n ih =>
  cases before with
  | nil => rfl
  | cons b rest =>
    subst hn
    by_cases hc : ∃ c, utf8EncodeChar c <+: b :: rest ++ after
    · obtain ⟨c, hc⟩ := hc
      have hb : utf8EncodeChar c <+: b :: rest := by
        obtain ⟨tail, he⟩ := hc
        rcases List.append_eq_append_iff.mp he with ⟨q, hl, -⟩ | ⟨q, hl, hr⟩
        · exact ⟨q, hl.symm⟩
        · -- the character would go on after the cut
          rcases h (b :: rest) q c List.suffix_rfl ⟨tail, hr.symm⟩ hl with hnil | rfl
          · cases hnil
          · rw [hl, List.append_nil]
      obtain ⟨rest', hr⟩ := hb
      obtain ⟨b', tails, hbytes, -, -⟩ := exists_bytes c
      have hlt : rest'.length < (b :: rest).length := by
        rw [← hr, hbytes]
        simp only [List.length_append, List.length_cons]
        omega
      have ih := ih _ hlt (h.of_suffix ⟨_, hr⟩) rfl
      rw [← hr, List.append_assoc, pieces_char, pieces_char, ih, List.cons_append]
    · have hs : ∀ c, ¬ utf8EncodeChar c <+: b :: (rest ++ after) := fun c hp => hc ⟨c, hp⟩
      have hs' : ∀ c, ¬ utf8EncodeChar c <+: b :: rest := fun c hp =>
        hs c (hp.trans (List.prefix_append (b :: rest) after))
      have ih := ih rest.length (by simp) (h.of_suffix (List.suffix_cons b rest)) rfl
      rw [pieces_stray hs', List.cons_append, pieces_stray hs, ih, List.cons_append]

/-! Where texts are cut. -/

/-- No character goes on past the start of another. -/
theorem apart_char (before : Text) (c : Char) (after : Text) : Apart before (utf8EncodeChar c ++ after) := by
  intro p q d hp hq hd
  obtain ⟨b, tails, hb, hlead, -⟩ := exists_bytes c
  obtain ⟨b', tails', hb', -, htails'⟩ := exists_bytes d
  cases p with
  | nil => exact .inl rfl
  | cons x p =>
    cases q with
    | nil => exact .inr rfl
    | cons y q =>
      have hy : y = b := by
        rw [hb, List.cons_append] at hq
        exact (List.cons_prefix_cons.mp hq).1
      rw [hb', List.cons_append, List.cons.injEq] at hd
      have := htails' y (by rw [hd.2]; simp)
      rw [hy, hlead] at this
      cases this

/-- A byte of a text stands in no character. -/
def Stray (before : Text) (b : UInt8) (after : Text) : Prop :=
  ∀ p q c, p <:+ before → q <+: after → utf8EncodeChar c ≠ p ++ b :: q

theorem Stray.apart_left {before after : Text} {b : UInt8} (h : Stray before b after) :
    Apart before (b :: after) := by
  intro p q c hp hq hc
  cases q with
  | nil => exact .inr rfl
  | cons x q =>
    obtain ⟨rfl, hq'⟩ := List.cons_prefix_cons.mp hq
    exact absurd hc (h p q c hp hq')

/-- A byte in no character is a piece of its own, and the text around it is read without it. -/
theorem Stray.pieces_eq {before after : Text} {b : UInt8} (h : Stray before b after) :
    pieces (before ++ b :: after) = pieces before ++ .stray b :: pieces after := by
  have hs : ∀ c, ¬ utf8EncodeChar c <+: b :: after := by
    intro c hc
    obtain ⟨b', tails, hb, -, -⟩ := exists_bytes c
    rw [hb] at hc
    obtain ⟨rfl, ht⟩ := List.cons_prefix_cons.mp hc
    exact h [] tails c List.nil_suffix ht hb
  rw [pieces_append h.apart_left, pieces_stray hs]

/-- A character is read wherever its bytes stand, whatever is around them. -/
theorem pieces_char_between (before : Text) (c : Char) (after : Text) :
    pieces (before ++ utf8EncodeChar c ++ after) = pieces before ++ .char c :: pieces after := by
  rw [List.append_assoc, pieces_append (apart_char before c after), pieces_char]

/-- Characters are read back from their bytes. -/
theorem pieces_encode (cs : List Char) : pieces (encode cs) = cs.map .char := by
  induction cs with
  | nil => rfl
  | cons c cs ih => rw [encode, List.flatMap_cons, pieces_char, ← encode, ih, List.map_cons]

theorem codePoints_encode (cs : List Char) : codePoints (encode cs) = cs.map Char.toNat := by
  rw [codePoints, pieces_encode, List.map_map]
  rfl

end Jack.Utf8
