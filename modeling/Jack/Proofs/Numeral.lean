import Jack.Token.Basic
import Mathlib.Data.List.Basic
import Mathlib.Data.List.Induction
import Mathlib.Data.Nat.Digits.Defs

/-! Decimal numerals and the words that they denote. A numeral of any length is read through 64 bits, with a
check at every digit, and then cut to 16 bits. What comes out is its value, or nothing if that is no word. -/

namespace Jack

namespace Numeral

inductive Sign where
  | none
  | plus
  | minus
  deriving DecidableEq, Repr

def Sign.text : Sign → Text
  | .none => []
  | .plus => [Byte.plus]
  | .minus => [Byte.minus]

def Sign.apply : Sign → Nat → Int
  | .minus, n => -n
  | _, n => n

/-- The byte of a decimal digit. -/
def digitByte (d : Fin 10) : UInt8 := UInt8.ofNat (0x30 + d)

/-- The number that digits denote, the last of which counts ones. -/
def magnitude (digits : List (Fin 10)) : Nat := Nat.ofDigits 10 (digits.reverse.map Fin.val)

end Numeral

/-- A decimal numeral: at most one sign and at least one digit. -/
structure Numeral where
  sign : Numeral.Sign
  digits : List (Fin 10)
  nonempty : digits ≠ []

namespace Numeral

def text (n : Numeral) : Text := n.sign.text ++ n.digits.map digitByte

/-- The integer that a numeral denotes. -/
def value (n : Numeral) : Int := n.sign.apply (magnitude n.digits)

theorem toNat_digitByte (d : Fin 10) : (digitByte d).toNat = 0x30 + d := by
  have hd := d.isLt
  rw [digitByte, UInt8.toNat_ofNat']
  omega

theorem isDigit_iff (b : UInt8) : Byte.isDigit b = true ↔ 0x30 ≤ b.toNat ∧ b.toNat ≤ 0x39 := by
  simp [Byte.isDigit, UInt8.le_iff_toNat_le]

theorem exists_digitByte {b : UInt8} (h : Byte.isDigit b = true) : ∃ d : Fin 10, b = digitByte d := by
  have hb := (isDigit_iff b).mp h
  have hd : b.toNat - 0x30 < 10 := by omega
  refine ⟨⟨b.toNat - 0x30, hd⟩, UInt8.toNat_inj.mp ?_⟩
  rw [toNat_digitByte]
  change b.toNat = 0x30 + (b.toNat - 0x30)
  omega

theorem isDigit_digitByte (d : Fin 10) : Byte.isDigit (digitByte d) = true := by
  have hd := d.isLt
  rw [isDigit_iff, toNat_digitByte]
  omega

theorem digitByte_ne_sign (d : Fin 10) : digitByte d ≠ Byte.plus ∧ digitByte d ≠ Byte.minus := by
  revert d
  decide

@[simp] theorem magnitude_append (ds : List (Fin 10)) (d : Fin 10) :
    magnitude (ds ++ [d]) = magnitude ds * 10 + d := by
  simp only [magnitude, List.reverse_append, List.reverse_singleton, List.singleton_append,
    List.map_cons, Nat.ofDigits_cons]
  omega

end Numeral

namespace Text

open Numeral

theorem toNat_digitByte_sub (d : Fin 10) : (digitByte d - 0x30).toNat = d := by
  have hb := toNat_digitByte d
  have hle : 0x30 ≤ digitByte d := by
    rw [UInt8.le_iff_toNat_le, hb]
    exact Nat.le_add_right 0x30 d
  rw [UInt8.toNat_sub_of_le _ _ hle, hb]
  exact Nat.add_sub_cancel_left 0x30 d

/-- A digit is added without loss if the sum fits 64 bits, and not at all if it does not. -/
theorem addDecimal_digitByte (n : UInt64) (d : Fin 10) :
    addDecimal n (digitByte d) =
      if n.toNat * 10 + d < 2 ^ 64 then some (UInt64.ofNat (n.toNat * 10 + d)) else none := by
  have hd := d.isLt
  have htenth : maxTenth.toNat = 1844674407370955161 := rfl
  have hsub : (digitByte d - 0x30).toUInt64.toNat = d := by
    rw [UInt8.toNat_toUInt64, toNat_digitByte_sub]
  unfold addDecimal
  simp only [isDigit_digitByte, Bool.not_true, Bool.false_or, decide_eq_true_eq,
    UInt64.lt_iff_toNat_lt, htenth]
  by_cases ht : 1844674407370955161 < n.toNat
  · rw [if_pos ht, if_neg (by omega)]
  · have hshift : (n * 10).toNat = n.toNat * 10 := by
      rw [UInt64.toNat_mul]
      change n.toNat * 10 % 2 ^ 64 = _
      omega
    have hsum : n * 10 + (digitByte d - 0x30).toUInt64 = UInt64.ofNat (n.toNat * 10 + d) := by
      apply UInt64.toNat_inj.mp
      rw [UInt64.toNat_add, hshift, hsub, UInt64.toNat_ofNat']
    rw [if_neg ht, hsum, hshift, UInt64.toNat_ofNat']
    -- The sum is smaller than what was added to exactly if it does not fit.
    by_cases hf : n.toNat * 10 + d < 2 ^ 64
    · rw [if_pos hf, if_neg (by omega)]
    · rw [if_neg hf, if_pos (by omega)]

/-- A byte is added to a magnitude as a digit, and the sum is exact. -/
theorem addDecimal_eq_some_iff {n m : UInt64} {b : UInt8} :
    addDecimal n b = some m ↔ ∃ d : Fin 10, b = digitByte d ∧ m.toNat = n.toNat * 10 + d := by
  have hm := m.toNat_lt
  constructor
  · intro h
    have hb : Byte.isDigit b = true := by
      by_contra hb
      simp [addDecimal, hb] at h
    obtain ⟨d, rfl⟩ := exists_digitByte hb
    rw [addDecimal_digitByte] at h
    split at h
    · next hf =>
      cases h
      exact ⟨d, rfl, by rw [UInt64.toNat_ofNat', Nat.mod_eq_of_lt hf]⟩
    · cases h
  · rintro ⟨d, rfl, hd⟩
    rw [addDecimal_digitByte, ← hd, if_pos hm, UInt64.ofNat_toNat]

/-- Digits are read to their magnitude, and nothing else is read. -/
theorem foldlM_addDecimal_eq_some_iff {bytes : Text} {m : UInt64} :
    bytes.foldlM addDecimal 0 = some m ↔
      ∃ digits : List (Fin 10), bytes = digits.map digitByte ∧ m.toNat = magnitude digits := by
  -- The last digit is the last one added.
  induction bytes using List.reverseRecOn generalizing m with
  | nil =>
    constructor
    · intro h
      cases h
      exact ⟨[], rfl, rfl⟩
    · rintro ⟨digits, hb, hm⟩
      rw [List.map_eq_nil_iff.mp hb.symm] at hm
      rw [UInt64.toNat_inj.mp (hm.trans rfl : m.toNat = (0 : UInt64).toNat)]
      rfl
  | append_singleton bytes b ih =>
    have hstep : (bytes ++ [b]).foldlM addDecimal 0 = some m ↔
        ∃ n, bytes.foldlM addDecimal 0 = some n ∧ addDecimal n b = some m := by
      simp [List.foldlM_append, Option.bind_eq_some_iff]
    rw [hstep]
    constructor
    · rintro ⟨n, hn, hb⟩
      obtain ⟨digits, rfl, hd⟩ := ih.mp hn
      obtain ⟨d, rfl, hm⟩ := addDecimal_eq_some_iff.mp hb
      exact ⟨digits ++ [d], by simp, by rw [hm, hd, magnitude_append]⟩
    · rintro ⟨digits, hb, hm⟩
      have hne : digits ≠ [] := by
        rintro rfl
        simp at hb
      obtain ⟨front, d, rfl⟩ := (List.eq_nil_or_concat' digits).resolve_left hne
      rw [List.map_append, List.map_singleton] at hb
      obtain ⟨hf, hd⟩ := List.append_inj' hb rfl
      rw [magnitude_append] at hm
      have hlt := m.toNat_lt
      have hn : (UInt64.ofNat (magnitude front)).toNat = magnitude front := by
        rw [UInt64.toNat_ofNat', Nat.mod_eq_of_lt (by omega)]
      exact ⟨_, ih.mpr ⟨front, hf, hn⟩,
        addDecimal_eq_some_iff.mpr ⟨d, List.singleton_inj.mp hd, by rw [hn, hm]⟩⟩

theorem toInt64_eq_ofNat (n : UInt64) : n.toInt64 = Int64.ofNat n.toNat := by
  rw [← UInt64.toInt64_ofNat', UInt64.ofNat_toNat]

/-- A sign and a magnitude give the integer that they stand for, or none if it does not fit. -/
theorem signed?_eq_some_iff {negative : Bool} {n : UInt64} {z : Int64} :
    signed? negative n = some z ↔ z.toInt = if negative then -(n.toNat : Int) else n.toNat := by
  have hlo := z.le_toInt
  have hhi := z.toInt_lt
  have hhalf : (0x8000000000000000 : UInt64).toNat = 2 ^ 63 := rfl
  unfold signed?
  simp only [toInt64_eq_ofNat, UInt64.le_iff_toNat_le, UInt64.lt_iff_toNat_lt, hhalf]
  cases negative with
  | true =>
    simp only [if_true]
    by_cases hn : n.toNat ≤ 2 ^ 63
    · rw [if_pos hn, Option.some_inj, ← Int64.toInt_inj, Int64.toInt_neg_ofNat_of_le hn, eq_comm]
    · rw [if_neg hn]
      simp only [reduceCtorEq, false_iff]
      omega
  | false =>
    simp only [Bool.false_eq_true, if_false]
    by_cases hn : n.toNat < 2 ^ 63
    · rw [if_pos hn, Option.some_inj, ← Int64.toInt_inj, Int64.toInt_ofNat_of_lt hn, eq_comm]
    · rw [if_neg hn]
      simp only [reduceCtorEq, false_iff]
      omega

theorem signedDigits?_eq_some_iff {negative : Bool} {bytes : Text} {z : Int64} :
    signedDigits? negative bytes = some z ↔ ∃ digits : List (Fin 10), digits ≠ [] ∧
      bytes = digits.map digitByte ∧
      z.toInt = if negative then -(magnitude digits : Int) else magnitude digits := by
  unfold signedDigits?
  constructor
  · intro h
    split at h
    · cases h
    · next he =>
      obtain ⟨n, hn, hz⟩ := Option.bind_eq_some_iff.mp h
      obtain ⟨digits, rfl, hm⟩ := foldlM_addDecimal_eq_some_iff.mp hn
      have hne : digits ≠ [] := by
        rintro rfl
        exact he rfl
      have hv := signed?_eq_some_iff.mp hz
      rw [hm] at hv
      exact ⟨digits, hne, rfl, hv⟩
  · rintro ⟨digits, hne, rfl, hz⟩
    have he : ¬ (digits.map digitByte).isEmpty = true := by simpa using hne
    -- The magnitude of an integer of 64 bits needs no more than 64 bits.
    have hlo := z.le_toInt
    have hhi := z.toInt_lt
    have hlt : magnitude digits < 2 ^ 64 := by
      split at hz <;> omega
    have hn : (UInt64.ofNat (magnitude digits)).toNat = magnitude digits := by
      rw [UInt64.toNat_ofNat', Nat.mod_eq_of_lt hlt]
    rw [if_neg he, Option.bind_eq_some_iff]
    exact ⟨_, foldlM_addDecimal_eq_some_iff.mpr ⟨digits, rfl, hn⟩,
      signed?_eq_some_iff.mpr (by rw [hn, hz])⟩

/-- A text is read as an integer of 64 bits exactly if it is a numeral of that value. -/
theorem int64?_eq_some_iff {s : Text} {z : Int64} :
    s.int64? = some z ↔ ∃ n : Numeral, n.text = s ∧ n.value = z.toInt := by
  constructor
  · intro h
    unfold int64? at h
    split at h <;> obtain ⟨digits, hne, rfl, hz⟩ := signedDigits?_eq_some_iff.mp h
    · exact ⟨⟨.plus, digits, hne⟩, rfl, hz.symm⟩
    · exact ⟨⟨.minus, digits, hne⟩, rfl, hz.symm⟩
    · exact ⟨⟨.none, digits, hne⟩, rfl, hz.symm⟩
  · rintro ⟨⟨sign, digits, hne⟩, rfl, hz⟩
    cases sign with
    | plus => exact signedDigits?_eq_some_iff.mpr ⟨digits, hne, rfl, hz.symm⟩
    | minus => exact signedDigits?_eq_some_iff.mpr ⟨digits, hne, rfl, hz.symm⟩
    | none =>
      have hd : int64? (digits.map digitByte) = signedDigits? false (digits.map digitByte) := by
        obtain ⟨d, rest, rfl⟩ := List.exists_cons_of_ne_nil hne
        obtain ⟨hp, hm⟩ := digitByte_ne_sign d
        unfold int64?
        split
        · next he => exact absurd (List.cons.inj he).1 hp
        · next he => exact absurd (List.cons.inj he).1 hm
        · rfl
      exact hd.trans (signedDigits?_eq_some_iff.mpr ⟨digits, hne, rfl, hz.symm⟩)

/-- An integer from 0 to the largest word is cut to 16 bits without loss. -/
theorem toNatClampNeg_toInt16 {z : Int64} (hlo : 0 ≤ z.toInt) (hhi : z.toInt ≤ maxWord) :
    (z.toInt16.toNatClampNeg : Int) = z.toInt := by
  have hmax : (maxWord : Int) = 32767 := rfl
  have hcut : z.toInt16.toInt = z.toInt := by
    rw [Int64.toInt_toInt16]
    exact Int.bmod_eq_of_le (by omega) (by omega)
  rw [← Int16.toNat_toInt, hcut]
  exact Int.toNat_of_nonneg hlo

/-- A text is read as a word exactly if it is a numeral whose value is one. -/
theorem word?_eq_some_iff {s : Text} {v : Nat} :
    s.word? = some v ↔ ∃ n : Numeral, n.text = s ∧ n.value = v ∧ v ≤ maxWord := by
  have hmax : (Int64.ofNat maxWord).toInt = maxWord := Int64.toInt_ofNat_of_lt (by decide)
  have hzero : (0 : Int64).toInt = 0 := rfl
  have hword : s.word? = some v ↔
      ∃ z, s.int64? = some z ∧ 0 ≤ z.toInt ∧ z.toInt ≤ maxWord ∧ z.toInt16.toNatClampNeg = v := by
    unfold Text.word?
    cases hz : s.int64? with
    | none => simp
    | some z =>
      simp only [Int64.lt_iff_toInt_lt, hmax, hzero, Bool.or_eq_true, decide_eq_true_eq]
      split <;> simp <;> omega
  rw [hword]
  constructor
  · rintro ⟨z, hz, hlo, hhi, rfl⟩
    obtain ⟨n, ht, hn⟩ := int64?_eq_some_iff.mp hz
    have hv := toNatClampNeg_toInt16 hlo hhi
    exact ⟨n, ht, hn.trans hv.symm, by omega⟩
  · rintro ⟨n, ht, hn, hv⟩
    have hmax : maxWord = 32767 := rfl
    have hz : (Int64.ofNat v).toInt = v := Int64.toInt_ofNat_of_lt (by omega)
    have hlo : 0 ≤ (Int64.ofNat v).toInt := by omega
    have hhi : (Int64.ofNat v).toInt ≤ maxWord := by omega
    have hcut := toNatClampNeg_toInt16 hlo hhi
    exact ⟨Int64.ofNat v, int64?_eq_some_iff.mpr ⟨n, ht, hn.trans hz.symm⟩, hlo, hhi, by omega⟩

-- one more than the words of 16 bits, and one more than those of 64
example : word? "65537" = none ∧ word? "18446744073709551617" = none := by decide +kernel

end Text

end Jack
