import Jack.Text.Printable
import Jack.Text.Utf8

/-! Quoted text: how messages show names and paths of arbitrary bytes. -/

namespace Jack.Text

def hexDigit (n : Nat) : UInt8 := if n < 10 then (0x30 + n).toUInt8 else (0x57 + n).toUInt8

/-- The last `width` hexadecimal digits of a number. -/
def hex : Nat → Nat → Text
  | 0, _ => []
  | width + 1, n => hex width (n / 16) ++ [hexDigit (n % 16)]

def letterEscape? : Nat → Option Text
  | 0x07 => some "\\a"
  | 0x08 => some "\\b"
  | 0x09 => some "\\t"
  | 0x0A => some "\\n"
  | 0x0B => some "\\v"
  | 0x0C => some "\\f"
  | 0x0D => some "\\r"
  | 0x22 => some "\\\""
  | 0x5C => some "\\\\"
  | _ => none

/-- A piece of text between quotes. Printable characters stand for themselves; a stray byte or a
control character is written by its byte, any other character by its code point. -/
def quotePiece : Utf8.Piece → Text
  | .stray b => "\\x" ++ hex 2 b.toNat
  | .char c =>
    match letterEscape? c.toNat with
    | some escape => escape
    | none =>
      if isPrintable c.toNat then Utf8.encode [c]
      else if c.toNat < 0x80 then "\\x" ++ hex 2 c.toNat
      else if c.toNat < 0x10000 then "\\u" ++ hex 4 c.toNat
      else "\\U" ++ hex 8 c.toNat

def quoted (s : Text) : Text :=
  [Byte.quote] ++ (Utf8.pieces s).flatMap quotePiece ++ [Byte.quote]

end Jack.Text
