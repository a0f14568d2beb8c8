/-! Byte strings: the form of sources, names, paths and messages. -/

namespace Jack

/-- Text is a string of bytes. Nothing requires it to be valid UTF-8. -/
abbrev Text := List UInt8

namespace Byte

@[match_pattern] abbrev tab : UInt8 := 0x09
@[match_pattern] abbrev newline : UInt8 := 0x0A
@[match_pattern] abbrev space : UInt8 := 0x20
@[match_pattern] abbrev quote : UInt8 := 0x22
@[match_pattern] abbrev star : UInt8 := 0x2A
@[match_pattern] abbrev plus : UInt8 := 0x2B
@[match_pattern] abbrev minus : UInt8 := 0x2D
@[match_pattern] abbrev dot : UInt8 := 0x2E
@[match_pattern] abbrev slash : UInt8 := 0x2F
@[match_pattern] abbrev equals : UInt8 := 0x3D
@[match_pattern] abbrev underscore : UInt8 := 0x5F

def isDigit (b : UInt8) : Bool := 0x30 ≤ b && b ≤ 0x39

def isLower (b : UInt8) : Bool := 0x61 ≤ b && b ≤ 0x7A

def isUpper (b : UInt8) : Bool := 0x41 ≤ b && b ≤ 0x5A

/-- A letter or the underscore, which may start a name. -/
def isNameStart (b : UInt8) : Bool := isLower b || isUpper b || b == underscore

/-- A letter, a digit or the underscore. -/
def isWord (b : UInt8) : Bool := isNameStart b || isDigit b

def toUpper (b : UInt8) : UInt8 := if isLower b then b - 0x20 else b

def toLower (b : UInt8) : UInt8 := if isUpper b then b + 0x20 else b

end Byte

namespace Text

/-- The UTF-8 bytes of a string. -/
def ofString (s : String) : Text := s.toList.flatMap String.utf8EncodeChar

instance : Coe String Text := ⟨ofString⟩

/-- A natural number in decimal digits. -/
def ofNat (n : Nat) : Text := (Nat.toDigits 10 n).map Char.toUInt8

/-- An integer in decimal digits, with a minus sign below zero. -/
def ofInt : Int → Text
  | .ofNat n => ofNat n
  | .negSucc n => Byte.minus :: ofNat (n + 1)

/-- The number that a string of decimal digits denotes. -/
def digitsValue (digits : Text) : Nat :=
  digits.foldl (fun n b => n * 10 + (b.toNat - 0x30)) 0

/-- Every line with a newline after it. -/
def unlines (lines : List Text) : Text := lines.flatMap (· ++ [Byte.newline])

/-- The pieces with a separator between every two of them. -/
def joinWith (separator : Text) (pieces : List Text) : Text :=
  (pieces.intersperse separator).flatten

/-- The pieces between the occurrences of a byte; there is always at least one. -/
def splitOn (b : UInt8) : Text → List Text
  | [] => [[]]
  | c :: rest =>
    if c == b then [] :: splitOn b rest
    else
      match splitOn b rest with
      | [] => [[c]]
      | piece :: pieces => (c :: piece) :: pieces

/-- A line as log messages and reports sort it: byte by byte, a proper beginning first. -/
def le (s t : Text) : Bool := decide (s ≤ t)

end Text

end Jack
