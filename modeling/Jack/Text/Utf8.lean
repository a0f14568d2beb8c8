import Jack.Text.Basic

/-! UTF-8 reading of arbitrary bytes: characters where a sequence is valid, stray bytes elsewhere. -/

namespace Jack.Utf8

def isTail (b : UInt8) : Bool := 0x80 ≤ b && b ≤ 0xBF

structure Lead where
  /-- How many continuing bytes follow. -/
  tails : Nat
  /-- The bits of the code point that the first byte holds. -/
  payload : Nat
  /-- The least code point that needs this many bytes. -/
  least : Nat

def lead? (b : UInt8) : Option Lead :=
  if b < 0x80 then some ⟨0, b.toNat, 0⟩
  else if b < 0xC0 then none
  else if b < 0xE0 then some ⟨1, b.toNat - 0xC0, 0x80⟩
  else if b < 0xF0 then some ⟨2, b.toNat - 0xE0, 0x800⟩
  else if b < 0xF8 then some ⟨3, b.toNat - 0xF0, 0x10000⟩
  else none

/-- The character that a text starts with and the number of its bytes. There is none where the
sequence is cut short, longer than it need be, a surrogate or above U+10FFFF. -/
def char? : Text → Option (Char × Nat)
  | [] => none
  | b :: rest => do
    let lead ← lead? b
    let tails := rest.take lead.tails
    let code := tails.foldl (fun n t => n * 64 + t.toNat % 64) lead.payload
    if tails.length = lead.tails ∧ tails.all isTail ∧ lead.least ≤ code ∧ code.isValidChar then
      some (Char.ofNat code, lead.tails + 1)
    else none

def width (s : Text) : Nat :=
  match char? s with
  | some (_, n) => n
  | none => 1

inductive Piece where
  | char (c : Char)
  | stray (b : UInt8)
  deriving DecidableEq, Repr

/-- The pieces after the first `skip` bytes. -/
def piecesFrom : Nat → Text → List Piece
  | _, [] => []
  | skip + 1, _ :: rest => piecesFrom skip rest
  | 0, b :: rest =>
    match char? (b :: rest) with
    | some (c, n) => .char c :: piecesFrom (n - 1) rest
    | none => .stray b :: piecesFrom 0 rest

def pieces (s : Text) : List Piece := piecesFrom 0 s

/-- The code point that stands for a piece; a stray byte counts as U+FFFD. -/
def Piece.code : Piece → Nat
  | .char c => c.toNat
  | .stray _ => 0xFFFD

def codePoints (s : Text) : List Nat := (pieces s).map Piece.code

/-- The characters of a text without stray bytes. -/
def chars? (s : Text) : Option (List Char) :=
  (pieces s).mapM fun
    | .char c => some c
    | .stray _ => none

def encode (cs : List Char) : Text := cs.flatMap String.utf8EncodeChar

end Jack.Utf8
