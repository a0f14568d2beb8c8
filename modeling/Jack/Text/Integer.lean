import Jack.Text.Basic

/-! Integer literals: a sign, a prefix that gives the base, digits with underscores between them. Decimal
numerals: a sign and digits, read into 64 bits. -/

namespace Jack.Text

inductive IntegerFault where
  | malformed
  | outOfRange
  deriving DecidableEq, Repr

def digitValue? (b : UInt8) : Option Nat :=
  let lower := Byte.toLower b
  if Byte.isDigit b then some (b.toNat - 0x30)
  else if Byte.isLower lower then some (lower.toNat - 0x61 + 10)
  else none

/-- The base of an unsigned literal and its digits. A prefix counts only with something behind it, and a
zero in front makes the literal octal. -/
def baseAndDigits : Text → Nat × Text
  | 0x30 :: letter :: first :: rest =>
    match Byte.toLower letter with
    | 0x62 => (2, first :: rest)
    | 0x6F => (8, first :: rest)
    | 0x78 => (16, first :: rest)
    | _ => (8, letter :: first :: rest)
  | 0x30 :: rest => (8, rest)
  | s => (10, s)

def addDigit (base n : Nat) (b : UInt8) : Except IntegerFault Nat :=
  if b == Byte.underscore then .ok n
  else
    match digitValue? b with
    | none => .error .malformed
    | some d =>
      if base ≤ d then .error .malformed
      else if 1 <<< 64 ≤ n * base + d then .error .outOfRange
      else .ok (n * base + d)

/-- Whether every underscore stands behind a digit and before one, where the digit behind is told by
`after`. -/
def underscoresFit (after : Bool) : Text → Bool
  | [] => true
  | b :: rest =>
    if b == Byte.underscore then after && !rest.isEmpty && rest.head? != some Byte.underscore &&
      underscoresFit false rest
    else underscoresFit true rest

/-- The magnitude of an unsigned literal. An underscore may follow a base prefix. -/
def magnitude? (s : Text) : Except IntegerFault Nat := do
  if s.isEmpty then throw .malformed
  let (base, digits) := baseAndDigits s
  let n ← digits.foldlM (addDigit base) 0
  if underscoresFit (digits.length < s.length) digits then return n else throw .malformed

def integer? (s : Text) : Except IntegerFault Int := do
  let (negative, digits) :=
    match s with
    | Byte.plus :: rest => (false, rest)
    | Byte.minus :: rest => (true, rest)
    | _ => (false, s)
  let n ← magnitude? digits
  if negative then
    if n ≤ 1 <<< 63 then return -n else throw .outOfRange
  else if n < 1 <<< 63 then return n
  else throw .outOfRange

def maxTenth : UInt64 := 0xFFFFFFFFFFFFFFFF / 10

/-- Adds a decimal digit to a magnitude of 64 bits. A sum that does not fit is smaller than what was added
to. -/
def addDecimal (n : UInt64) (b : UInt8) : Option UInt64 :=
  if !Byte.isDigit b || maxTenth < n then none
  else
    let shifted := n * 10
    let sum := shifted + (b - 0x30).toUInt64
    if sum < shifted then none else some sum

def signed? (negative : Bool) (n : UInt64) : Option Int64 :=
  if negative then
    if n ≤ 0x8000000000000000 then some (-n.toInt64) else none
  else if n < 0x8000000000000000 then some n.toInt64
  else none

def signedDigits? (negative : Bool) (digits : Text) : Option Int64 :=
  if digits.isEmpty then none else (digits.foldlM addDecimal 0).bind (signed? negative)

/-- The integer of 64 bits that a decimal numeral denotes: at most one sign, then digits and nothing else.
There is none where it does not fit. -/
def int64? : Text → Option Int64
  | Byte.plus :: digits => signedDigits? false digits
  | Byte.minus :: digits => signedDigits? true digits
  | digits => signedDigits? false digits

end Jack.Text
