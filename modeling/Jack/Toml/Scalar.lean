import Jack.Text.Integer
import Jack.Toml.Quoted

/-! TOML scalars other than strings. -/

namespace Jack.Toml

inductive Scalar where
  | integer (n : Int)
  /-- A floating-point number, by its spelling. -/
  | float (spelling : List Char)
  | boolean (b : Bool)
  /-- A date, a time or both, by its spelling. -/
  | moment (spelling : List Char)

def isDigit (c : Char) : Bool := '0' ≤ c && c ≤ '9'

def isHexDigit (c : Char) : Bool := (hexValue? c).isSome

def asciiText (cs : List Char) : Text := cs.map Char.toUInt8

def natOf (digits : List Char) : Nat := Text.digitsValue (asciiText digits)

/-- Whether every underscore follows a digit, and the last character is one. -/
def underscoresFit (after : Bool) : List Char → Bool
  | [] => after
  | c :: rest => (c != '_' || after) && underscoresFit (isHexDigit c) rest

/-- A zero in front of other digits, which no number may have. A base prefix is none. -/
def hasLeadingZero : List Char → Bool
  | '0' :: c :: _ => c != 'b' && c != 'o' && c != 'x'
  | '+' :: '0' :: _ :: _ => true
  | '-' :: '0' :: _ :: _ => true
  | _ => false

def integer? (spelling : List Char) : Option Scalar :=
  if !underscoresFit false spelling || hasLeadingZero spelling then none
  else
    match Text.integer? (asciiText spelling) with
    | .ok n => some (.integer n)
    | .error _ => none

/-- The least magnitude that rounds to no finite number of double precision. -/
def floatLimit : Nat := (1 <<< 1024) - (1 <<< 970)

/-- Whether a decimal number is below the limit of double precision, given its digits and how many of them
stand before the point. The limit is a whole number of 309 digits, so that a fraction does not count. -/
def inFloatRange (digits : List Char) (point : Int) : Bool :=
  let significant := digits.dropWhile (· == '0')
  let size := point - (digits.length - significant.length : Nat)
  if significant.isEmpty || size < 309 then true
  else if 309 < size then false
  else natOf ((significant ++ List.replicate 309 '0').take 309) < floatLimit

def dropSign : List Char → List Char
  | '+' :: rest => rest
  | '-' :: rest => rest
  | cs => cs

/-- The size of an exponent. Digits behind those that make it ten thousand or more do not count. -/
def exponentOf (digits : List Char) : Nat :=
  digits.foldl (fun n c => if n < 10000 then n * 10 + natOf [c] else n) 0

def exponent? : List Char → Option Int
  | [] => some 0
  | c :: rest =>
    let digits := dropSign rest
    if (c != 'e' && c != 'E') || digits.isEmpty || !digits.all isDigit then none
    else if rest.head? == some '-' then some (-(exponentOf digits))
    else some (exponentOf digits)

/-- Whether a spelling without underscores is a decimal number in the range of double precision. -/
def isDecimal (spelling : List Char) : Bool :=
  let unsigned := dropSign spelling
  let whole := unsigned.takeWhile isDigit
  let (fraction, rest) :=
    match unsigned.dropWhile isDigit with
    | '.' :: rest => (some (rest.takeWhile isDigit), rest.dropWhile isDigit)
    | rest => (none, rest)
  match exponent? rest with
  | none => false
  | some e =>
    !whole.isEmpty && fraction != some [] &&
      inFloatRange (whole ++ fraction.getD []) (whole.length + e)

def floatPieces (spelling : List Char) : List (List Char) :=
  (spelling.splitOnP fun c => c == '.' || c == 'e' || c == 'E').filter (!·.isEmpty)

def float? (spelling : List Char) : Option Scalar :=
  let pieces := floatPieces spelling
  if !pieces.all (underscoresFit false) || (pieces.head?.map hasLeadingZero).getD false then none
  else if isDecimal (spelling.filter (· != '_')) then some (.float spelling)
  else none

def twoDigits? : List Char → Option (Nat × List Char)
  | a :: b :: rest => if isDigit a && isDigit b then some (natOf [a, b], rest) else none
  | _ => none

def daysIn (year month : Nat) : Nat :=
  if month == 2 then
    if (year % 4 == 0 && year % 100 != 0) || year % 400 == 0 then 29 else 28
  else if month == 4 || month == 6 || month == 9 || month == 11 then 30
  else 31

def afterDate? : List Char → Option (List Char)
  | a :: b :: c :: d :: '-' :: rest => do
    if !([a, b, c, d].all isDigit) then none
    let (month, rest) ← twoDigits? rest
    match rest with
    | '-' :: rest =>
      let (day, rest) ← twoDigits? rest
      if 1 ≤ month && month ≤ 12 && 1 ≤ day && day ≤ daysIn (natOf [a, b, c, d]) month then some rest
      else none
    | _ => none
  | _ => none

def afterFraction? : List Char → Option (List Char)
  | '.' :: c :: rest => if isDigit c then some (rest.dropWhile isDigit) else none
  | '.' :: [] => none
  | cs => some cs

/-- A time, hours:minutes with seconds or without, and what follows it. -/
def afterTime? (cs : List Char) : Option (List Char) := do
  let (hour, rest) ← twoDigits? cs
  match rest with
  | ':' :: rest =>
    let (minute, rest) ← twoDigits? rest
    if 24 ≤ hour || 60 ≤ minute then none
    match rest with
    | ':' :: rest =>
      let (second, rest) ← twoDigits? rest
      if 60 ≤ second then none else afterFraction? rest
    | rest => some rest
  | _ => none

/-- An offset from universal time, or none at all, to the end. -/
def isOffset : List Char → Bool
  | [] => true
  | ['Z'] => true
  | sign :: rest =>
    (sign == '+' || sign == '-') &&
      match twoDigits? rest with
      | some (hour, ':' :: rest) =>
        match twoDigits? rest with
        | some (minute, []) => hour ≤ 24 && minute ≤ 60
        | _ => false
      | _ => false

def isMoment (cs : List Char) : Bool :=
  match afterDate? cs with
  | some [] => true
  | some ('T' :: rest) => ((afterTime? rest).map isOffset).getD false
  | some _ => false
  | none => afterTime? cs == some []

/-- A date, a time or both. The letters may be small, and a space may stand for the one between. -/
def moment? (spelling : List Char) : Option Scalar :=
  let trimmed := (spelling.reverse.dropWhile (· == ' ')).reverse
  let plain := trimmed.map fun c =>
    if c == 'z' then 'Z' else if c == 't' || c == ' ' then 'T' else c
  if isMoment plain then some (.moment trimmed) else none

/-- A scalar whose spelling is as long as it can be made of certain characters. -/
def spanned (start : List Char) (rest : List Char) (more : Char → Bool)
    (read : List Char → Option Scalar) : Option (Scalar × List Char) := do
  some (← read (start ++ rest.takeWhile more), rest.dropWhile more)

def isFloatChar (c : Char) : Bool :=
  isDigit c || c == '_' || c == '.' || c == '-' || c == '+' || c == 'e' || c == 'E'

def isMomentChar (c : Char) : Bool :=
  isDigit c || ['-', ':', 'T', 't', ' ', '.', 'Z', 'z', '+'].contains c

def decimal? (start rest : List Char) : Option (Scalar × List Char) :=
  let more := fun c => isDigit c || c == '_'
  let start := start ++ rest.takeWhile more
  let rest := rest.dropWhile more
  match rest with
  | '.' :: _ | 'e' :: _ | 'E' :: _ => spanned start rest isFloatChar float?
  | _ => do some (← integer? start, rest)

def prefixed? (letter : Char) (isBaseDigit : Char → Bool) (rest : List Char) :
    Option (Scalar × List Char) :=
  match rest with
  | c :: _ =>
    if isBaseDigit c then spanned ['0', letter] rest (fun c => isBaseDigit c || c == '_') integer?
    else none
  | [] => none

def numeric? (cs : List Char) : Option (Scalar × List Char) :=
  match cs with
  | '0' :: 'b' :: rest => prefixed? 'b' (fun c => c == '0' || c == '1') rest
  | '0' :: 'o' :: rest => prefixed? 'o' (fun c => '0' ≤ c && c ≤ '7') rest
  | '0' :: 'x' :: rest => prefixed? 'x' isHexDigit rest
  | _ =>
    let digits := cs.takeWhile isDigit
    match digits, cs.dropWhile isDigit with
    | ['0'], '-' :: _ | ['0'], ':' :: _ => do some (← integer? digits, cs.dropWhile isDigit)
    | _, '-' :: rest => spanned (digits ++ ['-']) rest isMomentChar moment?
    | _, ':' :: rest => spanned (digits ++ [':']) rest isMomentChar moment?
    | _, rest => decimal? digits rest

def signed? (sign : Char) : List Char → Option (Scalar × List Char)
  | 'i' :: 'n' :: 'f' :: rest => some (.float [sign, 'i', 'n', 'f'], rest)
  | 'n' :: 'a' :: 'n' :: rest => some (.float [sign, 'n', 'a', 'n'], rest)
  | c :: rest => if isDigit c then decimal? [sign] (c :: rest) else none
  | [] => none

def scalar? : List Char → Option (Scalar × List Char)
  | 't' :: 'r' :: 'u' :: 'e' :: rest => some (.boolean true, rest)
  | 'f' :: 'a' :: 'l' :: 's' :: 'e' :: rest => some (.boolean false, rest)
  | 'i' :: 'n' :: 'f' :: rest => some (.float ['i', 'n', 'f'], rest)
  | 'n' :: 'a' :: 'n' :: rest => some (.float ['n', 'a', 'n'], rest)
  | '+' :: rest => signed? '+' rest
  | '-' :: rest => signed? '-' rest
  | cs => if (cs.head?.map isDigit).getD false then numeric? cs else none

end Jack.Toml
