import Jack.Text.Utf8

/-! The four kinds of TOML string. The double quote is `\x22`, the single quote `\x27`, the backslash `\x5c`. -/

namespace Jack.Toml

def isBlank (c : Char) : Bool := c == ' ' || c == '\t'

def isNewline (c : Char) : Bool := c == '\n' || c == '\r'

def hexValue? (c : Char) : Option Nat :=
  if '0' ≤ c && c ≤ '9' then some (c.toNat - 0x30)
  else if 'a' ≤ c && c ≤ 'f' then some (c.toNat - 0x61 + 10)
  else if 'A' ≤ c && c ≤ 'F' then some (c.toNat - 0x41 + 10)
  else none

def hexChar? (digits : List Char) : Option Char := do
  let code ← digits.foldlM (fun n c => (hexValue? c).map (n * 16 + ·)) 0
  if code.isValidChar then some (Char.ofNat code) else none

def letter? : Char → Option Char
  | 'b' => some '\x08'
  | 't' => some '\t'
  | 'n' => some '\n'
  | 'f' => some '\x0c'
  | 'r' => some '\r'
  | 'e' => some '\x1b'
  | '\x22' => some '\x22'
  | '\x5c' => some '\x5c'
  | _ => none

/-- The characters that the inside of a basic string stands for. A backslash before white space that
holds a newline takes that white space away; before other white space it is refused. While `trimming`,
white space is passed over. -/
def unescape (trimming : Bool) : List Char → Option (List Char)
  | [] => some []
  | c :: rest =>
    if trimming && (isBlank c || isNewline c) then unescape true rest
    else if c != '\x5c' then (c :: ·) <$> unescape false rest
    else
      match rest with
      | [] => none
      | e :: rest =>
        if isBlank e || isNewline e then
          if (e :: rest.takeWhile fun c => isBlank c || isNewline c).contains '\n' then
            unescape true rest
          else none
        else if e == 'x' then
          match rest with
          | a :: b :: rest => do
            let c ← hexChar? [a, b]
            (c :: ·) <$> unescape false rest
          | _ => none
        else if e == 'u' then
          match rest with
          | a :: b :: c :: d :: rest => do
            let c ← hexChar? [a, b, c, d]
            (c :: ·) <$> unescape false rest
          | _ => none
        else if e == 'U' then
          match rest with
          | a :: b :: c :: d :: e :: f :: g :: h :: rest => do
            let c ← hexChar? [a, b, c, d, e, f, g, h]
            (c :: ·) <$> unescape false rest
          | _ => none
        else do
          let c ← letter? e
          (c :: ·) <$> unescape false rest

/-- The inside of a basic string on one line, its opening quote taken, and what follows it. -/
def basicInside : List Char → Option (List Char × List Char)
  | [] => none
  | '\x22' :: rest => some ([], rest)
  | '\x5c' :: e :: rest =>
    if isNewline e then none
    else do
      let (inside, rest) ← basicInside rest
      some ('\x5c' :: e :: inside, rest)
  | c :: rest =>
    if isNewline c then none
    else do
      let (inside, rest) ← basicInside rest
      some (c :: inside, rest)

def literalInside : List Char → Option (List Char × List Char)
  | [] => none
  | '\x27' :: rest => some ([], rest)
  | c :: rest =>
    if isNewline c then none
    else do
      let (inside, rest) ← literalInside rest
      some (c :: inside, rest)

/-- The inside of a basic string of several lines, and what follows it. At most two quotes may stand
before the three that close it. The inside read so far is given last character first. -/
def basicLines : List Char → List Char → Option (List Char × List Char)
  | _, [] => none
  | inside, '\x5c' :: e :: rest => basicLines (e :: '\x5c' :: inside) rest
  | inside, '\x22' :: '\x22' :: '\x22' :: rest =>
    if rest.head? == some '\x22' then
      match inside with
      | '\x22' :: '\x22' :: '\x5c' :: _ =>
        basicLines ('\x22' :: inside) ('\x22' :: '\x22' :: rest)
      | '\x22' :: '\x22' :: _ => none
      | _ => basicLines ('\x22' :: inside) ('\x22' :: '\x22' :: rest)
    else some (inside.reverse, rest)
  | inside, c :: rest => basicLines (c :: inside) rest

def literalLines : List Char → List Char → Option (List Char × List Char)
  | _, [] => none
  | inside, '\x27' :: '\x27' :: '\x27' :: rest =>
    if rest.head? == some '\x27' then
      match inside with
      | '\x27' :: '\x27' :: _ => none
      | _ => literalLines ('\x27' :: inside) ('\x27' :: '\x27' :: rest)
    else some (inside.reverse, rest)
  | inside, c :: rest => literalLines (c :: inside) rest

/-- A newline right behind the opening quotes does not count. -/
def dropFirstNewline : List Char → List Char
  | '\n' :: rest => rest
  | '\r' :: '\n' :: rest => rest
  | cs => cs

def lineString? : List Char → Option (Text × List Char)
  | '\x22' :: rest => do
    let (inside, rest) ← basicInside rest
    some (Utf8.encode (← unescape false inside), rest)
  | '\x27' :: rest => do
    let (inside, rest) ← literalInside rest
    some (Utf8.encode inside, rest)
  | _ => none

def string? : List Char → Option (Text × List Char)
  | '\x22' :: '\x22' :: '\x22' :: rest => do
    let (inside, rest) ← basicLines [] rest
    some (Utf8.encode (← unescape false (dropFirstNewline inside)), rest)
  | '\x27' :: '\x27' :: '\x27' :: rest => do
    let (inside, rest) ← literalLines [] rest
    some (Utf8.encode (dropFirstNewline inside), rest)
  | cs => lineString? cs

end Jack.Toml
