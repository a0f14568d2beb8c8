import Jack.Toml.Scalar

/-! TOML statements: a text is read as a list of table headers and assignments. -/

namespace Jack.Toml

abbrev Key := List Text

mutual

inductive Literal where
  | string (s : Text)
  | scalar (s : Scalar)
  | array (items : Literals)
  | inlineTable (fields : Fields)

inductive Literals where
  | nil
  | cons (first : Literal) (rest : Literals)

inductive Fields where
  | nil
  | cons (key : Key) (value : Literal) (rest : Fields)

end

inductive Statement where
  /-- A header of a table. -/
  | table (name : Key)
  /-- A header of a further table of an array. -/
  | element (name : Key)
  | assign (key : Key) (value : Literal)

def isBareChar (c : Char) : Bool :=
  isDigit c || ('a' ≤ c && c ≤ 'z') || ('A' ≤ c && c ≤ 'Z') || c == '_' || c == '-'

/-- Skips blanks, newlines and comments; `comment` tells whether one is under way. -/
def skipSpace (comment : Bool) : List Char → List Char
  | [] => []
  | c :: rest =>
    if isNewline c then skipSpace false rest
    else if comment || c == '#' then skipSpace true rest
    else if isBlank c then skipSpace false rest
    else c :: rest

def part? (cs : List Char) : Option (Text × List Char) :=
  match cs.takeWhile isBareChar with
  | [] => lineString? cs
  | bare => some (asciiText bare, cs.dropWhile isBareChar)

/-- A name of at most `n` parts, and what follows it and the blanks behind it. -/
def key? : Nat → List Char → Option (Key × List Char)
  | 0, _ => none
  | n + 1, cs => do
    let (first, rest) ← part? (cs.dropWhile isBlank)
    match rest.dropWhile isBlank with
    | '.' :: rest =>
      let (parts, rest) ← key? n rest
      some (first :: parts, rest)
    | rest => some ([first], rest)

def keyEquals? (n : Nat) (cs : List Char) : Option (Key × List Char) := do
  let (key, rest) ← key? n cs
  match rest with
  | '=' :: rest => some (key, rest)
  | _ => none

mutual

/-- A value and what follows it. The number bounds how often the three readers call each other. -/
def literal? : Nat → List Char → Option (Literal × List Char)
  | 0, _ => none
  | n + 1, cs =>
    match cs.dropWhile isBlank with
    | '[' :: rest => do
      let (items, rest) ← items? n rest
      some (.array items, rest)
    | '\x7b' :: rest => do
      let (fields, rest) ← fields? n rest
      some (.inlineTable fields, rest)
    | '\x22' :: rest => do
      let (s, rest) ← string? ('\x22' :: rest)
      some (.string s, rest)
    | '\x27' :: rest => do
      let (s, rest) ← string? ('\x27' :: rest)
      some (.string s, rest)
    | rest => do
      let (s, rest) ← scalar? rest
      some (.scalar s, rest)

def items? : Nat → List Char → Option (Literals × List Char)
  | 0, _ => none
  | n + 1, cs =>
    match skipSpace false cs with
    | ']' :: rest => some (.nil, rest)
    | rest => do
      let (first, rest) ← literal? n rest
      match skipSpace false rest with
      | ',' :: rest =>
        let (others, rest) ← items? n rest
        some (.cons first others, rest)
      | ']' :: rest => some (.cons first .nil, rest)
      | _ => none

def fields? : Nat → List Char → Option (Fields × List Char)
  | 0, _ => none
  | n + 1, cs =>
    match skipSpace false cs with
    | '\x7d' :: rest => some (.nil, rest)
    | rest => do
      let (key, rest) ← keyEquals? n rest
      let (value, rest) ← literal? n rest
      match skipSpace false rest with
      | ',' :: rest =>
        let (others, rest) ← fields? n rest
        some (.cons key value others, rest)
      | '\x7d' :: rest => some (.cons key value .nil, rest)
      | _ => none

end

def statement? (n : Nat) (cs : List Char) : Option (Statement × List Char) :=
  match cs with
  | '[' :: '[' :: rest => do
    let (name, rest) ← key? n rest
    match rest with
    | ']' :: ']' :: rest => some (.element name, rest)
    | _ => none
  | '[' :: rest => do
    let (name, rest) ← key? n rest
    match rest with
    | ']' :: rest => some (.table name, rest)
    | _ => none
  | _ => do
    let (key, rest) ← keyEquals? n cs
    let (value, rest) ← literal? (2 * n + 2) rest
    some (.assign key value, rest)

def endsLine (cs : List Char) : Bool :=
  match cs.dropWhile isBlank with
  | [] => true
  | c :: _ => isNewline c || c == '#'

/-- The statements of a text of less than `n` characters. -/
def statements? : Nat → List Char → Option (List Statement)
  | 0, _ => none
  | n + 1, cs =>
    match skipSpace false cs with
    | [] => some []
    | rest => do
      let (first, rest) ← statement? n rest
      if endsLine rest then (first :: ·) <$> statements? n rest else none

/-- A character that no text may hold: a control character other than the tab and the newline, or a
carriage return without a newline behind it. -/
def hasControl : List Char → Bool
  | [] => false
  | '\r' :: '\n' :: rest => hasControl rest
  | c :: rest => (c.toNat < 0x20 && c != '\t' && c != '\n') || c.toNat == 0x7F || hasControl rest

/-- A text without the mark of byte order that it may start with. -/
def dropMark : Text → Text
  | 0xFF :: 0xFE :: rest => rest
  | 0xFE :: 0xFF :: rest => rest
  | 0xEF :: 0xBB :: 0xBF :: rest => rest
  | s => s

def read? (s : Text) : Option (List Statement) := do
  let cs ← Utf8.chars? (dropMark s)
  if hasControl cs then none else statements? (cs.length + 1) cs

end Jack.Toml
