import Jack.Token.Source

/-! The lexer: tokens read one at a time off the front of the bytes that are left. -/

namespace Jack

structure Lexer where
  /-- The bytes not read yet. -/
  rest : Text
  /-- The line on which they start. -/
  line : Nat
  deriving Repr

namespace Lexer

def ofText (s : Text) : Lexer := ⟨s, 1⟩

/-- White space other than the newline. -/
def isBlank (b : UInt8) : Bool :=
  b == Byte.space || b == Byte.tab || b == 0x0B || b == 0x0C || b == 0x0D

inductive Gap where
  | blank
  | lineComment
  /-- Inside a block comment that was opened on the given line, perhaps just behind a star. -/
  | blockComment (start : Nat) (starred : Bool)

inductive GapEnd where
  | token (l : Lexer)
  /-- The input ends, on line `line`, inside a block comment that was opened on line `start`. -/
  | unclosed (start line : Nat)

def skipGap : Gap → Nat → Text → GapEnd
  | .blank, line, [] => .token ⟨[], line⟩
  | .blank, line, c :: rest =>
    if c == Byte.newline then skipGap .blank (line + 1) rest
    else if isBlank c then skipGap .blank line rest
    else if c == Byte.slash then
      match rest with
      | Byte.slash :: body => skipGap .lineComment line body
      | Byte.star :: body => skipGap (.blockComment line false) line body
      | _ => .token ⟨c :: rest, line⟩
    else .token ⟨c :: rest, line⟩
  | .lineComment, line, [] => .token ⟨[], line⟩
  | .lineComment, line, c :: rest =>
    if c == Byte.newline then skipGap .blank (line + 1) rest else skipGap .lineComment line rest
  | .blockComment start _, line, [] => .unclosed start line
  | .blockComment start starred, line, c :: rest =>
    if c == Byte.newline then skipGap (.blockComment start false) (line + 1) rest
    else if starred && c == Byte.slash then skipGap .blank line rest
    else skipGap (.blockComment start (c == Byte.star)) line rest

def isStringByte (b : UInt8) : Bool := b != Byte.quote && b != Byte.newline

def emit (l : Lexer) (terminal : Terminal) (lexeme rest : Text) : Token × Lexer :=
  (⟨terminal, lexeme, l.line⟩, { l with rest })

def wordTerminal (word : Text) : Terminal :=
  match Keyword.ofSpelling? word with
  | some k => .keyword k
  | none => .ident

def readToken (l : Lexer) : Token × Lexer :=
  match l.rest with
  | [] => l.emit .eof [] []
  | c :: rest =>
    if c == Byte.quote then
      let body := rest.takeWhile isStringByte
      match rest.dropWhile isStringByte with
      | Byte.quote :: after => l.emit .string body after
      | after => l.emit .illegal (c :: body) after
    else if Byte.isDigit c then
      l.emit .number (l.rest.takeWhile Byte.isDigit) (l.rest.dropWhile Byte.isDigit)
    else if Byte.isNameStart c then
      let word := l.rest.takeWhile Byte.isWord
      l.emit (wordTerminal word) word (l.rest.dropWhile Byte.isWord)
    else
      match Punct.ofByte? c with
      | some p => l.emit (.punct p) [c] rest
      | none =>
        let width := Utf8.width l.rest
        l.emit .illegal (l.rest.take width) (l.rest.drop width)

/-- The next token. A block comment that is not closed is an illegal token that takes all the rest. -/
def next (l : Lexer) : Token × Lexer :=
  match skipGap .blank l.line l.rest with
  | .token l => l.readToken
  | .unclosed start line => (⟨.illegal, "/*", start⟩, ⟨[], line⟩)

def take : Nat → Lexer → List Token
  | 0, _ => []
  | n + 1, l => l.next.1 :: take n l.next.2

/-- At most `n` tokens before the end of input, of which an illegal one is the last. -/
def drain : Nat → Lexer → List Token × Lexer
  | 0, l => ([], l)
  | n + 1, l =>
    let (t, l) := l.next
    match t.terminal with
    | .eof => ([], l)
    | .illegal => ([t], l)
    | _ =>
      let (ts, l) := drain n l
      (t :: ts, l)

/-- The tokens before the end of input or up to the first illegal one, and the lexer after them.
Every token takes a byte, so one reading more than there are bytes is enough. -/
def tokens (l : Lexer) : List Token × Lexer := drain (l.rest.length + 1) l

/-- At most `n` tokens before the end of input, illegal ones among them. -/
def exhaust : Nat → Lexer → List Token × Lexer
  | 0, l => ([], l)
  | n + 1, l =>
    let (t, l) := l.next
    match t.terminal with
    | .eof => ([], l)
    | _ =>
      let (ts, l) := exhaust n l
      (t :: ts, l)

/-- The tokens of the lexer as a source, illegal ones among them. -/
def toSource (l : Lexer) : Source :=
  let (ts, l) := exhaust (l.rest.length + 1) l
  { tokens := ts, endLine := l.line }

end Lexer

structure Unreadable where
  reason : Text

def Unreadable.message (e : Unreadable) : Text := "could not read source: " ++ e.reason

def Lexer.ofRead : Except Text Text → Except Unreadable Lexer
  | .ok data => .ok (.ofText data)
  | .error reason => .error ⟨reason⟩

end Jack
