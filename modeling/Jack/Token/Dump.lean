import Jack.Token.Lexer

/-! Token dumps: the XML record of a token list. -/

namespace Jack

structure TokenDump where
  /-- The text written. -/
  written : Text
  /-- The illegal token at which the dump was broken off. -/
  illegal? : Option Token
  deriving Repr

namespace TokenDump

/-- The token records, one a line, up to the first illegal token. -/
def records : List Token → TokenDump
  | [] => ⟨"</tokens>\n", none⟩
  | t :: rest =>
    if t.terminal = .illegal then ⟨[], some t⟩
    else
      let dump := records rest
      { dump with written := t.xml ++ [Byte.newline] ++ dump.written }

def ofTokens (tokens : List Token) : TokenDump :=
  let dump := records tokens
  { dump with written := "<tokens>\n" ++ dump.written }

def fault (t : Token) : Text :=
  "[line " ++ Text.ofInt t.line ++ "] Error at '" ++ t.lexeme ++ "': unexpected character"

/-- What is said of a dump whose text was written with the given outcome: an illegal token is reported
before a fault of the writer. -/
def report (dump : TokenDump) (written : Except Text Unit) : Except Text Unit :=
  match dump.illegal? with
  | some t => .error (fault t)
  | none => written

end TokenDump

end Jack
