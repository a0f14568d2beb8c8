import Jack.Text.Integer
import Jack.Text.Quoted
import Jack.Token.Terminal

/-! Tokens: a terminal with its lexeme and line, shown as text and as XML, read as a word. -/

namespace Jack

structure Token where
  terminal : Terminal
  /-- The bytes of the token, without the quotes of a string constant. -/
  lexeme : Text
  line : Int
  deriving DecidableEq, Repr

def maxWord : Nat := 32767

/-- The word of 16 bits that a decimal numeral denotes, from 0 to the largest constant. Leading zeros are
free, and minus zero is zero. -/
def Text.word? (s : Text) : Option Nat :=
  match s.int64? with
  | none => none
  | some n => if Int64.ofNat maxWord < n || n < 0 then none else some n.toInt16.toNatClampNeg

/-- A byte of a lexeme inside an XML record. -/
def Text.escapeXmlByte : UInt8 → Text
  | 0x26 => "&amp;"
  | 0x3C => "&lt;"
  | 0x3E => "&gt;"
  | 0x22 => "&quot;"
  | b => [b]

def Text.escapeXml (s : Text) : Text := s.flatMap Text.escapeXmlByte

namespace Token

def word? (t : Token) : Option Nat := t.lexeme.word?

def wordFault (t : Token) : Text := "cannot parse " ++ t.lexeme.quoted ++ " as 16 bit int"

/-- A token as a reader of messages sees it. -/
def describe (t : Token) : Text :=
  t.terminal.name ++ " " ++ t.lexeme.quoted ++ " (line " ++ Text.ofInt t.line ++ ")"

def xml (t : Token) : Text :=
  let tag := t.terminal.category.tag
  "<" ++ tag ++ "> " ++ t.lexeme.escapeXml ++ " </" ++ tag ++ ">"

end Token

end Jack
