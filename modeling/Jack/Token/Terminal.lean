import Jack.Text.Basic

/-! The terminals of the language: what kinds of token there are and how they are named. -/

namespace Jack

inductive Keyword where
  | «class»
  | constructor
  | function
  | method
  | field
  | static
  | var
  | int
  | char
  | boolean
  | void
  | true
  | false
  | null
  | this
  | «let»
  | «do»
  | «if»
  | «else»
  | «while»
  | «return»
  deriving DecidableEq, Repr

/-- The keyword as a source spells it. -/
def Keyword.spelling : Keyword → Text
  | .class => "class"
  | .constructor => "constructor"
  | .function => "function"
  | .method => "method"
  | .field => "field"
  | .static => "static"
  | .var => "var"
  | .int => "int"
  | .char => "char"
  | .boolean => "boolean"
  | .void => "void"
  | .true => "true"
  | .false => "false"
  | .null => "null"
  | .this => "this"
  | .let => "let"
  | .do => "do"
  | .if => "if"
  | .else => "else"
  | .while => "while"
  | .return => "return"

def Keyword.all : List Keyword :=
  [.class, .constructor, .function, .method, .field, .static, .var, .int, .char, .boolean, .void,
   .true, .false, .null, .this, .let, .do, .if, .else, .while, .return]

def Keyword.ofSpelling? (word : Text) : Option Keyword :=
  Keyword.all.find? (·.spelling == word)

/-- The symbols of the language, each a single byte. -/
inductive Punct where
  | lbrace
  | rbrace
  | lparen
  | rparen
  | lbracket
  | rbracket
  | dot
  | comma
  | semicolon
  | plus
  | minus
  | asterisk
  | slash
  | and
  | or
  | lt
  | gt
  | eq
  | not
  deriving DecidableEq, Repr

/-- The symbol as a source spells it. -/
def Punct.byte : Punct → UInt8
  | .lbrace => 0x7B
  | .rbrace => 0x7D
  | .lparen => 0x28
  | .rparen => 0x29
  | .lbracket => 0x5B
  | .rbracket => 0x5D
  | .dot => 0x2E
  | .comma => 0x2C
  | .semicolon => 0x3B
  | .plus => 0x2B
  | .minus => 0x2D
  | .asterisk => 0x2A
  | .slash => 0x2F
  | .and => 0x26
  | .or => 0x7C
  | .lt => 0x3C
  | .gt => 0x3E
  | .eq => 0x3D
  | .not => 0x7E

def Punct.name : Punct → Text
  | .lbrace => "LBRACE"
  | .rbrace => "RBRACE"
  | .lparen => "LPAREN"
  | .rparen => "RPAREN"
  | .lbracket => "LBRACKET"
  | .rbracket => "RBRACKET"
  | .dot => "DOT"
  | .comma => "COMMA"
  | .semicolon => "SEMICOLON"
  | .plus => "PLUS"
  | .minus => "MINUS"
  | .asterisk => "ASTERISK"
  | .slash => "SLASH"
  | .and => "AND"
  | .or => "OR"
  | .lt => "LT"
  | .gt => "GT"
  | .eq => "EQ"
  | .not => "NOT"

def Punct.all : List Punct :=
  [.lbrace, .rbrace, .lparen, .rparen, .lbracket, .rbracket, .dot, .comma, .semicolon, .plus, .minus,
   .asterisk, .slash, .and, .or, .lt, .gt, .eq, .not]

def Punct.ofByte? (b : UInt8) : Option Punct :=
  Punct.all.find? (·.byte == b)

/-- The kind of a token. A token that was not read from a source may have a kind outside the
language, known by its code alone. -/
inductive Terminal where
  | eof
  | illegal
  | number
  | string
  | ident
  | keyword (k : Keyword)
  | punct (p : Punct)
  | other (code : Int)
  deriving DecidableEq, Repr

namespace Terminal

/-- The terminals of the language in the order of their codes. -/
def all : List Terminal :=
  [.eof, .illegal, .number, .string, .ident] ++ Keyword.all.map .keyword ++ Punct.all.map .punct

def ofCode (code : Int) : Terminal :=
  if 0 ≤ code then all.getD code.toNat (.other code) else .other code

def code : Terminal → Int
  | .other n => n
  | t => all.idxOf t

/-- The name by which messages refer to a terminal. -/
def name : Terminal → Text
  | .eof => "EOF"
  | .illegal => "ILLEGAL"
  | .number => "NUMBER"
  | .string => "STRING"
  | .ident => "IDENT"
  | .keyword k => k.spelling.map Byte.toUpper
  | .punct p => p.name
  | .other n => "Type(" ++ Text.ofInt n ++ ")"

def isKeyword : Terminal → Bool
  | .keyword _ => true
  | _ => false

def isPunct : Terminal → Bool
  | .punct _ => true
  | _ => false

end Terminal

/-- The class of a token in XML records. -/
inductive Category where
  | keyword
  | symbol
  | integerConstant
  | stringConstant
  | identifier
  | unknown
  deriving DecidableEq, Repr

def Category.tag : Category → Text
  | .keyword => "keyword"
  | .symbol => "symbol"
  | .integerConstant => "integerConstant"
  | .stringConstant => "stringConstant"
  | .identifier => "identifier"
  | .unknown => "unknown"

def Terminal.category : Terminal → Category
  | .keyword _ => .keyword
  | .punct _ => .symbol
  | .number => .integerConstant
  | .string => .stringConstant
  | .ident => .identifier
  | .eof | .illegal | .other _ => .unknown

end Jack
