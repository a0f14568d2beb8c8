import Jack.Proofs.Text
import Jack.Token.Basic

/-! XML records read back: the category and the lexeme of a token from its record. -/

namespace Jack

namespace Text

/-- Undoes the four escapes in one pass, so that what an escape stands for is not read again. -/
def unescapeXml : Text → Text
  | 0x26 :: 0x61 :: 0x6D :: 0x70 :: 0x3B :: rest => 0x26 :: unescapeXml rest
  | 0x26 :: 0x6C :: 0x74 :: 0x3B :: rest => 0x3C :: unescapeXml rest
  | 0x26 :: 0x67 :: 0x74 :: 0x3B :: rest => 0x3E :: unescapeXml rest
  | 0x26 :: 0x71 :: 0x75 :: 0x6F :: 0x74 :: 0x3B :: rest => 0x22 :: unescapeXml rest
  | b :: rest => b :: unescapeXml rest
  | [] => []

theorem unescapeXml_escapeXmlByte (b : UInt8) (rest : Text) :
    unescapeXml (escapeXmlByte b ++ rest) = b :: unescapeXml rest := by
  unfold escapeXmlByte
  split
  case h_5 hamp _ _ _ =>
    rw [List.singleton_append, unescapeXml]
    all_goals exact fun _ h => absurd h hamp
  all_goals rfl

theorem unescapeXml_escapeXml (s : Text) : unescapeXml (escapeXml s) = s := by
  induction s with
  | nil => rfl
  | cons b s ih =>
    have he : escapeXml (b :: s) = escapeXmlByte b ++ escapeXml s := List.flatMap_cons
    rw [he, unescapeXml_escapeXmlByte, ih]

theorem newline_not_mem_escapeXml {s : Text} (h : Byte.newline ∉ s) : Byte.newline ∉ escapeXml s := by
  intro hm
  obtain ⟨c, hc, hb⟩ := List.mem_flatMap.mp hm
  unfold escapeXmlByte at hb
  split at hb
  case h_5 =>
    have he : Byte.newline = c := List.mem_singleton.mp hb
    exact h (he ▸ hc)
  all_goals exact absurd hb (by decide)

/-- What stands between an opening and a closing text that make up the whole with it. -/
def between? (opening closing s : Text) : Option Text :=
  let inner := (s.drop opening.length).take (s.length - opening.length - closing.length)
  if s = opening ++ inner ++ closing then some inner else none

theorem between?_append (opening closing inner : Text) :
    between? opening closing (opening ++ inner ++ closing) = some inner := by
  have hl : (opening ++ inner ++ closing).length - opening.length - closing.length = inner.length := by
    simp only [List.length_append]
    omega
  have hi : ((opening ++ inner ++ closing).drop opening.length).take inner.length = inner := by
    rw [List.append_assoc, List.drop_left, List.take_left]
  unfold between?
  rw [hl, hi]
  exact if_pos rfl

end Text

def Category.all : List Category :=
  [.keyword, .symbol, .integerConstant, .stringConstant, .identifier, .unknown]

def Category.ofTag? (tag : Text) : Option Category := Category.all.find? (·.tag == tag)

theorem Category.ofTag?_tag (c : Category) : Category.ofTag? c.tag = some c := by
  cases c <;> rfl

/-- The closing bracket of a tag. -/
abbrev Byte.greater : UInt8 := 0x3E

theorem Category.greater_not_mem_tag (c : Category) : Byte.greater ∉ c.tag := by
  cases c <;> decide

/-- What a record says of a token. -/
structure Record where
  category : Category
  lexeme : Text
  deriving DecidableEq, Repr

namespace Record

def ofToken (t : Token) : Record := ⟨t.terminal.category, t.lexeme⟩

/-- Reads the category off the tag and the lexeme between the tags, one space away from each. -/
def ofLine? (line : Text) : Option Record := do
  let c ← Category.ofTag? ((line.drop 1).takeWhile (· != Byte.greater))
  let inner ← Text.between? ("<" ++ c.tag ++ "> ") (" </" ++ c.tag ++ ">") line
  some ⟨c, Text.unescapeXml inner⟩

/-- The terminal of a record: keywords and symbols are told apart by their lexemes. -/
def terminal? (r : Record) : Option Terminal :=
  match r.category with
  | .keyword => (Keyword.ofSpelling? r.lexeme).map .keyword
  | .symbol =>
    match r.lexeme with
    | [b] => (Punct.ofByte? b).map .punct
    | _ => none
  | .integerConstant => some .number
  | .stringConstant => some .string
  | .identifier => some .ident
  | .unknown => none

/-- A record has the tag right behind its first byte, up to the first closing bracket. -/
theorem takeWhile_drop_xml (t : Token) :
    (t.xml.drop 1).takeWhile (· != Byte.greater) = t.terminal.category.tag := by
  have hx : t.xml = "<" ++ (t.terminal.category.tag ++ Byte.greater ::
      (" " ++ t.lexeme.escapeXml ++ " </" ++ t.terminal.category.tag ++ ">")) := by
    simp only [Token.xml, List.append_assoc]
    rfl
  have hg : ∀ b ∈ t.terminal.category.tag, (b != Byte.greater) = true := by
    intro b hb
    have hne : b ≠ Byte.greater := fun he => t.terminal.category.greater_not_mem_tag (he ▸ hb)
    simpa using hne
  have hd : (Text.ofString "<").length = 1 := rfl
  rw [hx, ← hd, List.drop_left]
  exact (Text.takeWhile_append_of_head hg (by simp)).1

theorem ofLine?_xml (t : Token) : ofLine? t.xml = some (ofToken t) := by
  have hx : t.xml = "<" ++ t.terminal.category.tag ++ "> " ++ t.lexeme.escapeXml ++
      (" </" ++ t.terminal.category.tag ++ ">") := by
    simp only [Token.xml, List.append_assoc]
  have hinner : Text.between? ("<" ++ t.terminal.category.tag ++ "> ")
      (" </" ++ t.terminal.category.tag ++ ">") t.xml = some t.lexeme.escapeXml := by
    rw [hx]
    exact Text.between?_append _ _ _
  unfold ofLine?
  rw [takeWhile_drop_xml, Category.ofTag?_tag]
  simp only [Option.bind_eq_bind, Option.bind_some, hinner, Text.unescapeXml_escapeXml]
  rfl

end Record

end Jack
