import Jack.Proofs.Addressing
import Jack.Proofs.Lexical.Tiling
import Jack.Proofs.Rendering
import Jack.Token.Dump

/-! Token dumps hold the tokens of a text, each on a line from which it can be read back. They agree with the
compiler: the lines are those of the terminals in the trace, and both stop at the same illegal token. -/

namespace Jack

open Jack.Pass Jack.Lexical

namespace Lexical

theorem ofByte?_byte (p : Punct) : Punct.ofByte? p.byte = some p := by
  cases p <;> rfl

theorem Spelling.newline_not_mem_lexeme (sp : Spelling) : Byte.newline ∉ sp.lexeme := by
  cases sp with
  | string body plain => exact newline_not_mem_of_isStringByte plain
  | keyword k => exact (Spelling.keyword k).newline_not_mem_text
  | punct p => exact (Spelling.punct p).newline_not_mem_text
  | ident w hw hk => exact (Spelling.ident w hw hk).newline_not_mem_text
  | number ds hn hd => exact (Spelling.number ds hn hd).newline_not_mem_text

/-- The tokens of a text, illegal ones among them, are those of its tiles. -/
theorem exists_lexeme_of_mem {s : Text} {t : Token} (h : t ∈ (Lexer.ofText s).toSource.tokens) :
    ∃ bytes after, Lexeme t.terminal t.lexeme bytes after := by
  obtain ⟨tiles, tail, ht⟩ := exists_tiling [] s
  have he : (Lexer.ofText s).toSource.tokens = tiles.map Tile.token :=
    congrArg Prod.fst (ht.exhaust_eq (Nat.lt_succ_of_le ht.length_le))
  rw [he] at h
  obtain ⟨tile, hm, rfl⟩ := List.mem_map.mp h
  obtain ⟨front, back, rfl⟩ := List.append_of_mem hm
  exact ⟨_, _, (ht.fits front tile back rfl).lexeme⟩

theorem exists_spelling_of_mem {s : Text} {t : Token} (h : t ∈ (Lexer.ofText s).toSource.tokens)
    (hl : t.terminal ≠ .illegal) : ∃ sp : Spelling, t.terminal = sp.terminal ∧ t.lexeme = sp.lexeme := by
  obtain ⟨bytes, after, hx⟩ := exists_lexeme_of_mem h
  generalize t.terminal = terminal at hx hl
  generalize t.lexeme = lexeme at hx
  cases hx with
  | spelled sp => exact ⟨sp, rfl, rfl⟩
  | openString | openComment | stray => exact absurd rfl hl

end Lexical

namespace Record

/-- The terminal and the lexeme that a line of a dump shows. -/
def read? (line : Text) : Option (Terminal × Text) := do
  let r ← ofLine? line
  let terminal ← r.terminal?
  some (terminal, r.lexeme)

theorem terminal?_spelling (sp : Spelling) :
    terminal? ⟨sp.terminal.category, sp.lexeme⟩ = some sp.terminal := by
  cases sp with
  | keyword k => exact congrArg (Option.map Terminal.keyword) (ofSpelling?_spelling k)
  | punct p => exact congrArg (Option.map Terminal.punct) (ofByte?_byte p)
  | ident | number | string => rfl

theorem read?_xml {s : Text} {t : Token} (h : t ∈ (Lexer.ofText s).toSource.tokens)
    (hl : t.terminal ≠ .illegal) : read? t.xml = some (t.terminal, t.lexeme) := by
  obtain ⟨sp, ht, hx⟩ := exists_spelling_of_mem h hl
  have hr : terminal? (ofToken t) = some t.terminal := by
    rw [ofToken, ht, hx]
    exact terminal?_spelling sp
  rw [read?, ofLine?_xml]
  simp only [Option.bind_eq_bind, Option.bind_some, hr]
  rfl

end Record

theorem Token.newline_not_mem_xml {t : Token} (h : Byte.newline ∉ t.lexeme) : Byte.newline ∉ t.xml := by
  have hc : Byte.newline ∉ t.terminal.category.tag := by
    cases t.terminal.category <;> decide
  have hx := Text.newline_not_mem_escapeXml h
  have h1 : Byte.newline ∉ Text.ofString "<" := by decide
  have h2 : Byte.newline ∉ Text.ofString "> " := by decide
  have h3 : Byte.newline ∉ Text.ofString " </" := by decide
  have h4 : Byte.newline ∉ Text.ofString ">" := by decide
  simp [Token.xml, hc, hx, h1, h2, h3, h4]

namespace TokenDump

def opening : Text := "<tokens>"

def closing : Text := "</tokens>"

/-- The dump of the tokens of a text. -/
def ofText (s : Text) : TokenDump := ofTokens (Lexer.ofText s).tokens.1

/-- The whole dump was written, with the given lines between its first and its last. -/
structure Holds (dump : TokenDump) (lines : List Text) : Prop where
  written : Text.splitOn Byte.newline dump.written = opening :: lines ++ [closing, []]
  complete : dump.illegal? = none

variable {t : Token} {ts : List Token} {s : Text}

theorem records_of_legal (h : ∀ t ∈ ts, t.terminal ≠ .illegal) :
    records ts = ⟨Text.unlines (ts.map Token.xml ++ [closing]), none⟩ := by
  induction ts with
  | nil => rfl
  | cons t ts ih =>
    rw [records, if_neg (h t List.mem_cons_self), ih fun u hu => h u (List.mem_cons_of_mem _ hu)]
    simp [Text.unlines]

/-- A dump breaks off at the first illegal token. -/
theorem illegal_of_append {after : List Token} (h : ∀ u ∈ ts, u.terminal ≠ .illegal)
    (ht : t.terminal = .illegal) : (ofTokens (ts ++ t :: after)).illegal? = some t := by
  change (records (ts ++ t :: after)).illegal? = some t
  induction ts with
  | nil => rw [List.nil_append, records, if_pos ht]
  | cons u ts ih =>
    rw [List.cons_append, records, if_neg (h u List.mem_cons_self)]
    exact ih fun v hv => h v (List.mem_cons_of_mem _ hv)

/-- Tokens behind an illegal one make no difference to a dump. -/
theorem records_drain (n : Nat) (l : Lexer) : records (l.drain n).1 = records (l.exhaust n).1 := by
  induction n generalizing l with
  | zero => rfl
  | succ n ih =>
    unfold Lexer.drain Lexer.exhaust
    generalize l.next = taken
    obtain ⟨⟨terminal, lexeme, line⟩, l⟩ := taken
    cases terminal with
    | eof => rfl
    | illegal => rfl
    | _ => simp only [records, ih]

theorem ofText_eq (s : Text) : ofText s = ofTokens (Lexer.ofText s).toSource.tokens := by
  have hr : records (Lexer.ofText s).tokens.1 = records (Lexer.ofText s).toSource.tokens :=
    records_drain _ _
  rw [ofText, ofTokens, ofTokens, hr]

theorem holds_of_legal (h : ∀ t ∈ ts, t.terminal ≠ .illegal)
    (hm : ∀ t ∈ ts, t ∈ (Lexer.ofText s).toSource.tokens) : (ofTokens ts).Holds (ts.map Token.xml) := by
  have hw : (ofTokens ts).written = Text.unlines (opening :: (ts.map Token.xml ++ [closing])) := by
    rw [ofTokens, records_of_legal h]
    rfl
  have hn : ∀ l ∈ opening :: (ts.map Token.xml ++ [closing]), Byte.newline ∉ l := by
    intro l hl
    rcases List.mem_cons.mp hl with rfl | hl
    · decide
    · rcases List.mem_append.mp hl with hl | hl
      · obtain ⟨t, ht, rfl⟩ := List.mem_map.mp hl
        obtain ⟨sp, -, hx⟩ := exists_spelling_of_mem (hm t ht) (h t ht)
        exact Token.newline_not_mem_xml (hx ▸ sp.newline_not_mem_lexeme)
      · rw [List.mem_singleton.mp hl]
        decide
  constructor
  · rw [hw, Text.splitOn_unlines hn]
    simp
  · rw [ofTokens, records_of_legal h]

end TokenDump

/-- The tokens of a text, as the dump takes them and as a source has them. -/
theorem Lexer.drain_prefix (n : Nat) (l : Lexer) : (l.drain n).1 <+: (l.exhaust n).1 := by
  induction n generalizing l with
  | zero => exact List.prefix_refl _
  | succ n ih =>
    unfold drain exhaust
    generalize l.next = taken
    obtain ⟨⟨terminal, lexeme, line⟩, l⟩ := taken
    cases terminal with
    | eof => exact List.prefix_refl _
    | illegal => exact List.cons_prefix_cons.mpr ⟨rfl, List.nil_prefix⟩
    | _ => exact List.cons_prefix_cons.mpr ⟨rfl, ih l⟩

theorem beforeEnd_ofText (s : Text) :
    (Lexer.ofText s).toSource.beforeEnd = (Lexer.ofText s).toSource.tokens := by
  unfold Source.beforeEnd
  rw [List.takeWhile_eq_self_iff]
  intro t ht
  obtain ⟨_, _, hx⟩ := exists_lexeme_of_mem ht
  simpa using hx.terminal_ne_eof

/-- Only an illegal token is reported as an unexpected character. -/
theorem CompileError.illegal_of_reason {err : CompileError} (h : err.reason = "Unexpected character") :
    ∃ found expected, err = .unexpected found expected ∧ found.terminal = .illegal := by
  -- The first byte tells the reasons apart.
  have hb : err.reason.head? = some 0x55 := by
    rw [h]
    rfl
  cases err with
  | unexpected found expected =>
    refine ⟨found, expected, rfl, ?_⟩
    by_contra hl
    rw [reason, if_neg hl] at hb
    cases expected <;> cases hb
  | outOfRange t => cases hb
  | undefined t => cases hb

/-- The dump of a text without illegal tokens holds their records, which can be read back. For a class they are
the terminals of its trace, and where the compiler meets an unexpected character, the dump breaks off at it. -/
theorem dump_lossless (s : Text) :
    ((∀ t ∈ (Lexer.ofText s).tokens.1, t.terminal ≠ .illegal) →
        ∃ lines, (TokenDump.ofText s).Holds lines ∧
          lines.map Record.read? =
            (Lexer.ofText s).tokens.1.map fun t => some (t.terminal, t.lexeme)) ∧
      (∀ u, compileText s = .ok u →
        (TokenDump.ofText s).Holds (Trace.terminalLines u.traceLines)) ∧
      ∀ err, compileText s = .error err → err.reason = "Unexpected character" →
        (TokenDump.ofText s).illegal? = some err.token ∧
          ∀ written, (TokenDump.ofText s).report written =
            .error ("[line " ++ Text.ofInt err.token.line ++ "] Error at '" ++ err.token.lexeme ++
              "': unexpected character") := by
  refine ⟨fun hl => ?_, fun u hu => ?_, fun err he hr => ?_⟩
  · have hm : ∀ t ∈ (Lexer.ofText s).tokens.1, t ∈ (Lexer.ofText s).toSource.tokens :=
      fun t ht => (Lexer.drain_prefix _ _).subset ht
    refine ⟨_, TokenDump.holds_of_legal hl hm, ?_⟩
    rw [List.map_map]
    exact List.map_congr_left fun t ht => Record.read?_xml (hm t ht) (hl t ht)
  · obtain ⟨ht, hl⟩ := terminals_trace hu
    rw [beforeEnd_ofText] at ht hl
    rw [TokenDump.ofText_eq, Compiled.traceLines, Trace.terminalLines_lines, ht]
    exact TokenDump.holds_of_legal hl fun t ht => ht
  · obtain ⟨found, expected, rfl, hf⟩ := CompileError.illegal_of_reason hr
    have hn : found.terminal ≠ .eof := by
      rw [hf]
      exact Terminal.noConfusion
    obtain ⟨before, after, hb, hl⟩ := legal_before_unexpected he hn
    have hi : (TokenDump.ofText s).illegal? = some found := by
      rw [TokenDump.ofText_eq, ← beforeEnd_ofText, hb]
      exact TokenDump.illegal_of_append hl hf
    refine ⟨hi, fun written => ?_⟩
    rw [TokenDump.report, CompileError.token, hi]
    rfl

/-- A string constant that looks like markup, a class, and a text with a stray character. -/
theorem dump_lossless_samples :
    (∃ lines, (TokenDump.ofText "\" &lt;b> \" <").Holds lines ∧
      lines.map Record.read? =
        [some (Terminal.string, (" &lt;b> " : Text)), some (Terminal.punct .lt, ("<" : Text))]) ∧
    (∃ u, compileText Counter.text = .ok u ∧
      (TokenDump.ofText Counter.text).Holds (Trace.terminalLines u.traceLines)) ∧
    ∃ err, compileText "class #" = .error err ∧ err.reason = "Unexpected character" ∧
      (TokenDump.ofText "class #").illegal? = some err.token := by
  refine ⟨?_, ?_, ?_⟩
  · have ht : (Lexer.ofText "\" &lt;b> \" <").tokens.1 =
        [⟨.string, " &lt;b> ", 1⟩, ⟨.punct .lt, "<", 1⟩] := by decide +kernel
    obtain ⟨lines, hl, hm⟩ := (dump_lossless "\" &lt;b> \" <").1 (by rw [ht]; simp)
    rw [ht] at hm
    exact ⟨lines, hl, hm⟩
  · exact ⟨_, Counter.outcome_text, (dump_lossless Counter.text).2.1 _ Counter.outcome_text⟩
  · have he : compileText "class #" = .error (.unexpected ⟨.illegal, "#", 1⟩ (.oneOf [.ident])) := by
      decide +kernel
    exact ⟨_, he, rfl, ((dump_lossless "class #").2.2 _ he rfl).1⟩

end Jack
