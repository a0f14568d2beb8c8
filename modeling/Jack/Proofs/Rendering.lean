import Jack.Proofs.Lookahead
import Jack.Proofs.SinglePass
import Jack.Proofs.Tree.Derivation
import Jack.Proofs.Xml

/-! The trace of a class is its derivation, printed. Each nonterminal is an opening line, its children one
level deeper and a closing line, so that the derivation can be read back from the lines. -/

namespace Jack

open Jack.Pass Jack.Tree

namespace Nonterminal

def all : List Nonterminal :=
  [.classDec, .classVarDec, .subroutineDec, .parameterList, .subroutineBody, .varDec, .statements,
   .letStatement, .ifStatement, .whileStatement, .doStatement, .returnStatement, .expression, .term,
   .expressionList]

theorem mem_all (n : Nonterminal) : n ∈ all := by
  cases n <;> decide

def opening (n : Nonterminal) : Text := "<" ++ n.tag ++ ">"

def closing (n : Nonterminal) : Text := "</" ++ n.tag ++ ">"

theorem space_not_mem_opening (n : Nonterminal) : Byte.space ∉ n.opening := by
  cases n <;> decide

theorem space_not_mem_closing (n : Nonterminal) : Byte.space ∉ n.closing := by
  cases n <;> decide

end Nonterminal

theorem Trace.lines_opened (depth : Nat) (n : Nonterminal) (rest : List Trace.Entry) :
    Trace.lines depth (.opened n :: rest) =
      (Trace.indent depth ++ n.opening) :: Trace.lines (depth + 1) rest := by
  simp [Trace.lines, Nonterminal.opening]

theorem Trace.lines_closed (depth : Nat) (n : Nonterminal) (rest : List Trace.Entry) :
    Trace.lines depth (.closed n :: rest) =
      (Trace.indent (depth - 1) ++ n.closing) :: Trace.lines (depth - 1) rest := by
  simp [Trace.lines, Nonterminal.closing]

theorem Token.space_mem_xml (t : Token) : Byte.space ∈ t.xml := by
  have hs : Byte.space ∈ Text.ofString "> " := by decide
  simp [Token.xml, hs]

namespace Derivation

mutual

/-- The lines of a derivation whose root stands at the given depth, two spaces for every level. -/
def render (depth : Nat) : Derivation Token → List Text
  | .leaf t => [Trace.indent depth ++ t.xml]
  | .node n children =>
    (Trace.indent depth ++ n.opening) :: renderAll (depth + 1) children ++
      [Trace.indent depth ++ n.closing]

def renderAll (depth : Nat) : List (Derivation Token) → List Text
  | [] => []
  | d :: rest => d.render depth ++ renderAll depth rest

end

mutual

/-- Entries are printed as the derivation that they record. -/
theorem lines_entries (depth : Nat) (rest : List Trace.Entry) : (d : Derivation Token) →
    Trace.lines depth (d.entries ++ rest) = d.render depth ++ Trace.lines depth rest
  | .leaf t => by
    rw [entries, render]
    rfl
  | .node n children => by
    have hc := lines_entriesAll (depth + 1) (.closed n :: rest) children
    rw [entries, render]
    simp [Trace.lines_opened, Trace.lines_closed, hc]

theorem lines_entriesAll (depth : Nat) (rest : List Trace.Entry) : (ds : List (Derivation Token)) →
    Trace.lines depth (entriesAll ds ++ rest) = renderAll depth ds ++ Trace.lines depth rest
  | [] => by
    rw [entriesAll, renderAll]
    rfl
  | d :: ds => by
    rw [entriesAll, renderAll, List.append_assoc, lines_entries depth _ d,
      lines_entriesAll depth rest ds, List.append_assoc]

end

end Derivation

example : Derivation.render 0 (.node .term [.leaf ⟨.ident, "x", 1⟩]) =
    (["<term>", "  <identifier> x </identifier>", "</term>"] : List Text) := by decide

/-! Reading lines. -/

namespace Trace

/-- A line without its indentation. -/
def bare (line : Text) : Text := line.dropWhile (· == Byte.space)

theorem bare_indent (depth : Nat) {s : Text} (h : s.head? = some 0x3C) : bare (indent depth ++ s) = s := by
  have hi : ∀ b ∈ indent depth, (b == Byte.space) = true := by
    intro b hb
    rw [List.eq_of_mem_replicate hb]
    rfl
  have hs : ∀ b ∈ s.head?, (b == Byte.space) = false := by
    intro b hb
    rw [h, Option.mem_some_iff] at hb
    rw [← hb]
    rfl
  exact (Text.takeWhile_append_of_head hi hs).2

/-- The tag of a nonterminal, alone on its line. -/
def isTag (line : Text) : Bool :=
  Nonterminal.all.any fun n => line == n.opening || line == n.closing

/-- The lines that show a terminal, without their indentation. -/
def terminalLines (lines : List Text) : List Text := (lines.map bare).filter (!isTag ·)

@[simp] theorem bare_opening (depth : Nat) (n : Nonterminal) : bare (indent depth ++ n.opening) = n.opening :=
  bare_indent depth (by cases n <;> rfl)

@[simp] theorem bare_closing (depth : Nat) (n : Nonterminal) : bare (indent depth ++ n.closing) = n.closing :=
  bare_indent depth (by cases n <;> rfl)

@[simp] theorem bare_xml (depth : Nat) (t : Token) : bare (indent depth ++ t.xml) = t.xml := by
  refine bare_indent depth ?_
  unfold Token.xml
  cases t.terminal.category <;> rfl

theorem isTag_opening (n : Nonterminal) : isTag n.opening = true :=
  List.any_eq_true.mpr ⟨n, n.mem_all, by simp⟩

theorem isTag_closing (n : Nonterminal) : isTag n.closing = true :=
  List.any_eq_true.mpr ⟨n, n.mem_all, by simp⟩

/-- A record has a space in it, and a tag has none. -/
theorem isTag_xml (t : Token) : isTag t.xml = false := by
  have hs := t.space_mem_xml
  have ho : ∀ n : Nonterminal, t.xml ≠ n.opening := fun n he => n.space_not_mem_opening (he ▸ hs)
  have hc : ∀ n : Nonterminal, t.xml ≠ n.closing := fun n he => n.space_not_mem_closing (he ▸ hs)
  simp [isTag, ho, hc]

/-- What is left of a trace without its tags and its indentation is the records of its terminals. -/
theorem terminalLines_lines (depth : Nat) (entries : List Entry) :
    terminalLines (lines depth entries) = (terminals entries).map Token.xml := by
  induction entries generalizing depth with
  | nil => rfl
  | cons e rest ih =>
    cases e with
    | opened n =>
      rw [lines_opened]
      simpa [terminalLines, terminals, isTag_opening] using ih (depth + 1)
    | closed n =>
      rw [lines_closed]
      simpa [terminalLines, terminals, isTag_closing] using ih (depth - 1)
    | terminal t =>
      rw [lines]
      simpa [terminalLines, terminals, isTag_xml] using ih depth

end Trace

/-! Reading a derivation back. -/

/-- What a line of a trace shows. -/
inductive Line where
  | opened (n : Nonterminal)
  | closed (n : Nonterminal)
  | record (r : Record)
  deriving DecidableEq

namespace Line

def ofBare? (s : Text) : Option Line :=
  match Nonterminal.all.find? (·.opening == s), Nonterminal.all.find? (·.closing == s) with
  | some n, _ => some (.opened n)
  | none, some n => some (.closed n)
  | none, none => (Record.ofLine? s).map .record

theorem ofBare?_opening (n : Nonterminal) : ofBare? n.opening = some (.opened n) := by
  have h : ∀ n ∈ Nonterminal.all, ofBare? n.opening = some (.opened n) := by decide +kernel
  exact h n n.mem_all

theorem ofBare?_closing (n : Nonterminal) : ofBare? n.closing = some (.closed n) := by
  have h : ∀ n ∈ Nonterminal.all, ofBare? n.closing = some (.closed n) := by decide +kernel
  exact h n n.mem_all

theorem ofBare?_xml (t : Token) : ofBare? t.xml = some (.record (.ofToken t)) := by
  have hs := t.space_mem_xml
  have ho : Nonterminal.all.find? (·.opening == t.xml) = none := by
    rw [List.find?_eq_none]
    intro n _ he
    exact n.space_not_mem_opening (beq_iff_eq.mp he ▸ hs)
  have hc : Nonterminal.all.find? (·.closing == t.xml) = none := by
    rw [List.find?_eq_none]
    intro n _ he
    exact n.space_not_mem_closing (beq_iff_eq.mp he ▸ hs)
  rw [ofBare?, ho, hc, Record.ofLine?_xml]
  rfl

end Line

namespace Derivation

/-- A nonterminal whose tag is open, with what was read of the level around it. -/
structure Frame where
  name : Nonterminal
  before : List (Derivation Record)

/-- Reads lines into the derivations that they show, given the open tags, innermost first, and what was read
inside the innermost. Indentation plays no part. -/
def read : List Frame → List (Derivation Record) → List Text → Option (List (Derivation Record))
  | frames, done, [] => if frames.isEmpty then some done else none
  | frames, done, line :: rest =>
    match Line.ofBare? (Trace.bare line), frames with
    | some (.opened n), _ => read (⟨n, done⟩ :: frames) [] rest
    | some (.closed n), f :: frames =>
      if f.name = n then read frames (f.before ++ [.node n done]) rest else none
    | some (.record r), _ => read frames (done ++ [.leaf r]) rest
    | _, _ => none

/-- The derivation that lines show. -/
def ofLines? (lines : List Text) : Option (Derivation Record) :=
  match read [] [] lines with
  | some [d] => some d
  | _ => none

section

variable (frames : List Frame) (done : List (Derivation Record)) (depth : Nat) (n : Nonterminal)
  (rest : List Text)

theorem read_opening : read frames done ((Trace.indent depth ++ n.opening) :: rest) =
    read (⟨n, done⟩ :: frames) [] rest := by
  simp [read, Line.ofBare?_opening]

theorem read_closing (before : List (Derivation Record)) :
    read (⟨n, before⟩ :: frames) done ((Trace.indent depth ++ n.closing) :: rest) =
      read frames (before ++ [.node n done]) rest := by
  simp [read, Line.ofBare?_closing]

theorem read_xml (t : Token) : read frames done ((Trace.indent depth ++ t.xml) :: rest) =
    read frames (done ++ [.leaf (.ofToken t)]) rest := by
  simp [read, Line.ofBare?_xml]

end

mutual

theorem read_render (frames : List Frame) (done : List (Derivation Record)) (depth : Nat)
    (rest : List Text) : (d : Derivation Token) →
    read frames done (d.render depth ++ rest) = read frames (done ++ [d.map Record.ofToken]) rest
  | .leaf t => by
    rw [render, map, List.singleton_append, read_xml]
  | .node n children => by
    have hc := read_renderAll (⟨n, done⟩ :: frames) [] (depth + 1)
      ((Trace.indent depth ++ n.closing) :: rest) children
    rw [render, map, List.append_assoc, List.cons_append, List.singleton_append, read_opening, hc,
      read_closing, List.nil_append]

theorem read_renderAll (frames : List Frame) (done : List (Derivation Record)) (depth : Nat)
    (rest : List Text) : (ds : List (Derivation Token)) →
    read frames done (renderAll depth ds ++ rest) =
      read frames (done ++ mapAll Record.ofToken ds) rest
  | [] => by
    rw [renderAll, mapAll, List.nil_append, List.append_nil]
  | d :: ds => by
    rw [renderAll, mapAll, List.append_assoc, read_render frames done depth _ d,
      read_renderAll frames _ depth rest ds, List.append_assoc, List.singleton_append]

end

/-- A printed derivation is read back, with the categories and lexemes of its tokens. -/
theorem ofLines?_render (d : Derivation Token) (depth : Nat) :
    ofLines? (d.render depth) = some (d.map Record.ofToken) := by
  have hr := read_render [] [] depth [] d
  rw [List.append_nil] at hr
  rw [ofLines?, hr]
  rfl

end Derivation

namespace Trace

/-- How many nonterminals entries leave open. -/
def level : List Entry → Int
  | [] => 0
  | .opened _ :: rest => level rest + 1
  | .closed _ :: rest => level rest - 1
  | .terminal _ :: rest => level rest

theorem level_append (a b : List Entry) : level (a ++ b) = level a + level b := by
  induction a with
  | nil => simp [level]
  | cons e a ih =>
    cases e with
    | opened n =>
      rw [List.cons_append, level, level, ih]
      omega
    | closed n =>
      rw [List.cons_append, level, level, ih]
      omega
    | terminal t => rw [List.cons_append, level, level, ih]

/-- The depth is nowhere negative and ends at zero. -/
structure Nested (entries : List Entry) : Prop where
  nonneg : ∀ front, front <+: entries → 0 ≤ level front
  level_eq : level entries = 0

theorem nested_nil : Nested [] where
  nonneg := by
    intro front hf
    rw [List.prefix_nil.mp hf]
    rfl
  level_eq := rfl

theorem nested_terminal (t : Token) : Nested [.terminal t] where
  nonneg := by
    intro front hf
    rcases List.prefix_cons_iff.mp hf with rfl | ⟨back, rfl, hb⟩
    · rfl
    · rw [List.prefix_nil.mp hb]
      rfl
  level_eq := rfl

theorem Nested.append {a b : List Entry} (ha : Nested a) (hb : Nested b) : Nested (a ++ b) := by
  constructor
  · intro front hf
    rcases List.prefix_or_prefix_of_prefix hf (List.prefix_append a b) with h | ⟨back, rfl⟩
    · exact ha.nonneg _ h
    · have h : 0 ≤ level back := hb.nonneg back ((List.prefix_append_right_inj a).mp hf)
      have hl := level_append a back
      have ha := ha.level_eq
      omega
  · have hl := level_append a b
    have ha := ha.level_eq
    have hb := hb.level_eq
    omega

theorem Nested.node {inner : List Entry} (h : Nested inner) (n : Nonterminal) :
    Nested (Trace.node n inner) := by
  have hl : level (Trace.node n inner) = 0 := by
    have hc : level [.closed n] = -1 := rfl
    have hi := h.level_eq
    rw [Trace.node, List.cons_append, level, level_append]
    omega
  constructor
  · intro front hf
    rcases List.prefix_concat_iff.mp hf with rfl | hf
    · exact hl.ge
    · rcases List.prefix_cons_iff.mp hf with rfl | ⟨back, rfl, hb⟩
      · exact Int.le_refl 0
      · have hb := h.nonneg back hb
        rw [level]
        omega
  · exact hl

end Trace

mutual

theorem Derivation.nested_entries : (d : Derivation Token) → Trace.Nested d.entries
  | .leaf t => by
    rw [entries]
    exact Trace.nested_terminal t
  | .node n children => by
    rw [entries]
    exact (nested_entriesAll children).node n

theorem Derivation.nested_entriesAll : (ds : List (Derivation Token)) → Trace.Nested (entriesAll ds)
  | [] => by
    rw [entriesAll]
    exact Trace.nested_nil
  | d :: ds => by
    rw [entriesAll]
    exact d.nested_entries.append (nested_entriesAll ds)

end

theorem trace_of_tokens {source : Source} {u : Compiled} (h : (compile source).outcome = .ok u)
    {c : ClassDec} (hc : c.tokens = source.beforeEnd) : u.trace = c.derivation.entries := by
  have ho := outcome_of_tokens c hc
  rw [h] at ho
  split at ho
  · cases ho
    exact c.entries_derivation.symm
  · cases ho

/-- The trace of a compiled class is its derivation, printed and read back. Without tags and indentation it is
the records of the tokens, and every tag that it opens it closes. -/
theorem trace_renders_derivation {source : Source} {u : Compiled}
    (h : (compile source).outcome = .ok u) :
    (∃ c : ClassDec, c.tokens = source.beforeEnd) ∧
      (∀ c : ClassDec, c.tokens = source.beforeEnd →
        u.traceLines = c.derivation.render 0 ∧
          Derivation.ofLines? u.traceLines = some (c.derivation.map Record.ofToken)) ∧
      Trace.terminalLines u.traceLines = source.beforeEnd.map Token.xml ∧ Trace.Nested u.trace := by
  have hr : ∀ c : ClassDec, c.tokens = source.beforeEnd → u.traceLines = c.derivation.render 0 := by
    intro c hc
    have hl := c.derivation.lines_entries 0 []
    rw [List.append_nil, ← trace_of_tokens h hc, Trace.lines, List.append_nil] at hl
    exact hl
  obtain ⟨c, hc, -⟩ := exists_class_of_ok h
  refine ⟨⟨c, hc⟩, fun c hc => ⟨hr c hc, ?_⟩, ?_, ?_⟩
  · rw [hr c hc, Derivation.ofLines?_render]
  · rw [Compiled.traceLines, Trace.terminalLines_lines, (terminals_trace h).1]
  · rw [trace_of_tokens h hc]
    exact c.derivation.nested_entries

theorem trace_renders_derivation_counter :
    ∃ u, (compile Counter.source).outcome = .ok u ∧
      u.traceLines = Counter.tree.derivation.render 0 ∧
      Derivation.ofLines? u.traceLines = some (Counter.tree.derivation.map Record.ofToken) ∧
      Trace.terminalLines u.traceLines = Counter.tree.tokens.map Token.xml ∧ Trace.Nested u.trace := by
  obtain ⟨-, hd, ht, hn⟩ := trace_renders_derivation Counter.outcome_source
  obtain ⟨hr, hb⟩ := hd Counter.tree Counter.tokens_tree
  rw [← Counter.tokens_tree] at ht
  exact ⟨_, Counter.outcome_source, hr, hb, ht, hn⟩

end Jack
