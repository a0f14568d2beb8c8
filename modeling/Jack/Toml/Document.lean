import Jack.Toml.Statement
import Std.Data.HashMap

/-! TOML documents: tables by number. A table has a number because it can stand at two places at once, in
the document and in the value of an inline table around it. -/

namespace Jack.Toml

inductive Node where
  | string (s : Text)
  | scalar (s : Scalar)
  | array (items : Literals)
  | table (n : Nat)
  /-- An array of tables that are still written to: the latest, and those before it. -/
  | tables (latest : Nat) (earlier : List Nat)

namespace Node

def string? : Node → Option Text
  | .string s => some s
  | _ => none

def boolean? : Node → Option Bool
  | .scalar (.boolean b) => some b
  | _ => none

/-- A float is no integer, whatever its value. -/
def integer? : Node → Option Int
  | .scalar (.integer n) => some n
  | _ => none

/-- The table that a dotted name goes on in behind this node. -/
def inner? : Node → Option Nat
  | .table n => some n
  | .tables latest _ => some latest
  | _ => none

end Node

abbrev Table := Std.HashMap Text Node

structure Document where
  /-- The tables by number. The first is that of the whole document. -/
  tables : Array Table := #[{}]

namespace Document

def table (d : Document) (n : Nat) : Table := d.tables.getD n {}

def root (d : Document) : Table := d.table 0

/-- The table that a node is. An array of tables is none. -/
def tableOf? (d : Document) : Node → Option Table
  | .table n => some (d.table n)
  | _ => none

def entry? (d : Document) (n : Nat) (name : Text) : Option Node := (d.table n)[name]?

/-- Gives a name of a table a new meaning, or a first one. -/
def set (d : Document) (n : Nat) (name : Text) (node : Node) : Document :=
  { tables := d.tables.modify n (·.insert name node) }

def newTable (d : Document) : Nat × Document := (d.tables.size, { tables := d.tables.push {} })

end Document

end Jack.Toml
