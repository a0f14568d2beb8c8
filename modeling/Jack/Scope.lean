import Jack.Machine.Instruction
import Jack.Text.Quoted

/-! Scopes: the variables of a class and of the subroutine being read. -/

namespace Jack

/-- Where a variable lives. Text may name a storage that the language does not have. -/
inductive Storage where
  | static
  | field
  | argument
  | var
  | other (name : Text)
  deriving DecidableEq, Repr

namespace Storage

def name : Storage → Text
  | .static => "static"
  | .field => "field"
  | .argument => "argument"
  | .var => "var"
  | .other name => name

def ofName (name : Text) : Storage :=
  ([.static, .field, .argument, .var].find? (·.name == name)).getD (.other name)

def segment : Storage → Segment
  | .static => .static
  | .field => .this
  | .argument => .argument
  | .var => .local
  | .other _ => .other []

/-- Statics and fields belong to the class, all else to the subroutine. -/
def ofClass : Storage → Bool
  | .static | .field => true
  | _ => false

end Storage

structure Variable where
  name : Text
  type : Text
  storage : Storage
  index : Nat
  deriving DecidableEq, Repr

structure Scope where
  /-- The variable each name stands for; an earlier entry hides a later one. -/
  declared : List (Text × Variable) := []
  /-- How many variables each storage has; an earlier entry hides a later one. -/
  counts : List (Storage × Nat) := []
  deriving Repr

namespace Scope

def count (s : Scope) (storage : Storage) : Nat := (s.counts.lookup storage).getD 0

def find? (s : Scope) (name : Text) : Option Variable := s.declared.lookup name

/-- Declares a variable at the next free index of its storage. A name declared before is replaced. -/
def declare (s : Scope) (name type : Text) (storage : Storage) : Variable × Scope :=
  let index := s.count storage
  let v : Variable := { name, type, storage, index }
  (v, { declared := (name, v) :: s.declared, counts := (storage, index + 1) :: s.counts })

end Scope

structure Scopes where
  ofClass : Scope := {}
  ofSubroutine : Scope := {}
  deriving Repr

namespace Scopes

def startSubroutine (s : Scopes) : Scopes := { s with ofSubroutine := {} }

def declare (s : Scopes) (name type : Text) (storage : Storage) : Variable × Scopes :=
  if storage.ofClass then
    let (v, scope) := s.ofClass.declare name type storage
    (v, { s with ofClass := scope })
  else
    let (v, scope) := s.ofSubroutine.declare name type storage
    (v, { s with ofSubroutine := scope })

/-- The variable that a name stands for; those of the subroutine come first. -/
def resolve? (s : Scopes) (name : Text) : Option Variable :=
  (s.ofSubroutine.find? name).or (s.ofClass.find? name)

def count (s : Scopes) (storage : Storage) : Nat :=
  if storage.ofClass then s.ofClass.count storage else s.ofSubroutine.count storage

def undefined (name : Text) : Text := "undefined identifier " ++ name.quoted

end Scopes

end Jack
