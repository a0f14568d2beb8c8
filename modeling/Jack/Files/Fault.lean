import Jack.Text.Basic

/-! Faults: why an operation on a file failed. -/

namespace Jack

namespace Fault

inductive Reason where
  | noEntry
  | notDirectory
  | isDirectory
  | tooManyLinks
  | nameTooLong
  | invalidArgument
  | other (text : Text)
  deriving DecidableEq, Repr

def Reason.message : Reason → Text
  | .noEntry => "no such file or directory"
  | .notDirectory => "not a directory"
  | .isDirectory => "is a directory"
  | .tooManyLinks => "too many levels of symbolic links"
  | .nameTooLong => "file name too long"
  | .invalidArgument => "invalid argument"
  | .other text => text

inductive Operation where
  | stat
  | open
  | read
  | write
  deriving DecidableEq, Repr

def Operation.name : Operation → Text
  | .stat => "stat"
  | .open => "open"
  | .read => "read"
  | .write => "write"

end Fault

structure Fault where
  operation : Fault.Operation
  path : Text
  reason : Fault.Reason
  deriving DecidableEq, Repr

def Fault.message (f : Fault) : Text :=
  f.operation.name ++ " " ++ f.path ++ ": " ++ f.reason.message

end Jack
