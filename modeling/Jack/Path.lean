import Jack.Text.Basic

/-! Paths as text: what can be said of a path without looking at any file. -/

namespace Jack.Path

/-- The suffix from the last dot of the last component, which may be empty. -/
def extension (p : Text) : Text :=
  let tail := (p.reverse.takeWhile fun b => b != Byte.slash && b != Byte.dot).reverse
  match p.reverse.dropWhile fun b => b != Byte.slash && b != Byte.dot with
  | Byte.dot :: _ => Byte.dot :: tail
  | _ => []

def stem (p : Text) : Text := p.take (p.length - (extension p).length)

/-- The last component of a path: a dot for the empty path, a slash for one of slashes alone. -/
def base (p : Text) : Text :=
  if p.isEmpty then "."
  else
    let named := p.reverse.dropWhile (· == Byte.slash)
    if named.isEmpty then "/" else (named.takeWhile (· != Byte.slash)).reverse

def className (p : Text) : Text := stem (base p)

def withExtension (p extension : Text) : Text := stem p ++ extension

def isAbsolute (p : Text) : Bool := p.head? == some Byte.slash

/-- One step of cleaning, on the components kept so far, the last first. -/
def cleanStep (rooted : Bool) (kept : List Text) (component : Text) : List Text :=
  if component.isEmpty || component == "." then kept
  else if component == ".." then
    match kept with
    | [] => if rooted then [] else [component]
    | last :: before => if last == ".." then component :: kept else before
  else component :: kept

/-- The components of a path, the last first, with nothing in them that can be left out. -/
def parts (p : Text) : List Text :=
  (Text.splitOn Byte.slash p).foldl (cleanStep (isAbsolute p)) []

def ofParts (parts : List Text) : Text := Byte.slash :: Text.joinWith "/" parts.reverse

/-- The shortest path that names the same place by the names alone. -/
def clean (p : Text) : Text :=
  if isAbsolute p then ofParts (parts p)
  else if (parts p).isEmpty then "."
  else Text.joinWith "/" (parts p).reverse

def join (pieces : List Text) : Text :=
  match pieces.dropWhile List.isEmpty with
  | [] => []
  | pieces => clean (Text.joinWith "/" pieces)

def absolute (workingDirectory p : Text) : Text :=
  if isAbsolute p then clean p else join [workingDirectory, p]

def parent (p : Text) : Text :=
  clean (p.reverse.dropWhile (· != Byte.slash)).reverse

/-- A place and all the directories above it, by their components, the last first. -/
def upwards : List Text → List (List Text)
  | [] => [[]]
  | c :: above => (c :: above) :: upwards above

end Jack.Path
