import Jack.Text.Integer
import Jack.Text.Quoted

/-! The options of the command line. -/

namespace Jack.Command

structure Options where
  /-- An input that comes before the others; none if empty. -/
  input : Text := []
  /-- The file with the settings; looked for if empty. -/
  config : Text := []
  trace : Bool := false
  /-- Dump the tokens of each file and compile none. -/
  tokens : Bool := false
  /-- Below zero, the settings decide. -/
  jobs : Int := -1
  /-- Below zero, the settings decide. -/
  verbosity : Int := -1
  /-- If empty, the settings decide. -/
  logFile : Text := []
  deriving DecidableEq, Repr

namespace Options

/-- What a flag does with its value. -/
inductive Flag where
  | text (set : Options → Text → Options)
  | number (set : Options → Int → Options)
  /-- Without a value it is switched on. -/
  | switch (set : Options → Bool → Options)

def flags : List (Text × Flag) :=
  [("config", .text fun o v => { o with config := v }),
   ("d", .text fun o v => { o with input := v }),
   ("j", .number fun o v => { o with jobs := v }),
   ("log", .text fun o v => { o with logFile := v }),
   ("tokens", .switch fun o v => { o with tokens := v }),
   ("trace", .switch fun o v => { o with trace := v }),
   ("v", .number fun o v => { o with verbosity := v })]

def usage : Text :=
  "usage: jackc [flags] <file.jack|dir>...\n" ++
  "  -config string\n    \tpath to jackc.toml (default: search upwards from the working directory)\n" ++
  "  -d string\n    \t.jack file to compile or directory containing .jack files\n" ++
  "  -j int\n    \tnumber of files compiled concurrently (0: one per CPU) (default -1)\n" ++
  "  -log string\n    \tlog to this file instead of stderr\n" ++
  "  -tokens\n    \tonly dump the token stream of each file as <name>T.xml\n" ++
  "  -trace\n    \talso write the structural trace next to each output\n" ++
  "  -v int\n    \tlog verbosity (default -1)\n"

inductive Error where
  | help
  | malformed (argument : Text)
  | unknown (name : Text)
  | valueMissing (name : Text)
  | badNumber (name value : Text) (fault : Text.IntegerFault)
  | badSwitch (name value : Text)
  deriving DecidableEq, Repr

def Error.message : Error → Text
  | .help => []
  | .malformed argument => "bad flag syntax: " ++ argument ++ "\n"
  | .unknown name => "flag provided but not defined: -" ++ name ++ "\n"
  | .valueMissing name => "flag needs an argument: -" ++ name ++ "\n"
  | .badNumber name value fault =>
    let reason : Text := match fault with
      | .malformed => "parse error"
      | .outOfRange => "value out of range"
    "invalid value " ++ value.quoted ++ " for flag -" ++ name ++ ": " ++ reason ++ "\n"
  | .badSwitch name value =>
    "invalid boolean value " ++ value.quoted ++ " for -" ++ name ++ ": parse error\n"

def boolean? (value : Text) : Option Bool :=
  if ["1", "t", "T", "TRUE", "true", "True"].any (Text.ofString · == value) then some true
  else if ["0", "f", "F", "FALSE", "false", "False"].any (Text.ofString · == value) then some false
  else none

/-- The name of a flag and the value behind an equality sign, if there is one. -/
def nameAndValue (s : Text) : Text × Option Text :=
  match s with
  | [] => ([], none)
  | first :: rest =>
    let name := first :: rest.takeWhile (· != Byte.equals)
    match rest.dropWhile (· != Byte.equals) with
    | _ :: value => (name, some value)
    | [] => (name, none)

inductive Argument where
  /-- It and all that follow are inputs. -/
  | input
  /-- Those that follow are inputs. -/
  | separator
  | malformed
  | flag (name : Text) (value : Option Text)

/-- A flag has one or two dashes, then a name; a dash alone is an input. -/
def argument (s : Text) : Argument :=
  match s with
  | Byte.minus :: Byte.minus :: [] => .separator
  | Byte.minus :: Byte.minus :: rest => named rest
  | Byte.minus :: first :: rest => named (first :: rest)
  | _ => .input
where
  /-- What stands behind the dashes. -/
  named (s : Text) : Argument :=
    match s with
    | [] | Byte.minus :: _ | Byte.equals :: _ => .malformed
    | s => .flag (nameAndValue s).1 (nameAndValue s).2

def takeValue (o : Options) (name value : Text) : Flag → Except Error Options
  | .text set => .ok (set o value)
  | .number set =>
    match value.integer? with
    | .ok n => .ok (set o n)
    | .error fault => .error (.badNumber name value fault)
  | .switch set =>
    match boolean? value with
    | some b => .ok (set o b)
    | none => .error (.badSwitch name value)

/-- Reads flags up to the first input; a later flag wins over an earlier one. -/
def parse (o : Options) : List Text → Except Error (Options × List Text)
  | [] => .ok (o, [])
  | s :: rest =>
    match argument s with
    | .input => .ok (o, s :: rest)
    | .separator => .ok (o, rest)
    | .malformed => .error (.malformed s)
    | .flag name value =>
      match flags.lookup name, value with
      | none, _ => .error (if name == "help" || name == "h" then .help else .unknown name)
      | some flag, some value => do
        let o ← o.takeValue name value flag
        parse o rest
      | some (.switch set), none => parse (set o true) rest
      | some flag, none =>
        match rest with
        | [] => .error (.valueMissing name)
        | value :: rest => do
          let o ← o.takeValue name value flag
          parse o rest

end Options

end Jack.Command
