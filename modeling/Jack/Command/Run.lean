import Jack.Command.Build
import Jack.Command.Options

/-! The whole command. -/

namespace Jack.Command

variable {m : Type → Type} [Monad m] [Host m]

def Options.override (o : Options) (s : Settings) : Settings :=
  { s with
    trace := s.trace || o.trace
    jobs := if 0 ≤ o.jobs then o.jobs.toNat else s.jobs
    verbosity := if 0 ≤ o.verbosity then o.verbosity else s.verbosity
    logFile := if o.logFile.isEmpty then s.logFile else o.logFile }

def findSettings (o : Options) : m (Except Settings.Error Settings) := do
  if o.config.isEmpty then Settings.find (← Host.workingDirectory) else Settings.load o.config

def buildInputs (log : Log) (settings : Settings) (tokens : Bool) (inputs : List Text) : m Nat := do
  if !settings.path.isEmpty then
    log.write (.own .info ("using configuration " ++ settings.path.quoted))
  match ← collect inputs with
  | .error e =>
    Host.report (e.message ++ [Byte.newline])
    return 1
  | .ok files =>
    let failures ← build log settings tokens files
    Host.report (Text.unlines (failures.map Failure.message))
    return if failures.isEmpty then 0 else 1

/-- Runs the command with its arguments and gives the exit status: 0 if all went well, 1 if something
failed, 2 if the arguments are not understood. -/
def run (arguments : List Text) : m Nat := do
  match Options.parse {} arguments with
  | .error e =>
    Host.report (e.message ++ Options.usage)
    return 2
  | .ok (options, rest) =>
    let inputs := if options.input.isEmpty then rest else options.input :: rest
    if inputs.isEmpty then
      Host.report Options.usage
      return 2
    match ← findSettings options with
    | .error e =>
      Host.report (e.message ++ [Byte.newline])
      return 1
    | .ok settings =>
      let settings := options.override settings
      let log : Log := ⟨settings.verbosity, settings.logFile⟩
      match ← log.start with
      | .error fault =>
        Host.report ("log file error: " ++ fault.message ++ [Byte.newline])
        return 1
      | .ok _ => buildInputs log settings options.tokens inputs

end Jack.Command
