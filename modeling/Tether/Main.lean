import Tether.Number.Text
import Tether.Session.Inspector
import Tether.Session.Options

/-!
# The tool

Reads the command line and the settings file, and prints what the session gives. Failures go to the
error stream. The interactive mode shows the inspector after every line of input; a line names a
key, or is typed as it stands.
-/

namespace Tether.Tool

def report (message : String) : IO UInt32 := do
  IO.eprintln ("Error: " ++ message)
  return 1

def contentsOf (path : String) : IO (Option String) := do
  try
    return some (← IO.FS.readFile path)
  catch _ => return none

def collectionTime (s : Session) : IO Nat := do
  let start ← IO.monoNanosNow
  let stop ← match s.collect with
    | (.ok _, _) => IO.monoNanosNow
    | (.error _, _) => IO.monoNanosNow
  return stop - start

partial def interact (backend : String) (m : Inspector) (s : Session) : IO Unit := do
  if let some screen := m.view s then IO.println screen
  let input ← (← IO.getStdin).getLine
  if input.isEmpty then return
  let key := Key.ofName (String.ofList (input.toList.filter fun c => c != '\n' && c != '\r'))
  if let some (false, m, s) := m.press backend (Text.duration (← collectionTime s)) s key then
    interact backend m s

def runWith (o : Options) (settings : Settings) : IO UInt32 := do
  let backend := settings.buffers.backend
  match openTool settings with
  | .error e => report (Inspector.errorText e)
  | .ok s =>
    if o.describe then
      IO.print s.description.text
      return 0
    else if o.interactive then
      if let some (m, s) := Inspector.settle {} backend "" s .refresh then interact backend m s
      return 0
    else
      let t := s.exercise o.widgets
      let t := t.finish backend (Text.duration (← collectionTime t.session))
      IO.print t.output
      match t.stop with
      | some e => report (Inspector.errorText e)
      | none => return 0

end Tether.Tool

open Tether Tether.Tool

/-- Runs the tool with the words of its command line; the result is the exit code. -/
def main (args : List String) : IO UInt32 := do
  match Options.parse args with
  | .error .help =>
    IO.eprint Options.usage
    return 0
  | .error (.bad message) =>
    IO.eprintln message
    IO.eprint Options.usage
    return 2
  | .ok o =>
    let contents ← if o.flags.path = "" then pure none else contentsOf o.flags.path
    match Settings.resolve o.flags contents with
    | .error e => report e.message
    | .ok settings =>
      if o.interactive && !(← (← IO.getStdout).isTty) then
        report "interactive mode needs a terminal"
      else runWith o settings
