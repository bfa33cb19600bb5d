import Tether.Session.Argument
import Tether.Settings.Reader

/-!
# The command line

The options of the tool. An option is written with one or two dashes; its value follows after an
equals sign or as the next word. Truth values need no word of their own. Options end at the first
word that is none.
-/

namespace Tether

structure Options where
  flags : Settings.Flags := {}
  widgets : Int := 3
  describe : Bool := false
  interactive : Bool := false

inductive OptionsFailure where
  | help
  | bad (message : String)
deriving DecidableEq

namespace Options

def usage : String :=
  "Usage of bridge:\n" ++
  "  -backend string\n    \tBuffer storage backend (go|wasm)\n" ++
  "  -config string\n    \tPath to TOML config file\n" ++
  "  -describe\n    \tPrint the geom bindings and exit\n" ++
  "  -i\tInteractive mode with TUI\n" ++
  "  -log-level string\n    \tLog level (debug|info|warn|error)\n" ++
  "  -pages uint\n    \tLinear memory pages for the wasm backend\n" ++
  "  -widgets int\n    \tWidgets created by the scenario (default 3)\n"

def integerOf? (text : String) : Option Int :=
  match text.toList with
  | '-' :: ds => (decimalOf? (String.ofList ds)).map fun n => -(n : Int)
  | '+' :: ds => (decimalOf? (String.ofList ds)).map Int.ofNat
  | ds => (decimalOf? (String.ofList ds)).map Int.ofNat

def badValue (name value : String) : OptionsFailure :=
  .bad ("invalid value " ++ Text.quote value ++ " for flag -" ++ name ++ ": parse error")

def setTruth (o : Options) (name : String) (b : Bool) : Option Options :=
  match name with
  | "describe" => some { o with describe := b }
  | "i" => some { o with interactive := b }
  | _ => none

def setValue (o : Options) (name value : String) : Except OptionsFailure Options :=
  match name with
  | "config" => .ok { o with flags := { o.flags with path := value } }
  | "backend" => .ok { o with flags := { o.flags with backend := value } }
  | "log-level" => .ok { o with flags := { o.flags with level := value } }
  | "pages" =>
    match decimalOf? value with
    | some n =>
      if n < 2 ^ 64 then .ok { o with flags := { o.flags with pages := n.toUInt64 } }
      else .error (badValue name value)
    | none => .error (badValue name value)
  | "widgets" =>
    match integerOf? value with
    | some n => .ok { o with widgets := n }
    | none => .error (badValue name value)
  | "h" | "help" => .error .help
  | _ => .error (.bad ("flag provided but not defined: -" ++ name))

def valued : List String := ["config", "backend", "log-level", "pages", "widgets"]

/-- The name of an option and the value after its equals sign; nothing for a word that is no option.
-/
def split? (word : String) : Option (String × Option String) :=
  let name? := match word.toList with
    | '-' :: '-' :: name => some name
    | '-' :: name => some name
    | _ => none
  match name? with
  | some (c :: name) =>
    let name := c :: name
    let key := String.ofList (name.takeWhile (· != '='))
    match name.dropWhile (· != '=') with
    | _ :: value => some (key, some (String.ofList value))
    | [] => some (key, none)
  | _ => none

def parseOver (o : Options) : List String → Except OptionsFailure Options
  | [] => .ok o
  | word :: rest =>
    match split? word with
    | none => .ok o
    | some (name, value) =>
      match o.setTruth name true, value with
      | some set, none => parseOver set rest
      | some _, some v =>
        match truthOf? v with
        | some b => parseOver ((o.setTruth name b).getD o) rest
        | none =>
          .error (.bad ("invalid boolean value " ++ Text.quote v ++ " for -" ++ name ++ ": parse error"))
      | none, some v => do parseOver (← o.setValue name v) rest
      | none, none =>
        if valued.contains name then
          match rest with
          | v :: rest => do parseOver (← o.setValue name v) rest
          | [] => .error (.bad ("flag needs an argument: -" ++ name))
        else do parseOver (← o.setValue name "") rest

def parse (words : List String) : Except OptionsFailure Options := parseOver {} words

end Options

def SettingsFailure.message : SettingsFailure → String
  | .malformed => "toml: malformed document"
  | .malformedFile path =>
    (Fault.wrap .config .invalidInput (some (.plain "toml: malformed document")) ("parse " ++ path)).message
  | .fault f => f.message

end Tether
