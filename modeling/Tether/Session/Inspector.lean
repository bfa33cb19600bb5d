import Tether.Session.Scenario
import Tether.Terminal.Block

/-!
# The inspector

The inspector is a form over a session: one picks an entry, writes its arguments and sees the
result. It is a machine that takes messages; a message changes its state and may issue a command. A
command is carried out at some later time, on the session and on the state that the inspector has
then, and its outcome comes back as a message. Nothing comes of a message, or of showing the screen, where
an index leads nowhere.
-/

namespace Tether

/-! ## State -/

inductive Screen where
  | select
  | input
  | result
deriving DecidableEq

structure InputField where
  name : String
  text : String := ""
  focused : Bool := false

structure Inspector where
  screen : Screen := .select
  selected : Nat := 0
  focus : Nat := 0
  inputs : List InputField := []
  result : String := ""
  stats : String := ""
  error : Option Stop := none

inductive Key where
  | enter | tab | escape | up | down | interrupt | backspace
  | text (s : String)
deriving DecidableEq

def Key.ofName : String → Key
  | "enter" => .enter
  | "tab" => .tab
  | "esc" => .escape
  | "up" => .up
  | "down" => .down
  | "ctrl+c" => .interrupt
  | "backspace" => .backspace
  | s => .text s

inductive Command where
  | call
  | collect
  | drop
  | refresh
  | quit
deriving DecidableEq

inductive Message where
  | key (k : Key)
  | called (r : Except Stop String)
  | sampled (r : Except Stop String)

/-! ## Fields -/

namespace InputField

/-- The character that a field takes for a typed one: blanks for line breaks and tabs, nothing for
controls. -/
def clean (c : Char) : Option Char :=
  let n := c.toNat
  if c = '\n' ∨ c = '\r' ∨ c = '\t' then some ' '
  else if n < 0x20 ∨ (0x7f ≤ n ∧ n ≤ 0x9f) ∨ n = 0xfffd then none
  else some c

def press (f : InputField) (k : Key) : InputField :=
  if !f.focused then f
  else
    match k with
    | .text s => { f with text := f.text ++ String.ofList (s.toList.filterMap clean) }
    | .backspace => { f with text := String.ofList f.text.toList.dropLast }
    | _ => f

end InputField

namespace Inspector

def fieldsOf (e : Entry) : List InputField :=
  e.params.zipIdx.map fun ((name, _), i) => { name, focused := i == 0 }

variable (m : Inspector)

def focusOn (i : Nat) : Option Inspector := do
  let old ← m.inputs[m.focus]?
  let blurred := m.inputs.set m.focus { old with focused := false }
  let new ← blurred[i]?
  return { m with focus := i, inputs := blurred.set i { new with focused := true } }

def type (k : Key) : Inspector :=
  if m.screen = .input then { m with inputs := m.inputs.map (·.press k) } else m

def leaveResult : Inspector :=
  { m with screen := .select, result := "", error := none }

/-! ## Messages -/

def prepare (e : Entry) : Inspector := { m with inputs := fieldsOf e, focus := 0 }

variable (entries : List Entry)

def confirm : Option (Inspector × Option Command) :=
  match m.screen with
  | .select => do
    let m := m.prepare (← entries[m.selected]?)
    return if m.inputs.isEmpty then (m, some .call) else ({ m with screen := .input }, none)
  | .input => some (m, some .call)
  | .result => some (m.leaveResult, none)

def goBack : Inspector :=
  match m.screen with
  | .select => m
  | .input => { m with screen := .select, inputs := [] }
  | .result => m.leaveResult

def nextField : Option Inspector :=
  if m.screen = .input ∧ 1 < m.inputs.length then m.focusOn ((m.focus + 1) % m.inputs.length) else some m

def moveUp : Inspector :=
  if m.screen = .select then { m with selected := m.selected - 1 } else m

def moveDown : Inspector :=
  if m.screen = .select ∧ m.selected + 1 < entries.length then
    { m with selected := m.selected + 1 }
  else m

def shortcut (s : String) : Inspector × Option Command :=
  match s, m.screen with
  | "q", .select | "q", .result => (m, some .quit)
  | "k", _ => (m.moveUp, none)
  | "j", _ => (m.moveDown entries, none)
  | "g", .select => (m, some .collect)
  | "d", .select => (m, some .drop)
  | _, _ => (m, none)

def handleKey : Key → Option (Inspector × Option Command)
  | .interrupt => some (m, some .quit)
  | .up => some (m.moveUp, none)
  | .down => some (m.moveDown entries, none)
  | .enter => m.confirm entries
  | .tab => m.nextField.map (·, none)
  | .escape => some (m.goBack, none)
  | .backspace => some (m, none)
  | .text s => some (m.shortcut entries s)

/-- The state and the command after a message. The fields see a key that issues no command. -/
def update : Message → Option (Inspector × Option Command)
  | .key k =>
    (m.handleKey entries k).map fun
      | (m, none) => (m.type k, none)
      | r => r
  | .called (.ok text) =>
    some ({ m with result := text, error := none, screen := .result }, some .refresh)
  | .called (.error e) =>
    some ({ m with result := "", error := some e, screen := .result }, some .refresh)
  | .sampled (.ok text) => some ({ m with stats := text }, none)
  | .sampled (.error e) => some ({ m with error := some e }, none)

/-! ## Commands -/

/-- What a call would be of: the selected entry, and the texts of the fields. -/
def request : Option (Entry × List String) :=
  (entries[m.selected]?).map (·, m.inputs.map (·.text))

variable (backend duration : String) (s : Session)

/-- Carries out a command on the session and the state of the moment; quitting tells nothing. -/
def execute : Command → Option Message × Session
  | .call =>
    match m.request s.entries with
    | some (e, args) =>
      let (r, s) := s.call e args
      (some (.called r), s)
    | none => (some (.called (.error (.crash .runtime))), s)
  | .collect =>
    let (r, s) := s.collect
    (some (.called (r.map (·.text duration))), s)
  | .drop =>
    let (r, s) := s.dropWidgets
    (some (.called (r.map fun _ => "widgets dropped; press g to collect")), s)
  | .refresh =>
    let (r, s) := s.snapshot
    (some (.sampled (r.map (·.text backend))), s)
  | .quit => (none, s)

def obey (c : Command) : Option (Inspector × Option Command × Session) :=
  match m.execute backend duration s c with
  | (some msg, s) => (m.update s.entries msg).map fun (m, next) => (m, next, s)
  | (none, s) => some (m, none, s)

def settle (c : Command) : Option (Inspector × Session) := do
  match ← m.obey backend duration s c with
  | (m, some next, s) =>
    let (m, _, s) ← m.obey backend duration s next
    return (m, s)
  | (m, none, s) => return (m, s)

def press (k : Key) : Option (Bool × Inspector × Session) := do
  match ← m.update s.entries (.key k) with
  | (m, some .quit) => return (true, m, s)
  | (m, some c) => return (false, ← m.settle backend duration s c)
  | (m, none) => return (false, m, s)

def pressAll (keys : List Key) (r : Bool × Inspector × Session) : Option (Bool × Inspector × Session) :=
  keys.foldlM (fun (_, m, s) k => m.press backend duration s k) r

/-! ## The screen -/

def errorText : Stop → String
  | .fault f => f.message
  | .crash _ => "crash"

def listing (m : Inspector) (entries : List Entry) : String :=
  String.join (entries.zipIdx.map fun (e, i) =>
    line ((if i = m.selected then "> " else "  ") ++ e.text))

def form (m : Inspector) (e : Entry) : Option (List String) :=
  m.inputs.zipIdx.mapM fun (f, i) =>
    (e.params[i]?).map fun (_, type) => line (f.name ++ ": " ++ f.text ++ " " ++ type.hint)

def body (m : Inspector) (entries : List Entry) : Option String :=
  match m.screen with
  | .select =>
    some ("Select a binding to call:\n\n" ++ m.listing entries ++
      "\n↑/↓ select • enter call • d drop widgets • g collect • q quit")
  | .input => do
    let e ← entries[m.selected]?
    return "Calling " ++ e.label ++ "\n\n" ++ String.join (← m.form e) ++ "\ntab next field • enter call • esc back"
  | .result =>
    let shown := match m.error with
      | some e => "Error: " ++ errorText e
      | none => m.result
    some ("Result:\n\n" ++ Terminal.block shown ++ "\n\nenter continue • q quit")

def view (m : Inspector) (s : Session) : Option String :=
  match m.error, m.screen with
  | some e, .select | some e, .input =>
    some (Terminal.block ("Error: " ++ errorText e ++ "\n\nPress q to quit."))
  | _, _ => do
    return " Heap Bridge  " ++ s.description.name ++ "\n\n" ++ (← m.body s.entries) ++
      (if m.stats = "" then "" else "\n\n" ++ m.stats)

end Inspector

end Tether
