import Tether.Settings.Basic
import Tether.Toml.Document

/-!
# Settings from files and flags

Settings are read over the usual ones: a file changes what it names, then flags change what they
name. Keys that no setting has are refused, and so are settings that `Settings.check` refuses.
-/

namespace Tether

open Toml (Document Entries KeyPath Leaf Node Scalar)

inductive SettingsFailure where
  | malformed
  | malformedFile (path : String)
  | fault (f : Fault)

/-! ## Values -/

def integerSetting? : Node → Option Int
  | .leaf (.scalar (.integer i)) => some i
  | _ => none

def wordSetting? (n : Node) : Option Nat := do
  let i ← integerSetting? n
  if 0 ≤ i ∧ i < 2 ^ 32 then some i.toNat else none

def textSetting? : Node → Option String
  | .leaf (.text s) => some s
  | _ => none

def truthSetting? : Node → Option Bool
  | .leaf (.scalar (.boolean b)) => some b
  | _ => none

/-! ## Sections -/

structure SettingField where
  name : String
  set? : Settings → Node → Option Settings

def settingSections : List (String × List SettingField) :=
  [("log", [⟨"level", fun s n => do return { s with log := { s.log with level := ← textSetting? n } }⟩,
        ⟨"development", fun s n => do
          return { s with log := { s.log with development := ← truthSetting? n } }⟩]),
    ("buffers", [⟨"backend", fun s n => do
          return { s with buffers := { s.buffers with backend := ← textSetting? n } }⟩,
        ⟨"memory-pages", fun s n => do
          return { s with buffers := { s.buffers with memoryPages := ← wordSetting? n } }⟩]),
    ("heap", [⟨"stack-limit", fun s n => do
          return { s with heap := { s.heap with stackLimit := ← integerSetting? n } }⟩,
        ⟨"call-depth", fun s n => do
          return { s with heap := { s.heap with callDepth := ← integerSetting? n } }⟩,
        ⟨"gc-threshold", fun s n => do
          return { s with heap := { s.heap with gcThreshold := ← integerSetting? n } }⟩])]

def findNamed {α : Type} (name : α → String) (xs : List α) (k : String) : Option α :=
  (xs.find? fun x => name x == k).or (xs.find? fun x => Text.equalFold (name x) k)

structure SettingsReading where
  settings : Settings := {}
  known : List KeyPath := []

def readSection? (title : String) (fields : List SettingField) : Entries → SettingsReading → Option SettingsReading
  | [], r => some r
  | (k, n) :: rest, r =>
    match findNamed SettingField.name fields k with
    | none => readSection? title fields rest r
    | some f => do
      let settings ← f.set? r.settings n
      readSection? title fields rest ⟨settings, [title, k] :: r.known⟩

def readSections? : Entries → SettingsReading → Option SettingsReading
  | [], r => some r
  | (k, n) :: rest, r =>
    match findNamed (·.1) settingSections k, n with
    | none, _ => readSections? rest r
    | some (_, fields), .table es => do
      let r ← readSection? k fields es { r with known := [k] :: r.known }
      readSections? rest r
    | some _, _ => none

/-! ## Files and flags -/

/-- Why nothing can be read under a path at which there is no file. A path of dots only is a
directory; names have at most 255 bytes, and paths less than 4096. -/
def unreadable (path : String) : String :=
  let isDots (part : List Char) : Bool := part == [] || part == ['.'] || part == ['.', '.']
  let named := (path.toList.splitOn '/').dropWhile isDots
  let opening (cause : String) : String := "open " ++ path ++ ": " ++ cause
  if path.toList.contains (Char.ofNat 0) then opening "invalid argument"
  else if 4096 ≤ path.utf8ByteSize then opening "file name too long"
  else
    match named with
    | [] =>
      if path = "" then opening "no such file or directory"
      else "read " ++ path ++ ": is a directory"
    | name :: _ =>
      if 255 < (String.ofList name).utf8ByteSize then opening "file name too long"
      else opening "no such file or directory"

namespace Settings

def parse (text : String) : Except SettingsFailure Settings :=
  match Document.ofText? text with
  | none => .error .malformed
  | some d =>
    match readSections? d.root {} with
    | none => .error .malformed
    | some r =>
      match d.keys.filter fun k => !r.known.contains k with
      | [] => (r.settings.check.map fun _ => r.settings).mapError SettingsFailure.fault
      | unknown =>
        .error (.fault (.invalidInput .config ("unknown keys: " ++ ", ".intercalate (unknown.map Toml.keyText))))

def load (path : String) (contents : Option String) : Except SettingsFailure Settings :=
  match contents with
  | none =>
    .error (.fault (.wrap .config .notFound (some (.plain (unreadable path))) ("read " ++ path)))
  | some text =>
    (parse text).mapError fun
      | .fault f => .fault (.wrap .config .invalidInput (some f) ("parse " ++ path))
      | _ => .malformedFile path

/-- What flags say about settings; empty texts and zero say nothing. -/
structure Flags where
  path : String := ""
  backend : String := ""
  pages : UInt64 := 0
  level : String := ""

def withFlags (s : Settings) (f : Flags) : Settings :=
  { s with
    buffers :=
      { backend := if f.backend = "" then s.buffers.backend else f.backend
        memoryPages := if f.pages = 0 then s.buffers.memoryPages else f.pages.toUInt32.toNat }
    log := { s.log with level := if f.level = "" then s.log.level else f.level } }

def resolve (f : Flags) (contents : Option String) : Except SettingsFailure Settings := do
  let base ← if f.path = "" then .ok {} else load f.path contents
  let s := base.withFlags f
  (s.check.map fun _ => s).mapError SettingsFailure.fault

end Settings

end Tether
