import Tether.Toml.Syntax

/-!
# What settings files mean

The statements of a settings file build one tree of tables. A table can be named before it is
defined, as part of a longer key; it is then implied, and may still be defined once. Everything else
is defined at most once.
-/

namespace Tether.Toml

/-- What a value is to those who read the tree; arrays are not looked into. -/
inductive Leaf where
  | text (s : String)
  | scalar (x : Scalar)
  | array

/-- What stands under a key. -/
inductive Node where
  | leaf (x : Leaf)
  | table (entries : List (String × Node))
  | tables (closed : List (List (String × Node))) (last : List (String × Node))

abbrev Entries := List (String × Node)

namespace Entries

def put (k : String) (n : Node) : Entries → Entries
  | [] => [(k, n)]
  | (k', n') :: rest => if k' = k then (k, n) :: rest else (k', n') :: put k n rest

def at? (es : Entries) : KeyPath → Option Entries
  | [] => some es
  | k :: rest =>
    match es.lookup k with
    | some (.table es) => at? es rest
    | some (.tables _ es) => at? es rest
    | _ => none

def modifyAt? (f : Entries → Entries) (es : Entries) : KeyPath → Option Entries
  | [] => some (f es)
  | k :: rest =>
    match es.lookup k with
    | some (.table inner) => do return put k (.table (← modifyAt? f inner rest)) es
    | some (.tables closed last) => do return put k (.tables closed (← modifyAt? f last rest)) es
    | _ => none

end Entries

/-- A tree under construction. -/
structure Document where
  root : Entries := []
  implied : List KeyPath := []
  arrays : List KeyPath := []
  keys : List KeyPath := []
  context : KeyPath := []

namespace Document

variable (d : Document) (path : KeyPath)

def imply : Document :=
  if d.implied.contains path then d else { d with implied := path :: d.implied }

def define : Document := { d with implied := d.implied.filter (· != path) }

def noteArray (isArray : Bool) : Document :=
  let others := d.arrays.filter (· != path)
  { d with arrays := if isArray then path :: others else others }

variable (k : String)

/-- The path under which the sort of a value is noted: without the last part if that is empty. -/
def notePath : KeyPath :=
  if k != "" then d.context ++ [k] else if d.context.isEmpty then [""] else d.context

def putAt? (n : Node) : Option Document := do
  return { d with root := ← d.root.modifyAt? (Entries.put k n) path }

def set? (n : Node) : Option Document := do
  let es ← d.root.at? d.context
  let path := d.context ++ [k]
  if (es.lookup k).isNone then d.putAt? d.context k n
  else if !d.implied.contains path then none
  else if d.arrays.contains path then (d.define path).putAt? d.context k n
  else return d.define path

def descend? (d : Document) (done : KeyPath) : KeyPath → Option Document
  | [] => some { d with context := done }
  | k :: rest => do
    match (← d.root.at? done).lookup k with
    | none =>
      let d ← (d.imply (done ++ [k])).putAt? done k (.table [])
      d.descend? (done ++ [k]) rest
    | some (.leaf _) => none
    | some _ => d.descend? (done ++ [k]) rest

def append? (k : String) : Option Document := do
  match (← d.root.at? d.context).lookup k with
  | none => d.putAt? d.context k (.tables [] [])
  | some (.tables closed last) => d.putAt? d.context k (.tables (closed ++ [last]) [])
  | some _ => none

def open? (key : KeyPath) (isItem : Bool) : Option Document := do
  let k ← key.getLast?
  let d ← d.descend? [] key.dropLast
  let d ← if isItem then d.append? k else d.set? k (.table [])
  return { d with context := d.context ++ [k] }

/-- Makes the table that an assignment goes to current, notes the key, and gives its last part. -/
def begin? (key : KeyPath) : Option (Document × String) := do
  let k ← key.getLast?
  let d ← key.dropLast.foldlM (fun (d : Document) part =>
    let path := d.context ++ [part]
    (d.imply path).open? path false) d
  return ({ d with keys := d.keys ++ [d.context ++ [k]] }, k)

mutual

def leaves : Value → List KeyPath
  | .table entries => leavesOfAll entries
  | _ => [[]]

/-- The keys inside a table in braces under which something other than a table is written. -/
def leavesOfAll : List (KeyPath × Value) → List KeyPath
  | [] => []
  | (key, v) :: rest => (leaves v).map (key ++ ·) ++ leavesOfAll rest

end

/-- Whether no key of a table in braces leads through something written before that is no table. -/
def allPass (written : List KeyPath) : List (KeyPath × Value) → Bool
  | [] => true
  | (key, v) :: rest =>
    !written.any (·.isPrefixOf key.dropLast) && allPass ((leaves v).map (key ++ ·) ++ written) rest

def isArray : Value → Bool
  | .array _ => true
  | _ => false

mutual

/-- What a value under a key of the current table builds, and the node that stands for it. -/
def build? (d : Document) (k : String) (inArray : Bool) : Value → Option (Document × Node)
  | .text s => some (d, .leaf (.text s))
  | .scalar x => some (d, .leaf (.scalar x))
  | .array items => do
    let d ← buildItems? (d.noteArray (d.notePath k) true) k items
    return (d, .leaf .array)
  | .table entries => do
    guard (allPass [] entries)
    let outer := d.context
    let path := outer ++ [k]
    let d ← (d.imply path).open? path inArray
    let d ← assignAll? d entries
    return ({ d with context := outer }, .table [])

def buildItems? (d : Document) (k : String) : List Value → Option Document
  | [] => some d
  | v :: rest => do
    let (d, _) ← build? d k true v
    buildItems? d k rest

def assignAll? (d : Document) : List (KeyPath × Value) → Option Document
  | [] => some d
  | (key, v) :: rest => do
    let outer := d.context
    let (d, k) ← d.begin? key
    let (d, n) ← build? d k false v
    let d ← d.set? k n
    let d := d.noteArray (d.notePath k) (isArray v)
    assignAll? { d with context := outer } rest

end

def take? (d : Document) : Statement → Option Document
  | .table key => do
    let d ← d.open? key false
    return { d.noteArray (d.notePath "") false with keys := d.keys ++ [key] }
  | .item key => do
    let d ← d.open? key true
    return { d.noteArray (d.notePath "") false with keys := d.keys ++ [key] }
  | .assign key v => d.assignAll? [(key, v)]

def ofStatements? (ss : List Statement) : Option Document := ss.foldlM take? {}

def ofText? (text : String) : Option Document := (statements? text).bind ofStatements?

end Document

/-! ## Keys as text -/

def escapeKeyChar (c : Char) : List Char :=
  if c = '"' then ['\\', '"']
  else if c = '\\' then ['\\', '\\']
  else if c = Char.ofNat 8 then ['\\', 'b']
  else if c = '\t' then ['\\', 't']
  else if c = '\n' then ['\\', 'n']
  else if c = Char.ofNat 12 then ['\\', 'f']
  else if c = '\r' then ['\\', 'r']
  else if c.toNat < 0x20 ∨ c.toNat = 0x7f then '\\' :: 'u' :: Text.hexDigits 4 c.toNat
  else [c]

def keyPartText (s : String) : String :=
  if s ≠ "" ∧ s.toList.all isBare then s
  else String.ofList ('"' :: s.toList.flatMap escapeKeyChar ++ ['"'])

def keyText (key : KeyPath) : String := ".".intercalate (key.map keyPartText)

end Tether.Toml
