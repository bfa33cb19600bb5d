import Tether.Toml.Scalar
import Tether.Toml.Text

/-!
# The syntax of settings files

A settings file is a list of statements: headers of tables, headers of items of arrays of tables,
and assignments. `statements?` reads them; what they mean together is for `Tether.Toml.Document`.
-/

namespace Tether.Toml

abbrev KeyPath := List String

inductive Value where
  | text (s : String)
  | scalar (x : Scalar)
  | array (items : List Value)
  | table (entries : List (KeyPath × Value))

inductive Statement where
  | table (key : KeyPath)
  | item (key : KeyPath)
  | assign (key : KeyPath) (value : Value)

/-! ## Characters and gaps -/

/-- Whether a character may stand in a settings file, line breaks apart. -/
def isPermitted (c : Char) : Bool := c == '\t' || c == '\n' || (0x20 ≤ c.toNat && c.toNat != 0x7f)

/-- Whether only permitted characters stand in a settings file; a return must be part of a line
break. -/
def allPermitted : List Char → Bool
  | [] => true
  | '\r' :: '\n' :: rest => allPermitted rest
  | c :: rest => isPermitted c && allPermitted rest

variable (cs : List Char)

def skipBlanks : List Char := cs.dropWhile isBlank

/-- What follows gaps and comments; the first argument tells whether a comment has begun. -/
def skipGaps : Bool → List Char → List Char
  | _, [] => []
  | true, c :: rest => skipGaps (!isBreak c) rest
  | false, c :: rest =>
    if isGap c then skipGaps false rest else if c == '#' then skipGaps true rest else c :: rest

def endLine? : Option (List Char) :=
  match skipBlanks cs with
  | [] => some []
  | '#' :: rest => some (rest.dropWhile (!isBreak ·))
  | c :: rest => if isBreak c then some rest else none

/-! ## Keys -/

/-- The characters of a key without quotes. -/
def isBare (c : Char) : Bool := c.isAlphanum || c == '_' || c == '-'

def keyPart? : Option (String × List Char) :=
  match cs with
  | '"' :: rest => quotedText? rest
  | c :: rest =>
    if c == Text.apostrophe then literalText? rest
    else if isBare c then some (String.ofList (cs.takeWhile isBare), cs.dropWhile isBare)
    else none
  | [] => none

def key? : Nat → List Char → Option (KeyPath × List Char)
  | 0, _ => none
  | n + 1, cs => do
    let (part, rest) ← keyPart? (skipBlanks cs)
    match skipBlanks rest with
    | '.' :: rest =>
      let (parts, rest) ← key? n rest
      return (part :: parts, rest)
    | rest => return ([part], rest)

/-! ## Values -/

mutual

def value? : Nat → List Char → Option (Value × List Char)
  | 0, _ => none
  | n + 1, cs =>
    match skipBlanks cs with
    | '[' :: rest => (items? n rest).map fun (items, rest) => (.array items, rest)
    | '\x7b' :: rest => (entries? n rest).map fun (entries, rest) => (.table entries, rest)
    | '"' :: '"' :: '"' :: rest => (quotedLines? rest).map fun (s, rest) => (.text s, rest)
    | '"' :: rest => (quotedText? rest).map fun (s, rest) => (.text s, rest)
    | c :: rest =>
      if c == Text.apostrophe then
        let lines := rest.take 2 == [c, c]
        (if lines then literalLines? (rest.drop 2) else literalText? rest).map fun (s, rest) =>
          (.text s, rest)
      else (scalar? (c :: rest)).map fun (x, rest) => (.scalar x, rest)
    | [] => none

/-- The items of an array up to its end. A comma may follow the last one. -/
def items? : Nat → List Char → Option (List Value × List Char)
  | 0, _ => none
  | n + 1, cs =>
    match skipGaps false cs with
    | ']' :: rest => some ([], rest)
    | cs => do
      let (v, rest) ← value? n cs
      match skipGaps false rest with
      | ',' :: rest =>
        let (vs, rest) ← items? n rest
        return (v :: vs, rest)
      | ']' :: rest => return ([v], rest)
      | _ => none

/-- The entries of a table in braces up to its end. A comma may follow the last one. -/
def entries? : Nat → List Char → Option (List (KeyPath × Value) × List Char)
  | 0, _ => none
  | n + 1, cs =>
    match skipGaps false cs with
    | '\x7d' :: rest => some ([], rest)
    | cs => do
      let (k, rest) ← key? n cs
      let (v, rest) ← value? n (← after? '=' rest)
      match skipGaps false rest with
      | ',' :: rest =>
        let (es, rest) ← entries? n rest
        return ((k, v) :: es, rest)
      | '\x7d' :: rest => return ([(k, v)], rest)
      | _ => none

end

/-! ## Statements -/

def statement? (n : Nat) (cs : List Char) : Option (Statement × List Char) :=
  match cs with
  | '[' :: '[' :: rest => do
    let (k, rest) ← key? n rest
    return (.item k, ← after? ']' (← after? ']' rest))
  | '[' :: rest => do
    let (k, rest) ← key? n rest
    return (.table k, ← after? ']' rest)
  | cs => do
    let (k, rest) ← key? n cs
    let (v, rest) ← value? n (← after? '=' rest)
    return (.assign k v, rest)

def statementsFrom? : Nat → List Char → Option (List Statement)
  | 0, _ => none
  | n + 1, cs =>
    match skipGaps false cs with
    | [] => some []
    | cs => do
      let (s, rest) ← statement? n cs
      let rest ← endLine? rest
      return s :: (← statementsFrom? n rest)

/-- The characters without the mark that may stand at the start of a file. -/
def dropMark : List Char → List Char
  | c :: rest => if c.toNat = 0xfeff then rest else c :: rest
  | [] => []

/-- The statements of a settings file; every one takes characters, so their number bounds all
nesting. -/
def statements? (text : String) : Option (List Statement) :=
  let cs := dropMark text.toList
  if allPermitted cs then statementsFrom? (cs.length + 2) cs else none

end Tether.Toml
