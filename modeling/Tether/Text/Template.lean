import Tether.Number.Text
import Tether.Text.Quoted

/-!
# Message templates

A template is a text with directives `%d`, `%s`, `%q`, `%v` and `%%`, filled in by a list of
arguments. An argument that does not suit its directive, a missing one and one too many are all
reported in the text itself. Flags, a width and a precision may stand before the letter of a
directive; they are read over.
-/

namespace Tether.Text

inductive Argument where
  | null
  | bool (b : Bool)
  | text (s : String)
  | int (i : Int)
  | number (x : Double)
deriving DecidableEq

namespace Argument

def plain : Argument → String
  | null => "<nil>"
  | bool b => if b then "true" else "false"
  | text s => s
  | int i => toString i
  | number x => x.text

def described : Argument → String
  | null => "<nil>"
  | bool b => "bool=" ++ (bool b).plain
  | text s => "string=" ++ s
  | int i => "int64=" ++ (int i).plain
  | number x => "float64=" ++ x.text

def unsuited (verb : Char) (a : Argument) : String :=
  "%!" ++ verb.toString ++ "(" ++ a.described ++ ")"

def charOfCode (i : Int) : Char :=
  if 0 ≤ i ∧ i.toNat.isValidChar then Char.ofNat i.toNat else Char.ofNat 0xfffd

def format (verb : Char) (a : Argument) : String :=
  match verb, a with
  | 'v', a => a.plain
  | 's', text s => s
  | 'q', text s => quote s
  | 'd', int i => toString i
  | 'q', int i => quoteChar (charOfCode i)
  | verb, a => a.unsuited verb

end Argument

def surplus : List Argument → String
  | [] => ""
  | args => "%!(EXTRA " ++ ", ".intercalate (args.map Argument.described) ++ ")"

/-- Where in a template a character stands. -/
inductive Position where
  | text
  | flags
  | width
  | precision
deriving DecidableEq

/-- The position after a character that belongs to the flags, the width or the precision of a
directive; none if the character is the letter of the directive. -/
def Position.next? (p : Position) (c : Char) : Option Position :=
  match p, c with
  | flags, '+' | flags, '-' | flags, '#' | flags, ' ' | flags, '0' => some flags
  | flags, '.' | width, '.' => some precision
  | flags, c | width, c => if c.isDigit then some width else none
  | precision, c => if c.isDigit then some precision else none
  | text, _ => none

/-- The template from a position on with its directives filled in, from the first argument on. -/
def fillFrom : Position → List Char → List Argument → String
  | .text, [], args => surplus args
  | .text, '%' :: rest, args => fillFrom .flags rest args
  | .text, c :: rest, args => c.toString ++ fillFrom .text rest args
  | _, [], args => "%!(NOVERB)" ++ surplus args
  | p, c :: rest, args =>
    match p.next? c, c, args with
    | some p, _, args => fillFrom p rest args
    | none, '%', args => "%" ++ fillFrom .text rest args
    | none, verb, [] => "%!" ++ verb.toString ++ "(MISSING)" ++ fillFrom .text rest []
    | none, verb, a :: args => a.format verb ++ fillFrom .text rest args

def fill (template : String) (args : List Argument) : String := fillFrom .text template.toList args

end Tether.Text
