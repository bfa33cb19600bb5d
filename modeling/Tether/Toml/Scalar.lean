import Tether.Number.Reader

/-!
# Numbers and times in settings files
-/

namespace Tether.Toml

inductive Scalar where
  | integer (i : Int)
  | float (x : Double)
  | boolean (b : Bool)
  | moment (text : String)

/-! ## Numbers -/

/-- Whether every underscore follows a digit and the last character is a digit. -/
def underscoresFit (cs : List Char) : Bool :=
  let step (state : Bool × Bool) (c : Char) : Bool × Bool :=
    (state.1 && (c != '_' || state.2), (Text.hexValue? c).isSome)
  let (fit, last) := cs.foldl step (true, false)
  fit && last

def hasLeadingZero : List Char → Bool
  | '0' :: c :: _ => !(c == 'b' || c == 'o' || c == 'x')
  | '+' :: '0' :: _ :: _ | '-' :: '0' :: _ :: _ => true
  | _ => false

def digitsValue (base : Nat) (cs : List Char) : Nat :=
  cs.foldl (fun n c => base * n + (Text.hexValue? c).getD 0) 0

def integerValue : List Char → Int
  | '0' :: 'x' :: ds => digitsValue 16 ds
  | '0' :: 'o' :: ds => digitsValue 8 ds
  | '0' :: 'b' :: ds => digitsValue 2 ds
  | '-' :: ds => -(digitsValue 10 ds : Int)
  | '+' :: ds => digitsValue 10 ds
  | ds => digitsValue 10 ds

variable (word : List Char)

def integer? : Option Scalar :=
  if !underscoresFit word || hasLeadingZero word then none
  else
    let i := integerValue (word.filter (· != '_'))
    if -(2 ^ 63) ≤ i ∧ i < 2 ^ 63 then some (.integer i) else none

def pointsFit : List Char → Bool
  | [] => true
  | '.' :: rest => (rest.head?.any Char.isDigit) && pointsFit rest
  | _ :: rest => pointsFit rest

def dividesFloat (c : Char) : Bool := c == '.' || c == 'e' || c == 'E'

def floatParts : List (List Char) :=
  (word.splitBy fun a b => !dividesFloat a && !dividesFloat b).filter fun part =>
    !part.any dividesFloat

def float? : Option Scalar :=
  let parts := floatParts word
  if !parts.all underscoresFit || (parts.head?.any hasLeadingZero) || !pointsFit word then none
  else (Double.ofText? (String.ofList (word.filter (· != '_')))).map Scalar.float

/-! ## Moments -/

def twoDigits? : List Char → Option (Nat × List Char)
  | a :: b :: rest => if a.isDigit && b.isDigit then some (digitsValue 10 [a, b], rest) else none
  | _ => none

def twoDigitsBelow? (bound : Nat) (cs : List Char) : Option (List Char) := do
  let (n, rest) ← twoDigits? cs
  if n < bound then some rest else none

def after? (c : Char) : List Char → Option (List Char)
  | d :: rest => if d == c then some rest else none
  | [] => none

def isLeapYear (y : Nat) : Bool := y % 4 == 0 && (y % 100 != 0 || y % 400 == 0)

def daysOf (year month : Nat) : Nat :=
  if month = 2 then (if isLeapYear year then 29 else 28) else if month ∈ [4, 6, 9, 11] then 30 else 31

def date? (cs : List Char) : Option (List Char) := do
  let (century, rest) ← twoDigits? cs
  let (yearOfCentury, rest) ← twoDigits? rest
  let (month, rest) ← twoDigits? (← after? '-' rest)
  let (day, rest) ← twoDigits? (← after? '-' rest)
  let year := 100 * century + yearOfCentury
  if 1 ≤ month ∧ month ≤ 12 ∧ 1 ≤ day ∧ day ≤ daysOf year month then some rest else none

def dropFraction : List Char → List Char
  | '.' :: c :: rest => if c.isDigit then rest.dropWhile Char.isDigit else '.' :: c :: rest
  | cs => cs

variable (cs : List Char)

def timeOfDay? : Option (List Char) := do
  let rest ← twoDigitsBelow? 24 cs
  let rest ← twoDigitsBelow? 60 (← after? ':' rest)
  match rest with
  | ':' :: rest => (twoDigitsBelow? 60 rest).map dropFraction
  | rest => some rest

def zone? : List Char → Option (List Char)
  | 'Z' :: rest => some rest
  | c :: rest =>
    if c == '+' || c == '-' then do
      let rest ← twoDigitsBelow? 25 rest
      twoDigitsBelow? 61 (← after? ':' rest)
    else none
  | [] => none

def isMoment : Bool :=
  match date? cs with
  | some [] => true
  | some ('T' :: rest) =>
    match timeOfDay? rest with
    | some [] => true
    | some rest => zone? rest == some []
    | none => false
  | some _ => false
  | none => timeOfDay? cs == some []

/-- The moment that a word writes; small letters and a blank may stand for the marks of its parts.
-/
def moment? : Option Scalar :=
  let marked := word.map fun c => if c == 't' || c == ' ' then 'T' else if c == 'z' then 'Z' else c
  if isMoment marked then some (.moment (String.ofList marked)) else none

/-! ## Words -/

variable (c : Char)

def inMoment : Bool := c.isDigit || "-:Tt .Zz+".toList.contains c

def inFloat : Bool := c.isDigit || "_.-+eE".toList.contains c

def inDecimal : Bool := c.isDigit || c == '_'

variable (sign : List Char)

/-- The number after its sign: an integer, or a float if a mark of one follows its first digits. -/
def decimal? (cs : List Char) : Option (Scalar × List Char) :=
  let whole := cs.takeWhile inDecimal
  let rest := cs.dropWhile inDecimal
  if rest.head?.any dividesFloat then
    (float? (sign ++ whole ++ rest.takeWhile inFloat)).map (·, rest.dropWhile inFloat)
  else (integer? (sign ++ whole)).map (·, rest)

def based? (mark : Char) (isDigit : Char → Bool) (cs : List Char) : Option (Scalar × List Char) :=
  let inWord (c : Char) : Bool := isDigit c || c == '_'
  if cs.head?.any isDigit then
    (integer? ('0' :: mark :: cs.takeWhile inWord)).map (·, cs.dropWhile inWord)
  else none

def number? : Option (Scalar × List Char) :=
  match cs with
  | '0' :: 'x' :: rest => based? 'x' (fun c => (Text.hexValue? c).isSome) rest
  | '0' :: 'o' :: rest => based? 'o' (fun c => decide ('0' ≤ c ∧ c ≤ '7')) rest
  | '0' :: 'b' :: rest => based? 'b' (fun c => c == '0' || c == '1') rest
  | cs =>
    if (cs.dropWhile Char.isDigit).head?.any (fun c => c == '-' || c == ':') then
      let word := cs.takeWhile inMoment
      (moment? (word.reverse.dropWhile (· == ' ')).reverse).map (·, cs.dropWhile inMoment)
    else decimal? [] cs

def named? (cs : List Char) : Option (Scalar × List Char) :=
  let rest := cs.dropWhile Char.isAlpha
  match sign, String.ofList (cs.takeWhile Char.isAlpha) with
  | [], "true" => some (.boolean true, rest)
  | [], "false" => some (.boolean false, rest)
  | ['-'], "inf" => some (.float (Double.infinity true), rest)
  | _, "inf" => some (.float (Double.infinity false), rest)
  | _, "nan" => some (.float Double.nan, rest)
  | _, _ => none

/-- The value that is one word at the start of characters, and what follows it. -/
def scalar? : List Char → Option (Scalar × List Char)
  | [] => none
  | c :: rest =>
    if c.isDigit then number? (c :: rest)
    else if c == '+' || c == '-' then
      match rest with
      | d :: _ => if d.isDigit then decimal? [c] rest else named? [c] rest
      | [] => none
    else named? [] (c :: rest)

end Tether.Toml
