import Tether.Number.Double
import Tether.Text.Quoted

/-!
# Reading numbers

`Double.ofText?` reads a number that someone wrote: a decimal with an optional fraction and
exponent, a hexadecimal with a binary exponent, or one of the names of the infinities and of
not-a-number. The number nearest to the written value is read; a value beyond the largest number is
refused, one below the smallest is zero.

Digits may be grouped by underscores: each stands between two digits, or between a prefix and a
digit.
-/

namespace Tether

/-- How the digits of a numeral are read. -/
structure Radix where
  base : Nat
  mark : Char
  /-- What one more in the exponent multiplies by. -/
  scale : Nat
  scalesPerDigit : Nat

def Radix.decimal : Radix := ⟨10, 'e', 10, 1⟩

def Radix.hexadecimal : Radix := ⟨16, 'p', 2, 4⟩

/-- The digits of a numeral before its exponent. -/
structure Mantissa where
  digits : Nat := 0
  places : Nat := 0
  hasPoint : Bool := false
  hasDigits : Bool := false

namespace Radix

def digit? (r : Radix) (c : Char) : Option Nat := (Text.hexValue? c).filter (· < r.base)

def mantissa (r : Radix) : Mantissa → List Char → Mantissa × List Char
  | m, [] => (m, [])
  | m, c :: rest =>
    if c = '_' then mantissa r m rest
    else if c = '.' then
      if m.hasPoint then (m, c :: rest) else mantissa r { m with hasPoint := true } rest
    else
      match r.digit? c with
      | some d =>
        let places := if m.hasPoint then m.places + 1 else m.places
        mantissa r ⟨m.digits * r.base + d, places, m.hasPoint, true⟩ rest
      | none => (m, c :: rest)

/-- The greatest exponent that is still read digit by digit; what follows only makes it no smaller.
-/
def exponentCap : Nat := 10000

def exponentDigits : Nat → List Char → Nat × List Char
  | e, [] => (e, [])
  | e, c :: rest =>
    if c = '_' then exponentDigits e rest
    else
      match decimal.digit? c with
      | some d => exponentDigits (if e < exponentCap then e * 10 + d else e) rest
      | none => (e, c :: rest)

def sign : List Char → Bool × List Char
  | '-' :: rest => (true, rest)
  | '+' :: rest => (false, rest)
  | cs => (false, cs)

/-- Reads the exponent after its mark: a sign and at least one digit. -/
def exponent? (cs : List Char) : Option (Int × List Char) :=
  let (negative, cs) := sign cs
  match cs with
  | c :: _ =>
    if (decimal.digit? c).isSome then
      let (e, rest) := exponentDigits 0 cs
      some (if negative then -(e : Int) else e, rest)
    else none
  | [] => none

end Radix

/-- Whether every underscore stands between two digits; `after` tells whether a digit has just been
read, and `pending` whether an underscore has. -/
def groupedFrom (hex : Bool) (after pending : Bool) : List Char → Bool
  | [] => !pending
  | c :: rest =>
    if c.isDigit || (hex && (Radix.hexadecimal.digit? c).isSome) then groupedFrom hex true false rest
    else if c = '_' then after && groupedFrom hex false true rest
    else !pending && groupedFrom hex false false rest

/-- Whether underscores group the digits of a numeral without its sign; a prefix counts as a digit.
-/
def isGrouped : List Char → Bool
  | '0' :: c :: rest =>
    match c.toLower with
    | 'x' => groupedFrom true true false rest
    | 'b' | 'o' => groupedFrom false true false rest
    | _ => groupedFrom false false false ('0' :: c :: rest)
  | cs => groupedFrom false false false cs

namespace Double

/-- The names of the infinities and of not-a-number; only an infinity has a sign. -/
def ofName? (cs : List Char) : Option Double :=
  let (negative, name) := Radix.sign cs
  match String.ofList (name.map Char.toLower) with
  | "inf" | "infinity" => some (infinity negative)
  | "nan" => if name.length = cs.length then some nan else none
  | _ => none

/-- A bound on exponents: a value whose leading digit stands further out is out of range, or zero.
-/
def exponentBound : Int := 1200

variable (negative : Bool)

/-- The number nearest to `± digits * scale ^ exponent`, or nothing if it is out of range. -/
def scaled? (digits scale : Nat) (exponent : Int) : Option Double :=
  let lead := ((Nat.toDigits scale digits).length : Int) + exponent
  if digits = 0 ∨ lead < -exponentBound then some (ofParts negative 0 (-1074))
  else if exponentBound < lead then none
  else if 0 ≤ exponent then ofRatio? negative (digits * scale ^ exponent.toNat) 1
  else ofRatio? negative digits (scale ^ (-exponent).toNat)

/-- Reads a numeral without its sign. A hexadecimal one has to have an exponent. -/
def ofNumeral? (cs : List Char) : Option Double :=
  let (r, body) := match cs with
    | '0' :: x :: c :: rest =>
      if x.toLower = 'x' then (Radix.hexadecimal, c :: rest) else (Radix.decimal, cs)
    | _ => (Radix.decimal, cs)
  let (m, rest) := r.mantissa {} body
  if !m.hasDigits then none
  else
    let shift := -((m.places * r.scalesPerDigit : Nat) : Int)
    match rest with
    | [] => if r.base = 16 then none else scaled? negative m.digits r.scale shift
    | c :: rest =>
      if c.toLower = r.mark then
        match Radix.exponent? rest with
        | some (e, []) => scaled? negative m.digits r.scale (e + shift)
        | _ => none
      else none

def ofText? (s : String) : Option Double :=
  let cs := s.toList
  match ofName? cs with
  | some x => some x
  | none =>
    let (negative, body) := Radix.sign cs
    if body.contains '_' && !isGrouped body then none else ofNumeral? negative body

end Double

end Tether
