import Tether.Number.Shortest

/-!
# Numbers in messages

`Double.text` writes a number with the fewest digits that read back. Whether it uses positional or
exponent notation, and the spelling of the values that are no decimals, is decided by one record,
`NumberStyle.message`.
-/

namespace Tether

structure NumberStyle where
  leastPositional : Int
  firstScientific : Int
  exponentWidth : Nat
  nan : String
  positiveInfinity : String
  negativeInfinity : String

/-- In messages, numbers are positional from `1e-04` up to below `1e+06`, and an exponent has two
digits. -/
def NumberStyle.message : NumberStyle := ⟨-4, 6, 2, "NaN", "+Inf", "-Inf"⟩

namespace DecimalParts

def positional (d : DecimalParts) : String :=
  let ds := Nat.toDigits 10 d.digits
  if 0 ≤ d.exponent then String.ofList (ds ++ List.replicate d.exponent.toNat '0')
  else
    let places := (-d.exponent).toNat
    if places < ds.length then
      String.ofList (ds.take (ds.length - places) ++ '.' :: ds.drop (ds.length - places))
    else String.ofList ('0' :: '.' :: List.replicate (places - ds.length) '0' ++ ds)

/-- A decimal with one digit before the point and an exponent of at least `width` digits. -/
def scientific (width : Nat) (d : DecimalParts) : String :=
  match Nat.toDigits 10 d.digits with
  | [] => ""
  | first :: rest =>
    let e := d.exponent + (rest.length : Int)
    let es := Nat.toDigits 10 e.natAbs
    let pad := List.replicate (width - es.length) '0'
    let point := if rest.isEmpty then [] else '.' :: rest
    String.ofList (first :: point ++ 'e' :: (if e < 0 then '-' else '+') :: pad ++ es)

end DecimalParts

def Double.textIn (style : NumberStyle) (x : Double) : String :=
  match x.shape with
  | .nan => style.nan
  | .infinite neg => if neg then style.negativeInfinity else style.positiveInfinity
  | .finite neg m e =>
    let body :=
      if m = 0 then "0"
      else
        let d := shortest m e
        let lead := d.exponent + ((Nat.toDigits 10 d.digits).length : Int) - 1
        if lead < style.leastPositional ∨ style.firstScientific ≤ lead then
          d.scientific style.exponentWidth
        else d.positional
    if neg then "-" ++ body else body

def Double.text (x : Double) : String := x.textIn .message

/-! ## Durations

A duration is written in its largest suitable unit: below a second in one unit with a fraction, from
a second on in hours, minutes and seconds. -/

namespace Text

/-- A number of parts as a decimal of whole units, each of `10 ^ places` parts, without zeros at the
end. -/
def decimalOf (parts places : Nat) : String :=
  let whole := parts / 10 ^ places
  let digits := Nat.toDigits 10 (parts % 10 ^ places)
  let padded := List.replicate (places - digits.length) '0' ++ digits
  let fraction := (padded.reverse.dropWhile (· == '0')).reverse
  if parts % 10 ^ places = 0 then toString whole else toString whole ++ "." ++ String.ofList fraction

def duration (nanos : Nat) : String :=
  if nanos = 0 then "0s"
  else if nanos < 10 ^ 3 then toString nanos ++ "ns"
  else if nanos < 10 ^ 6 then decimalOf nanos 3 ++ "µs"
  else if nanos < 10 ^ 9 then decimalOf nanos 6 ++ "ms"
  else
    let minutes := nanos / (60 * 10 ^ 9)
    let seconds := decimalOf (nanos % (60 * 10 ^ 9)) 9 ++ "s"
    if minutes = 0 then seconds
    else if minutes < 60 then toString minutes ++ "m" ++ seconds
    else toString (minutes / 60) ++ "h" ++ toString (minutes % 60) ++ "m" ++ seconds

end Text

end Tether
