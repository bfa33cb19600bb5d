import Tether.Number.Rounding

/-!
# Script numbers

A script number is a binary64 value, held by its bit pattern. Every finite value is a whole multiple
of `2 ^ (-1074)`, so comparison, truncation and addition are exact integer arithmetic on that
multiple.
-/

namespace Tether

/-- A binary64 number, held by its bit pattern. -/
structure Double where
  bits : UInt64
deriving DecidableEq, Inhabited

namespace Double

/-- The kinds of bit pattern. -/
inductive Shape where
  | nan
  | infinite (negative : Bool)
  /-- The value is `mantissa * 2 ^ exponent`, negated if `negative`. -/
  | finite (negative : Bool) (mantissa : Nat) (exponent : Int)
deriving DecidableEq

variable (x : Double)

def negative : Bool := decide (2 ^ 63 ≤ x.bits.toNat)

def shape : Shape :=
  let e : Nat := x.bits.toNat / 2 ^ 52 % 2 ^ 11
  let m : Nat := x.bits.toNat % 2 ^ 52
  if e = 2047 then (if m = 0 then .infinite x.negative else .nan)
  else if e = 0 then .finite x.negative m (-1074)
  else .finite x.negative (m + 2 ^ 52) ((e : Int) - 1075)

def nan : Double := ⟨0x7ff8000000000001⟩

variable (negative : Bool)

def infinity : Double := ⟨if negative then 0xfff0000000000000 else 0x7ff0000000000000⟩

/-- The bits of `m * 2 ^ e`, for a significand and an exponent of the format. -/
def ofParts (m : Nat) (e : Int) : Double :=
  ⟨UInt64.ofNat ((if negative then 2 ^ 63 else 0) + (e + 1074).toNat * 2 ^ 52 + m)⟩

/-- The number nearest to `± n / d`, or nothing if it is out of range. -/
def ofRatio? (n d : Nat) : Option Double :=
  (BinaryFormat.double.round n d).map fun (m, e) => ofParts negative m e

/-- The number nearest to `± n / d`, an infinity if it is out of range. -/
def ofRatio (negative : Bool) (n d : Nat) : Double := (ofRatio? negative n d).getD (infinity negative)

def ofInt (i : Int) : Double := ofRatio (decide (i < 0)) i.natAbs 1

def powerOfTwo (k : Nat) : Double := ofParts negative (2 ^ 52) ((k : Int) - 52)

def unit : Nat := 2 ^ 1074

/-- A finite number as a multiple of `2 ^ (-1074)`. -/
def units? : Option Int :=
  match x.shape with
  | .finite neg m e =>
    let u : Int := (m * 2 ^ (e + 1074).toNat : Nat)
    some (if neg then -u else u)
  | _ => none

def isNaN : Bool := x.shape == .nan

def isInfinite : Bool :=
  match x.shape with
  | .infinite _ => true
  | _ => false

def isNegativeZero : Bool := x.bits == 0x8000000000000000

/-- The integer that a finite number is, if it is one. -/
def toInt? : Option Int :=
  match x.units? with
  | some u => if u % (unit : Int) = 0 then some (u / (unit : Int)) else none
  | none => none

/-- A finite number without its fraction. -/
def truncate? : Option Int := x.units?.map (Int.tdiv · (unit : Int))

def trunc : Double :=
  let e : Nat := x.bits.toNat / 2 ^ 52 % 2 ^ 11
  if e < 1023 then ⟨UInt64.ofNat (if x.negative then 2 ^ 63 else 0)⟩
  else if e < 1075 then ⟨UInt64.ofNat (x.bits.toNat - x.bits.toNat % 2 ^ (1075 - e))⟩
  else x

def equals (x y : Double) : Bool :=
  match x.shape, y.shape with
  | .nan, _ | _, .nan => false
  | .infinite a, .infinite b => a == b
  | _, _ => x.units?.isSome && x.units? == y.units?

/-- Order of numbers: nothing is less than not-a-number, and it is less than nothing. -/
def lt (x y : Double) : Bool :=
  match x.shape, y.shape with
  | .nan, _ | _, .nan => false
  | .infinite a, .infinite b => a && !b
  | .infinite a, _ => a
  | _, .infinite b => !b
  | _, _ =>
    match x.units?, y.units? with
    | some u, some v => decide (u < v)
    | _, _ => false

def add (x y : Double) : Double :=
  match x.shape, y.shape with
  | .nan, _ | _, .nan => nan
  | .infinite a, .infinite b => if a == b then infinity a else nan
  | .infinite a, _ => infinity a
  | _, .infinite b => infinity b
  | _, _ =>
    match x.units?, y.units? with
    | some u, some v =>
      let s := u + v
      let neg := if s = 0 then x.negative && y.negative else decide (s < 0)
      ofRatio neg s.natAbs unit
    | _, _ => nan

def toSingle : Double :=
  match x.shape, x.units? with
  | .finite neg _ _, some u =>
    match BinaryFormat.single.round u.natAbs unit with
    | some (m, e) =>
      if 0 ≤ e then ofRatio neg (m * 2 ^ e.toNat) 1 else ofRatio neg m (2 ^ (-e).toNat)
    | none => infinity neg
  | _, _ => x

end Double

end Tether
