/-!
# Rounding to a binary format

A binary floating-point format keeps a bounded significand and a bounded exponent. This module
rounds an exact quotient of natural numbers into such a format.
-/

namespace Tether

/-- Powers with natural exponents, preferred to any other reading of them. -/
@[default_instance 10001] instance (priority := 1100) natPower {α : Type} [NatPow α] : Pow α Nat := instPowNat

structure BinaryFormat where
  precision : Nat
  minExponent : Int
  maxExponent : Int
deriving DecidableEq

namespace BinaryFormat

def double : BinaryFormat := ⟨53, -1074, 1023⟩

def single : BinaryFormat := ⟨24, -149, 127⟩

/-- The quotient `n / d` counted in units of `2 ^ e`, as numerator and denominator. -/
def scaled (n d : Nat) (e : Int) : Nat × Nat :=
  if 0 ≤ e then (n, d * 2 ^ e.toNat) else (n * 2 ^ (-e).toNat, d)

def nearest (n d : Nat) : Nat :=
  let q := n / d
  let r := n % d
  if d < 2 * r ∨ (d = 2 * r ∧ q % 2 = 1) then q + 1 else q

variable (f : BinaryFormat)

/-- The exponent at which `n / d` has a full significand, or the least exponent of the format. -/
def exponentOf (n d : Nat) : Int :=
  let guess : Int := max ((Nat.log2 n : Int) - (Nat.log2 d : Int) - (f.precision : Int)) f.minExponent
  let (a, b) := scaled n d guess
  if 2 ^ f.precision ≤ a / b then guess + 1 else guess

/-- The value of the format nearest to `n / d`, as significand and exponent; `none` beyond its
range. -/
def round (n d : Nat) : Option (Nat × Int) :=
  if n = 0 then some (0, f.minExponent)
  else
    let e := f.exponentOf n d
    let (a, b) := scaled n d e
    let m := nearest a b
    if f.maxExponent < e + (Nat.log2 m : Int) then none else some (m, e)

end BinaryFormat

end Tether
