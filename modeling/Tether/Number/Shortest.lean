import Tether.Number.Double

/-!
# The fewest digits that read back

Every finite nonzero number is the nearest one to an interval of reals. `Double.shortest` gives the
decimal with the fewest digits inside that interval and, among those, the one nearest to the number
itself.
-/

namespace Tether

structure DecimalParts where
  digits : Nat
  exponent : Int
deriving DecidableEq

namespace DecimalParts

/-- The same decimal without trailing zero digits; `fuel` bounds how many are dropped. -/
def trim : Nat → DecimalParts → DecimalParts
  | 0, d => d
  | fuel + 1, d =>
    if d.digits ≠ 0 ∧ d.digits % 10 = 0 then trim fuel ⟨d.digits / 10, d.exponent + 1⟩ else d

def text (d : DecimalParts) : String := String.ofList (Nat.toDigits 10 d.digits)

end DecimalParts

namespace Double

def leadingExponent (n d : Nat) : Int :=
  if d ≤ n then ((Nat.toDigits 10 (n / d)).length : Int) - 1
  else -((Nat.toDigits 10 ((d - 1) / n)).length : Int)

/-- The decimal on the grid of `10 ^ k` nearest to `v / d` among those between `lo / d` and `hi /
d`. -/
def onGrid (v lo hi d : Nat) (inclusive : Bool) (k : Int) : Option Nat :=
  let up := if 0 ≤ k then 10 ^ k.toNat else 1
  let down := if 0 ≤ k then 1 else 10 ^ (-k).toNat
  let q := v * down / (d * up)
  let within (c : Nat) : Bool :=
    let x := c * up * d
    if inclusive then decide (lo * down ≤ x ∧ x ≤ hi * down) else decide (lo * down < x ∧ x < hi * down)
  let below := v * down - q * up * d
  let above := (q + 1) * up * d - v * down
  match within q, within (q + 1) with
  | true, true =>
    if below < above then some q
    else if above < below then some (q + 1)
    else if q % 2 = 0 then some q else some (q + 1)
  | true, false => some q
  | false, true => some (q + 1)
  | false, false => none

def firstGrid (v lo hi d : Nat) (inclusive : Bool) (lead : Int) : Nat → Nat → DecimalParts
  | 0, _ => ⟨v, 0⟩
  | fuel + 1, n =>
    let k := lead - (n : Int) + 1
    match onGrid v lo hi d inclusive k with
    | some c => DecimalParts.trim 20 ⟨c, k⟩
    | none => firstGrid v lo hi d inclusive lead fuel (n + 1)

def shortest (m : Nat) (e : Int) : DecimalParts :=
  -- All quantities are counted in quarters of the last place.
  let quarter := e - 2
  let lo := if m = 2 ^ 52 ∧ -1074 < e then 4 * m - 1 else 4 * m - 2
  let mul := if 0 ≤ quarter then 2 ^ quarter.toNat else 1
  let d := if 0 ≤ quarter then 1 else 2 ^ (-quarter).toNat
  let v := 4 * m * mul
  firstGrid v (lo * mul) ((4 * m + 2) * mul) d (m % 2 == 0) (leadingExponent v d) 17 1

end Double

end Tether
