import Tether.Terminal.Sign

/-!
# Clusters

Characters that a terminal shows as one form a cluster: a letter with its marks, the letters of a
Korean syllable, pictographs with joiners between them, the two letters of a flag.
-/

namespace Tether.Terminal

/-- What the end of a cluster says about the characters that may follow in it. -/
inductive Tail where
  | closed
  | carriageReturn
  | control
  | hangulL | hangulV | hangulT
  /-- Anything may follow that shows something. -/
  | leading
  | pictograph
  | joined
  | halfFlag
  | flag
deriving DecidableEq

namespace Tail

def start : Sign → Tail
  | .carriageReturn => carriageReturn
  | .lineFeed | .control => control
  | .hangulL => hangulL
  | .hangulV | .hangulLV => hangulV
  | .hangulT | .hangulLVT => hangulT
  | .leading => leading
  | .pictograph => pictograph
  | .flag => halfFlag
  | .plain | .extend | .joiner | .spacing => closed

/-- The tail after one more character, if the character belongs to the cluster. -/
def next? : Tail → Sign → Option Tail
  | carriageReturn, .lineFeed => some control
  | carriageReturn, _ | control, _ => none
  | _, .carriageReturn | _, .lineFeed | _, .control => none
  | pictograph, .extend => some pictograph
  | pictograph, .joiner => some joined
  | _, .extend | _, .joiner | _, .spacing => some closed
  | leading, sign => some (start sign)
  | hangulL, .hangulL => some hangulL
  | hangulL, .hangulV | hangulL, .hangulLV | hangulV, .hangulV => some hangulV
  | hangulL, .hangulLVT | hangulV, .hangulT | hangulT, .hangulT => some hangulT
  | joined, .pictograph => some pictograph
  | halfFlag, .flag => some flag
  | _, _ => none

end Tail

/-- A cluster: the sort of its first character, its end and its width so far. -/
structure Cluster where
  first : Sign
  tail : Tail
  columns : Nat
deriving DecidableEq

namespace Cluster

def ofChar (c : Char) : Cluster :=
  let sign := Sign.ofChar c
  { first := sign, tail := .start sign, columns := sign.columns c }

/-- The width of a cluster after one more character. Pictographs are one character wide unless a
mark asks for text or for a picture; flags and Korean syllables keep the width of their first
letter. -/
def widen (k : Cluster) (c : Char) (sign : Sign) : Nat :=
  match k.first with
  | .pictograph =>
    match c.toNat with
    | 0xfe0e => 1
    | 0xfe0f => 2
    | _ => k.columns
  | .flag | .hangulL => k.columns
  | _ => k.columns + sign.columns c

def extend? (k : Cluster) (c : Char) : Option Cluster :=
  let sign := Sign.ofChar c
  (k.tail.next? sign).map fun tail => { k with tail, columns := k.widen c sign }

end Cluster

end Tether.Terminal
