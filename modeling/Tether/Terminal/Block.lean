import Tether.Terminal.Cluster
import Tether.Terminal.Sequence
import Tether.Text.Quoted

/-!
# Blocks of text

A terminal shows a text of several lines as a block whose lines are equally wide.
-/

namespace Tether.Terminal

/-! ## The width of a line -/

/-- Where a line is measured: in a control sequence or outside of any, or in a cluster. -/
inductive Place where
  | sequence (s : Sequence)
  | cluster (k : Cluster)
deriving DecidableEq

namespace Place

/-- The columns that are complete, and the place, after a character that continues no cluster. A
character beyond ASCII ends a control sequence, except inside data. -/
def enter (s : Sequence) (c : Char) : Nat × Place :=
  let n := c.toNat
  if n < 0x80 then
    (if s = .ground ∧ 0x20 ≤ n ∧ n < 0x7f then 1 else 0, .sequence (s.next n))
  else if s.takesBytes then
    (0, .sequence ((Text.bytesOfChar c).foldl (fun s b => s.next b.toNat) s))
  else (0, .cluster (.ofChar c))

def step (p : Place) (c : Char) : Nat × Place :=
  match p with
  | sequence s => enter s c
  | cluster k =>
    match k.extend? c with
    | some k => (0, cluster k)
    | none =>
      let (n, p) := enter .ground c
      (k.columns + n, p)

def finish : Place → Nat
  | sequence _ => 0
  | cluster k => k.columns

end Place

def columnsFrom (p : Place) : List Char → Nat
  | [] => p.finish
  | c :: rest =>
    let (n, p) := p.step c
    n + columnsFrom p rest

def columns (line : List Char) : Nat := columnsFrom (.sequence .ground) line

/-! ## Blocks -/

def plainBreaks : List Char → List Char
  | [] => []
  | '\t' :: rest => ' ' :: ' ' :: ' ' :: ' ' :: plainBreaks rest
  | '\r' :: '\n' :: rest => '\n' :: plainBreaks rest
  | c :: rest => c :: plainBreaks rest

def linesOf (cs : List Char) : List (List Char) := cs.splitOn '\n'

def block (s : String) : String :=
  let lines := linesOf (plainBreaks s.toList)
  let width := (lines.map columns).foldl max 0
  String.ofList (['\n'].intercalate (lines.map fun l => l ++ List.replicate (width - columns l) ' '))

end Tether.Terminal
