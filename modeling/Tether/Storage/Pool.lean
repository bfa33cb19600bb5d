import Std.Data.HashMap

/-!
# Byte regions and slices

A pool holds regions of bytes. A slice is a window on a region; two slices of one region see each
other's writes. A fresh region reads as zeros.
-/

namespace Tether

/-- A region: its size and the bytes ever written; all others are zero. -/
structure Region where
  size : Nat
  written : Std.HashMap Nat UInt8 := ∅

def Region.get (r : Region) (i : Nat) : UInt8 := r.written.getD i 0

def Region.set (r : Region) (i : Nat) (b : UInt8) : Region := { r with written := r.written.insert i b }

def Region.setAll (r : Region) (i : Nat) : List UInt8 → Region
  | [] => r
  | b :: rest => (r.set i b).setAll (i + 1) rest

/-- A window of `length` bytes on a region. -/
structure Slice where
  region : Nat
  start : Nat
  length : Nat
deriving DecidableEq

/-- All regions made so far. -/
structure Pool where
  regions : Array Region := #[]

namespace Pool

variable (p : Pool)

def new (size : Nat) : Slice × Pool := (⟨p.regions.size, 0, size⟩, ⟨p.regions.push { size }⟩)

def update (i : Nat) (f : Region → Region) : Pool := ⟨p.regions.modify i f⟩

def get (p : Pool) (s : Slice) (i : Nat) : UInt8 :=
  match p.regions[s.region]? with
  | some r => r.get (s.start + i)
  | none => 0

/-- Writes the byte at position `i` of a slice; a position outside changes nothing. -/
def set (p : Pool) (s : Slice) (i : Nat) (b : UInt8) : Pool :=
  if i < s.length then p.update s.region (·.set (s.start + i) b) else p

variable (s : Slice)

def take (n : Nat) : List UInt8 := (List.range (min n s.length)).map (p.get s)

def bytes : List UInt8 := p.take s s.length

/-- Copies bytes into a slice from position `i` on, as many as there is room for. -/
def copyInto (i : Nat) (data : List UInt8) : Pool :=
  p.update s.region (·.setAll (s.start + i) (data.take (s.length - i)))

def fill (b : UInt8) : Pool := p.copyInto s 0 (List.replicate s.length b)

def clear : Pool :=
  p.update s.region fun r =>
    { r with written := r.written.filter fun i _ => !decide (s.start ≤ i ∧ i < s.start + s.length) }

def ofBytes (data : List UInt8) : Slice × Pool :=
  let (s, p) := p.new data.length
  (s, p.copyInto s 0 data)

end Pool

end Tether
