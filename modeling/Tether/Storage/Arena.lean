import Tether.Fault.Causes

/-!
# Arenas of addresses

An arena hands out spans of a range of addresses and takes them back. The free spans are kept in
increasing order, never empty and never adjacent, so a freed span joins its neighbours.
-/

namespace Tether

/-- The addresses `start, …, start + size - 1`. -/
structure Span where
  start : Nat
  size : Nat
deriving DecidableEq

def Span.stop (s : Span) : Nat := s.start + s.size

/-- A range of addresses, divided into free spans and handed-out ones. -/
structure Arena where
  vacant : List Span
  used : List Span
  inUse : Nat
deriving DecidableEq

namespace Arena

/-- The least multiple of `align` from `address` on. -/
def alignUp (address align : Nat) : Nat := (address + align - 1) / align * align

/-- What is left of a free span when `size` bytes are cut out after `pad` bytes. -/
def remainders (s : Span) (pad size : Nat) : List Span :=
  (if 0 < pad then [⟨s.start, pad⟩] else []) ++
    (if 0 < s.size - pad - size then [⟨s.start + pad + size, s.size - pad - size⟩] else [])

def firstFit (size align : Nat) : List Span → Option (Nat × List Span)
  | [] => none
  | s :: rest =>
    let base := alignUp s.start align
    let pad := base - s.start
    if pad + size ≤ s.size then some (base, remainders s pad size ++ rest)
    else (firstFit size align rest).map fun (a, spans) => (a, s :: spans)

/-- Puts a span before others, joining it with the first of them if they touch. -/
def attach (s : Span) : List Span → List Span
  | [] => [s]
  | t :: rest => if s.stop = t.start then ⟨s.start, s.size + t.size⟩ :: rest else s :: t :: rest

def insertFree (s : Span) : List Span → List Span
  | [] => [s]
  | t :: rest => if s.start < t.start then attach s (t :: rest) else attach t (insertFree s rest)

def ofRange (start stop : Nat) : Arena := ⟨[⟨start, stop - start⟩], [], 0⟩

def isPowerOfTwo (n : Nat) : Bool := n &&& (n - 1) == 0

/-- Hands out `size` bytes at a multiple of `align`, where no alignment counts as one. -/
def alloc (a : Arena) (size align : Nat) : Except Fault (Nat × Arena) :=
  let align := if align = 0 then 1 else align
  if size = 0 then .error (.invalidInput .heap "zero-size allocation")
  else if !isPowerOfTwo align then
    .error (.invalidInput .heap s!"alignment {align} is not a power of two")
  else
    match firstFit size align a.vacant with
    | some (base, free) => .ok (base, ⟨free, ⟨base, size⟩ :: a.used, a.inUse + size⟩)
    | none => .error (.allocationFailed .heap size align)

def usedAt? (a : Arena) (address : Nat) : Option Span := a.used.find? (·.start == address)

def free (a : Arena) (address : Nat) : Arena :=
  match a.usedAt? address with
  | none => a
  | some s =>
    ⟨insertFree s a.vacant, a.used.filter (·.start != address), a.inUse - s.size⟩

end Arena

end Tether
