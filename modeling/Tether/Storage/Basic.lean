import Tether.Storage.Arena
import Tether.Storage.Pool

/-!
# Storage for buffers

A storage hands out bytes by address. There are two kinds, which place their spans by the same rule:
-/

namespace Tether

inductive Backing where
  | blocks (slices : List (Nat × Slice))
  | linear (memory : Slice) (isOpen : Bool)

structure Storage where
  arena : Arena
  backing : Backing

namespace Storage

def reserved : Nat := 8

def addressSpace : Nat := 2 ^ 32 - 1

def pageSize : Nat := 65536

def maxPages : Nat := 65536

def blocks : Storage := ⟨.ofRange reserved addressSpace, .blocks []⟩

def linear (p : Pool) (pages : Nat) : Except Fault (Storage × Pool) :=
  if pages = 0 ∨ maxPages < pages then
    .error (.invalidInput .load s!"memory pages {pages} out of range")
  else
    let (memory, p) := p.new (pages * pageSize)
    .ok (⟨.ofRange reserved (min (pages * pageSize) addressSpace), .linear memory true⟩, p)

variable (s : Storage)

def isLinear : Bool :=
  match s.backing with
  | .linear .. => true
  | .blocks _ => false

def closedFault : Fault := .closed .heap "linear memory"

def alloc (s : Storage) (p : Pool) (size align : Nat) : Except Fault (Nat × Storage × Pool) :=
  match s.backing with
  | .linear _ false => .error closedFault
  | .linear memory true =>
    (s.arena.alloc size align).map fun (base, arena) => (base, ⟨arena, .linear memory true⟩, p)
  | .blocks slices =>
    (s.arena.alloc size align).map fun (base, arena) =>
      let (slice, p) := p.new size
      (base, ⟨arena, .blocks ((base, slice) :: slices)⟩, p)

def free (s : Storage) (address : Nat) : Storage :=
  match s.backing with
  | .linear .. => { s with arena := s.arena.free address }
  | .blocks slices => ⟨s.arena.free address, .blocks (slices.filter (·.1 != address))⟩

def block? (slices : List (Nat × Slice)) (address length : Nat) : Option Slice :=
  match slices.lookup address with
  | some slice => if length ≤ slice.length then some slice else none
  | none => none

def read (s : Storage) (address length : Nat) : Except Fault Slice :=
  match s.backing with
  | .linear _ false => .error closedFault
  | .linear memory true =>
    if address + length ≤ memory.length then .ok ⟨memory.region, memory.start + address, length⟩
    else .error (.issue ⟨.heap, .outOfBounds, [], "", "", s!"read out of bounds: offset={address}, length={length}"⟩)
  | .blocks slices =>
    match block? slices address length with
    | some slice => .ok { slice with length }
    | none => .error (.outOfBounds .heap [] address length)

def write (s : Storage) (p : Pool) (address : Nat) (data : List UInt8) : Except Fault Pool :=
  match s.backing with
  | .linear _ false => .error closedFault
  | .linear memory true =>
    if address + data.length ≤ memory.length then .ok (p.copyInto memory address data)
    else .error (.issue ⟨.heap, .outOfBounds, [], "", "",
      s!"write out of bounds: offset={address}, length={data.length}"⟩)
  | .blocks slices =>
    match block? slices address data.length with
    | some slice => .ok (p.copyInto slice 0 data)
    | none => .error (.outOfBounds .heap [] address data.length)

def inUse (s : Storage) : Nat := s.arena.inUse

def allocations : Nat := s.arena.used.length

def size : Nat :=
  match s.backing with
  | .linear memory true => memory.length
  | _ => 0

def isOpen (s : Storage) : Bool :=
  match s.backing with
  | .linear _ isOpen => isOpen
  | .blocks _ => true

def close : Storage :=
  match s.backing with
  | .linear memory _ => { s with backing := .linear memory false }
  | .blocks _ => s

end Storage

end Tether
