import Tether.Heap.Table
import Tether.Storage.Basic

/-!
# Heaps

A heap is an object table with a value stack, the frames of the native functions that run, the
global object and the stash, a storage for buffers, and counters.
-/

namespace Tether

structure Limits where
  stack : Int
  depth : Int
  /-- An allocation after so many others collects first; zero turns this off. -/
  gc : Int
deriving DecidableEq

structure Frame where
  fn : HeapPtr
  this : Value
  /-- The position of the frame's first slot. -/
  base : Nat
  /-- How many arguments the caller gave. -/
  supplied : Int

structure HeapCounters where
  allocated : Nat := 0
  freed : Nat := 0
  collections : Nat := 0
  finalizers : Nat := 0

structure Heap where
  limits : Limits
  table : Table := {}
  stack : Array Value := #[]
  frames : List Frame := []
  global : HeapPtr := .null
  stash : HeapPtr := .null
  storage : Storage
  ownsStorage : Bool := false
  allocs : Int := 0
  counters : HeapCounters := {}
  closed : Bool := false
  collecting : Bool := false
  logs : Bool := false
  /-- The pointers of all objects that were ever made, the latest first. Nothing is decided by it, nor
  by `retired`: they are the history that theorems on whole runs speak of. -/
  issued : List HeapPtr := []
  /-- The pointers of all objects that were freed, the latest first. -/
  retired : List HeapPtr := []

structure HeapStats where
  allocated : Nat
  freed : Nat
  collections : Nat
  finalizers : Nat
  live : Nat
  stack : Nat
deriving DecidableEq

structure CollectStats where
  live : Nat := 0
  swept : Nat := 0
  finalized : Nat := 0
deriving DecidableEq

namespace Heap

variable (h : Heap)

def stats : HeapStats :=
  ⟨h.counters.allocated, h.counters.freed, h.counters.collections, h.counters.finalizers, h.table.size, h.stack.size⟩

/-- The position of the first slot of the current frame. -/
def bottom : Nat :=
  match h.frames with
  | f :: _ => f.base
  | [] => 0

def top : Int := (h.stack.size : Int) - (h.bottom : Int)

variable (i : Int)

/-- The position that an index names: counted from the frame's first slot, or from the top if
negative. -/
def position? : Option Nat :=
  let a : Int := if i < 0 then (h.stack.size : Int) + i else (h.bottom : Int) + i
  if a < (h.bottom : Int) ∨ (h.stack.size : Int) ≤ a then none else some a.toNat

def value? : Option Value := (h.position? i).bind (h.stack[·]?)

def normalize? : Option Nat := (h.position? i).map (· - h.bottom)

def push (h : Heap) (v : Value) : Heap := { h with stack := h.stack.push v }

def truncate (n : Nat) : Heap := { h with stack := h.stack.take n }

def finalizerSlots : Nat := 3

/-- Whether a finalizer can be called and has the slots it needs. -/
def hasRoom : Bool :=
  decide ((h.frames.length : Int) < h.limits.depth) &&
    decide ((h.stack.size : Int) + finalizerSlots ≤ h.limits.stack)

def counts : Bool := decide (h.stack.size + 2 < 2 ^ 63)

def object? (p : HeapPtr) : Option Object := h.table.get? p

/-- Whether the first value of the current frame is an object whose finalizer was not started. -/
def premature : Bool := (((h.value? 0).bind Value.object?).bind h.object?).any fun o => !o.finalized

def modifyObject (p : HeapPtr) (f : Object → Object) : Heap := { h with table := h.table.modify p f }

end Heap

end Tether
