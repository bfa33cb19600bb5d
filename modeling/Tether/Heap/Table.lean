import Tether.Heap.Object

/-!
# The object table

The table holds the live objects in numbered slots. A freed slot is used again, the last freed
first, and each use has a generation of its own, so that a pointer to an earlier object of the slot
resolves to nothing.
-/

namespace Tether

/-- A slot: the generation of its latest object, and the object while it lives. -/
structure Slot where
  gen : UInt32
  object : Option Object

structure Table where
  slots : Array Slot := #[]
  free : List UInt32 := []
  /-- How many objects live. -/
  size : Nat := 0
  /-- The pointers that were given and those that were freed, the latest first. Nothing is decided by them. -/
  given : List HeapPtr := []
  taken : List HeapPtr := []

namespace Table

variable (t : Table)

def position? (p : HeapPtr) : Option Nat :=
  if p.slot.toNat = 0 ∨ t.slots.size < p.slot.toNat then none else some (p.slot.toNat - 1)

def get? (p : HeapPtr) : Option Object :=
  match t.position? p with
  | none => none
  | some i =>
    match t.slots[i]? with
    | some s => if s.gen = p.gen then s.object else none
    | none => none

def modify (t : Table) (p : HeapPtr) (f : Object → Object) : Table :=
  match t.position? p with
  | none => t
  | some i =>
    { t with
      slots := t.slots.modify i fun s =>
        if s.gen = p.gen then { s with object := s.object.map f } else s }

def insert (o : Object) : HeapPtr × Table :=
  match t.free with
  | n :: free =>
    let i := n.toNat - 1
    let gen := ((t.slots[i]?).map (·.gen)).getD 0 + 1
    (⟨n, gen⟩, { t with
        slots := t.slots.modify i fun _ => ⟨gen, some o⟩
        free
        size := t.size + 1
        given := ⟨n, gen⟩ :: t.given })
  | [] =>
    let slots := t.slots.push ⟨1, some o⟩
    let n := UInt32.ofNat slots.size
    -- The generation is read back from the slot, which is another one if the number wrapped.
    let p : HeapPtr := ⟨n, ((slots[(n - 1).toNat]?).map (·.gen)).getD 0⟩
    (p, { t with slots, size := t.size + 1, given := p :: t.given })

/-- Frees the slot of the object that a pointer names; a pointer that names none changes nothing. -/
def drop (p : HeapPtr) : Table :=
  match t.get? p with
  | none => t
  | some _ =>
    let i := p.slot.toNat - 1
    { t with
      slots := t.slots.modify i fun s => { s with object := none }
      free := p.slot :: t.free
      size := t.size - 1
      taken := p :: t.taken }

def liveFrom : Nat → List Slot → List (HeapPtr × Object)
  | _, [] => []
  | n, s :: rest =>
    match s.object with
    | some o => (⟨UInt32.ofNat n, s.gen⟩, o) :: liveFrom (n + 1) rest
    | none => liveFrom (n + 1) rest

def live : List (HeapPtr × Object) := liveFrom 1 t.slots.toList

end Table

end Tether
