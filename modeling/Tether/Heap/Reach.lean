import Tether.Heap.Basic

/-!
# Reachable objects

An object is reachable if a root refers to it, or a reachable object does. Roots are the global
object, the stash, every slot of the stack and the function and receiver of every frame.
-/

namespace Tether.Heap

variable (h : Heap)

def roots : List HeapPtr :=
  [h.global, h.stash] ++ h.stack.toList.filterMap Value.object? ++
    h.frames.flatMap fun f => f.fn :: f.this.object?.toList

/-- The first object of a worklist that is not marked, with the position of its slot and the rest of the
worklist. -/
def nextUnmarked (t : Table) (marks : Array Bool) : List HeapPtr → Option (Nat × Object × List HeapPtr)
  | [] => none
  | p :: rest =>
    match t.get? p with
    | none => nextUnmarked t marks rest
    | some o =>
      let i := p.slot.toNat - 1
      if marks[i]? = some false then some (i, o, rest) else nextUnmarked t marks rest

/-- Marks what can be reached from the objects still to visit. Each round marks one slot, so there are
no more rounds than slots. -/
def markFrom (t : Table) : Nat → Array Bool → List HeapPtr → Array Bool
  | 0, marks, _ => marks
  | rounds + 1, marks, work =>
    match nextUnmarked t marks work with
    | none => marks
    | some (i, o, rest) =>
      markFrom t rounds (marks.setIfInBounds i true) (o.references ++ rest)

/-- For every slot of the table, whether its object is reachable. -/
def marks : Array Bool :=
  let n := h.table.slots.size
  markFrom h.table n (Array.replicate n false) h.roots

def garbage : List (HeapPtr × Object) :=
  let marks := h.marks
  h.table.live.filter fun (p, _) => !(marks[p.slot.toNat - 1]?.getD false)

def awaitsFinalizer (o : Object) : Bool := o.finalizer.isSome && !o.finalized

end Tether.Heap
