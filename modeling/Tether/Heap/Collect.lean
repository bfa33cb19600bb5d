import Tether.Heap.Invoke
import Tether.Heap.Reach

/-!
# Collection

A collection finds the objects that no root reaches. Those with a finalizer get it run once, with
the object as its only argument; then everything still out of reach is freed. Code that runs inside
a collection starts no other.
-/

namespace Tether.Heap

open M

variable (host : Host) (h : HeapId)

/-- Lets go of the bytes of a buffer; tells the address and size that go back to the storage. -/
def releaseBuffer (h : Heap) (p : HeapPtr) : Option (Nat × Nat) × Heap :=
  match (h.object? p).bind (·.buffer?) with
  | some b =>
    if b.detached then (none, h)
    else
      let h := h.modifyObject p fun o => { o with body := .buffer { b with detached := true } }
      if b.owned ∧ 0 < b.data.length then
        (some (b.address, b.data.length), { h with storage := h.storage.free b.address })
      else (none, h)
  | none => (none, h)

def release (p : HeapPtr) : M Unit := do
  let s ← heap h
  let (gone, s) := s.releaseBuffer p
  modifyHeap h fun _ => s
  match gone with
  | some (address, size) =>
    log s.logs .debug "buffer released" [("addr", .int address), ("size", .int size)]
  | none => return ()

def free (p : HeapPtr) : M Unit := do
  release h p
  modifyHeap h fun s =>
    { s with table := s.table.drop p, retired := p :: s.retired,
             counters := { s.counters with freed := s.counters.freed + 1 } }

def runFinalizer (p : HeapPtr) : M Unit := do
  let s ← heap h
  let height := s.stack.size
  let o ← need (s.object? p)
  breach fun _ => { counts := !s.counts }
  modifyHeap h fun s => (s.push (.object (o.finalizer.getD .null))).push (.object p)
  match ← catchFault (call host h 1) with
  | .ok () => pure ()
  | .error f =>
    let s ← heap h
    let fin ← need ((s.object? p).bind (·.finalizer))
    let name := ((s.object? fin).bind (·.functionName?)).getD ""
    log s.logs .warn "finalizer failed"
      [("finalizer", .text name), ("object", .text p.text), ("error", .text f.message)]
  modifyHeap h fun s =>
    let s := s.truncate height
    { s with counters := { s.counters with finalizers := s.counters.finalizers + 1 } }

def finalize (p : HeapPtr) : M Unit := do
  modifyHeap h (·.modifyObject p fun o => { o with finalized := true })
  runFinalizer host h p

/-- Runs the finalizers of the objects that no root reaches and that wait for one; gives how many. -/
def finalizeGarbage : M Nat := do
  let pending := (← heap h).garbage.filter fun (_, o) => awaitsFinalizer o
  pending.forM fun (p, _) => finalize host h p
  return pending.length

def sweep : M Nat := do
  let garbage := (← heap h).garbage
  garbage.forM fun (p, _) => free h p
  return garbage.length

variable (finalized : Nat)

/-- Ends a collection in which `finalized` finalizers ran: frees what no root reaches and counts the
collection. -/
def reclaim : M CollectStats := do
  let swept ← sweep h
  modifyHeap h fun s =>
    { s with counters := { s.counters with collections := s.counters.collections + 1 } }
  let s ← heap h
  let stats : CollectStats := ⟨s.table.size, swept, finalized⟩
  log s.logs .debug "heap collected"
    [("live", .int stats.live), ("swept", .int stats.swept), ("finalized", .int stats.finalized)]
  return stats

def collect : M CollectStats := do
  let s ← heap h
  if s.collecting ∨ s.closed then return {}
  note fun _ => s.hasRoom
  modifyHeap h fun s => { s with collecting := true, allocs := 0 }
  andFinally (do reclaim h (← finalizeGarbage host h)) (modifyHeap h fun s => { s with collecting := false })

/-- Collects if enough objects were made since the last collection. -/
def maybeCollect : M Unit := do
  let s ← heap h
  if 0 < s.limits.gc ∧ !s.collecting ∧ s.limits.gc ≤ s.allocs then
    let _ ← collect host h

def newObject (o : Object) : M HeapPtr := do
  maybeCollect host h
  onHeap h fun s =>
    let (p, table) := s.table.insert o
    .ok (p, { s with table, allocs := s.allocs + 1, issued := p :: s.issued,
                     counters := { s.counters with allocated := s.counters.allocated + 1 } })

def finalizeAll : M Nat := do
  let pending := (← heap h).table.live.filter fun (_, o) => awaitsFinalizer o
  pending.forM fun (p, _) => do
    let o ← need ((← heap h).object? p)
    if o.finalized then return
    finalize host h p
  return pending.length

def freeAll : M Nat := do
  let all := (← heap h).table.live
  all.forM fun (p, _) => free h p
  return all.length

/-- Ends the closing of a heap after `finalized` finalizers ran: frees all objects and leaves the heap
empty. -/
def shut : M Unit := do
  modifyHeap h fun s => { s with collecting := false, stack := #[] }
  let freed ← freeAll h
  modifyHeap h fun s => { s with table := {}, global := .null, stash := .null, closed := true }
  log (← heap h).logs .debug "heap closed" [("finalized", .int finalized), ("freed", .int freed)]

/-- Closes a heap: runs the finalizers that have not run, frees all objects and leaves the heap
empty. -/
def close : M Unit := do
  if (← heap h).closed then return
  modifyHeap h fun s => { s with stack := #[], frames := [], collecting := true }
  shut h (← finalizeAll host h)

def checkLimits (l : Limits) : Except Fault Unit :=
  if l.stack ≤ 0 then .error (.invalidInput .heap "stack limit must be positive")
  else if l.depth ≤ 0 then .error (.invalidInput .heap "call depth limit must be positive")
  else if l.gc < 0 then .error (.invalidInput .heap "gc threshold must not be negative")
  else .ok ()

def setStash (s : Heap) (p : HeapPtr) : Heap := if s.stash = .null then { s with stash := p } else s

def make (l : Limits) (storage : Storage) (ownsStorage : Bool) : M HeapId := do
  ofExcept (checkLimits l)
  let w ← get
  let h := w.heaps.size
  set { w with heaps := w.heaps.push { limits := l, storage, ownsStorage, logs := w.logging } }
  let global ← newObject host h {}
  modifyHeap h fun s => { s with global }
  let stash ← newObject host h {}
  modifyHeap h (·.setStash stash)
  return h

end Tether.Heap
