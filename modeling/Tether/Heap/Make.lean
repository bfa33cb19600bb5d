import Tether.Heap.Collect

/-!
# Making objects

Objects, functions, errors and buffers are made on top of the stack; making one may collect first.
-/

namespace Tether.Heap

open M

variable (host : Host) (h : HeapId)

def pushNew (o : Object) : M Int := do
  let p ← newObject host h o
  modifyHeap h (·.push (.object p))
  return (← heap h).top - 1

def pushObject : M Int := pushNew host h {}

def pushFunc (name : String) (arity : Int) (code : Option Code) : M Int :=
  pushNew host h
    { body := .function name arity code
      props := ({} : Properties Value).put "name" (.string name) }

def pushError (f : Option Fault) : M Unit := do
  match f with
  | some f =>
    let props := (({} : Properties Value).put "name" (.string f.scriptName)).put "message"
      (.string f.message)
    let _ ← pushNew host h { body := .error f, props }
  | none =>
    let _ ← newObject host h { props := (({} : Properties Value).put "name" (.string "Error")) }
    crash .runtime

def bufferAlign : Nat := 8

def allocBytes (size : Nat) : M (Nat × Slice) := do
  let s ← heap h
  let pool := (← get).pool
  match s.storage.alloc pool size bufferAlign with
  | .error f =>
    if s.storage.isLinear ∧ f.kindOf = Kind.allocation then
      log s.logs .warn "linear memory exhausted"
        [("size", .int size), ("in_use", .int s.storage.inUse)]
    fail (.wrap .heap .allocation (some f) "buffer storage")
  | .ok (address, storage, pool) =>
    match storage.read address size with
    | .error f =>
      modifyHeap h fun s => { s with storage := storage.free address }
      fail (.wrap .heap .allocation (some f) "buffer view")
    | .ok slice =>
      modifyHeap h fun s => { s with storage }
      modify fun w => { w with pool := pool.clear slice }
      return (address, slice)

def noBytes : Slice := ⟨0, 0, 0⟩

def pushBuffer (size : Int) : M Slice := do
  if size < 0 ∨ 2 ^ 32 - 1 < size then fail (.invalidInput .heap "invalid buffer size")
  let (address, data) ← if 0 < size then allocBytes h size.toNat else pure (0, noBytes)
  let _ ← pushNew host h { body := .buffer { data, address, owned := decide (0 < size) } }
  return data

def pushExternal (data : Option Slice) : M Unit := do
  let _ ← pushNew host h { body := .buffer { data := data.getD noBytes } }

/-- Lets go of the bytes of the buffer at an index; doing so twice does nothing. -/
def detach (i : Int) : M Unit := do
  let s ← heap h
  match ← readHeap h (·.objectAt? i), s.value? i with
  | some o, some (.object p) =>
    if o.buffer?.isSome then release h p else throw (s.mismatch i "buffer")
  | _, _ => throw (s.mismatch i "buffer")

/-- Puts an error object in place of what a failed call left above a height, and fails. -/
def leaveError (height : Int) (f : Fault) : M Unit := do
  modifyHeap h fun s =>
    if height < (s.stack.size : Int) ∧ (s.bottom : Int) ≤ height then s.truncate height.toNat else s
  pushError host h (some f)
  fail f

def pcall (nargs : Int) : M Unit := do
  let height := wrapCount (((← heap h).stack.size : Int) - nargs - 1)
  match ← catchFault (call host h nargs) with
  | .ok () => return ()
  | .error f => leaveError host h height f

def pcallMethod (nargs : Int) : M Unit := do
  let height := wrapCount (((← heap h).stack.size : Int) - nargs - 2)
  match ← catchFault (callMethod host h nargs) with
  | .ok () => return ()
  | .error f => leaveError host h height f

end Tether.Heap
