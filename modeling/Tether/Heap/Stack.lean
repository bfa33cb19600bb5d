import Tether.Fault.Basic
import Tether.Heap.Basic

/-!
# The value stack

Operations on the values of the current frame. An index counts from the frame's first slot, or from
the top if it is negative. An operation that cannot be done leaves the heap as it was.
-/

namespace Tether.Heap

def wrapCount (n : Int) : Int := (Int64.ofInt n).toInt

variable (h : Heap) (i : Int)

def badIndex : Stop :=
  .crash (.heap s!"heap: invalid stack index {i} (top {h.top})")

def position (h : Heap) (i : Int) : Except Stop Nat :=
  match h.position? i with
  | some a => .ok a
  | none => .error (h.badIndex i)

/-- Fills the frame with undefined, or cuts it, to `n` values. -/
def setTop (n : Int) : Except Stop Heap :=
  if n < 0 then .error (.crash (.heap s!"heap: invalid top {n}"))
  else
    let want := wrapCount ((h.bottom : Int) + n)
    if want < (h.bottom : Int) then .error (.crash .runtime)
    else if want.toNat ≤ h.stack.size then .ok (h.truncate want.toNat)
    else .ok { h with stack := h.stack ++ Array.replicate (want.toNat - h.stack.size) Value.undefined }

/-- Fails if `extra` more values would go beyond the limit of the stack. -/
def requireStack (extra : Int) : Except Stop Unit :=
  if extra < 0 then .error (.fault (.invalidInput .heap "negative stack reservation"))
  else if h.limits.stack < wrapCount ((h.stack.size : Int) + extra) then
    .error (.fault (.stackOverflow s!"need {extra} more slot(s), {h.stack.size} of {h.limits.stack} in use"))
  else .ok ()

/-- Removes the top `n` values. -/
def popN (n : Int) : Except Stop Heap :=
  if n < 0 ∨ h.top < n then .error (.crash (.heap s!"heap: pop {n} with top {h.top}"))
  else .ok (h.truncate (h.stack.size - n.toNat))

def dup : Except Stop Heap := do
  let a ← h.position i
  return h.push (h.stack[a]?.getD .undefined)

def swap (h : Heap) (i j : Int) : Except Stop Heap := do
  let a ← h.position i
  let b ← h.position j
  return { h with stack := h.stack.swapIfInBounds a b }

/-- Removes the value at an index; those above it move down. -/
def remove : Except Stop Heap := do
  let a ← h.position i
  return { h with stack := h.stack.eraseIdxIfInBounds a }

/-- Moves the top value to an index; those from there on move up. -/
def insert (h : Heap) (i : Int) : Except Stop Heap := do
  let a ← h.position i
  match h.stack.back? with
  | some v => return { h with stack := h.stack.pop.insertIdxIfInBounds a v }
  | none => return h

def typeOf (v : Option Value) : Except Stop String :=
  match v with
  | some (.object p) =>
    match h.object? p with
    | some o => .ok o.body.typeName
    | none => .error (.crash .runtime)
  | v => .ok (Value.kindName v)

def typeName : Except Stop String := h.typeOf (h.value? i)

def mismatch (want : String) : Stop :=
  match h.typeName i with
  | .ok t => .fault (.issue ⟨.heap, .typeMismatch, [], "", t, s!"stack index {i}: expected {want}"⟩)
  | .error s => s

def requireBoolean : Except Stop Bool :=
  match h.value? i with
  | some (.boolean b) => .ok b
  | _ => .error (h.mismatch i "boolean")

def requireNumber : Except Stop Double :=
  match h.value? i with
  | some (.number x) => .ok x
  | _ => .error (h.mismatch i "number")

def requireString : Except Stop String :=
  match h.value? i with
  | some (.string s) => .ok s
  | _ => .error (h.mismatch i "string")

def requirePointer : Except Stop Payload :=
  match h.value? i with
  | some (.pointer p) => .ok p
  | _ => .error (h.mismatch i "pointer")

def requireObject : Except Stop HeapPtr :=
  match h.value? i with
  | some (.object p) => .ok p
  | _ => .error (h.mismatch i "object")

def deref (p : HeapPtr) : Except Stop Object :=
  match h.object? p with
  | some o => .ok o
  | none => .error (.crash .runtime)

def getNumber : Double :=
  match h.value? i with
  | some (.number x) => x
  | _ => .nan

def getPointer : Payload :=
  match h.value? i with
  | some (.pointer p) => p
  | _ => .null

def isObject : Bool :=
  match h.value? i with
  | some (.object _) => true
  | _ => false

def isNumber : Bool :=
  match h.value? i with
  | some (.number _) => true
  | _ => false

def isNullish : Bool :=
  match h.value? i with
  | some .null | some .undefined => true
  | _ => false

def objectAt? : Except Stop (Option Object) :=
  match h.value? i with
  | some (.object p) => (h.deref p).map some
  | _ => .ok none

def isFunction (h : Heap) (i : Int) : Except Stop Bool := (h.objectAt? i).map fun o => o.any (·.isFunction)

def isBuffer : Except Stop Bool := (h.objectAt? i).map fun o => o.any (·.buffer?.isSome)

def bufferData : Except Stop (Option Slice) :=
  (h.objectAt? i).map fun o =>
    match o.bind (·.buffer?) with
    | some b => if b.detached then none else some b.data
    | none => none

def requireBuffer : Except Stop Slice := do
  match (← h.objectAt? i).bind (·.buffer?) with
  | none => .error (h.mismatch i "buffer")
  | some b =>
    if b.detached then
      .error (.fault (.issue ⟨.heap, .typeMismatch, [], "", "buffer", s!"stack index {i}: buffer is detached"⟩))
    else return b.data

def current : Value :=
  match h.frames with
  | f :: _ => .object f.fn
  | [] => .undefined

def this (h : Heap) : Value :=
  match h.frames with
  | f :: _ => f.this
  | [] => .undefined

def argCount : Int :=
  match h.frames with
  | f :: _ => f.supplied
  | [] => 0

end Tether.Heap
