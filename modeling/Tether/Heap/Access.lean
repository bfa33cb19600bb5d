import Tether.Heap.Stack

/-!
# Properties, prototypes and finalizers

Operations that read and write the objects on the stack. A property that an object does not own is
looked up along its prototypes, at most `maxPrototypes` of them; hidden properties are not
inherited.
-/

namespace Tether.Heap

def maxPrototypes : Nat := 64

def lookupFrom (h : Heap) (k : String) : Nat → HeapPtr → Option Value
  | 0, _ => none
  | n + 1, p =>
    match h.object? p with
    | none => none
    | some o =>
      match o.props.get? k with
      | some v => some v
      | none =>
        match o.prototype with
        | some q => lookupFrom h k n q
        | none => none

def lookup (h : Heap) (p : HeapPtr) (k : String) : Option Value := h.lookupFrom k maxPrototypes p

variable (h : Heap)

def operand (what : String) : Except Stop Value :=
  if h.top < 1 then .error (.fault (.invalidInput .heap (what ++ " on empty stack")))
  else .ok (h.stack.back?.getD .undefined)

variable (i : Int) (k : String)

def putProp : Except Stop Heap := do
  let p ← h.requireObject i
  let v ← h.operand "put property"
  let _ ← h.deref p
  (h.modifyObject p fun o => { o with props := o.props.put k v }).popN 1

/-- Pushes a property of the object at an index, or undefined, and tells whether it was found. -/
def getProp : Except Stop (Bool × Heap) := do
  let p ← h.requireObject i
  match h.lookup p k with
  | some v => return (true, h.push v)
  | none => return (false, h.push .undefined)

/-- Whether the value at an index is an object with a property. -/
def hasProp : Bool :=
  match h.value? i with
  | some (.object p) => (h.lookup p k).isSome
  | _ => false

/-- Deletes an own property and tells whether it was there. -/
def delProp : Except Stop (Bool × Heap) :=
  match h.value? i with
  | some (.object p) => do
    let o ← h.deref p
    if o.props.has k then
      return (true, h.modifyObject p fun o => { o with props := o.props.erase k })
    else return (false, h)
  | _ => .ok (false, h)

def keys (h : Heap) (i : Int) : Except Stop (List String) :=
  match h.value? i with
  | some (.object p) => (h.deref p).map (·.props.keys)
  | _ => .ok []

variable (sym : String)

def putHidden : Except Stop Heap := do
  let p ← h.requireObject i
  let v ← h.operand "put hidden property"
  let _ ← h.deref p
  (h.modifyObject p fun o => { o with hidden := o.hidden.put sym v }).popN 1

def getHidden : Except Stop (Bool × Heap) := do
  let p ← h.requireObject i
  let o ← h.deref p
  match o.hidden.get? sym with
  | some v => return (true, h.push v)
  | none => return (false, h.push .undefined)

def hasHidden : Except Stop Bool :=
  match h.value? i with
  | some (.object p) => (h.deref p).map (·.hidden.has sym)
  | _ => .ok false

def delHidden : Except Stop (Bool × Heap) :=
  match h.value? i with
  | some (.object p) => do
    let o ← h.deref p
    if o.hidden.has sym then
      return (true, h.modifyObject p fun o => { o with hidden := o.hidden.erase sym })
    else return (false, h)
  | _ => .ok (false, h)

def getPrototype : Except Stop Heap := do
  let o ← h.deref (← h.requireObject i)
  return h.push ((o.prototype.map Value.object).getD .undefined)

def onChain (h : Heap) (target : HeapPtr) : Nat → HeapPtr → Bool
  | 0, _ => false
  | n + 1, p =>
    match h.object? p with
    | none => false
    | some o =>
      p == target ||
        match o.prototype with
        | some q => onChain h target n q
        | none => false

/-- Takes the top value as the prototype of the object at an index; null or undefined removes it. -/
def setPrototype : Except Stop Heap := do
  let p ← h.requireObject i
  match ← h.operand "set prototype" with
  | .object q =>
    if h.onChain p h.table.slots.size q then .error (.fault (.invalidInput .heap "prototype cycle"))
    else
      let _ ← h.deref p
      let prototype := if (h.object? q).isSome then some q else none
      (h.modifyObject p fun o => { o with prototype }).popN 1
  | .null | .undefined =>
    let _ ← h.deref p
    (h.modifyObject p fun o => { o with prototype := none }).popN 1
  | _ => .error (h.mismatch (-1) "object or null")

def pointerAt : Except Stop HeapPtr :=
  match h.value? i with
  | some (.object p) => (h.deref p).map fun _ => p
  | _ => .ok .null

def pushPointer (p : HeapPtr) : Except Stop Heap :=
  match h.object? p with
  | some _ => .ok (h.push (.object p))
  | none => .error (.fault (.issue ⟨.heap, .notFound, [], "", "", s!"stale heap pointer {p.text}"⟩))

/-- Takes the top function as the finalizer of the object at an index; undefined removes it. -/
def setFinalizer : Except Stop Heap := do
  let p ← h.requireObject i
  match ← h.operand "set finalizer" with
  | .undefined =>
    let _ ← h.deref p
    (h.modifyObject p fun o => { o with finalizer := none }).popN 1
  | .object q =>
    if (← h.deref q).isFunction then
      let _ ← h.deref p
      (h.modifyObject p fun o => { o with finalizer := some q }).popN 1
    else .error (h.mismatch (-1) "function")
  | _ => .error (h.mismatch (-1) "function")

def getFinalizer : Except Stop Heap := do
  let o ← h.deref (← h.requireObject i)
  return h.push ((o.finalizer.map Value.object).getD .undefined)

end Tether.Heap
