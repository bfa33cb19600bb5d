import Tether.Bridge.Declaration
import Tether.Heap.Properties
import Tether.Heap.Value
import Tether.Storage.Pool

/-!
# Heap objects

An object has properties, hidden properties, a prototype and a finalizer. Functions, buffers and
errors are objects with something more.
-/

namespace Tether

structure Buffer where
  data : Slice
  address : Nat := 0
  /-- Whether the bytes were allocated from the storage of the heap. -/
  owned : Bool := false
  detached : Bool := false

/-- What makes an object more than its properties. -/
inductive Body where
  | plain
  | function (name : String) (arity : Int) (code : Option Code)
  | buffer (b : Buffer)
  | error (f : Fault)

def Body.typeName : Body → String
  | plain => "object"
  | function .. => "function"
  | buffer _ => "buffer"
  | error _ => "error"

structure Object where
  body : Body := .plain
  props : Properties Value := {}
  hidden : KeyMap Value := {}
  prototype : Option HeapPtr := none
  finalizer : Option HeapPtr := none
  finalized : Bool := false

namespace Object

variable (o : Object)

def functionName? : Option String :=
  match o.body with
  | .function name .. => some name
  | _ => none

def buffer? : Option Buffer :=
  match o.body with
  | .buffer b => some b
  | _ => none

def isFunction : Bool := o.functionName?.isSome

def references : List HeapPtr :=
  o.prototype.toList ++ o.finalizer.toList ++ o.props.values.filterMap Value.object? ++
    o.hidden.values.filterMap Value.object?

end Object

end Tether
