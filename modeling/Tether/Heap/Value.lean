import Tether.Number.Double

/-!
# Script values

What a slot of the value stack or a property holds. Objects are held by their heap pointer; the null
pointer stands for an object that is not there, which only a closed heap gives out.
-/

namespace Tether

/-! ## Heap pointers

A heap pointer names an object by the slot that holds it and by the generation of that slot. It does
not keep the object alive: when the slot is used again its generation goes up, and the old pointer
names nothing. -/

/-- A slot of the object table and its generation. -/
structure HeapPtr where
  slot : UInt32
  gen : UInt32
deriving DecidableEq, Inhabited

namespace HeapPtr

def null : HeapPtr := ⟨0, 0⟩

def isNull (p : HeapPtr) : Bool := p == null

def text (p : HeapPtr) : String := s!"HeapPtr({p.slot.toNat}@{p.gen.toNat})"

end HeapPtr

/-! ## Values -/

/-- An opaque native value inside a script value. -/
inductive Payload where
  | null
  | int (i : Int)
  | float (x : Double)
  | text (s : String)
  | bool (b : Bool)
  | cell (name : String)
  | record (id : Option Nat)
  | bridge (id : Nat)
  | list
deriving DecidableEq

namespace Payload

def typeName : Payload → String
  | null => "<nil>"
  | int _ => "int"
  | float _ => "float64"
  | text _ => "string"
  | bool _ => "bool"
  | cell _ => "*main.cell"
  | record _ => "*bridge.Record"
  | bridge _ => "*bridge.Bridge"
  | list => "[]int"

/-- Whether two payloads are the same native value; one that cannot be compared equals nothing. -/
def same : Payload → Payload → Bool
  | float x, float y => x.equals y
  | list, _ | _, list => false
  | p, q => p == q

end Payload

inductive Value where
  | undefined
  | null
  | boolean (b : Bool)
  | number (x : Double)
  | string (s : String)
  | pointer (p : Payload)
  | object (p : HeapPtr)
deriving DecidableEq, Inhabited

namespace Value

def kindName : Option Value → String
  | none => "none"
  | some undefined => "undefined"
  | some null => "null"
  | some (boolean _) => "boolean"
  | some (number _) => "number"
  | some (string _) => "string"
  | some (pointer _) => "pointer"
  | some (object _) => "object"

def object? : Value → Option HeapPtr
  | object p => some p
  | _ => none

/-- Equality without conversion. -/
def strictEquals : Option Value → Option Value → Bool
  | some undefined, some undefined => true
  | some null, some null => true
  | some (boolean a), some (boolean b) => a == b
  | some (number x), some (number y) => x.equals y
  | some (string s), some (string t) => s == t
  | some (pointer p), some (pointer q) => p.same q
  | some (object p), some (object q) => p == q
  | _, _ => false

end Value

def valueKindNames : List String :=
  ["none", "undefined", "null", "boolean", "number", "string", "pointer", "object"]

def valueKindName (n : Nat) : String := valueKindNames[n]?.getD s!"kind({n})"

end Tether
