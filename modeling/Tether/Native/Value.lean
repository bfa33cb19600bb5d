import Tether.Fault.Basic
import Tether.Native.Type
import Tether.Number.Double
import Tether.Storage.Pool

/-!
# Native values

The values that native functions take and give. A value does not carry its type; the place where it
stands does.
-/

namespace Tether

inductive NativeValue where
  | nil
  | bool (b : Bool)
  | int (i : Int)
  | float (x : Double)
  | text (s : String)
  | bytes (s : Slice)
  | list (elems : List NativeValue)
  | struct (fields : List NativeValue)
  | some (v : NativeValue)
  | object (id : Nat)
  | fault (f : Fault)

instance : Inhabited NativeValue := ⟨.nil⟩

namespace NativeType

mutual

def zero : NativeType → NativeValue
  | bool => .bool false
  | string => .text ""
  | int _ => .int 0
  | float32 | float64 | complex128 => .float ⟨0⟩
  | named _ type => zero type
  | array size elem => .list (List.replicate size (zero elem))
  | struct fields => .struct (zeros fields)
  | body _ => .struct [.struct []]
  | interface _ | slice _ | pointer _ | map _ _ | func _ _ _ => .nil

def zeros : NativeFields → List NativeValue
  | .nil => []
  | .cons _ type _ _ rest => zero type :: zeros rest

end

end NativeType

end Tether
