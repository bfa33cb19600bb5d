import Tether.Native.Type
import Tether.Text.Letter

/-!
# Forming native types

Native types are put together from named types. Not everything that can be written down is a type:
-/

namespace Tether.NativeType

/-! ## Named types -/

def vec3 : NativeType :=
  named "main.Vec3" (struct (.ofList [{ name := "X", type := float64 }, { name := "Y", type := float64 },
     { name := "Z", type := float64 }]))

def tagged : NativeType :=
  named "main.Tagged" (struct (.ofList [{ name := "MaxSpeed", type := float64 },
     { name := "Hidden", type := int .int, tag := "wit:\"-\"" },
     { name := "Label", type := string, tag := "wit:\"name\"" },
     { name := "private", type := bool, exported := false }]))

def shape : NativeType :=
  named "main.Shape" (struct (.ofList
    [{ name := "Points", type := slice vec3 }, { name := "Tag", type := pointer string },
     { name := "Data", type := slice (int .uint8) }, { name := "Mode", type := int .uint8 }]))

def namedTypes : List (String × NativeType) :=
  [("bool", bool), ("string", string), ("float32", float32), ("float64", float64),
   ("complex128", complex128), ("error", interface .error), ("any", interface .any),
   ("Gadget", object .gadget), ("GadgetStruct", body .gadget), ("Spanner", object .spanner),
   ("Thing", interface .thing), ("Object", interface .object),
   ("Color", named "main.Color" (int .int16)), ("Vec3", vec3), ("Tagged", tagged), ("Shape", shape)]

def ofName? (name : String) : Option NativeType := ((IntType.ofName? name).map int).or (namedTypes.lookup name)

/-! ## Composite types -/

mutual

/-- Whether the values of a type can be compared. The structure behind a native object holds code
and cannot. -/
def comparable : NativeType → Bool
  | slice _ | map _ _ | func _ _ _ | body _ => false
  | named _ type => comparable type
  | array _ elem => comparable elem
  | struct fields => allComparable fields
  | _ => true

def allComparable : NativeFields → Bool
  | .nil => true
  | .cons _ type _ _ rest => comparable type && allComparable rest

end

def isField (f : NativeField) : Bool :=
  Text.isIdentifier f.name && !(f.exported && f.name.toList.head?.any fun c => c.isLower || c == '_')

def namesDiffer : List String → Bool
  | [] => true
  | name :: rest => (name == "_" || !rest.contains name) && namesDiffer rest

def structOf? (fields : List NativeField) : Option NativeType :=
  if fields.all isField && namesDiffer (fields.map (·.name)) then some (struct (.ofList fields))
  else none

def mapOf? (key value : NativeType) : Option NativeType :=
  if key.comparable then some (map key value) else none

/-- How many parameters and results functions have at most. -/
def maxFuncTypes : Nat := 128

variable (params results : List NativeType) (variadic : Bool)

def isFunc : Bool :=
  params.length + results.length ≤ maxFuncTypes && (!variadic || params.getLast?.any (·.sliceElem?.isSome))

def funcOf? : Option NativeType :=
  if isFunc params results variadic then some (func (.ofList params) (.ofList results) variadic)
  else none

def arrayOf? (size : Int) (elem : NativeType) : Option NativeType :=
  if 0 ≤ size then some (array size.toNat elem) else none

end Tether.NativeType
