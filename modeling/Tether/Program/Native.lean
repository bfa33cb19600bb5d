import Tether.Bridge.Marshal
import Tether.Geometry.Scene

/-!
# Native values in programs

How literals stand for native values and how native values are shown as literals, both guided by a
native type, and what a scripted native function returns.
-/

namespace Tether

open M

mutual

def World.literal (w : World) : NativeType → NativeValue → Literal
  | .named _ type, v => literal w type v
  | .slice elem, .list elems => .list (.ofList (elems.map (literal w elem)))
  | .array _ elem, .list elems => .list (.ofList (elems.map (literal w elem)))
  | .pointer target, .some v => .some (literal w target v)
  | .struct fields, .struct values => .fields (fieldLiterals w fields values)
  | .body _, .struct _ => .fields (.cons "Token" (.fields .nil) .nil)
  | _, .bool b => .bool b
  | _, .int i => .int i
  | _, .float x => .number x
  | _, .text s => .text s
  | _, .bytes s => .bytes (w.pool.bytes s)
  | _, .object o =>
    match w.natives[o]? with
    | some n => .object n.name
    | none => .null
  | _, _ => .null

def World.fieldLiterals (w : World) : NativeFields → List NativeValue → LiteralFields
  | .cons name type _ true rest, v :: values =>
    .cons name (literal w type v) (fieldLiterals w rest values)
  | .cons _ _ _ false rest, _ :: values => fieldLiterals w rest values
  | _, _ => .nil

end

def newBytes (data : List UInt8) : M Slice := do
  let (s, pool) := (← get).pool.ofBytes data
  modify fun w => { w with pool }
  return s

mutual

/-- The native value of a type that a literal stands for. What a literal leaves out is zero. -/
def nativeValue : NativeType → Literal → M NativeValue
  | .named _ type, l => nativeValue type l
  | .bool, .bool b => return .bool b
  | .string, .text s => return .text s
  | .int k, .int i => return .int (k.wrap i)
  | .float64, .number x => return .float x
  | .float32, .number x => return .float x.toSingle
  | .slice _, .bytes data => do return .bytes (← newBytes data)
  | .slice _, .keptBytes name => do
    match (← get).names.bytes.lookup name with
    | some (some s) => return .bytes s
    | _ => return .nil
  | .slice elem, .list elems => do
    Bridge.sliceOf (.slice elem) (← elems.toList.mapM (nativeValue elem))
  | .array _ elem, .list elems => do return .list (← elems.toList.mapM (nativeValue elem))
  | .pointer target, .some l => do Bridge.pointerTo target (← nativeValue target l)
  | .struct fields, .fields ls => do return .struct (← nativeFields fields ls.toList)
  | type, .object name => do
    match (← get).names.objects.lookup name with
    | some o =>
      if (NativeType.object (← native o).sort).assignableTo type then return .object o
      else crash .runtime
    | none => return .nil
  | type, _ => return type.zero

def nativeFields : NativeFields → List (String × Literal) → M (List NativeValue)
  | .nil, _ => return []
  | .cons name type _ _ rest, ls => do
    let v ← match ls.lookup name with
      | some l => nativeValue type l
      | none => pure type.zero
    return v :: (← nativeFields rest ls)

end

/-! ## Results of scripted functions -/

def countAs (type : NativeType) (n : Int) : NativeValue :=
  match type.underlying with
  | .int k => .int (k.wrap n)
  | .float32 | .float64 => .float (Double.ofInt n)
  | _ => .int n

def NativeValue.length : NativeValue → Nat
  | .bytes s => s.length
  | .list elems => elems.length
  | .text s => s.utf8ByteSize
  | _ => 0

def objectOf (v : NativeValue) : M NativeId :=
  match v with
  | .object o => return o
  | _ => crash .runtime

def makeNative (n : NativeObject) : M NativeId := do
  let o := (← get).natives.size
  modify fun w =>
    { w with
      natives := w.natives.push n
      names := { w.names with objects := (n.name, o) :: w.names.objects } }
  return o

def makeGadget (stem : String) (id : Int) : M NativeId := do
  let n := ((← get).names.stems.lookup stem).getD 0 + 1
  modify fun w => { w with names := { w.names with stems := (stem, n) :: w.names.stems } }
  makeNative { sort := .gadget, name := stem ++ toString n, id }

def resultOf (source type : NativeType) (v : NativeValue) : M NativeValue :=
  if source.assignableTo type then return v else crash .runtime

def returnValue (params : List NativeType) (args : List NativeValue) (type : NativeType) : FnReturn → M NativeValue
  | .zero => return type.zero
  | .arg i => do resultOf (← need params[i]?) type (← need args[i]?)
  | .lengthOf i => do return countAs type (← need args[i]?).length
  | .idOf i => do
    let n ← native (← objectOf (← need args[i]?))
    return countAs type n.id
  | .labelOf i => do
    let n ← native (← objectOf (← need args[i]?))
    resultOf .string type (.text n.label)
  | .newGadget stem id idArg => do
    let id ← match idArg with
      | none => pure id
      | some i =>
        match ← need args[i]? with
        | .int id => pure id
        | _ => crash .runtime
    resultOf (.object .gadget) type (.object (← makeGadget stem (IntType.int32.wrap id)))
  | .fault (some f) => resultOf (.interface .error) type (.fault f)
  | .fault none => return .nil
  | .literal l => nativeValue type l

/-- The results of a scripted function with given parameters; those that are not given are zero. -/
def returnValues (params : List NativeType) (args : List NativeValue) :
    List NativeType → List FnReturn → M (List NativeValue)
  | [], _ => return []
  | type :: types, [] => do return type.zero :: (← returnValues params args types [])
  | type :: types, r :: rest => do
    let v ← returnValue params args type r
    return v :: (← returnValues params args types rest)

end Tether
