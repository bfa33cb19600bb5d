import Tether.Codec.Basic
import Tether.Fault.Basic
import Tether.Fault.Causes
import Tether.Text.LetterCase

/-!
# Compiling codecs

`Codec.compile` matches an interface type with a native type and gives the codec between them, or
the fault at the first place, in declaration order, where they do not fit.
-/

namespace Tether

/-! ## Fields -/

/-- Splits at the quote that closes a quoted text; an escaped character closes nothing. -/
def splitQuoted : List Char → Option (List Char × List Char)
  | [] | ['\\'] => none
  | '"' :: rest => some ([], rest)
  | '\\' :: c :: rest => (splitQuoted rest).map fun (body, rest) => ('\\' :: c :: body, rest)
  | c :: rest => (splitQuoted rest).map fun (body, rest) => (c :: body, rest)

/-- The bytes of the value of a key in a tag made of `key:"value"` pairs; `fuel` bounds the number
of pairs. -/
def tagValue (key : String) : Nat → List Char → List UInt8
  | 0, _ => []
  | fuel + 1, tag =>
    let tag := tag.dropWhile (· == ' ')
    let name := tag.takeWhile fun c => ' ' < c && c != ':' && c != '"' && c.toNat != 0x7f
    match name.isEmpty, tag.drop name.length with
    | false, ':' :: '"' :: rest =>
      match splitQuoted rest with
      | some (body, rest) =>
        if String.ofList name = key then (Text.unescape? body).getD [] else tagValue key fuel rest
      | none => []
    | _, _ => []

variable (f : NativeField)

def NativeField.witTag : List UInt8 := tagValue "wit" f.tag.length f.tag.toList

/-- Whether a field stands for a field of a record: by its tag, by its name up to case, or by its
name in lower case with hyphens. A field tagged with a hyphen stands for none. -/
def NativeField.standsFor (name : String) : Bool :=
  f.exported &&
    let tag := f.witTag
    if tag = Text.bytes "-" then false
    else
      (!tag.isEmpty && tag == Text.bytes name) || Text.equalFold f.name name || Text.toKebab f.name == name

/-- The first field from position `i` on that stands for a field of a record, with its position. -/
def findFieldFrom? (name : String) : Nat → List NativeField → Option (Nat × NativeField)
  | _, [] => none
  | i, f :: rest => if f.standsFor name then some (i, f) else findFieldFrom? name (i + 1) rest

def findField? (fields : List NativeField) (name : String) : Option (Nat × NativeField) :=
  findFieldFrom? name 0 fields

/-! ## Types -/

namespace Codec

def allowedInts : Nat → Bool → List IntType
  | 8, false => [.uint8]
  | 8, true => [.int8]
  | 16, false => [.uint16]
  | 16, true => [.int16]
  | 32, false => [.uint32, .uint]
  | 32, true => [.int32, .int]
  | 64, false => [.uint64, .uint]
  | 64, true => [.int64, .int]
  | _, _ => []

/-- How a primitive type crosses, if it can. -/
def primShape? : WitPrim → Option CodecShape
  | .bool => some .bool
  | .u8 => some (.int 8 false)
  | .s8 => some (.int 8 true)
  | .u16 => some (.int 16 false)
  | .s16 => some (.int 16 true)
  | .u32 => some (.int 32 false)
  | .s32 => some (.int 32 true)
  | .u64 => some (.int 64 false)
  | .s64 => some (.int 64 true)
  | .f32 => some (.float 32)
  | .f64 => some (.float 64)
  | .string => some .string
  | .char | .errorContext => none

def fitsPrim (shape : CodecShape) (type : NativeType) : Bool :=
  match shape, type.underlying with
  | .bool, .bool => true
  | .string, .string => true
  | .float 32, .float32 => true
  | .float 64, .float64 => true
  | .int bits signed, .int k => (allowedInts bits signed).contains k
  | _, _ => false

def unsupportedWit (wit : WitType) (type : NativeType) (path : List String) : Fault :=
  .issue ⟨.bind, .unsupported, path, type.text, "", "unsupported wit type: " ++ wit.typeName⟩

def badDeclaration (path : List String) (nativeType detail : String) : Fault :=
  .issue ⟨.bind, .invalidInput, path, nativeType, "", detail⟩

def compilePrim (p : WitPrim) (type : NativeType) (path : List String) : Except Stop Codec :=
  match primShape? p with
  | none => .error (.fault (unsupportedWit (.prim p) type path))
  | some shape =>
    if fitsPrim shape type then .ok (.mk type p.text shape)
    else .error (.fault (.typeMismatch .bind path type.text p.text))

def compileEnum (name : String) (cases : List String) (type : NativeType) (path : List String) : Except Stop Codec :=
  match type.intType? with
  | none | some .uintptr => .error (.fault (.typeMismatch .bind path type.text "integer"))
  | some _ =>
    if cases.isEmpty then
      .error (.fault (badDeclaration path "" s!"enum {name} has no cases"))
    else .ok (.mk type name (.enum cases))

def compileOwn (resource : Option WitDef) (type : NativeType) (path : List String) : Except Stop Codec :=
  match resource with
  | none => .error (.fault (badDeclaration path "" "own handle without resource type"))
  | some resource =>
    if type.satisfies .object then
      .ok (.mk type ("own<" ++ WitType.textOfDef resource ++ ">") (.own resource))
    else .error (.fault (.typeMismatch .bind path type.text "bridge.Object"))

mutual

def compileAt : WitType → NativeType → List String → Except Stop Codec
  | .absent, type, path => .error (.fault (unsupportedWit .absent type path))
  | .prim p, type, path => compilePrim p type path
  | .defined d, type, path => compileDef d type path

def compileDef : WitDef → NativeType → List String → Except Stop Codec
  | .mk _ name kind, type, path => compileKind name kind type path

def compileKind (name : Option String) : WitKind → NativeType → List String → Except Stop Codec
  | .record fields, type, path =>
    match type.fields? with
    | none => .error (.fault (.typeMismatch .bind path type.text "struct"))
    | some natives => do
      let fields ← compileFields fields natives path
      return .mk type (name.getD "typedef") (.record fields)
  | .enum cases, type, path => compileEnum (name.getD "typedef") cases type path
  | .list elem, type, path =>
    match type.sliceElem? with
    | none => .error (.fault (.typeMismatch .bind path type.text "slice"))
    | some elemType =>
      if elem == .prim .u8 && elemType.intType? == some .uint8 then .ok (.mk type "list<u8>" .bytes)
      else do
        let codec ← compileAt elem elemType (path ++ ["[elem]"])
        return .mk type ("list<" ++ codec.name ++ ">") (.list codec)
  | .option elem, type, path =>
    if type.isInterface then .error (.crash .runtime)
    else
      match type.target? with
      | none => .error (.fault (.typeMismatch .bind path type.text "pointer"))
      | some target => do
        let elemType := if elem.isOwn && type.satisfies .object then type else target
        let codec ← compileAt elem elemType (path ++ ["[some]"])
        return .mk type ("option<" ++ codec.name ++ ">") (.option codec)
  | .own resource, type, path => compileOwn (some resource) type path
  | .ownNothing, type, path => compileOwn none type path
  | .alias inner, type, path => compileAt inner type path
  | kind, type, path =>
    let detail := "unsupported type definition: " ++ WitType.kindName kind
    .error (.fault (.issue ⟨.bind, .unsupported, path, type.text, "", detail⟩))

def compileFields : WitFields → List NativeField → List String → Except Stop CodecFields
  | .nil, _, _ => .ok .nil
  | .cons name wit rest, natives, path =>
    match findField? natives name with
    | none => .error (.fault (.fieldMissing .bind path name))
    | some (index, field) => do
      let codec ← compileAt wit field.type (path ++ [name])
      let rest ← compileFields rest natives path
      return .cons name field.name index codec rest

end

/-- Compiles the codec between an interface type and a native type, either of which may be missing.
-/
def compile (wit : WitType) (type : Option NativeType) : Except Stop Codec :=
  match type with
  | none => .error (.fault (badDeclaration [] "" "Go type cannot be nil"))
  | some type =>
    if wit = .absent then
      .error (.fault (badDeclaration [] type.text "wit type cannot be nil"))
    else compileAt wit type []

end Codec

/-! ## Remembered codecs -/

/-- What a compiler tells interface types apart by: primitive types by kind, definitions by
identity. -/
inductive WitKey where
  | prim (p : WitPrim)
  | defined (id : Nat)
deriving DecidableEq

def WitType.key? : WitType → Option WitKey
  | absent => none
  | prim p => some (.prim p)
  | defined d => some (.defined d.id)

structure Compiler where
  known : List (WitKey × NativeType × Codec) := []

namespace Compiler

def find? (c : Compiler) (key : WitKey) (type : NativeType) : Option (Nat × Codec) :=
  (c.known.findIdx? fun (k, t, _) => k == key && t == type).bind fun i =>
    (c.known[i]?).map fun (_, _, codec) => (i, codec)

/-- The codec for a pair of types, remembered under its position, and the compiler afterwards. -/
def compile (c : Compiler) (wit : WitType) (type : Option NativeType) : Except Stop (Nat × Codec) × Compiler :=
  match type, wit.key? with
  | some t, some key =>
    match c.find? key t with
    | some hit => (.ok hit, c)
    | none =>
      match Codec.compile wit (some t) with
      | .ok codec => (.ok (c.known.length, codec), ⟨c.known ++ [(key, t, codec)]⟩)
      | .error e => (.error e, c)
  | _, _ => ((Codec.compile wit type).map fun codec => (c.known.length, codec), c)

/-- The codecs for pairs of types, one after the other; each with its position among those
remembered. There is no pair where the native type that was asked for cannot be formed. -/
def compileAll (c : Compiler) : List (Option (WitType × Option NativeType)) → List (Except Stop (Nat × Codec))
  | [] => []
  | none :: rest => .error (.crash .runtime) :: c.compileAll rest
  | some (wit, type) :: rest =>
    let (r, c) := c.compile wit type
    r :: c.compileAll rest

end Compiler

end Tether
