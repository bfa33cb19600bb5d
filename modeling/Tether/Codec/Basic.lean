import Tether.Native.Type
import Tether.Wit.Type

/-!
# Codecs

A codec says how values of one native type cross to scripts as one interface type says. It is a tree
that follows the interface type; every node names the native type at its place.
-/

namespace Tether

mutual

/-- A codec: the native type, the name that messages use, and how values cross. -/
inductive Codec where
  | mk (type : NativeType) (name : String) (shape : CodecShape)

inductive CodecShape where
  | bool
  | int (bits : Nat) (signed : Bool)
  | float (bits : Nat)
  | string
  | record (fields : CodecFields)
  | enum (cases : List String)
  | bytes
  | list (elem : Codec)
  | option (elem : Codec)
  | own (resource : WitDef)

/-- The fields of a record: the name in scripts, the native name and position, and the codec of the
field. -/
inductive CodecFields where
  | nil
  | cons (name nativeName : String) (index : Nat) (codec : Codec) (rest : CodecFields)

end

instance : Inhabited Codec := ⟨.mk .bool "" .bool⟩

namespace Codec

def type : Codec → NativeType
  | mk type _ _ => type

def name : Codec → String
  | mk _ name _ => name

def shape : Codec → CodecShape
  | mk _ _ shape => shape

end Codec

structure CodecField where
  name : String
  nativeName : String
  index : Nat
  codec : Codec

def CodecFields.toList : CodecFields → List CodecField
  | nil => []
  | cons name nativeName index codec rest => ⟨name, nativeName, index, codec⟩ :: rest.toList

def CodecShape.kindName : CodecShape → String
  | bool => "bool"
  | int .. => "int"
  | float _ => "float"
  | string => "string"
  | record _ => "record"
  | enum _ => "enum"
  | bytes => "bytes"
  | list _ => "list"
  | option _ => "option"
  | own _ => "own"

def codecKindNames : List String :=
  ["bool", "int", "float", "string", "record", "enum", "bytes", "list", "option", "own"]

def codecKindName (n : Nat) : String := codecKindNames[n]?.getD "unknown"

end Tether
