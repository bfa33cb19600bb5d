import Tether.Number.Rounding
import Tether.Text.Quoted

/-!
# Native types

The types of the values and functions that native code brings to a bridge. Types are compared
structurally, except that a declared type differs from the type it is declared as.
-/

namespace Tether

inductive IntType where
  | int | int8 | int16 | int32 | int64 | uint | uint8 | uint16 | uint32 | uint64 | uintptr
deriving DecidableEq

namespace IntType

def text : IntType → String
  | int => "int" | int8 => "int8" | int16 => "int16" | int32 => "int32" | int64 => "int64"
  | uint => "uint" | uint8 => "uint8" | uint16 => "uint16" | uint32 => "uint32" | uint64 => "uint64"
  | uintptr => "uintptr"

def all : List IntType := [int, int8, int16, int32, int64, uint, uint8, uint16, uint32, uint64, uintptr]

def ofName? (name : String) : Option IntType := all.find? (·.text == name)

def signed : IntType → Bool
  | int | int8 | int16 | int32 | int64 => true
  | _ => false

def bits : IntType → Nat
  | int8 | uint8 => 8
  | int16 | uint16 => 16
  | int32 | uint32 => 32
  | _ => 64

def wrap (k : IntType) (i : Int) : Int :=
  if k.signed then Int.bmod i (2 ^ k.bits) else i % 2 ^ k.bits

end IntType

inductive Interface where
  /-- Every value. -/
  | any
  /-- Faults of native code. -/
  | error
  | object
  /-- Bindable objects with a number. -/
  | thing
deriving DecidableEq

def Interface.text : Interface → String
  | any => "interface \x7b\x7d"
  | error => "error"
  | object => "bridge.Object"
  | thing => "main.Thing"

inductive ObjectSort where
  | gadget | spanner | widget | marker
deriving DecidableEq

def ObjectSort.text : ObjectSort → String
  | gadget => "main.Gadget"
  | spanner => "main.Spanner"
  | widget => "geom.Widget"
  | marker => "geom.Marker"

mutual

inductive NativeType where
  | bool
  | string
  | int (k : IntType)
  | float32
  | float64
  | complex128
  | interface (i : Interface)
  | body (sort : ObjectSort)
  | named (name : String) (type : NativeType)
  | slice (elem : NativeType)
  | pointer (target : NativeType)
  | array (size : Nat) (elem : NativeType)
  | map (key value : NativeType)
  | func (params results : NativeTypes) (variadic : Bool)
  | struct (fields : NativeFields)
deriving DecidableEq

inductive NativeTypes where
  | nil
  | cons (type : NativeType) (rest : NativeTypes)
deriving DecidableEq

inductive NativeFields where
  | nil
  | cons (name : String) (type : NativeType) (tag : String) (exported : Bool) (rest : NativeFields)
deriving DecidableEq

end

instance : Inhabited NativeType := ⟨.bool⟩

structure NativeField where
  name : String
  type : NativeType
  tag : String := ""
  exported : Bool := true
deriving DecidableEq

namespace NativeTypes

def toList : NativeTypes → List NativeType
  | nil => []
  | cons t rest => t :: rest.toList

def ofList : List NativeType → NativeTypes
  | [] => nil
  | t :: rest => cons t (ofList rest)

end NativeTypes

namespace NativeFields

def toList : NativeFields → List NativeField
  | nil => []
  | cons name type tag exported rest => ⟨name, type, tag, exported⟩ :: rest.toList

def ofList : List NativeField → NativeFields
  | [] => nil
  | f :: rest => cons f.name f.type f.tag f.exported (ofList rest)

end NativeFields

namespace NativeType

mutual

def text : NativeType → String
  | bool => "bool"
  | string => "string"
  | int k => k.text
  | float32 => "float32"
  | float64 => "float64"
  | complex128 => "complex128"
  | interface i => i.text
  | body sort => sort.text
  | named name _ => name
  | slice elem => "[]" ++ text elem
  | pointer target => "*" ++ text target
  | array size elem => "[" ++ toString size ++ "]" ++ text elem
  | map key value => "map[" ++ text key ++ "]" ++ text value
  | func params results variadic =>
    let ps := if variadic then variadicTexts params else texts params
    let rs := texts results
    let out :=
      match rs with
      | [] => ""
      | [r] => " " ++ r
      | rs => " (" ++ ", ".intercalate rs ++ ")"
    "func(" ++ ", ".intercalate ps ++ ")" ++ out
  | struct fields =>
    match fieldTexts fields with
    | [] => "struct \x7b\x7d"
    | fs => "struct \x7b " ++ "; ".intercalate fs ++ " \x7d"

def texts : NativeTypes → List String
  | .nil => []
  | .cons t rest => text t :: texts rest

/-- Several parameter types, of which the last takes all remaining arguments. -/
def variadicTexts : NativeTypes → List String
  | .nil => []
  | .cons (.slice elem) .nil => ["..." ++ text elem]
  | .cons t rest => text t :: variadicTexts rest

def fieldTexts : NativeFields → List String
  | .nil => []
  | .cons name type tag _ rest =>
    (name ++ " " ++ text type ++ (if tag = "" then "" else " " ++ Text.quote tag)) :: fieldTexts rest

end

def underlying : NativeType → NativeType
  | named _ type => underlying type
  | t => t

variable (t : NativeType)

def intType? : Option IntType :=
  match t.underlying with
  | int k => some k
  | _ => none

def sliceElem? : Option NativeType :=
  match t.underlying with
  | slice elem => some elem
  | _ => none

def target? : Option NativeType :=
  match t.underlying with
  | pointer target => some target
  | _ => none

def isInterface : Bool :=
  match t.underlying with
  | interface _ => true
  | _ => false

def fields? : Option (List NativeField) :=
  match t.underlying with
  | struct fields => some fields.toList
  | body _ => some [{ name := "Token", type := named "bridge.Token" (struct .nil) }]
  | _ => none

theorem intType?_eq_some {k : IntType} : t.intType? = some k ↔ t.underlying = int k := by
  unfold intType?
  split <;> simp_all

theorem sliceElem?_eq_some {elem : NativeType} : t.sliceElem? = some elem ↔ t.underlying = slice elem := by
  unfold sliceElem?
  split <;> simp_all

theorem target?_eq_some {target : NativeType} : t.target? = some target ↔ t.underlying = pointer target := by
  unfold target?
  split <;> simp_all

def object (sort : ObjectSort) : NativeType := pointer (body sort)

def satisfies : Interface → Bool
  | .any => true
  | .error => t == interface .error
  | .object =>
    match t with
    | pointer (body _) | interface .object | interface .thing => true
    | _ => false
  | .thing => t == object .gadget || t == interface .thing

def isNamed : NativeType → Bool
  | slice _ | pointer _ | array _ _ | map _ _ | func _ _ _ | struct _ | interface .any => false
  | _ => true

/-- Whether a value of the first type may stand where the second is expected. A declared type and the
type behind its name may stand for each other if only one of them has a name. -/
def assignableTo (t target : NativeType) : Bool :=
  t == target || (t.underlying == target.underlying && !(t.isNamed && target.isNamed)) ||
    match target.underlying with
    | interface i => t.satisfies i
    | _ => false

variable {sort : ObjectSort}

/-- Native objects may stand for a type if it is theirs behind its name, or an interface that they
have. -/
theorem assignableTo_object {t : NativeType} : (object sort).assignableTo t = true ↔
      t.underlying = object sort ∨ ∃ i, t.underlying = interface i ∧ (object sort).satisfies i = true := by
  unfold assignableTo
  constructor
  · intro h
    rcases Bool.or_eq_true_iff.mp h with h | h
    · rcases Bool.or_eq_true_iff.mp h with h | h
      · exact .inl (by rw [← eq_of_beq h]; rfl)
      · exact .inl (eq_of_beq (Bool.and_eq_true_iff.mp h).1).symm
    · split at h
      · exact .inr ⟨_, ‹_›, h⟩
      · cases h
  · rintro (h | ⟨i, h, hi⟩)
    · simp [h, object, underlying, isNamed]
    · simp [h, hi]

theorem assignableTo_trans {t target : NativeType}
    (h : (object sort).assignableTo t = true) (ht : t.assignableTo target = true) :
    (object sort).assignableTo target = true := by
  unfold assignableTo at ht
  rcases Bool.or_eq_true_iff.mp ht with ht | ht
  · rcases Bool.or_eq_true_iff.mp ht with ht | ht
    · exact eq_of_beq ht ▸ h
    · have hu := eq_of_beq (Bool.and_eq_true_iff.mp ht).1
      rwa [assignableTo_object, ← hu, ← assignableTo_object]
  · split at ht
    · rename_i j hj
      refine assignableTo_object.mpr (.inr ⟨j, hj, ?_⟩)
      cases j with
      | any => rfl
      | error =>
          obtain rfl := eq_of_beq ht
          rcases assignableTo_object.mp h with h | ⟨i, hi, h⟩
          · cases h
          · cases hi; exact h
      | object => rfl
      | thing =>
          rcases Bool.or_eq_true_iff.mp ht with ht | ht
          · obtain rfl := eq_of_beq ht
            rcases assignableTo_object.mp h with h | ⟨i, hi, h⟩
            · cases h; rfl
            · cases hi
          · obtain rfl := eq_of_beq ht
            rcases assignableTo_object.mp h with h | ⟨i, hi, h⟩
            · cases h
            · cases hi; exact h
    · cases ht

end NativeType

end Tether
