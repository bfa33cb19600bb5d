/-!
# Interface types

The types in which declarations describe what crosses between scripts and native code: primitive
types, and definitions of records, enumerations, lists, options and handles. Every definition has an
identity of its own, so two definitions with the same contents stay apart.
-/

namespace Tether

inductive WitPrim where
  | bool | u8 | s8 | u16 | s16 | u32 | s32 | u64 | s64 | f32 | f64 | char | string | errorContext
deriving DecidableEq

/-- Kinds of definition that never cross. -/
inductive WitOther where
  | resource | tuple | variant | flags | result | future | stream
deriving DecidableEq

mutual

inductive WitType where
  | absent
  | prim (p : WitPrim)
  | defined (d : WitDef)
deriving DecidableEq

/-- A definition with its identity. -/
inductive WitDef where
  | mk (id : Nat) (name : Option String) (kind : WitKind)
deriving DecidableEq

/-- What a definition defines. -/
inductive WitKind where
  | record (fields : WitFields)
  | enum (cases : List String)
  | list (elem : WitType)
  | option (elem : WitType)
  | own (resource : WitDef)
  /-- A handle to no resource. -/
  | ownNothing
  | borrow
  | alias (type : WitType)
  | other (kind : WitOther)
  | none
deriving DecidableEq

inductive WitFields where
  | nil
  | cons (name : String) (type : WitType) (rest : WitFields)
deriving DecidableEq

end

instance : Inhabited WitType := ⟨.absent⟩
instance : Inhabited WitKind := ⟨.none⟩
instance : Inhabited WitDef := ⟨.mk 0 none .none⟩

namespace WitDef

def id : WitDef → Nat
  | mk id _ _ => id

def name : WitDef → Option String
  | mk _ name _ => name

def kind : WitDef → WitKind
  | mk _ _ kind => kind

end WitDef

namespace WitFields

def toList : WitFields → List (String × WitType)
  | nil => []
  | cons name type rest => (name, type) :: rest.toList

def ofList : List (String × WitType) → WitFields
  | [] => nil
  | (name, type) :: rest => cons name type (ofList rest)

end WitFields

def WitPrim.text : WitPrim → String
  | bool =>
    "bool" | u8 => "u8" | s8 => "s8" | u16 => "u16" | s16 => "s16" | u32 => "u32" | s32 => "s32"
  | u64 => "u64" | s64 => "s64" | f32 => "f32" | f64 => "f64" | char => "char" | string => "string"
  | errorContext => "unknown"

def WitPrim.all : List WitPrim := [bool, u8, s8, u16, s16, u32, s32, u64, s64, f32, f64, char, string]

def WitPrim.ofName? (name : String) : Option WitPrim :=
  if name = "error-context" then some errorContext else all.find? (·.text == name)

def WitOther.names : List (String × WitOther) :=
  [("resource", resource), ("tuple", tuple), ("variant", variant), ("flags", flags), ("result", result),
    ("future", future), ("stream", stream)]

namespace WitType

mutual

def text : WitType → String
  | absent => "_"
  | prim p => p.text
  | defined d => textOfDef d

/-- A definition the way declarations write it: by its name, or by its contents. -/
def textOfDef : WitDef → String
  | .mk _ (some name) _ => name
  | .mk _ none kind => textOfKind kind

/-- The contents of a definition without a name. -/
def textOfKind : WitKind → String
  | .list elem => "list<" ++ text elem ++ ">"
  | .option elem => "option<" ++ text elem ++ ">"
  | .own resource => "own<" ++ textOfDef resource ++ ">"
  | .ownNothing => "own"
  | _ => "typedef"

end

def kindName : WitKind → String
  | .record _ => "*wit.Record"
  | .enum _ => "*wit.Enum"
  | .list _ => "*wit.List"
  | .option _ => "*wit.Option"
  | .own _ | .ownNothing => "*wit.Own"
  | .borrow => "*wit.Borrow"
  | .alias _ => "*wit.TypeDef"
  | .other .resource => "*wit.Resource"
  | .other .tuple => "*wit.Tuple"
  | .other .variant => "*wit.Variant"
  | .other .flags => "*wit.Flags"
  | .other .result => "*wit.Result"
  | .other .future => "*wit.Future"
  | .other .stream => "*wit.Stream"
  | .none => "<nil>"

def typeName : WitType → String
  | absent => "<nil>"
  | prim .char => "wit.Char"
  | prim .errorContext => "wit.ErrorContext"
  | prim p => "wit." ++ p.text
  | defined _ => "*wit.TypeDef"

def caption : WitType → String
  | prim .char => "wit.Char"
  | prim .errorContext => "wit.ErrorContext"
  | prim p => p.text
  | absent => "<nil>"
  | defined (.mk _ (some name) _) => name
  | defined (.mk _ none _) => "typedef"

def hint : WitType → String
  | defined (.mk _ _ (.enum cases)) => "|".intercalate cases
  | defined (.mk _ _ (.record fields)) => ",".intercalate (fields.toList.map (·.1))
  | defined (.mk _ _ (.list elem)) => "list<" ++ elem.caption ++ "> as a,b,c"
  | t => t.caption

def def? : WitType → Option WitDef
  | defined d => some d
  | _ => none

def isOwn : WitType → Bool
  | defined (.mk _ _ (.own _)) | defined (.mk _ _ .ownNothing) => true
  | _ => false

end WitType

end Tether
