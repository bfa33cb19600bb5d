import Tether.Codec.Basic
import Tether.Program.Syntax

/-!
# Declarations

What native code declares for scripts: bound functions, classes with their methods and constructor,
and modules. These are the data; `Tether.Bridge.Declare` checks declarations and
`Tether.Bridge.Namespace` puts them on a heap.
-/

namespace Tether

abbrev ClassId := Nat

/-- A bound function: the native function and the codecs for its arguments and its result. -/
structure Callable where
  fn : NativeFn Program
  name : String
  sig : Signature
  params : List Codec
  result : Option Codec
  receiver : Option ClassId
  makes : Option ClassId
  /-- Whether the last native result is a fault. -/
  canFail : Bool

structure ClassDecl where
  type : NativeType
  resource : Option WitDef
  constructor : Option Callable
  name : String
  methods : List Callable
  faults : List Fault
  key : String

structure ModuleDecl where
  name : String
  functions : List Callable := []
  classes : List ClassId := []
  enums : List (WitDef × List String) := []
  records : List (WitDef × Codec) := []
  faults : List Fault := []

inductive Code where
  | program (f : FuncSpec Program)
  | finalizer (bridge : Nat)
  | bound (bridge : Nat) (c : Callable)

/-! ## Descriptions -/

structure FuncDescription where
  name : String
  signature : String
  params : List (String × WitType)

structure ClassDescription where
  name : String
  type : String
  constructor : Option FuncDescription
  methods : List FuncDescription

/-- The bindings of a module, for tools. -/
structure Description where
  name : String
  functions : List FuncDescription
  classes : List ClassDescription
  enums : List (String × List String)
  records : List (String × String × List String)

def Signature.text (s : Signature) : String :=
  let params := s.params.map fun (name, t) => name ++ ": " ++ t.text
  let result := if s.result = .absent then "" else " -> " ++ s.result.text
  "(" ++ ", ".intercalate params ++ ")" ++ result

def Callable.describe (c : Callable) : FuncDescription := ⟨c.name, c.name ++ c.sig.text, c.sig.params⟩

end Tether
