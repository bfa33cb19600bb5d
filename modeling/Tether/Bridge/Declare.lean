import Tether.Codec.Compile
import Tether.World

/-!
# Declaring functions, classes and modules

A declaration checks a native function against its signature and compiles the codecs of its
arguments and its result. What is wrong with a declaration is kept with the class or the module and
reported when it is used.
-/

namespace Tether

open M

def Fault.locate (path : List String) (f : Fault) : Fault :=
  match f.asIssue? with
  | some i => if i.path = [] then f.withPath path else f
  | none => f

def Stop.locate (path : List String) : Stop → Stop
  | .fault f => .fault (f.locate path)
  | s => s

namespace Callable

inductive Role where
  | free
  | method (cls : ClassId) (type : NativeType)
  | constructor (cls : ClassId) (type : NativeType)

def paramCodecs (fn : String) : List (String × WitType) → List NativeType → Except Stop (List Codec)
  | (name, wit) :: params, type :: types => do
    let codec ← (Codec.compile wit (some type)).mapError (·.locate [fn, name])
    return codec :: (← paramCodecs fn params types)
  | _, _ => .ok []

def resultCodec (name text : String) (wit : WitType) (results : List NativeType) : Except Stop (Option Codec) :=
  match wit, results with
  | .absent, [] => .ok none
  | .absent, _ :: _ => .error (.fault (.issue ⟨.bind, .invalidInput, [name], text, "",
      "function returns a value but the signature declares no result"⟩))
  | _, [] => .error (.fault (.issue ⟨.bind, .invalidInput, [name], text, "",
      "signature declares a result but the function returns none"⟩))
  | wit, type :: _ =>
    ((Codec.compile wit (some type)).mapError (·.locate [name, "result"])).map some

def compile (name : String) (fn : NativeFn Program) (sig : Signature) (role : Role) : Except Stop Callable := do
  if name = "" then .error (.fault (.invalidInput .bind "function name cannot be empty"))
  match fn.types? with
  | none =>
    let typeName := match fn with
      | .notFunction typeName => typeName
      | _ => ""
    .error (.fault (.issue ⟨.bind, .typeMismatch, [name], typeName, "", "handler must be a function"⟩))
  | some (inputs, outputs, variadic) =>
    let text := (NativeType.func (.ofList inputs) (.ofList outputs) variadic).text
    if variadic then
      .error (.fault (.issue ⟨.bind, .unsupported, [name], text, "", "variadic functions cannot be bound"⟩))
    let inputs ← match role with
      | .method _ type =>
        match inputs with
        | first :: rest =>
          if type.assignableTo first then pure rest
          else .error (.fault (.issue ⟨.bind, .typeMismatch, [name, "this"], text, "",
            "first parameter must accept " ++ type.text⟩))
        | [] => .error (.fault (.issue ⟨.bind, .typeMismatch, [name, "this"], text, "",
            "first parameter must accept " ++ type.text⟩))
      | _ => pure inputs
    if inputs.length ≠ sig.params.length then
      .error (.fault (.issue ⟨.bind, .invalidInput, [name], text, "",
        s!"function takes {inputs.length} parameter(s), signature declares {sig.params.length}"⟩))
    let params ← paramCodecs name sig.params inputs
    let canFail := outputs.getLast? == some (.interface .error)
    let results := if canFail then outputs.dropLast else outputs
    if 1 < results.length then
      .error (.fault (.issue ⟨.bind, .unsupported, [name], text, "", "at most one result besides error"⟩))
    match role with
    | .constructor cls type =>
      if results.any (·.assignableTo type) then
        return ⟨fn, name, sig, params, none, none, some cls, canFail⟩
      else
        .error (.fault (.issue ⟨.bind, .typeMismatch, [name], text, "", "constructor must return " ++ type.text⟩))
    | .method cls _ =>
      let codec ← resultCodec name text sig.result results
      return ⟨fn, name, sig, params, codec, some cls, none, canFail⟩
    | .free =>
      let codec ← resultCodec name text sig.result results
      return ⟨fn, name, sig, params, codec, none, none, canFail⟩

end Callable

/-! ## Classes -/

namespace ClassDecl

def fault? (c : ClassDecl) : Option Fault := Fault.join? (c.faults.map some)

/-- The class with one more method; a method of the same name is replaced in its place. -/
def addMethod (c : ClassDecl) (m : Callable) : ClassDecl :=
  let methods :=
    if c.methods.any (·.name == m.name) then
      c.methods.map fun old => if old.name == m.name then m else old
    else c.methods ++ [m]
  { c with methods }

end ClassDecl

def faultOr {α : Type} (x : Except Stop α) : M (Except Fault α) :=
  match x with
  | .ok a => return .ok a
  | .error (.fault f) => return .error f
  | .error (.crash c) => crash c

def declareClass (type : NativeType) (name : String) (resource : Option WitDef) : M ClassId := do
  let c := (← get).classes.size
  let key := s!"heapbridge.class.{name}#{c + 1}"
  modify fun w => { w with classes := w.classes.push ⟨type, resource, none, name, [], [], key⟩ }
  return c

variable (c : ClassId)

def keepInClass (x : Except Stop Callable) (add : ClassDecl → Callable → ClassDecl) : M Unit := do
  match ← faultOr x with
  | .ok m => modifyClass c fun d => add d m
  | .error f => modifyClass c fun d => { d with faults := d.faults ++ [f] }

def declareConstructor (fn : NativeFn Program) (sig : Signature) : M Unit := do
  let d ← classDecl c
  keepInClass c (Callable.compile d.name fn sig (.constructor c d.type)) fun d m =>
    { d with constructor := some m }

def declareMethod (name : String) (fn : NativeFn Program) (sig : Signature) : M Unit := do
  let d ← classDecl c
  keepInClass c (Callable.compile name fn sig (.method c d.type)) (·.addMethod ·)

/-! ## Modules -/

def WitDef.cases? (d : WitDef) : Option (List String) :=
  match d.kind with
  | .enum cases => some cases
  | _ => none

namespace ModuleDecl

variable (m : ModuleDecl)

def fault? : Option Fault := Fault.join? (m.faults.map some)

def addFault (name : String) (f : Fault) : ModuleDecl :=
  { m with faults := m.faults ++ [.registration m.name name (some f)] }

end ModuleDecl

def declareModule (name : String) : M Nat := do
  let m := (← get).modules.size
  modify fun w => { w with modules := w.modules.push { name } }
  return m

variable (m : Nat)

def declareFunction (name : String) (fn : NativeFn Program) (sig : Signature) : M Unit := do
  match ← faultOr (Callable.compile name fn sig .free) with
  | .ok c => modifyModule m fun d => { d with functions := d.functions ++ [c] }
  | .error f => modifyModule m (·.addFault name f)

def addClassTo (c : ClassId) : M Unit := do
  let d ← classDecl c
  match d.fault? with
  | some f => modifyModule m (·.addFault d.name f)
  | none => modifyModule m fun m => { m with classes := m.classes ++ [c] }

variable (d : Option WitDef)

/-- Adds an enumeration to a module. There is no name to report for a definition that is not there.
-/
def addEnumTo : M Unit := do
  let d ← need d
  match d.cases? with
  | some cases => modifyModule m fun m => { m with enums := m.enums ++ [(d, cases)] }
  | none =>
    let name := WitType.textOfDef d
    modifyModule m (·.addFault name (.plain (name ++ " is not an enum")))

def addRecordTo (type : Option NativeType) : M Unit := do
  let d ← need d
  let name := WitType.textOfDef d
  match ← faultOr (Codec.compile (.defined d) type) with
  | .error f => modifyModule m (·.addFault name f)
  | .ok codec =>
    match codec.shape with
    | .record _ => modifyModule m fun m => { m with records := m.records ++ [(d, codec)] }
    | _ => modifyModule m (·.addFault name (.plain (name ++ " is not a record")))

end Tether
