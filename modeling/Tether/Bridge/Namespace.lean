import Tether.Bridge.Wrap

/-!
# Modules on a heap

A module becomes an object with its functions, its constructors and its tables of enumeration cases
as properties.
-/

namespace Tether.Bridge

open M

variable (host : Host) (b : BridgeId) (h : HeapId) (m : Nat)

def checkModule : M Unit := do
  match (← moduleDecl m).fault? with
  | some f => fail f
  | none => return ()

/-- Pushes the constructor of a class, or an object in its place, with the prototype as a property.
-/
def pushClass (c : ClassId) : M Unit := do
  let d ← classDecl c
  match d.constructor with
  | some ctor =>
    let _ ← Heap.pushFunc host h d.name allArguments (some (.bound b ctor))
  | none =>
    let _ ← Heap.pushObject host h
  onFault (pushPrototype host b c) (changeHeap h (·.popN 2))
  ignoreFault (changeHeap h (·.putProp (-2) "prototype"))

def pushCases (cases : List String) : M Unit := do
  let table ← Heap.pushObject host h
  cases.zipIdx.forM fun (name, i) => do
    modifyHeap h (·.push (.number (Double.ofInt i)))
    ignoreFault (changeHeap h (·.putProp table (Text.toPascal name)))

/-- Pushes the object of a module with its functions and constructors; gives the heap and the index. -/
def pushNamespace (d : ModuleDecl) : M (HeapId × Int) := do
  d.classes.forM (register b)
  let h := (← bridge b).heapId
  readHeap h (·.requireStack 3)
  let ns ← Heap.pushObject host h
  d.functions.forM fun f => do
    let _ ← Heap.pushFunc host h f.name allArguments (some (.bound b f))
    ignoreFault (changeHeap h (·.putProp ns f.name))
  d.classes.forM fun c => do
    pushClass host b h c
    ignoreFault (changeHeap h (·.putProp ns (← classDecl c).name))
  return (h, ns)

def pushModule : M Unit := do
  checkModule m
  let d ← moduleDecl m
  let (h, ns) ← pushNamespace host b d
  d.enums.forM fun (e, cases) => do
    pushCases host h cases
    ignoreFault (changeHeap h (·.putProp ns (Text.toPascal (WitType.textOfDef e))))
  log (← bridge b).logs .debug "module pushed" [("module", .text d.name), ("functions", .int d.functions.length),
      ("classes", .int d.classes.length),
      ("enums", .int d.enums.length)]

def install : M Unit := do
  let h := (← bridge b).heapId
  readHeap h (·.requireStack 2)
  modifyHeap h fun s => s.push (.object s.global)
  onFault (pushModule host b m) (changeHeap h (·.popN 1))
  let name := (← moduleDecl m).name
  let done ← catchFault (changeHeap h (·.putProp (-2) name))
  changeHeap h (·.popN 1)
  ofExcept done

end Tether.Bridge

namespace Tether

open M

def ModuleDecl.describe (m : ModuleDecl) (classes : List ClassDecl) : Description :=
  { name := m.name
    functions := m.functions.map Callable.describe
    classes := classes.map fun c =>
      ⟨c.name, c.type.text, c.constructor.map Callable.describe, c.methods.map Callable.describe⟩
    enums := m.enums.map fun (d, cases) =>
      (Text.toPascal (WitType.textOfDef d), cases.map Text.toPascal)
    records := m.records.map fun (d, codec) =>
      let fields := match codec.shape with
        | .record fields => fields.toList.map fun f => f.name ++ ": " ++ f.codec.name
        | _ => []
      (WitType.textOfDef d, codec.type.text, fields) }

def describeModule (m : Nat) : M Description := do
  let d ← moduleDecl m
  return d.describe (← d.classes.mapM classDecl)

end Tether
