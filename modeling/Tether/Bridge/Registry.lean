import Tether.Bridge.Declare
import Tether.Heap.Make

/-!
# The classes of a bridge

A bridge knows one class for each native type, and the classes of resources. The prototype that all
wrappers of a class share is made on first use and kept under the hidden key of the class in the
stash.
-/

namespace Tether.Bridge

open M

variable (host : Host) (b : BridgeId) (h : HeapId)

def checkDeclared (c : ClassId) : M Unit := do
  let d ← classDecl c
  match d.fault? with
  | some f => fail (.registration "class" d.name (some f))
  | none => return ()

/-- The bridge with one more class, which becomes the class of its native type and of its resource. -/
def enroll (br : Bridge) (c : ClassId) (d : ClassDecl) : Bridge :=
  { br with
    classes := (d.type, c) :: br.classes
    resources := (d.resource.map fun r => (r.id, c)).toList ++ br.resources
    stats := { br.stats with classes := br.stats.classes + 1 } }

def register (c : ClassId) : M Unit := do
  checkDeclared c
  let d ← classDecl c
  let br ← bridge b
  match br.classes.lookup d.type with
  | some known =>
    if known = c then return
    let other ← classDecl known
    fail (.registration "class" d.name
      (some (.plain ("Go type " ++ d.type.text ++ " already bound to class " ++ other.name))))
  | none =>
    modifyBridge b (·.enroll c d)
    log br.logs .debug "class registered" [("class", .text d.name), ("go_type", .text d.type.text)]

def classForResource (resource : WitDef) : M ClassId := do
  match (← bridge b).resources.lookup resource.id with
  | some c => return c
  | none => fail (.notFound .bind "class for resource" (WitType.textOfDef resource))

def classForType (type : NativeType) : M ClassId := do
  match (← bridge b).classes.lookup type with
  | some c => return c
  | none => fail (.notFound .bind "class for Go type" type.text)

def allArguments : Int := -1

def reportPrototype (d : ClassDecl) : M Unit := do
  modifyBridge b fun br =>
    { br with stats := { br.stats with prototypes := br.stats.prototypes + 1 } }
  log (← bridge b).logs .debug "prototype built" [("class", .text d.name), ("methods", .int d.methods.length)]

/-- Makes a bound function of each method and puts it into the prototype at an index. -/
def addMethods (proto : Int) (methods : List Callable) : M Unit :=
  methods.forM fun m => do
    let _ ← Heap.pushFunc host h m.name allArguments (some (.bound b m))
    onFault (changeHeap h (·.putProp proto m.name)) (changeHeap h (·.popN 3))

/-- Makes the prototype of a class in place of the stash on top of the stack, which keeps it. -/
def buildPrototype (d : ClassDecl) : M Unit := do
  let proto ← Heap.pushObject host h
  addMethods host b h proto d.methods
  changeHeap h (·.dup (-1))
  onFault (changeHeap h (·.putHidden (-3) d.key)) (changeHeap h (·.popN 3))
  changeHeap h (·.swap (-1) (-2))
  changeHeap h (·.popN 1)
  reportPrototype b d

def pushPrototype (c : ClassId) : M Unit := do
  let d ← classDecl c
  let h := (← bridge b).heapId
  readHeap h (·.requireStack 4)
  modifyHeap h fun s => s.push (.object s.stash)
  let found ← onHeap h (·.getHidden (-1) d.key)
  if found then
    changeHeap h (·.swap (-1) (-2))
    changeHeap h (·.popN 1)
  else
    changeHeap h (·.popN 1)
    buildPrototype host b h d

def prototype (c : ClassId) : M Unit := do
  register b c
  pushPrototype host b c

end Tether.Bridge
