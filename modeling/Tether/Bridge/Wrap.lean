import Tether.Bridge.Ownership
import Tether.Bridge.Registry

/-!
# Wrappers

A wrapper is the script object that stands for a native object. It carries its record under two
hidden keys: one for all wrappers and one for the wrappers of its class. Scripts cannot see hidden
keys, so a value with the key of a class is a wrapper of that class.
-/

namespace Tether

def Bridge.countWrapped (br : Bridge) : Bridge :=
  { br with
    stats := { br.stats with live := br.stats.live + 1, wrapped := br.stats.wrapped + 1 } }

/-- The world in which a new record binds an object, and the bridge of the record has counted one more
wrapper. -/
def World.bind (w : World) (o : NativeId) (x : Record) : World :=
  { w with
    records := w.records.push x
    natives := w.natives.modify o fun n =>
      { n with token := { n.token with record := some w.records.size } }
    bridges := w.bridges.modify x.bridge Bridge.countWrapped }

namespace Bridge

open M

variable (host : Host) (b : BridgeId) (h : HeapId)

def bridgeKey : String := "heapbridge.bridge"

def objectKey : String := "heapbridge.object"

def finalizerKey : String := "heapbridge.finalizer"

/-- Makes a bridge and writes it, and the finalizer of its wrappers, into the stash on top of the
stack. -/
def equip (strict : Bool) : M BridgeId := do
  let w ← get
  let b := w.bridges.size
  set { w with bridges := w.bridges.push { heapId := h, strict, logs := w.logging } }
  modifyHeap h (·.push (.pointer (.bridge b)))
  ignoreFault (changeHeap h (·.putHidden (-2) bridgeKey))
  let _ ← Heap.pushFunc host h "heapbridge.finalize" 1 (some (.finalizer b))
  ignoreFault (changeHeap h (·.putHidden (-2) finalizerKey))
  changeHeap h (·.popN 1)
  return b

def attach (h : Option HeapId) (strict : Bool) : M BridgeId := do
  match h with
  | none => fail (.invalidInput .bind "heap is nil or closed")
  | some h =>
    if (← heap h).closed then fail (.invalidInput .bind "heap is nil or closed")
    readHeap h (·.requireStack 2)
    modifyHeap h fun s => s.push (.object s.stash)
    if ← readHeap h (·.hasHidden (-1) bridgeKey) then
      changeHeap h (·.popN 1)
      fail (.issue ⟨.bind, .affinity, [], "", "", "heap already has a bridge"⟩)
    equip host h strict

def attachedTo (h : Option HeapId) : M (Option BridgeId) := do
  match h with
  | none => return none
  | some h =>
    let s ← heap h
    match s.closed, s.requireStack 1 with
    | false, .ok () =>
      match (s.object? s.stash).bind (·.hidden.get? bridgeKey) with
      | some (.pointer (.bridge b)) => return some b
      | _ => return none
    | _, _ => return none

def pushFinalizer : M Unit := do
  modifyHeap h fun s => s.push (.object s.stash)
  let _ ← onHeap h (·.getHidden (-1) finalizerKey)
  changeHeap h (·.swap (-1) (-2))
  changeHeap h (·.popN 1)

def pushWrapper (cls : String) (r : RecordId) : M Unit := do
  let x ← record r
  if x.bridge ≠ b then
    fail (.issue ⟨.marshal, .affinity, [], cls, "", "object is bound to another heap"⟩)
  readHeap h (·.requireStack 1)
  match ← catchFault (changeHeap h (·.pushPointer x.ptr)) with
  | .ok () =>
    modifyBridge b fun br => { br with stats := { br.stats with reused := br.stats.reused + 1 } }
  | .error _ =>
    fail (.identityCorruption .marshal cls ("token points at collected wrapper " ++ x.ptr.text))

def equipWrapper (f : Heap → Except Stop Heap) : M Unit := do
  match ← catchFault (changeHeap h f) with
  | .ok () => return ()
  | .error _ => breach fun _ => { refusals := 1 }

/-- Pushes a new object with the prototype of a class and the finalizer of wrappers, and gives its
index. -/
def blankWrapper (c : ClassId) : M Int := do
  readHeap h (·.requireStack 3)
  let wrapper ← Heap.pushObject host h
  onFault (pushPrototype host b c) (changeHeap h (·.popN 1))
  equipWrapper h (·.setPrototype wrapper)
  pushFinalizer h
  equipWrapper h (·.setFinalizer wrapper)
  return wrapper

variable (i : Int)

def putRecord (key : String) (r : RecordId) : M Unit := do
  modifyHeap h (·.push (.pointer (.record (some r))))
  ignoreFault (changeHeap h (·.putHidden i key))

def reportWrapped (d : ClassDecl) (ptr : HeapPtr) : M Unit := do
  log (← bridge b).logs .debug "wrapper created" [("class", .text d.name), ("ptr", .text ptr.text)]

variable (o : NativeId) (c : ClassId)

/-- Binds an object to the wrapper at an index by a new record, which holds a share of the object. -/
def bindWrapper (wrapper : Int) : M Unit := do
  let d ← classDecl c
  breach fun w => { races := w.claims o }
  let share ← Ownership.take o
  let ptr ← readHeap h (·.pointerAt wrapper)
  let r := (← get).records.size
  modify (·.bind o { bridge := b, cls := c, share := some share, ptr })
  putRecord h wrapper d.key r
  putRecord h wrapper objectKey r
  reportWrapped b d ptr

def makeWrapper : M Unit := do
  bindWrapper b h o c (← blankWrapper host b h c)

def wrap : M Unit := do
  let d ← classDecl c
  let h := (← bridge b).heapId
  if ← Ownership.isDisposed o then
    fail (.issue ⟨.marshal, .disposed, [], d.name, "", "native object destroyed"⟩)
  match (← native o).token.record with
  | some r => pushWrapper b h d.name r
  | none =>
    register b c
    makeWrapper host b h o c

/-- Pushes the wrapper of an object, as an instance of the class of its native type; null for no
object. -/
def pushNative (o : Option NativeId) : M Unit := do
  match o with
  | none =>
    let h := (← bridge b).heapId
    readHeap h (·.requireStack 1)
    modifyHeap h (·.push .null)
  | some o =>
    let c ← classForType b (.object (← native o).sort)
    wrap host b o c

def unwrap (c : ClassId) : M NativeId := do
  let d ← classDecl c
  let h := (← bridge b).heapId
  if !(← heap h).isObject i then
    let t ← readHeap h (·.typeName i)
    fail (.issue ⟨.unmarshal, .typeMismatch, [], d.name, t, "expected " ++ d.name ++ " instance"⟩)
  readHeap h (·.requireStack 1)
  let (found, payload) ← readHeap h fun s =>
    (s.getHidden i d.key).map fun (found, s) => (found, s.getPointer (-1))
  if !found then
    let t ← readHeap h (·.typeName i)
    fail (.issue ⟨.unmarshal, .typeMismatch, [], d.name, t, "object is not a " ++ d.name ++ " instance"⟩)
  match payload with
  | .record (some r) =>
    let x ← record r
    if x.severed then
      fail (.issue ⟨.unmarshal, .typeMismatch, [], d.name, "object", "native object destroyed"⟩)
    let here ← readHeap h (·.pointerAt i)
    match x.share with
    | some share =>
      if x.cls ≠ c ∨ x.bridge ≠ b ∨ x.ptr ≠ here then
        fail (.identityCorruption .unmarshal d.name "record does not match wrapper")
      let o := (← M.share share).object
      if (← native o).token.record ≠ some r then
        fail (.identityCorruption .unmarshal d.name "token does not point at record")
      return o
    | none => fail (.identityCorruption .unmarshal d.name "record does not match wrapper")
  | p => fail (.identityCorruption .unmarshal d.name ("class key holds " ++ p.typeName))

def unwrapType (type : NativeType) : M NativeId := do
  let c ← classForType b type
  let o ← unwrap b i c
  if (NativeType.object (← native o).sort).assignableTo type then return o
  fail (.identityCorruption .unmarshal (← classDecl c).name "record object has the wrong Go type")

def recordAt : M (Option RecordId) := do
  let s ← heap (← bridge b).heapId
  match s.isObject i, s.requireStack 1 with
  | true, .ok () =>
    let (_, s) ← ofStop (s.getHidden i objectKey)
    match s.getPointer (-1) with
    | .record r => return r
    | _ => return none
  | _, _ => return none

def reportBroken (f : Fault) : M Unit := do
  let br ← bridge b
  if br.strict then crash (.assertion f)
  log br.logs .error "identity assertion failed" [("error", .text f.message)]

def reportFinalized (d : ClassDecl) : M Unit := do
  modifyBridge b fun br =>
    { br with
      stats := { br.stats with live := br.stats.live - 1, finalized := br.stats.finalized + 1 } }
  log (← bridge b).logs .debug "wrapper finalized" [("class", .text d.name)]

def unlink (r : RecordId) : M Unit := do
  let x ← record r
  let d ← classDecl x.cls
  let share ← need x.share
  let o := (← M.share share).object
  if (← native o).token.record = some r then
    modifyNative o fun n => { n with token := { n.token with record := none } }
  else
    reportBroken b (.identityCorruption .finalize d.name "token does not point at the finalized record")
  modifyRecord r fun x => { x with share := none, ptr := .null }
  reportFinalized b d
  Ownership.release host share

def dropRecord (r : RecordId) : M Unit := do
  let x ← record r
  let _ ← onHeap h (·.delHidden 0 objectKey)
  let _ ← onHeap h (·.delHidden 0 (← classDecl x.cls).key)
  if x.severed then modifyRecord r fun x => { x with ptr := .null }
  else unlink host b r

/-- The finalizer of wrappers: looks for the record of the first argument and drops it. -/
def finalize : M Int := do
  noteFinalizer h
  readHeap h (·.requireStack 1)
  let found ← catchFault (onHeap h (·.getHidden 0 objectKey))
  let payload := (← heap h).getPointer (-1)
  changeHeap h (·.popN 1)
  match found, payload with
  | .ok true, .record (some r) =>
    dropRecord host b h r
    return 0
  | _, _ => return 0

end Bridge

end Tether
