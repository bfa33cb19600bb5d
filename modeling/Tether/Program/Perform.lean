import Tether.Bridge.Bound
import Tether.Bridge.Namespace
import Tether.Program.Conduct
import Tether.Program.Native
import Tether.Program.View

/-!
# Performing a step

Each step of a program is one operation of the library on the current heap; its reply is what the
operation gives. Steps name things; a step that uses a name without a thing is a crash, except where
the operation itself says what to do with nothing.
-/

namespace Tether

open M

variable (host : Host) (h : HeapId)

/-! ## Names -/

def currentHeap : M HeapId := do return (← get).current

def currentBridge : M BridgeId := do
  let w ← get
  need (w.attached.lookup w.current)

def modifyNames (f : Names → Names) : M Unit := modify fun w => { w with names := f w.names }

variable (name : String)

def objectNamed : M NativeId := do need ((← get).names.objects.lookup name)

def shareNamed : M ShareId := do need ((← get).names.shares.lookup name)

def classNamed? : M (Option ClassId) := do return (← get).names.classes.lookup name

def classNamed (name : String) : M ClassId := do need (← classNamed? name)

def moduleNamed : M Nat := do need ((← get).names.modules.lookup name)

def bytesNamed : M (Option Slice) :=
  do return ((← get).names.bytes.lookup name).getD none

def keepBytes (s : Option Slice) : M Unit :=
  modifyNames fun n => { n with bytes := (name, s) :: n.bytes }

def keepShare (s : ShareId) : M Unit :=
  modifyNames fun n => { n with shares := (name, s) :: n.shares }

def payloadOf : PayloadSpec → M Payload
  | .null => return .null
  | .int i => return .int i
  | .float x => return .float x
  | .text s => return .text s
  | .bool b => return .bool b
  | .cell name => return .cell name
  | .record object => do return .record (← native (← objectNamed object)).token.record
  | .list => return .list

def symbolOf : SymbolSpec → M String
  | .name s => return s
  | .ofClass cls => do return (← classDecl (← classNamed cls)).key

/-! ## Steps of a heap -/

def pushOn (v : Value) : M Reply := do
  modifyHeap h (·.push v)
  return .nothing

def changeOn (f : Heap → Except Stop Heap) : M Reply := do
  changeHeap h f
  return .nothing

def silently {α : Type} (x : M α) : M Reply := do
  let _ ← x
  return .nothing

def performStack : StackStep → M Reply
  | .pushUndefined => pushOn h .undefined
  | .pushNull => pushOn h .null
  | .pushBoolean b => pushOn h (.boolean b)
  | .pushNumber x => pushOn h (.number x)
  | .pushString s => pushOn h (.string s)
  | .pushPointer p => do pushOn h (.pointer (← payloadOf p))
  | .pushObject => do return .int (← Heap.pushObject host h)
  | .pushGlobal => do pushOn h (.object (← heap h).global)
  | .pushStash => do pushOn h (.object (← heap h).stash)
  | .pushThis => do pushOn h (← heap h).this
  | .pushCurrent => do pushOn h (← heap h).current
  | .getTop => do return .int (← heap h).top
  | .setTop n => changeOn h (·.setTop n)
  | .pop => changeOn h (·.popN 1)
  | .popN n => changeOn h (·.popN n)
  | .dup i => changeOn h (·.dup i)
  | .dupTop => changeOn h (·.dup (-1))
  | .swap i j => changeOn h (·.swap i j)
  | .remove i => changeOn h (·.remove i)
  | .insert i => changeOn h (·.insert i)
  | .requireStack n => silently (readHeap h (·.requireStack n))
  | .index i => do
    let n := (← heap h).normalize? i
    return .index (n.getD 0) n.isSome
  | .equals i j => do
    let s ← heap h
    return .bool (Value.strictEquals (s.value? i) (s.value? j))
  | .inspect i => do
    let w ← get
    return .inspection (← readHeap h (·.inspect w i))
  | .require i want => do
    match want with
    | "boolean" => return .bool (← readHeap h (·.requireBoolean i))
    | "number" => return .number (← readHeap h (·.requireNumber i))
    | "string" => return .text (← readHeap h (·.requireString i))
    | "pointer" => return .payload ((← get).payloadView (← readHeap h (·.requirePointer i)))
    | _ => silently (readHeap h (·.requireObject i))
  | .dump => do return .views ((← get).frameViews (← heap h))
  | .reveal i n => do
    let s ← heap h
    return .view ((← get).view s n.toNat (s.value? i))

def performProperty : PropertyStep → M Reply
  | .put i k => changeOn h (·.putProp i k)
  | .get i k => do return .bool (← onHeap h (·.getProp i k))
  | .has i k => do return .bool ((← heap h).hasProp i k)
  | .del i k => do return .bool (← onHeap h (·.delProp i k))
  | .keys i => do return .keys (← readHeap h (·.keys i))
  | .putHidden i sym => do
    let k ← symbolOf sym
    changeOn h (·.putHidden i k)
  | .getHidden i sym => do
    let k ← symbolOf sym
    return .bool (← onHeap h (·.getHidden i k))
  | .hasHidden i sym => do
    let k ← symbolOf sym
    return .bool (← readHeap h (·.hasHidden i k))
  | .delHidden i sym => do
    let k ← symbolOf sym
    return .bool (← onHeap h (·.delHidden i k))
  | .symbol k => return .symbol k ("Symbol(" ++ k ++ ")")
  | .getPrototype i => changeOn h (·.getPrototype i)
  | .setPrototype i => changeOn h (·.setPrototype i)
  | .getFinalizer i => changeOn h (·.getFinalizer i)
  | .setFinalizer i => changeOn h (·.setFinalizer i)
  | .heapPtr i keep => do
    let p ← readHeap h (·.pointerAt i)
    match keep with
    | some name => modifyNames fun n => { n with pointers := (name, p) :: n.pointers }
    | none => pure ()
    return .pointer p
  | .pushHeapPtr name otherwise => do
    let p := ((← get).names.pointers.lookup name).getD otherwise
    changeOn h (·.pushPointer p)

def performCall : CallStep Program → M Reply
  | .pushFunc f => do
    return .int (← Heap.pushFunc host h f.name f.arity (if f.hollow then none else some (.program f)))
  | .pushError f => silently (Heap.pushError host h f)
  | .call n => silently (Heap.call host h n)
  | .callMethod n => silently (Heap.callMethod host h n)
  | .callProp i k n => silently (Heap.callProp host h i k n)
  | .pcall n => silently (Heap.pcall host h n)
  | .pcallMethod n => silently (Heap.pcallMethod host h n)
  | .argCount => do
    let s ← heap h
    return .arguments s.argCount s.frames.length
  | .crash message => crash (.native message)
  | .malformed => crash .runtime

def openHeap (spec : HeapSpec) : M HeapId := do
  let storage ← match spec.pages with
    | none => pure Storage.blocks
    | some pages =>
      let (storage, pool) ← ofExcept (Storage.linear (← get).pool pages)
      modify fun w => { w with pool }
      log (← get).logging .debug "linear memory ready" [("pages", .int pages), ("bytes", .int storage.size)]
      pure storage
  let limits : Limits := ⟨spec.stackLimit, spec.depthLimit, spec.gcThreshold⟩
  if spec.passStorage then Heap.make host limits storage false
  else Heap.make host limits Storage.blocks true

def performHeap : HeapStep → M Reply
  | .collect => do return .collected (← Heap.collect host h)
  | .stats => do return .heapStats (← heap h).stats
  | .config => do
    let s ← heap h
    return .limits s.limits s.logs
  | .close => silently (Heap.close host h)
  | .newHeap spec => do
    let h ← openHeap host spec
    modify fun w => { w with current := h }
    return .nothing
  | .use n => do
    if n < 0 ∨ (((← get).heaps.size : Nat) : Int) ≤ n then crash .runtime
    modify fun w => { w with current := n.toNat }
    return .nothing

/-- Copies bytes into a slice from an offset on, at the end if the offset is beyond it; gives how
many. -/
def writeInto (s : Option Slice) (offset : Int) (data : List UInt8) : M Nat := do
  if offset < 0 then crash .runtime
  match s with
  | none => return 0
  | some s =>
    let start := min s.length offset.toNat
    modify fun w => { w with pool := w.pool.copyInto s start data }
    return min data.length (s.length - start)

def performBuffer : BufferStep → M Reply
  | .push size data => do
    let s ← Heap.pushBuffer host h size
    let _ ← writeInto (some s) 0 data
    return .int s.length
  | .pushExternal data => do
    let s ← match data with
      | .none => pure none
      | .data bytes => pure (some (← newBytes bytes))
      | .kept name => bytesNamed name
    silently (Heap.pushExternal host h s)
  | .get i => do return .data ((← readHeap h (·.bufferData i)).map (← get).excerpt)
  | .require i => do return .data (some ((← get).excerpt (← readHeap h (·.requireBuffer i))))
  | .keep i name => do
    let s ← readHeap h (·.bufferData i)
    silently (keepBytes name s)
  | .write i offset data => do
    let s ← readHeap h (·.bufferData i)
    return .int (← writeInto s offset data)
  | .detach i => silently (Heap.detach h i)
  | .newBytes name data => do
    let s ← newBytes data
    silently (keepBytes name (some s))
  | .setByte name offset byte => do
    match ← bytesNamed name with
    | none => crash .runtime
    | some s =>
      if offset < 0 ∨ (s.length : Int) ≤ offset then crash .runtime
      modify fun w => { w with pool := w.pool.set s offset.toNat byte }
      return .nothing
  | .bytes name => do return .data ((← bytesNamed name).map (← get).excerpt)

/-! ## Steps of a bridge -/

def tokenView (o : NativeId) : M TokenView := do
  let n ← native o
  let w ← get
  let ctl := n.token.control.bind (w.controls[·]?)
  return {
    bound := n.token.record.isSome
    disposed := (ctl.map (·.destroyed)).getD false
    refs := (ctl.map (·.refs)).getD 0
    record := n.token.record.bind w.recordView
    gadget := if n.sort = .gadget then some (n.destroyed, n.label, n.id) else none }

def performObject : ObjectStep Program → M Reply
  | .make name sort id label onDestroy => silently (makeNative { sort, name, id, label, onDestroy })
  | .token object => do return .token (← tokenView (← objectNamed object))
  | .resetToken object => do
    let o ← objectNamed object
    silently (modifyNative o fun n => { n with token := {} })
  | .copyToken object target => do
    let o ← objectNamed object
    let t ← objectNamed target
    let token := (← native o).token
    silently (modifyNative t fun n => { n with token })
  | .share object name => do
    let s ← Ownership.take (← objectNamed object)
    silently (keepShare name s)
  | .clone share name => do
    let s ← Ownership.clone (← shareNamed share)
    silently (keepShare name s)
  | .release share => do
    match (← get).names.shares.lookup share with
    | some s => silently (Ownership.release host s)
    | none => return .nothing
  | .inspectShare name => do
    let s ← share (← shareNamed name)
    let c ← control s.control
    return .share ((← get).objectName s.object) c.refs c.destroyed
  | .dispose object => do silently (Ownership.dispose host (← objectNamed object))

def performBridge : BridgeStep → M Reply
  | .make strict noHeap => do
    let b ← Bridge.attach host (if noHeap then none else some h) strict
    modify fun w => { w with attached := (h, b) :: w.attached }
    return .nothing
  | .fromHeap noHeap => do
    let found ← Bridge.attachedTo (if noHeap then none else some h)
    return .attached found.isSome (found.isSome && found == (← get).attached.lookup h)
  | .stats => do return .bridgeStats (← bridge (← currentBridge)).stats
  | .pushNative object => do
    let b ← currentBridge
    let o := object.bind ((← get).names.objects.lookup ·)
    silently (Bridge.pushNative host b o)
  | .wrapShare name => do
    let s ← share (← shareNamed name)
    silently (Bridge.pushNative host (← currentBridge) (some s.object))
  | .wrapObject object type => do
    let o ← objectNamed object
    if !(NativeType.object (← native o).sort).assignableTo type then crash .runtime
    let s ← Ownership.take o
    let done ← catchFault (do Bridge.pushNative host (← currentBridge) (some o))
    Ownership.release host s
    silently (ofExcept done)
  | .unwrap i type => do
    let o ← Bridge.unwrapType (← currentBridge) i type
    return .object ((← get).objectName o)
  | .unwrapAs i cls => do
    let o ← Bridge.unwrap (← currentBridge) i (← classNamed cls)
    return .object ((← get).objectName o)
  | .recordAt i => do
    let r ← Bridge.recordAt (← currentBridge) i
    return .record (r.bind (← get).recordView)

def ClassDecl.info (c : ClassDecl) : ClassView :=
  ⟨c.name, c.type.text, c.methods.map (·.name), c.resource.map WitType.textOfDef,
    "heapbridge.class." ++ c.name ++ "#",
    c.fault?⟩

def performClass : ClassStep Program → M Reply
  | .declare name type scriptName resource => do
    let c ← declareClass type scriptName resource.def?
    silently (modifyNames fun n => { n with classes := (name, c) :: n.classes })
  | .setConstructor cls fn sig => do silently (declareConstructor (← classNamed cls) fn sig)
  | .addMethod cls name fn sig => do silently (declareMethod (← classNamed cls) name fn sig)
  | .info cls => do return .classInfo (← classDecl (← classNamed cls)).info
  | .register cls => do
    match ← cls.bindM classNamed? with
    | none => fail (.invalidInput .bind "nil class")
    | some c =>
      Bridge.checkDeclared c
      silently (Bridge.register (← currentBridge) c)
  | .list => do
    let names ← (← bridge (← currentBridge)).classes.mapM fun (type, c) => do
      return (← classDecl c).name ++ ":" ++ type.text
    return .texts (names.mergeSort (fun a b => decide (a ≤ b)))
  | .prototype cls => do
    match ← classNamed? cls with
    | none => fail (.invalidInput .bind "nil class")
    | some c =>
      Bridge.checkDeclared c
      silently (Bridge.prototype host (← currentBridge) c)

def performModule : ModuleStep Program → M Reply
  | .declare name scriptName => do
    let m ← declareModule scriptName
    silently (modifyNames fun n => { n with modules := (name, m) :: n.modules })
  | .addFunc owner name fn sig => do silently (declareFunction (← moduleNamed owner) name fn sig)
  | .addClass owner cls => do silently (addClassTo (← moduleNamed owner) (← classNamed cls))
  | .addEnum owner wit => do silently (addEnumTo (← moduleNamed owner) wit.def?)
  | .addRecord owner wit type => do silently (addRecordTo (← moduleNamed owner) wit.def? type)
  | .status owner => do
    let m ← moduleNamed owner
    Bridge.checkModule m
    return .text (← moduleDecl m).name
  | .push owner => do
    let m ← moduleNamed owner
    Bridge.checkModule m
    silently (Bridge.pushModule host (← currentBridge) m)
  | .install owner => do
    let m ← moduleNamed owner
    silently (Bridge.install host (← currentBridge) m)
  | .describe owner => do return .description (← describeModule (← moduleNamed owner))

/-- The codec of a step that moves values; if it has to be there, a fault is a crash. -/
def codecFor (wit : WitType) (type : Option NativeType) (must : Bool) : M Codec :=
  match Codec.compile wit type with
  | .ok codec => return codec
  | .error (.fault f) => if must then crash (.assertion f) else fail f
  | .error s => throw s

def performMarshal : MarshalStep → M Reply
  | .push wit type value must => do
    let codec ← codecFor wit type must
    let v ← nativeValue codec.type value
    silently (Bridge.pushValue host (← currentBridge) codec v [])
  | .require wit type i keep must => do
    let codec ← codecFor wit type must
    let v ← Bridge.requireValue (← currentBridge) codec i []
    match keep, v with
    | some name, .bytes s => keepBytes name (some s)
    | _, _ => pure ()
    return .native ((← get).literal codec.type v)
  | .codec wit type must => do return .codec (← codecFor wit type must)

def perform (a : Action Program) : M Reply := do
  note (·.permits a)
  breach fun w => { keys := w.tampers a }
  let h ← currentHeap
  match a with
  | .stack s => performStack host h s
  | .property s => performProperty h s
  | .call s => performCall host h s
  | .heap s => performHeap host h s
  | .buffer s => performBuffer host h s
  | .objects s => performObject host s
  | .bridge s => performBridge host h s
  | .classes s => performClass host s
  | .modules s => performModule host s
  | .marshal s => performMarshal host s

end Tether
