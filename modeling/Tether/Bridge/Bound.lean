import Tether.Bridge.Marshal

/-!
# Calling bound functions

A bound function reads its receiver and its arguments from the frame, applies the native function
and pushes what it gives. Missing arguments are a fault; extra ones are not looked at.
-/

namespace Tether.Bridge

open M

variable (host : Host) (b : BridgeId) (h : HeapId)

def requireArguments (b : BridgeId) (fn : String) : Nat → List Codec → List (String × WitType) → M (List NativeValue)
  | i, codec :: codecs, (name, _) :: params => do
    let v ← requireValue b codec i [fn, name]
    return v :: (← requireArguments b fn (i + 1) codecs params)
  | _, _, _ => return []

variable (c : Callable)

def requireReceiver : M (List NativeValue) := do
  match c.receiver with
  | none => return []
  | some cls =>
    readHeap h (·.requireStack 1)
    modifyHeap h fun s => s.push s.this
    let o ← catchFault (unwrap b (-1) cls)
    changeHeap h (·.popN 1)
    match o with
    | .ok o => return [.object o]
    | .error f => fail (f.locate [c.name, "this"])

variable (type : NativeType) (v : NativeValue)

/-- Whether a value can be given to a parameter of a type; only objects can be of another type than
declared. -/
def accepts : M Bool := do
  match v with
  | .object o => return (NativeType.object (← native o).sort).assignableTo type
  | _ => return true

def checkReceiver : M Unit := do
  if !(← accepts type v) then
    remember fun w => .misfit w.state
    crash .runtime

def gather : M (List NativeValue × List NativeValue) := do
  let h := (← bridge b).heapId
  let given := (← heap h).argCount
  if given < (c.params.length : Int) then fail (.arityMismatch c.name c.params.length given)
  let receiver ← requireReceiver b h c
  let args ← requireArguments b c.name 0 c.params c.sig.params
  return (receiver, args)

/-- Native code takes values of the types that it declares; others are a crash. -/
def checkGiven (receiver args : List NativeValue) : M Unit := do
  let (types, _, _) ← need c.fn.types?
  (types.zip receiver).forM fun (type, v) => checkReceiver type v
  ((types.drop receiver.length).zip args).forM fun (type, v) => do
    if !(← accepts type v) then crash .runtime

def apply (c : Callable) (receiver args : List NativeValue) : M (List NativeValue) := do
  checkGiven c receiver args
  host.apply c.fn (receiver ++ args)

/-- Pushes the wrapper of an object that a constructor made; a share keeps the object alive
meanwhile. -/
def pushConstructed (cls : ClassId) (v : NativeValue) : M Int := do
  match v with
  | .object o =>
    let share ← Ownership.take o
    let done ← catchFault (wrap host b o cls)
    Ownership.release host share
    ofExcept done
    return 1
  | _ => fail (.issue ⟨.call, .nativeFailure, [c.name], "", "", "constructor returned nil"⟩)

def pushResult (v : NativeValue) : M Int := do
  match c.makes, c.result with
  | some cls, _ => pushConstructed host b c cls v
  | none, some codec =>
    pushValue host b codec v [c.name, "result"]
    return 1
  | none, none => return 0

def deliver (out : List NativeValue) : M Int := do
  if c.canFail then
    match out.getLast? with
    | some (.fault f) => fail (.wrap .call .nativeFailure (some f) c.name)
    | _ => pure ()
  pushResult host b c (out.headD .nil)

def invoke : M Int := do
  let (receiver, args) ← gather b c
  let out ← apply host c receiver args
  deliver host b c out

end Tether.Bridge
