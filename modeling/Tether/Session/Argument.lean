import Tether.Number.Reader
import Tether.Program.Run

/-!
# Arguments written as text

A tool writes the arguments of a call as text; the declared type of a parameter says how a text is
read.
-/

namespace Tether

open M

def trueTexts : List String := ["1", "t", "T", "TRUE", "true", "True"]

def falseTexts : List String := ["0", "f", "F", "FALSE", "false", "False"]

variable (text : String)

def truthOf? : Option Bool :=
  if text ∈ trueTexts then some true else if text ∈ falseTexts then some false else none

/-- The number that decimal digits write; nothing else may stand in the text. -/
def decimalOf? : Option Nat :=
  let cs := text.toList
  if cs.isEmpty || !cs.all Char.isDigit then none
  else some (cs.foldl (fun n c => 10 * n + (c.toNat - '0'.toNat)) 0)

def byteOf? : Option UInt8 :=
  (decimalOf? text).bind fun n => if n < 256 then some (UInt8.ofNat n) else none

def bytesOf : Except Fault (List UInt8) :=
  if text = "" then .ok []
  else (text.splitOn ",").mapM fun part =>
    match byteOf? (Text.trim part) with
    | some b => .ok b
    | none => .error (.overflow .call [] part "u8")

def numberOf : Except Fault Double :=
  match Double.ofText? text with
  | some x => .ok x
  | none => .error (.typeMismatch .call [] "number" (Text.quote text))

def caseNumberOf (name : Option String) (cases : List String) (text : String) : Except Fault Double :=
  match cases.findIdx? (Text.sameName · text) with
  | some i => .ok (Double.ofInt i)
  | none =>
    match Double.ofText? text with
    | some x => .ok x
    | none => .error (.invalidEnum .call [] text (name.getD "enum"))

def notWritable (t : WitType) : Fault := .unsupported .call ("argument of type " ++ t.typeName)

def primitiveOf (p : WitPrim) (text : String) : Except Fault Value :=
  match p with
  | .bool =>
    match truthOf? text with
    | some b => .ok (.boolean b)
    | none => .error (.typeMismatch .call [] "bool" (Text.quote text))
  | .string => .ok (.string text)
  | .char | .errorContext => .error (notWritable (.prim p))
  | _ => (numberOf text).map Value.number

def pushBytes (host : Host) (h : HeapId) (text : String) : M Unit := do
  let data ← ofExcept (bytesOf text)
  let s ← Heap.pushBuffer host h data.length
  modify fun w => { w with pool := w.pool.copyInto s 0 data }

mutual

def pushArgument (host : Host) (h : HeapId) : WitType → String → M Unit
  | .absent, _ => fail (notWritable .absent)
  | .prim p, text => do
    let v ← ofExcept (primitiveOf p (Text.trim text))
    modifyHeap h (·.push v)
  | .defined d, text => pushDefined host h d (Text.trim text)

def pushDefined (host : Host) (h : HeapId) : WitDef → String → M Unit
  | .mk id name kind, text => pushOfKind host h (.mk id name kind) name kind text

def pushOfKind (host : Host) (h : HeapId) (d : WitDef) (name : Option String) : WitKind → String → M Unit
  | .enum cases, text => do
    let x ← ofExcept (caseNumberOf name cases text)
    modifyHeap h (·.push (.number x))
  | .record fields, text => do
    let parts := text.splitOn ","
    let want := fields.toList.length
    if parts.length ≠ want then
      fail (.invalidInput .call s!"expected {want} comma-separated fields, got {parts.length}")
    let obj ← Heap.pushObject host h
    onFault (pushFields host h obj fields parts) (changeHeap h (·.popN 1))
  | .list (.prim .u8), text => pushBytes host h text
  | .alias type, text => pushArgument host h type text
  | _, _ => fail (notWritable (.defined d))

def pushFields (host : Host) (h : HeapId) (obj : Int) : WitFields → List String → M Unit
  | .cons name type rest, part :: parts => do
    pushArgument host h type part
    ignoreFault (changeHeap h (·.putProp obj name))
    pushFields host h obj rest parts
  | _, _ => return ()

end

/-- Reads texts as the arguments of a call and pushes them; faults name the call and the parameter.
-/
def pushArguments (host : Host) (h : HeapId) (label : String) : List (String × WitType) → List String → M Unit
  | (name, type) :: params, text :: texts => do
    match ← catchFault (pushArgument host h type text) with
    | .ok () => pure ()
    | .error f => fail (f.withPath [label, name])
    pushArguments host h label params texts
  | _, _ => return ()

/-! ## Trying texts -/

def trialDepth : Nat := 3

/-- What one text pushed, or why it pushed nothing, and how many values the stack then had. -/
structure ArgumentTrial where
  outcome : Except Stop View
  top : Int

def tryArgument (host : Host) (h : HeapId) (type : WitType) (text : String) : M ArgumentTrial := do
  let done ← catchAll (pushArgument host h type text)
  let s ← heap h
  let w ← get
  changeHeap h (·.setTop 0)
  return ⟨done.map fun _ => w.view s trialDepth (s.value? (-1)), s.top⟩

def tryArguments (spec : HeapSpec) (type : WitType) (texts : List String) : Except Stop (List ArgumentTrial) :=
  let work : M (List ArgumentTrial) := do
    let h ← openHeap Host.standard spec
    modify fun w => { w with current := h }
    texts.mapM (tryArgument Host.standard h type)
  (work.run {}).1

end Tether
