import Tether.Bridge.Wrap

/-!
# Moving values across

Codecs move native values to the stack of a heap and back.
-/

namespace Tether

/-! ## Variables of native types -/

namespace NativeType

variable (type : NativeType)

/-- What a variable of a native type holds once a value is stored in it. Only a type of the kind of the
value can hold it; integers are cut to the width of the type, and numbers to its precision. -/
def stored? (v : NativeValue) : Option NativeValue :=
  match v, type.underlying with
  | .bool _, .bool | .text _, .string | .float _, .float64 => some v
  | .float x, .float32 => some (.float x.toSingle)
  | .int i, .int k => some (.int (k.wrap i))
  | .bytes _, .slice elem => if elem.intType? = some .uint8 then some v else none
  | _, _ => none

/-- Signed integers and those without sign are read and stored by operations of their own. -/
def hasSign (signed : Bool) : Bool := type.intType?.any (·.signed == signed)

/-- The type of a field of a structure that may be stored to. -/
def field? (i : Nat) : Option NativeType :=
  ((type.fields?.bind (·[i]?)).filter (·.exported)).map (·.type)

end NativeType

namespace Bridge

open M

/-- Stores a value of one native type in a variable of another. -/
def assign (source target : NativeType) (v : NativeValue) (c : Crash := .runtime) : M NativeValue :=
  need (if source.assignableTo target then some v else none) c

/-! ## To the stack -/

/-- The script number that holds an integer exactly: the nearest number, if it is below the end of the
range and converts back. -/
def exactNumber? (signed : Bool) (i : Int) : Option Double :=
  let x := Double.ofInt i
  if x.lt (.powerOfTwo false (if signed then 63 else 64)) ∧ x.truncate? = some i then some x else none

def sliceElements (v : NativeValue) (c : Crash := .runtime) : M (List NativeValue) := do
  match v with
  | .list elems => return elems
  | .bytes s => return ((← get).pool.bytes s).map fun b => .int b.toNat
  | .nil => return []
  | _ => crash c

def elementPath (path : List String) (i : Nat) : List String := path ++ [s!"[{i}]"]

/-- Pushes elements by a rule for one, as numbered properties of the object at an index. -/
def pushElements (h : HeapId) (obj : Int) (push : NativeValue → Nat → M Unit) : Nat → List NativeValue → M Unit
  | _, [] => return ()
  | i, v :: rest => do
    onFault (push v i) (changeHeap h (·.popN 1))
    ignoreFault (changeHeap h (·.putProp obj (toString i)))
    pushElements h obj push (i + 1) rest

mutual

def pushValue (host : Host) (b : BridgeId) :
    Codec → NativeValue → List String → (mistyped : Crash := .runtime) → M Unit
  | .mk type name shape, v, path, c => do
    let h := (← bridge b).heapId
    readHeap h (·.requireStack 1)
    pushShape host b h type name shape v path c

def pushShape (host : Host) (b : BridgeId) (h : HeapId) (type : NativeType) (name : String) :
    CodecShape → NativeValue → List String → (mistyped : Crash := .runtime) → M Unit
  | .bool, .bool x, _, _ => modifyHeap h (·.push (.boolean x))
  | .float _, .float x, _, _ => modifyHeap h (·.push (.number x))
  | .string, .text s, _, _ => modifyHeap h (·.push (.string s))
  | .int _ signed, .int i, path, c =>
    if type.hasSign signed then
      match exactNumber? signed i with
      | some x => modifyHeap h (·.push (.number x))
      | none => fail (.overflow .marshal path (toString i) name)
    else crash c
  | .enum cases, .int i, path, _ =>
    if 0 ≤ i ∧ i < (cases.length : Int) then modifyHeap h (·.push (.number (Double.ofInt i)))
    else fail (.invalidEnum .marshal path (toString i) name)
  | .bytes, .bytes s, _, _ => Heap.pushExternal host h (some s)
  | .bytes, .nil, _, _ => Heap.pushExternal host h none
  | .record fields, .struct values, path, c => do
    readHeap h (·.requireStack 2)
    let obj ← Heap.pushObject host h
    pushFields host b h obj fields values path c
  | .list elem, v, path, c => do
    readHeap h (·.requireStack 2)
    let obj ← Heap.pushObject host h
    let elems ← sliceElements v c
    pushElements h obj (fun v i => pushValue host b elem v (elementPath path i) c) 0 elems
    modifyHeap h (·.push (.number (Double.ofInt elems.length)))
    ignoreFault (changeHeap h (·.putProp obj "length"))
  | .option _, .nil, _, _ => modifyHeap h (·.push .null)
  | .option elem, v, path, c =>
    if elem.type = type then pushValue host b elem v path c
    else
      match v with
      | .some v => pushValue host b elem v path c
      | .object _ => pushValue host b elem elem.type.zero path c
      | _ => crash c
  | .own _, .nil, path, _ =>
    fail (.issue ⟨.marshal, .invalidInput, path, type.text, "", "nil " ++ name ++ " handle"⟩)
  | .own resource, .object o, path, _ => do
    let c ← classForResource b resource
    breach fun w => { types := !w.takes c o }
    match ← catchFault (wrap host b o c) with
    | .ok () => return ()
    | .error f => fail (f.locate path)
  | _, _, _, c => crash c

def pushFields (host : Host) (b : BridgeId) (h : HeapId) (obj : Int) :
    CodecFields → List NativeValue → List String → (mistyped : Crash := .runtime) → M Unit
  | .nil, _, _, _ => return ()
  | .cons name _ index codec rest, values, path, c => do
    let v ← need values[index]? c
    onFault (pushValue host b codec v (path ++ [name]) c) (changeHeap h (·.popN 1))
    onFault (changeHeap h (·.putProp obj name)) (changeHeap h (·.popN 1))
    pushFields host b h obj rest values path c

end

/-! ## From the stack -/

variable (h : HeapId) (type : NativeType)

def failType {α : Type} (i : Int) (path : List String) : M α := do
  fail (.typeMismatch .unmarshal path type.text (← readHeap h (·.typeName i)))

/-- The integer that a script number stands for: its fraction is dropped, and it has to be in range.
-/
def integerOf (bits : Nat) (signed : Bool) (name : String) (x : Double) (path : List String) : Except Fault Int :=
  if x.isNaN || x.isInfinite then .error (.overflow .unmarshal path x.text name)
  else
    let n := x.trunc
    let lo : Double := if signed then .powerOfTwo true (bits - 1) else ⟨0⟩
    let hi : Double := .powerOfTwo false (if signed then bits - 1 else bits)
    if n.lt lo || !n.lt hi then .error (.overflow .unmarshal path n.text name)
    else .ok (n.truncate?.getD 0)

def caseOf (cases : List String) (name : String) (x : Double) (path : List String) : Except Fault Int :=
  match x.toInt? with
  | some i =>
    if 0 ≤ i ∧ i < (cases.length : Int) then .ok i
    else .error (.invalidEnum .unmarshal path x.text name)
  | none => .error (.invalidEnum .unmarshal path x.text name)

def sliceOf (elems : List NativeValue) : M NativeValue := do
  match type.sliceElem?.bind (·.intType?) with
  | some .uint8 =>
    let data := elems.map fun
      | .int i => UInt8.ofNat i.toNat
      | _ => 0
    let (s, pool) := (← get).pool.ofBytes data
    modify fun w => { w with pool }
    return .bytes s
  | _ => return .list elems

/-- Reads the property of the object at an index, by a rule for the value on top of the stack. -/
def requireProp (obj : Int) (key : String) (absent : Fault) (read : M NativeValue) : M NativeValue := do
  let found ← onHeap h (·.getProp obj key)
  if !found then
    changeHeap h (·.popN 1)
    fail absent
  let v ← onFault read (changeHeap h (·.popN 1))
  changeHeap h (·.popN 1)
  return v

/-- Reads `n` numbered properties from number `i` on; those already read come first, in reverse
order. -/
def requireElements (read : Nat → M NativeValue) : Nat → Nat → List NativeValue → M (List NativeValue)
  | 0, _, acc => return acc.reverse
  | n + 1, i, acc => do requireElements read n (i + 1) ((← read i) :: acc)

def lengthOf? (x : Double) : Option Nat :=
  match x.toInt? with
  | some n => if 0 ≤ n ∧ n ≤ 2 ^ 31 - 1 then some n.toNat else none
  | none => none

/-- A pointer to a value. A pointer to the structure behind native objects is a native object of its
own, new and without a name. -/
def pointerTo (target : NativeType) (v : NativeValue) : M NativeValue := do
  match target with
  | .body sort =>
    let o := (← get).natives.size
    modify fun w => { w with natives := w.natives.push { sort, name := "?" } }
    return .object o
  | _ => return .some v

/-- An index counted from the first slot of the frame. -/
def absolute (i : Int) : M Int := do return (((← heap h).normalize? i).getD 0 : Nat)

mutual

def requireValue (b : BridgeId) : Codec → Int → List String → (mistyped : Crash := .runtime) → M NativeValue
  | .mk type name shape, i, path, c => do
    let h := (← bridge b).heapId
    requireShape b h type name shape i path c

def requireShape (b : BridgeId) (h : HeapId) (type : NativeType) (name : String) :
    CodecShape → Int → List String → (mistyped : Crash := .runtime) → M NativeValue
  | .bool, i, path, c => do
    match (← heap h).value? i with
    | some (.boolean x) => need (type.stored? (.bool x)) c
    | _ => failType h type i path
  | .float _, i, path, c => do
    match (← heap h).value? i with
    | some (.number x) => need (type.stored? (.float x)) c
    | _ => failType h type i path
  | .int bits signed, i, path, c => do
    match (← heap h).value? i with
    | some (.number x) =>
      let k ← ofExcept (integerOf bits signed name x path)
      need (if type.hasSign signed then type.stored? (.int k) else none) c
    | _ => failType h type i path
  | .string, i, path, c => do
    match (← heap h).value? i with
    | some (.string s) => need (type.stored? (.text s)) c
    | _ => failType h type i path
  | .enum cases, i, path, c => do
    match (← heap h).value? i with
    | some (.number x) =>
      let k ← ofExcept (caseOf cases name x path)
      need (type.stored? (.int k)) c
    | _ => failType h type i path
  | .bytes, i, path, c => do
    if ← readHeap h (·.isBuffer i) then
      match ← catchFault (readHeap h (·.requireBuffer i)) with
      | .ok s => need (type.stored? (.bytes s)) c
      | .error f => fail (f.locate path)
    else
      let t ← readHeap h (·.typeName i)
      fail (.issue ⟨.unmarshal, .typeMismatch, path, type.text, t, "expected a linear buffer"⟩)
  | .record fields, i, path, c => do
    let s ← heap h
    if !s.isObject i || (← readHeap h (·.isBuffer i)) || (← readHeap h (·.isFunction i)) then
      failType h type i path
    else
      readHeap h (·.requireStack 1)
      let obj ← absolute h i
      match type.zero with
      | .struct values => requireFields b h obj type fields values path c
      | _ => crash c
  | .list elem, i, path, c => do
    let s ← heap h
    if !s.isObject i || (← readHeap h (·.isFunction i)) then failType h type i path
    else
      readHeap h (·.requireStack 1)
      let obj ← absolute h i
      let claimed ← readHeap h fun s => (s.getProp obj "length").map fun (_, s) => s.getNumber (-1)
      match lengthOf? claimed with
      | none =>
        let t ← readHeap h (·.typeName i)
        fail (.issue ⟨.unmarshal, .typeMismatch, path, type.text, t, "object has no valid length"⟩)
      | some n =>
        let t ← need type.sliceElem? c
        let elems ← requireElements (fun k => do
          let v ← requireProp h obj (toString k)
            (.issue ⟨.unmarshal, .typeMismatch, elementPath path k, elem.type.text, "undefined",
              s!"element {k} absent (length {n})"⟩)
            (requireValue b elem (-1) (elementPath path k) c)
          assign elem.type t v c) n 0 []
        sliceOf type elems
  | .option elem, i, path, c => do
    if (← heap h).isNullish i then return .nil
    let v ← requireValue b elem i path c
    if elem.type = type then return v
    else assign (.pointer elem.type) type (← pointerTo elem.type v) c
  | .own resource, i, path, _ => do
    let c ← classForResource b resource
    match ← catchFault (unwrap b i c) with
    | .error f => fail (f.locate path)
    | .ok o =>
      let found := NativeType.object (← native o).sort
      if found.assignableTo type then return .object o
      fail (.typeMismatch .unmarshal path type.text found.text)

/-- Reads the fields of a record from the properties of the object at an index, into the values of a
structure of a native type. -/
def requireFields (b : BridgeId) (h : HeapId) (obj : Int) (type : NativeType) :
    CodecFields → List NativeValue → List String → (mistyped : Crash := .runtime) → M NativeValue
  | .nil, values, _, _ => return .struct values
  | .cons name _ index codec rest, values, path, c => do
    let v ← requireProp h obj name (.issue ⟨.unmarshal, .typeMismatch, path ++ [name], codec.type.text, "undefined",
        "field " ++ Text.quote name ++ " absent"⟩)
      (requireValue b codec (-1) (path ++ [name]) c)
    let v ← assign codec.type (← need (type.field? index) c) v c
    requireFields b h obj type rest (values.set index v) path c

end

end Bridge

end Tether
