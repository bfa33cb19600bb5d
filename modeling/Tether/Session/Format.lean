import Tether.Bridge.Wrap

/-!
# Values written as text

A tool shows a value of a heap as text. Objects are followed to a given depth, and only while the
stack has room for the values on the way; beyond that the number of keys stands for the object.
-/

namespace Tether

open M

def formattedBytes : Nat := 16

def Object.record? (o : Object) : Option RecordId :=
  match o.hidden.get? Bridge.objectKey with
  | some (.pointer (.record r)) => r
  | _ => none

namespace World

variable (w : World) (o : Object)

def wrapperText? : Option String := do
  let r ← w.records[← o.record?]?
  return ((w.classes[r.cls]?).map (·.name)).getD "" ++ "@" ++ r.ptr.text

def bufferText (b : Buffer) : String :=
  let (length, shown) :=
    if b.detached then (0, []) else (b.data.length, w.pool.take b.data formattedBytes)
  s!"buffer({length}) " ++ " ".intercalate (shown.map fun x => String.ofList (Text.hexDigits 2 x.toNat))

def keyCountText : String := s!"\x7b{o.props.keys.length} keys\x7d"

def plainText : Value → String
  | .undefined => "undefined"
  | .null => "null"
  | .boolean b => if b then "true" else "false"
  | .number x => x.text
  | .string s => Text.quote s
  | .pointer _ => "pointer"
  | .object _ => "object"

def ownText? : Option String :=
  match o.body with
  | .error f => some ("error: " ++ f.message)
  | .buffer b => some (w.bufferText b)
  | _ => none

/-- A value as text, with `depth` levels of properties; `room` is how many more values the stack
takes. -/
def format (w : World) (h : Heap) : Nat → Int → Value → Except Stop String
  | 0, _, .object p => do
    let o ← h.deref p
    return (w.ownText? o).getD (keyCountText o)
  | room + 1, depth, .object p => do
    let o ← h.deref p
    match (w.wrapperText? o).or (w.ownText? o) with
    | some text => return text
    | none =>
      if depth = 0 then return keyCountText o
      let parts ← o.props.entries.mapM fun (k, v) => do
        return k ++ ": " ++ (← format w h room (depth - 1) v)
      return "\x7b" ++ ", ".intercalate parts ++ "\x7d"
  | _, _, v => .ok (plainText v)

end World

def formatAt (h : HeapId) (i : Int) (depth : Int) : M String := do
  let w ← get
  readHeap h fun s =>
    match s.value? i with
    | some v => w.format s (s.limits.stack - s.stack.size).toNat depth v
    | none => .ok "none"

end Tether
