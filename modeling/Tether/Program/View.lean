import Tether.Heap.Access
import Tether.World

/-!
# Showing state in answers

Snapshots of values, payloads, records and bytes, as answers show them. They read a world and change
nothing.
-/

namespace Tether

def shownBytes : Nat := 32

def shownSlots : Nat := 24

namespace World

variable (w : World)

def excerpt (s : Slice) : Excerpt := ⟨s.length, w.pool.take s shownBytes⟩

def objectName (o : NativeId) : Option String := (w.natives[o]?).map (·.name)

def heldObject? (r : Record) : Option NativeId := (r.share.bind (w.shares[·]?)).map (·.object)

def recordView (r : RecordId) : Option RecordView :=
  (w.records[r]?).map fun r =>
    let cls := ((w.classes[r.cls]?).map (·.name)).getD ""
    ⟨cls, r.ptr, r.severed, (w.heldObject? r).bind w.objectName⟩

def payloadView : Payload → PayloadView
  | .null => .null
  | .int i => .int i
  | .float x => .float x
  | .text s => .text s
  | .bool b => .bool b
  | .cell name => .cell name
  | .record r =>
    match r.bind w.recordView with
    | some r => .record r
    | none => .noRecord
  | .bridge _ => .bridge
  | .list => .list

def bufferView (b : Buffer) : Option Excerpt :=
  if b.detached then none else some (w.excerpt b.data)

def bodyView : Body → BodyView
  | .plain => .plain
  | .function name _ _ => .function name
  | .buffer b => .buffer (w.bufferView b)
  | .error f => .error f.message

def plainView : Option Value → View
  | none => .none
  | some .undefined => .undefined
  | some .null => .null
  | some (.boolean b) => .boolean b
  | some (.number x) => .number x
  | some (.string s) => .string s
  | some (.pointer p) => .pointer (w.payloadView p)
  | some (.object _) => .broken

def view (w : World) (h : Heap) : Nat → Option Value → View
  | 0, some (.object p) =>
    match h.object? p with
    | some o => .object o.body.typeName p (w.bodyView o.body) none
    | none => .broken
  | n + 1, some (.object p) =>
    match h.object? p with
    | some o =>
      let props := o.props.entries.map fun (k, v) => (k, view w h n (some v))
      .object o.body.typeName p (w.bodyView o.body) (some (.ofList props))
    | none => .broken
  | _, v => w.plainView v

def frameViews (h : Heap) : List View :=
  let frame := h.stack.toList.drop h.bottom
  (frame.drop (frame.length - shownSlots)).map fun v => w.view h 0 (some v)

end World

/-! ## Inspection of a slot -/

namespace Heap

def predicates (v : Option Value) (o : Option Object) : List String :=
  match v with
  | none => []
  | some .undefined => ["nullish", "undefined"]
  | some .null => ["null", "nullish"]
  | some (.boolean _) => ["boolean"]
  | some (.number _) => ["number"]
  | some (.string _) => ["string"]
  | some (.pointer _) => ["pointer"]
  | some (.object _) =>
    match o.map Object.body with
    | some (.buffer _) => ["buffer", "object"]
    | some (.error _) => ["error", "object"]
    | some (.function ..) => ["function", "object"]
    | _ => ["object"]

def inspect (h : Heap) (w : World) (i : Int) : Except Stop Inspection := do
  let v := h.value? i
  let o ← h.objectAt? i
  let body := (o.map (·.body)).getD .plain
  return {
    kind := Value.kindName v
    type := ← h.typeName i
    is := predicates v o
    boolean := match v with
      | some (.boolean b) => b
      | _ => false
    number := h.getNumber i
    string := match v with
      | some (.string s) => s
      | _ => ""
    pointer := w.payloadView (h.getPointer i)
    func := (o.bind (·.functionName?)).getD ""
    ptr := ← h.pointerAt i
    data := match body with
      | .buffer b => w.bufferView b
      | _ => none
    error := match body with
      | .error f => some f.message
      | _ => none }

end Heap

end Tether
