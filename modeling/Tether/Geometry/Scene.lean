import Tether.Bridge.Ownership

/-!
# What the geometry functions do

The scene remembers every widget that was made and counts placements and destructions. The functions
here are the native side of the geometry module: they take native values and give native values.
-/

namespace Tether.Scene

open M

def modifyScene (f : Scene → Scene) : M Unit := modify fun w => { w with scene := f w.scene }

/-- Of two widgets, the one to keep as the largest: the later one only if it is greater. -/
def larger (best : Option (NativeId × Double)) (o : NativeId) (size : Double) : Option (NativeId × Double) :=
  match best with
  | none => some (o, size)
  | some (b, s) => if s.lt size then some (o, size) else some (b, s)

def widgetValue (o : NativeId) : M NativeValue := do
  if (← native o).sort = .widget then return .object o else crash .runtime

def largest : M NativeValue := do
  let best ← (← get).scene.widgets.foldlM (fun best o => do
    if ← Ownership.isDisposed o then return best
    else return larger best o (← native o).size) none
  match best with
  | some (o, _) => widgetValue o
  | none => return .nil

def bytesOf (v : NativeValue) : M (List UInt8) := do
  match v with
  | .bytes s => return (← get).pool.bytes s
  | _ => return []

def origin : NativeValue := .struct [.float ⟨0⟩, .float ⟨0⟩, .float ⟨0⟩]

def sum (vs : List NativeValue) : Int :=
  (vs.map fun
    | .int i => i
    | _ => 0).foldl (· + ·) 0

def makeWidget (size : Double) : M (List NativeValue) := do
  let zero : Double := ⟨0⟩
  if size.lt zero then return [.nil, .fault (.plain "negative size")]
  if size.equals zero then return [.nil, .nil]
  let o := (← get).natives.size
  modify fun w => { w with natives := w.natives.push { sort := .widget, size } }
  modifyScene fun s => { s with widgets := s.widgets ++ [o] }
  return [.object o, .nil]

def grow (o : NativeId) (by' : Double) : M (List NativeValue) := do
  let zero : Double := ⟨0⟩
  if by'.lt zero then return [.float zero, .fault (.plain "negative growth")]
  modifyNative o fun n => { n with size := n.size.add by' }
  return [.float (← native o).size, .nil]

def turn (o : NativeId) (speed : Double) : M Unit :=
  if (Double.mk 0).lt speed then modifyNative o fun n => { n with turns := n.turns + 1 } else return ()

def apply (host : Host) : SceneFn → List NativeValue → M (List NativeValue)
  | .placeWidget, [.int space, .struct [.float x, .float y, .float z]] => do
    modifyScene fun s => { s with placements := s.placements ++ [⟨space, x, y, z⟩] }
    return []
  | .largest, _ | .largestHandle, _ => do return [← largest]
  | .fill, [.bytes s, .int b] => do
    modify fun w => { w with pool := w.pool.fill s (UInt8.ofNat b.toNat) }
    return [.int s.length]
  | .checksum, [data] => do return [.int ((← bytesOf data).foldl (fun n b => n + b.toNat) 0 % 2 ^ 32 : Nat)]
  | .echo, [data] => return [data]
  | .words, [.int n] => return [.list ((List.range n.toNat).map fun i => .int (i * i : Nat))]
  | .box, [a, b, label] => return [.struct [a, b, label]]
  | .nest, [label, mode] => return [.struct [.struct [origin, origin, label], mode]]
  | .maybe, [.bool present, text] => return [if present then .some text else .nil]
  | .scale, [.int p] => return [.float (Double.ofRatio false p.toNat 100)]
  | .wide, [.int a, .int b] => return [.int ((a + b) % 2 ^ 64)]
  | .single, [x] => return [x]
  | .fail, [.text message] => return [if message = "" then .nil else .fault (.plain message)]
  | .sum5, args => return [.int (sum args)]
  | .adopt, _ | .join, _ => return []
  | .makeWidget, [.float size] => makeWidget size
  | .animate, [.object o, .float speed, ccw] => do
    turn o speed
    return [ccw]
  | .size, [.object o] => do return [.float (← native o).size]
  | .turns, [.object o] => do return [.int (← native o).turns]
  | .grow, [.object o, .float by'] => grow o by'
  | .destruct, [.object o] => do
    Ownership.dispose host o
    return []
  | .hits, _ => return [.int 0]
  | _, _ => crash .runtime

end Tether.Scene
