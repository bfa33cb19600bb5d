import Tether.Bridge.Declare

/-!
# The geometry module

The interface of the geometry module: its types, its functions and its classes, in the order of
their declaration, which is the order of their properties on the module's object.
-/

namespace Tether.Geometry

open M

/-- The identities of the definitions of this module start here; those of programs stay below. -/
def firstIdentity : Nat := 2 ^ 32

def define (n : Nat) (name : Option String) (kind : WitKind) : WitType :=
  .defined (.mk (firstIdentity + n) name kind)

def resource (n : Nat) (name : String) : WitDef := .mk (firstIdentity + n) (some name) (.other .resource)

def vec3 : WitType :=
  define 0 "vec3" (.record (.ofList [("x", .prim .f64), ("y", .prim .f64), ("z", .prim .f64)]))
def coordinateSpace : WitType := define 1 "coordinate-space" (.enum ["local", "global"])
def box : WitType :=
  define 2 "box" (.record (.ofList [("min", vec3), ("max", vec3), ("label", .prim .string)]))
def nest : WitType := define 3 "nest" (.record (.ofList [("box", box), ("mode", coordinateSpace)]))
def percent : WitType := define 4 "percent" (.alias (.prim .u8))
def bytes : WitType := define 5 none (.list (.prim .u8))
def words : WitType := define 6 none (.list (.prim .u32))
def maybeString : WitType := define 7 none (.option (.prim .string))
def widgetResource : WitDef := resource 8 "widget"
def markerResource : WitDef := resource 9 "marker"
def widget : WitType := define 10 none (.own widgetResource)
def maybeWidget : WitType := define 11 none (.option widget)

def functions : List (String × SceneFn × Signature) :=
  let u8 : WitType := .prim .u8
  let u32 : WitType := .prim .u32
  let string : WitType := .prim .string
  [("placeWidget", .placeWidget, { params := [("space", coordinateSpace), ("pos", vec3)] }),
    ("largest", .largest, { result := maybeWidget }),
    ("largestHandle", .largestHandle, { result := widget }),
    ("fill", .fill, { result := u32, params := [("data", bytes), ("value", u8)] }),
    ("checksum", .checksum, { result := u32, params := [("data", bytes)] }),
    ("echo", .echo, { result := bytes, params := [("data", bytes)] }),
    ("words", .words, { result := words, params := [("n", u8)] }),
    ("box", .box, { result := box, params := [("a", vec3), ("b", vec3), ("label", string)] }),
    ("nest", .nest, { result := nest, params := [("label", string), ("mode", coordinateSpace)] }),
    ("maybe", .maybe, { result := maybeString, params := [("some", .prim .bool), ("text", string)] }),
    ("scale", .scale, { result := .prim .f64, params := [("percent", percent)] }),
    ("wide", .wide, { result := .prim .u64, params := [("a", .prim .s64), ("b", .prim .u64)] }),
    ("single", .single, { result := .prim .f32, params := [("f", .prim .f32)] }),
    ("fail", .fail, { params := [("message", string)] }),
    ("sum5", .sum5, { result := u32, params := [("a", u8), ("b", u8), ("c", u8), ("d", u8), ("e", u8)] }),
    ("adopt", .adopt, { params := [("w", widget)] }),
    ("join", .join, { params := [("w", words)] })]

def widgetMethods : List (String × SceneFn × Signature) :=
  let f64 : WitType := .prim .f64
  let bool : WitType := .prim .bool
  [("animate", .animate, { result := bool, params := [("speed", f64), ("ccw", bool)] }),
    ("size", .size, { result := f64 }),
    ("turns", .turns, { result := .prim .s32 }),
    ("grow", .grow, { result := f64, params := [("by", f64)] }),
    ("destruct", .destruct, {})]

def declare : M Nat := do
  let m ← declareModule "geom"
  functions.forM fun (name, fn, sig) => declareFunction m name (.scene fn) sig
  let w ← declareClass (.object .widget) "Widget" (some widgetResource)
  declareConstructor w (.scene .makeWidget) { params := [("size", .prim .f64)] }
  widgetMethods.forM fun (name, fn, sig) => declareMethod w name (.scene fn) sig
  addClassTo m w
  let k ← declareClass (.object .marker) "Marker" (some markerResource)
  declareMethod k "hits" (.scene .hits) { result := .prim .u32 }
  addClassTo m k
  addEnumTo m coordinateSpace.def?
  addRecordTo m vec3.def? (some SceneFn.vec3)
  addRecordTo m box.def? (some SceneFn.boxType)
  return m

def spaceName (space : Int) : String := if space = 0 then "Local" else "Global"

end Tether.Geometry
