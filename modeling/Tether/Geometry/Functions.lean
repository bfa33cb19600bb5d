import Tether.Native.Type

/-!
# The functions of the geometry module

The native functions that the geometry module binds, with the native types of what they take and
give. What they do is said in `Tether.Geometry.Scene`.
-/

namespace Tether

inductive SceneFn where
  | placeWidget | largest | largestHandle | fill | checksum | echo | words | box | nest | maybe
  | scale | wide
  | single | fail | sum5 | adopt | join
  | makeWidget | animate | size | turns | grow | destruct | hits
deriving DecidableEq

namespace SceneFn

def vec3 : NativeType := .named "geom.Vec3" (.struct (.ofList
  [{ name := "X", type := .float64 }, { name := "Y", type := .float64 }, { name := "Z", type := .float64 }]))

/-- Whether positions are local or global. -/
def space : NativeType := .named "geom.CoordinateSpace" (.int .uint8)

def boxType : NativeType := .named "geom.Box" (.struct (.ofList
  [{ name := "Min", type := vec3 }, { name := "Max", type := vec3 }, { name := "Label", type := .string }]))

def nestType : NativeType := .named "geom.Nest" (.struct (.ofList
  [{ name := "Box", type := boxType }, { name := "Mode", type := space }]))

def byteSlice : NativeType := .slice (.int .uint8)

def widget : NativeType := .object .widget

def params : SceneFn → List NativeType
  | placeWidget => [space, vec3]
  | largest | largestHandle => []
  | fill => [byteSlice, .int .uint8]
  | checksum | echo => [byteSlice]
  | words => [.int .uint8]
  | box => [vec3, vec3, .string]
  | nest => [.string, space]
  | maybe => [.bool, .string]
  | scale => [.int .uint8]
  | wide => [.int .int64, .int .uint64]
  | single => [.float32]
  | fail => [.string]
  | sum5 => List.replicate 5 (.int .uint8)
  | adopt => [widget]
  | join => [.slice (.int .uint32)]
  | makeWidget => [.float64]
  | animate => [widget, .float64, .bool]
  | size | turns | destruct => [widget]
  | grow => [widget, .float64]
  | hits => [.object .marker]

def results : SceneFn → List NativeType
  | placeWidget | adopt | join | destruct => []
  | largest | largestHandle => [widget]
  | fill | checksum | sum5 => [.int .uint32]
  | echo => [byteSlice]
  | words => [.slice (.int .uint32)]
  | box => [boxType]
  | nest => [nestType]
  | maybe => [.pointer .string]
  | scale => [.float64]
  | wide => [.int .uint64]
  | single => [.float32]
  | fail => [.interface .error]
  | makeWidget => [widget, .interface .error]
  | animate => [.bool]
  | size => [.float64]
  | turns => [.int .int32]
  | grow => [.float64, .interface .error]
  | hits => [.int .uint32]

end SceneFn

end Tether
