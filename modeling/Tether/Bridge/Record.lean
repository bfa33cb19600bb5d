import Tether.Heap.Object

/-!
# Native objects, shares and records

Every native object carries a token. The token names the record of the object's live wrapper, if it
has one, and the control block by which all shares of the object are counted.
-/

namespace Tether

abbrev NativeId := Nat
abbrev ControlId := Nat
abbrev ShareId := Nat
abbrev RecordId := Nat
abbrev BridgeId := Nat
abbrev HeapId := Nat

/-- The identity of a native object towards bridges. -/
structure Token where
  record : Option RecordId := none
  control : Option ControlId := none
deriving DecidableEq

/-- The count of the shares of an object. -/
structure Control where
  object : NativeId
  refs : Int := 0
  destroyed : Bool := false
deriving DecidableEq

structure Share where
  object : NativeId
  control : ControlId
  released : Bool := false
deriving DecidableEq

/-- The link between a wrapper and a native object. -/
structure Record where
  bridge : BridgeId
  cls : ClassId
  share : Option ShareId
  /-- The wrapper. -/
  ptr : HeapPtr
  severed : Bool := false
  /-- The share that the record was made with. Nothing is decided by it: theorems on whole runs speak of
  it. -/
  origin : ShareId := share.getD 0
deriving DecidableEq

structure NativeObject where
  sort : ObjectSort
  name : String := ""
  token : Token := {}
  id : Int := 0
  label : String := ""
  destroyed : Nat := 0
  onDestroy : Option Program := none
  size : Double := ⟨0⟩
  turns : Int := 0

structure BridgeStats where
  wrapped : Nat := 0
  reused : Nat := 0
  finalized : Nat := 0
  severed : Nat := 0
  live : Int := 0
  prototypes : Nat := 0
  classes : Nat := 0
deriving DecidableEq

structure Bridge where
  heapId : HeapId
  /-- Whether a broken identity found in finalization is a crash. -/
  strict : Bool := false
  logs : Bool := false
  classes : List (NativeType × ClassId) := []
  resources : List (Nat × ClassId) := []
  stats : BridgeStats := {}

end Tether
