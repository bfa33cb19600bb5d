import Tether.Bridge.Record
import Tether.Fault.Basic
import Tether.Heap.Basic

/-!
# Answers of programs

What a step answers: a reply, or how it stopped, with the height of the stack afterwards and the
trace of the native code that ran. Replies are snapshots; later steps do not change them.
-/

namespace Tether

structure Excerpt where
  length : Nat
  first : List UInt8

structure RecordView where
  cls : String
  ptr : HeapPtr
  severed : Bool
  object : Option String

inductive PayloadView where
  | null
  | int (i : Int)
  | float (x : Double)
  | text (s : String)
  | bool (b : Bool)
  | cell (name : String)
  | record (r : RecordView)
  | noRecord
  | bridge
  | list

/-- What answers show of an object besides its type and pointer. -/
inductive BodyView where
  | plain
  | function (name : String)
  | buffer (data : Option Excerpt)
  | error (message : String)

mutual

inductive View where
  | none
  | undefined
  | null
  | boolean (b : Bool)
  | number (x : Double)
  | string (s : String)
  | pointer (p : PayloadView)
  | object (type : String) (ptr : HeapPtr) (body : BodyView) (props : Option PropertyViews)
  | broken

inductive PropertyViews where
  | nil
  | cons (key : String) (value : View) (rest : PropertyViews)

end

instance : Inhabited View := ⟨.none⟩

def PropertyViews.toList : PropertyViews → List (String × View)
  | nil => []
  | cons k v rest => (k, v) :: rest.toList

def PropertyViews.ofList : List (String × View) → PropertyViews
  | [] => nil
  | (k, v) :: rest => cons k v (ofList rest)

structure Inspection where
  kind : String
  type : String
  is : List String
  boolean : Bool
  number : Double
  string : String
  pointer : PayloadView
  func : String
  ptr : HeapPtr
  data : Option Excerpt
  error : Option String

structure TokenView where
  bound : Bool
  disposed : Bool
  refs : Int
  record : Option RecordView
  gadget : Option (Nat × String × Int)

structure ClassView where
  name : String
  type : String
  methods : List String
  resource : Option String
  key : String
  fault : Option Fault

mutual

inductive Reply where
  | nothing
  | bool (b : Bool)
  | int (i : Int)
  | number (x : Double)
  | text (s : String)
  | texts (ss : List String)
  | keys (ks : List String)
  | view (v : View)
  | views (vs : List View)
  | index (n : Nat) (valid : Bool)
  | inspection (i : Inspection)
  | payload (p : PayloadView)
  | symbol (name text : String)
  | pointer (p : HeapPtr)
  | arguments (supplied : Int) (depth : Nat)
  | collected (s : CollectStats)
  | heapStats (s : HeapStats)
  | limits (l : Limits) (logs : Bool)
  | data (d : Option Excerpt)
  | token (t : TokenView)
  | share (object : Option String) (count : Int) (disposed : Bool)
  | attached (found same : Bool)
  | bridgeStats (s : BridgeStats)
  | object (name : Option String)
  | record (r : Option RecordView)
  | classInfo (c : ClassView)
  | description (d : Description)
  | native (v : Literal)
  | codec (c : Codec)
  | round (answers : Option (List Answer))

/-- How a step ended. -/
inductive Outcome where
  | reply (r : Reply)
  | stopped (s : Stop)

/-- Native code that ran during a step, with the answers of its own steps once it has finished. -/
inductive Event where
  /-- A function of a heap: the values of its frame, the arguments given and the depth of calls. -/
  | call (name : String) (frame : List View) (supplied : Int) (depth : Nat) (steps : Option (List Answer))
  | native (args : List Literal) (steps : Option (List Answer))
  | destroy (object : String) (steps : List Answer)

inductive Answer where
  | mk (outcome : Outcome) (top : Int) (trace : List Event)

end

instance : Inhabited Reply := ⟨.nothing⟩
instance : Inhabited Answer := ⟨.mk (.reply .nothing) 0 []⟩

def Event.finish (steps : List Answer) : Event → Event
  | call name frame supplied depth _ => call name frame supplied depth (some steps)
  | native args _ => native args (some steps)
  | destroy object steps => destroy object steps

end Tether
