import Tether.Native.Value
import Tether.Program.Answer

/-!
# The state of all parts, and computations on it

A world holds heaps, bytes, native objects, shares, records, bridges, classes and modules, each
under its number. Computations on a world may stop; whatever they changed before they stopped stays
changed.
-/

namespace Tether

inductive LogLevel where
  | debug | warn | error
deriving DecidableEq

inductive LogValue where
  | int (i : Int)
  | text (s : String)
deriving DecidableEq

structure LogEntry where
  level : LogLevel
  message : String
  fields : List (String × LogValue)
deriving DecidableEq

structure Names where
  objects : List (String × NativeId) := []
  shares : List (String × ShareId) := []
  classes : List (String × ClassId) := []
  modules : List (String × Nat) := []
  pointers : List (String × HeapPtr) := []
  bytes : List (String × Option Slice) := []
  stems : List (String × Nat) := []

/-- Where a widget was placed: the coordinate space and the position. -/
structure Placement where
  space : Int
  x : Double
  y : Double
  z : Double

/-- What the geometry module remembers. -/
structure Scene where
  placements : List Placement := []
  widgets : List NativeId := []
  destroyed : Nat := 0

/-- Which rules of bridges were broken so far, and how often. Nothing is decided by it: it is the history
that theorems on whole runs speak of. -/
structure Breaches where
  /-- Somebody else wrote a hidden key of bridges or classes, or a token. -/
  keys : Bool := false
  races : Bool := false
  /-- A handle crossed under a class that does not take its object. -/
  types : Bool := false
  counts : Bool := false
  /-- How often a new wrapper refused its prototype or its finalizer. -/
  refusals : Nat := 0
deriving DecidableEq

def Breaches.merge (x y : Breaches) : Breaches :=
  ⟨x.keys || y.keys, x.races || y.races, x.types || y.types, x.counts || y.counts, x.refusals + y.refusals⟩

/-- What theorems on runs look at in a world. -/
structure State where
  heaps : Array Heap
  attached : List (HeapId × BridgeId)
  natives : Array NativeObject
  controls : Array Control
  shares : Array Share
  records : Array Record
  bridges : Array Bridge
  classes : Array ClassDecl
  modules : Array ModuleDecl
  named : List (String × ShareId)
  orderly : Bool
  forced : Bool
  breaches : Breaches

/-- What a run goes through. -/
inductive Moment where
  | step (state : State)
  /-- A call finds that values below its frame are gone. -/
  | underflow (h : HeapId)
  /-- A method is applied to a receiver that it does not take. -/
  | misfit (state : State)

def Moment.addTo (m : Moment) (history : Moment → Prop) (x : Moment) : Prop := history x ∨ x = m

structure World where
  heaps : Array Heap := #[]
  current : HeapId := 0
  attached : List (HeapId × BridgeId) := []
  pool : Pool := {}
  natives : Array NativeObject := #[]
  controls : Array Control := #[]
  shares : Array Share := #[]
  records : Array Record := #[]
  bridges : Array Bridge := #[]
  classes : Array ClassDecl := #[]
  modules : Array ModuleDecl := #[]
  names : Names := {}
  scene : Scene := {}
  logging : Bool := false
  log : Array LogEntry := #[]
  trace : Array Event := #[]
  /-- Whether native code kept to the rules of bridges so far. Nothing is decided by it: it is the
  history that theorems on whole runs speak of. -/
  orderly : Bool := true
  /-- Whether the finalizer of a bridge was called for an object whose own finalizer was not started.
  Nothing is decided by it either. -/
  forced : Bool := false
  breaches : Breaches := {}
  recording : Bool := false
  /-- What the run went through so far. Nothing is decided by it either. -/
  history : Moment → Prop := fun _ => False

def World.state (w : World) : State :=
  ⟨w.heaps, w.attached, w.natives, w.controls, w.shares, w.records, w.bridges, w.classes, w.modules,
    w.names.shares, w.orderly, w.forced, w.breaches⟩

instance : Inhabited World := ⟨{}⟩

namespace World

variable (w : World)

/-- Whether an object is bound or destroyed. -/
def claims (o : NativeId) : Bool :=
  (w.natives[o]?).any fun n =>
    n.token.record.isSome || (n.token.control.bind (w.controls[·]?)).any (·.destroyed)

def takes (c : ClassId) (o : NativeId) : Bool :=
  (w.classes[c]?).any fun d =>
    (w.natives[o]?).any fun n => (NativeType.object n.sort).assignableTo d.type

end World

abbrev M := ExceptT Stop (StateM World)

namespace M

variable {α : Type}

def fail (f : Fault) : M α := throw (.fault f)

def crash {α : Type} (c : Crash) : M α := throw (.crash c)

def catchFault (x : M α) : M (Except Fault α) := do
  match ← ExceptT.run x |> ExceptT.lift with
  | .ok a => return .ok a
  | .error (.fault f) => return .error f
  | .error (.crash c) => crash c

def catchAll (x : M α) : M (Except Stop α) := ExceptT.lift (ExceptT.run x)

/-- Runs a computation, and then another however the first ended. -/
def andFinally (x : M α) (after : M Unit) : M α := do
  let r ← catchAll x
  after
  match r with
  | .ok a => return a
  | .error s => throw s

/-- Runs a computation; if it stops with a fault, another runs before the fault goes on. -/
def onFault (x : M α) (after : M Unit) : M α := do
  match ← catchFault x with
  | .ok a => return a
  | .error f =>
    after
    fail f

/-- The value that is there, or a crash. -/
def need (x : Option α) (c : Crash := .runtime) : M α :=
  match x with
  | some a => return a
  | none => crash c

def ignoreFault (x : M α) : M Unit := do
  let _ ← catchFault x

def ofExcept (x : Except Fault α) : M α :=
  match x with
  | .ok a => return a
  | .error f => fail f

def ofStop (x : Except Stop α) : M α :=
  match x with
  | .ok a => return a
  | .error s => throw s

def heap (h : HeapId) : M Heap := do need (← get).heaps[h]?

def modifyHeap (h : HeapId) (f : Heap → Heap) : M Unit := modify fun w => { w with heaps := w.heaps.modify h f }

def native (o : NativeId) : M NativeObject := do need (← get).natives[o]?

def modifyNative (o : NativeId) (f : NativeObject → NativeObject) : M Unit :=
  modify fun w => { w with natives := w.natives.modify o f }

def control (c : ControlId) : M Control := do need (← get).controls[c]?

def modifyControl (c : ControlId) (f : Control → Control) : M Unit :=
  modify fun w => { w with controls := w.controls.modify c f }

def share (s : ShareId) : M Share := do need (← get).shares[s]?

def modifyShare (s : ShareId) (f : Share → Share) : M Unit :=
  modify fun w => { w with shares := w.shares.modify s f }

def record (r : RecordId) : M Record := do need (← get).records[r]?

def modifyRecord (r : RecordId) (f : Record → Record) : M Unit :=
  modify fun w => { w with records := w.records.modify r f }

def bridge (b : BridgeId) : M Bridge := do need (← get).bridges[b]?

def modifyBridge (b : BridgeId) (f : Bridge → Bridge) : M Unit :=
  modify fun w => { w with bridges := w.bridges.modify b f }

def classDecl (c : ClassId) : M ClassDecl := do need (← get).classes[c]?

def modifyClass (c : ClassId) (f : ClassDecl → ClassDecl) : M Unit :=
  modify fun w => { w with classes := w.classes.modify c f }

def moduleDecl (m : Nat) : M ModuleDecl := do need (← get).modules[m]?

def modifyModule (m : Nat) (f : ModuleDecl → ModuleDecl) : M Unit :=
  modify fun w => { w with modules := w.modules.modify m f }

def note (kept : World → Bool) : M Unit := modify fun w => { w with orderly := w.orderly && kept w }

/-- Notes the rules of bridges that are broken. -/
def breach (f : World → Breaches) : M Unit := modify fun w => { w with breaches := w.breaches.merge (f w) }

def noteFinalizer (h : HeapId) : M Unit :=
  modify fun w => { w with forced := w.forced || (w.heaps[h]?).any (·.premature) }

/-- Adds what the run goes through to the history, if it is kept. -/
def remember (moment : World → Moment) : M Unit :=
  modify fun w => if w.recording then { w with history := (moment w).addTo w.history } else w

def log (enabled : Bool) (level : LogLevel) (message : String) (fields : List (String × LogValue)) : M Unit :=
  if enabled then modify fun w => { w with log := w.log.push ⟨level, message, fields⟩ } else return ()

def trace (e : Event) : M Nat := modifyGet fun w => (w.trace.size, { w with trace := w.trace.push e })

def amend (i : Nat) (f : Event → Event) : M Unit := modify fun w => { w with trace := w.trace.modify i f }

end M

/-- How native code is run. -/
structure Host where
  /-- Runs the code of a function on a heap whose top frame is the function's; gives how many
  results it says it leaves. -/
  run : HeapId → Code → M Int
  destroy : NativeId → M Unit
  apply : NativeFn Program → List NativeValue → M (List NativeValue)

end Tether
