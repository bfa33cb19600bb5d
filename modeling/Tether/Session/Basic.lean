import Tether.Executor.Schedule
import Tether.Geometry.Module
import Tether.Session.Argument
import Tether.Session.Format
import Tether.Settings.Basic

/-!
# Sessions

A session owns a heap with the geometry module installed. Its bindings are listed as entries; an
entry is called with arguments written as text and gives its result as text. The widgets that a
session made stay reachable through a list on the global object until they are dropped. All work
goes through an executor, which refuses it once closed.
-/

namespace Tether

open M

variable (host : Host) (h : HeapId)

/-! ## Entries -/

inductive EntryKind where
  | function | constructor | method
deriving DecidableEq

structure Entry where
  label : String
  name : String
  signature : String
  params : List (String × WitType)
  kind : EntryKind

namespace Entry

def ofFunc (label : String) (name : String) (f : FuncDescription) (kind : EntryKind) : Entry :=
  ⟨label, name, f.signature, f.params, kind⟩

def ofClass (c : ClassDescription) : List Entry :=
  (c.constructor.map fun f => ofFunc ("new " ++ c.name) c.name f .constructor).toList ++
    c.methods.map fun f => ofFunc (c.name ++ "." ++ f.name) f.name f .method

/-- The entry as lists show it: the label in place of the name of the signature. -/
def text (e : Entry) : String :=
  e.label ++ "(" ++ String.ofList ((e.signature.toList.dropWhile (· != '(')).drop 1)

end Entry

def Description.entries (d : Description) : List Entry :=
  d.functions.map (fun f => Entry.ofFunc f.name f.name f .function) ++ d.classes.flatMap Entry.ofClass

/-! ## The list of widgets -/

def widgetsKey : String := "widgets"

def pushProperty (i : Int) (k : String) : M Unit := ignoreFault (onHeap h (·.getProp i k))

def clearWidgets : M Unit := do
  modifyHeap h fun s => s.push (.object s.global)
  let _ ← Heap.pushObject host h
  let done ← catchFault (changeHeap h (·.putProp (-2) widgetsKey))
  changeHeap h (·.popN 1)
  ofExcept done

def rememberWidget (global : Int) : M Unit := do
  pushProperty h global widgetsKey
  let list := (← heap h).top - 1
  let n := (← readHeap h (·.keys list)).length
  changeHeap h (·.dup (-2))
  ignoreFault (changeHeap h (·.putProp list (toString n)))
  changeHeap h (·.popN 1)

def pushLastWidget (global : Int) : M Bool := do
  pushProperty h global widgetsKey
  let n := (← readHeap h (·.keys (-1))).length
  if n = 0 then
    changeHeap h (·.popN 1)
    return false
  pushProperty h (-1) (toString (n - 1))
  changeHeap h (·.remove (-2))
  return true

/-! ## Calls -/

def callSlots : Nat := 4

def resultDepth : Int := 2

def callMember (e : Entry) (args : List String) (global ns : Int) : M Unit := do
  pushProperty h ns e.name
  pushArguments host h e.label e.params args
  Heap.call host h args.length
  if e.kind = .constructor then rememberWidget h global

def callOnWidget (e : Entry) (args : List String) (global : Int) : M Unit := do
  if !(← pushLastWidget h global) then fail (.notFound .call "widget" "last created")
  let w := (← heap h).top - 1
  pushArguments host h e.label e.params args
  Heap.callProp host h w e.name args.length

variable (module : String)

def callEntry (e : Entry) (args : List String) : M Unit := do
  readHeap h (·.requireStack (args.length + callSlots : Nat))
  modifyHeap h fun s => s.push (.object s.global)
  let global := (← heap h).top - 1
  pushProperty h global module
  let ns := (← heap h).top - 1
  match e.kind with
  | .method => callOnWidget host h e args global
  | _ => callMember host h e args global ns

def evaluate (e : Entry) (args : List String) : M String := do
  let base := (← heap h).top
  andFinally (do
      callEntry host h module e args
      formatAt h (-1) resultDepth)
    (changeHeap h (·.setTop base))

/-! ## Sessions -/

structure Session where
  world : World
  heap : HeapId
  bridge : BridgeId
  description : Description
  entries : List Entry
  /-- Whether its executor takes work. -/
  running : Bool := true

structure Snapshot where
  heap : HeapStats
  bridge : BridgeStats
  destroyed : Nat
  inUse : Nat

def Snapshot.text (s : Snapshot) (backend : String) : String :=
  s!"heap: {s.heap.live} live, {s.heap.collections} collections, {s.heap.finalizers} finalizers | " ++
    s!"bridge: {s.bridge.live} live, {s.bridge.wrapped} wrapped, {s.bridge.reused} reused, " ++
    s!"{s.bridge.finalized} finalized | destroyed: {s.destroyed} | {backend} buffers: {s.inUse} bytes"

def Settings.heapSpec (s : Settings) : HeapSpec :=
  { stackLimit := s.heap.stackLimit
    depthLimit := s.heap.callDepth
    gcThreshold := s.heap.gcThreshold
    pages := if s.buffers.backend = linearBackend then some s.buffers.memoryPages else none }

namespace Session

variable (settings : Settings)

def prepare : M (HeapId × BridgeId × Description) := do
  let h ← openHeap host settings.heapSpec
  let b ← Bridge.attach host (some h) false
  modify fun w => { w with current := h, attached := (h, b) :: w.attached }
  let m ← Geometry.declare
  Bridge.install host b m
  modifyHeap h fun s => s.push (.object s.global)
  let _ ← Heap.pushObject host h
  ignoreFault (changeHeap h (·.putProp (-2) widgetsKey))
  changeHeap h (·.popN 1)
  return (h, b, ← describeModule m)

def start (logging : Bool) : Except Stop Session :=
  match (prepare Host.standard settings).run { logging } with
  | (.ok (heap, bridge, description), world) =>
    .ok { world, heap, bridge, description, entries := description.entries }
  | (.error e, _) => .error e

variable (s : Session)

def entry? (label : String) : Option Entry := s.entries.find? (·.label == label)

def perform {α : Type} (work : M α) : Except Stop α × Session :=
  if s.running then
    let (r, world) := work.run s.world
    (r, { s with world })
  else (.error (.fault closedExecutorFault), s)

def call (e : Entry) (args : List String) : Except Stop String × Session :=
  if args.length ≠ e.params.length then
    (.error (.fault (.arityMismatch e.label e.params.length args.length)), s)
  else s.perform (evaluate Host.standard s.heap s.description.name e args)

def dropWidgets : Except Stop Unit × Session :=
  s.perform do
    readHeap s.heap (·.requireStack 2)
    clearWidgets Host.standard s.heap

def collect (s : Session) : Except Stop CollectStats × Session := s.perform (Heap.collect Host.standard s.heap)

def snapshot : Except Stop Snapshot × Session :=
  s.perform do
    let h ← M.heap s.heap
    let b ← M.bridge s.bridge
    let destroyed := (← get).scene.destroyed
    return { heap := h.stats, bridge := b.stats, destroyed, inUse := h.storage.inUse }

/-- Closes the heap and its storage; later work is refused. Closing twice does nothing. -/
def close (s : Session) : Session :=
  if s.running then
    let world := ((Heap.close Host.standard s.heap).run s.world).2
    let heaps := world.heaps.modify s.heap fun h => { h with storage := h.storage.close }
    let world := { world with heaps }
    { s with world, running := false }
  else s

/-- Runs a program on the heap of a session, shows the top value, and empties the stack. -/
def inspect (p : Program) (depth : Int) : Except Stop (List Answer × Except Stop String) × Session :=
  s.perform do
    let answers ← p.run Host.standard true
    let text ← catchAll (formatAt s.heap (-1) depth)
    changeHeap s.heap (·.setTop 0)
    return (answers, text)

end Session

end Tether
