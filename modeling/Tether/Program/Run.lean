import Tether.Program.Perform

/-!
# Running programs

A program runs step by step; every step answers, also when it stops. Native code that a step runs is
traced: the trace belongs to the step, and the steps of the native code answer for themselves inside
it.
-/

namespace Tether

open M

variable (host : Host) (h : HeapId) (outermost : Bool)

def passesThrough : Stop → Bool
  | .crash (.native _) => !outermost
  | _ => false

def answer (x : M Reply) : M Answer := do
  let outer := (← get).trace
  modify fun w => { w with trace := #[] }
  remember fun w => .step w.state
  let r ← catchAll x
  remember fun w => .step w.state
  let inner := (← get).trace
  modify fun w => { w with trace := outer }
  let top := (← heap (← currentHeap)).top
  match r with
  | .ok reply => return .mk (.reply reply) top inner.toList
  | .error s =>
    if passesThrough outermost s then throw s else return .mk (.stopped s) top inner.toList

def rounds (body : M (List Answer)) : Nat → Option (List Answer) → M Reply
  | 0, last => return .round last
  | n + 1, _ => do rounds body n (some (← body))

def Program.run (host : Host) (outermost : Bool) : Program → M (List Answer)
  | .done => return []
  | .step a rest => do
    let r ← answer outermost (perform host a)
    return r :: (← run host outermost rest)
  | .loop n body rest => do
    let r ← answer outermost (rounds (run host false body) n.toNat none)
    return r :: (← run host outermost rest)

/-! ## Native code -/

def runFunction (f : FuncSpec Program) : M Int := do
  let s ← heap h
  let event ← trace (.call f.name ((← get).frameViews s) s.argCount s.frames.length none)
  let outer ← currentHeap
  modify fun w => { w with current := h }
  let answers ← andFinally (f.body.run host false) (modify fun w => { w with current := outer })
  amend event (·.finish answers)
  match f.throws with
  | some f => fail f
  | none => return f.result

def runCode : Code → M Int
  | .program f => runFunction host h f
  | .finalizer b => Bridge.finalize host b h
  | .bound b c => Bridge.invoke host b c

def destroyNative (o : NativeId) : M Unit := do
  let n ← native o
  match n.sort with
  | .gadget =>
    modifyNative o fun n => { n with destroyed := n.destroyed + 1 }
    match n.onDestroy with
    | some body =>
      let answers ← body.run host false
      discard (trace (.destroy n.name answers))
    | none => return ()
  | .widget => Scene.modifyScene fun s => { s with destroyed := s.destroyed + 1 }
  | .spanner | .marker => return ()

def act (event : Nat) (args : List NativeValue) : FnAct Program → M Unit
  | .dispose i => do Ownership.dispose host (← objectOf (← need args[i]?))
  | .fill i byte => do
    match ← need args[i]? with
    | .bytes s => modify fun w => { w with pool := w.pool.fill s byte }
    | _ => return ()
  | .keep i name => do
    match ← need args[i]? with
    | .bytes s => keepBytes name (some s)
    | _ => keepBytes name none
  | .label target source => do
    let o ← objectOf (← need args[target]?)
    match ← need args[source]? with
    | .text label => modifyNative o fun n => { n with label }
    | _ => crash .runtime
  | .steps body => do
    let answers ← body.run host false
    amend event (·.finish answers)

def applyNative (fn : NativeFn Program) (args : List NativeValue) : M (List NativeValue) := do
  match fn with
  | .notFunction _ => crash .runtime
  | .scene f => Scene.apply host f args
  | .scripted params results _ acts returns =>
    let w ← get
    let event ← trace (.native ((params.zip args).map fun (type, v) => w.literal type v) none)
    acts.forM (act host event args)
    returnValues params args results returns

def exhaust {α : Type} : M α := do
  note fun _ => false
  crash .exhausted

def hostAt : Nat → Host
  | 0 => ⟨fun _ _ => exhaust, fun _ => exhaust, fun _ _ => exhaust⟩
  | n + 1 =>
    ⟨fun h code => runCode (hostAt n) h code, fun o => destroyNative (hostAt n) o,
      fun fn args => applyNative (hostAt n) fn args⟩

def nesting : Nat := 1000000

def Host.standard : Host := hostAt nesting

/-! ## Scripts -/

structure Script where
  heap : HeapSpec
  logging : Bool
  program : Program

/-- The script of some steps, with nothing logged and no collection that is not asked for. -/
def Script.ofSteps (steps : List (Action Program)) : Script where
  heap := { gcThreshold := 0 }
  logging := false
  program := .ofList steps

structure HeapReport where
  closed : Bool
  stats : HeapStats
  stack : List View
  /-- The bytes in use and the allocations of the storage that was passed to the heap. -/
  storage : Nat × Nat
  bridge : Option BridgeStats

structure ScriptReport where
  answers : List Answer
  heaps : List HeapReport
  log : List LogEntry

namespace World

def report (w : World) (id : HeapId) (h : Heap) : HeapReport :=
  { closed := h.closed
    stats := h.stats
    stack := w.frameViews h
    storage := if h.ownsStorage then (0, 0) else (h.storage.inUse, h.storage.allocations)
    bridge := ((w.attached.lookup id).bind (w.bridges[·]?)).map (·.stats) }

def reports (w : World) : List HeapReport := w.heaps.toList.zipIdx.map fun (h, id) => w.report id h

end World

def Script.work (s : Script) : M (List Answer) := do
  let h ← openHeap host s.heap
  modify fun w => { w with current := h }
  s.program.run host true

def Script.run (s : Script) : Except Stop ScriptReport :=
  match (s.work Host.standard).run { logging := s.logging } with
  | (.ok answers, w) => .ok ⟨answers, w.reports, w.log.toList⟩
  | (.error e, _) => .error e

end Tether
