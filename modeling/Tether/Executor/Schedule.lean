import Tether.Executor.Basic
import Tether.Program.Run

/-!
# Executors of heaps

An executor that owns a heap runs programs on it. A request plays one schedule of the executor's
moves: the moves that are not possible, because the executor has stopped, are left out.
-/

namespace Tether

open M

structure JobResult where
  answers : Option (List Answer)
  fault : Option Fault

abbrev HeapExecutor := Executor World JobResult

inductive Request where
  | run (program : Program) (fault : Option Fault)
  | runCancelled (program : Program) (fault : Option Fault)
  | runBusy (program : Program) (fault : Option Fault)
  | count (n : Nat)
  | close

structure Response where
  answers : Option (List Answer) := none
  fault : Option Fault := none

def programJob (p : Program) (fault : Option Fault) (w : World) : JobResult × World :=
  match (p.run Host.standard true).run w with
  | (.ok answers, w) => (⟨some answers, fault⟩, w)
  | (.error (.fault f), w) => (⟨none, some f⟩, w)
  | (.error (.crash _), w) => (⟨none, none⟩, w)

def addToCounter (h : HeapId) : M Unit := do
  modifyHeap h fun s => s.push (.object s.global)
  let _ ← onHeap h (·.getProp (-1) "counter")
  let s ← heap h
  let n := if s.isNumber (-1) then s.getNumber (-1) else ⟨0⟩
  changeHeap h (·.popN 1)
  modifyHeap h (·.push (.number (n.add (Double.ofInt 1))))
  changeHeap h (·.putProp (-2) "counter")
  changeHeap h (·.popN 1)

def counterJob (w : World) : JobResult × World :=
  match (addToCounter w.current).run w with
  | (.error (.fault f), w) => (⟨none, some f⟩, w)
  | (_, w) => (⟨none, none⟩, w)

def closeHeap (host : Host) (h : HeapId) (w : World) : Option World :=
  match (Heap.close host h).run w with
  | (.ok (), w) => some w
  | (.error _, _) => none

def cancelledFault : Fault := .plain "context canceled"

def closedExecutorFault : Fault := .closed .heap "executor"

def Return.fault? : Return JobResult → Option Fault
  | .result r => r.fault
  | .cancelled => some cancelledFault
  | .closed => some closedExecutorFault

namespace HeapExecutor

variable (h : HeapId) (e : HeapExecutor)

def proceed (moves : List (Move World JobResult)) : HeapExecutor :=
  e.play (closeHeap Host.standard h) moves

def response (i : Nat) : Response :=
  ⟨(e.result? i).bind (·.answers), (e.return? i).bind Return.fault?⟩

def runJob (job : World → JobResult × World) : HeapExecutor × Response :=
  let i := e.callers.size
  let e := e.proceed h [.submit job, .receive i, .finish, .deliver i, .refuse i]
  (e, HeapExecutor.response e i)

def runJobs (job : World → JobResult × World) : Nat → HeapExecutor → HeapExecutor × Option Fault
  | 0, e => (e, none)
  | n + 1, e =>
    let (e, first) := e.runJob h job
    let (e, later) := runJobs job n e
    (e, first.fault.or later)

def handle (e : HeapExecutor) : Request → HeapExecutor × Response
  | .run p f => e.runJob h (programJob p f)
  | .runCancelled p f =>
    let i := e.callers.size
    let e := e.proceed h [.submit (programJob p f), .receive i, .refuse i, .cancel i, .giveUp i, .finish]
    (e, HeapExecutor.response e i)
  | .runBusy p f =>
    let k := e.callers.size
    let i := k + 1
    let e := e.proceed h [.submit fun w => (⟨none, none⟩, w), .receive k, .submit (programJob p f), .refuse i,
        .cancel i, .giveUp i,
        .finish, .deliver k, .refuse k]
    (e, HeapExecutor.response e i)
  | .count n =>
    let (e, f) := runJobs h counterJob n e
    (e, { fault := f })
  | .close =>
    let j := e.closers.size
    (e.proceed h [.askClose, .quit, .shut, .closed j], {})

def handleAll : HeapExecutor → List Request → HeapExecutor × List Response
  | e, [] => (e, [])
  | e, r :: rest =>
    let (e, a) := e.handle h r
    let (e, as) := handleAll e rest
    (e, a :: as)

end HeapExecutor

/-- Runs requests on the executor of a new heap and closes it; reports the answers and all heaps. -/
def runExecutor (spec : HeapSpec) (requests : List Request) : Except Stop (List Response × List HeapReport) :=
  let start : M HeapId := do
    let h ← openHeap Host.standard spec
    modify fun w => { w with current := h }
    return h
  match start.run {} with
  | (.error e, _) => .error e
  | (.ok h, w) =>
    let (e, answers) := HeapExecutor.handleAll h { state := w } requests
    let (e, _) := e.handle h .close
    .ok (answers, e.state.reports)

end Tether
