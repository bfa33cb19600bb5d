import Tether.Heap.Access
import Tether.World

/-!
# Calls

A call takes a function and its arguments from the stack, runs the function's code in a frame of its
own, and puts one result in their place. A call that fails removes them.
-/

namespace Tether

variable (host : Host) (h : HeapId)

def M.onHeap {α : Type} (f : Heap → Except Stop (α × Heap)) : M α := do
  match f (← M.heap h) with
  | .ok (a, s) =>
    M.modifyHeap h fun _ => s
    return a
  | .error e => throw e

def M.changeHeap (f : Heap → Except Stop Heap) : M Unit :=
  M.onHeap h fun s => (f s).map fun s => ((), s)

def M.readHeap {α : Type} (f : Heap → Except Stop α) : M α := do
  match f (← M.heap h) with
  | .ok a => return a
  | .error e => throw e

namespace Heap

open M

def fitArguments (h : Heap) (start nargs : Nat) (arity : Int) : Heap :=
  if arity < 0 then h
  else if arity < (nargs : Int) then h.truncate (start + arity.toNat)
  else { h with stack := h.stack ++ Array.replicate (arity.toNat - nargs) Value.undefined }

/-- Leaves the innermost frame; a crash if there is none, because the heap was closed meanwhile. -/
def leaveFrame : M Unit := do
  match (← heap h).frames with
  | _ :: rest => modifyHeap h fun s => { s with frames := rest }
  | [] => crash .runtime

/-- Runs the code of a function and gives how many results it says it leaves; a function without code
leaves none. -/
def runBody : Option Code → M Int
  | some code => host.run h code
  | none => return 0

def invoke (f : Frame) (code : Option Code) : M Int := do
  modifyHeap h fun s => { s with frames := f :: s.frames }
  andFinally (runBody host h code) (leaveFrame h)

def resultOf (h : Heap) (name : String) (start : Nat) (n : Int) : Except Fault Value :=
  if n = 0 then .ok .undefined
  else if n = 1 ∧ start < h.stack.size then .ok (h.stack.back?.getD .undefined)
  else
    let left : Int := (h.stack.size : Int) - (start : Int)
    .error (.issue ⟨.heap, .invalidInput, [], "", "",
      "function " ++ Text.quote name ++ s!" returned {n} value(s) with {left} on its frame"⟩)

def functionAt (h : Heap) (pos : Nat) : Except Stop (HeapPtr × String × Int × Option Code) :=
  let notCallable : Except Stop (HeapPtr × String × Int × Option Code) := do
    let t ← h.typeOf h.stack[pos]?
    .error (.fault (.issue ⟨.heap, .typeMismatch, [], "", t, "value is not callable"⟩))
  match h.stack[pos]? with
  | some (.object p) => do
    match (← h.deref p).body with
    | .function name arity code => return (p, name, arity, code)
    | _ => notCallable
  | _ => notCallable

def leaveResult (pos : Nat) (name : String) (start : Nat) (n : Except Fault Int) : M Unit := do
  let s ← heap h
  if s.stack.size < pos then
    remember fun _ => .underflow h
    crash (.heap "heap: native function popped below its frame")
  modifyHeap h (·.truncate pos)
  match n.bind (s.resultOf name start) with
  | .ok v => modifyHeap h (·.push v)
  | .error f => fail f

/-- Calls the function at position `pos` with `nargs` arguments from position `start` on. -/
def callAt (pos : Nat) (this : Value) (start nargs : Nat) : M Unit := do
  let s ← heap h
  let cut := modifyHeap h (·.truncate pos)
  if s.closed then
    cut
    fail (.closed .heap "heap")
  let (fn, name, arity, code) ← onFault (readHeap h (·.functionAt pos)) cut
  if s.limits.depth ≤ (s.frames.length : Int) then
    cut
    fail (.stackOverflow s!"call depth limit {s.limits.depth} reached")
  modifyHeap h (·.fitArguments start nargs arity)
  let n ← catchFault (invoke host h ⟨fn, this, start, nargs⟩ code)
  leaveResult h pos name start n

def call (host : Host) (h : HeapId) (nargs : Int) : M Unit := do
  let s ← heap h
  let pos := wrapCount ((s.stack.size : Int) - nargs - 1)
  if nargs < 0 ∨ pos < (s.bottom : Int) then
    fail (.invalidInput .heap "call: not enough values on stack")
  callAt host h pos.toNat .undefined (pos.toNat + 1) nargs.toNat

def callMethod (nargs : Int) : M Unit := do
  let s ← heap h
  let pos := wrapCount ((s.stack.size : Int) - nargs - 2)
  if nargs < 0 ∨ pos < (s.bottom : Int) then
    fail (.invalidInput .heap "call method: not enough values on stack")
  let this ← need s.stack[pos.toNat + 1]?
  callAt host h pos.toNat this (pos.toNat + 2) nargs.toNat

/-- Calls a property of the object at an index with the object as receiver and the top values as
arguments. -/
def callProp (i : Int) (k : String) (nargs : Int) : M Unit := do
  let s ← heap h
  match s.value? i with
  | none => fail (.invalidInput .heap "call property: invalid index")
  | some this =>
    if nargs < 0 ∨ s.top < nargs then fail (.invalidInput .heap "call property: invalid index")
    match this with
    | .object p =>
      let fn := (s.lookup p k).getD .undefined
      let start := s.stack.size - nargs.toNat
      let args := s.stack.drop start
      modifyHeap h fun s => { s with stack := s.stack.take start ++ #[fn, this] ++ args }
      callMethod host h nargs
    | _ =>
      changeHeap h (·.popN nargs)
      let s ← heap h
      throw (s.mismatch i "object")

end Heap

end Tether
