import Tether.Fault.Basic
import Tether.Geometry.Functions
import Tether.Heap.Value
import Tether.Program.Literal
import Tether.Wit.Type

/-!
# Programs

A program is a list of steps, each one operation of the library. Native functions, finalizers and
the code that runs when a native object is destroyed have programs as their bodies, so native code
is data: it can be run on any state and reasoned about like any other syntax.

Steps come in groups, one for each part of the library. The groups whose steps carry code take the
type of programs as a parameter; `Program` closes the loop.
-/

namespace Tether

/-! ## Parts of steps -/

inductive PayloadSpec where
  | null
  | int (i : Int)
  | float (x : Double)
  | text (s : String)
  | bool (b : Bool)
  | cell (name : String)
  | record (object : String)
  | list

/-- A hidden key as a program writes it. -/
inductive SymbolSpec where
  | name (s : String)
  | ofClass (cls : String)

structure HeapSpec where
  stackLimit : Int := 10000
  depthLimit : Int := 200
  gcThreshold : Int := 1024
  pages : Option Nat := none
  passStorage : Bool := true

inductive BytesSpec where
  | none
  | data (bytes : List UInt8)
  | kept (name : String)

/-- A function for the heap, with its body. -/
structure FuncSpec (β : Type) where
  name : String
  /-- How many values its frame has; all arguments if negative. -/
  arity : Int
  body : β
  result : Int
  throws : Option Fault
  /-- Whether there is no native code behind it. -/
  hollow : Bool := false

inductive FnAct (β : Type) where
  | dispose (arg : Nat)
  | fill (arg : Nat) (byte : UInt8)
  | keep (arg : Nat) (name : String)
  | label (target source : Nat)
  | steps (body : β)

/-- A result of a scripted native function. -/
inductive FnReturn where
  | zero
  | arg (i : Nat)
  | lengthOf (arg : Nat)
  | idOf (arg : Nat)
  | labelOf (arg : Nat)
  | newGadget (stem : String) (id : Int) (idArg : Option Nat)
  | fault (f : Option Fault)
  | literal (v : Literal)

inductive NativeFn (β : Type) where
  | notFunction (typeName : String)
  | scripted (params results : List NativeType) (variadic : Bool) (acts : List (FnAct β)) (returns : List FnReturn)
  | scene (f : SceneFn)

/-- The types of a native function's parameters and results, and whether it takes any number of
arguments. -/
def NativeFn.types? {β : Type} : NativeFn β → Option (List NativeType × List NativeType × Bool)
  | notFunction _ => none
  | scripted params results variadic _ _ => some (params, results, variadic)
  | scene f => some (f.params, f.results, false)

/-- The interface types of a function's parameters and result; an absent result declares none. -/
structure Signature where
  result : WitType := .absent
  params : List (String × WitType) := []

/-! ## Steps -/

inductive StackStep where
  | pushUndefined | pushNull
  | pushBoolean (b : Bool)
  | pushNumber (x : Double)
  | pushString (s : String)
  | pushPointer (p : PayloadSpec)
  | pushObject | pushGlobal | pushStash | pushThis | pushCurrent
  | getTop
  | setTop (n : Int)
  | pop
  | popN (n : Int)
  | dup (i : Int)
  | dupTop
  | swap (i j : Int)
  | remove (i : Int)
  | insert (i : Int)
  | requireStack (n : Int)
  | index (i : Int)
  | equals (i j : Int)
  | inspect (i : Int)
  | require (i : Int) (want : String)
  | dump
  | reveal (i n : Int)

/-- Steps on properties, hidden properties, prototypes, finalizers and heap pointers. -/
inductive PropertyStep where
  | put (i : Int) (k : String)
  | get (i : Int) (k : String)
  | has (i : Int) (k : String)
  | del (i : Int) (k : String)
  | keys (i : Int)
  | putHidden (i : Int) (sym : SymbolSpec)
  | getHidden (i : Int) (sym : SymbolSpec)
  | hasHidden (i : Int) (sym : SymbolSpec)
  | delHidden (i : Int) (sym : SymbolSpec)
  | symbol (k : String)
  | getPrototype (i : Int)
  | setPrototype (i : Int)
  | getFinalizer (i : Int)
  | setFinalizer (i : Int)
  | heapPtr (i : Int) (keep : Option String)
  | pushHeapPtr (name : String) (otherwise : HeapPtr)

inductive CallStep (β : Type) where
  | pushFunc (f : FuncSpec β)
  | pushError (f : Option Fault)
  | call (n : Int)
  | callMethod (n : Int)
  | callProp (i : Int) (k : String) (n : Int)
  | pcall (n : Int)
  | pcallMethod (n : Int)
  | argCount
  | crash (message : String)
  | malformed

inductive HeapStep where
  | collect | stats | config | close
  | newHeap (spec : HeapSpec)
  | use (n : Int)

inductive BufferStep where
  | push (size : Int) (data : List UInt8)
  | pushExternal (data : BytesSpec)
  | get (i : Int)
  | require (i : Int)
  | keep (i : Int) (name : String)
  | write (i : Int) (offset : Int) (data : List UInt8)
  | detach (i : Int)
  | newBytes (name : String) (data : List UInt8)
  | setByte (name : String) (offset : Int) (byte : UInt8)
  | bytes (name : String)

inductive ObjectStep (β : Type) where
  | make (name : String) (sort : ObjectSort) (id : Int) (label : String) (onDestroy : Option β)
  | token (object : String)
  | resetToken (object : String)
  | copyToken (object target : String)
  | share (object name : String)
  | clone (share name : String)
  | release (share : String)
  | inspectShare (share : String)
  | dispose (object : String)

inductive BridgeStep where
  | make (strict noHeap : Bool)
  | fromHeap (noHeap : Bool)
  | stats
  | pushNative (object : Option String)
  | wrapShare (share : String)
  | wrapObject (object : String) (type : NativeType)
  | unwrap (i : Int) (type : NativeType)
  | unwrapAs (i : Int) (cls : String)
  | recordAt (i : Int)

inductive ClassStep (β : Type) where
  | declare (name : String) (type : NativeType) (scriptName : String) (resource : WitType)
  | setConstructor (cls : String) (fn : NativeFn β) (sig : Signature)
  | addMethod (cls name : String) (fn : NativeFn β) (sig : Signature)
  | info (cls : String)
  | register (cls : Option String)
  | list
  | prototype (cls : String)

inductive ModuleStep (β : Type) where
  | declare (name scriptName : String)
  | addFunc (owner name : String) (fn : NativeFn β) (sig : Signature)
  | addClass (owner cls : String)
  | addEnum (owner : String) (wit : WitType)
  | addRecord (owner : String) (wit : WitType) (type : Option NativeType)
  | status (owner : String)
  | push (owner : String)
  | install (owner : String)
  | describe (owner : String)

/-- Steps that move native values across. `must` makes a codec that cannot be compiled a crash. -/
inductive MarshalStep where
  | push (wit : WitType) (type : Option NativeType) (value : Literal) (must : Bool)
  | require (wit : WitType) (type : Option NativeType) (i : Int) (keep : Option String) (must : Bool)
  | codec (wit : WitType) (type : Option NativeType) (must : Bool)

inductive Action (β : Type) where
  | stack (s : StackStep)
  | property (s : PropertyStep)
  | call (s : CallStep β)
  | heap (s : HeapStep)
  | buffer (s : BufferStep)
  | objects (s : ObjectStep β)
  | bridge (s : BridgeStep)
  | classes (s : ClassStep β)
  | modules (s : ModuleStep β)
  | marshal (s : MarshalStep)

inductive Program where
  | done
  | step (a : Action Program) (rest : Program)
  | loop (n : Int) (body rest : Program)

instance : Inhabited Program := ⟨.done⟩

def Program.ofList : List (Action Program) → Program
  | [] => done
  | a :: rest => step a (ofList rest)

end Tether
