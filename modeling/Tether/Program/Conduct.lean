import Tether.Bridge.Wrap

/-!
# The rules of bridges

A bridge keeps its links under hidden keys and relies on the finalizer of its wrappers. Native code
has to leave both alone, and code that runs inside a collection has to leave everything alone.
-/

namespace Tether

/-! ## Programs that only read -/

def StackStep.inert : StackStep → Bool
  | getTop | requireStack _ | index _ | equals _ _ | inspect _ | require _ _ | dump | reveal _ _ => true
  | _ => false

def PropertyStep.inert : PropertyStep → Bool
  | has _ _ | keys _ | hasHidden _ _ | symbol _ | heapPtr _ _ => true
  | _ => false

variable {β : Type}

def CallStep.inert : CallStep β → Bool
  | argCount | crash _ | malformed => true
  | _ => false

def HeapStep.inert : HeapStep → Bool
  | stats | config => true
  | _ => false

def BufferStep.inert : BufferStep → Bool
  | push _ _ | pushExternal _ | detach _ => false
  | _ => true

def ObjectStep.inert : ObjectStep β → Bool
  | token _ | inspectShare _ => true
  | _ => false

def BridgeStep.inert : BridgeStep → Bool
  | fromHeap _ | stats | unwrap _ _ | unwrapAs _ _ | recordAt _ => true
  | _ => false

def ClassStep.inert : ClassStep β → Bool
  | info _ | list => true
  | _ => false

def ModuleStep.inert : ModuleStep β → Bool
  | status _ | describe _ => true
  | _ => false

def MarshalStep.inert : MarshalStep → Bool
  | codec _ _ _ => true
  | _ => false

def Action.inert {β : Type} : Action β → Bool
  | stack s => s.inert
  | property s => s.inert
  | call s => s.inert
  | heap s => s.inert
  | buffer s => s.inert
  | objects s => s.inert
  | bridge s => s.inert
  | classes s => s.inert
  | modules s => s.inert
  | marshal s => s.inert

def Program.inert : Program → Bool
  | done => true
  | step a rest => a.inert && rest.inert
  | loop _ body rest => body.inert && rest.inert

/-! ## Rules -/

def Code.tame : Code → Bool
  | program f => f.body.inert
  | finalizer _ => true
  | bound _ _ => false

def Object.tame (o : Object) : Bool :=
  match o.body with
  | .function _ _ (some code) => code.tame
  | _ => true

def Object.isWrapper (o : Object) : Bool := o.hidden.has Bridge.objectKey

/-- Whether the top value may become the finalizer of the object at an index. -/
def Heap.permitsFinalizer (h : Heap) (i : Int) : Bool :=
  match h.value? i with
  | some (.object p) =>
    (h.object? p).all (fun o => !o.isWrapper) &&
      (h.stack.back?.bind Value.object?).all fun q => (h.object? q).all Object.tame
  | _ => true

namespace World

variable (w : World)

/-- Whether a hidden key belongs to a bridge or to a class. -/
def reserves (k : String) : Bool :=
  [Bridge.bridgeKey, Bridge.objectKey, Bridge.finalizerKey].contains k || w.classes.any (·.key == k)

def permitsKey : SymbolSpec → Bool
  | .name k => !w.reserves k
  | .ofClass _ => false

/-- Whether a step keeps the rules of bridges. -/
def permits (w : World) : Action Program → Bool
  | .property (.putHidden _ sym) | .property (.delHidden _ sym) => w.permitsKey sym
  | .property (.setFinalizer i) => (w.heaps[w.current]?).all (·.permitsFinalizer i)
  | .objects (.make _ _ _ _ onDestroy) => onDestroy.all Program.inert
  | .objects (.resetToken _) | .objects (.copyToken _ _) => false
  | .heap .close => false
  | _ => true

def tampers : Action Program → Bool
  | .property (.putHidden _ sym) | .property (.delHidden _ sym) => !w.permitsKey sym
  | .objects (.resetToken _) | .objects (.copyToken _ _) => true
  | _ => false

end World

end Tether
