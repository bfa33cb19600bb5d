import Tether.Fault.Basic
import Tether.Text.Template

/-!
# The faults that operations raise

One function for each cause of an issue; the wording of every cause is here.
-/

namespace Tether.Fault

open Text

def typeMismatch (phase : Phase) (path : List String) (native script : String) : Fault :=
  issue ⟨phase, .typeMismatch, path, native, script, ""⟩

def arityMismatch (name : String) (want got : Int) : Fault :=
  issue ⟨.call, .arityMismatch, [name], "", "", s!"expected {want} argument(s), got {got}"⟩

/-- A broken link between a native object and its wrapper. -/
def identityCorruption (phase : Phase) (cls detail : String) : Fault :=
  issue ⟨phase, .identityCorruption, [], cls, "", detail⟩

def stackOverflow (detail : String) : Fault := issue ⟨.heap, .stackOverflow, [], "", "", detail⟩

def fieldMissing (phase : Phase) (path : List String) (field : String) : Fault :=
  issue ⟨phase, .fieldMissing, path, "", "", "required field " ++ quote field ++ " not found"⟩

def unsupported (phase : Phase) (what : String) : Fault :=
  issue ⟨phase, .unsupported, [], "", "", what⟩

def outOfBounds (phase : Phase) (path : List String) (index length : Int) : Fault :=
  issue ⟨phase, .outOfBounds, path, "", "", s!"index {index} out of bounds (length {length})"⟩

def overflow (phase : Phase) (path : List String) (value target : String) : Fault :=
  issue ⟨phase, .overflow, path, "", target, s!"value {value} overflows {target}"⟩

def invalidEnum (phase : Phase) (path : List String) (value enum : String) : Fault :=
  issue ⟨phase, .invalidEnum, path, "", enum, s!"invalid enum value {value} for {enum}"⟩

def allocationFailed (phase : Phase) (size align : Nat) : Fault :=
  issue ⟨phase, .allocation, [], "", "", s!"failed to allocate {size} bytes (align {align})"⟩

def notFound (phase : Phase) (what name : String) : Fault :=
  issue ⟨phase, .notFound, [], "", "", what ++ " " ++ quote name ++ " not found"⟩

def invalidInput (phase : Phase) (detail : String) : Fault :=
  issue ⟨phase, .invalidInput, [], "", "", detail⟩

def closed (phase : Phase) (what : String) : Fault :=
  issue ⟨phase, .closed, [], "", "", what ++ " is closed"⟩

def registration (owner name : String) (cause : Option Fault) : Fault :=
  ofIssue ⟨.bind, .registration, [], "", "", "register " ++ owner ++ "." ++ name⟩ cause

def wrap (phase : Phase) (kind : Kind) (cause : Option Fault) (detail : String) : Fault :=
  ofIssue ⟨phase, kind, [], "", "", detail⟩ cause

def load (detail : String) (cause : Option Fault) : Fault :=
  ofIssue ⟨.load, .invalidInput, [], "", "", detail⟩ cause

end Tether.Fault
