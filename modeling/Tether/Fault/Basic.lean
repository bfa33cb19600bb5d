/-!
# Faults

A fault is what an operation answers when it cannot do its work. Most faults are issues with a phase
and a kind; others come from native code as plain text. Faults may wrap one another and may be
joined.
-/

namespace Tether

structure Phase where
  name : String
deriving DecidableEq

namespace Phase

def heap : Phase := ⟨"heap"⟩
def marshal : Phase := ⟨"marshal"⟩
def unmarshal : Phase := ⟨"unmarshal"⟩
def bind : Phase := ⟨"bind"⟩
def call : Phase := ⟨"call"⟩
def finalize : Phase := ⟨"finalize"⟩
def config : Phase := ⟨"config"⟩
def load : Phase := ⟨"load"⟩

end Phase

structure Kind where
  name : String
deriving DecidableEq

namespace Kind

def typeMismatch : Kind := ⟨"type_mismatch"⟩
def arityMismatch : Kind := ⟨"arity_mismatch"⟩
def identityCorruption : Kind := ⟨"identity_corruption"⟩
def stackOverflow : Kind := ⟨"stack_overflow"⟩
def affinity : Kind := ⟨"affinity"⟩
def disposed : Kind := ⟨"disposed"⟩
def invalidEnum : Kind := ⟨"invalid_enum"⟩
def overflow : Kind := ⟨"overflow"⟩
def fieldMissing : Kind := ⟨"field_missing"⟩
def unsupported : Kind := ⟨"unsupported"⟩
def allocation : Kind := ⟨"allocation"⟩
def outOfBounds : Kind := ⟨"out_of_bounds"⟩
def notFound : Kind := ⟨"not_found"⟩
def invalidInput : Kind := ⟨"invalid_input"⟩
def closed : Kind := ⟨"closed"⟩
def registration : Kind := ⟨"registration"⟩
def nativeFailure : Kind := ⟨"native_failure"⟩

def all : List Kind :=
  [typeMismatch, arityMismatch, identityCorruption, stackOverflow, affinity, disposed, invalidEnum,
    overflow, fieldMissing, unsupported, allocation, outOfBounds, notFound, invalidInput, closed,
    registration, nativeFailure]

end Kind

structure Issue where
  phase : Phase
  kind : Kind
  /-- Where in a nested value the issue is, outermost first. -/
  path : List String := []
  nativeType : String := ""
  scriptType : String := ""
  detail : String := ""
deriving DecidableEq

inductive Fault where
  | plain (text : String)
  | issue (i : Issue)
  | caused (i : Issue) (cause : Fault)
  | headed (heading : String) (cause : Fault)
  | joined (members : List Fault)
deriving Inhabited

namespace Issue

def types (i : Issue) : String :=
  if i.nativeType ≠ "" ∧ i.scriptType ≠ "" then
    ": Go type " ++ i.nativeType ++ ", script type " ++ i.scriptType
  else if i.nativeType ≠ "" then ": Go type " ++ i.nativeType
  else if i.scriptType ≠ "" then ": script type " ++ i.scriptType
  else ""

def message (i : Issue) : String :=
  let place := if i.path.isEmpty then "" else " at " ++ ".".intercalate i.path
  let detail :=
    if i.detail = "" then ""
    else if i.types = "" then ": " ++ i.detail
    else " - " ++ i.detail
  "[" ++ i.phase.name ++ "] " ++ i.kind.name ++ place ++ i.types ++ detail

def sameSort (i j : Issue) : Bool := i.phase == j.phase && i.kind == j.kind

end Issue

namespace Fault

mutual

def message : Fault → String
  | plain text => text
  | issue i => i.message
  | caused i cause => i.message ++ " (caused by: " ++ message cause ++ ")"
  | headed heading cause => heading ++ ": " ++ message cause
  | joined members => "\n".intercalate (messages members)

def messages : List Fault → List String
  | [] => []
  | f :: rest => message f :: messages rest

end

mutual

def firstIssue? : Fault → Option Issue
  | plain _ => none
  | issue i => some i
  | caused i _ => some i
  | headed _ cause => firstIssue? cause
  | joined members => firstIssueOf? members

def firstIssueOf? : List Fault → Option Issue
  | [] => none
  | f :: rest => (firstIssue? f).or (firstIssueOf? rest)

end

def kindOf (f : Fault) : Kind := (f.firstIssue?.map (·.kind)).getD ⟨""⟩

mutual

def hasKind (k : Kind) : Fault → Bool
  | plain _ => false
  | issue i => i.kind == k
  | caused i cause => i.kind == k || hasKind k cause
  | headed _ cause => hasKind k cause
  | joined members => hasKindFirst k members

def hasKindFirst (k : Kind) : List Fault → Bool
  | [] => false
  | f :: rest => if (firstIssue? f).isSome then hasKind k f else hasKindFirst k rest

end

def asIssue? : Fault → Option Issue
  | issue i => some i
  | caused i _ => some i
  | _ => none

mutual

/-- Whether some issue anywhere in the fault has the phase and the kind of the target issue. -/
def includes (target : Issue) : Fault → Bool
  | plain _ => false
  | issue i => i.sameSort target
  | caused i cause => i.sameSort target || includes target cause
  | headed _ cause => includes target cause
  | joined members => includesAny target members

def includesAny (target : Issue) : List Fault → Bool
  | [] => false
  | f :: rest => includes target f || includesAny target rest

end

def matchesTarget (f target : Fault) : Bool :=
  match target.asIssue? with
  | some i => f.includes i
  | none => false

def cause? : Fault → Option Fault
  | caused _ cause => some cause
  | headed _ cause => some cause
  | _ => none

def withPath (path : List String) : Fault → Fault
  | issue i => issue { i with path := path ++ i.path }
  | caused i cause => caused { i with path := path ++ i.path } cause
  | f => f

def ofIssue (i : Issue) : Option Fault → Fault
  | none => issue i
  | some cause => caused i cause

def join? (members : List (Option Fault)) : Option Fault :=
  match members.filterMap id with
  | [] => none
  | faults => some (joined faults)

def head (heading : String) : Option Fault → Fault
  | some cause => headed heading cause
  | none => plain (heading ++ ": %!w(<nil>)")

def scriptName (f : Fault) : String :=
  match f.firstIssue? with
  | none => "Error"
  | some i =>
    if i.kind ∈ [Kind.typeMismatch, .arityMismatch, .affinity, .disposed] then "TypeError"
    else if i.kind ∈ [Kind.stackOverflow, .overflow, .invalidEnum, .outOfBounds] then "RangeError"
    else if i.kind = Kind.notFound then "ReferenceError"
    else "Error"

end Fault

/-! ## How work is cut short

An operation that does not finish stops with a fault, which its caller handles, or with a crash,
which passes through every caller up to the step of a program that started the work. -/

inductive Crash where
  /-- Misuse of the value stack. -/
  | heap (message : String)
  /-- A crash that a program asked for. -/
  | native (message : String)
  | assertion (fault : Fault)
  /-- Use of something that is not there. -/
  | runtime
  /-- The nesting of native calls was too deep for the interpreter. -/
  | exhausted

/-- Why an operation stopped. -/
inductive Stop where
  | fault (f : Fault)
  | crash (c : Crash)

end Tether
