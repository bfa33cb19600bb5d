import Tether.Storage.Basic
import Tether.Text.LetterCase

/-!
# Settings

The settings of a session: the limits of its heap, where buffers live, and how it logs.
-/

namespace Tether

structure HeapSettings where
  stackLimit : Int := 10000
  callDepth : Int := 200
  gcThreshold : Int := 1024
deriving DecidableEq

structure BufferSettings where
  backend : String := "go"
  memoryPages : Nat := 16
deriving DecidableEq

structure LogSettings where
  level : String := "info"
  development : Bool := false
deriving DecidableEq

structure Settings where
  heap : HeapSettings := {}
  buffers : BufferSettings := {}
  log : LogSettings := {}
deriving DecidableEq

def blockBackend : String := "go"

def linearBackend : String := "wasm"

def levelNames : List String :=
  ["", "debug", "info", "warn", "warning", "error", "dpanic", "panic", "fatal"]

namespace LogSettings

variable (s : LogSettings)

def isKnown : Bool := levelNames.contains (String.ofList (s.level.toList.map Text.toLower))

def check : Except Fault Unit :=
  if s.isKnown then .ok ()
  else
    let cause := .plain ("unrecognized level: " ++ Text.quote s.level)
    .error (.wrap .config .invalidInput (some cause) "log.level")

end LogSettings

def HeapSettings.check (s : HeapSettings) : Except Fault Unit :=
  if s.stackLimit ≤ 0 then .error (.invalidInput .config "heap.stack-limit must be positive")
  else if s.callDepth ≤ 0 then .error (.invalidInput .config "heap.call-depth must be positive")
  else if s.gcThreshold < 0 then .error (.invalidInput .config "heap.gc-threshold must not be negative")
  else .ok ()

variable (s : BufferSettings)

/-- The fault of a backend that is not known, or of a memory size that it cannot have. -/
def BufferSettings.check : Except Fault Unit :=
  if s.backend = blockBackend then .ok ()
  else if s.backend = linearBackend then
    if s.memoryPages = 0 ∨ Storage.maxPages < s.memoryPages then
      .error (.invalidInput .config s!"buffers.memory-pages must be in [1, {Storage.maxPages}]")
    else .ok ()
  else .error (.invalidInput .config ("unknown buffers.backend " ++ Text.quote s.backend))

def BufferSettings.storage : Except Fault (Storage × Pool) :=
  if s.backend = linearBackend then Storage.linear {} s.memoryPages else .ok (.blocks, {})

def Settings.check (s : Settings) : Except Fault Unit := do
  s.heap.check
  s.buffers.check
  s.log.check

end Tether
