import Tether.Fault.Basic
import Tether.Storage.Basic

/-!
# Steps on a storage

A storage by itself, without a heap: steps allocate, free, read and write, and keep slices that were
read under names, so that the same bytes can be seen and changed through them later.
-/

namespace Tether

inductive StorageStep where
  | alloc (size align : Nat)
  | free (address : Nat)
  | read (address length : Nat) (keep : Option String)
  | write (address : Nat) (data : List UInt8)
  | poke (name : String) (offset : Nat) (byte : UInt8)
  | view (name : String)
  | size
  | close

inductive StorageReply where
  | nothing
  | address (a : Nat)
  | data (d : Option (Nat × List UInt8))
  | size (bytes : Nat) (isOpen : Bool)
  | stopped (s : Stop)

structure StorageState where
  storage : Storage
  pool : Pool := {}
  kept : List (String × Slice) := []

namespace StorageState

def shown : Nat := 32

variable (s : StorageState)

def show? (v : Option Slice) : StorageReply :=
  .data (v.map fun v => (v.length, s.pool.take v shown))

def make (pages : Option Nat) : Except Fault StorageState :=
  match pages with
  | none => .ok { storage := .blocks }
  | some n => (Storage.linear {} n).map fun (storage, pool) => { storage, pool }

def step : StorageStep → StorageReply × StorageState
  | .alloc size align =>
    match s.storage.alloc s.pool size align with
    | .ok (a, storage, pool) => (.address a, { s with storage, pool })
    | .error f => (.stopped (.fault f), s)
  | .free a => (.nothing, { s with storage := s.storage.free a })
  | .read a n keep =>
    match s.storage.read a n with
    | .ok v =>
      (s.show? (some v), { s with kept := (keep.map fun name => (name, v)).toList ++ s.kept })
    | .error f => (.stopped (.fault f), s)
  | .write a data =>
    match s.storage.write s.pool a data with
    | .ok pool => (.nothing, { s with pool })
    | .error f => (.stopped (.fault f), s)
  | .poke name offset byte =>
    match s.kept.lookup name with
    | some v =>
      if offset < v.length then (.nothing, { s with pool := s.pool.set v offset byte })
      else (.stopped (.crash .runtime), s)
    | none => (.stopped (.crash .runtime), s)
  | .view name => (s.show? (s.kept.lookup name), s)
  | .size => (if s.storage.isLinear then .size s.storage.size s.storage.isOpen else .nothing, s)
  | .close => (.nothing, { s with storage := s.storage.close })

def run (s : StorageState) : List StorageStep → List (StorageReply × Nat × Nat)
  | [] => []
  | a :: rest =>
    let (r, s) := s.step a
    (r, s.storage.inUse, s.storage.allocations) :: run s rest

end StorageState

end Tether
