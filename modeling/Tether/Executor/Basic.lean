/-!
# Executors

An executor owns a state and works on it one job at a time. Callers offer jobs and wait for results;
each caller may be cancelled while it waits. Closing an executor stops it and closes its state.

The executor, its callers and its closers take their steps in any order. A `Move` is one step of one
of them, and `Executor.step?` says when it is possible and what it does, so a run under any
scheduler is a list of moves.
-/

namespace Tether

inductive Return (ρ : Type) where
  | result (r : ρ)
  | cancelled
  | closed
deriving DecidableEq

inductive CallerState (ρ : Type) where
  | offering
  | waiting
  | returned (how : Return ρ)

structure Caller (σ ρ : Type) where
  job : σ → ρ × σ
  cancelled : Bool := false
  state : CallerState ρ := .offering
  result : Option ρ := none

/-- What the executor itself does. -/
inductive Activity where
  | free
  | running (caller : Nat)
  | closing
  | stopped
deriving DecidableEq

structure Executor (σ ρ : Type) where
  state : σ
  activity : Activity := .free
  callers : Array (Caller σ ρ) := #[]
  closing : Bool := false
  closers : Array Bool := #[]

/-- A step of the executor, of a caller or of a closer. -/
inductive Move (σ ρ : Type) where
  | submit (job : σ → ρ × σ)
  | cancel (caller : Nat)
  | receive (caller : Nat)
  | finish
  | deliver (caller : Nat)
  | giveUp (caller : Nat)
  | refuse (caller : Nat)
  | askClose
  | quit
  | shut
  | closed (closer : Nat)

namespace Executor

variable {σ ρ : Type} (e : Executor σ ρ)

def setCaller (i : Nat) (f : Caller σ ρ → Caller σ ρ) : Executor σ ρ :=
  { e with callers := e.callers.modify i f }

def returning (i : Nat) (how : Return ρ) : Executor σ ρ :=
  e.setCaller i fun c => { c with state := .returned how }

variable (close : σ → Option σ)

/-- What a move does, if it is possible; `close` closes the state, if that comes to an end. -/
def step? (e : Executor σ ρ) : Move σ ρ → Option (Executor σ ρ)
  | .submit job => some { e with callers := e.callers.push { job } }
  | .cancel i => some (e.setCaller i fun c => { c with cancelled := true })
  | .receive i =>
    match e.activity, e.callers[i]? with
    | .free, some { state := .offering, .. } =>
      some { e.setCaller i fun c => { c with state := .waiting } with activity := .running i }
    | _, _ => none
  | .finish =>
    match e.activity with
    | .running i =>
      match e.callers[i]? with
      | some c =>
        let (r, state) := c.job e.state
        some { e.setCaller i fun c => { c with result := some r } with activity := .free, state }
      | none => none
    | _ => none
  | .deliver i =>
    match e.callers[i]? with
    | some { state := .waiting, result := some r, .. } => some (e.returning i (.result r))
    | _ => none
  | .giveUp i =>
    match e.callers[i]? with
    | some { cancelled := true, state := .offering, .. } => some (e.returning i .cancelled)
    | some { cancelled := true, state := .waiting, .. } => some (e.returning i .cancelled)
    | _ => none
  | .refuse i =>
    match e.activity, e.callers[i]? with
    | .stopped, some { state := .offering, .. } => some (e.returning i .closed)
    | _, _ => none
  | .askClose => some { e with closing := true, closers := e.closers.push false }
  | .quit =>
    match e.activity, e.closing with
    | .free, true => some { e with activity := .closing }
    | _, _ => none
  | .shut =>
    match e.activity, close e.state with
    | .closing, some state => some { e with activity := .stopped, state }
    | _, _ => none
  | .closed j =>
    match e.activity, e.closers[j]? with
    | .stopped, some false => some { e with closers := e.closers.set! j true }
    | _, _ => none

def run? (e : Executor σ ρ) (moves : List (Move σ ρ)) : Option (Executor σ ρ) :=
  moves.foldlM (fun e m => e.step? close m) e

def play (close : σ → Option σ) (e : Executor σ ρ) : List (Move σ ρ) → Executor σ ρ
  | [] => e
  | m :: rest => play close ((e.step? close m).getD e) rest

def return? (i : Nat) : Option (Return ρ) :=
  match e.callers[i]? with
  | some { state := .returned how, .. } => some how
  | _ => none

def result? (i : Nat) : Option ρ := e.callers[i]?.bind (·.result)

end Executor

end Tether
