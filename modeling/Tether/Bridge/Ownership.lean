import Tether.World

/-!
# Shared ownership of native objects

All shares of an object are counted in the control block of its token, which the first share makes.
-/

namespace Tether.Ownership

open M

variable (o : NativeId)

def controlOf : M ControlId := do
  match (← native o).token.control with
  | some c => return c
  | none =>
    let c := (← get).controls.size
    modify fun w => { w with controls := w.controls.push { object := o } }
    modifyNative o fun n => { n with token := { n.token with control := some c } }
    return c

def issueShare (c : ControlId) : M ShareId := do
  modifyControl c fun c => { c with refs := c.refs + 1 }
  let s := (← get).shares.size
  modify fun w => { w with shares := w.shares.push { object := o, control := c } }
  return s

def take : M ShareId := do issueShare o (← controlOf o)

def clone (s : ShareId) : M ShareId := do
  let s ← share s
  issueShare s.object s.control

def destroy (host : Host) (c : ControlId) : M Unit := do
  let ctl ← control c
  if ctl.destroyed then return
  modifyControl c fun c => { c with destroyed := true }
  host.destroy ctl.object

def release (host : Host) (s : ShareId) : M Unit := do
  let sh ← share s
  if sh.released then return
  modifyShare s fun s => { s with released := true }
  modifyControl sh.control fun c => { c with refs := c.refs - 1 }
  if (← control sh.control).refs = 0 then destroy host sh.control

def reportSevered (x : Record) : M Unit := do
  modifyBridge x.bridge fun b =>
    { b with stats := { b.stats with live := b.stats.live - 1, severed := b.stats.severed + 1 } }
  log (← bridge x.bridge).logs .debug "record severed"
    [("class", .text (← classDecl x.cls).name), ("ptr", .text x.ptr.text)]

def sever (r : RecordId) : M Unit := do
  let x ← record r
  if x.severed then return
  modifyRecord r fun x => { x with severed := true, share := none }
  reportSevered x

def severWrapper : M Unit := do
  match (← native o).token.record with
  | some r =>
    modifyNative o fun n => { n with token := { n.token with record := none } }
    sever r
  | none => pure ()

def dispose (host : Host) (o : NativeId) : M Unit := do
  severWrapper o
  destroy host (← controlOf o)

def isDisposed : M Bool := do
  match (← native o).token.control with
  | some c => return (← control c).destroyed
  | none => return false

end Tether.Ownership
