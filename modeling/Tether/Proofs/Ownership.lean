import Tether.Bridge.Wrap
import Tether.Proofs.Computation

/-!
# What shares and records do to a world

The operations on shares touch native objects, control blocks and shares only. Each is said here as
a function of the world.
-/

namespace Tether

open Ownership

/-- The world with a control block for an object, named by its token. -/
def World.withControl (w : World) (o : NativeId) : World :=
  { w with
    controls := w.controls.push { object := o }
    natives := w.natives.modify o fun n =>
      { n with token := { n.token with control := some w.controls.size } } }

def World.issue (w : World) (o : NativeId) (c : ControlId) : World :=
  { w with
    controls := w.controls.modify c fun c => { c with refs := c.refs + 1 }
    shares := w.shares.push { object := o, control := c } }

/-- A share is issued under the control block that the object's token names, a new one, or that of another share. -/
inductive World.Issues (w : World) : World → Prop
  | held {o : NativeId} {n : NativeObject} {c : ControlId} : w.natives[o]? = some n →
      n.token.control = some c → Issues w (w.issue o c)
  | fresh {o : NativeId} {n : NativeObject} : w.natives[o]? = some n → n.token.control = none →
      Issues w ((w.withControl o).issue o w.controls.size)
  | again {i : ShareId} {s : Share} : w.shares[i]? = some s → Issues w (w.issue s.object s.control)

namespace M

variable {w w' : World} {o : NativeId} {n : NativeObject}

theorem exec_native (hn : w.natives[o]? = some n) : (native o).exec w = (.ok n, w) :=
  (exec_look_eq_ok (f := fun w => w.natives[o]?)).mpr ⟨hn, rfl⟩

theorem exec_native_eq_ok : (native o).exec w = (.ok n, w') ↔ w.natives[o]? = some n ∧ w' = w :=
  exec_look_eq_ok (f := fun w => w.natives[o]?)

theorem exec_share_eq_ok {s : ShareId} {x : Share} :
    (share s).exec w = (.ok x, w') ↔ w.shares[s]? = some x ∧ w' = w :=
  exec_look_eq_ok (f := fun w => w.shares[s]?)

variable {c : ControlId}

theorem exec_control_eq_ok {x : Control} : (control c).exec w = (.ok x, w') ↔ w.controls[c]? = some x ∧ w' = w :=
  exec_look_eq_ok (f := fun w => w.controls[c]?)

theorem exec_record_eq_ok {r : RecordId} {x : Record} :
    (record r).exec w = (.ok x, w') ↔ w.records[r]? = some x ∧ w' = w :=
  exec_look_eq_ok (f := fun w => w.records[r]?)

theorem exec_bridge_eq_ok {b : BridgeId} {x : Bridge} :
    (bridge b).exec w = (.ok x, w') ↔ w.bridges[b]? = some x ∧ w' = w :=
  exec_look_eq_ok (f := fun w => w.bridges[b]?)

theorem exec_classDecl_eq_ok {c : ClassId} {x : ClassDecl} :
    (classDecl c).exec w = (.ok x, w') ↔ w.classes[c]? = some x ∧ w' = w :=
  exec_look_eq_ok (f := fun w => w.classes[c]?)

theorem exec_controlOf_some (hn : w.natives[o]? = some n)
    (hc : n.token.control = some c) : (controlOf o).exec w = (.ok c, w) := by
  unfold controlOf
  rw [bind_ok (exec_native hn)]
  simp only [hc]
  rfl

theorem exec_controlOf_none (hn : w.natives[o]? = some n) (hc : n.token.control = none) :
    (controlOf o).exec w = (.ok w.controls.size, w.withControl o) := by
  unfold controlOf
  rw [bind_ok (exec_native hn)]
  simp only [hc]
  rfl

theorem exec_controlOf_eq_ok (h : (controlOf o).exec w = (.ok c, w')) :
    ∃ n, w.natives[o]? = some n ∧ ((n.token.control = some c ∧ w' = w) ∨
      (n.token.control = none ∧ c = w.controls.size ∧ w' = w.withControl o)) := by
  obtain ⟨n, hn, -⟩ := look_bind_eq_ok h
  refine ⟨n, hn, ?_⟩
  cases hc : n.token.control with
  | some c' =>
    rw [exec_controlOf_some hn hc] at h
    obtain ⟨hc', rfl⟩ := Prod.mk.inj h
    exact .inl ⟨by rw [Except.ok.inj hc'], rfl⟩
  | none =>
    rw [exec_controlOf_none hn hc] at h
    obtain ⟨hc', rfl⟩ := Prod.mk.inj h
    exact .inr ⟨rfl, (Except.ok.inj hc').symm, rfl⟩

theorem after_controlOf_missing (hn : w.natives[o]? = none) : (controlOf o).after w = w :=
  after_look_none (f := fun w => w.natives[o]?) hn

theorem exec_issueShare (o : NativeId) (c : ControlId) (w : World) :
    (issueShare o c).exec w = (.ok w.shares.size, w.issue o c) := rfl

theorem exec_take_eq_ok {s : ShareId} (h : (take o).exec w = (.ok s, w')) :
    ∃ n c w1, w.natives[o]? = some n ∧ s = w.shares.size ∧ w' = w1.issue o c ∧ ((n.token.control = some c ∧ w1 = w) ∨
        (n.token.control = none ∧ c = w.controls.size ∧ w1 = w.withControl o)) := by
  obtain ⟨c, w1, hc, h⟩ := bind_ok_iff.mp h
  obtain ⟨n, hn, hcases⟩ := exec_controlOf_eq_ok hc
  obtain ⟨hs, rfl⟩ := Prod.mk.inj h
  refine ⟨n, c, w1, hn, ?_, rfl, hcases⟩
  rw [← Except.ok.inj hs]
  rcases hcases with ⟨-, rfl⟩ | ⟨-, -, rfl⟩
  · rfl
  · rfl

theorem exec_take_cases (o : NativeId) (w : World) : (take o).after w = w ∨
      ∃ s w', (take o).exec w = (.ok s, w') := by
  cases hn : w.natives[o]? with
  | none =>
    have he := after_controlOf_missing hn
    rcases hx : (controlOf o).exec w with ⟨e | c, w1⟩
    · left
      unfold take
      rw [after_bind_error hx, ← after_eq hx, he]
    · obtain ⟨n, hn', -⟩ := exec_controlOf_eq_ok hx
      cases hn.symm.trans hn'
  | some n =>
    right
    unfold take
    cases hc : n.token.control with
    | some c => exact ⟨_, _, by rw [bind_ok (exec_controlOf_some hn hc), exec_issueShare]⟩
    | none => exact ⟨_, _, by rw [bind_ok (exec_controlOf_none hn hc), exec_issueShare]⟩

theorem exec_clone_eq_ok {s s' : ShareId} (h : (clone s).exec w = (.ok s', w')) :
    ∃ x, w.shares[s]? = some x ∧ s' = w.shares.size ∧ w' = w.issue x.object x.control := by
  obtain ⟨x, hx, hi⟩ := look_bind_eq_ok h
  obtain ⟨hs, rfl⟩ := Prod.mk.inj hi
  exact ⟨x, hx, (Except.ok.inj hs).symm, rfl⟩

theorem exec_clone_cases (s : ShareId) (w : World) :
    (clone s).after w = w ∨ ∃ s' w', (clone s).exec w = (.ok s', w') := by
  rcases hx : (share s).exec w with ⟨e | x, w1⟩
  · left
    unfold clone
    rw [after_bind_error hx]
    exact (reads_share s).exec hx
  · right
    unfold clone
    exact ⟨_, _, by rw [bind_ok hx, exec_issueShare]⟩

theorem issues_take {s : ShareId} (h : (take o).exec w = (.ok s, w')) : s = w.shares.size ∧ w.Issues w' := by
  obtain ⟨n, c, w1, hn, hs, rfl, ⟨hc, rfl⟩ | ⟨hc, rfl, rfl⟩⟩ := exec_take_eq_ok h
  · exact ⟨hs, .held hn hc⟩
  · exact ⟨hs, .fresh hn hc⟩

theorem issues_clone {s s' : ShareId} (h : (clone s).exec w = (.ok s', w')) : s' = w.shares.size ∧ w.Issues w' := by
  obtain ⟨x, hx, hs, rfl⟩ := exec_clone_eq_ok h
  exact ⟨hs, .again hx⟩

end M

end Tether
