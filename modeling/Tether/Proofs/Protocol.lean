import Tether.Proofs.Upholding

/-!
# The identity protocol

The regime of identity holds of whole scripts. What it says of the states that a script meets is read
off here, in the terms of tokens, records, tables and hidden properties.
-/

namespace Tether

open Bridge (bridgeKey objectKey finalizerKey)
open Regime

namespace World

/-- A record ties a native object to its wrapper. The record holds a share of the object that was not
given up, so the object is not destroyed; its pointer resolves in the table of its bridge's heap to an
object that carries the record under both keys and has the finalizer of the bridge, not started yet. -/
def Tethered (w : World) (o : NativeId) (t : Token) (r : RecordId) : Prop :=
  ∃ x i sh k br d s, w.Live r x i ∧ (w.shares[i]? = some sh ∧ sh.object = o ∧ sh.released = false) ∧
    (t.control = some sh.control ∧ w.controls[sh.control]? = some k ∧ k.object = o ∧ k.destroyed = false) ∧
    w.bridges[x.bridge]? = some br ∧ w.classes[x.cls]? = some d ∧ w.heaps[br.heapId]? = some s ∧
    s.Wraps x.ptr r d.key x.bridge ∧ s.Unstarted x.ptr

variable {w : World} {o : NativeId} {t : Token} {r : RecordId}

theorem Identity.tethered (hi : w.Identity none) (ht : w.token? o = some t) (hr : t.record = some r) :
    w.Tethered o t r := by
  obtain ⟨x, i, sh, hx, hsh, rfl⟩ := hi.ledger.bound o t r ht hr
  obtain ⟨sh', k, hsh', hreleased, hk, halive⟩ := hi.ledger.held r x i hx
  cases hsh.symm.trans hsh'
  obtain ⟨t', ht', hc⟩ := hi.ledger.shared i sh hsh
  cases ht.symm.trans ht'
  obtain ⟨k', hk', hobject⟩ := hi.ledger.owned _ t _ ht hc
  cases hk.symm.trans hk'
  obtain ⟨br, d, s, hbr, hd, hs, hwraps, hunstarted⟩ := hi.linked r x i hx
  exact ⟨x, i, sh, k, br, d, s, hx, ⟨hsh, rfl, hreleased⟩, ⟨hc, hk, hobject, halive⟩, hbr, hd, hs, hwraps,
    hunstarted.resolve_right nofun⟩

theorem Tethered.not_disposed (h : w.Tethered o t r) (ht : w.token? o = some t) : ¬ w.Disposed o := by
  obtain ⟨-, -, sh, k, -, -, -, -, -, ⟨hc, hk, -, halive⟩, -⟩ := h
  rintro ⟨t', c, k', ht', hc', hk', hdestroyed⟩
  cases ht.symm.trans ht'
  cases hc.symm.trans hc'
  cases hk.symm.trans hk'
  cases halive.symm.trans hdestroyed

theorem Identity.record_eq_some_iff (hi : w.Identity none) (ht : w.token? o = some t) :
    t.record = some r ↔ w.Binds r o ∧ ∀ r', w.Binds r' o → r' = r := by
  refine ⟨fun hr => ?_, fun ⟨hr, _⟩ => ?_⟩
  · have hbinds := hi.ledger.bound o t r ht hr
    exact ⟨hbinds, fun r' hr' => hi.ledger.record_unique hr' hbinds⟩
  · obtain ⟨t', ht', hrecord⟩ := hi.ledger.pointed r o hr
    cases ht.symm.trans ht'
    exact hrecord

end World

theorem World.Settled.of_flags {w : World} {flags : List (Bool × Nat × Int)} (horderly : w.orderly = true)
    (hheaps : (w.heaps.toList.map fun s => (s.closed, s.table.slots.size, s.limits.stack)) = flags)
    (hflags : ∀ f ∈ flags, f.1 = false ∧ f.2.1 < 2 ^ 32 ∧ f.2.2 < 2 ^ 63) : w.Settled := by
  have hall : ∀ (h : HeapId) s, w.heaps[h]? = some s →
      s.closed = false ∧ s.table.slots.size < 2 ^ 32 ∧ s.limits.stack < 2 ^ 63 := by
    intro h s hs
    have hmem := Array.mem_toList_iff.mpr (Array.mem_of_getElem? hs)
    exact hflags (s.closed, s.table.slots.size, s.limits.stack)
      (hheaps ▸ List.mem_map_of_mem (f := fun s : Heap => (s.closed, s.table.slots.size, s.limits.stack)) hmem)
  exact ⟨horderly, fun h s hs => (hall h s hs).1, fun h s hs => (hall h s hs).2.1, fun h s hs => (hall h s hs).2.2⟩

/-! ## Whole scripts -/

namespace Regime

variable {n : Nat} {recording : Bool} {x : State}

theorem identified_start (logging recording : Bool) : Identified { logging, recording } := by
  refine ⟨⟨fun h s hs => absurd hs nofun, fun r x i hr => absurd hr nofun⟩, fun _ => ?_⟩
  have htoken : ∀ o t, ({ logging, recording } : World).token? o ≠ some t := fun o t ht => by
    simp [World.token?] at ht
  have hlive : ∀ r x i, ¬ ({ logging, recording } : World).Live r x i := fun r x i hx => by
    simp [World.Live] at hx
  refine ⟨⟨⟨fun o t c ht => absurd ht (htoken o t), fun i sh hi => absurd hi nofun,
    fun c k hk => absurd hk nofun⟩, fun o t r ht => absurd ht (htoken o t), ?_,
    fun r x i hx => absurd hx (hlive r x i), fun o m hm => absurd hm nofun,
    fun name i hm => absurd hm nofun⟩, fun r x i hx => absurd hx (hlive r x i),
    fun h s hs => absurd hs nofun, fun c d hd => absurd hd nofun,
    fun h b hm => absurd hm nofun, fun h s _ _ _ _ _ _ hs => absurd hs nofun,
    fun h s _ _ _ hs => absurd hs nofun⟩
  rintro r o ⟨x, i, sh, hx, -⟩
  exact absurd hx (hlive r x i)

variable (script : Script)

theorem identified_world (n : Nat) (recording : Bool) :
    identity.Good { logging := script.logging, recording } (script.world n recording) :=
  (keeps_work (identity_upholds (serves (fun _ => identity_upholds) n)) script).good (identified_start script.logging recording)

theorem identity_of_met (hw : (script.world n recording).Settled) (hx : (script.world n recording).Met x) :
    (World.ofState x).Identity none ∧ (World.ofState x).Lasts (script.world n recording) := by
  obtain ⟨hend, hfollows⟩ := identified_world script n recording
  rcases hx with hx | rfl
  · exact ((hfollows.2 hw).recalled x hx).resolve_left id
  · exact ⟨(hend.2 hw).of_state rfl, World.Lasts.of_state (w := script.world n recording) rfl (.refl _)⟩

end Regime

/-- **Identity protocol.** Take a run of native code that kept to the rules of bridges: finalizers and
destructors only read, all collections found room, nobody but bridges wrote their keys and
finalizers, and no heap was closed. In every state that the run met, the token of a native object names
a record if and only if this is the one and only record of the object that is neither finalized nor
severed. Then the record ties the object to its wrapper, and no other object carries it. -/
theorem identity_protocol {n : Nat} {recording : Bool} {x : State} (script : Script)
    (hw : (script.world n recording).Settled) (hx : (script.world n recording).Met x) {o : NativeId}
    {m : NativeObject} (ho : x.natives[o]? = some m) (r : RecordId) :
    (m.token.record = some r ↔ (World.ofState x).Binds r o ∧ ∀ r', (World.ofState x).Binds r' o → r' = r) ∧
    (m.token.record = some r → (World.ofState x).Tethered o m.token r ∧
      ∀ (h : HeapId) (s : Heap) (p : HeapPtr) (y : Object), x.heaps[h]? = some s →
        s.object? p = some y → y.hidden.get? objectKey = some (.pointer (.record (some r))) →
        (World.ofState x).Carried h p r) := by
  obtain ⟨hi, -⟩ := identity_of_met script hw hx
  have ht : (World.ofState x).token? o = some m.token := World.token?_of_native ho
  exact ⟨hi.record_eq_some_iff ht, fun hr => ⟨hi.tethered ht hr, fun h s p y hs hy hkey =>
    hi.carried h s p y r hs hy hkey⟩⟩

/-- Two gadgets are wrapped. The wrapper of the second, which is shared, is let go of and collected;
then the second is wrapped again. -/
def wrapsAgain : Script :=
  .ofSteps (makesGadget ++ [.objects (.make "y" .gadget 2 "" none), .objects (.share "y" "s"),
        .bridge (.pushNative (some "x")), .bridge (.pushNative (some "y")), .stack .pop, .heap .collect,
        .bridge (.pushNative (some "y"))])

/-- The second gadget has a new record after the collection, which ties it to its new wrapper. -/
theorem identity_protocol_wrapsAgain : ∃ m, (wrapsAgain.world 2 true).Settled ∧
    (wrapsAgain.world 2 true).natives[1]? = some m ∧ m.token.record = some 2 ∧
    (World.ofState (wrapsAgain.world 2 true).state).Tethered 1 m.token 2 ∧
    ∀ r, (World.ofState (wrapsAgain.world 2 true).state).Binds r 1 → r = 2 := by
  have hend : ((wrapsAgain.world 2 true).orderly, (wrapsAgain.world 2 true).natives[1]?.map (·.token.record),
      (wrapsAgain.world 2 true).heaps.toList.map fun s =>
        (s.closed, s.table.slots.size, s.limits.stack)) =
      (true, some (some 2), [(false, 6, 10000)]) := by decide +kernel
  simp only [Prod.mk.injEq] at hend
  obtain ⟨horderly, htoken, hheaps⟩ := hend
  obtain ⟨m, hm, hr⟩ := Option.map_eq_some_iff.mp htoken
  have hw : (wrapsAgain.world 2 true).Settled := .of_flags horderly hheaps (by decide)
  have hx : (wrapsAgain.world 2 true).state.natives[1]? = some m := by
    rw [World.natives_state]
    exact hm
  obtain ⟨hiff, htie⟩ := identity_protocol wrapsAgain hw (World.met_state _) hx 2
  exact ⟨m, hw, hm, hr, (htie hr).1, (hiff.mp hr).2⟩

end Tether
