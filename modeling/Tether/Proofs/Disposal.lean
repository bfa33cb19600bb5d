import Tether.Proofs.Settled

/-!
# Giving up shares and disposing of objects

What happens to the books when a share is given up or an object is destroyed, in a world whose
destructors are inert.
-/

namespace Tether

open Regime M Ownership World

variable {w w' : World} {c : ControlId} {i : ShareId}

namespace World

/-- A change of the accounts of the control block `c`, and of native objects beside their tokens. Steps
begin and end in the state that it leaves. -/
structure Reckons (c : ControlId) (w w' : World) : Prop where
  heaps : w'.heaps = w.heaps
  attached : w'.attached = w.attached
  bridges : w'.bridges = w.bridges
  classes : w'.classes = w.classes
  records : w'.records = w.records
  size : w'.shares.size = w.shares.size
  tokens : ∀ o, w'.token? o = w.token? o
  destroyed : ∀ c' k', w'.controls[c']? = some k' → k'.destroyed = true →
    c' = c ∨ ∃ k, w.controls[c']? = some k ∧ k.destroyed = true
  forced : w'.forced = w.forced
  recalled : ∀ x, w'.history (.step x) → w.history (.step x) ∨ x = w'.state

theorem Reckons.trans {w1 w2 w3 : World} (h : w1.Reckons c w2) (hh : w2.history = w1.history)
    (h' : w2.Reckons c w3) : w1.Reckons c w3 where
  heaps := h'.heaps.trans h.heaps
  attached := h'.attached.trans h.attached
  bridges := h'.bridges.trans h.bridges
  classes := h'.classes.trans h.classes
  records := h'.records.trans h.records
  size := h'.size.trans h.size
  tokens o := (h'.tokens o).trans (h.tokens o)
  destroyed c' k' hk' hd := by
    rcases h'.destroyed c' k' hk' hd with hc | ⟨k, hk, hd⟩
    · exact .inl hc
    · exact h.destroyed c' k hk hd
  forced := h'.forced.trans h.forced
  recalled x hx := hh ▸ h'.recalled x hx

theorem Silent.reckons (h : w.Silent w') : w.Reckons c w' := by
  obtain ⟨hheaps, hattached, hnatives, hcontrols, hshares, hrecords, hbridges, hclasses, -, -, -, hforced,
    -⟩ := state_eq_iff.mp h.state
  refine ⟨hheaps, hattached, hbridges, hclasses, hrecords, by rw [hshares], fun o => ?_,
    fun c' k' hk' hd => .inr ⟨k', hcontrols ▸ hk', hd⟩, hforced, fun x hx => ?_⟩
  · unfold token?
    rw [hnatives]
  · exact (h.recalled _ hx).imp_right fun he => (Moment.step.inj he).trans h.state.symm

theorem reckons_editNative {o : NativeId} {f : NativeObject → NativeObject} (hf : ∀ n, (f n).token = n.token) :
    w.Reckons c { w with natives := w.natives.modify o f } :=
  ⟨rfl, rfl, rfl, rfl, rfl, rfl, token?_modify hf w o, fun _ k' hk' hd => .inr ⟨k', hk', hd⟩, rfl, fun _ => .inl⟩

theorem reckons_markDestroyed (w : World) (c : ControlId) : w.Reckons c (w.markDestroyed c) :=
  ⟨rfl, rfl, rfl, rfl, rfl, rfl, fun _ => rfl, fun _ k' hk' hd =>
    (modify_cases hk').imp And.left fun hk => ⟨k', hk.2, hd⟩, rfl, fun _ => .inl⟩

theorem reckons_giveUp (w : World) (i : ShareId) (c : ControlId) : w.Reckons c (w.giveUp i c) :=
  ⟨rfl, rfl, rfl, rfl, rfl, Array.size_modify, fun _ => rfl, fun _ k' hk' hd =>
    (modify_cases hk').imp And.left fun hk => ⟨k', hk.2, hd⟩, rfl, fun _ => .inl⟩

theorem Ledger.unheld (h : w.Ledger) {k : Control} (hk : w.controls[c]? = some k) (hz : k.refs = 0)
    (r : RecordId) (x : Record) (i : ShareId) (sh : Share) (hx : w.Live r x i)
    (hi : w.shares[i]? = some sh) : sh.control ≠ c := by
  rintro rfl
  obtain ⟨sh', -, hi', hr, -, -⟩ := h.held r x i hx
  cases hi.symm.trans hi'
  have hcount := h.counted _ k hk
  have hpos : 0 < w.outstanding sh.control := Array.countP_pos_iff.mpr ⟨sh, Array.mem_of_getElem? hi, by simp [hr]⟩
  omega

theorem Ledger.unheld_of_unbound (h : w.Ledger) {o : NativeId} {t : Token} (ht : w.token? o = some t)
    (hc : t.control = some c) (hnone : t.record = none)
    (r : RecordId) (x : Record) (i : ShareId) (sh : Share) (hx : w.Live r x i)
    (hi : w.shares[i]? = some sh) : sh.control ≠ c := by
  rintro rfl
  obtain ⟨t', ht', hc'⟩ := h.shared i sh hi
  obtain rfl := h.object_unique ht hc ht' hc'
  obtain ⟨t'', ht'', hr⟩ := h.pointed r sh.object ⟨x, i, sh, hx, hi, rfl⟩
  cases ht.symm.trans ht''
  cases hnone.symm.trans hr

end World

/-! ## Destructors -/

variable {n : Nat} {o : NativeId}

theorem reckons_hostDestroy (hl : w.Ledger) (ho : (((hostAt n).destroy o).after w).orderly = true) :
    (((hostAt n).destroy o).after w).Ledger ∧ w.Reckons c (((hostAt n).destroy o).after w) := by
  have hsilent : ∀ {w1 w2 : World}, w1.Ledger → w1.Silent w2 → w2.Ledger ∧ w1.Reckons c w2 := by
    intro w1 w2 hl h
    obtain ⟨-, -, hnatives, hcontrols, hshares, hrecords, -, -, -, hnamed, -⟩ := state_eq_iff.mp h.state
    exact ⟨hl.congr hnatives hcontrols hshares hrecords hnamed, h.reckons⟩
  cases n with
  | zero => exact absurd (Bool.and_false _ ▸ ho : false = true) (by simp)
  | succ n =>
    show (((destroyNative (hostAt n) o).after w).Ledger ∧ w.Reckons c ((destroyNative (hostAt n) o).after w))
    cases hn : w.natives[o]? with
    | none =>
      have hstay : (destroyNative (hostAt n) o).after w = w := after_look_none (f := fun w => w.natives[o]?) hn
      rw [hstay]
      exact hsilent hl (.refl w)
    | some x =>
      unfold destroyNative
      rw [after_bind_ok (exec_native hn)]
      cases x.sort with
      | gadget =>
        let w1 : World := { w with natives := w.natives.modify o fun n =>
          { n with destroyed := n.destroyed + 1 } }
        have hl1 : w1.Ledger := hl.editNative fun _ => ⟨rfl, rfl⟩
        have hr1 : w.Reckons c w1 := reckons_editNative fun _ => rfl
        cases hd : x.onDestroy with
        | none => exact ⟨hl1, hr1⟩
        | some body =>
          have hinert : body.inert = true := by
            have hall := hl.destructors o x hn
            rw [hd] at hall
            exact hall
          have hquiet : M.Quiet (do
              let answers ← body.run (hostAt n) false
              discard (trace (.destroy x.name answers))) :=
            (quiet_run hinert).bind fun _ => (quiet_trace _).returns
          obtain ⟨hl2, hr2⟩ := hsilent hl1 (hquiet w1)
          exact ⟨hl2, hr1.trans rfl hr2⟩
      | widget => exact hsilent hl (.of_state rfl rfl)
      | spanner | marker => exact hsilent hl (.refl w)

theorem World.Reckons.refl (c : ControlId) (w : World) : w.Reckons c w := (World.Silent.refl w).reckons

theorem reckons_destroy (hl : w.Ledger) (hfree : ∀ r x i sh, w.Live r x i → w.shares[i]? = some sh → sh.control ≠ c)
    (ho : ((destroy (hostAt n) c).after w).orderly = true) :
    ((destroy (hostAt n) c).after w).Ledger ∧ w.Reckons c ((destroy (hostAt n) c).after w) := by
  unfold destroy at ho ⊢
  cases hc : w.controls[c]? with
  | none =>
    rw [show (control c >>= _).after w = w from after_look_none hc]
    exact ⟨hl, .refl c w⟩
  | some k =>
    rw [after_bind_ok (exec_control_eq_ok.mpr ⟨hc, rfl⟩)] at ho ⊢
    split
    · exact ⟨hl, .refl c w⟩
    · rename_i hd
      rw [if_neg hd] at ho
      obtain ⟨hl', hr'⟩ := reckons_hostDestroy (c := c) (hl.markDestroyed hfree) ho
      exact ⟨hl', (reckons_markDestroyed w c).trans rfl hr'⟩

theorem M.exec_release {host : Host} {sh : Share} {k : Control} (hi : w.shares[i]? = some sh)
    (hr : sh.released = false) (hk : w.controls[sh.control]? = some k) :
    (release host i).exec w = (if k.refs - 1 = 0 then destroy host sh.control else pure ()).exec
        (w.giveUp i sh.control) := by
  have hk1 : (w.giveUp i sh.control).controls[sh.control]? = some { k with refs := k.refs - 1 } := modify_self hk
  have hread : (control sh.control).exec (w.giveUp i sh.control) =
      (.ok { k with refs := k.refs - 1 }, w.giveUp i sh.control) :=
    exec_control_eq_ok.mpr ⟨hk1, rfl⟩
  unfold release
  rw [bind_ok (exec_share_eq_ok.mpr ⟨hi, rfl⟩), hr, if_neg Bool.false_ne_true]
  exact bind_ok hread

theorem reckons_release (hl : w.Ledger) (hloose : w.Loose i) (ho : ((release (hostAt n) i).after w).orderly = true) :
    ((release (hostAt n) i).after w).Ledger ∧ ∃ sh, w.shares[i]? = some sh ∧
        w.Reckons sh.control ((release (hostAt n) i).after w) := by
  obtain ⟨sh, hi⟩ : ∃ sh, w.shares[i]? = some sh := ⟨_, Array.getElem?_eq_getElem hloose.1⟩
  cases hr : sh.released with
  | true =>
    have hafter : (release (hostAt n) i).after w = w := by
      unfold release
      rw [after_bind_ok (exec_share_eq_ok.mpr ⟨hi, rfl⟩), hr]
      rfl
    rw [hafter]
    exact ⟨hl, sh, hi, .refl _ w⟩
  | false =>
    have hl1 := hl.giveUp hi hr hloose
    have hr1 := reckons_giveUp w i sh.control
    obtain ⟨k, hk, -⟩ := hl.control_of_share hi
    have hk1 : (w.giveUp i sh.control).controls[sh.control]? = some { k with refs := k.refs - 1 } := modify_self hk
    rw [after, exec_release hi hr hk] at ho ⊢
    split
    · rename_i hz
      rw [if_pos hz] at ho
      obtain ⟨hl2, hr2⟩ := reckons_destroy hl1 (hl1.unheld hk1 hz) ho
      exact ⟨hl2, sh, hi, hr1.trans rfl hr2⟩
    · exact ⟨hl1, sh, hi, hr1⟩

/-! ## The regime of identity -/

theorem World.Reckons.sustains (hr : w.Reckons c w') (hid : w.Identity none) (hl : w'.Ledger) :
    World.Sustains none w w' := by
  have hlive : ∀ r x i, w'.Live r x i → w.Live r x i := fun r x i hx => hx.transfer hr.records.symm
  obtain ⟨hid', hcarries⟩ := hid.rebook hl hr.heaps hr.bridges hr.classes hr.attached hlive
    (Nat.le_of_eq (by rw [hr.records]))
  refine ⟨hid', .of_records hcarries (fun i h => h.transfer (Nat.le_of_eq hr.size.symm) fun r x => hlive r x i)
    (spent_of_eq hr.heaps) (by rw [hr.forced]; exact id) hr.records, fun x hx => ?_⟩
  refine (hr.recalled x hx).imp_right ?_
  rintro rfl
  exact ⟨hid'.of_state rfl, World.Lasts.of_state (w := w') rfl (.refl w')⟩

theorem identity_releases (hw : identity.inv w) (hi : identity.loose i w) :
    identity.Good w ((release (hostAt n) i).after w) := by
  have hplain : plain.Good w _ := plain_release (plain_serves n) (i := i) hw.1 trivial
  refine identified_of hw hplain fun hw' hws hid => ?_
  obtain ⟨hl, sh, -, hr⟩ := reckons_release hid.ledger (hi hws) hw'.orderly
  exact hr.sustains hid hl

theorem identity_destroyOf (hw : identity.inv w) (hnone : w.Settled → ∀ t, w.token? o = some t → t.record = none) :
    identity.Good w ((do destroy (hostAt n) (← controlOf o)).after w) := by
  have hplain : plain.Good w _ := (plain_destroyOf (plain_serves n) o).good hw.1
  refine identified_of hw hplain fun hw' hws hid => ?_
  have ho := hw'.orderly
  cases hn : w.natives[o]? with
  | none =>
    have hmissing : (do destroy (hostAt n) (← controlOf o)).after w = w := by
      rcases he : (controlOf o).exec w with ⟨_ | c, w1⟩
      · rw [after_bind_error he, ← after_eq he]
        exact after_controlOf_missing hn
      · obtain ⟨x, hx, -⟩ := exec_controlOf_eq_ok he
        cases hn.symm.trans hx
    rw [hmissing]
    exact hid.sustains
  | some x =>
    have ht : w.token? o = some x.token := token?_of_native hn
    have hunbound : x.token.record = none := hnone hws _ ht
    cases hc : x.token.control with
    | some c =>
      rw [after_bind_ok (exec_controlOf_some hn hc)] at ho ⊢
      obtain ⟨hl, hr⟩ := reckons_destroy hid.ledger (hid.ledger.unheld_of_unbound ht hc hunbound) ho
      exact hr.sustains hid hl
    | none =>
      rw [after_bind_ok (exec_controlOf_none hn hc)] at ho ⊢
      have hl1 := hid.ledger.withControl ht hc
      obtain ⟨hid1, hcarries⟩ := hid.rebook hl1 rfl rfl rfl rfl (fun _ _ _ hx => hx) (Nat.le_refl _)
      have hlasts : w.Lasts (w.withControl o) := .of_records hcarries (fun _ h => h) (spent_of_eq rfl) id rfl
      have hcontinues : w.Continues (w.withControl o) := hlasts.continues rfl
      obtain ⟨hl2, hr2⟩ := reckons_destroy hl1 (hl1.unheld_of_unbound (token?_withControl_self ht) rfl hunbound) ho
      exact World.Sustains.trans ⟨hid1, hcontinues⟩ (hr2.sustains hid1 hl2)

theorem plain_detach {r : RecordId} {f : Record → Record}
    (hf : ∀ x, (f x).cls = x.cls ∧ (f x).share = none) (hw : w.Sound) :
    plain.Good w (w.detach o r f) := by
  have htoken : plain.Good w (w.setToken o fun t => { t with record := none }) :=
    sound_aside hw (aside_natives (retains_modify _ _ fun _ => rfl))
  exact htoken.trans ((plain_modifyRecord (fun x => (hf x).imp_right .inr)).good htoken.1)

def World.unreported (w : World) : World := { w with bridges := #[], log := #[] }

theorem fixes_reportSevered (x : Record) : M.Fixes World.unreported (reportSevered x) := by
  refine M.Fixes.bind (fixes_modify fun _ => rfl) fun _ => ?_
  refine M.Fixes.bind ((reads_bridge _).fixes _) fun _ => ?_
  exact M.Fixes.bind ((reads_classDecl _).fixes _) fun _ => fixes_log (fun _ _ => rfl) _ _ _ _

theorem fixes_sever (r : RecordId) : M.Fixes World.natives (sever r) := by
  refine M.Fixes.bind ((reads_record r).fixes _) fun x => ?_
  split
  · exact (reads_pure _).fixes _
  · exact M.Fixes.bind (fixes_modify fun _ => rfl) fun _ => (fixes_reportSevered x).map natives

theorem M.exec_sever {r : RecordId} {x : Record} (hx : w.Live r x i) : (sever r).exec w = (reportSevered x).exec
      { w with records := w.records.modify r fun x => { x with severed := true, share := none } } := by
  unfold sever
  rw [bind_ok (exec_record_eq_ok.mpr ⟨hx.1, rfl⟩), if_neg (by rw [hx.2.1]; simp)]
  rfl

theorem token?_severWrapper {t : Token} (ht : ((severWrapper o).after w).token? o = some t) : t.record = none := by
  unfold severWrapper at ht
  cases hn : w.natives[o]? with
  | none =>
    rw [show (native o >>= _).after w = w from after_look_none hn] at ht
    unfold token? at ht
    rw [hn] at ht
    simp at ht
  | some x =>
    rw [after_bind_ok (exec_native hn)] at ht
    split at ht
    case h_1 r hr =>
      have ht : ((sever r).after (w.setToken o fun t => { t with record := none })).token? o = some t := ht
      unfold token? at ht
      rw [fixes_sever r] at ht
      have ht : (w.setToken o fun t => { t with record := none }).token? o = some t := ht
      rw [token?_setToken, if_pos rfl] at ht
      obtain ⟨t0, -, rfl⟩ := Option.map_eq_some_iff.mp ht
      rfl
    case h_2 hr =>
      cases (token?_of_native hn).symm.trans ht
      exact hr

theorem identity_severWrapper (hw : identity.inv w) : identity.Good w ((severWrapper o).after w) := by
  have hplain : plain.Good w _ := (plain_severWrapper o).good hw.1
  refine Good.bind_reads hw (reads_native o) fun x hx => ?_
  obtain ⟨hx, -⟩ := exec_native_eq_ok.mp hx
  have ht : w.token? o = some x.token := token?_of_native hx
  unfold severWrapper at hplain
  rw [after_bind_ok (exec_native hx)] at hplain
  cases hr : x.token.record with
  | none => exact .refl hw
  | some r =>
    rw [hr] at hplain
    refine identified_of hw hplain fun hw' hws hid => ?_
    -- The token names a live record, so severing it detaches it.
    obtain ⟨y, i, sh, hlive, -, -⟩ := hid.ledger.bound o _ r ht hr
    let f : Record → Record := fun x => { x with severed := true, share := none }
    have hdetached : World.Sustains none w (w.detach o r f) :=
      hid.sustains_detach (fun _ => rfl) ht hr (fun _ _ => rfl) fun _ _ _ _ _ => .inl rfl
    have hinv : identity.inv (w.detach o r f) :=
      ⟨(plain_detach (f := f) (fun _ => ⟨rfl, rfl⟩) hw.1).1, fun _ => hdetached.1⟩
    have hafter : (do
        modifyNative o fun n => { n with token := { n.token with record := none } }
        sever r : M Unit).after w = (reportSevered y).after (w.detach o r f) := by
      have hsever := exec_sever (w := w.setToken o fun t => { t with record := none }) hlive
      exact congrArg Prod.snd hsever
    obtain ⟨hinv', hrel⟩ := (keeps_reportSevered y).good hinv
    have hw' : ((reportSevered y).after (w.detach o r f)).Settled := hafter ▸ hw'
    rw [hafter]
    exact hdetached.trans ⟨hinv'.2 hw', hrel.2 hw'⟩

theorem identity_disposes (hw : identity.inv w) : identity.Good w ((dispose (hostAt n) o).after w) := by
  refine Good.bind (identity_severWrapper hw) fun _ w' he hg => identity_destroyOf hg.1 fun _ t ht => ?_
  rw [← after_eq he] at ht
  exact token?_severWrapper ht

end Tether
