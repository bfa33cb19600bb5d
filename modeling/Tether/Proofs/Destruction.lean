import Tether.Proofs.Disposal

/-!
# When native objects are destroyed

Code takes, copies and gives up shares of native objects and disposes of objects, and an object that
is destroyed may do the same in return, while the operation that destroyed it is still under way.
-/

namespace Tether

open M Ownership

variable {k : Control} {w w' : World} {o o' : NativeId} {c : ControlId} {i : ShareId}
  {busy : Option ControlId} {n : NativeObject} {t : Token} {e : World}

/-! ## Operations and reactions -/

inductive Deal where
  | take (o : NativeId)
  | clone (i : ShareId)
  | release (i : ShareId)
  | dispose (o : NativeId)
deriving DecidableEq

/-- Operations on shares, one after another. Each comes with what the object that it destroys does in
return. -/
inductive Dealings where
  | done
  | deal (d : Deal) (reaction rest : Dealings)

/-- Counts the calls of destructors, and lets each of them do the same. -/
def Host.reacting (reaction : M Unit) : Host where
  run _ _ := crash .runtime
  destroy o := do
    modifyNative o fun n => { n with destroyed := n.destroyed + 1 }
    reaction
  apply _ _ := crash .runtime

def Deal.perform (host : Host) : Deal → M Unit
  | take o => do let _ ← Ownership.take o
  | clone i => do let _ ← Ownership.clone i
  | release i => Ownership.release host i
  | dispose o => Ownership.dispose host o

/-- Performs operations. One that names what is not there is left out. -/
def Dealings.run : Dealings → M Unit
  | done => pure ()
  | deal d reaction rest => do
    let _ ← catchAll (d.perform (.reacting reaction.run))
    rest.run

def Dealings.disposes (o : NativeId) : Dealings → Bool
  | done => false
  | deal d reaction rest => d = .dispose o || reaction.disposes o || rest.disposes o

/-- The same operations up to some moment, which may be inside a reaction. -/
inductive Dealings.Cuts : Dealings → Dealings → Prop
  | stop (b : Dealings) : Cuts done b
  | inside {d : Deal} {r r' rest : Dealings} : Cuts r' r → Cuts (deal d r' done) (deal d r rest)
  | onward {d : Deal} {r rest rest' : Dealings} : Cuts rest' rest → Cuts (deal d r rest') (deal d r rest)

namespace World

variable (w o)

def calls : Nat := (w.natives[o]?).elim 0 (·.destroyed)

def unreleased : Nat := w.shares.countP fun sh => sh.object == o && !sh.released

/-- An object that was shared, and all of whose shares were given up. -/
def Relinquished : Prop := (∃ sh ∈ w.shares, sh.object = o) ∧ w.unreleased o = 0

variable {w o}

/-- A world in which nothing was shared yet. -/
structure Unshared (w : World) : Prop where
  controls : w.controls = #[]
  shares : w.shares = #[]
  natives : ∀ (o : NativeId) n, w.natives[o]? = some n → n.token = {} ∧ n.destroyed = 0

/-! ## The books between operations -/

/-- The accounts agree with the calls of destructors. All control blocks but the one that an operation
is busy with count a share, or their objects were destroyed. -/
structure Tallied (w : World) (busy : Option ControlId) : Prop extends w.Accounts where
  unbound : ∀ o t, w.token? o = some t → t.record = none
  called : ∀ o n, w.natives[o]? = some n → n.destroyed ≤ 1 ∧ (n.destroyed = 1 ↔ w.Disposed o)
  kept : ∀ c k, busy ≠ some c → w.controls[c]? = some k → k.destroyed = false → 0 < k.refs

theorem Unshared.tallied (hw : w.Unshared) : w.Tallied none := by
  have htoken : ∀ o t, w.token? o = some t → t = {} := fun o t ht => by
    obtain ⟨n, hn, rfl⟩ := Option.map_eq_some_iff.mp ht
    exact (hw.natives o n hn).1
  refine ⟨⟨fun o t c ht hc => ?_, fun i sh hi => ?_, fun c k hk => ?_⟩, fun o t ht => ?_,
    fun o n hn => ?_, fun c k _ hk => ?_⟩
  · rw [htoken o t ht] at hc
    simp at hc
  · rw [hw.shares] at hi
    simp at hi
  · rw [hw.controls] at hk
    simp at hk
  · rw [htoken o t ht]
  · have hz := (hw.natives o n hn).2
    refine ⟨by omega, fun h => absurd h (by omega), ?_⟩
    rintro ⟨t, c, k, -, -, hk, -⟩
    rw [hw.controls] at hk
    simp at hk
  · rw [hw.controls] at hk
    simp at hk

theorem Unshared.calls_eq_zero (hw : w.Unshared) (o : NativeId) : w.calls o = 0 := by
  unfold calls
  cases hn : w.natives[o]? with
  | none => rfl
  | some n => exact (hw.natives o n hn).2

theorem calls_of_native (hn : w.natives[o]? = some n) : w.calls o = n.destroyed := by
  unfold calls
  rw [hn]
  rfl

theorem Tallied.calls_le_one (hw : w.Tallied busy) (o : NativeId) : w.calls o ≤ 1 := by
  unfold calls
  cases hn : w.natives[o]? with
  | none => exact Nat.zero_le _
  | some n => exact (hw.called o n hn).1

theorem Tallied.calls_eq_one_iff (hw : w.Tallied busy) (o : NativeId) : w.calls o = 1 ↔ w.Disposed o := by
  cases hn : w.natives[o]? with
  | some n => rw [calls_of_native hn, (hw.called o n hn).2]
  | none =>
    refine ⟨fun h => ?_, ?_⟩
    · unfold calls at h
      rw [hn] at h
      simp at h
    · rintro ⟨t, c, k, ht, -⟩
      unfold token? at ht
      rw [hn] at ht
      simp at ht

theorem Accounts.outstanding_eq (h : w.Accounts) (ht : w.token? o = some t) (hc : t.control = some c) :
    w.outstanding c = w.unreleased o := by
  refine Array.countP_congr fun sh hsh => ?_
  obtain ⟨i, hi, rfl⟩ := Array.mem_iff_getElem.mp hsh
  obtain ⟨t', ht', hc'⟩ := h.shared i _ (Array.getElem?_eq_getElem hi)
  have hiff : (w.shares[i]).control = c ↔ (w.shares[i]).object = o := by
    refine ⟨fun he => h.object_unique ht' (he ▸ hc') ht hc, fun he => ?_⟩
    rw [he, ht] at ht'
    cases ht'
    exact Option.mem_unique hc' hc
  simp [hiff]

theorem disposed_giveUp : (w.giveUp i c).Disposed o ↔ w.Disposed o :=
  disposed_modify_refs (f := fun k => { k with refs := k.refs - 1 }) (fun _ => rfl) (fun _ => rfl) rfl

theorem ne_of_busy {c' : ControlId} (hbusy : busy = none ∨ busy = some c) (hc : c' ≠ c) : busy ≠ some c' := by
  rcases hbusy with rfl | rfl
  · nofun
  · exact fun he => hc (Option.some.inj he).symm

theorem Tallied.issue (hw : w.Tallied busy) (hbusy : busy = none ∨ busy = some c)
    (ht : w.token? o = some t) (hc : t.control = some c) : (w.issue o c).Tallied none := by
  refine ⟨hw.toAccounts.issue ht hc, hw.unbound, fun o' n hn => ?_, fun c' k _ hk hd => ?_⟩
  · rw [disposed_issue]
    exact hw.called o' n hn
  · rcases modify_cases hk with ⟨-, k0, hk0, rfl⟩ | ⟨hcc, hk⟩
    · have hcount := hw.counted c' k0 hk0
      show 0 < k0.refs + 1
      omega
    · exact hw.kept c' k (ne_of_busy hbusy hcc) hk hd

theorem Tallied.withControl (hw : w.Tallied none) (ht : w.token? o = some t) (hc : t.control = none) :
    (w.withControl o).Tallied (some w.controls.size) := by
  have htoken := token?_withControl w o
  refine ⟨hw.toAccounts.withControl ht hc, fun o' t' ht' => ?_, fun o' n hn => ?_, fun c' k hbusy hk hd => ?_⟩
  · rw [htoken] at ht'
    split at ht'
    · obtain ⟨t0, ht0, rfl⟩ := Option.map_eq_some_iff.mp ht'
      exact hw.unbound o' t0 ht0
    · exact hw.unbound o' t' ht'
  · have hn : (w.natives.modify o fun n =>
        { n with token := { n.token with control := some w.controls.size } })[o']? = some n := hn
    obtain ⟨n0, hn0, he⟩ := getElem?_modify_back (g := NativeObject.destroyed) (fun _ => by rfl) hn
    rw [he, disposed_withControl ht hc]
    exact hw.called o' n0 hn0
  · have hk' : (w.controls.push { object := o })[c']? = some k := hk
    rw [Array.getElem?_push, if_neg (by simpa using fun h : c' = _ => hbusy (by rw [h]))] at hk'
    exact hw.kept c' k nofun hk' hd

theorem Tallied.giveUp (hw : w.Tallied none) {sh : Share} (hi : w.shares[i]? = some sh)
    (hr : sh.released = false) : (w.giveUp i sh.control).Tallied (some sh.control) := by
  refine ⟨hw.toAccounts.giveUp hi hr, hw.unbound, fun o' n hn => ?_, fun c' k hbusy hk hd => ?_⟩
  · rw [disposed_giveUp]
    exact hw.called o' n hn
  · rcases modify_cases hk with ⟨rfl, -⟩ | ⟨-, hk⟩
    · exact absurd rfl hbusy
    · exact hw.kept c' k nofun hk hd

theorem Tallied.settle (hw : w.Tallied (some c)) (hk : w.controls[c]? = some k)
    (h : k.destroyed = true ∨ 0 < k.refs) : w.Tallied none := by
  refine ⟨hw.toAccounts, hw.unbound, hw.called, fun c' k' _ hk' hd => ?_⟩
  by_cases hc : c = c'
  · subst hc
    cases hk.symm.trans hk'
    exact h.resolve_left (by simp [hd])
  · exact hw.kept c' k' (by simpa using hc) hk' hd

def strike (w : World) (o : NativeId) (c : ControlId) : World :=
  { w.markDestroyed c with
    natives := w.natives.modify o fun n => { n with destroyed := n.destroyed + 1 } }

theorem token?_strike (w : World) (o : NativeId) (c : ControlId) (o' : NativeId) :
    (w.strike o c).token? o' = w.token? o' :=
  token?_modify (f := fun n => { n with destroyed := n.destroyed + 1 }) (fun _ => rfl) (w.markDestroyed c) o o'

theorem calls_strike (ht : w.token? o = some t) (o' : NativeId) :
    (w.strike o c).calls o' = w.calls o' + if o' = o then 1 else 0 := by
  obtain ⟨n, hn, -⟩ := Option.map_eq_some_iff.mp ht
  show ((w.natives.modify o _)[o']?).elim 0 _ = _
  rw [Array.getElem?_modify]
  by_cases h : o = o'
  · subst h
    rw [if_pos rfl, if_pos rfl, calls_of_native hn, hn]
    rfl
  · rw [if_neg h, if_neg fun h' => h h'.symm]
    rfl

theorem disposed_strike (h : w.Accounts) (ht : w.token? o = some t) (hc : t.control = some c)
    (hk : w.controls[c]? = some k) : (w.strike o c).Disposed o' ↔ o' = o ∨ w.Disposed o' := by
  constructor
  · rintro ⟨t', c', k', ht', hc', hk', hd⟩
    rw [token?_strike] at ht'
    rcases modify_cases hk' with ⟨rfl, -⟩ | ⟨-, hk'⟩
    · exact .inl (h.object_unique ht' hc' ht hc)
    · exact .inr ⟨t', c', k', ht', hc', hk', hd⟩
  · rintro (rfl | hd)
    · exact ⟨t, c, { k with destroyed := true }, (token?_strike ..).trans ht, hc, modify_self hk, rfl⟩
    · refine hd.transfer (fun t ht => ⟨t, (token?_strike ..).trans ht, rfl⟩) fun c' k' hk' hd' => ?_
      show ∃ k', (w.markDestroyed c).controls[c']? = _ ∧ _
      rw [controls_markDestroyed, hk']
      split
      · exact ⟨_, rfl, rfl⟩
      · exact ⟨k', rfl, hd'⟩

theorem Tallied.strike (hw : w.Tallied busy) (hbusy : busy = none ∨ busy = some c)
    (ht : w.token? o = some t) (hc : t.control = some c) (hk : w.controls[c]? = some k)
    (hd : k.destroyed = false) : (w.strike o c).Tallied none := by
  have htoken := token?_strike w o c
  have hfresh : ¬ w.Disposed o := by
    rintro ⟨t', c', k', ht', hc', hk', hd'⟩
    cases ht.symm.trans ht'
    cases hc.symm.trans hc'
    cases hk.symm.trans hk'
    cases hd.symm.trans hd'
  refine ⟨(hw.toAccounts.markDestroyed c).transfer rfl (fun c k hk => ⟨k, hk, rfl, rfl⟩)
    (fun c k hk => ⟨k, hk, rfl⟩) (fun o' t' ht' => .inr ⟨t', htoken o' ▸ ht', rfl⟩)
    fun o' t' ht' => ⟨t', (htoken o').trans ht', rfl⟩, fun o' t' ht' => hw.unbound o' t' (htoken o' ▸ ht'),
    fun o' n hn => ?_, fun c' k' _ hk' hd' => ?_⟩
  · rw [disposed_strike hw.toAccounts ht hc hk, ← calls_of_native hn, calls_strike ht]
    rw [← hw.calls_eq_one_iff] at hfresh
    have hle := hw.calls_le_one o
    rw [← hw.calls_eq_one_iff]
    split
    case isTrue ho =>
      subst ho
      exact ⟨by omega, fun _ => .inl rfl, fun _ => by omega⟩
    case isFalse ho =>
      have hle' := hw.calls_le_one o'
      simp [ho, hle']
  · rcases modify_cases hk' with ⟨-, k0, -, rfl⟩ | ⟨hcc, hk'⟩
    · cases hd'
    · exact hw.kept c' k' (ne_of_busy hbusy hcc) hk' hd'

/-! ## What an operation does -/

/-- An operation calls the destructor of an object, for the first time: it gives up the last share, or
it disposes of the object. -/
def Strikes (w : World) (d : Deal) (o : NativeId) : Prop :=
  w.calls o = 0 ∧ match d with
    | .release i => ∃ sh, w.shares[i]? = some sh ∧ sh.object = o ∧ sh.released = false ∧ w.unreleased o = 1
    | .dispose o' => o' = o ∧ o < w.natives.size
    | _ => False

end World

/-- An operation leads to a world, if reactions are left out, and calls the destructor of an object or
none. The destructor is called last, so its reaction starts in that world. -/
structure Deal.Effect (d : Deal) (w e : World) (struck : Option NativeId) : Prop where
  tallied : e.Tallied none
  objects : e.natives.size = w.natives.size
  strikes : ∀ o, w.Strikes d o ↔ struck = some o
  calls : ∀ o, e.calls o = w.calls o + if struck = some o then 1 else 0
  after : ∀ x, (d.perform (.reacting x)).after w = if struck.isSome then x.after e else e
  relinquished : ∀ i o, d = .release i → struck = some o → e.Relinquished o

namespace World

theorem after_destroy_reacting (hk : w.controls[c]? = some k) (x : M Unit) : (destroy (.reacting x) c).after w =
      if k.destroyed then w else x.after (w.strike k.object c) := by
  unfold destroy
  rw [after_bind_ok (exec_control_eq_ok.mpr ⟨hk, rfl⟩)]
  split
  · rfl
  · rfl

theorem after_bind_unit {α : Type} (x : M α) (w : World) : (do let _ ← x : M Unit).after w = x.after w := by
  rcases he : x.exec w with ⟨e | a, w'⟩
  · rw [after_bind_error he, after_eq he]
  · rw [after_bind_ok he, after_eq he]
    rfl

end World

theorem Deal.Effect.of_quiet {d : Deal} {w : World} (he : e.Tallied none)
    (hnatives : e.natives.size = w.natives.size) (hcalls : ∀ o, e.calls o = w.calls o)
    (hstrikes : ∀ o, ¬ w.Strikes d o) (hafter : ∀ x, (d.perform (.reacting x)).after w = e) :
    d.Effect w e none :=
  ⟨he, hnatives, fun o => by simp [hstrikes o], fun o => by simp [hcalls o], fun x => by simp [hafter x], nofun⟩

namespace World

theorem calls_withControl (w : World) (o o' : NativeId) : (w.withControl o).calls o' = w.calls o' := by
  show ((w.natives.modify o _)[o']?).elim 0 _ = _
  rw [Array.getElem?_modify]
  unfold calls
  cases w.natives[o']? with
  | none => split <;> rfl
  | some n => split <;> rfl

theorem Tallied.quiet_issue (hw : w.Tallied none) {x : M ShareId}
    (hx : x.after w = w ∨ ∃ s w', x.exec w = (.ok s, w'))
    (hok : ∀ {s w'}, x.exec w = (.ok s, w') → s = w.shares.size ∧ w.Issues w') :
    (x.after w).Tallied none ∧ (x.after w).natives.size = w.natives.size ∧ ∀ o, (x.after w).calls o = w.calls o := by
  rcases hx with he | ⟨i, w', he⟩
  · rw [he]
    exact ⟨hw, rfl, fun _ => rfl⟩
  · rw [after_eq he]
    cases (hok he).2 with
    | held hn hc => exact ⟨hw.issue (.inl rfl) (token?_of_native hn) hc, rfl, fun _ => rfl⟩
    | fresh hn hc =>
      have ht := token?_of_native hn
      exact ⟨(hw.withControl ht hc).issue (.inr rfl) (token?_withControl_self ht) rfl, Array.size_modify,
        calls_withControl w _⟩
    | again hi =>
      obtain ⟨t, ht, hc⟩ := hw.shared _ _ hi
      exact ⟨hw.issue (.inl rfl) ht hc, rfl, fun _ => rfl⟩

theorem Tallied.effect_take (hw : w.Tallied none) (o : NativeId) :
    (Deal.take o).Effect w ((Ownership.take o).after w) none := by
  have hquiet := hw.quiet_issue (exec_take_cases o w) issues_take
  exact .of_quiet hquiet.1 hquiet.2.1 hquiet.2.2 (fun _ h => h.2) fun _ => after_bind_unit _ w

theorem Tallied.effect_clone (hw : w.Tallied none) (i : ShareId) :
    (Deal.clone i).Effect w ((Ownership.clone i).after w) none := by
  have hquiet := hw.quiet_issue (exec_clone_cases i w) issues_clone
  exact .of_quiet hquiet.1 hquiet.2.1 hquiet.2.2 (fun _ h => h.2) fun _ => after_bind_unit _ w

theorem Tallied.calls_eq_one_iff_destroyed (hw : w.Tallied busy) (ht : w.token? o = some t)
    (hc : t.control = some c) (hk : w.controls[c]? = some k) : w.calls o = 1 ↔ k.destroyed = true := by
  rw [hw.calls_eq_one_iff]
  refine ⟨?_, fun hd => ⟨t, c, k, ht, hc, hk, hd⟩⟩
  rintro ⟨t', c', k', ht', hc', hk', hd'⟩
  cases ht.symm.trans ht'
  cases hc.symm.trans hc'
  cases hk.symm.trans hk'
  exact hd'

theorem Accounts.refs_eq (h : w.Accounts) (ht : w.token? o = some t) (hc : t.control = some c)
    (hk : w.controls[c]? = some k) : k.refs = w.unreleased o := by
  rw [h.counted c k hk, h.outstanding_eq ht hc]

theorem controls_giveUp (hk : w.controls[c]? = some k) :
    (w.giveUp i c).controls[c]? = some { k with refs := k.refs - 1 } :=
  modify_self hk

section Release

variable {sh : Share} (hi : w.shares[i]? = some sh) (hr : sh.released = false)
include hi hr

theorem Tallied.strikes_release_iff (hw : w.Tallied none) (hk : w.controls[sh.control]? = some k) :
    w.Strikes (.release i) o ↔ sh.object = o ∧ k.refs - 1 = 0 ∧ k.destroyed = false := by
  obtain ⟨t, ht, hc⟩ := hw.shared i sh hi
  have hcount := hw.refs_eq ht hc hk
  have hcalls := hw.calls_eq_one_iff_destroyed ht hc hk
  have hle := hw.calls_le_one sh.object
  constructor
  · rintro ⟨hz, sh', hi', rfl, -, hone⟩
    cases hi.symm.trans hi'
    refine ⟨rfl, by omega, Bool.eq_false_iff.mpr fun hd => ?_⟩
    have := hcalls.mpr hd
    omega
  · rintro ⟨rfl, hz, hd⟩
    have hne : w.calls sh.object ≠ 1 := fun h => by simp [hcalls.mp h] at hd
    exact ⟨by omega, sh, hi, rfl, hr, by omega⟩

theorem Tallied.after_release (hw : w.Tallied none) (hk : w.controls[sh.control]? = some k) (x : M Unit) :
    ((Deal.release i).perform (.reacting x)).after w =
      if k.refs - 1 = 0 ∧ k.destroyed = false then
        x.after ((w.giveUp i sh.control).strike sh.object sh.control)
      else w.giveUp i sh.control := by
  obtain ⟨k', hk', hobject⟩ := hw.control_of_share hi
  cases hk.symm.trans hk'
  show (release _ i).after w = _
  rw [after, exec_release hi hr hk]
  by_cases hz : k.refs - 1 = 0
  · rw [if_pos hz]
    refine (after_destroy_reacting (controls_giveUp hk) x).trans ?_
    cases k.destroyed with
    | true => simp
    | false => simp [hz, hobject]
  · rw [if_neg hz, if_neg fun h => hz h.1]
    rfl

/-- A share that was not given up is given up: the last one takes the object with it, unless that was
destroyed before. -/
theorem Tallied.effect_giveUp (hw : w.Tallied none) : ∃ e struck, (Deal.release i).Effect w e struck := by
  obtain ⟨t, ht, hc⟩ := hw.shared i sh hi
  obtain ⟨k, hk, -⟩ := hw.owned _ t _ ht hc
  have hw1 := hw.giveUp hi hr
  have hk1 := controls_giveUp (i := i) hk
  have hafter := hw.after_release hi hr hk
  by_cases hlast : k.refs - 1 = 0 ∧ k.destroyed = false
  · have ht1 : (w.giveUp i sh.control).token? sh.object = some t := ht
    refine ⟨(w.giveUp i sh.control).strike sh.object sh.control, some sh.object,
      hw1.strike (.inr rfl) ht1 hc hk1 hlast.2, Array.size_modify, fun o => ?_, fun o => ?_,
      fun x => ?_, ?_⟩
    · rw [hw.strikes_release_iff hi hr hk]
      simp [hlast]
    · rw [calls_strike ht1]
      simp [eq_comm, calls, World.giveUp]
    · rw [hafter, if_pos hlast]
      rfl
    · rintro _ o - ho
      cases ho
      refine ⟨⟨{ sh with released := true }, ?_, rfl⟩, ?_⟩
      · exact Array.mem_of_getElem? (i := i) (modify_self hi)
      · have hcount : k.refs - 1 = (w.giveUp i sh.control).unreleased sh.object :=
          hw1.refs_eq ht1 hc hk1
        have hsame : ((w.giveUp i sh.control).strike sh.object sh.control).unreleased sh.object =
            (w.giveUp i sh.control).unreleased sh.object := rfl
        omega
  · refine ⟨w.giveUp i sh.control, none, .of_quiet (hw1.settle hk1 ?_) rfl (fun _ => rfl) (fun o h => ?_)
      fun x => (hafter x).trans (if_neg hlast)⟩
    · show k.destroyed = true ∨ 0 < k.refs - 1
      cases hd : k.destroyed with
      | true => exact .inl rfl
      | false =>
        have hpos := hw.kept _ k nofun hk hd
        have hne : k.refs - 1 ≠ 0 := fun h => hlast ⟨h, hd⟩
        exact .inr (by omega)
    · exact hlast ((hw.strikes_release_iff hi hr hk).mp h).2

end Release

theorem Tallied.effect_release (hw : w.Tallied none) (i : ShareId) :
    ∃ e struck, (Deal.release i).Effect w e struck := by
  cases hi : w.shares[i]? with
  | none =>
    refine ⟨w, none, .of_quiet hw rfl (fun _ => rfl) ?_ fun x => after_look_none hi⟩
    rintro o ⟨-, sh, hi', -⟩
    cases hi.symm.trans hi'
  | some sh =>
    cases hr : sh.released with
    | false => exact hw.effect_giveUp hi hr
    | true =>
      refine ⟨w, none, .of_quiet hw rfl (fun _ => rfl) ?_ fun x => ?_⟩
      · rintro o ⟨-, sh', hi', -, hr', -⟩
        cases hi.symm.trans hi'
        cases hr.symm.trans hr'
      · show (release _ i).after w = w
        unfold release
        rw [after_bind_ok (exec_share_eq_ok.mpr ⟨hi, rfl⟩), hr]
        rfl

theorem effect_destroyOf (hn : w.natives[o]? = some n) (he : e.Tallied busy)
    (hbusy : busy = none ∨ busy = some c) (hsize : e.natives.size = w.natives.size)
    (hcalls : ∀ o', e.calls o' = w.calls o') (ht : e.token? o = some t) (hc : t.control = some c)
    (hk : e.controls[c]? = some k) (hkept : busy = none ∨ k.destroyed = false)
    (hafter : ∀ x, ((Deal.dispose o).perform (.reacting x)).after w = (destroy (.reacting x) c).after e) :
    ∃ e struck, (Deal.dispose o).Effect w e struck := by
  obtain ⟨k', hk', hobject⟩ := he.owned o t c ht hc
  cases hk.symm.trans hk'
  have hcall := he.calls_eq_one_iff_destroyed ht hc hk
  have hle := he.calls_le_one o
  have hlt : o < w.natives.size := (Array.getElem?_eq_some_iff.mp hn).1
  rw [hcalls] at hcall hle
  cases hd : k.destroyed with
  | true =>
    obtain rfl := hkept.resolve_right (by simp [hd])
    refine ⟨e, none, .of_quiet he hsize hcalls ?_ fun x => ?_⟩
    · rintro o' ⟨hz, rfl, -⟩
      have := hcall.mpr hd
      omega
    · rw [hafter, after_destroy_reacting hk, hd]
      rfl
  | false =>
    refine ⟨e.strike o c, some o, he.strike hbusy ht hc hk hd, Array.size_modify.trans hsize,
      fun o' => ⟨?_, ?_⟩, fun o' => ?_, fun x => ?_, nofun⟩
    · rintro ⟨-, rfl, -⟩
      rfl
    · intro h
      cases h
      refine ⟨?_, rfl, hlt⟩
      have hne : w.calls o ≠ 1 := fun h => by simp [hcall.mp h] at hd
      omega
    · rw [calls_strike ht, hcalls]
      simp [eq_comm]
    · rw [hafter, after_destroy_reacting hk, hd, hobject]
      rfl

theorem Tallied.effect_dispose (hw : w.Tallied none) (o : NativeId) :
    ∃ e struck, (Deal.dispose o).Effect w e struck := by
  cases hn : w.natives[o]? with
  | none =>
    refine ⟨w, none, .of_quiet hw rfl (fun _ => rfl) ?_ fun x => ?_⟩
    · rintro o' ⟨-, rfl, hlt⟩
      rw [Array.getElem?_eq_getElem hlt] at hn
      simp at hn
    · have hsever : (severWrapper o).exec w = (.error (.crash .runtime), w) := by
        show ((need w.natives[o]?) >>= _).exec w = _
        rw [hn]
        rfl
      exact after_bind_error hsever
  | some n =>
    have ht := token?_of_native hn
    have hsever : (severWrapper o).exec w = (.ok (), w) := by
      unfold severWrapper
      rw [bind_ok (exec_native hn)]
      simp only [hw.unbound o _ ht]
      rfl
    cases hc : n.token.control with
    | some c =>
      obtain ⟨k, hk, -⟩ := hw.owned o _ c ht hc
      refine effect_destroyOf hn hw (.inl rfl) rfl (fun _ => rfl) ht hc hk (.inl rfl) fun x => ?_
      refine (after_bind_ok hsever).trans ?_
      exact after_bind_ok (exec_controlOf_some hn hc)
    | none =>
      refine effect_destroyOf hn (hw.withControl ht hc) (.inr rfl) Array.size_modify
        (calls_withControl w o) (token?_withControl_self ht) rfl (k := { object := o }) ?_ (.inr rfl) fun x => ?_
      · exact (Array.getElem?_push ..).trans (if_pos rfl)
      · refine (after_bind_ok hsever).trans ?_
        exact after_bind_ok (exec_controlOf_none hn hc)

theorem Tallied.effect (hw : w.Tallied none) (d : Deal) : ∃ e struck, d.Effect w e struck := by
  cases d with
  | take o => exact ⟨_, _, hw.effect_take o⟩
  | clone i => exact ⟨_, _, hw.effect_clone i⟩
  | release i => exact hw.effect_release i
  | dispose o => exact hw.effect_dispose o

/-! ## What a run does -/

theorem after_run_deal (d : Deal) (reaction rest : Dealings) (w : World) :
    (Dealings.deal d reaction rest).run.after w = rest.run.after ((d.perform (.reacting reaction.run)).after w) :=
  after_bind_ok (show (catchAll _).exec w = _ from rfl)

theorem Tallied.run (hw : w.Tallied none) (b : Dealings) : (b.run.after w).Tallied none ∧
    (b.run.after w).natives.size = w.natives.size ∧ ∀ o, w.calls o ≤ (b.run.after w).calls o := by
  induction b generalizing w with
  | done => exact ⟨hw, rfl, fun _ => Nat.le_refl _⟩
  | deal d r rest ihr ihrest =>
    obtain ⟨e, struck, he⟩ := hw.effect d
    have hcalls : ∀ o, w.calls o ≤ e.calls o := fun o => by
      rw [he.calls]
      exact Nat.le_add_right _ _
    rw [after_run_deal, he.after]
    split
    · obtain ⟨hr, hsize, hle⟩ := ihr he.tallied
      obtain ⟨hrest, hsize', hle'⟩ := ihrest hr
      exact ⟨hrest, hsize'.trans (hsize.trans he.objects),
        fun o => Nat.le_trans (hcalls o) (Nat.le_trans (hle o) (hle' o))⟩
    · obtain ⟨hrest, hsize, hle⟩ := ihrest he.tallied
      exact ⟨hrest, hsize.trans he.objects, fun o => Nat.le_trans (hcalls o) (hle o)⟩

theorem Tallied.calls_le_of_cuts {b b' : Dealings} (hb : b'.Cuts b) (hw : w.Tallied none)
    (o : NativeId) : (b'.run.after w).calls o ≤ (b.run.after w).calls o := by
  induction hb generalizing w with
  | stop b => exact (hw.run b).2.2 o
  | @inside d r r' rest _ ih =>
    obtain ⟨e, struck, he⟩ := hw.effect d
    rw [after_run_deal, after_run_deal, he.after, he.after]
    split
    · exact Nat.le_trans (ih he.tallied) (((he.tallied.run r).1.run rest).2.2 o)
    · exact (he.tallied.run rest).2.2 o
  | @onward d r rest rest' _ ih =>
    obtain ⟨e, struck, he⟩ := hw.effect d
    rw [after_run_deal, after_run_deal, he.after]
    split
    · exact ih (he.tallied.run r).1
    · exact ih he.tallied

theorem Tallied.calls_of_relinquished (hw : w.Tallied none) (ho : w.Relinquished o) : w.calls o = 1 := by
  obtain ⟨⟨sh, hsh, rfl⟩, hz⟩ := ho
  obtain ⟨i, hi, rfl⟩ := Array.mem_iff_getElem.mp hsh
  obtain ⟨t, ht, hc⟩ := hw.shared i _ (Array.getElem?_eq_getElem hi)
  obtain ⟨k, hk, -⟩ := hw.owned _ t _ ht hc
  rw [hw.calls_eq_one_iff_destroyed ht hc hk]
  cases hd : k.destroyed with
  | true => rfl
  | false =>
    have hpos := hw.kept _ k nofun hk hd
    have hcount := hw.refs_eq ht hc hk
    omega

theorem Tallied.relinquished_of_calls (hw : w.Tallied none) (b : Dealings) (hb : b.disposes o = false)
    (hz : w.calls o = 0) (hone : (b.run.after w).calls o = 1) :
    ∃ b' : Dealings, b'.Cuts b ∧ (b'.run.after w).Relinquished o := by
  induction b generalizing w with
  | done => simpa using hz.symm.trans hone
  | deal d r rest ihr ihrest =>
    unfold Dealings.disposes at hb
    simp only [Bool.or_eq_false_iff, decide_eq_false_iff_not] at hb
    obtain ⟨⟨hd, hr⟩, hrest⟩ := hb
    obtain ⟨e, struck, he⟩ := hw.effect d
    rw [after_run_deal, he.after] at hone
    by_cases hstruck : struck = some o
    · -- The operation itself calls the destructor, so it is the release of the last share.
      obtain ⟨-, hmatch⟩ := (he.strikes o).mpr hstruck
      refine ⟨.deal d .done .done, .inside (.stop r), ?_⟩
      have hafter : (Dealings.deal d .done .done).run.after w = e := by
        rw [after_run_deal, he.after, hstruck]
        rfl
      rw [hafter]
      cases d with
      | release i => exact he.relinquished i o rfl hstruck
      | dispose o' => exact absurd (congrArg Deal.dispose hmatch.1) hd
      | take | clone => exact hmatch.elim
    have hze : e.calls o = 0 := by
      rw [he.calls, if_neg hstruck]
      exact hz
    -- Otherwise it is called later: in the reaction, or in the rest.
    have honward : ∀ e', (d.perform (.reacting r.run)).after w = e' → e'.Tallied none →
        e'.calls o = 0 → (rest.run.after e').calls o = 1 →
        ∃ b' : Dealings, b'.Cuts (.deal d r rest) ∧ (b'.run.after w).Relinquished o := by
      intro e' hafter he' hze' hone'
      obtain ⟨b', hb', hb''⟩ := ihrest he' hrest hze' hone'
      refine ⟨.deal d r b', .onward hb', ?_⟩
      rw [after_run_deal, hafter]
      exact hb''
    cases hs : struck.isSome with
    | false =>
      simp only [hs, Bool.false_eq_true, if_false] at hone
      exact honward e (by rw [he.after, hs]; rfl) he.tallied hze hone
    | true =>
      simp only [hs, if_true] at hone
      have her := (he.tallied.run r).1
      have hle := her.calls_le_one o
      by_cases hzr : (r.run.after e).calls o = 0
      · exact honward _ (by rw [he.after, hs]; rfl) her hzr hone
      · obtain ⟨r', hr', hr''⟩ := ihr he.tallied hr hze (by omega)
        refine ⟨.deal d r' .done, .inside hr', ?_⟩
        rw [after_run_deal, he.after, hs]
        exact hr''

end World

/-- **Destroyed exactly once.** Take any run of operations on shares that starts with objects that were
never shared, with destructors that run such operations in return. At each of its moments:

* the destructor of an object was called at most once, and the count of each share of the object is
  the number of its shares that were not given up;
* if nobody disposes of the object, its destructor was called if and only if there was a moment at which
  all its shares had been given up;
* an operation calls the destructor for the first time, and then only, if it gives up the last share or
  disposes of the object;
* once the object was disposed of, its destructor was called;
* and after it was called, no operation calls it again. -/
theorem destroyed_exactly_once {w : World} (hw : w.Unshared) (b : Dealings) (o : NativeId) :
    (b.run.after w).calls o ≤ 1 ∧
    (∀ (i : ShareId) (sh : Share), (b.run.after w).shares[i]? = some sh → sh.object = o →
      ∃ k, (b.run.after w).controls[sh.control]? = some k ∧ k.refs = (b.run.after w).unreleased o) ∧
    (b.disposes o = false → ((b.run.after w).calls o = 1 ↔
      ∃ b' : Dealings, b'.Cuts b ∧ (b'.run.after w).Relinquished o)) ∧
    (∀ d, (b.run.after w).calls o < ((d.perform (.reacting (pure ()))).after (b.run.after w)).calls o ↔
      (b.run.after w).Strikes d o) ∧
    (∀ reaction : Dealings, o < w.natives.size →
      (((Deal.dispose o).perform (.reacting reaction.run)).after (b.run.after w)).calls o = 1) ∧
    ((b.run.after w).calls o = 1 → ∀ b' : Dealings, (b'.run.after (b.run.after w)).calls o = 1) := by
  obtain ⟨he, hsize, -⟩ := hw.tallied.run b
  have hle := he.calls_le_one o
  refine ⟨hle, fun i sh hi ho => ?_, fun hb => ⟨fun hone => ?_, ?_⟩, fun d => ?_, fun reaction ho => ?_,
    fun hone b' => ?_⟩
  · obtain ⟨t, ht, hc⟩ := he.shared i sh hi
    obtain ⟨k, hk, -⟩ := he.owned _ t _ ht hc
    exact ⟨k, hk, ho ▸ he.refs_eq ht hc hk⟩
  · exact hw.tallied.relinquished_of_calls b hb (hw.calls_eq_zero o) hone
  · rintro ⟨b', hb', hgone⟩
    have hone := (hw.tallied.run b').1.calls_of_relinquished hgone
    have hmono := hw.tallied.calls_le_of_cuts hb' o
    omega
  · obtain ⟨e, struck, heff⟩ := he.effect d
    have hafter : (d.perform (.reacting (pure ()))).after (b.run.after w) = e := by
      rw [heff.after]
      split <;> rfl
    rw [hafter, heff.calls, heff.strikes]
    split <;> simp [*]
  · obtain ⟨e, struck, heff⟩ := he.effect (.dispose o)
    have hone : e.calls o = 1 := by
      rw [heff.calls]
      by_cases hz : (b.run.after w).calls o = 0
      · rw [if_pos ((heff.strikes o).mp ⟨hz, rfl, hsize ▸ ho⟩), hz]
      · rw [if_neg fun h => hz ((heff.strikes o).mpr h).1]
        omega
    rw [heff.after]
    split
    · obtain ⟨hr, -, hmono⟩ := heff.tallied.run reaction
      have := hr.calls_le_one o
      have := hmono o
      omega
    · exact hone
  · obtain ⟨he', -, hmono⟩ := he.run b'
    have := he'.calls_le_one o
    have := hmono o
    omega

def oneGadget : World := { natives := #[{ sort := .gadget }] }

/-- A gadget is shared twice. When the second share goes, the gadget takes a third and gives it up. -/
def sharesAgain : Dealings :=
  .deal (.take 0) .done <| .deal (.clone 0) .done <| .deal (.release 0) .done <|
    .deal (.release 1) (.deal (.clone 0) .done (.deal (.release 2) .done .done)) .done

theorem unshared_oneGadget : oneGadget.Unshared := by
  refine ⟨rfl, rfl, fun o n hn => ?_⟩
  have hn : (#[{ sort := .gadget }] : Array NativeObject)[o]? = some n := hn
  rw [Array.getElem?_singleton] at hn
  split at hn
  · cases hn
    exact ⟨rfl, rfl⟩
  · simp at hn

/-- The gadget is destroyed once, at a moment at which no share is left. -/
theorem destroyed_exactly_once_sharesAgain : (sharesAgain.run.after oneGadget).calls 0 = 1 ∧
    ∃ b' : Dealings, b'.Cuts sharesAgain ∧ (b'.run.after oneGadget).Relinquished 0 := by
  have hone : (sharesAgain.run.after oneGadget).calls 0 = 1 := by decide +kernel
  obtain ⟨-, -, hiff, -⟩ := destroyed_exactly_once unshared_oneGadget sharesAgain 0
  exact ⟨hone, (hiff (by decide)).mp hone⟩

end Tether
