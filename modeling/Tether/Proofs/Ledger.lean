import Tether.Proofs.Inert

/-!
# The books of native objects

Tokens, control blocks, shares and records have to agree. That they do is said here without heaps,
so that a change of the books and a change of a heap can be looked at apart.
-/

namespace Tether

namespace World

/-! ## What the books say -/

variable (w : World)

def token? (o : NativeId) : Option Token := (w.natives[o]?).map (·.token)

/-- A record that is neither finalized nor severed holds a share. -/
def Live (r : RecordId) (x : Record) (i : ShareId) : Prop :=
  w.records[r]? = some x ∧ x.severed = false ∧ x.share = some i

/-- A record of a native object that is neither finalized nor severed. -/
def Binds (r : RecordId) (o : NativeId) : Prop :=
  ∃ x i sh, w.Live r x i ∧ w.shares[i]? = some sh ∧ sh.object = o

def Disposed (o : NativeId) : Prop :=
  ∃ t c k, w.token? o = some t ∧ t.control = some c ∧ w.controls[c]? = some k ∧ k.destroyed = true

def Loose (i : ShareId) : Prop := i < w.shares.size ∧ ∀ r x, ¬ w.Live r x i

def outstanding (c : ControlId) : Nat := w.shares.countP fun sh => sh.control == c && !sh.released

def Counted : Prop := ∀ (c : ControlId) k, w.controls[c]? = some k → k.refs = w.outstanding c

/-- Tokens, controls and shares agree. -/
structure Accounts (w : World) : Prop where
  owned : ∀ o t c, w.token? o = some t → t.control = some c → ∃ k, w.controls[c]? = some k ∧ k.object = o
  shared : ∀ (i : ShareId) sh, w.shares[i]? = some sh → ∃ t, w.token? sh.object = some t ∧ t.control = some sh.control
  counted : w.Counted

/-- The books agree: tokens name the live records of their objects and no others, and the share of a
live record keeps its object alive. -/
structure Ledger (w : World) : Prop extends w.Accounts where
  bound : ∀ o t r, w.token? o = some t → t.record = some r → w.Binds r o
  pointed : ∀ r o, w.Binds r o → ∃ t, w.token? o = some t ∧ t.record = some r
  held : ∀ r x i, w.Live r x i → ∃ sh k, w.shares[i]? = some sh ∧ sh.released = false ∧
    w.controls[sh.control]? = some k ∧ k.destroyed = false
  destructors : ∀ (o : NativeId) n, w.natives[o]? = some n → n.onDestroy.all Program.inert = true
  named : ∀ name i, (name, i) ∈ w.names.shares → w.Loose i

variable {w w' : World} {o o' : NativeId} {c : ControlId} {i : ShareId} {r : RecordId}

theorem token?_of_native {n : NativeObject} (hn : w.natives[o]? = some n) : w.token? o = some n.token := by
  unfold token?
  rw [hn]
  rfl

theorem Accounts.object_unique (h : w.Accounts) {t t' : Token}
    (ht : w.token? o = some t) (hc : t.control = some c) (ht' : w.token? o' = some t')
    (hc' : t'.control = some c) : o = o' := by
  obtain ⟨k, hk, rfl⟩ := h.owned o t c ht hc
  obtain ⟨k', hk', rfl⟩ := h.owned o' t' c ht' hc'
  rw [hk] at hk'
  rw [Option.some.inj hk']

theorem Ledger.record_unique (h : w.Ledger) {r' : RecordId} (hr : w.Binds r o) (hr' : w.Binds r' o) : r = r' := by
  obtain ⟨t, ht, hrec⟩ := h.pointed r o hr
  obtain ⟨t', ht', hrec'⟩ := h.pointed r' o hr'
  rw [ht] at ht'
  cases ht'
  exact Option.mem_unique hrec hrec'

/-! ## Changes of one native object -/

def setToken (w : World) (o : NativeId) (g : Token → Token) : World :=
  { w with natives := w.natives.modify o fun n => { n with token := g n.token } }

theorem token?_setToken (w : World) (o o' : NativeId) (g : Token → Token) :
    (w.setToken o g).token? o' = if o' = o then (w.token? o').map g else w.token? o' := by
  show ((w.natives.modify o _)[o']?).map _ = _
  rw [Array.getElem?_modify]
  by_cases h : o = o'
  · rw [if_pos h, if_pos h.symm]
    show _ = ((w.natives[o']?).map _).map g
    rw [Option.map_map, Option.map_map]
    rfl
  · rw [if_neg h, if_neg fun h' => h h'.symm]
    rfl

section

variable {β : Type} {f : Token → β} {g : Token → Token} {t : Token}
  (htoken : ∀ o', w'.token? o' = if o' = o then (w.token? o').map g else w.token? o')
  (hg : ∀ t, f (g t) = f t)
include htoken hg

theorem token_back (ht : w'.token? o' = some t) : ∃ t', w.token? o' = some t' ∧ f t = f t' := by
  rw [htoken] at ht
  split at ht
  · obtain ⟨t', ht', rfl⟩ := Option.map_eq_some_iff.mp ht
    exact ⟨t', ht', hg t'⟩
  · exact ⟨t, ht, rfl⟩

theorem token_forth (ht : w.token? o' = some t) : ∃ t', w'.token? o' = some t' ∧ f t' = f t := by
  rw [htoken, ht]
  split
  · exact ⟨g t, rfl, hg t⟩
  · exact ⟨t, rfl, rfl⟩

end

theorem token?_modify {f : NativeObject → NativeObject} (hf : ∀ n, (f n).token = n.token)
    (w : World) (o o' : NativeId) :
    ({ w with natives := w.natives.modify o f } : World).token? o' = w.token? o' := by
  show ((w.natives.modify o f)[o']?).map _ = (w.natives[o']?).map _
  rw [Array.getElem?_modify]
  split
  · rw [Option.map_map]
    exact congrArg (fun g => (w.natives[o']?).map g) (funext hf)
  · rfl

theorem destructors_modify (h : w.Ledger) {f : NativeObject → NativeObject}
    (hf : ∀ n, (f n).onDestroy = n.onDestroy) (o' : NativeId) (n : NativeObject)
    (hn : (w.natives.modify o f)[o']? = some n) : n.onDestroy.all Program.inert = true := by
  rcases modify_cases hn with ⟨-, n', hn', rfl⟩ | ⟨-, hn⟩
  · rw [hf]
    exact h.destructors o' n' hn'
  · exact h.destructors o' n hn

/-! ## Changes of the accounts -/

theorem Accounts.transfer (h : w.Accounts) (hshares : w'.shares = w.shares)
    (hcontrols : ∀ (c : ControlId) k', w'.controls[c]? = some k' →
      ∃ k, w.controls[c]? = some k ∧ k'.object = k.object ∧ k'.refs = k.refs)
    (hkept : Retains Control.object w.controls w'.controls)
    (hback : ∀ o t', w'.token? o = some t' → t'.control = none ∨ ∃ t, w.token? o = some t ∧ t'.control = t.control)
    (hforth : ∀ o t, w.token? o = some t → ∃ t', w'.token? o = some t' ∧ t'.control = t.control) :
    w'.Accounts := by
  refine ⟨fun o t' c ht' hc => ?_, fun i sh hi => ?_, fun c k' hk' => ?_⟩
  · rcases hback o t' ht' with hnone | ⟨t, ht, he⟩
    · rw [hnone] at hc
      simp at hc
    · obtain ⟨k, hk, rfl⟩ := h.owned o t c ht (he ▸ hc)
      exact hkept c k hk
  · rw [hshares] at hi
    obtain ⟨t, ht, hc⟩ := h.shared i sh hi
    obtain ⟨t', ht', he⟩ := hforth _ t ht
    exact ⟨t', ht', he.trans hc⟩
  · obtain ⟨k, hk, -, hrefs⟩ := hcontrols c k' hk'
    rw [hrefs, h.counted c k hk]
    unfold outstanding
    rw [hshares]

theorem Accounts.control_of_share (h : w.Accounts) {sh : Share} (hi : w.shares[i]? = some sh) :
    ∃ k, w.controls[sh.control]? = some k ∧ k.object = sh.object := by
  obtain ⟨t, ht, hc⟩ := h.shared i sh hi
  exact h.owned _ t _ ht hc

theorem outstanding_size (h : ∀ (i : ShareId) sh, w.shares[i]? = some sh →
    sh.control < w.controls.size) : w.outstanding w.controls.size = 0 := by
  refine Array.countP_eq_zero.mpr fun sh hsh => ?_
  obtain ⟨i, hi, rfl⟩ := Array.mem_iff_getElem.mp hsh
  simp only [Bool.and_eq_true, beq_iff_eq, not_and]
  exact fun he => absurd he (Nat.ne_of_lt (h i _ (Array.getElem?_eq_getElem hi)))

theorem token?_withControl (w : World) (o o' : NativeId) : (w.withControl o).token? o' = if o' = o then
      (w.token? o').map fun t => { t with control := some w.controls.size } else w.token? o' :=
  token?_setToken w o o' fun t => { t with control := some w.controls.size }

theorem token?_withControl_self {t : Token} (ht : w.token? o = some t) :
    (w.withControl o).token? o = some { t with control := some w.controls.size } := by
  rw [token?_withControl, if_pos rfl, ht]
  rfl

theorem Disposed.transfer (h : w.Disposed o)
    (htoken : ∀ t, w.token? o = some t → ∃ t', w'.token? o = some t' ∧ t'.control = t.control)
    (hcontrols : ∀ (c : ControlId) k, w.controls[c]? = some k → k.destroyed = true →
      ∃ k', w'.controls[c]? = some k' ∧ k'.destroyed = true) : w'.Disposed o := by
  obtain ⟨t, c, k, ht, hc, hk, hd⟩ := h
  obtain ⟨t', ht', he⟩ := htoken t ht
  obtain ⟨k', hk', hd'⟩ := hcontrols c k hk hd
  exact ⟨t', c, k', ht', he.trans hc, hk', hd'⟩

theorem disposed_modify_refs {f : Control → Control} (hf : ∀ k, (f k).destroyed = k.destroyed)
    (htoken : ∀ o, w'.token? o = w.token? o) (hcontrols : w'.controls = w.controls.modify c f) :
    w'.Disposed o ↔ w.Disposed o := by
  refine ⟨fun h => h.transfer (fun t ht => ⟨t, htoken o ▸ ht, rfl⟩) fun c' k' hk' hd => ?_,
    fun h => h.transfer (fun t ht => ⟨t, (htoken o).trans ht, rfl⟩) fun c' k hk hd => ?_⟩
  · rw [hcontrols] at hk'
    obtain ⟨k, hk, he⟩ := getElem?_modify_back hf hk'
    exact ⟨k, hk, he ▸ hd⟩
  · rw [hcontrols]
    obtain ⟨k', hk', he⟩ := modify_forth hf hk
    exact ⟨k', hk', he.trans hd⟩

theorem disposed_issue : (w.issue o c).Disposed o' ↔ w.Disposed o' :=
  disposed_modify_refs (f := fun c => { c with refs := c.refs + 1 }) (fun _ => rfl) (fun _ => rfl) rfl

theorem disposed_withControl {t : Token} (ht : w.token? o = some t) (hc : t.control = none) :
    (w.withControl o).Disposed o' ↔ w.Disposed o' := by
  constructor
  · rintro ⟨t', c', k, ht', hc', hk, hd⟩
    rcases push_cases hk with hk | rfl
    · rw [token?_withControl] at ht'
      split at ht'
      · obtain ⟨t0, ht0, rfl⟩ := Option.map_eq_some_iff.mp ht'
        cases hc'
        rw [Array.getElem?_eq_none (Nat.le_refl _)] at hk
        simp at hk
      · exact ⟨t', c', k, ht', hc', hk, hd⟩
    · simp at hd
  · rintro ⟨t', c', k, ht', hc', hk, hd⟩
    refine ⟨t', c', k, ?_, hc', push_of_some hk, hd⟩
    rw [token?_withControl, if_neg, ht']
    rintro rfl
    cases ht.symm.trans ht'
    cases hc.symm.trans hc'

theorem disposed_take (h : (Ownership.take o).exec w = (.ok i, w')) : w'.Disposed o' ↔ w.Disposed o' := by
  obtain ⟨n, c, w0, hn, -, rfl, ⟨-, rfl⟩ | ⟨hc, -, rfl⟩⟩ := M.exec_take_eq_ok h
  · exact disposed_issue
  · exact disposed_issue.trans (disposed_withControl (token?_of_native hn) hc)

theorem token_of_take (h : (Ownership.take o).exec w = (.ok i, w')) : ∃ t t' c, w.token? o = some t ∧
    w'.token? o = some t' ∧ t'.record = t.record ∧ t'.control = some c ∧ i = w.shares.size ∧
    w'.shares = w.shares.push { object := o, control := c } := by
  obtain ⟨n, c, w0, hn, hi, rfl, ⟨hc, rfl⟩ | ⟨hc, rfl, rfl⟩⟩ := M.exec_take_eq_ok h
  · exact ⟨n.token, n.token, c, token?_of_native hn, token?_of_native hn, rfl, hc, hi, rfl⟩
  · exact ⟨n.token, _, _, token?_of_native hn, token?_withControl_self (token?_of_native hn), rfl, rfl, hi, rfl⟩

theorem Counted.withControl (h : w.Counted) (hnew : w.outstanding w.controls.size = 0) :
    (w.withControl o).Counted := by
  intro c k hk
  show k.refs = w.outstanding c
  have hk' : (w.controls.push { object := o })[c]? = some k := hk
  rw [Array.getElem?_push] at hk'
  split at hk'
  case isTrue hcs =>
    cases hk'
    rw [hcs, hnew]
    rfl
  case isFalse => exact h c k hk'

theorem Counted.issue (h : w.Counted) : (w.issue o c).Counted := by
  intro c' k hk
  have hcount : (w.issue o c).outstanding c' = w.outstanding c' + if c = c' then 1 else 0 := by
    show (w.shares.push { object := o, control := c }).countP _ = _
    rw [Array.countP_push]
    by_cases hcc : c = c'
    · simp [hcc, outstanding]
    · simp [hcc, outstanding]
  rw [hcount]
  rcases modify_cases hk with ⟨rfl, k0, hk0, rfl⟩ | ⟨hc, hk⟩
  · show k0.refs + 1 = _
    rw [h c' k0 hk0, if_pos rfl]
    rfl
  · rw [h c' k hk, if_neg hc.symm]
    rfl

def giveUp (w : World) (i : ShareId) (c : ControlId) : World :=
  { w with
    shares := w.shares.modify i fun sh => { sh with released := true }
    controls := w.controls.modify c fun k => { k with refs := k.refs - 1 } }

theorem Counted.giveUp (h : w.Counted) {sh : Share} (hi : w.shares[i]? = some sh)
    (hr : sh.released = false) : (w.giveUp i sh.control).Counted := by
  intro c k hk
  have hcount := countP_modify (fun x : Share => x.control == c && !x.released) hi
    fun x => { x with released := true }
  simp only [hr, Bool.not_false, Bool.not_true, Bool.and_true, Bool.and_false, beq_iff_eq,
    Bool.false_eq_true, if_false, Nat.add_zero] at hcount
  have hcount : (w.giveUp i sh.control).outstanding c + (if sh.control = c then 1 else 0) = w.outstanding c := hcount
  rcases modify_cases hk with ⟨hc, k0, hk0, rfl⟩ | ⟨hc, hk⟩
  · show k0.refs - 1 = _
    rw [h c k0 hk0]
    rw [if_pos hc.symm] at hcount
    omega
  · rw [h c k hk]
    rw [if_neg hc.symm] at hcount
    omega

theorem Accounts.withControl (h : w.Accounts) {t : Token} (ht : w.token? o = some t)
    (hc : t.control = none) : (w.withControl o).Accounts := by
  refine ⟨fun o' t' c ht' hc' => ?_, fun i sh hi => ?_, h.counted.withControl (outstanding_size fun i sh hi => ?_)⟩
  · show ∃ k, (w.controls.push { object := o })[c]? = some k ∧ _
    rw [token?_withControl] at ht'
    rw [Array.getElem?_push]
    split at ht'
    case isTrue ho =>
      obtain ⟨t0, -, rfl⟩ := Option.map_eq_some_iff.mp ht'
      cases hc'
      exact ⟨_, if_pos rfl, ho.symm⟩
    case isFalse =>
      obtain ⟨k, hk, rfl⟩ := h.owned o' t' c ht' hc'
      exact ⟨k, (Array.getElem?_push ..).symm.trans (push_of_some hk), rfl⟩
  · obtain ⟨t', ht', hc'⟩ := h.shared i sh hi
    refine ⟨t', ?_, hc'⟩
    rw [token?_withControl, if_neg, ht']
    rintro rfl
    rw [ht] at ht'
    cases ht'
    cases hc.symm.trans hc'
  · obtain ⟨k, hk, -⟩ := h.control_of_share hi
    exact (Array.getElem?_eq_some_iff.mp hk).1

theorem Accounts.issue (h : w.Accounts) {t : Token} (ht : w.token? o = some t)
    (hc : t.control = some c) : (w.issue o c).Accounts := by
  refine ⟨fun o' t' c' ht' hc' => ?_, fun i sh hi => ?_, h.counted.issue⟩
  · obtain ⟨k, hk, rfl⟩ := h.owned o' t' c' ht' hc'
    exact modify_forth (fun _ => by rfl) hk
  · rcases push_cases hi with hi | rfl
    · exact h.shared i sh hi
    · exact ⟨t, ht, hc⟩

theorem Accounts.giveUp (h : w.Accounts) {sh : Share} (hi : w.shares[i]? = some sh)
    (hr : sh.released = false) : (w.giveUp i sh.control).Accounts := by
  refine ⟨fun o t c ht hc => ?_, fun j x hj => ?_, h.counted.giveUp hi hr⟩
  · obtain ⟨k, hk, rfl⟩ := h.owned o t c ht hc
    exact modify_forth (fun _ => by rfl) hk
  · rcases modify_cases hj with ⟨-, x0, hx0, rfl⟩ | ⟨-, hj⟩
    · exact h.shared j x0 hx0
    · exact h.shared j x hj

/-! ## Changes that leave the records alone -/

theorem Live.transfer {x : Record} (h : w.Live r x i) (hrecords : w'.records = w.records) :
    w'.Live r x i := ⟨by rw [hrecords]; exact h.1, h.2⟩

theorem Loose.transfer (h : w.Loose i) (hsize : w.shares.size ≤ w'.shares.size)
    (hlive : ∀ r x, w'.Live r x i → w.Live r x i) : w'.Loose i :=
  ⟨Nat.lt_of_lt_of_le h.1 hsize, fun r x hx => h.2 r x (hlive r x hx)⟩

/-- The books agree as before if records stay, tokens name the same records, and the shares of live
records still keep their objects alive. -/
theorem Ledger.transfer (h : w.Ledger) (haccounts : w'.Accounts) (hrecords : w'.records = w.records)
    (hsize : w.shares.size ≤ w'.shares.size) (hshares : ∀ (i : ShareId) sh, w.shares[i]? = some sh →
      ∃ sh', w'.shares[i]? = some sh' ∧ sh'.object = sh.object)
    (hheld : ∀ r x i, w.Live r x i → ∃ sh k, w'.shares[i]? = some sh ∧ sh.released = false ∧
      w'.controls[sh.control]? = some k ∧ k.destroyed = false)
    (hback : ∀ o t', w'.token? o = some t' → t'.record = none ∨ ∃ t, w.token? o = some t ∧ t'.record = t.record)
    (hforth : ∀ o t, w.token? o = some t → ∃ t', w'.token? o = some t' ∧ t'.record = t.record)
    (hdestructors : ∀ (o : NativeId) n, w'.natives[o]? = some n → n.onDestroy.all Program.inert = true)
    (hnames : w'.names.shares = w.names.shares) : w'.Ledger := by
  refine ⟨haccounts, fun o t' r ht' hr => ?_, fun r o hb => ?_, fun r x i hx => ?_, hdestructors, fun name i hm => ?_⟩
  · rcases hback o t' ht' with hnone | ⟨t, ht, he⟩
    · rw [hnone] at hr
      simp at hr
    · obtain ⟨x, i, sh, hx, hi, rfl⟩ := h.bound o t r ht (he ▸ hr)
      obtain ⟨sh', hi', ho⟩ := hshares i sh hi
      exact ⟨x, i, sh', hx.transfer hrecords, hi', ho⟩
  · obtain ⟨x, i, sh', hx, hi', rfl⟩ := hb
    have hx0 : w.Live r x i := hx.transfer hrecords.symm
    obtain ⟨sh, -, hi, -, -, -⟩ := h.held r x i hx0
    obtain ⟨sh'', hi'', ho⟩ := hshares i sh hi
    cases hi'.symm.trans hi''
    obtain ⟨t, ht, hr⟩ := h.pointed r sh.object ⟨x, i, sh, hx0, hi, rfl⟩
    obtain ⟨t', ht', he⟩ := hforth _ t ht
    exact ⟨t', ho ▸ ht', he.trans hr⟩
  · exact hheld r x i (hx.transfer hrecords.symm)
  · rw [hnames] at hm
    exact (h.named name i hm).transfer hsize fun r x hx => hx.transfer hrecords.symm

theorem Ledger.congr (h : w.Ledger) (hnatives : w'.natives = w.natives)
    (hcontrols : w'.controls = w.controls) (hshares : w'.shares = w.shares)
    (hrecords : w'.records = w.records) (hnames : w'.names.shares = w.names.shares) : w'.Ledger := by
  have htoken : ∀ o, w'.token? o = w.token? o := fun o => by
    unfold token?
    rw [hnatives]
  refine h.transfer (h.toAccounts.transfer hshares ?_ ?_ ?_ ?_) hrecords (Nat.le_of_eq (by rw [hshares]))
    (fun i sh hi => ⟨sh, by rw [hshares]; exact hi, rfl⟩) (fun r x i hx => ?_) ?_ ?_
    (fun o n hn => h.destructors o n (hnatives ▸ hn)) hnames
  · exact fun c k hk => ⟨k, hcontrols ▸ hk, rfl, rfl⟩
  · exact fun c k hk => ⟨k, by rw [hcontrols]; exact hk, rfl⟩
  · exact fun o t ht => .inr ⟨t, htoken o ▸ ht, rfl⟩
  · exact fun o t ht => ⟨t, by rw [htoken]; exact ht, rfl⟩
  · rw [hshares, hcontrols]
    exact h.held r x i hx
  · exact fun o t ht => .inr ⟨t, htoken o ▸ ht, rfl⟩
  · exact fun o t ht => ⟨t, by rw [htoken]; exact ht, rfl⟩

theorem Ledger.editNative (h : w.Ledger) {f : NativeObject → NativeObject}
    (hf : ∀ n, (f n).token = n.token ∧ (f n).onDestroy = n.onDestroy) :
    ({ w with natives := w.natives.modify o f } : World).Ledger := by
  have htoken := token?_modify (fun n => (hf n).1) w o
  refine h.transfer (h.toAccounts.transfer rfl (fun c k hk => ⟨k, hk, rfl, rfl⟩) (fun c k hk => ⟨k, hk, rfl⟩) ?_ ?_)
    rfl (Nat.le_refl _) (fun i sh hi => ⟨sh, hi, rfl⟩) h.held ?_ ?_
    (destructors_modify h fun n => (hf n).2) rfl
  · exact fun o' t ht => .inr ⟨t, htoken o' ▸ ht, rfl⟩
  · exact fun o' t ht => ⟨t, by rw [htoken]; exact ht, rfl⟩
  · exact fun o' t ht => .inr ⟨t, htoken o' ▸ ht, rfl⟩
  · exact fun o' t ht => ⟨t, by rw [htoken]; exact ht, rfl⟩

theorem Ledger.newNative (h : w.Ledger) {n : NativeObject} (hn : n.token = {})
    (hd : n.onDestroy.all Program.inert = true) :
    ({ w with natives := w.natives.push n } : World).Ledger := by
  have hback : ∀ o t, ({ w with natives := w.natives.push n } : World).token? o = some t →
      t = {} ∨ w.token? o = some t := by
    intro o t ht
    obtain ⟨n', hn', rfl⟩ := Option.map_eq_some_iff.mp ht
    rcases push_cases hn' with hn' | rfl
    · exact .inr (token?_of_native hn')
    · exact .inl hn
  have hforth : ∀ o t, w.token? o = some t → ({ w with natives := w.natives.push n } : World).token? o = some t := by
    intro o t ht
    obtain ⟨n', hn', rfl⟩ := Option.map_eq_some_iff.mp ht
    exact token?_of_native (push_of_some hn')
  refine h.transfer (h.toAccounts.transfer rfl (fun c k hk => ⟨k, hk, rfl, rfl⟩) (fun c k hk => ⟨k, hk, rfl⟩)
    (fun o t ht => (hback o t ht).imp (by rintro rfl; rfl) (⟨t, ·, rfl⟩)) fun o t ht => ⟨t, hforth o t ht, rfl⟩) rfl
    (Nat.le_refl _) (fun i sh hi => ⟨sh, hi, rfl⟩) h.held
    (fun o t ht => (hback o t ht).imp (by rintro rfl; rfl) (⟨t, ·, rfl⟩))
    (fun o t ht => ⟨t, hforth o t ht, rfl⟩) (fun o n' hn' => ?_) rfl
  rcases push_cases hn' with hn' | rfl
  · exact h.destructors o n' hn'
  · exact hd

theorem Ledger.nameShare (h : w.Ledger) {name : String} (hi : w.Loose i) :
    ({ w with names := { w.names with shares := (name, i) :: w.names.shares } } : World).Ledger := by
  refine ⟨⟨h.owned, h.shared, h.counted⟩, h.bound, h.pointed, h.held, h.destructors, ?_⟩
  intro name' i' hm
  rcases List.mem_cons.mp hm with he | hm
  · rw [(Prod.mk.inj he).2]
    exact hi
  · exact h.named name' i' hm

theorem Ledger.withControl (h : w.Ledger) {t : Token} (ht : w.token? o = some t)
    (hc : t.control = none) : (w.withControl o).Ledger := by
  refine h.transfer (h.toAccounts.withControl ht hc) rfl (Nat.le_refl _) (fun i sh hi => ⟨sh, hi, rfl⟩)
    (fun r x i hx => ?_) (fun _ _ ht' => .inr (token_back (token?_withControl w o) (fun _ => by rfl) ht'))
    (fun _ _ ht' => token_forth (token?_withControl w o) (fun _ => by rfl) ht')
    (destructors_modify h fun _ => rfl) rfl
  obtain ⟨sh, k, hi, hr, hk, hd⟩ := h.held r x i hx
  exact ⟨sh, k, hi, hr, push_of_some hk, hd⟩

theorem Ledger.issue (h : w.Ledger) {t : Token} (ht : w.token? o = some t)
    (hc : t.control = some c) : (w.issue o c).Ledger := by
  refine h.transfer (h.toAccounts.issue ht hc) rfl ?_ (fun i sh hi => ⟨sh, push_of_some hi, rfl⟩)
    (fun r x i hx => ?_) (fun o' t' ht' => .inr ⟨t', ht', rfl⟩) (fun o' t' ht' => ⟨t', ht', rfl⟩)
    h.destructors rfl
  · show w.shares.size ≤ (w.shares.push _).size
    rw [Array.size_push]
    exact Nat.le_succ _
  · obtain ⟨sh, k, hi, hr, hk, hd⟩ := h.held r x i hx
    obtain ⟨k', hk', he⟩ := modify_forth (g := Control.destroyed)
      (f := fun k => { k with refs := k.refs + 1 }) (j := c) (fun _ => rfl) hk
    exact ⟨sh, k', push_of_some hi, hr, hk', he.trans hd⟩

theorem Ledger.giveUp (h : w.Ledger) {sh : Share} (hi : w.shares[i]? = some sh)
    (hr : sh.released = false) (hloose : w.Loose i) : (w.giveUp i sh.control).Ledger := by
  refine h.transfer (h.toAccounts.giveUp hi hr) rfl ?_ (fun j x hj => ?_) (fun r x j hx => ?_)
    (fun o' t' ht' => .inr ⟨t', ht', rfl⟩) (fun o' t' ht' => ⟨t', ht', rfl⟩) h.destructors rfl
  · exact Nat.le_of_eq (Array.size_modify ..).symm
  · exact modify_forth (fun _ => by rfl) hj
  · obtain ⟨y, k, hj, hy, hk, hd⟩ := h.held r x j hx
    have hne : i ≠ j := by
      rintro rfl
      exact hloose.2 r x hx
    obtain ⟨k', hk', he⟩ := modify_forth (g := Control.destroyed)
      (f := fun k => { k with refs := k.refs - 1 }) (j := sh.control) (fun _ => rfl) hk
    exact ⟨y, k', (getElem?_modify_ne hne.symm).trans hj, hy, hk', he.trans hd⟩

/-- The world in which the object of a control block counts as destroyed. -/
def markDestroyed (w : World) (c : ControlId) : World :=
  { w with controls := w.controls.modify c fun k => { k with destroyed := true } }

theorem controls_markDestroyed (w : World) (c c' : ControlId) : (w.markDestroyed c).controls[c']? = if c = c' then
      (w.controls[c']?).map fun k => { k with destroyed := true } else w.controls[c']? :=
  Array.getElem?_modify

theorem Accounts.markDestroyed (h : w.Accounts) (c : ControlId) : (w.markDestroyed c).Accounts := by
  refine h.transfer rfl (fun c' k' hk' => ?_) (fun c' k hk => modify_forth (fun _ => by rfl) hk)
    (fun o' t' ht' => .inr ⟨t', ht', rfl⟩) (fun o' t' ht' => ⟨t', ht', rfl⟩)
  rcases modify_cases hk' with ⟨-, k, hk, rfl⟩ | ⟨-, hk⟩
  · exact ⟨k, hk, rfl, rfl⟩
  · exact ⟨k', hk, rfl, rfl⟩

theorem Ledger.markDestroyed (h : w.Ledger) (hfree : ∀ r x i sh, w.Live r x i →
    w.shares[i]? = some sh → sh.control ≠ c) : (w.markDestroyed c).Ledger := by
  refine h.transfer (h.toAccounts.markDestroyed c) rfl (Nat.le_refl _)
    (fun i sh hi => ⟨sh, hi, rfl⟩) (fun r x i hx => ?_) (fun o' t' ht' => .inr ⟨t', ht', rfl⟩)
    (fun o' t' ht' => ⟨t', ht', rfl⟩) h.destructors rfl
  obtain ⟨sh, k, hi, hr, hk, hd⟩ := h.held r x i hx
  refine ⟨sh, k, hi, hr, ?_, hd⟩
  rw [controls_markDestroyed, if_neg (hfree r x i sh hx hi).symm]
  exact hk

/-! ## Changes of records -/

theorem live_editRecord {f : Record → Record}
    (hf : ∀ x, (f x).severed = x.severed ∧ (f x).share = x.share) (hr : ∀ x i, ¬ w.Live r x i)
    (r' : RecordId) (x : Record) (i : ShareId) :
    ({ w with records := w.records.modify r f } : World).Live r' x i ↔ w.Live r' x i := by
  unfold Live
  rw [Array.getElem?_modify]
  split
  case isTrue he =>
    subst he
    constructor
    · rintro ⟨hx, hs, hi⟩
      obtain ⟨x0, hx0, rfl⟩ := Option.map_eq_some_iff.mp hx
      rw [(hf x0).1] at hs
      rw [(hf x0).2] at hi
      exact absurd ⟨hx0, hs, hi⟩ (hr x0 i)
    · exact fun hx => absurd hx (hr x i)
  case isFalse => exact Iff.rfl

theorem Ledger.editRecord (h : w.Ledger) {f : Record → Record}
    (hf : ∀ x, (f x).severed = x.severed ∧ (f x).share = x.share) (hr : ∀ x i, ¬ w.Live r x i) :
    ({ w with records := w.records.modify r f } : World).Ledger := by
  have hlive := live_editRecord hf hr
  have hbinds : ∀ r' o, ({ w with records := w.records.modify r f } : World).Binds r' o ↔ w.Binds r' o := by
    intro r' o
    unfold Binds
    simp only [hlive]
  refine ⟨⟨h.owned, h.shared, h.counted⟩, fun o t r' ht hrec => (hbinds r' o).mpr (h.bound o t r' ht hrec),
    fun r' o hb => h.pointed r' o ((hbinds r' o).mp hb), fun r' x i hx => h.held r' x i ((hlive _ _ _).mp hx),
    h.destructors, fun name i hm => ?_⟩
  exact (h.named name i hm).transfer (Nat.le_refl _) fun r' x hx => (hlive r' x i).mp hx

theorem Binds.object_unique {o' : NativeId} (h : w.Binds r o) (h' : w.Binds r o') : o = o' := by
  obtain ⟨x, i, sh, ⟨hx, -, hs⟩, hi, rfl⟩ := h
  obtain ⟨x', i', sh', ⟨hx', -, hs'⟩, hi', rfl⟩ := h'
  cases hx.symm.trans hx'
  cases hs.symm.trans hs'
  rw [Option.mem_unique hi hi']

/-- The world in which the token of an object names no record, and its record was changed. -/
def detach (w : World) (o : NativeId) (r : RecordId) (f : Record → Record) : World :=
  { w.setToken o fun t => { t with record := none } with records := w.records.modify r f }

variable {f : Record → Record} (hf : ∀ x, (f x).share = none)
include hf

theorem live_detach {r' : RecordId} {x : Record} : (w.detach o r f).Live r' x i ↔ r' ≠ r ∧ w.Live r' x i := by
  unfold Live
  show (w.records.modify r f)[r']? = some x ∧ _ ↔ _
  rw [Array.getElem?_modify]
  constructor
  · rintro ⟨hx, hs, hi⟩
    split at hx
    · obtain ⟨x0, -, rfl⟩ := Option.map_eq_some_iff.mp hx
      rw [hf] at hi
      simp at hi
    case isFalse hne => exact ⟨fun he => hne he.symm, hx, hs, hi⟩
  · rintro ⟨hne, hx, hs, hi⟩
    rw [if_neg fun he => hne he.symm]
    exact ⟨hx, hs, hi⟩

theorem binds_detach {r' : RecordId} {o' : NativeId} : (w.detach o r f).Binds r' o' ↔ r' ≠ r ∧ w.Binds r' o' := by
  unfold Binds
  simp only [live_detach hf]
  constructor
  · rintro ⟨x, i, sh, ⟨hne, hx⟩, hi, ho⟩
    exact ⟨hne, x, i, sh, hx, hi, ho⟩
  · rintro ⟨hne, x, i, sh, hx, hi, ho⟩
    exact ⟨x, i, sh, ⟨hne, hx⟩, hi, ho⟩

omit hf in
theorem token?_detach (o' : NativeId) : (w.detach o r f).token? o' =
    if o' = o then (w.token? o').map fun t => { t with record := none } else w.token? o' :=
  token?_setToken w o o' fun t => { t with record := none }

theorem Ledger.detach (h : w.Ledger) {t : Token} (ht : w.token? o = some t)
    (hr : t.record = some r) : (w.detach o r f).Ledger := by
  have hbr := h.bound o t r ht hr
  refine ⟨h.toAccounts.transfer rfl (fun c k hk => ⟨k, hk, rfl, rfl⟩) (fun c k hk => ⟨k, hk, rfl⟩)
    (fun _ _ ht' => .inr (token_back token?_detach (fun _ => by rfl) ht'))
    fun _ _ ht' => token_forth token?_detach (fun _ => by rfl) ht', fun o' t' r' ht' hr' => ?_, fun r' o' hb => ?_,
    fun r' x i hx => h.held r' x i ((live_detach hf).mp hx).2, destructors_modify h fun _ => rfl,
    fun name i hm => ?_⟩
  · rw [token?_detach] at ht'
    split at ht'
    · obtain ⟨t0, -, rfl⟩ := Option.map_eq_some_iff.mp ht'
      simp at hr'
    case isFalse hne =>
      have hb := h.bound o' t' r' ht' hr'
      refine (binds_detach hf).mpr ⟨?_, hb⟩
      rintro rfl
      exact hne (hb.object_unique hbr)
  · obtain ⟨hne, hbinds⟩ := (binds_detach hf).mp hb
    obtain ⟨t', ht', hr'⟩ := h.pointed r' o' hbinds
    refine ⟨t', ?_, hr'⟩
    rw [token?_detach, if_neg, ht']
    rintro rfl
    exact hne (h.record_unique hbinds hbr)
  · exact (h.named name i hm).transfer (Nat.le_refl _) fun r' x hx => ((live_detach hf).mp hx).2

theorem Ledger.loose_detach (h : w.Ledger) {x : Record} (hx : w.Live r x i) : (w.detach o r f).Loose i := by
  obtain ⟨sh, -, hi, -⟩ := h.held r x i hx
  obtain ⟨hlt, -⟩ := Array.getElem?_eq_some_iff.mp hi
  refine ⟨hlt, fun r' x' hx' => ?_⟩
  obtain ⟨hne, hx'⟩ := (live_detach hf).mp hx'
  exact hne (h.record_unique ⟨x', i, sh, hx', hi, rfl⟩ ⟨x, i, sh, hx, hi, rfl⟩)

omit hf

/-- The world in which a new record is the record of an object. -/
def bindTo (w : World) (o : NativeId) (x : Record) : World :=
  { w.setToken o fun t => { t with record := some w.records.size } with records := w.records.push x }

theorem live_bindTo {x y : Record} {r : RecordId} (hs : x.severed = false) (hi : x.share = some i)
    {j : ShareId} : (w.bindTo o x).Live r y j ↔ (r = w.records.size ∧ y = x ∧ j = i) ∨ w.Live r y j := by
  unfold Live
  show (w.records.push x)[r]? = some y ∧ _ ↔ _
  rw [Array.getElem?_push]
  constructor
  · rintro ⟨hy, hys, hj⟩
    split at hy
    case isTrue he =>
      cases hy
      exact .inl ⟨he, rfl, Option.mem_unique hj hi⟩
    case isFalse => exact .inr ⟨hy, hys, hj⟩
  · rintro (⟨rfl, rfl, rfl⟩ | ⟨hy, hys, hj⟩)
    · exact ⟨if_pos rfl, hs, hi⟩
    · obtain ⟨hlt, -⟩ := Array.getElem?_eq_some_iff.mp hy
      rw [if_neg (Nat.ne_of_lt hlt)]
      exact ⟨hy, hys, hj⟩

theorem token?_bindTo {x : Record} (o' : NativeId) : (w.bindTo o x).token? o' =
    if o' = o then (w.token? o').map fun t => { t with record := some w.records.size }
    else w.token? o' :=
  token?_setToken w o o' fun t => { t with record := some w.records.size }

theorem Ledger.bindTo (h : w.Ledger) {t : Token} {x : Record} {sh : Share} {k : Control}
    (ht : w.token? o = some t) (hnone : t.record = none) (hs : x.severed = false)
    (hi : x.share = some i) (hsh : w.shares[i]? = some sh) (ho : sh.object = o)
    (hr : sh.released = false) (hk : w.controls[sh.control]? = some k) (hd : k.destroyed = false)
    (hnames : ∀ name, (name, i) ∉ w.names.shares) : (w.bindTo o x).Ledger := by
  have hlive := @live_bindTo w o i x
  refine ⟨h.toAccounts.transfer rfl (fun c k hk => ⟨k, hk, rfl, rfl⟩) (fun c k hk => ⟨k, hk, rfl⟩)
    (fun _ _ ht' => .inr (token_back token?_bindTo (fun _ => by rfl) ht'))
    fun _ _ ht' => token_forth token?_bindTo (fun _ => by rfl) ht', fun o' t' r' ht' hr' => ?_, fun r' o' hb => ?_,
    fun r' y j hy => ?_, destructors_modify h fun _ => rfl, fun name j hm => ?_⟩
  · rw [token?_bindTo] at ht'
    split at ht'
    case isTrue he =>
      obtain ⟨t0, -, rfl⟩ := Option.map_eq_some_iff.mp ht'
      cases hr'
      exact ⟨x, i, sh, (hlive hs hi).mpr (.inl ⟨rfl, rfl, rfl⟩), hsh, ho.trans he.symm⟩
    case isFalse =>
      obtain ⟨y, j, shj, hy, hj, rfl⟩ := h.bound o' t' r' ht' hr'
      exact ⟨y, j, shj, (hlive hs hi).mpr (.inr hy), hj, rfl⟩
  · obtain ⟨y, j, shj, hy, hj, rfl⟩ := hb
    rw [token?_bindTo]
    rcases (hlive hs hi).mp hy with ⟨rfl, rfl, rfl⟩ | hy
    · cases hsh.symm.trans hj
      rw [if_pos ho, ho, ht]
      exact ⟨_, rfl, rfl⟩
    · obtain ⟨t', ht', hr'⟩ := h.pointed r' shj.object ⟨y, j, shj, hy, hj, rfl⟩
      rw [if_neg, ht']
      · exact ⟨t', rfl, hr'⟩
      · rintro rfl
        rw [ht] at ht'
        cases ht'
        cases hnone.symm.trans hr'
  · rcases (hlive hs hi).mp hy with ⟨-, -, rfl⟩ | hy
    · exact ⟨sh, k, hsh, hr, hk, hd⟩
    · exact h.held r' y j hy
  · refine ⟨(h.named name j hm).1, fun r' y hy => ?_⟩
    rcases (hlive hs hi).mp hy with ⟨-, -, rfl⟩ | hy
    · exact hnames name hm
    · exact (h.named name j hm).2 r' y hy

end World

end Tether
