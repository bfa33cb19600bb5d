import Tether.Proofs.Disposal
import Tether.Proofs.Slots

/-!
# The finalizer of wrappers

The finalizer takes the record off its wrapper, detaches it from its object and gives up its share.
It keeps the invariant even when it starts with the wrapper excused, and it ends with none excused.
-/

namespace Tether

open Bridge (bridgeKey objectKey finalizerKey)
open Regime M Bridge Ownership World Heap

variable {kept : HeapPtr → Prop} {s s' : Heap} {o o' : Object} {p : HeapPtr} {k : String} {host : Host}
  {b : BridgeId} {r : RecordId} {w w' : World} {h : HeapId} {e : Excuse} {n : Nat}
  {kept' : HeapPtr → Prop} {s1 s2 : Heap} {x : Record} {d : ClassDecl} {sh : Share}

/-! ## What stays as it is -/

/-- A change that leaves the kept objects alone. -/
structure Heap.Spares (kept : HeapPtr → Prop) (s s' : Heap) : Prop where
  stack : s'.stack = s.stack
  frames : s'.frames = s.frames
  global : s'.global = s.global
  stash : s'.stash = s.stash
  limits : s'.limits = s.limits
  objects : ∀ q, kept q → s'.object? q = s.object? q
  retired : s.retired ⊆ s'.retired

theorem Heap.Spares.refl (kept : HeapPtr → Prop) (s : Heap) : s.Spares kept s :=
  ⟨rfl, rfl, rfl, rfl, rfl, fun _ _ => rfl, fun _ hp => hp⟩

theorem Heap.Spares.trans {s3 : Heap} (h : s1.Spares kept s2) (h' : s2.Spares kept s3) : s1.Spares kept s3 where
  stack := h'.stack.trans h.stack
  frames := h'.frames.trans h.frames
  global := h'.global.trans h.global
  stash := h'.stash.trans h.stash
  limits := h'.limits.trans h.limits
  objects q hq := (h'.objects q hq).trans (h.objects q hq)
  retired _ hp := h'.retired (h.retired hp)

theorem Heap.Spares.value? (h : s.Spares kept s') (i : Int) : s'.value? i = s.value? i := by
  unfold Heap.value? Heap.position? Heap.bottom
  rw [h.stack, h.frames]

theorem Heap.Spares.weaken (h : s.Spares kept s') (hk : ∀ q, kept' q → kept q) : s.Spares kept' s' :=
  ⟨h.stack, h.frames, h.global, h.stash, h.limits, fun q hq => h.objects q (hk q hq), h.retired⟩

namespace World

def Free (w : World) (o : NativeId) : Prop := (∃ t, w.token? o = some t ∧ t.record = none) ∧ ¬ w.Disposed o

/-- All but some objects of one heap stay as they are, no record becomes live, and free objects stay
so. -/
structure Spares (h : HeapId) (kept : HeapPtr → Prop) (w w' : World) : Prop where
  heap : ∀ s, w.heaps[h]? = some s → ∃ s', w'.heaps[h]? = some s' ∧ s.Spares kept s'
  others : ∀ k, k ≠ h → w'.heaps[k]? = w.heaps[k]?
  classes : w'.classes = w.classes
  live : ∀ r x i, w'.Live r x i → w.Live r x i
  free : ∀ o, w.Free o → w'.Free o

theorem Spares.refl (h : HeapId) (kept : HeapPtr → Prop) (w : World) : w.Spares h kept w :=
  ⟨fun s hs => ⟨s, hs, .refl kept s⟩, fun _ _ => rfl, rfl, fun _ _ _ hx => hx, fun _ ho => ho⟩

theorem Spares.trans {w1 w2 w3 : World} (h1 : w1.Spares h kept w2) (h2 : w2.Spares h kept w3) :
    w1.Spares h kept w3 := by
  refine ⟨fun s hs => ?_, fun k hk => (h2.others k hk).trans (h1.others k hk),
    h2.classes.trans h1.classes, fun r x i hx => h1.live r x i (h2.live r x i hx),
    fun o ho => h2.free o (h1.free o ho)⟩
  obtain ⟨s2, hs2, hsp⟩ := h1.heap s hs
  obtain ⟨s3, hs3, hsp'⟩ := h2.heap s2 hs2
  exact ⟨s3, hs3, hsp.trans hsp'⟩

theorem Spares.weaken (hsp : w.Spares h kept w') (hk : ∀ q, kept' q → kept q) : w.Spares h kept' w' := by
  refine ⟨fun s hs => ?_, hsp.others, hsp.classes, hsp.live, hsp.free⟩
  obtain ⟨s', hs', hspared⟩ := hsp.heap s hs
  exact ⟨s', hs', hspared.weaken hk⟩

theorem spares_setHeap (hs : w.heaps[h]? = some s) (hsp : s.Spares kept s') : w.Spares h kept (w.setHeap h s') := by
  refine ⟨fun x hx => ?_, fun k hk => ?_, rfl, fun _ _ _ hx => hx, fun _ ho => ho⟩
  · cases hs.symm.trans hx
    exact ⟨s', get_setHeap hs s', hsp⟩
  · rw [heaps_setHeap hs, if_neg hk]

theorem Spares.through (hs : w.heaps[h]? = some s) (hsp : (w.setHeap h s1).Spares h kept w')
    (hs2 : w'.heaps[h]? = some s2) (hback : s.Spares kept s') : w.Spares h kept (w'.setHeap h s') := by
  refine ⟨fun x hx => ?_, fun k hk => ?_, hsp.classes, hsp.live, hsp.free⟩
  · cases hs.symm.trans hx
    exact ⟨s', get_setHeap hs2 s', hback⟩
  · rw [heaps_setHeap hs2, if_neg hk, hsp.others k hk, heaps_setHeap hs, if_neg hk]

theorem Free.transfer {o : NativeId} (hf : w.Free o) (ht : w'.token? o = w.token? o)
    (hd : ∀ t c k', w.token? o = some t → t.control = some c → w'.controls[c]? = some k' →
      k'.destroyed = true → ∃ k, w.controls[c]? = some k ∧ k.destroyed = true) : w'.Free o := by
  refine ⟨by rw [ht]; exact hf.1, ?_⟩
  rintro ⟨t, c, k', ht', hc, hk', hdestroyed⟩
  obtain ⟨k, hk, hkd⟩ := hd t c k' (ht ▸ ht') hc hk' hdestroyed
  exact hf.2 ⟨t, c, k, ht ▸ ht', hc, hk, hkd⟩

theorem Free.of_books {a : NativeId} (hf : w.Free a) (hnatives : w'.natives = w.natives)
    (hcontrols : w'.controls = w.controls) : w'.Free a := by
  refine hf.transfer ?_ fun t c k' _ _ hk' hd => ⟨k', hcontrols ▸ hk', hd⟩
  unfold token?
  rw [hnatives]

theorem Silent.spares (hsil : w.Silent w') : w.Spares h kept w' := by
  obtain ⟨hheaps, -, hnatives, hcontrols, -, hrecords, -, hclasses, -⟩ := state_eq_iff.mp hsil.state
  refine ⟨fun s hs => ⟨s, hheaps ▸ hs, .refl kept s⟩, fun k _ => by rw [hheaps],
    hclasses, fun r x i hx => hx.transfer hrecords.symm, fun o ho => ho.of_books hnatives hcontrols⟩

theorem Identity.sustains_of_objects (hi : w.Identity e) (hs : w.heaps[h]? = some s)
    (hstash : s'.stash = s.stash ∨ s.stash = .null ∧ ∀ st, s'.object? s'.stash = some st → st.hidden = {})
    (hobjects : ∀ q, s'.object? q = s.object? q) (hretired : s'.retired = s.retired) :
    Sustains e w (w.setHeap h s') := by
  refine hi.sustains_setHeap hs (hi.retains_of_objects hs hstash hobjects) (fun _ _ _ he => he) ?_
  intro p hp
  unfold Heap.Spent
  rw [hretired, hobjects]
  exact hp

/-! ## Objects that carry no live record -/

def Unlinked (w : World) (h : HeapId) (p : HeapPtr) : Prop :=
  ∀ r x i br, w.Live r x i → w.bridges[x.bridge]? = some br → br.heapId = h → x.ptr ≠ p

theorem Identity.pardon (hi : w.Identity e) (he : ∀ k p, e = some (k, p) → w.Unlinked k p) : w.Identity none := by
  refine ⟨hi.ledger, fun r x i hx => ?_, hi.tidy, hi.keys, hi.attached, hi.bound, hi.carried⟩
  obtain ⟨br, d, s, hbr, hd, hs, hwraps, hunstarted⟩ := hi.linked r x i hx
  refine ⟨br, d, s, hbr, hd, hs, hwraps, .inl ?_⟩
  rcases hunstarted with hu | hexcused
  · exact hu
  · exact absurd rfl (he _ _ hexcused r x i br hx hbr rfl)

theorem Identity.unlinked (hi : w.Identity e) (hs : w.heaps[h]? = some s) (ho : s.object? p = some o)
    (hdead : ∀ r x i, w.Live r x i → o.hidden.get? objectKey ≠ some (.pointer (.record (some r)))) :
    w.Unlinked h p := by
  rintro r x i br hx hbr rfl rfl
  obtain ⟨br', d, s', hbr', -, hs', ⟨o', q, ho', hkey, -⟩, -⟩ := hi.linked r x i hx
  cases hbr.symm.trans hbr'
  cases hs.symm.trans hs'
  cases ho.symm.trans ho'
  exact hdead r x i hx hkey

end World

/-- How an object may change beside its links: it keeps its body, its finalizer and what a stash
holds of a bridge, and does not become a wrapper. -/
structure Object.Strips (o o' : Object) : Prop where
  body : o'.body = o.body
  finalizer : o'.finalizer = o.finalizer
  bridge : o'.hidden.get? bridgeKey = o.hidden.get? bridgeKey
  equips : o'.hidden.get? finalizerKey = o.hidden.get? finalizerKey
  wrapper : o.hidden.get? objectKey = none → o'.hidden.get? objectKey = none
  finalized : o.finalized = true → o'.finalized = true
  record : ∀ r, o'.hidden.get? objectKey = some (.pointer (.record (some r))) →
    o.hidden.get? objectKey = some (.pointer (.record (some r)))

theorem Object.Strips.refl (o : Object) : o.Strips o := ⟨rfl, rfl, rfl, rfl, id, id, fun _ h => h⟩

theorem Object.Strips.trans {o1 o2 o3 : Object} (h : o1.Strips o2) (h' : o2.Strips o3) : o1.Strips o3 :=
  ⟨h'.body.trans h.body, h'.finalizer.trans h.finalizer, h'.bridge.trans h.bridge,
    h'.equips.trans h.equips, h'.wrapper ∘ h.wrapper, h'.finalized ∘ h.finalized,
    fun r hr => h.record r (h'.record r hr)⟩

theorem Heap.Spares.spent (hsp : s.Spares (· ≠ p) s') (ho : s.object? p = some o)
    (ho' : s'.object? p = some o') (hst : o.Strips o') (q : HeapPtr) (hq : s.Spent q) : s'.Spent q := by
  rcases hq with hq | ⟨x, hx, hfin⟩
  · exact .inl (hsp.retired hq)
  · by_cases he : q = p
    · subst he
      cases ho.symm.trans hx
      exact .inr ⟨o', ho', hst.finalized hfin⟩
    · exact .inr ⟨x, (hsp.objects q he).trans hx, hfin⟩

theorem Object.Strips.tame (h : o.Strips o') : o'.tame = o.tame := by
  unfold Object.tame
  rw [h.body]

namespace World

variable {e' : Excuse}

/-- One object changes beside its links. It carries no live record, or it keeps its hidden keys and
is excused. -/
theorem Identity.retains_of_strips (hi : w.Identity e) (hs : w.heaps[h]? = some s)
    (he : ∀ k q, e = some (k, q) → k = h ∧ q = p) (hsp : s.Spares (· ≠ p) s')
    (ho : s.object? p = some o) (ho' : s'.object? p = some o') (hst : o.Strips o')
    (hlink : w.Unlinked h p ∨ o'.hidden = o.hidden ∧ e' = some (h, p)) :
    w.Preserves e e' h s s' := by
  have htidy := hi.tidy h s hs
  have hforth : ∀ q x, s.object? q = some x → ∃ x', s'.object? q = some x' ∧ x.Strips x' := by
    intro q x hx
    by_cases hq : q = p
    · subst hq
      cases ho.symm.trans hx
      exact ⟨o', ho', hst⟩
    · exact ⟨x, (hsp.objects q hq).trans hx, .refl x⟩
  have hback : ∀ q x', s'.object? q = some x' → ∃ x, s.object? q = some x ∧ x.Strips x' := by
    intro q x' hx'
    by_cases hq : q = p
    · subst hq
      cases ho'.symm.trans hx'
      exact ⟨o, ho, hst⟩
    · exact ⟨x', (hsp.objects q hq).symm.trans hx', .refl x'⟩
  have hfinalizes : ∀ q b, s.Finalizes q b → s'.Finalizes q b := by
    rintro q b ⟨f, name, hf, hbody⟩
    obtain ⟨f', hf', hstrip⟩ := hforth q f hf
    exact ⟨f', name, hf', hstrip.body.trans hbody⟩
  refine ⟨?_, ?_, ⟨?_, ?_, ?_⟩, ?_, ?_⟩
  · rintro b ⟨st, q, hst, hq, hfin⟩
    obtain ⟨st', hst', hstrip⟩ := hforth _ st hst
    exact ⟨st', q, by rw [hsp.stash]; exact hst', hstrip.equips.trans hq, hfinalizes q b hfin⟩
  · rintro r x i br d hx hbr hbh - ⟨y, q, hy, hkey, hcls, hfin, hfq⟩ hunstarted
    by_cases hp : x.ptr = p
    · rcases hlink with hun | ⟨hhidden, hexcuse⟩
      · exact absurd hp (hun r x i br hx hbr hbh)
      · rw [hp] at hy ⊢
        cases ho.symm.trans hy
        refine ⟨⟨o', q, ho', ?_, ?_, hst.finalizer.trans hfin, hfinalizes q _ hfq⟩, .inr hexcuse⟩
        · rw [hhidden]
          exact hkey
        · rw [hhidden]
          exact hcls
    · have hsame := hsp.objects x.ptr hp
      refine ⟨⟨y, q, hsame.trans hy, hkey, hcls, hfin, hfinalizes q _ hfq⟩, .inl fun y' hy' => ?_⟩
      rcases hunstarted with hu | hexcused
      · exact hu y' (hsame.symm.trans hy')
      · exact absurd (he _ _ hexcused).2 hp
  · intro st' hst'
    obtain ⟨st, hst, hstrip⟩ := hback _ st' hst'
    exact hstrip.wrapper (htidy.stash st (hsp.stash ▸ hst))
  · intro st' hst' hnone
    obtain ⟨st, hst, hstrip⟩ := hback _ st' hst'
    rw [hstrip.equips]
    exact htidy.keyed st (hsp.stash ▸ hst) (hstrip.bridge ▸ hnone)
  · intro q x' f g' hx' hf hg'
    obtain ⟨x, hx, hstrip⟩ := hback q x' hx'
    obtain ⟨g, hg, hstripg⟩ := hback f g' hg'
    rw [hstripg.tame]
    exact htidy.tame q x f g hx (hstrip.finalizer ▸ hf) hg
  · intro q x' name arity b c hx' hbody
    obtain ⟨x, hx, hstrip⟩ := hback q x' hx'
    exact hi.bound h s q x name arity b c hs hx (hstrip.body.symm.trans hbody)
  · intro q x' r hx' hkey
    obtain ⟨x, hx, hstrip⟩ := hback q x' hx'
    exact hi.carried h s q x r hs hx (hstrip.record r hkey)

end World

/-! ## Giving up the record of a wrapper -/

theorem Object.strips_of_hidden (hbody : o'.body = o.body) (hfinalizer : o'.finalizer = o.finalizer)
    (hfinalized : o'.finalized = o.finalized)
    (hget : ∀ k', o'.hidden.get? k' = if k' = k then none else o.hidden.get? k')
    (hbridge : k ≠ bridgeKey) (hequips : k ≠ finalizerKey) : o.Strips o' := by
  refine ⟨hbody, hfinalizer, (hget _).trans (if_neg hbridge.symm),
    (hget _).trans (if_neg hequips.symm), fun hnone => ?_, fun h => hfinalized.trans h, fun r hr => ?_⟩
  · rw [hget, hnone, ite_self]
  · rw [hget] at hr
    split at hr
    · simp at hr
    · exact hr

def Heap.bare (s : Heap) (p : HeapPtr) (k : String) : Heap :=
  s.modifyObject p fun o => { o with hidden := o.hidden.erase k }

namespace Heap

theorem object?_bare (ho : s.object? p = some o) :
    (s.bare p k).object? p = some { o with hidden := o.hidden.erase k } := by
  refine (Table.get?_modify _ _ _ _).trans ((if_pos rfl).trans ?_)
  exact congrArg _ ho

theorem spares_bare (s : Heap) (p : HeapPtr) (k : String) : s.Spares (· ≠ p) (s.bare p k) :=
  ⟨rfl, rfl, rfl, rfl, rfl, fun _ hq => (Table.get?_modify _ _ _ _).trans (if_neg hq), fun _ hp => hp⟩

theorem bare_of_not_has (ho : s.object? p = some o) (hk : o.hidden.has k = false) : s.bare p k = s := by
  have herase : o.hidden.erase k = o.hidden := KeyMap.erase_of_not_has hk
  have htable : s.table.modify p (fun o => { o with hidden := o.hidden.erase k }) = s.table :=
    Table.modify_of_get? ho (by rw [herase])
  unfold bare modifyObject
  rw [htable]

end Heap

theorem Object.strips_bare (hbridge : k ≠ bridgeKey) (hequips : k ≠ finalizerKey) :
    o.Strips { o with hidden := o.hidden.erase k } :=
  Object.strips_of_hidden rfl rfl rfl (o.hidden.get?_erase k) hbridge hequips

namespace M

theorem exec_delHidden {i : Int} (hs : w.heaps[h]? = some s) (hv : s.value? i = some (.object p))
    (ho : s.object? p = some o) :
    (onHeap h (·.delHidden i k)).exec w = (.ok (o.hidden.has k), w.setHeap h (s.bare p k)) := by
  have hdel : s.delHidden i k = if o.hidden.has k then .ok (true, s.bare p k) else .ok (false, s) := by
    unfold delHidden
    rw [hv]
    simp only [deref, ho]
    rfl
  refine exec_onHeap_ok hs ?_
  rw [hdel]
  cases hk : o.hidden.has k with
  | true => rfl
  | false => rw [if_neg Bool.false_ne_true, bare_of_not_has ho hk]

theorem exec_dropRecord (hs : w.heaps[h]? = some s) (hv : s.value? 0 = some (.object p))
    (ho : s.object? p = some o) (hx : w.records[r]? = some x) (hd : w.classes[x.cls]? = some d) :
    (dropRecord host b h r).exec w =
      (if x.severed then modifyRecord r fun x => { x with ptr := .null } else unlink host b r).exec
        (w.setHeap h ((s.bare p objectKey).bare p d.key)) := by
  have hs1 := get_setHeap hs (s.bare p objectKey)
  have hv1 := ((spares_bare s p objectKey).value? 0).trans hv
  have hclass : (classDecl x.cls).exec (w.setHeap h (s.bare p objectKey)) =
      (.ok d, w.setHeap h (s.bare p objectKey)) := exec_classDecl_eq_ok.mpr ⟨hd, rfl⟩
  unfold dropRecord
  rw [bind_ok (exec_record_eq_ok.mpr ⟨hx, rfl⟩), bind_ok (exec_delHidden hs hv ho),
    bind_ok hclass, bind_ok (exec_delHidden hs1 hv1 (object?_bare ho)),
    setHeap_setHeap]

theorem exec_unlink {i : ShareId} {n : NativeObject} (hx : w.Live r x i)
    (hd : w.classes[x.cls]? = some d) (hi : w.shares[i]? = some sh)
    (hn : w.natives[sh.object]? = some n) (hr : n.token.record = some r) :
    (unlink host b r).exec w = (do
      reportFinalized b d
      release host i : M Unit).exec
      (w.detach sh.object r fun x => { x with share := none, ptr := .null }) := by
  unfold unlink
  rw [bind_ok (exec_record_eq_ok.mpr ⟨hx.1, rfl⟩), bind_ok (exec_classDecl_eq_ok.mpr ⟨hd, rfl⟩),
    bind_ok (exec_need_eq_ok.mpr ⟨hx.2.2, rfl⟩), bind_ok (exec_share_eq_ok.mpr ⟨hi, rfl⟩),
    bind_ok (exec_native hn)]
  simp only [hr, if_true]
  rfl

theorem after_unlink_none (hx : w.records[r]? = some x) (hnone : x.share = none) : (unlink host b r).after w = w := by
  unfold unlink
  rw [after_bind_ok (exec_record_eq_ok.mpr ⟨hx, rfl⟩)]
  rcases he : (classDecl x.cls).exec w with ⟨e | d, w'⟩
  · rw [after_bind_error he]
    exact (reads_classDecl x.cls).exec he
  · obtain rfl := (reads_classDecl x.cls).exec he
    rw [after_bind_ok he, hnone, after_bind_error (exec_need_none w')]

end M

theorem sound_bare (hw : w.Sound) (hs : w.heaps[h]? = some s) (hv : s.value? 0 = some (.object p))
    (ho : s.object? p = some o) : (w.setHeap h (s.bare p k)).Sound := by
  have hgood := (plain_delHidden (R := plain) (h := h) 0 k).good hw
  rw [after_eq (exec_delHidden hs hv ho)] at hgood
  exact hgood.1

theorem fixes_reportFinalized (b : BridgeId) (d : ClassDecl) : M.Fixes World.unreported (reportFinalized b d) := by
  unfold reportFinalized
  refine M.Fixes.bind (fixes_modify fun _ => rfl) fun _ => ?_
  exact M.Fixes.bind ((reads_bridge _).fixes _) fun _ => fixes_log (fun _ _ => rfl) _ _ _ _

namespace World

variable {i : ShareId}

theorem unreported_eq (hu : w'.unreported = w.unreported) :
    w'.heaps = w.heaps ∧ w'.classes = w.classes ∧ w'.natives = w.natives ∧
      w'.controls = w.controls ∧ w'.shares = w.shares ∧ w'.records = w.records ∧
      w'.names.shares = w.names.shares := by
  have h : ∀ {α : Type} (f : World → α), f w'.unreported = f w.unreported := fun f => congrArg f hu
  exact ⟨h heaps, h classes, h natives, h controls, h shares, h records, h fun w => w.names.shares⟩

/-- What follows once a record is detached leaves heaps, classes and records alone, and destroys no
object but the one that the share is of. -/
theorem spares_tail (hl : w.Ledger) (hloose : w.Loose i) (hi : w.shares[i]? = some sh)
    (he : (do reportFinalized b d; release (hostAt n) i : M Unit).after w = w')
    (ho : w'.orderly = true) : w'.heaps = w.heaps ∧ w'.classes = w.classes ∧
      w'.records = w.records ∧ ∀ a, a ≠ sh.object → w.Free a → w'.Free a := by
  have hu := fixes_reportFinalized b d w
  rcases hr : (reportFinalized b d).exec w with ⟨e | _, w1⟩
  · rw [after_bind_error hr] at he
    subst he
    rw [after_eq hr] at hu
    obtain ⟨hheaps, hclasses, hnatives, hcontrols, -, hrecords, -⟩ := unreported_eq hu
    exact ⟨hheaps, hclasses, hrecords, fun a _ ha => ha.of_books hnatives hcontrols⟩
  · rw [after_bind_ok hr] at he
    subst he
    rw [after_eq hr] at hu
    obtain ⟨hheaps, hclasses, hnatives, hcontrols, hshares, hrecords, hnamed⟩ := unreported_eq hu
    have hl1 : w1.Ledger := hl.congr hnatives hcontrols hshares hrecords hnamed
    have hloose1 : w1.Loose i := hloose.transfer (Nat.le_of_eq (by rw [hshares])) fun r x hx =>
      hx.transfer hrecords.symm
    obtain ⟨-, sh', hi', hr1⟩ := reckons_release hl1 hloose1 ho
    cases hi.symm.trans (hshares ▸ hi')
    refine ⟨hr1.heaps.trans hheaps, hr1.classes.trans hclasses, hr1.records.trans hrecords, fun a ha hfree => ?_⟩
    refine (hfree.of_books hnatives hcontrols).transfer (hr1.tokens a) fun t c k' ht hc hk' hd => ?_
    refine (hr1.destroyed c k' hk' hd).resolve_left ?_
    rintro rfl
    obtain ⟨t', ht', hc'⟩ := hl1.shared i sh hi'
    exact ha (hl1.object_unique ht hc ht' hc')

theorem Identity.sustains_editRecord (hi : w.Identity e) {f : Record → Record}
    (hf : ∀ x, (f x).severed = x.severed ∧ (f x).share = x.share) (hr : ∀ x i, ¬ w.Live r x i) :
    Sustains e w { w with records := w.records.modify r f } := by
  have hlive := live_editRecord hf hr
  obtain ⟨hid, hcarries⟩ := hi.rebook (hi.ledger.editRecord hf hr) rfl rfl rfl rfl
    (fun r' x i => (hlive r' x i).mp) (Nat.le_of_eq Array.size_modify.symm)
  have hlasts : w.Lasts { w with records := w.records.modify r f } := by
    refine ⟨hcarries, fun i hl => hl.transfer (Nat.le_refl _) fun r' x => (hlive r' x i).mp,
      spent_of_eq rfl, id, ?_, fun r' x i _ hx _ => .inl ((hlive r' x i).mpr hx)⟩
    rintro r' ⟨x, hx, hsev⟩
    obtain ⟨x', hx', hsame⟩ := modify_forth (j := r) (fun x => (hf x).1) hx
    exact ⟨x', hx', hsame.trans hsev⟩
  exact ⟨hid, hlasts.continues rfl⟩

theorem Identity.sustains_strips (hi : w.Identity none) (hs : w.heaps[h]? = some s)
    (hun : w.Unlinked h p) (hsp : s.Spares (· ≠ p) s') (ho : s.object? p = some o)
    (ho' : s'.object? p = some o') (hst : o.Strips o') : Sustains none w (w.setHeap h s') :=
  hi.sustains_setHeap hs (hi.retains_of_strips hs (nofun) hsp ho ho' hst (.inl hun)) (nofun) (hsp.spent ho ho' hst)

theorem sustains_dropDead (hid : w.Identity none) (hs : w.heaps[h]? = some s)
    (hv : s.value? 0 = some (.object p)) (ho : s.object? p = some o) (hun : w.Unlinked h p)
    (hx : w.records[r]? = some x) (hdead : ∀ x i, ¬ w.Live r x i)
    (he : (dropRecord (hostAt n) b h r).after w = w') :
    Sustains none w w' ∧ w.Spares h (· ≠ p) w' := by
  have hsp1 := s.spares_bare p objectKey
  have ho1 := object?_bare (k := objectKey) ho
  have hst1 := Object.strips_bare (o := o) (k := objectKey) (by decide) (by decide)
  cases hd : w.classes[x.cls]? with
  | none =>
    -- The class is not there, so the run ends once the first key is gone.
    have hread : (record r).exec w = (.ok x, w) := exec_record_eq_ok.mpr ⟨hx, rfl⟩
    unfold dropRecord at he
    rw [after_bind_ok hread, after_bind_ok (exec_delHidden hs hv ho),
      show (classDecl x.cls >>= _).after (w.setHeap h (s.bare p objectKey)) = _ from
        after_look_none hd] at he
    exact he ▸ ⟨hid.sustains_strips hs hun hsp1 ho ho1 hst1, spares_setHeap hs hsp1⟩
  | some d =>
    obtain ⟨hbridge, -, hequips⟩ := hid.key_ne hd
    let s2 := (s.bare p objectKey).bare p d.key
    have hsp : s.Spares (· ≠ p) s2 := hsp1.trans (spares_bare _ p d.key)
    have hgood : Sustains none w (w.setHeap h s2) :=
      hid.sustains_strips hs hun hsp ho (object?_bare ho1) (hst1.trans (Object.strips_bare hbridge hequips))
    have hspares : w.Spares h (· ≠ p) (w.setHeap h s2) := spares_setHeap hs hsp
    rw [after, exec_dropRecord hs hv ho hx hd] at he
    cases hsev : x.severed with
    | true =>
      rw [hsev, if_pos rfl] at he
      let f : Record → Record := fun x => { x with ptr := .null }
      have hf : ∀ x, (f x).severed = x.severed ∧ (f x).share = x.share := fun _ => ⟨rfl, rfl⟩
      have hedit := hgood.1.sustains_editRecord hf hdead
      refine he ▸ ⟨hgood.trans hedit, hspares.trans ?_⟩
      exact ⟨fun s hs => ⟨s, hs, .refl _ s⟩, fun _ _ => rfl, rfl,
        fun r' x i => (live_editRecord hf hdead r' x i).mp, fun _ ho => ho⟩
    | false =>
      rw [hsev, if_neg Bool.false_ne_true] at he
      have hnone : x.share = none := by
        cases hsh : x.share with
        | none => rfl
        | some i => exact absurd ⟨hx, hsev, hsh⟩ (hdead x i)
      have hend : (unlink (hostAt n) b r).after (w.setHeap h s2) = w.setHeap h s2 :=
        after_unlink_none (x := x) hx hnone
      exact (hend.symm.trans he) ▸ ⟨hgood, hspares⟩

/-- Dropping the live record of a wrapper that is past its finalizer: the record is detached, and
its share is given up. -/
theorem sustains_dropLive (hw : w.Sound) (hid : w.Identity e) (hs : w.heaps[h]? = some s)
    (hexcuse : ∀ k q, e = some (k, q) → k = h ∧ q = p) (hv : s.value? 0 = some (.object p))
    (ho : s.object? p = some o) (hkey : o.hidden.get? objectKey = some (.pointer (.record (some r))))
    (hx : w.Live r x i) (hlost : w.forced = true ∨ o.finalized = true)
    (he : (dropRecord (hostAt n) b h r).after w = w') (hw' : w'.Settled) :
    Sustains none w w' ∧ w.Spares h (· ≠ p) w' := by
  obtain ⟨hp, br, hbr, hbh⟩ := (hid.carried h s p o r hs ho hkey).2 x i hx
  obtain ⟨-, d, -, -, hd, -⟩ := hid.linked r x i hx
  obtain ⟨sh, -, hi, -⟩ := hid.ledger.held r x i hx
  obtain ⟨t, ht, hr⟩ := hid.ledger.pointed r sh.object ⟨x, i, sh, hx, hi, rfl⟩
  obtain ⟨nat, hn, rfl⟩ := Option.map_eq_some_iff.mp ht
  obtain ⟨hbridge, -, hequips⟩ := hid.key_ne hd
  let s2 := (s.bare p objectKey).bare p d.key
  have hsp : s.Spares (· ≠ p) s2 := (s.spares_bare p objectKey).trans (spares_bare _ p d.key)
  have ho1 := object?_bare (k := objectKey) ho
  have ho2 := object?_bare (k := d.key) ho1
  have hst := (Object.strips_bare (o := o) (k := objectKey) (by decide) (by decide)).trans
    (Object.strips_bare (k := d.key) hbridge hequips)
  -- The record is detached after its wrapper lost its keys. Links see it the other way round.
  let f : Record → Record := fun x => { x with share := none, ptr := .null }
  let w1 := w.detach sh.object r f
  have hdetached : Sustains e w w1 := by
    refine hid.sustains_detach (fun _ => rfl) ht hr (fun _ h => h) fun y j br' hy hbr' => .inr ?_
    cases hx.1.symm.trans hy.1
    cases hbr.symm.trans hbr'
    exact hlost.imp_right fun hfin => ⟨s, hbh ▸ hs, .inr ⟨o, hp ▸ ho, hfin⟩⟩
  have hun : w1.Unlinked h p := hdetached.1.unlinked hs ho fun r' y j hy hkey' => by
    obtain ⟨hne, -⟩ := (live_detach fun _ => rfl).mp hy
    rw [hkey] at hkey'
    exact hne (by simpa using hkey'.symm)
  have hpardoned : w1.Identity none := hdetached.1.pardon fun k q hkq => by
    obtain ⟨rfl, rfl⟩ := hexcuse k q hkq
    exact hun
  have hstripped : Sustains none w1 (w1.setHeap h s2) := hpardoned.sustains_strips hs hun hsp ho ho2 hst
  have hunlink : (unlink (hostAt n) b r).exec (w.setHeap h s2) = (do
      reportFinalized b d
      release (hostAt n) i : M Unit).exec (w1.setHeap h s2) :=
    exec_unlink (w := w.setHeap h s2) hx hd hi hn hr
  rw [after, exec_dropRecord hs hv ho hx.1 hd, hx.2.1, if_neg Bool.false_ne_true, hunlink] at he
  have hloose1 : w1.Loose i := hid.ledger.loose_detach (fun _ => rfl) hx
  have hloose : (w1.setHeap h s2).Loose i := hloose1
  refine ⟨?_, ?_⟩
  · have hsound2 : (w.setHeap h s2).Sound := by
      have hs1 := get_setHeap hs (s.bare p objectKey)
      have hsound := sound_bare (k := d.key) (sound_bare (k := objectKey) hw hs hv ho) hs1
        (((s.spares_bare p objectKey).value? 0).trans hv) ho1
      rwa [setHeap_setHeap] at hsound
    have hsound : (w1.setHeap h s2).Sound :=
      (plain_detach (f := fun x => { x with share := none, ptr := .null }) (fun _ => ⟨rfl, rfl⟩) hsound2).1
    have hkeeps : Regime.Keeps (R := identity) (Regime.Loose i) (do
        reportFinalized b d
        release (hostAt n) i : M Unit) :=
      (keeps_reportFinalized b d).bind fun _ w hw hF => identity_releases hw hF
    obtain ⟨hinv, hrel⟩ := hkeeps (w1.setHeap h s2) ⟨hsound, fun _ => hstripped.1⟩ fun _ => hloose
    rw [after, he] at hinv hrel
    exact (hdetached.trans hstripped).trans ⟨hinv.2 hw', hrel.2 hw'⟩
  · obtain ⟨hheaps, hclasses, hrecords, hfree⟩ :=
      spares_tail hstripped.1.ledger hloose hi he hw'.orderly
    refine ⟨fun z hz => ?_, fun k hk => ?_, hclasses, fun r' y j hy => ?_, fun a ha => ?_⟩
    · cases hs.symm.trans hz
      refine ⟨s2, ?_, hsp⟩
      rw [hheaps]
      exact get_setHeap (w := w1) hs s2
    · rw [hheaps]
      exact (heaps_setHeap (w := w1) hs s2 k).trans (if_neg hk)
    · have hy1 : w1.Live r' y j := hy.transfer hrecords.symm
      exact ((live_detach fun _ => rfl).mp hy1).2
    · have hne : a ≠ sh.object := by
        rintro rfl
        obtain ⟨⟨t', ht', hnone⟩, -⟩ := ha
        cases ht.symm.trans ht'
        cases hr.symm.trans hnone
      have htoken : w1.token? a = w.token? a := (token?_detach (r := r) (f := f) a).trans (if_neg hne)
      exact hfree a hne (ha.transfer htoken fun _ _ k' _ _ hk' hd => ⟨k', hk', hd⟩)

/-! ## The finalizer -/

/-- The world in which it was noted that the finalizer of a bridge runs on a heap. -/
def noting (w : World) (s : Heap) : World := { w with forced := w.forced || s.premature }

theorem Identity.sustains_noting (hi : w.Identity e) (s : Heap) : Sustains e w (w.noting s) := by
  have hkept : (w.noting s).Identity e ∧ w.Carries (w.noting s) :=
    hi.rebook (hi.ledger.congr rfl rfl rfl rfl rfl) rfl rfl rfl rfl (fun _ _ _ hx => hx) (Nat.le_refl _)
  have hlasts : w.Lasts (w.noting s) :=
    .of_records hkept.2 (fun _ h => h) (spent_of_eq rfl) (Bool.or_eq_true_iff.mpr ∘ .inl) rfl
  exact ⟨hkept.1, hlasts.continues rfl⟩

theorem spares_noting (w : World) (s : Heap) (kept : HeapPtr → Prop) : w.Spares h kept (w.noting s) :=
  ⟨fun s hs => ⟨s, hs, .refl _ s⟩, fun _ _ => rfl, rfl, fun _ _ _ hx => hx, fun _ ho => ho⟩

theorem sound_noting (hw : w.Sound) (s : Heap) : (w.noting s).Sound := hw.of_heaps_eq rfl rfl (Nat.le_refl _)

end World

namespace M

theorem exec_requireStack_noting (hs : w.heaps[h]? = some s) (hroom : s.requireStack 1 = .ok ()) :
    (readHeap h (·.requireStack 1)).exec (w.noting s) = (.ok (), w.noting s) :=
  exec_readHeap_eq_ok.mpr ⟨s, hs, hroom, rfl⟩

theorem exec_noteFinalizer (hs : w.heaps[h]? = some s) : (noteFinalizer h).exec w = (.ok (), w.noting s) := by
  show (Except.ok (), { w with forced := w.forced || (w.heaps[h]?).any premature }) = _
  rw [hs]
  rfl

theorem exec_finalize (hs : w.heaps[h]? = some s) (hroom : s.requireStack 1 = .ok ())
    (hv : s.value? 0 = some (.object p)) (ho : s.object? p = some o) :
    (finalize host b h).exec w =
      match o.hidden.get? objectKey with
      | some (.pointer (.record (some r))) =>
        (do dropRecord host b h r; return 0 : M Int).exec (w.noting s)
      | _ => (.ok 0, w.noting s) := by
  have hbottom : s.bottom ≤ s.stack.size := by
    unfold value? position? at hv
    simp only [Int.lt_irrefl, if_false] at hv
    split at hv
    · simp at hv
    · omega
  have hs1 : (w.noting s).heaps[h]? = some s := hs
  -- The value of the key goes onto the stack and comes off again.
  have hget := getHidden_eq hv ho objectKey
  generalize hkey : o.hidden.get? objectKey = found at hget
  let v := found.getD .undefined
  have hs2 : ((w.noting s).setHeap h (s.push v)).heaps[h]? = some (s.push v) := get_setHeap hs1 _
  have hcaught : (catchFault (onHeap h (·.getHidden 0 objectKey))).exec (w.noting s) =
      (.ok (.ok found.isSome), (w.noting s).setHeap h (s.push v)) := by
    rw [exec_catchFault, exec_onHeap_ok hs1 hget]
    rfl
  have hpop : (changeHeap h (·.popN 1)).exec ((w.noting s).setHeap h (s.push v)) = (.ok (), w.noting s) := by
    rw [exec_changeHeap_ok hs2 (popN_push hbottom v), setHeap_setHeap, setHeap_self hs1]
  unfold Bridge.finalize
  rw [bind_ok (exec_noteFinalizer hs), bind_ok (exec_requireStack_noting hs hroom), bind_ok hcaught,
    bind_ok (exec_heap hs2)]
  simp only
  rw [bind_ok hpop]
  unfold getPointer
  rw [value?_push hbottom v]
  cases found with
  | none => rfl
  | some u =>
    cases u with
    | pointer q =>
      cases q with
      | record r => cases r <;> rfl
      | _ => rfl
    | _ => rfl

end M

namespace World

/-- The finalizer of wrappers for an object: it may begin with the object excused, and ends with none
excused. -/
theorem sustains_finalize (hw : w.Sound) (hid : w.Identity e) (hs : w.heaps[h]? = some s)
    (hexcuse : ∀ k q, e = some (k, q) → k = h ∧ q = p) (hroom : s.requireStack 1 = .ok ())
    (hv : s.value? 0 = some (.object p)) (he : (finalize (hostAt n) b h).after w = w')
    (hw' : w'.Settled) : Sustains none w w' ∧ w.Spares h (· ≠ p) w' := by
  have hnoted := hid.sustains_noting s
  have hs1 : (w.noting s).heaps[h]? = some s := hs
  have hpardon : (w.noting s).Unlinked h p → (w.noting s).Identity none := fun hun =>
    hnoted.1.pardon fun k q hkq => by
      obtain ⟨rfl, rfl⟩ := hexcuse k q hkq
      exact hun
  have hended : (w.noting s).Unlinked h p → w' = w.noting s → Sustains none w w' ∧ w.Spares h (· ≠ p) w' := by
    rintro hun rfl
    exact ⟨⟨hpardon hun, hnoted.2⟩, spares_noting w s _⟩
  cases ho : s.object? p with
  | none =>
    have hcrash : (catchFault (onHeap h (·.getHidden 0 objectKey))).exec (w.noting s) =
        (.error (.crash .runtime), w.noting s) := by
      rw [exec_catchFault, exec_onHeap_error hs1 (getHidden_missing hv ho objectKey)]
      rfl
    refine hended (fun r x i br hx hbr hbh hp => ?_) ?_
    · obtain ⟨br', d, t, hbr', -, ht, ⟨o, q, ho', -⟩, -⟩ := hnoted.1.linked r x i hx
      cases hbr.symm.trans hbr'
      rw [hbh] at ht
      cases hs1.symm.trans ht
      rw [hp, ho] at ho'
      simp at ho'
    · unfold Bridge.finalize at he
      rw [after_bind_ok (exec_noteFinalizer hs), after_bind_ok (exec_requireStack_noting hs hroom),
        after_bind_error hcrash] at he
      exact he.symm
  | some o =>
    rw [after, exec_finalize hs hroom hv ho] at he
    split at he
    case h_1 r hkey =>
      have he : (dropRecord (hostAt n) b h r).after (w.noting s) = w' := by
        rcases hd : (dropRecord (hostAt n) b h r).exec (w.noting s) with ⟨f | _, w2⟩
        · rw [bind_error hd] at he
          exact (after_eq hd).trans he
        · rw [bind_ok hd] at he
          exact (after_eq hd).trans he
      have hspares := spares_noting (h := h) w s (· ≠ p)
      by_cases hlive : ∃ x i, (w.noting s).Live r x i
      · obtain ⟨x, i, hx⟩ := hlive
        have hlost : (w.noting s).forced = true ∨ o.finalized = true := by
          cases hfin : o.finalized with
          | true => exact .inr rfl
          | false =>
            left
            show (w.forced || s.premature) = true
            unfold premature
            simp [hv, Value.object?, ho, hfin]
        obtain ⟨hsus, hsp⟩ := sustains_dropLive (sound_noting hw s) hnoted.1 hs1 hexcuse hv ho hkey hx hlost he hw'
        exact ⟨hnoted.trans hsus, hspares.trans hsp⟩
      · have hdead : ∀ x i, ¬ (w.noting s).Live r x i := fun x i hx => hlive ⟨x, i, hx⟩
        have hun : (w.noting s).Unlinked h p := hnoted.1.unlinked hs1 ho fun r' x i hx hkey' => by
          rw [hkey] at hkey'
          obtain rfl : r = r' := by simpa using hkey'
          exact hdead x i hx
        obtain ⟨x, hx⟩ : ∃ x, (w.noting s).records[r]? = some x :=
          ⟨_, Array.getElem?_eq_getElem (hnoted.1.carried h s p o r hs1 ho hkey).1⟩
        obtain ⟨hsus, hsp⟩ := sustains_dropDead (hpardon hun) hs1 hv ho hun hx hdead he
        exact ⟨⟨hsus.1, hnoted.2.trans hsus.2⟩, hspares.trans hsp⟩
    case h_2 hkey =>
      exact hended (hnoted.1.unlinked hs1 ho fun r x i _ hkey' => hkey r hkey') he.symm

end World

theorem identity_finalizes {n : Nat} (hw : identity.inv w) : identity.Good w ((finalize (hostAt n) b h).after w) := by
  have hplain : plain.Good w _ := plain_finalizeWrapper (plain_serves n) (b := b) (h := h) hw.1 trivial
  refine identified_of hw hplain fun hw' hws hid => ?_
  generalize he : (finalize (hostAt n) b h).after w = w' at hw' hplain
  cases hs : w.heaps[h]? with
  | none =>
    have hnote : (noteFinalizer h).exec w = (.ok (), w) := by
      show (Except.ok (), { w with forced := w.forced || (w.heaps[h]?).any premature }) = _
      rw [hs, Option.any_none, Bool.or_false]
    have hgood : identity.Good w w' := by
      rw [← he]
      unfold Bridge.finalize
      rw [after_bind_ok hnote]
      refine Good.bind_reads hw (reads_readHeap h _) fun _ hread => ?_
      obtain ⟨s, hs', -⟩ := exec_readHeap_eq_ok.mp hread
      cases hs.symm.trans hs'
    exact ⟨hgood.1.2 hw', hgood.2.2 hw'⟩
  | some s =>
    have hnoted := hid.sustains_noting s
    by_cases hv : ∃ p, s.value? 0 = some (.object p) ∧ s.requireStack 1 = .ok ()
    · obtain ⟨p, hv, hroom⟩ := hv
      exact (sustains_finalize hw.1 hid hs (nofun) hroom hv he hw').1
    · -- The finalizer finds no object, so there is nothing to drop.
      have hinv : identity.inv (w.noting s) := ⟨sound_noting hw.1 s, fun _ => hnoted.1⟩
      have hgood : identity.Good (w.noting s) w' := by
        rw [← he]
        unfold Bridge.finalize
        rw [after_bind_ok (exec_noteFinalizer hs)]
        refine Good.bind_reads hinv (reads_readHeap h _) fun _ hread => ?_
        obtain ⟨s', hs', hroom, -⟩ := exec_readHeap_eq_ok.mp hread
        cases hs.symm.trans hs'
        have hget := getHidden_mismatch (fun p hp => hv ⟨p, hp, hroom⟩) objectKey
        have hkeeps : Keeps (R := identity) noFact (catchFault (onHeap h (·.getHidden 0 objectKey))) :=
          (keeps_onHeap amends_getHidden).catchFault
        refine Good.bind (hkeeps _ hinv trivial) fun found w2 hfound hg2 => ?_
        rw [exec_catchFault, exec_onHeap_error hs' hget] at hfound
        obtain ⟨f, rfl⟩ : ∃ f, found = .error f := by
          cases hm : s.mismatch 0 "object" with
          | fault f =>
            rw [hm] at hfound
            exact ⟨f, (Except.ok.inj (Prod.mk.inj hfound).1).symm⟩
          | crash c =>
            rw [hm] at hfound
            exact absurd (Prod.mk.inj hfound).1 (by simp [caught])
        refine Good.bind_reads hg2.1 (reads_heap h) fun s2 _ => ?_
        exact Good.bind ((keeps_popN h 1).good hg2.1) fun _ _ _ hg3 => .refl hg3.1
      exact hnoted.trans ⟨hgood.1.2 hw', hgood.2.2 hw'⟩

end Tether
