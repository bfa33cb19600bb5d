import Tether.Proofs.Identity

/-!
# The regime of identity

The identity of native objects is promised for worlds in which nobody broke the rules of bridges. So
the regime asks for it under that condition only, and every law has to be shown for steps whose
result is such a world.
-/

namespace Tether

variable {w w' : World} {s : Heap} {h : HeapId} {e e' : Excuse} {w1 w2 w3 : World} {s' : Heap}
  {o : NativeId} {i : ShareId}

namespace World

/-- Nobody broke the rules of bridges, no heap is closed, all slots have numbers that fit into a
pointer, and the limits of stacks are integers of 64 bits. -/
structure Settled (w : World) : Prop where
  orderly : w.orderly = true
  isOpen : ∀ (h : HeapId) s, w.heaps[h]? = some s → s.closed = false
  addressable : ∀ (h : HeapId) s, w.heaps[h]? = some s → s.table.Addressable
  limited : ∀ (h : HeapId) s, w.heaps[h]? = some s → s.limits.stack < 2 ^ 63

theorem Later.settled (hl : w.Later w') (hw' : w'.Settled) : w.Settled := by
  refine ⟨hl.orderly hw'.orderly, fun h s hs => ?_, fun h s hs => ?_, fun h s hs => ?_⟩
  · obtain ⟨s', hs', hls⟩ := hl.heaps h s hs
    exact hls.isOpen (hw'.isOpen h s' hs')
  · obtain ⟨s', hs', hls⟩ := hl.heaps h s hs
    exact hls.addressable (hw'.isOpen h s' hs') (hw'.addressable h s' hs')
  · obtain ⟨s', hs', hls⟩ := hl.heaps h s hs
    rw [← hls.limits]
    exact hw'.limited h s' hs'

theorem Settled.working (hw : w.Settled) (hsound : w.Sound) (hs : w.heaps[h]? = some s) : s.Working :=
  hsound.working hs (hw.isOpen h s hs) (hw.addressable h s hs)

/-! ## What is kept -/

theorem Identity.of_state (hi : w.Identity e) (h : w'.state = w.state) : w'.Identity e := by
  obtain ⟨hheaps, hattached, hnatives, hcontrols, hshares, hrecords, hbridges, hclasses, -, hnamed, -⟩ :=
    state_eq_iff.mp h
  exact (hi.rebook (hi.ledger.congr hnatives hcontrols hshares hrecords hnamed) hheaps hbridges
    hclasses hattached (fun _ _ _ hx => hx.transfer hrecords.symm) (Nat.le_of_eq (by rw [hrecords]))).1

def Severed (w : World) (r : RecordId) : Prop := ∃ x, w.records[r]? = some x ∧ x.severed = true

end World

def Heap.Spent (s : Heap) (p : HeapPtr) : Prop := p ∈ s.retired ∨ ∃ o, s.object? p = some o ∧ o.finalized = true

theorem Heap.Follows.spent (hf : s.Follows w s') (hr : s'.retired = s.retired) (p : HeapPtr)
    (hp : s.Spent p) : s'.Spent p := by
  rcases hp with hp | ⟨o, ho, hfin⟩
  · exact .inl (hr ▸ hp)
  · obtain ⟨o', ho', hakin⟩ := hf.forth p o ho
    exact .inr ⟨o', ho', hakin.finalized.trans hfin⟩

namespace World

/-- What a settled world keeps of an earlier one. A live record stays live unless it is severed, the
finalizer of its wrapper was started or the wrapper freed; or the finalizer of a bridge was called for
an object whose finalizer was not started. -/
structure Lasts (w w' : World) : Prop extends w.Carries w' where
  loose : ∀ i, w.Loose i → w'.Loose i
  spent : ∀ (h : HeapId) s, w.heaps[h]? = some s → ∃ s' : Heap, w'.heaps[h]? = some s' ∧ ∀ p, s.Spent p → s'.Spent p
  forced : w.forced = true → w'.forced = true
  severed : ∀ r, w.Severed r → w'.Severed r
  kept : ∀ r x i br, w.Live r x i → w.bridges[x.bridge]? = some br →
    w'.Live r x i ∨ w'.Severed r ∨ w'.forced = true ∨ ∃ s' : Heap, w'.heaps[br.heapId]? = some s' ∧ s'.Spent x.ptr

/-- A settled world keeps what an earlier one had, and what the states had that steps in between began
or ended in. These have the invariant. -/
structure Continues (w w' : World) : Prop extends w.Lasts w' where
  recalled : ∀ x, w'.history (.step x) → w.history (.step x) ∨ (ofState x).Identity none ∧ (ofState x).Lasts w'

theorem Lasts.refl (w : World) : w.Lasts w :=
  ⟨.refl w, fun _ h => h, fun _ s hs => ⟨s, hs, fun _ h => h⟩, id, fun _ h => h, fun _ _ _ _ hx _ => .inl hx⟩

theorem Lasts.trans (h : w1.Lasts w2) (h' : w2.Lasts w3) : w1.Lasts w3 where
  toCarries := h.toCarries.trans h'.toCarries
  loose i hi := h'.loose i (h.loose i hi)
  spent k s hs := by
    obtain ⟨s2, hs2, hp2⟩ := h.spent k s hs
    obtain ⟨s3, hs3, hp3⟩ := h'.spent k s2 hs2
    exact ⟨s3, hs3, fun p hp => hp3 p (hp2 p hp)⟩
  forced hf := h'.forced (h.forced hf)
  severed r hr := h'.severed r (h.severed r hr)
  kept r x i br hx hbr := by
    rcases h.kept r x i br hx hbr with hx2 | hr | hf | ⟨s2, hs2, hp⟩
    · obtain ⟨br2, hbr2, hid⟩ := h.bridges x.bridge br hbr
      rw [← hid]
      exact h'.kept r x i br2 hx2 hbr2
    · exact .inr (.inl (h'.severed r hr))
    · exact .inr (.inr (.inl (h'.forced hf)))
    · obtain ⟨s3, hs3, hspent⟩ := h'.spent br.heapId s2 hs2
      exact .inr (.inr (.inr ⟨s3, hs3, hspent _ hp⟩))

theorem Lasts.of_state (h : w1.state = w.state) (hl : w.Lasts w') : w1.Lasts w' := by
  obtain ⟨hheaps, -, -, -, hshares, hrecords, hbridges, -, -, -, -, hforced, -⟩ := state_eq_iff.mp h
  refine ⟨⟨?_, ?_⟩, ?_, ?_, ?_, ?_, ?_⟩
  · rw [hbridges]
    exact hl.bridges
  · rw [hheaps]
    exact hl.heaps
  · exact fun i hi => hl.loose i (hi.transfer (Nat.le_of_eq (by rw [hshares])) fun r x hx =>
      hx.transfer hrecords)
  · rw [hheaps]
    exact hl.spent
  · rw [hforced]
    exact hl.forced
  · rintro r ⟨x, hx, hsev⟩
    exact hl.severed r ⟨x, hrecords ▸ hx, hsev⟩
  · intro r x i br hx hbr
    exact hl.kept r x i br (hx.transfer hrecords.symm) (hbridges ▸ hbr)

theorem Lasts.continues (hl : w.Lasts w') (hh : w'.history = w.history) : w.Continues w' :=
  ⟨hl, fun _ hx => .inl (hh ▸ hx)⟩

theorem Continues.refl (w : World) : w.Continues w := (Lasts.refl w).continues rfl

theorem Continues.trans (h : w1.Continues w2) (h' : w2.Continues w3) : w1.Continues w3 := by
  refine ⟨h.toLasts.trans h'.toLasts, fun x hx => ?_⟩
  rcases h'.recalled x hx with hx | hx
  · exact (h.recalled x hx).imp_right fun hx => ⟨hx.1, hx.2.trans h'.toLasts⟩
  · exact .inr hx

/-- The invariant holds in a later world, which keeps what an earlier one had. -/
def Sustains (e : Excuse) (w w' : World) : Prop := w'.Identity e ∧ w.Continues w'

theorem Sustains.trans (h : Sustains e w1 w2) (h' : Sustains e' w2 w3) : Sustains e' w1 w3 := ⟨h'.1, h.2.trans h'.2⟩

theorem Identity.sustains (hi : w.Identity e) : Sustains e w w := ⟨hi, .refl w⟩

theorem Lasts.of_records (hcarries : w.Carries w') (hloose : ∀ i, w.Loose i → w'.Loose i)
    (hspent : ∀ (h : HeapId) s, w.heaps[h]? = some s →
      ∃ s' : Heap, w'.heaps[h]? = some s' ∧ ∀ p, s.Spent p → s'.Spent p)
    (hforced : w.forced = true → w'.forced = true) (hrecords : w'.records = w.records) :
    w.Lasts w' :=
  ⟨hcarries, hloose, hspent, hforced, fun r ⟨x, hx, hsev⟩ => ⟨x, by rw [hrecords]; exact hx, hsev⟩,
    fun _ _ _ _ hx _ => .inl (hx.transfer hrecords)⟩

theorem spent_of_eq (hheaps : w'.heaps = w.heaps) (h : HeapId) (s : Heap) (hs : w.heaps[h]? = some s) :
    ∃ s' : Heap, w'.heaps[h]? = some s' ∧ ∀ p, s.Spent p → s'.Spent p :=
  ⟨s, by rw [hheaps]; exact hs, fun _ hp => hp⟩

theorem Identity.sustains_setHeap (hi : w.Identity e) (hs : w.heaps[h]? = some s)
    (hr : w.Preserves e e' h s s') (hexcuse : ∀ k p, k ≠ h → e = some (k, p) → e' = some (k, p))
    (hspent : ∀ p, s.Spent p → s'.Spent p) : Sustains e' w (w.setHeap h s') := by
  obtain ⟨hid, hcarries⟩ := hi.setHeap hs hr hexcuse
  have hlasts : w.Lasts (w.setHeap h s') := .of_records hcarries (fun _ h => h)
    (fun _ _ => heaps_setHeap_rel (P := fun s s' => ∀ p, s.Spent p → s'.Spent p) (fun _ _ => id) hs hspent) id rfl
  exact ⟨hid, hlasts.continues rfl⟩

theorem Identity.sustains_detach (hi : w.Identity e) {r : RecordId} {f : Record → Record} {t : Token}
    (hf : ∀ x, (f x).share = none) (ht : w.token? o = some t) (hr : t.record = some r)
    (hsevered : ∀ x, x.severed = true → (f x).severed = true)
    (hlost : ∀ x i br, w.Live r x i → w.bridges[x.bridge]? = some br →
      (f x).severed = true ∨ w.forced = true ∨ ∃ s : Heap, w.heaps[br.heapId]? = some s ∧ s.Spent x.ptr) :
    Sustains e w (w.detach o r f) := by
  have hlive : ∀ r' x i, (w.detach o r f).Live r' x i → w.Live r' x i := fun r' x i hx => ((live_detach hf).mp hx).2
  obtain ⟨hid, hcarries⟩ := hi.rebook (hi.ledger.detach hf ht hr) rfl rfl rfl rfl hlive
    (Nat.le_of_eq Array.size_modify.symm)
  have hmodified : ∀ x, w.records[r]? = some x → (w.detach o r f).records[r]? = some (f x) :=
    fun x hx => modify_self hx
  have hlasts : w.Lasts (w.detach o r f) := by
    refine ⟨hcarries, fun i h => h.transfer (Nat.le_refl _) fun r' x => hlive r' x i,
      spent_of_eq rfl, id, ?_, fun r' x i br hx hbr => ?_⟩
    · rintro r' ⟨x, hx, hsev⟩
      by_cases he : r' = r
      · subst he
        exact ⟨f x, hmodified x hx, hsevered x hsev⟩
      · exact ⟨x, (getElem?_modify_ne he).trans hx, hsev⟩
    · by_cases he : r' = r
      · subst he
        rcases hlost x i br hx hbr with hsev | hforced | hspent
        · exact .inr (.inl ⟨f x, hmodified x hx.1, hsev⟩)
        · exact .inr (.inr (.inl hforced))
        · exact .inr (.inr (.inr hspent))
      · exact .inl ((live_detach hf).mpr ⟨he, hx⟩)
  exact ⟨hid, hlasts.continues rfl⟩

end World

namespace Regime

def Identified (w : World) : Prop := w.Sound ∧ (w.Settled → w.Identity none)

/-- A later world; a settled one keeps what the earlier one had. -/
def Follows (w w' : World) : Prop := w.Later w' ∧ (w'.Settled → w.Continues w')

section

variable (hw : Identified w)
include hw

theorem identified_of (hplain : plain.Good w w')
    (hstep : w'.Settled → w.Settled → w.Identity none → World.Sustains none w w') :
    Identified w' ∧ Follows w w' := by
  have hsettled : w'.Settled → w.Settled := World.Later.settled hplain.2
  refine ⟨⟨hplain.1, fun hw' => ?_⟩, hplain.2, fun hw' => ?_⟩
  · exact (hstep hw' (hsettled hw') (hw.2 (hsettled hw'))).1
  · exact (hstep hw' (hsettled hw') (hw.2 (hsettled hw'))).2

theorem identified_of_books (hplain : plain.Good w w') (hledger : w'.Settled → w.Settled → w.Ledger → w'.Ledger)
    (hsize : w.shares.size ≤ w'.shares.size := by exact Nat.le_refl _)
    (hheaps : w'.heaps = w.heaps := by rfl) (hbridges : w'.bridges = w.bridges := by rfl)
    (hclasses : w'.classes = w.classes := by rfl) (hattached : w'.attached = w.attached := by rfl)
    (hrecords : w'.records = w.records := by rfl) (hforced : w'.forced = w.forced := by rfl)
    (hrecalled : ∀ x, w'.history (.step x) → w.history (.step x) ∨ x = w'.state := by exact fun _ => .inl) :
    Identified w' ∧ Follows w w' := by
  refine identified_of hw hplain fun hw' hws hi => ?_
  have hlive : ∀ r x i, w'.Live r x i → w.Live r x i := fun r x i hx => hx.transfer hrecords.symm
  obtain ⟨hid, hcarries⟩ :=
    hi.rebook (hledger hw' hws hi.ledger) hheaps hbridges hclasses hattached hlive (Nat.le_of_eq (by rw [hrecords]))
  refine ⟨hid, .of_records hcarries (fun i h => h.transfer hsize fun r x => hlive r x i)
    (World.spent_of_eq hheaps) (by rw [hforced]; exact id) hrecords, fun x hx => ?_⟩
  refine (hrecalled x hx).imp_right ?_
  rintro rfl
  exact ⟨hid.of_state rfl, World.Lasts.of_state (w := w') rfl (.refl w')⟩

theorem identified_of_state (h : w'.state = w.state)
    (hrecalled : ∀ x, w'.history (.step x) → w.history (.step x) ∨ x = w'.state) :
    Identified w' ∧ Follows w w' := by
  obtain ⟨hheaps, hattached, hnatives, hcontrols, hshares, hrecords, hbridges, hclasses, -, hnamed, -,
    hforced, -⟩ := World.state_eq_iff.mp h
  exact identified_of_books hw (sound_state hw.1 h)
    (fun _ _ hl => hl.congr hnatives hcontrols hshares hrecords hnamed)
    (Nat.le_of_eq (by rw [hshares])) hheaps hbridges hclasses hattached hrecords hforced hrecalled

/-- Changes of bridges and classes that links do not look at, and new attachments of bridges that can
make wrappers. -/
theorem identified_of_parts {bridges : Array Bridge} {classes : Array ClassDecl} {modules : Array ModuleDecl}
    {attached : List (HeapId × BridgeId)} (hplain : plain.Good w { w with bridges, classes, modules, attached })
    (hbridges : Retains Bridge.heapId w.bridges bridges) (hclasses : Retains ClassDecl.key w.classes classes)
    (hkeys : ∀ (c : ClassId) d', classes[c]? = some d' →
      (∃ d, w.classes[c]? = some d ∧ d'.key = d.key) ∨ ∃ name, d'.key = classKey name (c + 1))
    (hattached : ∀ h b, (h, b) ∈ attached → (h, b) ∈ w.attached ∨ (w.Settled → w.Serviceable b)) :
    Identified { w with bridges, classes, modules, attached } ∧
      Follows w { w with bridges, classes, modules, attached } := by
  refine identified_of hw hplain fun hw' hws hi => ?_
  have hkeyed : ∀ (c : ClassId) d', classes[c]? = some d' → ∃ name, d'.key = classKey name (c + 1) := by
    intro c d' hd'
    rcases hkeys c d' hd' with ⟨d, hd, hkey⟩ | hkey
    · rw [hkey]
      exact hi.keys c d hd
    · exact hkey
  have hledger : World.Ledger { w with bridges, classes, modules, attached } := hi.ledger.congr rfl rfl rfl rfl rfl
  obtain ⟨hid, hcarries⟩ := hi.recast hledger rfl hbridges hclasses hkeyed
    (fun h b hm => (hattached h b hm).imp_right fun hb => hb hws) (fun _ _ _ => id) (Nat.le_refl _)
  exact ⟨hid, (World.Lasts.of_records hcarries (fun _ => id) (World.spent_of_eq rfl) id rfl).continues rfl⟩

theorem identified_of_setHeap {h : HeapId} (hs : w.heaps[h]? = some s) (hplain : plain.Good w (w.setHeap h s'))
    (hretains : (w.setHeap h s').Settled → w.Settled → w.Identity none →
      w.Preserves none none h s s' ∧ ∀ p, s.Spent p → s'.Spent p) :
    Identified (w.setHeap h s') ∧ Follows w (w.setHeap h s') := by
  refine identified_of hw hplain fun hw' hws hi => ?_
  obtain ⟨hretains, hspent⟩ := hretains hw' hws hi
  exact hi.sustains_setHeap hs hretains (nofun) hspent

end

theorem keys_kept (c : ClassId) (d : ClassDecl) (hd : w.classes[c]? = some d) :
    (∃ d', w.classes[c]? = some d' ∧ d.key = d'.key) ∨ ∃ name, d.key = classKey name (c + 1) :=
  .inl ⟨d, hd, rfl⟩

theorem ledger_issue (hw : w.Ledger) (hi : w.Issues w') : w'.Ledger := by
  cases hi with
  | held hn hc => exact hw.issue (World.token?_of_native hn) hc
  | fresh hn hc =>
    have ht := World.token?_of_native hn
    exact (hw.withControl ht hc).issue (World.token?_withControl_self ht) rfl
  | again hx =>
    obtain ⟨t, ht, hc⟩ := hw.shared _ _ hx
    exact hw.issue ht hc

theorem loose_new (hw : w.Sound) (hrecords : w'.records = w.records)
    (hsize : w'.shares.size = w.shares.size + 1) : w'.Loose w.shares.size := by
  refine ⟨by rw [hsize]; exact Nat.lt_succ_self _, fun r x hx => ?_⟩
  have hlt := hw.records r x _ (hrecords ▸ hx.1) hx.2.2
  exact absurd hlt (Nat.lt_irrefl _)

theorem identified_issue (hw : Identified w) (hi : w.Issues w') :
    (Identified w' ∧ Follows w w') ∧ w'.Loose w.shares.size := by
  have hplain := sound_aside hw.1 hi.aside
  have hsize : w'.shares.size = w.shares.size + 1 := by cases hi <;> exact Array.size_push _
  have hle : w.shares.size ≤ w'.shares.size := by omega
  have hledger := fun hl : w.Ledger => ledger_issue hl hi
  cases hi <;> exact ⟨identified_of_books hw hplain (fun _ _ => hledger) hle, loose_new hw.1 rfl hsize⟩

def identity : Regime where
  inv := Identified
  rel := Follows
  usable b w := w.Settled → w.Serviceable b
  loose i w := w.Settled → w.Loose i
  deep _ _ _ := True
  sound hw := hw.1
  later h := h.1
  refl w := ⟨.refl w, fun _ => .refl w⟩
  trans h h' := ⟨h.1.trans h'.1, fun hw3 => (h.2 (h'.1.settled hw3)).trans (h'.2 hw3)⟩
  usable_stable h hb hw' := (h.2 hw').serviceable (hb (h.1.settled hw'))
  loose_stable h hi hw' := (h.2 hw').loose _ (hi (h.1.settled hw'))
  usable_attached hw hm hs := (hw.2 hs).attached _ _ hm
  usable_bound hw hs _ ho hbody := ⟨fun hsettled => (hw.2 hsettled).bound _ _ _ _ _ _ _ _ hs ho hbody, trivial⟩
  loose_named hw hm hs := (hw.2 hs).ledger.named _ _ hm
  silent hw h := identified_of_state hw h.state fun x hx =>
    (h.recalled _ hx).imp_right fun he => (Moment.step.inj he).trans h.state.symm
  underflow hw _ _ _ := identified_of_state hw (World.state_recalling _ _) fun x hx =>
    (World.history_recalling hx).imp_right nofun
  misfit hw _ _ _ _ _ := identified_of_state hw (World.state_recalling _ _) fun x hx =>
    (World.history_recalling hx).imp_right nofun
  amend hw hs ha := identified_of_setHeap hw hs (plain.amend hw.1 hs ha) fun _ hws hi =>
    ⟨hi.retains_of_follows hws.orderly hs ha.follows fun p o _ _ _ _ ho hnone _ =>
      absurd ((ha.isSome_object? p).symm.trans (Option.isSome_of_eq_some ho)) (by simp [hnone]),
      ha.follows.spent (by cases ha <;> rfl)⟩
  alloc hw hs ho hbound _ := identified_of_setHeap hw hs
    (plain.alloc hw.1 hs ho (fun _ _ _ _ _ => ⟨trivial, trivial⟩) fun _ _ _ _ => trivial) fun hw' hws hi =>
      have haddr := hw'.addressable _ _ (World.get_setHeap hs _)
      have hsound := (hws.working hw.1 hs).toSound
      have hfollows := Heap.follows_withObject hsound haddr ho
      ⟨hi.retains_of_follows hws.orderly hs hfollows fun p x name arity b c hx hnone hbody => by
        rw [Heap.object?_withObject hsound haddr] at hx
        split at hx
        · cases hx
          exact (hbound name arity b c hbody).1 hws
        · exact absurd (hnone.symm.trans hx) nofun, hfollows.spent rfl⟩
  alter {w w'} hw ha := by
    have hplain := sound_aside hw.1 ha.aside
    cases ha with
    | note => exact identified_of_books hw hplain fun _ _ hl => hl.congr rfl rfl rfl rfl rfl
    | tamper ho => exact identified_of hw hplain fun hw' => absurd (ho.symm.trans hw'.orderly) nofun
    | newNative hn hd => exact identified_of_books hw hplain fun _ hws hl => hl.newNative hn (hd hws.orderly)
    | editNative hf =>
      exact identified_of_books hw hplain fun _ _ hl => hl.editNative fun n => ⟨(hf n).1, (hf n).2.1⟩
    | newClass hkey =>
      refine identified_of_parts hw hplain (.refl _ _) (retains_push _ _ _) (fun c d hd => ?_) fun _ _ => .inl
      rw [Array.getElem?_push] at hd
      split at hd
      case isTrue hc =>
        cases hd
        exact .inr (hc ▸ hkey)
      case isFalse => exact .inl ⟨d, hd, rfl⟩
    | editClass hf =>
      exact identified_of_parts hw hplain (.refl _ _) (retains_modify _ _ fun d => (hf d).1.1)
        (fun c d hd => .inl (getElem?_modify_back (fun d => (hf d).1.1) hd)) fun _ _ => .inl
    | declare => exact identified_of_parts hw hplain (.refl _ _) (.refl _ _) keys_kept fun _ _ => .inl
    | editBridge hf =>
      exact identified_of_parts hw hplain (retains_modify _ _ fun x => (hf x).1) (.refl _ _) keys_kept fun _ _ => .inl
    | enroll =>
      exact identified_of_parts hw hplain (retains_modify _ _ fun _ => rfl) (.refl _ _) keys_kept fun _ _ => .inl
    | attach hb =>
      refine identified_of_parts hw hplain (.refl _ _) (.refl _ _) keys_kept fun h b hm => ?_
      rcases List.mem_cons.mp hm with he | hm
      · exact .inr ((Prod.mk.inj he).2 ▸ hb)
      · exact .inl hm
    | nameShare hi => exact identified_of_books hw hplain fun _ hws hl => hl.nameShare (hi hws)
  issue hw hi := (identified_issue hw hi).imp_right fun h _ => h

instance : Uncounted identity := ⟨fun hw hf => identified_of_parts hw (Uncounted.recount (R := plain) hw.1 hf)
  (retains_modify _ _ fun x => (hf x).1) (.refl _ _) keys_kept fun _ _ => .inl⟩

end Regime

end Tether
