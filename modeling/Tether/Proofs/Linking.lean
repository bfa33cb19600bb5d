import Tether.Proofs.Binding

/-!
# Native code keeps the identity of native objects
-/

namespace Tether

open M Bridge World Heap

open Bridge (bridgeKey objectKey finalizerKey)

variable {w w' : World} {h : HeapId} {u : Unit} {o : Object} {k : String} {s : Heap} {i : Int}
  {p : HeapPtr} {obj : NativeId}

theorem Heap.maybeCollect_eq_ok {host : Host} (he : (Heap.maybeCollect host h).exec w = (.ok u, w')) :
    w' = w ∨ ∃ st, (Heap.collect host h).exec w = (.ok st, w') := by
  obtain ⟨s, -, hdue⟩ := look_bind_eq_ok he
  split at hdue
  · obtain ⟨st, w2, hst, hend⟩ := bind_ok_iff.mp hdue
    cases hend
    exact .inr ⟨st, hst⟩
  · exact .inl (Prod.mk.inj hdue).2.symm

theorem Object.strips_put {v : Value} (hbridge : k ≠ bridgeKey) (hobject : k ≠ objectKey)
    (hfinalizer : k ≠ finalizerKey) : o.Strips { o with hidden := o.hidden.put k v } := by
  have hget : ∀ k', k ≠ k' → (o.hidden.put k v).get? k' = o.hidden.get? k' := fun k' hne =>
    (KeyMap.get?_put _ _ _ _).trans (if_neg hne.symm)
  exact ⟨rfl, rfl, hget _ hbridge, hget _ hfinalizer, fun hnone => (hget _ hobject).trans hnone, id,
    fun r hr => (hget _ hobject).symm.trans hr⟩

theorem World.Identity.sustains_putHidden {s' : Heap} (hi : w.Identity none) (hs : w.heaps[h]? = some s)
    (hk : k ≠ bridgeKey ∧ k ≠ objectKey ∧ k ≠ finalizerKey) (hv : s.value? i = some (.object p))
    (hun : w.Unlinked h p) (hput : s.putHidden i k = .ok s') :
    World.Sustains none w (w.setHeap h s') := by
  obtain ⟨p', hp', hput⟩ := bind_eq_ok.mp hput
  obtain rfl : p' = p := by simpa using (value?_of_requireObject hp').symm.trans hv
  obtain ⟨v, -, hput⟩ := bind_eq_ok.mp hput
  obtain ⟨o, ho, hput⟩ := bind_eq_ok.mp hput
  have ho := object?_of_deref ho
  let s1 := s.modifyObject p' fun o => { o with hidden := o.hidden.put k v }
  have hs1 := get_setHeap hs s1
  have hspares : s.Spares (· ≠ p') s1 := ⟨rfl, rfl, rfl, rfl, rfl, fun q hq =>
    (Table.get?_modify _ _ _ _).trans (if_neg hq), fun _ hq => hq⟩
  have ho1 : s1.object? p' = some { o with hidden := o.hidden.put k v } := by
    refine (Table.get?_modify _ _ _ _).trans ((if_pos rfl).trans ?_)
    exact congrArg _ ho
  have hstrips := Object.strips_put (o := o) (v := v) hk.1 hk.2.1 hk.2.2
  have hmarked : World.Sustains none w (w.setHeap h s1) := hi.sustains_setHeap hs
    (hi.retains_of_strips hs nofun hspares ho ho1 hstrips (.inl hun)) nofun
    (hspares.spent ho ho1 hstrips)
  have halike : s1.Alike s' := by
    rw [(popN_eq hput).1]
    exact ⟨rfl, rfl, rfl, rfl, rfl, rfl⟩
  have hpopped := hmarked.1.sustains_alike hs1 halike
  rw [setHeap_setHeap] at hpopped
  exact hmarked.trans hpopped

theorem World.Identity.unlinked_stash {st : Object} (hi : w.Identity none) (hs : w.heaps[h]? = some s)
    (hst : s.object? s.stash = some st) : w.Unlinked h s.stash :=
  hi.unlinked hs hst fun r x i _ => by
    rw [(hi.tidy h s hs).stash st hst]
    simp

theorem M.exec_take_ok {o : NativeId} {n : NativeObject} (hn : w.natives[o]? = some n) :
    ∃ share w', (Ownership.take o).exec w = (.ok share, w') := by
  cases hc : n.token.control with
  | some c => exact ⟨_, _, (bind_ok (exec_controlOf_some hn hc)).trans (exec_issueShare o c w)⟩
  | none => exact ⟨_, _, (bind_ok (exec_controlOf_none hn hc)).trans (exec_issueShare o _ _)⟩

theorem M.isDisposed_eq_ok {o : NativeId} {v : Bool}
    (he : (Ownership.isDisposed o).exec w = (.ok v, w')) : v = true ↔ w.Disposed o := by
  obtain ⟨n, hn, hrest⟩ := look_bind_eq_ok he
  have ht := token?_of_native hn
  cases hc : n.token.control with
  | none =>
    simp only [hc] at hrest
    obtain ⟨hv, -⟩ := Prod.mk.inj hrest
    cases hv
    refine ⟨fun h => absurd h Bool.false_ne_true, ?_⟩
    rintro ⟨t, c, k, ht', hc', -⟩
    cases ht.symm.trans ht'
    cases hc.symm.trans hc'
  | some c =>
    simp only [hc] at hrest
    obtain ⟨k, hk, hend⟩ := look_bind_eq_ok hrest
    obtain ⟨hv, -⟩ := Prod.mk.inj hend
    cases hv
    refine ⟨fun hd => ⟨n.token, c, k, ht, hc, hk, hd⟩, ?_⟩
    rintro ⟨t, c', k', ht', hc', hk', hd⟩
    cases ht.symm.trans ht'
    cases hc.symm.trans hc'
    cases hk.symm.trans hk'
    exact hd

theorem Bridge.register_eq_ok {b : BridgeId} {c : ClassId} (he : (register b c).exec w = (.ok u, w')) : ∃ bridges log,
      w' = { w with bridges, log } ∧ Retains heapId w.bridges bridges := by
  obtain ⟨_, w1, hdeclared, hrest1⟩ := bind_ok_iff.mp he
  obtain rfl := (Regime.reads_checkDeclared c).exec hdeclared
  obtain ⟨d, -, hrest2⟩ := look_bind_eq_ok hrest1
  obtain ⟨br, w3, hbr, hrest⟩ := bind_ok_iff.mp hrest2
  obtain ⟨-, rfl⟩ := exec_bridge_eq_ok.mp hbr
  split at hrest
  · split at hrest
    · obtain ⟨-, rfl⟩ := Prod.mk.inj hrest
      exact ⟨w3.bridges, w3.log, rfl, .refl _ _⟩
    · obtain ⟨_, _, -, hfail⟩ := bind_ok_iff.mp hrest
      simpa using congrArg Prod.fst hfail
  · obtain ⟨_, w4, hmod, hlog⟩ := bind_ok_iff.mp hrest
    cases hmod
    obtain ⟨log, hlog'⟩ := exec_log _ _ _ _ _
    cases hlog'.symm.trans hlog
    exact ⟨_, log, rfl, retains_modify _ _ fun _ => rfl⟩

namespace Regime

variable {n : Nat} {w w' : World} {b : BridgeId} {h : HeapId} {c : ClassId} {d : ClassDecl}

def settled : identity.Test := ⟨World.Settled, fun hf hw' => hf.1.settled hw'⟩

theorem identity_lax (hw : Identified w) (hT : ¬ w.Settled) (hplain : plain.Good w w') : identity.Good w w' :=
  identified_of hw hplain fun _ hws => absurd hws hT

/-- What is known while a wrapper is made: its class, and which objects stay free. -/
def Aside (c : ClassId) (d : ClassDecl) (free : NativeId → Prop) (w : World) : Prop :=
  w.classes[c]? = some d ∧ ∀ o, free o → w.Free o

theorem spares_maybeCollect (hw : Identified w) (hs : w.heaps[h]? = some s)
    (he : (Heap.maybeCollect (hostAt n) h).exec w = (.ok (), w')) (hw' : w'.Settled) :
    World.Sustains none w w' ∧ w.Spares h s.Reachable w' := by
  rcases maybeCollect_eq_ok he with rfl | ⟨st, he⟩
  · exact ⟨(hw.2 hw').sustains, .refl h _ w'⟩
  · have hgood := identity_collects n w h hw
    rw [after_eq he] at hgood
    obtain ⟨hsus, hsp⟩ := sustains_collect hw.1 (hw.2 (settled.back hgood.2 hw')) hs he hw'
    exact ⟨hsus, hsp st rfl⟩

theorem identity_crafts (n : Nat) (b : BridgeId) (h : HeapId) (c : ClassId) (d : ClassDecl)
    (free : NativeId → Prop) : Crafts settled n b h False (Aside c d free) where
  collects := identity_collects n
  proper _ _ := trivial
  lax := identity_lax
  working hw hT hs := World.Settled.working hT hw.1 hs
  spares {w w' s} hw hs he hT hbased hrest := by
    obtain ⟨hsus, hspared⟩ := spares_maybeCollect hw hs he hT
    obtain ⟨br, hbr, hid⟩ := hbased
    obtain ⟨br', hbr', hid'⟩ := hsus.2.bridges b br hbr
    obtain ⟨s', hs', hheap⟩ := hspared.heap s hs
    refine ⟨⟨br', hbr', hid'.trans hid⟩, ⟨?_, fun o ho => hspared.free o (hrest.2 o ho)⟩, s', hs', hheap, False.elim⟩
    rw [hspared.classes]
    exact hrest.1
  setHeap _ hrest := hrest
  editBridge _ _ hrest := hrest
  setLog _ hrest := hrest
  setBreaches _ hrest := hrest

theorem identity_keepPrototype (hw : Identified w) (hs : w.heaps[h]? = some s)
    (hstash : w.Settled → Declared settled d ∧ s.value? (-3) = some (.object s.stash)) :
    identity.Good w ((changeHeap h (·.putHidden (-3) d.key)).after w) := by
  have hplain := (plain_putHidden (R := plain) (h := h) (-3) d.key).good hw.1
  refine identified_of hw hplain fun hw' hws hi => ?_
  cases hput : s.putHidden (-3) d.key with
  | error e =>
    rw [after_eq (exec_changeHeap_error hs hput)]
    exact hi.sustains
  | ok s' =>
    rw [after_eq (exec_changeHeap_ok hs hput)]
    obtain ⟨⟨w0, c0, hw0, hws0, hd0⟩, hv⟩ := hstash hws
    obtain ⟨st, hst⟩ : ∃ st, s.object? s.stash = some st := by
      obtain ⟨p, hp, hrest⟩ := bind_eq_ok.mp hput
      obtain rfl : p = s.stash := by simpa using (value?_of_requireObject hp).symm.trans hv
      obtain ⟨v, -, hrest⟩ := bind_eq_ok.mp hrest
      obtain ⟨st, hst, -⟩ := bind_eq_ok.mp hrest
      exact ⟨st, object?_of_deref hst⟩
    exact hi.sustains_putHidden hs ((hw0.2 hws0).key_ne hd0) hv (hi.unlinked_stash hs hst) hput

theorem identity_setFinalizer {pr : Option HeapPtr} (hw : Identified w) (hb : identity.usable b w)
    (hs : w.heaps[h]? = some s) (hseat : w.Settled → w.Based b h ∧ s.Seats { prototype := pr } finalizerKey i) :
    identity.Good w ((changeHeap h (·.setFinalizer i)).after w) := by
  have hplain := (plain_setFinalizer (R := plain) (h := h) i).good hw.1
  by_cases hT : w.Settled
  · obtain ⟨⟨br, hbr, rfl⟩, p, hp, ho, hback⟩ := hseat hT
    obtain ⟨br', t, hbr', ht, hequips⟩ := hb hT
    cases hbr.symm.trans hbr'
    cases hs.symm.trans ht
    obtain ⟨q, hq, f, name, hf, hbody⟩ := hequips.stashed
    refine good_changeHeap hw fun t t' ht hset => ?_
    cases hs.symm.trans ht
    refine amends_setFinalizer (fun _ => ?_) hset
    unfold permitsFinalizer
    rw [hp, hback, hq]
    simp [ho, hf, Value.object?, Object.isWrapper, Object.tame, hbody, KeyMap.has, Code.tame, KeyMap.get?]
  · exact identity_lax hw hT hplain

theorem identity_bindWrapper {F : Footing} {vs : List Value} (hw : Identified w)
    (hb : identity.usable b w) (hbased : w.Based b h)
    (hblank : w.Settled → BlankAt b h False (Aside c d (· = obj)) F i p o vs w) :
    identity.Good w ((bindWrapper b h obj c i).after w) := by
  have hplain := plain_bindWrapper (R := plain) (F := Stationed b h) b h .rfl (fun _ _ => trivial) i w hw.1
    hbased (o := obj) (c := c)
  refine identified_of hw hplain fun hw' hws hi => ?_
  obtain ⟨hseat, ⟨-, ⟨br, hbr, hh⟩, ⟨hd, hfree⟩, s, hon, hs⟩, hhidden, hfinalized, hequipped⟩ := hblank hws
  obtain ⟨⟨t, ht, -⟩, -⟩ := hfree obj rfl
  obtain ⟨nat, hn, -⟩ := Option.map_eq_some_iff.mp ht
  obtain ⟨share, w1, htake⟩ := exec_take_ok hn
  obtain ⟨br', s', hbr', hs', hequips⟩ := hb hws
  cases hbr.symm.trans hbr'
  rw [hh] at hs'
  cases hs.symm.trans hs'
  obtain ⟨-, q, hq, hfin⟩ := hequipped _ hs hequips
  have ho : (s.pushAll vs).object? p = some o := (object?_pushAll s vs p).trans hon.object?_seat
  have hstash : (s.pushAll vs).stash ≠ p := by
    rw [stash_pushAll, hon.stash]
    exact fun he => hseat.stash he.symm
  obtain ⟨log, hexec⟩ := exec_bindWrapper hs (hon.pushAll_bottom_le vs)
    (by rw [hseat.index]; exact Int.natCast_nonneg _) (hon.value?_seat hseat vs) ho hd hbr
    (by rw [(hfree obj rfl).noteRace]; exact htake)
  rw [after_eq hexec]
  exact sustains_bindOn htake hs rfl hi hbr hh hd ho hhidden hfinalized hq hfin hstash (hfree obj rfl)

/-- Nothing is asked of a heap but its stack, its frames and its stash. -/
def footing (s : Heap) : Footing where
  stack := s.stack
  frames := s.frames
  stash := s.stash
  kept _ := False
  object _ := none
  keys _ := False
  barred _ := False

theorem over_footing {Rest : World → Prop} (hbased : w.Based b h) (hrest : Rest w)
    (hs : w.heaps[h]? = some s) (hbot : s.bottom ≤ s.stack.size) :
    Over b h False Rest (footing s) [] w :=
  ⟨⟨fun _ h => h.elim, fun _ h => h.elim, id, fun _ h => h.elim⟩, hbased, hrest, s,
    ⟨rfl, rfl, rfl, hbot, fun _ h => h.elim, fun _ _ _ _ h => h.elim, fun _ _ _ _ _ => id⟩, hs⟩

theorem identity_makeWrapper (hw : Identified w) (hb : identity.usable b w) (hbased : w.Based b h)
    (hrest : Aside c d (· = obj) w) :
    identity.Good w ((makeWrapper (hostAt n) b h obj c).after w) := by
  by_cases hT : w.Settled
  · obtain ⟨br, s, hbr, hs, -⟩ := hb hT
    obtain ⟨br', hbr', rfl⟩ := hbased
    cases hbr.symm.trans hbr'
    have hover : Over b br.heapId False (Aside c d (· = obj)) (footing s) [] w :=
      over_footing ⟨br, hbr, rfl⟩ hrest hs (hT.working hw.1 hs).bottom_le
    have hblank := (identity_crafts n b br.heapId c d (· = obj)).meets_blankWrapper
      (A := Usable b) (F := footing s) .rfl (fun d w s hw hs => identity_keepPrototype hw hs)
      (fun pr i w s hw hb hs => identity_setFinalizer hw hb hs) (fun _ hrest => hrest.1) False.elim
    obtain ⟨hg, hpost⟩ := hblank w hw hb fun _ => hover
    refine Good.bind hg fun i w1 he hg1 => ?_
    have hbased1 : w1.Based b br.heapId := (Stationed (R := identity) b br.heapId).stable hg1.2 ⟨br, hbr, rfl⟩
    by_cases hT1 : w1.Settled
    · obtain ⟨p, o, vs, hblank1⟩ := hpost i w1 he hT1
      exact identity_bindWrapper hg1.1 (identity.usable_stable hg1.2 hb) hbased1 fun _ => hblank1
    · exact identity_lax hg1.1 hT1 (plain_bindWrapper (R := plain) (F := Stationed b br.heapId) b _ .rfl
        (fun _ _ => trivial) i w1 hg1.1.1 hbased1)
  · refine identity_lax hw hT ?_
    exact ((plain_blankWrapper (R := plain) (F := Stationed b h) (plain_serves n) b h c).bind fun i =>
      plain_bindWrapper (R := plain) b h .rfl (fun _ _ => trivial) i) w hw.1 hbased

theorem identity_wraps (n : Nat) (w : World) (b : BridgeId) (o : NativeId) (c : ClassId)
    (hw : Identified w) (hb : identity.usable b w) :
    identity.Good w ((wrap (hostAt n) b o c).after w) := by
  refine Good.bind_reads hw (reads_classDecl c) fun d hd =>
    Good.bind_reads hw (reads_bridge b) fun br hbr =>
    Good.bind_reads hw (reads_isDisposed o) fun disposed hdisposed => ?_
  split
  case isTrue => exact .refl hw
  case isFalse halive =>
  refine Good.bind_reads hw (reads_native o) fun x hx => ?_
  obtain ⟨hx, -⟩ := exec_native_eq_ok.mp hx
  split
  case h_1 r _ => exact (plain_pushWrapper b _ _ r).good hw
  case h_2 hnone =>
    have hfree : w.Free o := ⟨⟨x.token, token?_of_native hx, hnone⟩,
      fun hd => halive ((isDisposed_eq_ok hdisposed).mpr hd)⟩
    refine Good.bind ((keeps_register b c).good hw) fun _ w1 he hg1 => ?_
    obtain ⟨bridges, log, rfl, hbridges⟩ := register_eq_ok he
    obtain ⟨br', hbr', hid⟩ := hbridges b br (exec_bridge_eq_ok.mp hbr).1
    exact identity_makeWrapper hg1.1 (identity.usable_stable hg1.2 hb) ⟨br', hbr', hid⟩
      ⟨(exec_classDecl_eq_ok.mp hd).1, fun _ ho => ho ▸ hfree⟩

theorem identity_prototypes (n : Nat) (w : World) (b : BridgeId) (c : ClassId) (hw : Identified w)
    (hb : identity.usable b w) : identity.Good w ((pushPrototype (hostAt n) b c).after w) := by
  have hplain := (plain_pushPrototype (R := plain) (plain_serves n) b c).good hw.1
  by_cases hT : w.Settled
  · obtain ⟨br, s, hbr, hs, -⟩ := hb hT
    cases hd : w.classes[c]? with
    | none =>
      have hstay : (pushPrototype (hostAt n) b c).after w = w := after_look_none (f := fun w => w.classes[c]?) hd
      rw [hstay]
      exact .refl hw
    | some d =>
      have hover : Over b br.heapId False (Aside c d fun _ => False) (footing s) [] w :=
        over_footing ⟨br, hbr, rfl⟩ ⟨hd, fun _ h => h.elim⟩ hs (hT.working hw.1 hs).bottom_le
      exact ((identity_crafts n b br.heapId c d fun _ => False).meets_pushPrototype (A := Usable b)
        .rfl (fun d w s hw hs => identity_keepPrototype hw hs) (fun _ hrest => hrest.1)).good hw hb
        fun _ => hover
  · exact identity_lax hw hT hplain

end Regime

end Tether
