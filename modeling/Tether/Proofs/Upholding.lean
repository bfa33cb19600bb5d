import Tether.Proofs.Linking

/-!
# Native code keeps the identity of native objects

The operations that write links were looked at one by one. The ones that are left make heaps, run
code in frames and attach bridges.
-/

namespace Tether

open M World Heap

open Bridge (bridgeKey objectKey finalizerKey)

variable {s s' : Heap} {k : String} {v : Value} {b : BridgeId} {n : Nat} {w w' : World} {h : HeapId} {q : HeapPtr}

namespace Regime

/-! ## Calls -/

theorem identity_invokes (hserves : identity.Serves n) : identity.Invokes n := by
  intro w h s f code hw hs hbase hsize hdepth hopen hf hsane
  refine ⟨?_, fun _ _ _ => trivial⟩
  have hplainly : plain.sane h w code := by
    unfold sane
    split <;> trivial
  have hplain := (plain_invokes (R := plain) (plain_serves n) w h s f code hw.1 hs hbase hsize hdepth
    hopen hf hplainly).1
  refine identified_of hw hplain fun hw' hws hi => ?_
  have halike : s.Alike { s with frames := f :: s.frames } := ⟨rfl, rfl, rfl, rfl, rfl, rfl⟩
  have hentered := hi.sustains_alike hs halike
  have hs1 := get_setHeap hs { s with frames := f :: s.frames }
  have hw1 : Identified (w.setHeap h { s with frames := f :: s.frames }) :=
    ⟨IsFramed.enter (R := plain) hw.1 hs hbase hsize hdepth hopen hf, fun _ => hentered.1⟩
  have hrun : identity.Good (w.setHeap h { s with frames := f :: s.frames })
      ((runBody (hostAt n) h code).after (w.setHeap h { s with frames := f :: s.frames })) := by
    cases code with
    | none => exact .refl hw1
    | some c =>
      refine hserves.run _ h c hw1 ?_
      cases c with
      | bound b c => exact ⟨fun _ => hentered.2.serviceable (hsane.1 hws), trivial⟩
      | program | finalizer => trivial
  obtain ⟨s2, hs2, hl⟩ := hrun.heap hs1
  obtain ⟨hlost, hleft⟩ := exec_invoke (hostAt n) hs f code hs2
  rcases hl.frames with hframes | hframes
  · have hlast := hleft _ _ hframes
    rw [after_eq hlast] at hw' ⊢
    have halike2 : s2.Alike { s2 with frames := s.frames } := ⟨rfl, rfl, rfl, rfl, rfl, rfl⟩
    have hws2 := hw'.of_outline (outline_alike hs2 halike2)
    have hi2 := hrun.1.2 hws2
    exact World.Sustains.trans ⟨hi2, hentered.2.trans (hrun.2.2 hws2)⟩ (hi2.sustains_alike hs2 halike2)
  · rw [after_eq (hlost hframes)] at hw' ⊢
    exact ⟨hrun.1.2 hw', hentered.2.trans (hrun.2.2 hw')⟩

end Regime

/-! ## New heaps -/

namespace World

theorem Identity.sustains_newHeap (hi : w.Identity none) (hnone : ∀ p o, s.object? p ≠ some o) :
    Sustains none w { w with heaps := w.heaps.push s } := by
  have hforth : ∀ k x, w.heaps[k]? = some x → (w.heaps.push s)[k]? = some x :=
    fun k x hx => push_of_some hx
  have hback : ∀ k x, (w.heaps.push s)[k]? = some x → w.heaps[k]? = some x ∨ s = x :=
    fun k x hx => push_cases hx
  have hcarries : w.Carries { w with heaps := w.heaps.push s } :=
    ⟨fun _ br hbr => ⟨br, hbr, rfl⟩, fun k x hx => ⟨x, hforth k x hx, fun _ he => he⟩⟩
  have hlasts : w.Lasts { w with heaps := w.heaps.push s } :=
    .of_records hcarries (fun _ hl => hl) (fun k x hx => ⟨x, hforth k x hx, fun _ hp => hp⟩) id rfl
  refine ⟨⟨hi.ledger.congr rfl rfl rfl rfl rfl, fun r x i hx => ?_, fun k x hx => ?_, hi.keys,
    fun k b hm => hcarries.serviceable (hi.attached k b hm), ?_, ?_⟩, hlasts.continues rfl⟩
  · obtain ⟨br, d, t, hbr, hd, ht, hlink⟩ := hi.linked r x i hx
    exact ⟨br, d, t, hbr, hd, hforth _ t ht, hlink⟩
  · rcases hback k x hx with hx | rfl
    · exact hi.tidy k x hx
    · exact ⟨fun st hst => absurd hst (hnone _ st), fun st hst => absurd hst (hnone _ st),
        fun p o _ _ ho => absurd ho (hnone p o)⟩
  · intro k x p o name arity b c hx ho hbody
    rcases hback k x hx with hx | rfl
    · exact hcarries.serviceable (hi.bound k x p o name arity b c hx ho hbody)
    · exact absurd ho (hnone p o)
  · intro k x p o r hx ho hkey
    rcases hback k x hx with hx | rfl
    · exact hi.carried k x p o r hx ho hkey
    · exact absurd ho (hnone p o)

def Unstashed (h : HeapId) (w : World) : Prop := ∃ s : Heap, w.heaps[h]? = some s ∧ s.stash = .null

end World

namespace Regime

theorem identity_newObject {p : HeapPtr} (hw : Identified w) (hnull : w.Unstashed h)
    (he : (Heap.newObject (hostAt n) h {}).exec w = (.ok p, w')) (hw' : w'.Settled) :
    ∃ s : Heap, w'.heaps[h]? = some s ∧ s.stash = .null ∧ s.object? p = some {} := by
  obtain ⟨s, hs, hstash⟩ := hnull
  obtain ⟨w1, s1, hm, hs1, rfl, rfl⟩ := newObject_eq_ok he
  have hg1 : identity.Good w w1 := by
    rw [← after_eq hm]
    exact (keeps_maybeCollect (identity_collects n) h).good hw
  have halloc : identity.Good w1 (w1.setHeap h (s1.withObject {})) :=
    identity.alloc hg1.1 hs1 (.of_body _) (by simp) (by simp)
  have hws1 : w1.Settled := halloc.2.1.settled hw'
  obtain ⟨-, hsp⟩ := spares_maybeCollect hw hs hm hws1
  obtain ⟨t, ht, hspared⟩ := hsp.heap s hs
  cases hs1.symm.trans ht
  have hs' := get_setHeap hs1 (s1.withObject {})
  refine ⟨_, hs', hspared.stash.trans hstash, ?_⟩
  rw [object?_withObject (hws1.working hg1.1.1 hs1).toSound (hw'.addressable h _ hs'), if_pos rfl]

theorem identity_newRoot {β : Type} (h : HeapId) (root : HeapPtr → Heap → Heap) {rest : HeapPtr → M β}
    (hroot : ∀ p (s : Heap), (s.Working → s.Holds p) → s.Turns (root p s))
    (hobjects : ∀ p s q, (root p s).object? q = s.object? q)
    (hretired : ∀ p s, (root p s).retired = s.retired)
    (hstash : ∀ p s, (root p s).stash = s.stash ∨ (root p s).stash = p)
    (hrest : ∀ p w, Identified w → (w.Settled → ∃ s : Heap, w.heaps[h]? = some (root p s) ∧ s.stash = .null) →
      identity.Good w ((rest p).after w))
    (hw : Identified w) (hnull : w.Settled → w.Unstashed h) :
    identity.Good w ((do
      let p ← Heap.newObject (hostAt n) h {}
      modifyHeap h (root p)
      rest p : M β).after w) := by
  have hcollects := identity_collects n
  refine Good.bind ((keeps_newObject hcollects h (.of_body _) (by simp) (by simp)).good hw) fun p w1 he hg1 => ?_
  obtain ⟨s, hs, hholds⟩ := holds_newObject (R := plain) (plain_serves n) hw.1 he
  have hnew : w1.Settled → s.stash = .null ∧ s.object? p = some {} := by
    intro hws1
    obtain ⟨t, ht, hnull, hblank⟩ := identity_newObject hw (hnull (hg1.2.1.settled hws1)) he hws1
    cases hs.symm.trans ht
    exact ⟨hnull, hblank⟩
  have hturned : identity.Good w1 (w1.setHeap h (root p s)) := by
    refine identified_of hg1.1 (IsPlain.turn (R := plain) hg1.1.1 hs (hroot p s hholds)) fun _ hws1 hi => ?_
    obtain ⟨hnull, hblank⟩ := hnew hws1
    refine hi.sustains_of_objects hs (.inr ⟨hnull, fun st hst => ?_⟩) (hobjects p s) (hretired p s)
    rw [hobjects] at hst
    rcases hstash p s with he | he
    · rw [he, hnull] at hst
      cases hst.symm.trans (Table.get?_null _)
    · rw [he, hblank] at hst
      cases hst
      rfl
  rw [after_bind_ok (exec_modifyHeap hs _)]
  refine hturned.trans (hrest p _ hturned.1 fun hws => ?_)
  exact ⟨s, get_setHeap hs _, (hnew (hturned.2.1.settled hws)).1⟩

theorem turns_setStash (p : HeapPtr) (s : Heap) (hp : s.Working → s.Holds p) : s.Turns (s.setStash p) := by
  unfold setStash
  split
  case isTrue => exact .root fun hwork => ⟨hwork.global, hp hwork⟩
  case isFalse => exact .root fun hwork => ⟨hwork.global, hwork.stash⟩

theorem identity_makes (n : Nat) (w : World) (l : Limits) (storage : Storage) (owns : Bool)
    (hw : Identified w) : identity.Good w ((Heap.make (hostAt n) l storage owns).after w) := by
  refine Good.bind_reads hw (reads_ofExcept _) fun _ he => ?_
  have hdepth : 0 < l.depth := depth_pos_of_checkLimits (exec_ofExcept_eq_ok.mp he).1
  have hgrown : identity.Good w
      { w with heaps := w.heaps.push { limits := l, storage, ownsStorage := owns, logs := w.logging } } :=
    identified_of hw (IsPlain.newHeap (R := plain) hw.1 hdepth) fun _ _ hi =>
      hi.sustains_newHeap fun p o ho => absurd (Table.get?_eq_some.mp ho).2 nofun
  rw [after_bind_ok (exec_get w)]
  refine Good.bind (x := set _) hgrown fun _ w1 he hg1 => ?_
  cases he
  refine identity_newRoot _ (fun p s => { s with global := p })
    (fun p s hp => .root fun hwork => ⟨hp hwork, hwork.stash⟩) (fun _ _ _ => rfl) (fun _ _ => rfl)
    (fun _ _ => .inl rfl) (fun _ w2 hw2 hnull => ?_) hg1.1 fun _ => ?_
  · refine identity_newRoot _ (fun p s => s.setStash p) turns_setStash (fun p s q => ?_) (fun p s => ?_)
      (fun p s => ?_) (fun _ w3 hw3 _ => .refl hw3) hw2 fun hws => ?_
    iterate 3
      unfold setStash
      split <;> simp [object?]
    obtain ⟨s, hs, hstash⟩ := hnull hws
    exact ⟨_, hs, hstash⟩
  · exact ⟨_, Array.getElem?_push_size, rfl⟩

theorem identity_closes (n : Nat) (w : World) (h : HeapId) (hw : Identified w)
    (horderly : w.orderly = false) : identity.Good w ((Heap.close (hostAt n) h).after w) :=
  identified_of hw (plain_closes (plain_serves n) hw.1) fun _ hws =>
    absurd (horderly.symm.trans hws.orderly) (by simp)

end Regime

/-! ## Bridges -/

def Heap.inscribe (s : Heap) (k : String) (v : Value) : Heap :=
  s.modifyObject s.stash fun o => { o with hidden := o.hidden.put k v }

theorem Heap.object?_inscribe (s : Heap) (k : String) (v : Value) (q : HeapPtr) :
    (s.inscribe k v).object? q = if q = s.stash then
      (s.object? q).map fun o => { o with hidden := o.hidden.put k v } else s.object? q :=
  Table.get?_modify _ _ _ _

theorem Heap.inscribe_back {x' : Object} (hx' : (s.inscribe k v).object? q = some x') :
    ∃ x, s.object? q = some x ∧ x'.body = x.body ∧ x'.finalizer = x.finalizer ∧ x'.finalized = x.finalized ∧
      x'.hidden = if q = s.stash then x.hidden.put k v else x.hidden := by
  rw [object?_inscribe] at hx'
  split at hx'
  case isTrue hq =>
    obtain ⟨x, hx, rfl⟩ := Option.map_eq_some_iff.mp hx'
    exact ⟨x, hx, rfl, rfl, rfl, (if_pos hq).symm⟩
  case isFalse hq => exact ⟨x', hx', rfl, rfl, rfl, (if_neg hq).symm⟩

theorem Heap.inscribe_forth (k : String) (v : Value) {x : Object} (hx : s.object? q = some x) :
    ∃ x', (s.inscribe k v).object? q = some x' ∧ x'.body = x.body ∧
      x'.finalized = x.finalized ∧ x'.hidden = if q = s.stash then x.hidden.put k v else x.hidden := by
  rw [object?_inscribe, hx]
  split
  case isTrue => exact ⟨_, rfl, rfl, rfl, rfl⟩
  case isFalse => exact ⟨x, rfl, rfl, rfl, rfl⟩

theorem Heap.Finalizes.inscribe (hf : s.Finalizes q b) (k : String) (v : Value) : (s.inscribe k v).Finalizes q b := by
  obtain ⟨f, name, hq, hbody⟩ := hf
  obtain ⟨f', hq', hbody', -⟩ := inscribe_forth k v hq
  exact ⟨f', name, hq', hbody'.trans hbody⟩

/-- A stash that may get a hidden property: the property is not the record of a wrapper, no other
bridge's finalizer is lost, and a finalizer is written where a bridge is. -/
structure Object.Inscribes (st : Object) (k : String) : Prop where
  wrapper : k ≠ objectKey
  finalizer : k = finalizerKey → st.hidden.get? finalizerKey = none
  bridge : k = bridgeKey ∨ st.hidden.get? bridgeKey ≠ none

namespace World

variable {st : Object}

theorem Identity.sustains_inscribe (hi : w.Identity none) (hs : w.heaps[h]? = some s)
    (hst : s.object? s.stash = some st) (hk : st.Inscribes k) :
    Sustains none w (w.setHeap h (s.inscribe k v)) := by
  have htidy := hi.tidy h s hs
  have hgets : ∀ k', k ≠ k' → (st.hidden.put k v).get? k' = st.hidden.get? k' := fun k' hne =>
    (KeyMap.get?_put _ _ _ _).trans (if_neg hne.symm)
  have hstash : ∀ st', (s.inscribe k v).object? (s.inscribe k v).stash = some st' →
      st'.hidden = st.hidden.put k v := by
    intro st' hst'
    obtain ⟨x, hx, -, -, -, hhidden⟩ := inscribe_back hst'
    cases hst.symm.trans hx
    exact hhidden.trans (if_pos rfl)
  have hretains : w.Preserves none none h s (s.inscribe k v) := by
    refine ⟨?_, ?_, ⟨?_, ?_, ?_⟩, ?_, ?_⟩
    · rintro b ⟨x, q, hx, hq, hf⟩
      cases hst.symm.trans hx
      obtain ⟨st', hst', -⟩ := inscribe_forth k v hst
      refine ⟨st', q, hst', ?_, hf.inscribe k v⟩
      have hne : k ≠ finalizerKey := fun he => absurd (hk.finalizer he) (by simp [hq])
      rw [hstash st' hst', hgets _ hne]
      exact hq
    · rintro r x i br d - - - - ⟨o, q, ho, hkey, hcls, hfin, hf⟩ hunstarted
      have hp : x.ptr ≠ s.stash := by
        intro he
        rw [he] at ho
        simpa using (htidy.stash o ho).symm.trans hkey
      have ho' : (s.inscribe k v).object? x.ptr = s.object? x.ptr := (object?_inscribe s k v _).trans (if_neg hp)
      exact ⟨⟨o, q, ho'.trans ho, hkey, hcls, hfin, hf.inscribe k v⟩,
        hunstarted.imp_left fun hu o' ho'' => hu o' (ho'.symm.trans ho'')⟩
    · intro st' hst'
      rw [hstash st' hst', hgets _ hk.wrapper]
      exact htidy.stash st hst
    · intro st' hst' hnone
      rw [hstash st' hst'] at hnone
      by_cases hb : k = bridgeKey
      · rw [hb, KeyMap.get?_put, if_pos rfl] at hnone
        simp at hnone
      · rw [hgets _ hb] at hnone
        exact absurd hnone (hk.bridge.resolve_left hb)
    · intro p x q f hx hq hf
      obtain ⟨x0, hx0, -, hfin, -⟩ := inscribe_back hx
      obtain ⟨f0, hf0, hbody, -⟩ := inscribe_back hf
      unfold Object.tame
      rw [hbody]
      exact htidy.tame p x0 q f0 hx0 (hfin ▸ hq) hf0
    · intro p x name arity b c hx hbody
      obtain ⟨x0, hx0, hbody0, -⟩ := inscribe_back hx
      exact hi.bound h s p x0 name arity b c hs hx0 (hbody0.symm.trans hbody)
    · intro p x r hx hkey
      obtain ⟨x0, hx0, -, -, -, hhidden⟩ := inscribe_back hx
      rw [hhidden] at hkey
      split at hkey
      case isTrue hp =>
        rw [hp, hst] at hx0
        cases hx0
        rw [hgets _ hk.wrapper, htidy.stash st hst] at hkey
        simp at hkey
      case isFalse => exact hi.carried h s p x0 r hs hx0 hkey
  refine hi.sustains_setHeap hs hretains nofun ?_
  rintro p (hp | ⟨o, ho, hfin⟩)
  · exact .inl hp
  · obtain ⟨o', ho', -, hfinalized, -⟩ := inscribe_forth k v ho
    exact .inr ⟨o', ho', hfinalized.trans hfin⟩

end World

theorem Heap.Spares.below {kept : HeapPtr → Prop} {t : Heap}
    (h : (s.push (.object s.stash)).Spares kept t) (hbot : s.bottom ≤ s.stack.size) :
    ∃ s' : Heap, t = s'.push (.object s'.stash) ∧ s'.bottom ≤ s'.stack.size ∧ s'.stash = s.stash := by
  have hstack : t.stack = s.stack.push (.object s.stash) := h.stack
  have hstash : t.stash = s.stash := h.stash
  have hframes : t.frames = s.frames := h.frames
  refine ⟨{ t with stack := s.stack }, ?_, ?_, hstash⟩
  · rw [← hstash] at hstack
    show t = { t with stack := s.stack.push (.object t.stash) }
    rw [← hstack]
  · simp only [bottom, hframes] at hbot ⊢
    exact hbot

/-- The stash of a heap lies on the stack, below some values; and what is known of it. -/
def AtStash (b : BridgeId) (h : HeapId) (vs : List Value) (P : Heap → Object → Prop) (w : World) : Prop :=
  w.Based b h ∧ ∃ s st, w.heaps[h]? = some ((s.push (.object s.stash)).pushAll vs) ∧ s.bottom ≤ s.stack.size ∧
    s.object? s.stash = some st ∧ P s st

theorem AtStash.mono {h : HeapId} {vs : List Value} {P Q : Heap → Object → Prop} {w : World}
    (hat : AtStash b h vs P w) (hPQ : ∀ s st, P s st → Q s st) : AtStash b h vs Q w := by
  obtain ⟨hbased, s, st, hs, hbot, hst, hP⟩ := hat
  exact ⟨hbased, s, st, hs, hbot, hst, hPQ s st hP⟩

namespace Regime

variable {P : Heap → Object → Prop} {F : identity.Fact}

theorem meets_inscribe (hk : ∀ s st, P s st → st.Inscribes k) :
    Meets F settled (AtStash b h [v] P) (ignoreFault (changeHeap h (·.putHidden (-2) k)))
      fun _ => AtStash b h [] fun s' st' => ∃ s st, P s st ∧ s' = s.inscribe k v ∧
        st' = { st with hidden := st.hidden.put k v } := by
  have hlax : Keeps (noFact (R := plain)) (ignoreFault (changeHeap h (·.putHidden (-2) k))) :=
    (plain_putHidden (-2) k).ignoreFault
  have hput : ∀ w (s : Heap) (st : Object),
      w.heaps[h]? = some ((s.push (.object s.stash)).push v) → s.bottom ≤ s.stack.size →
      s.object? s.stash = some st → (ignoreFault (changeHeap h (·.putHidden (-2) k))).exec w =
        (.ok (), w.setHeap h ((s.inscribe k v).push (.object s.stash))) := by
    intro w s st hs hbot hst
    have hbot' : (s.push (.object s.stash)).bottom ≤ (s.push (.object s.stash)).stack.size := by
      rw [bottom_push, size_push]
      exact Nat.le_succ_of_le hbot
    have hexec := exec_changeHeap_ok (f := (·.putHidden (-2) k)) hs
      (putHidden_push hbot' (value?_push_push hbot _ _) hst _)
    unfold ignoreFault
    rw [bind_ok (by rw [exec_catchFault, hexec]; rfl)]
    rfl
  refine .of_good (fun w hw _ hP => ?_) fun _ w w' _ _ hat he _ _ => ?_
  · refine identified_of hw (hlax w hw.1 trivial) fun _ hws hi => ?_
    obtain ⟨-, s, st, hs, hbot, hst, hPst⟩ := hP hws
    rw [after_eq (hput w s st hs hbot hst)]
    have hmarked := hi.sustains_inscribe (v := v) hs hst (hk s st hPst)
    have hs1 := get_setHeap hs (((s.push (.object s.stash)).push v).inscribe k v)
    have halike : (((s.push (.object s.stash)).push v).inscribe k v).Alike
        ((s.inscribe k v).push (.object s.stash)) := ⟨rfl, rfl, rfl, rfl, rfl, rfl⟩
    have hpopped := hmarked.1.sustains_alike hs1 halike
    rw [setHeap_setHeap] at hpopped
    exact hmarked.trans hpopped
  · obtain ⟨hbased, s, st, hs, hbot, hst, hPst⟩ := hat
    cases (hput w s st hs hbot hst).symm.trans he
    refine ⟨hbased, s.inscribe k v, { st with hidden := st.hidden.put k v },
      get_setHeap hs _, hbot, ?_, s, st, hPst, rfl, rfl⟩
    have hself := object?_inscribe s k v s.stash
    rw [if_pos rfl, hst] at hself
    exact hself

theorem meets_pushPlain (hv : v.object? = none) :
    Meets F settled (AtStash b h [] P) (modifyHeap h (·.push v)) fun _ => AtStash b h [v] P := by
  refine .of_keeps (keeps_push hv) fun _ w w' _ _ hat he _ _ => ?_
  obtain ⟨hbased, s, st, hs, hrest⟩ := hat
  rw [exec_modifyHeap hs] at he
  cases he
  exact ⟨hbased, s, st, get_setHeap hs _, hrest⟩

theorem meets_pushFunc {P : Object → Prop} (name : String) : Meets F settled (AtStash b h [] fun _ st => P st)
      (Heap.pushFunc (hostAt n) h name 1 (some (.finalizer b)))
      fun _ w => ∃ q, AtStash b h [.object q] (fun s st => P st ∧ s.Finalizes q b) w := by
  refine .of_keeps (keeps_pushFunc (identity_collects n) h _ _ _ (nofun) fun _ _ _ _ => trivial)
    fun i w w' hw _ hat he hg hT => ?_
  obtain ⟨⟨br, hbr, hid⟩, s, st, hs, hbot, hst, hP⟩ := hat
  obtain ⟨w1, t, hm, ht, hw', -⟩ := Crafts.pushNew_eq_ok he
  generalize ho : ({ body := .function name 1 (some (.finalizer b)), props := _ } : Object) = o at hw'
  subst hw'
  have hg1 : identity.Good w w1 := by
    rw [← after_eq hm]
    exact (keeps_maybeCollect (identity_collects n) h).good hw
  have hblank : o.Blank := ho ▸ .named ..
  have hws1 : w1.Settled := (Crafts.good_place hg1.1 ht hblank
    (fun _ _ _ _ hb => absurd (ho ▸ hb) nofun) fun _ _ _ _ => trivial).2.1.settled hT
  obtain ⟨hsus, hsp⟩ := spares_maybeCollect hw hs hm hws1
  obtain ⟨t', ht', hspared⟩ := hsp.heap _ hs
  cases ht.symm.trans ht'
  obtain ⟨br', hbr', hid'⟩ := hsus.2.bridges b br hbr
  -- The stash is a root, so the collection left it alone.
  have hnull : s.stash ≠ .null := fun he => by simp [he, object?, Table.get?_null] at hst
  have hold : t.object? s.stash = some st := (hspared.objects s.stash (.root (.inr (.inl rfl)) hnull)).trans hst
  obtain ⟨s', rfl, hbot', hstash⟩ := hspared.below hbot
  have hs' := get_setHeap ht (((s'.withObject o).push (.object s'.stash)).push (.object (s'.table.insert o).1))
  have haddr : (s'.withObject o).table.Addressable := by
    have haddr := hT.addressable h _ hs'
    exact haddr
  have hsound : s'.Sound :=
    have hsound := (hws1.working hg1.1.1 ht).toSound
    ⟨hsound.table, hsound.framed, hbot', hsound.global, hsound.stash,
      fun v hv => hsound.stack v (Array.mem_push_of_mem _ hv), hsound.frames, hsound.references⟩
  have hfollows := follows_withObject (w := w1) hsound haddr hblank
  refine ⟨(s'.table.insert o).1, ⟨br', hbr', hid'.trans hid⟩, s'.withObject o, st, hs', hbot', ?_, hP, o,
    name, ?_, by rw [← ho]⟩
  · rw [object?_withObject hsound haddr, if_neg]
    · exact hstash ▸ hold
    · intro he
      have hfresh : s'.object? (s'.table.insert o).1 = none := Table.get?_insert_fresh hsound.table haddr
      rw [← he, show (s'.withObject o).stash = s.stash from hstash] at hfresh
      cases hfresh.symm.trans hold
  · rw [object?_withObject hsound haddr, if_pos rfl]

/-- A stash that holds neither a bridge nor a finalizer of wrappers. -/
def Vacant (_ : Heap) (st : Object) : Prop := st.hidden.get? bridgeKey = none ∧ st.hidden.get? finalizerKey = none

theorem meets_furnish (b : BridgeId) : Meets F settled (AtStash b h [] Vacant) (do
        modifyHeap h (·.push (.pointer (.bridge b)))
        ignoreFault (changeHeap h (·.putHidden (-2) bridgeKey))
        let _ ← Heap.pushFunc (hostAt n) h "heapbridge.finalize" 1 (some (.finalizer b))
        ignoreFault (changeHeap h (·.putHidden (-2) finalizerKey))
        changeHeap h (·.popN 1)
        return b) fun b w => w.Serviceable b := by
  refine (meets_pushPlain rfl).bind fun _ => ?_
  refine (meets_inscribe fun s st hst => ⟨by decide, fun _ => hst.2, .inl rfl⟩).bind fun _ => ?_
  refine ((meets_pushFunc (P := fun st => st.hidden.get? bridgeKey ≠ none ∧
    st.hidden.get? finalizerKey = none) _).pre ?_).bind_exists fun _ q => ?_
  · refine fun w hat => hat.mono ?_
    rintro _ _ ⟨s, st, hst, rfl, rfl⟩
    rw [KeyMap.get?_put, KeyMap.get?_put, if_pos rfl, if_neg (by decide)]
    exact ⟨by simp, hst.2⟩
  refine (meets_inscribe fun s st hst => ⟨by decide, fun _ => hst.1.2, .inr hst.1.1⟩).bind fun _ => ?_
  refine Meets.bind (Q := fun _ w => w.Serviceable b) ?_ fun _ => ?_
  · refine .of_keeps (keeps_popN h 1) fun _ w w' _ _ hat _ hg hT => ?_
    obtain ⟨⟨br, hbr, hid⟩, _, _, hs, -, hst', s, st, ⟨-, hf⟩, rfl, rfl⟩ := hat
    obtain ⟨f, name, hfq, hbody⟩ := hf.inscribe finalizerKey (.object q)
    rw [← hid] at hs
    refine identity.usable_stable hg.2 (fun _ => ⟨br, _, hbr, hs, _, q, hst', ?_, f, name, hfq, hbody⟩) hT
    exact (KeyMap.get?_put _ _ _ _).trans (if_pos rfl)
  · refine .of_keeps (keeps_pure b) fun _ w w' _ _ hb he _ _ => ?_
    obtain ⟨hb', rfl⟩ := Prod.mk.inj he
    exact Except.ok.inj hb' ▸ hb

/-- The stash on top of the stack, before a bridge is attached. -/
def Unbridged (h : HeapId) (w : World) : Prop :=
  ∃ s st, w.heaps[h]? = some (s.push (.object s.stash)) ∧
    s.bottom ≤ s.stack.size ∧ s.object? s.stash = some st ∧ Vacant s st

theorem meets_equip (strict : Bool) : Meets F settled (Unbridged h)
    (Bridge.equip (hostAt n) h strict) fun b w => w.Serviceable b := by
  intro w hw hF hP
  have hgrown : identity.Good w { w with
      bridges := w.bridges.push { heapId := h, strict, logs := w.logging } } :=
    identified_of_parts hw (sound_aside hw.1 (aside_bridges (retains_push _ _ _))) (retains_push _ _ _)
      (.refl _ _) keys_kept fun _ _ => .inl
  obtain ⟨hg, hpost⟩ := meets_furnish (n := n) (h := h) w.bridges.size _ hgrown.1 (F.stable hgrown.2 hF) fun hws =>
      ⟨⟨_, Array.getElem?_push_size, rfl⟩, hP (hgrown.2.1.settled hws)⟩
  exact ⟨hgrown.trans hg, hpost⟩

theorem identity_attaches (n : Nat) (h : Option HeapId) (strict : Bool) :
    Meets (noFact (R := identity)) settled (fun _ => True) (Bridge.attach (hostAt n) h strict)
      fun b w => w.Serviceable b := by
  have hfail : ∀ e (Q : BridgeId → World → Prop),
      Meets (noFact (R := identity)) settled (fun _ => True) (fail e) Q := fun e Q =>
    .of_keeps (keeps_fail e) fun _ _ _ _ _ _ he => absurd (congrArg Prod.fst he) nofun
  cases h with
  | none => exact hfail _ _
  | some h =>
    refine ((Meets.of_reads (reads_heap h)).post fun s w hread =>
      (exec_heap_eq_ok.mp hread.2).1).bind fun s => ?_
    simp only [fail_bind]
    split
    case isTrue => exact (hfail _ _).pre fun _ _ => trivial
    case isFalse =>
    refine (Meets.of_reads (reads_readHeap h _)).bind fun _ => ?_
    refine Meets.bind (Q := fun _ w => ∃ s : Heap, w.heaps[h]? = some (s.push (.object s.stash)) ∧
      s.bottom ≤ s.stack.size) ?_ fun _ => ?_
    · refine .of_keeps (plain_pushStash h) fun _ w w' hw _ ⟨hs, _⟩ he hg hT => ?_
      rw [exec_modifyHeap hs] at he
      cases he
      exact ⟨s, get_setHeap hs _, ((settled.back hg.2 hT).working hw.1 hs).bottom_le⟩
    refine Meets.bind (Q := fun found w => found = false → Unbridged h w) ?_ fun found => ?_
    · refine .of_keeps (keeps_readHeap h _) fun found w w' hw _ ⟨s, hs, hbot⟩ he _ hT hfound => ?_
      obtain ⟨t, ht, hhas, rfl⟩ := exec_readHeap_eq_ok.mp he
      cases hs.symm.trans ht
      unfold hasHidden at hhas
      simp only [value?_push hbot] at hhas
      cases hd : (s.push (.object s.stash)).deref s.stash with
      | error e =>
        rw [hd] at hhas
        simp [Except.map] at hhas
      | ok st =>
        have hst : s.object? s.stash = some st := object?_of_deref hd
        rw [hd] at hhas
        have hnone : st.hidden.get? bridgeKey = none := by
          have hhas : st.hidden.has bridgeKey = found := Except.ok.inj hhas
          simpa [KeyMap.has, hfound] using hhas
        exact ⟨s, st, hs, hbot, hst, hnone, ((hw.2 hT).tidy h _ hs).keyed st hst hnone⟩
    cases found with
    | true =>
      rw [if_pos rfl]
      exact (Meets.of_keeps (Q := fun _ _ => True) (keeps_popN h 1) fun _ _ _ _ _ _ _ _ _ => trivial).bind
        fun _ => hfail _ _
    | false => exact (meets_equip strict).pre fun _ hP => hP rfl

theorem identity_upholds (hserves : identity.Serves n) : identity.Upholds n where
  serves := hserves
  invokes := identity_invokes hserves
  collects := identity_collects n
  closes := identity_closes n
  makes := identity_makes n
  releases _ _ hw hi := identity_releases hw hi
  disposes _ _ hw := identity_disposes hw
  prototypes := identity_prototypes n
  wraps w b o c hw hb _ := identity_wraps n w b o c hw hb
  finalizes _ _ _ hw _ := identity_finalizes hw
  attaches w h strict hw := identity_attaches n h strict w hw trivial fun _ => trivial

end Regime

end Tether
