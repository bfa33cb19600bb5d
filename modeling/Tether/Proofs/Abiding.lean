import Tether.Proofs.Chronicle

/-!
# Properties that heaps keep

A property of heaps that every change of one heap keeps holds of every heap at every moment of a run.
-/

namespace Tether

open Regime World

variable {P : Heap → Prop} {J : World → Prop} {s s' : Heap} {w w' : World}

/-- One change of a heap. -/
inductive Heap.Shifts (s : Heap) : Heap → Prop
  | turn {s' : Heap} : s.Turns s' → Shifts s s'
  | amend {w : World} {s' : Heap} : s.Amends w s' → Shifts s s'
  | rest {s' : Heap} : s'.table = s.table → s'.closed = s.closed → s.Accounts 0 s' → Shifts s s'
  | alloc {o : Object} : o.Blank → (s.closed = false → s.table.Addressable → s.Sound) → Shifts s (s.withObject o)
  | sweep {s' : Heap} {ps : List HeapPtr} : s.Swept ps s' → (s.Working → s'.Sound) →
      (s.table.Addressable → ps.Nodup ∧ ∀ p ∈ ps, (s.object? p).isSome = true) → Shifts s { s' with collecting := false }

/-- A property of worlds that comes from their heaps and their past. -/
structure World.Tracks (J : World → Prop) : Prop where
  chronicled {w : World} : J w → w.Chronicled
  beside {w w' : World} : J w → w'.Chronicled → w'.heaps = w.heaps →
    (∀ x, w'.history (.step x) → w.history (.step x) ∨ x = w.state) → J w'
  shift {w : World} {h : HeapId} {s s' : Heap} : J w → w.heaps[h]? = some s →
    (w.setHeap h s').Chronicled → s.Shifts s' → J (w.setHeap h s')
  newHeap {w : World} {limits : Limits} {storage : Storage} {ownsStorage logs : Bool} : J w →
    World.Chronicled { w with heaps := w.heaps.push { limits, storage, ownsStorage, logs } } →
    J { w with heaps := w.heaps.push { limits, storage, ownsStorage, logs } }

theorem World.Tracks.aside (hJ : World.Tracks J) (hw : J w) (h : w.Aside w') : J w' ∧ w.Extends w' :=
  have hg := chronicled_aside (hJ.chronicled hw) h
  ⟨hJ.beside hw hg.1 h.heaps fun _ hx => .inl (h.history ▸ hx), hg.2⟩

namespace Regime

/-- The regime of a property that comes from heaps and the past. -/
def tracking (hJ : World.Tracks J) : Regime where
  inv := J
  rel := World.Extends
  deep := chronicle.deep
  sound hw := (hJ.chronicled hw).sound
  later h := h.toLater
  refl := World.Extends.refl
  trans := World.Extends.trans
  silent hw h :=
    have hg := chronicle.silent (hJ.chronicled hw) h
    ⟨hJ.beside hw hg.1 (state_eq_iff.mp h.state).1 fun _ hx => (h.recalled _ hx).imp_right Moment.step.inj, hg.2⟩
  misfit hw _ hreceiver _ htypes hmisfit :=
    have hg := chronicle.misfit (hJ.chronicled hw) trivial hreceiver trivial htypes hmisfit
    ⟨hJ.beside hw hg.1 (state_eq_iff.mp (state_recalling _ _)).1 fun _ hx =>
      (history_recalling hx).imp_right nofun, hg.2⟩
  alter hw ha := hJ.aside hw ha.aside
  amend hw hs ha :=
    have hg := chronicle.amend (hJ.chronicled hw) hs ha
    ⟨hJ.shift hw hs hg.1 (.amend ha), hg.2⟩
  alloc hw hs hblank _ _ :=
    have hg := chronicle.alloc (hJ.chronicled hw) hs hblank (fun _ _ _ _ _ => ⟨trivial, trivial⟩)
      fun _ _ _ _ => trivial
    ⟨hJ.shift hw hs hg.1 (.alloc hblank ((hJ.chronicled hw).sound.heaps _ _ hs)), hg.2⟩
  issue hw hi := ⟨hJ.aside hw hi.aside, trivial⟩

-- What chronicles need is shown for chronicles; here it remains to look at the one heap that changes.
instance (hJ : World.Tracks J) : Elaborates (tracking hJ) where
  chronicled := hJ.chronicled
  extended := id
  rest hw hs hc htable hclosed hissued _ := hJ.shift hw hs hc (.rest htable hclosed hissued)
  swept hw hs hswept hsound hps hc := hJ.shift hw hs hc (.sweep hswept hsound hps)
  around _ := id

instance (hJ : World.Tracks J) : IsPlain (tracking hJ) where
  books {w w'} hw hb := by
    have hg : chronicle.Good w w' := IsPlain.books (hJ.chronicled hw) hb
    exact ⟨hJ.beside hw hg.1 hb.heaps fun _ hx => .inl (hb.history ▸ hx), hg.2⟩
  turn {w h s s'} hw hs ht := by
    have hg : chronicle.Good w (w.setHeap h s') := IsPlain.turn (hJ.chronicled hw) hs ht
    exact ⟨hJ.shift hw hs hg.1 (.turn ht), hg.2⟩
  newHeap {w limits storage ownsStorage logs} hw hdepth := by
    have hg : chronicle.Good w { w with heaps := w.heaps.push { limits, storage, ownsStorage, logs } } :=
      IsPlain.newHeap (hJ.chronicled hw) hdepth
    exact ⟨hJ.newHeap hw hg.1, hg.2⟩

theorem inv_tracked (hJ : World.Tracks J) (hstart : ∀ logging recording, J { logging, recording })
    (script : Script) (n : Nat) (recording : Bool) : J (script.world n recording) :=
  inv_world (R := tracking hJ) (hstart _ _)

end Regime

/-! ## Open heaps -/

structure Heap.Abiding (P : Heap → Prop) : Prop where
  fresh (limits : Limits) (storage : Storage) (ownsStorage logs : Bool) : P { limits, storage, ownsStorage, logs }
  congr (s s' : Heap) : s'.table = s.table → P s → P s'
  amend {w : World} {s s' : Heap} : s.Amends w s' → P s → P s'
  start {s : Heap} (p : HeapPtr) : P s → P (s.startFinalizer p)
  alloc {s : Heap} {o : Object} : o.Blank → s.Sound → (s.withObject o).table.Addressable → P s → P (s.withObject o)
  sweep {s s' : Heap} {ps : List HeapPtr} : s.Swept ps s' → s'.Sound → P s → P s'

/-- A property of all heaps that are open. -/
structure World.Abides (P : Heap → Prop) (w : World) : Prop extends w.Chronicled where
  objects : ∀ (h : HeapId) s, w.heaps[h]? = some s → s.closed = false → s.table.Addressable → P s

theorem Heap.Abiding.shift (hP : Heap.Abiding P) (hshift : s.Shifts s')
    (hsound : s.closed = false → s.table.Addressable → s.Sound)
    (hs : s.closed = false → s.table.Addressable → P s) (hopen : s'.closed = false)
    (haddr : s'.table.Addressable) : P s' := by
  cases hshift with
  | turn ht =>
    have hPs : P s := hs (ht.later.isOpen hopen) (ht.later.addressable hopen haddr)
    cases ht with
    | amend ha => exact hP.amend ha hPs
    | start p => exact hP.start p hPs
    | root | clear => exact hP.congr s _ rfl hPs
    | shut _ hclosed => simp [hclosed] at hopen
  | amend ha => exact hP.amend ha (hs (ha.later.isOpen hopen) (ha.later.addressable hopen haddr))
  | rest htable hclosed _ => exact hP.congr s s' htable (hs (hclosed ▸ hopen) (htable ▸ haddr))
  | alloc hblank _ =>
    have haddr0 := (Heap.later_withObject hsound _).addressable hopen haddr
    exact hP.alloc hblank (hsound hopen haddr0) haddr (hs hopen haddr0)
  | @sweep s' ps hswept hswept' _ =>
    have hopen' : s.closed = false := hswept.closed.symm.trans hopen
    have haddr' : s.table.Addressable := Nat.lt_of_le_of_lt (Nat.le_of_eq hswept.slots.symm) haddr
    exact hP.congr s' _ rfl (hP.sweep hswept (hswept' ⟨hsound hopen' haddr', hopen', haddr'⟩) (hs hopen' haddr'))

theorem tracks_abides (hP : Heap.Abiding P) : World.Tracks (World.Abides P) where
  chronicled := World.Abides.toChronicled
  beside hw hc hheaps _ := ⟨hc, by rw [hheaps]; exact hw.objects⟩
  shift {w h s s'} hw hs hc hshift := by
    refine ⟨hc, fun k x hx hopen haddr => ?_⟩
    rcases heaps_setHeap_cases hs hx with ⟨-, rfl⟩ | hx
    · exact hP.shift hshift (hw.sound.heaps h s hs) (hw.objects h s hs) hopen haddr
    · exact hw.objects k x hx hopen haddr
  newHeap hw hc := by
    refine ⟨hc, fun k x hx hopen haddr => ?_⟩
    rcases push_cases hx with hx | rfl
    · exact hw.objects k x hx hopen haddr
    · exact hP.fresh _ _ _ _

namespace Regime

/-- The regime of worlds whose open heaps have a property that heaps keep. -/
abbrev abiding (hP : Heap.Abiding P) : Regime := tracking (tracks_abides hP)

theorem abides_world (hP : Heap.Abiding P) (script : Script) (n : Nat) (recording : Bool) :
    (script.world n recording).Abides P :=
  inv_tracked (tracks_abides hP) (fun _ _ => ⟨chronicled_start _ _, fun _ _ hs => absurd hs nofun⟩) script n recording

end Regime

/-! ## All heaps -/

/-- A world with a past all of whose heaps have, and had, a property. -/
structure World.Ever (P : Heap → Prop) (w : World) : Prop extends w.Chronicled where
  present : ∀ (h : HeapId) s, w.heaps[h]? = some s → P s
  former : ∀ x, w.history (.step x) → ∀ (h : HeapId) s, x.heaps[h]? = some s → P s

section

variable (hfresh : ∀ limits storage ownsStorage logs, P { limits, storage, ownsStorage, logs })
  (hshift : ∀ {s s'}, s.Shifts s' → P s → P s')
include hfresh hshift

theorem tracks_ever : World.Tracks (World.Ever P) where
  chronicled := World.Ever.toChronicled
  beside hw hc hheaps hpast := by
    refine ⟨hc, by rw [hheaps]; exact hw.present, fun x hx => ?_⟩
    rcases hpast x hx with hx | rfl
    · exact hw.former x hx
    · exact hw.present
  shift {w h s s'} hw hs hc hsh := by
    refine ⟨hc, fun k x hx => ?_, hw.former⟩
    rcases heaps_setHeap_cases hs hx with ⟨-, rfl⟩ | hx
    · exact hshift hsh (hw.present h s hs)
    · exact hw.present k x hx
  newHeap hw hc := by
    refine ⟨hc, fun k x hx => ?_, hw.former⟩
    rcases push_cases hx with hx | rfl
    · exact hw.present k x hx
    · exact hfresh _ _ _ _

theorem ever_world (script : Script) (n : Nat) (recording : Bool) : World.Ever P (script.world n recording) :=
  inv_tracked (tracks_ever hfresh hshift) (fun _ _ => ⟨chronicled_start _ _, fun _ _ hs => absurd hs nofun, nofun⟩) ..

theorem holds_when_met {script : Script} {n : Nat} {recording : Bool} {x : State}
    (hx : (script.world n recording).Met x) {h : HeapId} (hs : x.heaps[h]? = some s) : P s := by
  have hw := ever_world hfresh hshift script n recording
  rcases hx with hx | rfl
  · exact hw.former x hx h s hs
  · exact hw.present h s hs

end

/-! ## Finalizers are functions -/

namespace Heap

def Armed (s : Heap) : Prop := ∀ p o q, s.object? p = some o → o.finalizer = some q →
  ∃ f, s.object? q = some f ∧ f.isFunction = true

theorem body_of_isFunction {f : Object} (hf : f.isFunction = true) :
    ∃ name arity code, f.body = .function name arity code := by
  unfold Object.isFunction Object.functionName? at hf
  split at hf
  case h_1 name arity code hbody => exact ⟨name, arity, code, hbody⟩
  case h_2 => simp at hf

theorem isFunction_of_body {f : Object} {name : String} {arity : Int} {code : Option Code}
    (hbody : f.body = .function name arity code) : f.isFunction = true := by
  unfold Object.isFunction Object.functionName?
  rw [hbody]
  rfl

theorem Armed.congr (hs : s.Armed) (htable : s'.table = s.table) : s'.Armed := by
  unfold Armed object?
  rw [htable]
  exact hs

theorem Armed.edit (hs : s.Armed) (hobject : ∀ q o', s'.object? q = some o' → ∃ o, s.object? q = some o ∧
      ∀ r, o'.finalizer = some r → o.finalizer = some r ∨ ∃ f, s.object? r = some f ∧ f.isFunction = true)
    (hfunction : ∀ q f, s.object? q = some f → f.isFunction = true →
      ∃ f', s'.object? q = some f' ∧ f'.isFunction = true) : s'.Armed := by
  intro q o' r ho' hr
  obtain ⟨o, ho, hfin⟩ := hobject q o' ho'
  obtain ⟨f, hf, hisf⟩ : ∃ f, s.object? r = some f ∧ f.isFunction = true := by
    rcases hfin r hr with hr | hr
    · exact hs q o r ho hr
    · exact hr
  exact hfunction r f hf hisf

theorem Armed.amend {w : World} (ha : s.Amends w s') (hs : s.Armed) : s'.Armed := by
  cases ha with
  | restack | restore => exact hs.congr rfl
  | @edit p f stack storage _ _ hakin _ =>
    have hedited : ∀ q, ({ s with table := s.table.modify p f, stack, storage } : Heap).object? q =
        if q = p then (s.object? q).map f else s.object? q := fun q => Table.get?_modify _ _ _ _
    refine hs.edit (fun q o' ho' => ?_) fun q g hg hisf => ?_
    · rw [hedited] at ho'
      split at ho'
      case isTrue hq =>
        obtain ⟨o, ho, rfl⟩ := Option.map_eq_some_iff.mp ho'
        exact ⟨o, ho, (hakin o (hq ▸ ho)).callable⟩
      case isFalse => exact ⟨o', ho', fun r hr => .inl hr⟩
    · rw [hedited]
      split
      case isTrue hq =>
        obtain ⟨name, arity, code, hbody⟩ := body_of_isFunction hisf
        have hbody' := ((hakin g (hq ▸ hg)).function name arity code).mpr hbody
        exact ⟨f g, by rw [hg]; rfl, isFunction_of_body hbody'⟩
      case isFalse => exact ⟨g, hg, hisf⟩

theorem Armed.start (hs : s.Armed) (p : HeapPtr) : (s.startFinalizer p).Armed := by
  refine hs.edit (fun q o' ho' => ?_) fun q f hf hisf => ?_
  · rw [object?_startFinalizer] at ho'
    split at ho'
    · obtain ⟨o, ho, rfl⟩ := Option.map_eq_some_iff.mp ho'
      exact ⟨o, ho, fun r hr => .inl hr⟩
    · exact ⟨o', ho', fun r hr => .inl hr⟩
  · rw [object?_startFinalizer]
    split
    · exact ⟨{ f with finalized := true }, by rw [hf]; rfl, hisf⟩
    · exact ⟨f, hf, hisf⟩

theorem Armed.alloc {o : Object} (ho : o.Blank) (hsound : s.Sound)
    (haddr : (s.withObject o).table.Addressable) (hs : s.Armed) : (s.withObject o).Armed := by
  intro p x q hx hq
  rw [object?_withObject hsound haddr] at hx
  split at hx
  · cases hx
    cases ho.finalizer.symm.trans hq
  · obtain ⟨f, hf, hisf⟩ := hs p x q hx hq
    refine ⟨f, ?_, hisf⟩
    rw [object?_withObject hsound haddr, if_neg]
    · exact hf
    · rintro rfl
      simpa using (Table.get?_insert_fresh hsound.table haddr).symm.trans hf

theorem Armed.sweep {ps : List HeapPtr} (hswept : s.Swept ps s') (hsound : s'.Sound) (hs : s.Armed) : s'.Armed := by
  intro p o q ho hq
  have hkept : ∀ r x, s'.object? r = some x → s.object? r = some x := fun r x hx => by
    rw [hswept.objects] at hx
    split at hx
    · simp at hx
    · exact hx
  obtain ⟨f, hf, hisf⟩ := hs p o q (hkept p o ho) hq
  rcases hsound.references p o ho q (Object.mem_references.mpr (.inr (.inl hq))) with rfl | hlive
  · cases hf.symm.trans (Table.get?_null _)
  · obtain ⟨f', hf'⟩ := Option.isSome_iff_exists.mp hlive
    obtain rfl := Option.mem_unique (hkept q f' hf') hf
    exact ⟨f', hf', hisf⟩

theorem abiding_armed : Abiding Armed where
  fresh _ _ _ _ _ _ _ ho := absurd (Table.get?_eq_some.mp ho).2 nofun
  congr _ _ htable hs := hs.congr htable
  amend ha hs := hs.amend ha
  start p hs := hs.start p
  alloc hblank hsound haddr hs := hs.alloc hblank hsound haddr
  sweep hswept hsound hs := hs.sweep hswept hsound

end Heap

end Tether
