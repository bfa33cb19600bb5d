import Tether.Proofs.Posting
import Tether.Proofs.Numbering

/-!
# The chronicle of heaps

What holds of every heap at every moment of a run, also inside native code and finalizers.
-/

namespace Tether

open World Heap

variable {s s' : Heap} {w w' : World} {h : HeapId}

namespace Heap

/-- Frames lie one above the other inside the stack, and there are no more than the heap allows. -/
structure Stacked (s : Heap) : Prop where
  framed : s.frames.Pairwise fun inner outer => outer.base ≤ inner.base
  bottom_le : s.bottom ≤ s.stack.size
  depth : (s.frames.length : Int) ≤ s.limits.depth

structure Charted (s : Heap) : Prop extends s.Stacked where
  closed : s.closed = true → s.frames = []
  numbered : s.closed = false → s.table.Addressable → s.Numbered

structure Precedes (s s' : Heap) : Prop where
  isOpen : s'.closed = false → s.closed = false
  slots : s'.closed = false → s.table.slots.size ≤ s'.table.slots.size
  issued : s.issued <:+ s'.issued
  retired : s.retired <:+ s'.retired

/-- What work in a frame leaves of a heap: the slots below the frame as long as the frame is there, and
all that was issued and retired. -/
structure Traces (s s' : Heap) : Prop extends s.Later s' where
  below : s'.frames = s.frames → ∀ i < s.bottom, s'.stack[i]? = s.stack[i]?
  issued : s.issued <:+ s'.issued
  retired : s.retired <:+ s'.retired

variable {s1 s2 s3 : Heap}

theorem Precedes.refl (s : Heap) : s.Precedes s :=
  ⟨id, fun _ => Nat.le_refl _, List.suffix_refl _, List.suffix_refl _⟩

theorem Precedes.trans (h : s1.Precedes s2) (h' : s2.Precedes s3) : s1.Precedes s3 :=
  ⟨h.isOpen ∘ h'.isOpen, fun ho => Nat.le_trans (h.slots (h'.isOpen ho)) (h'.slots ho),
    h.issued.trans h'.issued, h.retired.trans h'.retired⟩

theorem Traces.precedes (h : s.Traces s') : s.Precedes s' := ⟨h.isOpen, h.slots, h.issued, h.retired⟩

theorem Traces.refl (s : Heap) : s.Traces s := ⟨.refl s, fun _ _ _ => rfl, List.suffix_refl _, List.suffix_refl _⟩

theorem bottom_of_frames (h : s'.frames = s.frames) : s'.bottom = s.bottom := by
  unfold bottom
  rw [h]

theorem bottom_nil (h : s.frames = []) : s.bottom = 0 := by
  unfold bottom
  rw [h]

theorem Traces.trans (h : s1.Traces s2) (h' : s2.Traces s3) : s1.Traces s3 := by
  refine ⟨h.toLater.trans h'.toLater, fun hframes i hi => ?_, h.issued.trans h'.issued, h.retired.trans h'.retired⟩
  -- If the frames went away in between, they were none from the start.
  rcases h.frames with h2 | h2
  · rw [h'.below (hframes.trans h2.symm) i (by rw [bottom_of_frames h2]; exact hi), h.below h2 i hi]
  · have h3 : s3.frames = [] := h'.frames.elim (fun he => he.trans h2) id
    rw [bottom_nil (hframes.symm.trans h3)] at hi
    exact absurd hi (Nat.not_lt_zero i)

/-! ## Changes of one heap -/

section

variable (hs : s.Charted) (hframes : s'.frames = s.frames) (hlimits : s'.limits = s.limits)
  (hclosed : s'.closed = s.closed) (hbottom : s.bottom ≤ s'.stack.size)
include hs hframes hlimits hclosed hbottom

theorem Charted.of_isSome (hsize : s'.table.slots.size = s.table.slots.size)
    (hgens : ∀ i, s'.table.gen? i = s.table.gen? i)
    (hsome : ∀ p, (s'.object? p).isSome = (s.object? p).isSome) (htallies : s'.tallies = s.tallies) : s'.Charted := by
  refine ⟨⟨hframes ▸ hs.framed, bottom_of_frames hframes ▸ hbottom, ?_⟩, fun hc => ?_, fun hopen ha => ?_⟩
  · rw [hframes, hlimits]
    exact hs.depth
  · rw [hframes]
    exact hs.closed (hclosed ▸ hc)
  · have haddr : s.table.Addressable := Nat.lt_of_le_of_lt (Nat.le_of_eq hsize.symm) ha
    exact (hs.numbered (hclosed ▸ hopen) haddr).of_isSome hgens hsome htallies

theorem Charted.of_table (htable : s'.table = s.table) (htallies : s'.tallies = s.tallies) : s'.Charted :=
  hs.of_isSome hframes hlimits hclosed hbottom (by rw [htable]) (fun _ => by rw [htable])
    (fun _ => by unfold object?; rw [htable]) htallies

end

theorem Amends.charted {w : World} (ha : s.Amends w s') (hs : s.Charted) : s'.Charted ∧ s.Traces s' := by
  have hsome := ha.isSome_object?
  have hlater := ha.later
  cases ha with
  | restack hfits =>
    exact ⟨hs.of_table rfl rfl rfl (hfits.bottom_le hs.bottom_le) rfl rfl, hlater,
      fun _ => hfits.below hs.bottom_le, List.suffix_refl _, List.suffix_refl _⟩
  | @edit p f stack storage hfits _ _ _ =>
    exact ⟨hs.of_isSome rfl rfl rfl (hfits.bottom_le hs.bottom_le) (s.table.slots_size_modify p f)
      (s.table.gen?_modify p f) hsome rfl, hlater, fun _ => hfits.below hs.bottom_le,
      List.suffix_refl _, List.suffix_refl _⟩
  | restore storage =>
    exact ⟨hs.of_table rfl rfl rfl hs.bottom_le rfl rfl, hlater, fun _ _ _ => rfl,
      List.suffix_refl _, List.suffix_refl _⟩

theorem Turns.charted (ht : s.Turns s') (hs : s.Charted) : s'.Charted ∧ s.Traces s' := by
  have hlater := ht.later
  have hdepth : 0 ≤ s.limits.depth := Int.le_trans (Int.natCast_nonneg _) hs.depth
  cases ht with
  | amend ha => exact ha.charted hs
  | start p =>
    refine ⟨hs.of_isSome rfl rfl rfl hs.bottom_le (s.table.slots_size_modify p _)
      (s.table.gen?_modify p _) (fun q => ?_) rfl, hlater, fun _ _ _ => rfl, List.suffix_refl _,
      List.suffix_refl _⟩
    rw [object?_startFinalizer]
    split
    · exact Option.isSome_map
    · rfl
  | root _ =>
    exact ⟨hs.of_table rfl rfl rfl hs.bottom_le rfl rfl, hlater, fun _ _ _ => rfl,
      List.suffix_refl _, List.suffix_refl _⟩
  | clear =>
    refine ⟨⟨⟨.nil, Nat.le_refl _, hdepth⟩, fun _ => rfl, fun hopen haddr =>
      (hs.numbered hopen haddr).of_isSome (fun _ => rfl) (fun _ => rfl) rfl⟩, hlater,
      fun hframes i hi => ?_, List.suffix_refl _, List.suffix_refl _⟩
    rw [bottom_nil hframes.symm] at hi
    exact absurd hi (Nat.not_lt_zero i)
  | shut hframes hclosed hlimits hframes' hissued hretired _ =>
    refine ⟨⟨⟨by rw [hframes']; exact .nil, ?_, ?_⟩, fun _ => hframes', fun hopen => ?_⟩, hlater, fun _ i hi => ?_,
      hissued.issued ▸ List.suffix_refl _, hretired⟩
    · rw [bottom_nil hframes']
      exact Nat.zero_le _
    · rw [hframes', hlimits]
      exact hdepth
    · cases hclosed.symm.trans hopen
    · rw [bottom_nil hframes] at hi
      exact absurd hi (Nat.not_lt_zero i)

theorem Charted.withObject (hs : s.Charted) (o : Object) (hsound : s.closed = false → s.table.Addressable → s.Sound) :
    (s.withObject o).Charted ∧ s.Traces (s.withObject o) := by
  refine ⟨⟨⟨hs.framed, hs.bottom_le, hs.depth⟩, hs.closed, fun hopen ha => ?_⟩, later_withObject hsound o,
    fun _ _ _ => rfl, ⟨[_], rfl⟩, List.suffix_refl _⟩
  have haddr := Nat.lt_of_le_of_lt (Table.slots_size_le_insert s.table o) ha
  exact (hs.numbered hopen haddr).withObject (hsound hopen haddr) ha

theorem Charted.swept (hs : s.Charted) {ps : List HeapPtr} (hswept : s.Swept ps s')
    (hps : s.closed = false → s.table.Addressable → ∀ p ∈ ps, (s.object? p).isSome = true) :
    ({ s' with collecting := false } : Heap).Charted ∧ s.Precedes { s' with collecting := false } := by
  refine ⟨⟨⟨hswept.frames ▸ hs.framed, ?_, ?_⟩, fun hc => hswept.frames.trans ?_, fun hopen ha => ?_⟩,
    fun hopen => hswept.closed ▸ hopen, fun _ => Nat.le_of_eq hswept.slots.symm,
    hswept.issued ▸ List.suffix_refl _, ps.reverse, hswept.retired.symm⟩
  · show s'.bottom ≤ s'.stack.size
    rw [bottom_of_frames hswept.frames, hswept.stack]
    exact hs.bottom_le
  · show (s'.frames.length : Int) ≤ s'.limits.depth
    rw [hswept.frames, hswept.limits]
    exact hs.depth
  · exact hs.closed (hswept.closed ▸ hc)
  · have hopen' : s.closed = false := hswept.closed ▸ hopen
    have ha' : s.table.Addressable := Nat.lt_of_le_of_lt (Nat.le_of_eq hswept.slots.symm) ha
    exact ((hs.numbered hopen' ha').swept hswept (hps hopen' ha')).of_isSome (fun _ => rfl)
      (fun _ => rfl) rfl

theorem charted_new {limits : Limits} (storage : Storage) (ownsStorage logs : Bool)
    (hdepth : 0 < limits.depth) : ({ limits, storage, ownsStorage, logs } : Heap).Charted :=
  ⟨⟨.nil, Nat.le_refl _, Int.le_of_lt hdepth⟩, fun _ => rfl, fun _ _ => ⟨Table.numbers_empty, rfl, rfl⟩⟩

theorem Charted.enter (hs : s.Charted) {f : Frame} (hbase : s.bottom ≤ f.base)
    (hsize : f.base ≤ s.stack.size) (hdepth : (s.frames.length : Int) < s.limits.depth)
    (hopen : s.closed = false) :
    ({ s with frames := f :: s.frames } : Heap).Charted := by
  refine ⟨⟨framed_cons hs.framed hbase, hsize, ?_⟩, fun hc => absurd (hopen.symm.trans hc) nofun, fun hopen ha =>
    (hs.numbered hopen ha).of_isSome (fun _ => rfl) (fun _ => rfl) rfl⟩
  rw [List.length_cons]
  push_cast
  omega

theorem Charted.leave (hs : s.Charted) {f : Frame} {rest : List Frame} (hframes : s.frames = f :: rest) :
    ({ s with frames := rest } : Heap).Charted := by
  obtain ⟨hframed, hbottom⟩ := framed_tail hs.framed hframes hs.bottom_le
  have hdepth := hs.depth
  refine ⟨⟨hframed, hbottom, ?_⟩, fun hc => absurd (hframes.symm.trans (hs.closed hc)) nofun, fun hopen ha =>
    (hs.numbered hopen ha).of_isSome (fun _ => rfl) (fun _ => rfl) rfl⟩
  rw [hframes, List.length_cons] at hdepth
  show (rest.length : Int) ≤ s.limits.depth
  omega

end Heap

/-! ## Worlds -/

/-- A state of the past: its heaps were charted, sound as long as they had numbers to give, and lead to
the heaps of the present. -/
structure State.Past (x : State) (w : World) : Prop where
  charted : ∀ (h : HeapId) s, x.heaps[h]? = some s → s.Charted
  sound : ∀ (h : HeapId) s, x.heaps[h]? = some s → s.closed = false → s.table.Addressable → s.Sound
  precedes : ∀ (h : HeapId) s, x.heaps[h]? = some s → ∃ s', w.heaps[h]? = some s' ∧ s.Precedes s'

theorem State.Past.later {x : State} {w w' : World} (hx : x.Past w) (hl : ∀ (h : HeapId) s, w.heaps[h]? = some s →
      ∃ s', w'.heaps[h]? = some s' ∧ s.Precedes s') : x.Past w' := by
  refine ⟨hx.charted, hx.sound, fun k s hs => ?_⟩
  obtain ⟨s1, hs1, hp1⟩ := hx.precedes k s hs
  obtain ⟨s2, hs2, hp2⟩ := hl k s1 hs1
  exact ⟨s2, hs2, hp1.trans hp2⟩

namespace World

/-- A sound world that its past leads to. -/
structure Chronicled (w : World) : Prop where
  sound : w.Sound
  heaps : ∀ (h : HeapId) s, w.heaps[h]? = some s → s.Charted
  past : ∀ x, w.history (.step x) → x.Past w
  underflow : ∀ h, ¬ w.history (.underflow h)

/-- A later world, in which work left of each heap what it has to. -/
structure Extends (w w' : World) : Prop extends w.Later w' where
  traces : ∀ (h : HeapId) s s', w.heaps[h]? = some s → w'.heaps[h]? = some s' → s.Traces s'

theorem Extends.refl (w : World) : w.Extends w := ⟨.refl w, fun _ s _ hs hs' => Option.mem_unique hs hs' ▸ .refl s⟩

theorem Extends.trans {w1 w2 w3 : World} (h : w1.Extends w2) (h' : w2.Extends w3) : w1.Extends w3 := by
  refine ⟨h.toLater.trans h'.toLater, fun k s s3 hs hs3 => ?_⟩
  obtain ⟨s2, hs2, -⟩ := h.heaps k s hs
  exact (h.traces k s s2 hs hs2).trans (h'.traces k s2 s3 hs2 hs3)

theorem extends_of_heaps_eq (hheaps : w'.heaps = w.heaps) (hp : w.Proceeds w') : w.Extends w' := by
  refine ⟨.of_heaps_eq hheaps hp, fun k s s' hs hs' => ?_⟩
  rw [hheaps] at hs'
  exact Option.mem_unique hs hs' ▸ .refl s

theorem extends_setHeap (hs : w.heaps[h]? = some s) (ht : s.Traces s') : w.Extends (w.setHeap h s') := by
  refine ⟨.setHeap hs ht.toLater, fun k x x' hx hx' => ?_⟩
  obtain ⟨y, hy, hxy⟩ := heaps_setHeap_rel (P := Heap.Traces) .refl hs ht hx
  exact Option.mem_unique hy hx' ▸ hxy

theorem Extends.through {s1 s2 : Heap} (hs : w.heaps[h]? = some s) (hl : (w.setHeap h s1).Extends w')
    (hs2 : w'.heaps[h]? = some s2) (ht : s.Traces s') : w.Extends (w'.setHeap h s') := by
  refine ⟨.through hs hl.toLater hs2 ht.toLater, fun k x x' hx hx' => ?_⟩
  rw [heaps_setHeap hs2] at hx'
  split at hx'
  case isTrue hk =>
    cases hs.symm.trans (hk ▸ hx)
    cases hx'
    exact ht
  case isFalse hk =>
    refine hl.traces k x x' ?_ hx'
    rw [heaps_setHeap hs, if_neg hk]
    exact hx

section

variable (hw : w.Chronicled)
include hw

theorem Chronicled.transfer (hsound : w'.Sound) (hheaps : ∀ (h : HeapId) s, w'.heaps[h]? = some s → s.Charted)
    (hl : ∀ (h : HeapId) s, w.heaps[h]? = some s → ∃ s', w'.heaps[h]? = some s' ∧ s.Precedes s')
    (hhistory : w'.history = w.history) : w'.Chronicled := by
  refine ⟨hsound, hheaps, fun x hx => ?_, fun k hk => hw.underflow k (hhistory ▸ hk)⟩
  exact (hw.past x (hhistory ▸ hx)).later hl

theorem Chronicled.setHeap (hs : w.heaps[h]? = some s) (hsound : (w.setHeap h s').Sound)
    (hc : s'.Charted) (hp : s.Precedes s') : (w.setHeap h s').Chronicled := by
  refine hw.transfer hsound (fun k x hx => ?_) (fun _ _ hx => heaps_setHeap_rel .refl hs hp hx) rfl
  rcases heaps_setHeap_cases hs hx with ⟨-, rfl⟩ | hx
  · exact hc
  · exact hw.heaps k x hx

theorem Chronicled.of_heaps_eq (hsound : w'.Sound) (hheaps : w'.heaps = w.heaps)
    (hhistory : w'.history = w.history) : w'.Chronicled :=
  hw.transfer hsound (by rw [hheaps]; exact hw.heaps) (fun k s hs => ⟨s, by rw [hheaps]; exact hs, .refl s⟩) hhistory

theorem Chronicled.recalls (hstate : w'.state = w.state)
    (hrecalled : ∀ m, w'.history m → w.history m ∨ m = .step w.state ∨ m = .misfit w.state) : w'.Chronicled := by
  have hheaps := (state_eq_iff.mp hstate).1
  refine ⟨(Regime.sound_state hw.sound hstate).1, by rw [hheaps]; exact hw.heaps, fun x hx => ?_, fun k hk => ?_⟩
  · have hsame : ∀ (k : HeapId) s, w.heaps[k]? = some s → ∃ s', w'.heaps[k]? = some s' ∧ s.Precedes s' :=
      fun k s hs => ⟨s, by rw [hheaps]; exact hs, .refl s⟩
    rcases hrecalled _ hx with hx | hx | hx
    · exact (hw.past x hx).later hsame
    · obtain rfl := Moment.step.inj hx
      exact ⟨hw.heaps, hw.sound.heaps, hsame⟩
    · cases hx
  · rcases hrecalled _ hk with hk | hk | hk
    · exact hw.underflow k hk
    · cases hk
    · cases hk

theorem Chronicled.silent (h : w.Silent w') : w'.Chronicled :=
  hw.recalls h.state fun m hm => (h.recalled m hm).imp_right .inl

theorem Chronicled.misfit : (w.recalling (.misfit w.state)).Chronicled :=
  hw.recalls (state_recalling _ _) fun _ hm => (history_recalling hm).imp_right .inr

end

end World

/-! ## The regime -/

namespace Regime

theorem chronicled_aside (hw : w.Chronicled) (ha : w.Aside w') : w'.Chronicled ∧ w.Extends w' :=
  ⟨hw.of_heaps_eq (sound_aside hw.sound ha).1 ha.heaps ha.history, extends_of_heaps_eq ha.heaps ha.toProceeds⟩

def chronicle : Regime where
  inv := World.Chronicled
  rel := World.Extends
  deep h height w := ∀ s, w.heaps[h]? = some s → height ≤ s.stack.size
  sound hw := hw.sound
  later h := h.toLater
  refl := World.Extends.refl
  trans := World.Extends.trans
  silent hw h := ⟨hw.silent h, extends_of_heaps_eq (state_eq_iff.mp h.state).1 (proceeds_state h.state)⟩
  misfit hw _ _ _ _ _ := ⟨hw.misfit, extends_of_heaps_eq (state_eq_iff.mp (state_recalling _ _)).1
      (proceeds_state (state_recalling _ _))⟩
  alter hw ha := chronicled_aside hw ha.aside
  amend hw hs ha :=
    have hc := ha.charted (hw.heaps _ _ hs)
    ⟨hw.setHeap hs (hw.sound.amend hs ha) hc.1 hc.2.precedes, extends_setHeap hs hc.2⟩
  alloc hw hs hblank _ _ :=
    have hc := (hw.heaps _ _ hs).withObject _ (hw.sound.heaps _ _ hs)
    have hplain := plain.alloc hw.sound hs hblank (fun _ _ _ _ _ => ⟨trivial, trivial⟩) fun _ _ _ _ => trivial
    ⟨hw.setHeap hs hplain.1 hc.1 hc.2.precedes, extends_setHeap hs hc.2⟩
  issue hw hi := ⟨chronicled_aside hw hi.aside, trivial⟩

instance : IsPlain chronicle where
  books {w w'} hw hb := by
    have hw : w.Chronicled := hw
    exact ⟨hw.of_heaps_eq (hb.sound hw.sound) hb.heaps hb.history, extends_of_heaps_eq hb.heaps hb.proceeds⟩
  turn {w h s s'} hw hs ht := by
    have hw : w.Chronicled := hw
    obtain ⟨hc, htraces⟩ := ht.charted (hw.heaps h s hs)
    exact ⟨hw.setHeap hs (plain_turn hw.sound hs ht).1 hc htraces.precedes, extends_setHeap hs htraces⟩
  newHeap {w limits storage ownsStorage logs} hw hdepth := by
    have hw : w.Chronicled := hw
    obtain ⟨hsound, hlater⟩ := plain_newHeap hw.sound (sound_new limits storage ownsStorage logs)
    have hold : ∀ (k : HeapId) x, w.heaps[k]? = some x →
        (w.heaps.push { limits, storage, ownsStorage, logs })[k]? = some x :=
      fun k x hx => push_of_some hx
    refine ⟨hw.transfer hsound (fun k x hx => ?_) (fun k x hx => ⟨x, hold k x hx, .refl x⟩) rfl,
      hlater, fun k x x' hx hx' => ?_⟩
    · rcases push_cases hx with hx | rfl
      · exact hw.heaps k x hx
      · exact charted_new storage ownsStorage logs hdepth
    · exact Option.mem_unique (hold k x hx) hx' ▸ .refl x
  enter {w h s f} hw hs hbase hsize hdepth hopen hf := by
    have hw : w.Chronicled := hw
    have hsound : (w.setHeap h { s with frames := f :: s.frames }).Sound :=
      IsFramed.enter (R := plain) hw.sound hs hbase hsize hdepth hopen hf
    exact hw.setHeap hs hsound ((hw.heaps h s hs).enter hbase hsize hdepth hopen)
      ⟨id, fun _ => Nat.le_refl _, List.suffix_refl _, List.suffix_refl _⟩
  leave {w w' h s s' f} hw hs hbase hg hs' hframes := by
    have hw' : w'.Chronicled := hg.1
    have hext : (w.setHeap h { s with frames := f :: s.frames }).Extends w' := hg.2
    have htraces := hext.traces h _ s' (get_setHeap hs _) hs'
    have hc := hw'.heaps h s' hs'
    have hleft : s.Traces { s' with frames := s.frames } :=
      ⟨later_leave htraces.toLater (.inl rfl),
        fun _ i hi => htraces.below hframes i (Nat.lt_of_lt_of_le hi hbase), htraces.issued,
        htraces.retired⟩
    have hsound : (w'.setHeap h { s' with frames := s.frames }).Sound :=
      hw'.sound.setHeap hs' fun hopen ha => (hw'.sound.heaps h s' hs' hopen ha).popFrame hframes
    refine ⟨⟨hw'.setHeap hs' hsound (hc.leave hframes) ⟨id, fun _ => Nat.le_refl _,
      List.suffix_refl _, List.suffix_refl _⟩, .through hs hext hs' hleft⟩, fun x hx => ?_⟩
    rw [get_setHeap hs'] at hx
    cases hx
    have hbottom := hc.bottom_le
    unfold Heap.bottom at hbottom
    rwa [hframes] at hbottom
  lose {w w' h s s' f} hw hs hg hs' hframes := by
    have hext : (w.setHeap h { s with frames := f :: s.frames }).Extends w' := hg.2
    have htraces := hext.traces h _ s' (get_setHeap hs _) hs'
    have hlost : s.Traces { s' with frames := s'.frames } := by
      refine ⟨later_leave htraces.toLater (.inr hframes), fun hf i hi => ?_, htraces.issued, htraces.retired⟩
      rw [bottom_nil (hf.symm.trans hframes)] at hi
      exact absurd hi (Nat.not_lt_zero i)
    have hthrough : w.Extends (w'.setHeap h { s' with frames := s'.frames }) := .through hs hext hs' hlost
    rwa [setHeap_self hs'] at hthrough
  endFinalizer {w w' h s s'} hw hs hg hs' := by
    have hw : w.Chronicled := hw
    have hw' : w'.Chronicled := hg.1
    have hext : w.Extends w' := hg.2
    have hc' := hw'.heaps h s' hs'
    have hsound : (w'.setHeap h (s'.endFinalizer s.stack.size)).Sound :=
      (IsFramed.endFinalizer (R := plain) hw.sound hs ⟨hw'.sound, hext.toLater⟩ hs').1
    have hle : s'.bottom ≤ s.stack.size :=
      Nat.le_trans (hext.traces h s s' hs hs').bottom_le (hw.heaps h s hs).bottom_le
    have hfits : s'.Fits (s'.stack.take s.stack.size) := fits_take hle
    have hc : (s'.endFinalizer s.stack.size).Charted :=
      hc'.of_table rfl rfl rfl (hfits.bottom_le hc'.bottom_le) rfl rfl
    have htraces : s'.Traces (s'.endFinalizer s.stack.size) :=
      ⟨later_endFinalizer s' _, fun _ => hfits.below hc'.bottom_le, List.suffix_refl _, List.suffix_refl _⟩
    exact ⟨hw'.setHeap hs' hsound hc htraces.precedes, extends_setHeap hs' htraces⟩
  beginCollection {w h s} hw hs hidle := by
    have hw : w.Chronicled := hw
    have hc := hw.heaps h s hs
    have hnoted : World.Chronicled { w with orderly := w.orderly && s.hasRoom } :=
      hw.of_heaps_eq (hw.sound.of_heaps_eq rfl rfl (Nat.le_refl _)) rfl rfl
    exact hnoted.setHeap (s := s) hs (plain_beginCollection hw.sound hs hidle).1
      (hc.of_table rfl rfl rfl hc.bottom_le rfl rfl)
      ⟨id, fun _ => Nat.le_refl _, List.suffix_refl _, List.suffix_refl _⟩
  endCollection {w w' h s s' s'' ps} hw hs hidle hg hs' hswept hsound hps := by
    have hw : w.Chronicled := hw
    have hw' : w'.Chronicled := hg.1
    have hext : (w.beginCollection h s).Extends w' := hg.2
    have htraces := hext.traces h _ s' (heaps_beginCollection hs) hs'
    obtain ⟨hplain, -⟩ : plain.Good w (w'.setHeap h { s'' with collecting := false }) :=
      IsFramed.endCollection (R := plain) hw.sound hs hidle ⟨hw'.sound, hext.toLater⟩ hs' hswept hsound hps
    obtain ⟨hc, hpre⟩ := (hw'.heaps h s' hs').swept hswept fun _ ha => (hps ha).2
    have hnoted : w.Extends { w with orderly := w.orderly && s.hasRoom } :=
      (chronicled_aside hw (aside_note (fun ho => (Bool.and_eq_true_iff.mp ho).1) (.refl _))).2
    have hleft : s.Traces { s'' with collecting := false } := by
      refine ⟨later_endCollection hidle htraces.toLater hswept, fun hframes i hi => ?_, ?_,
        htraces.retired.trans hpre.retired⟩
      · show s''.stack[i]? = _
        rw [hswept.stack]
        exact htraces.below (hswept.frames.symm.trans hframes) i hi
      · exact htraces.issued.trans hpre.issued
    exact ⟨hw'.setHeap hs' hplain hc hpre, hnoted.trans (.through (s := s) hs hext hs' hleft)⟩

/-- A regime that says more than chronicles do: what it has to show of changes of one heap that leave its objects
alone, and of a sweep. -/
class Elaborates (R : Regime) : Prop where
  chronicled {w : World} : R.inv w → w.Chronicled
  extended {w w' : World} : R.rel w w' → w.Extends w'
  deepened {w : World} {h : HeapId} {height : Nat} : chronicle.deep h height w → R.deep h height w := by exact id
  rest {w : World} {h : HeapId} {s s' : Heap} : R.inv w → w.heaps[h]? = some s → (w.setHeap h s').Chronicled →
    s'.table = s.table → s'.closed = s.closed → s.Accounts 0 s' → s'.stash = s.stash →
    R.inv (w.setHeap h s')
  swept {w : World} {h : HeapId} {s s' : Heap} {ps : List HeapPtr} : R.inv w → w.heaps[h]? = some s →
    s.Swept ps s' → (s.Working → s'.Sound) →
    (s.table.Addressable → ps.Nodup ∧ ∀ p ∈ ps, (s.object? p).isSome = true) →
    (w.setHeap h { s' with collecting := false }).Chronicled → R.inv (w.setHeap h { s' with collecting := false })
  around {w w' : World} {heaps heaps' : Array Heap} {orderly : Bool} : R.rel { w with heaps, orderly } w' →
    w.Extends { w' with heaps := heaps' } → R.rel w { w' with heaps := heaps' }

open Elaborates in
instance {R : Regime} [Elaborates R] : IsFramed R where
  enter hw hs hbase hsize hdepth hopen hf :=
    rest hw hs (IsFramed.enter (R := chronicle) (chronicled hw) hs hbase hsize hdepth hopen hf) rfl rfl ⟨rfl, rfl, rfl⟩ rfl
  leave hw hs hbase hg hs' hframes := by
    obtain ⟨hc, hdeep⟩ := IsFramed.leave (R := chronicle) (chronicled hw) hs hbase
      ⟨chronicled hg.1, extended hg.2⟩ hs' hframes
    exact ⟨⟨rest hg.1 hs' hc.1 rfl rfl ⟨rfl, rfl, rfl⟩ rfl, around hg.2 hc.2⟩, deepened hdeep⟩
  lose hw hs hg hs' hframes := around hg.2
    (IsFramed.lose (R := chronicle) (chronicled hw) hs ⟨chronicled hg.1, extended hg.2⟩ hs' hframes)
  endFinalizer hw hs hg hs' := by
    have hc := IsFramed.endFinalizer (R := chronicle) (chronicled hw) hs ⟨chronicled hg.1, extended hg.2⟩ hs'
    exact ⟨rest hg.1 hs' hc.1 rfl rfl ⟨rfl, rfl, rfl⟩ rfl, around (R.refl _) hc.2⟩
  beginCollection {w h s} hw hs hidle := by
    have hc : (w.beginCollection h s).Chronicled := IsFramed.beginCollection (R := chronicle) (chronicled hw) hs hidle
    have hnoted : R.inv { w with orderly := w.orderly && s.hasRoom } :=
      (R.alter hw (.note (fun ho => (Bool.and_eq_true_iff.mp ho).1) (.refl _))).1
    exact rest (s := s) hnoted hs hc rfl rfl ⟨rfl, rfl, rfl⟩ rfl
  endCollection hw hs hidle hg hs' hswept hsound hps := by
    have hc := IsFramed.endCollection (R := chronicle) (chronicled hw) hs hidle
      ⟨chronicled hg.1, extended hg.2⟩ hs' hswept hsound hps
    exact ⟨swept hg.1 hs' hswept hsound hps hc.1, around hg.2 hc.2⟩

theorem chronicled_start (logging recording : Bool) : World.Chronicled { logging, recording } :=
  ⟨World.sound_start _ _, fun _ _ hs => absurd hs nofun, fun _ hx => hx.elim, fun _ hh => hh⟩

theorem chronicled_world (script : Script) (n : Nat) (recording : Bool) : (script.world n recording).Chronicled :=
  inv_world (R := chronicle) (chronicled_start _ _)

end Regime

theorem World.Chronicled.past_of_met {w : World} (hw : w.Chronicled) {x : State} (hx : w.Met x) : x.Past w := by
  rcases hx with hx | rfl
  · exact hw.past x hx
  · exact ⟨hw.heaps, hw.sound.heaps, fun _ s hs => ⟨s, hs, .refl s⟩⟩

end Tether
