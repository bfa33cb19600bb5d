import Tether.Proofs.Bookkeeping
import Tether.Proofs.Identity
import Tether.Proofs.Slots
import Mathlib.Data.Finset.Card

/-!
# Conservation of shares and wrappers

Finalizers find records by what objects carry, and they count for the bridge that they are of. Both is
the same bridge as long as a heap has one only, which its stash sees to.
-/

namespace Tether

open Regime M World Heap
open Bridge (bridgeKey objectKey finalizerKey)

variable {w w' : World} {h : HeapId} {s s' : Heap} {b : BridgeId} {r : RecordId}

namespace World

variable (w)

def Roomy : Prop := ∀ (h : HeapId) s, w.heaps[h]? = some s → s.issued.length < 2 ^ 32

/-- Finalizers find the records of their own bridges: nobody but bridges wrote their hidden keys or a
token, and all objects could be told apart. -/
def Faithful : Prop := w.breaches.keys = false ∧ w.Roomy

/-- Where things belong: finalizers to bridges of their heaps, the records that objects carry to bridges of
their heaps, and every bridge to the stash of its heap. -/
structure Grounds (w : World) : Prop where
  slots : ∀ (h : HeapId) s, w.heaps[h]? = some s → s.table.slots.size ≤ s.issued.length
  keyed : ∀ k, w.Keyed k → ∃ name n, k = classKey name n
  finalizers : ∀ (h : HeapId) s p o name arity b, w.heaps[h]? = some s → s.object? p = some o →
    o.body = .function name arity (some (.finalizer b)) → w.Based b h
  housed : ∀ b h, w.Based b h → h < w.heaps.size
  carriers : w.breaches.keys = false → ∀ h r, w.Shows h r → w.Seats h r
  bridged : w.Faithful → ∀ b (h : HeapId) s, w.Based b h → w.heaps[h]? = some s →
    s.closed = false → ∃ o, s.object? s.stash = some o ∧ o.hidden.get? bridgeKey = some (.pointer (.bridge b))
  single : w.Faithful → ∀ b b' h, w.Based b h → w.Based b' h → b = b'

/-- What a step leaves of an object: no finalizer is new, no record but one of a bridge of the heap, and
the bridge stays. -/
structure Heeds (w : World) (h : HeapId) (o o' : Object) : Prop where
  finalizer : ∀ name arity b, o'.body = .function name arity (some (.finalizer b)) → o.body = o'.body
  record : w.breaches.keys = false → ∀ r, o'.hidden.get? objectKey = some (.pointer (.record (some r))) →
    o.hidden.get? objectKey = some (.pointer (.record (some r))) ∨ w.Seats h r
  bridge : w.breaches.keys = false → ∀ v, o.hidden.get? bridgeKey = some v → o'.hidden.get? bridgeKey = some v

theorem Heeds.refl (h : HeapId) (o : Object) : w.Heeds h o o :=
  ⟨fun _ _ _ _ => rfl, fun _ _ => .inl, fun _ _ => id⟩

variable {w}

theorem heeds_of_hidden {w : World} {h : HeapId} {o o' : Object}
    (hbody : ∀ name arity code, o'.body = .function name arity code → o.body = o'.body)
    (hhidden : w.breaches.keys = false → ∀ k, k = objectKey ∨ k = bridgeKey →
      o'.hidden.get? k = o.hidden.get? k) : w.Heeds h o o' :=
  ⟨fun name arity _ => hbody name arity _, fun hk _ h => .inl ((hhidden hk _ (.inl rfl)).symm.trans h),
    fun hk _ h => (hhidden hk _ (.inr rfl)).trans h⟩

theorem Rewrites.heeds {w : World} {h : HeapId} {o o' : Object} (hw : w.Grounds) (hr : w.Rewrites h o o') :
    w.Heeds h o o' := by
  have hclass : ∀ {k : String}, w.Keyed k → k ≠ objectKey ∧ k ≠ bridgeKey := by
    intro k hk
    obtain ⟨name, n, rfl⟩ := hw.keyed k hk
    exact ⟨(classKey_ne name n).2.1, (classKey_ne name n).1⟩
  cases hr with
  | @hide k v hk =>
    have hne : k ≠ objectKey ∧ k ≠ bridgeKey := hk.elim (fun he => he ▸ by decide) hclass
    refine heeds_of_hidden (fun _ _ _ _ => rfl) fun _ k' hk' => ?_
    refine (KeyMap.get?_put ..).trans (if_neg ?_)
    rcases hk' with rfl | rfl
    · exact hne.1.symm
    · exact hne.2.symm
  | @mark r hr =>
    refine ⟨fun _ _ _ _ => rfl, fun _ r' hr' => .inr ?_, fun _ v hv => ?_⟩
    · rw [KeyMap.get?_put, if_pos rfl] at hr'
      have he := Option.some.inj hr'
      injection he with he
      injection he with he
      exact Option.some.inj he ▸ hr
    · exact (KeyMap.get?_put ..).trans ((if_neg (by decide)).trans hv)
  | @unhide k hk =>
    refine ⟨fun _ _ _ _ => rfl, fun _ r hr => .inl ?_, fun _ v hv => ?_⟩
    · rw [KeyMap.get?_erase] at hr
      split at hr
      · simp at hr
      · exact hr
    · refine (KeyMap.get?_erase ..).trans ((if_neg ?_).trans hv)
      rcases hk with rfl | hk
      · decide
      · exact (hclass hk).2.symm
  | equip => exact heeds_of_hidden (fun _ _ _ _ => rfl) fun _ _ _ => rfl

end World

/-! ## Heaps -/

namespace Heap

/-- A step that keeps the keys of wrappers. -/
structure Honours (w : World) (h : HeapId) (s s' : Heap) : Prop where
  isOpen : s'.closed = false → s.closed = false
  issued : s.issued.length ≤ s'.issued.length
  slots : s.table.slots.size ≤ s.issued.length → s'.table.slots.size ≤ s'.issued.length
  objects : ∀ p o', s'.object? p = some o' → (∃ o, s.object? p = some o ∧ w.Heeds h o o') ∨
    o'.hidden.get? objectKey = none ∧
      ∀ name arity b, o'.body = .function name arity (some (.finalizer b)) → w.Based b h
  stash : s'.closed = false → s'.table.Addressable → ∀ o, s.object? s.stash = some o →
    ∃ o', s'.object? s'.stash = some o' ∧ w.Heeds h o o'

theorem honours_modify {p : HeapPtr} {f : Object → Object} (htable : s'.table = s.table.modify p f)
    (hclosed : s'.closed = s.closed) (hissued : s'.issued = s.issued) (hstash : s'.stash = s.stash)
    (hf : ∀ o, s.object? p = some o → w.Heeds h o (f o)) : s.Honours w h s' := by
  have hget : ∀ q, s'.object? q = if q = p then (s.object? q).map f else s.object? q := fun q => by
    unfold object?
    rw [htable, Table.get?_modify]
  refine ⟨fun ho => hclosed ▸ ho, Nat.le_of_eq (by rw [hissued]), fun hle => ?_, fun q o' ho' => .inl ?_,
    fun _ _ o ho => ?_⟩
  · rw [htable, hissued, Table.slots_size_modify]
    exact hle
  · rw [hget] at ho'
    split at ho'
    case isTrue hq =>
      obtain ⟨o, ho, rfl⟩ := Option.map_eq_some_iff.mp ho'
      exact ⟨o, ho, hf o (hq ▸ ho)⟩
    case isFalse => exact ⟨o', ho', .refl w h o'⟩
  · rw [hstash, hget, ho]
    split
    case isTrue hq => exact ⟨f o, rfl, hf o (hq ▸ ho)⟩
    case isFalse => exact ⟨o, rfl, .refl w h o⟩

theorem honours_table (htable : s'.table = s.table) (hclosed : s'.closed = s.closed)
    (hissued : s'.issued = s.issued) (hstash : s'.stash = s.stash ∨ s.stash = .null) : s.Honours w h s' := by
  have hget : ∀ q, s'.object? q = s.object? q := fun q => by
    unfold object?
    rw [htable]
  refine ⟨fun ho => hclosed ▸ ho, ?_, fun hle => ?_, fun q o ho => ?_, fun _ _ o ho => ?_⟩
  · rw [hissued]
  · rw [htable, hissued]
    exact hle
  · exact .inl ⟨o, hget q ▸ ho, .refl w h o⟩
  · rcases hstash with he | he
    · exact ⟨o, by rw [he, hget, ho], .refl w h o⟩
    · rw [he] at ho
      cases ho.symm.trans (Table.get?_null _)

theorem Amends.honours (ha : s.Amends w s') : s.Honours w h s' := by
  cases ha with
  | restack | restore => exact honours_table rfl rfl rfl (.inl rfl)
  | edit _ _ hakin _ =>
    refine honours_modify rfl rfl rfl rfl fun o ho => heeds_of_hidden
      (fun name arity code hb => (((hakin o ho).function name arity code).mp hb).trans hb.symm) fun hk k hkey => ?_
    refine (hakin o ho).hidden (.inr hk) k ?_
    rcases hkey with rfl | rfl <;> simp [reserves]

theorem Writes.honours (hw : w.Grounds) (hs : s.Writes w h s') : s.Honours w h s' := by
  rcases hs.edit with rfl | ⟨p, f, stack, rfl, hf⟩
  · exact honours_table rfl rfl rfl (.inl rfl)
  · exact honours_modify rfl rfl rfl rfl fun o _ => (hf o).heeds hw

theorem honours_withObject {o : Object} (ho : o.Blank)
    (hcode : ∀ name arity b, o.body = .function name arity (some (.finalizer b)) → w.Based b h)
    (hsound : s.closed = false → s.table.Addressable → s.Sound) : s.Honours w h (s.withObject o) := by
  have hslots : (s.table.insert o).2.slots.size ≤ s.table.slots.size + 1 := by
    rcases Table.insert_cases s.table o with ⟨n, rest, -, he⟩ | ⟨-, he⟩ <;> rw [he] <;> simp
  refine ⟨id, Nat.le_succ _, fun hle => Nat.le_trans hslots (Nat.succ_le_succ hle), fun p o' ho' => ?_,
    fun hopen ha x hx => ⟨x, ?_, .refl w h x⟩⟩
  · rcases Table.get?_insert_cases ho' with rfl | ho'
    · exact .inr ⟨by rw [ho.hidden]; rfl, hcode⟩
    · exact .inl ⟨o', ho', .refl w h o'⟩
  · have hs := hsound hopen (Nat.lt_of_le_of_lt (Table.slots_size_le_insert s.table o) ha)
    have hfresh : s.object? (s.table.insert o).1 = none := Table.get?_insert_fresh hs.table ha
    rw [object?_withObject hs ha, if_neg fun he => absurd (hfresh.symm.trans (he ▸ hx)) (by simp)]
    exact hx

theorem Swept.honours {ps : List HeapPtr} (hs : s.Swept ps s')
    (hsound : s.closed = false → s.table.Addressable → s'.Sound) :
    s.Honours w h { s' with collecting := false } := by
  have hback : ∀ p o, s'.object? p = some o → s.object? p = some o := by
    intro p o ho
    rw [hs.objects] at ho
    split at ho
    · simp at ho
    · exact ho
  refine ⟨fun ho => hs.closed ▸ ho, Nat.le_of_eq (by rw [hs.issued]), fun hle => ?_,
    fun p o ho => .inl ⟨o, hback p o ho, .refl w h o⟩, fun hopen ha o ho => ?_⟩
  · show s'.table.slots.size ≤ s'.issued.length
    rw [hs.slots, hs.issued]
    exact hle
  · -- The stash is a root, so it was not freed.
    rcases (hsound (hs.closed ▸ hopen) (Nat.lt_of_le_of_lt (Nat.le_of_eq hs.slots.symm) ha)).stash with
      he | hsome
    · rw [← hs.stash, he] at ho
      cases ho.symm.trans (Table.get?_null _)
    · obtain ⟨o', ho'⟩ := Option.isSome_iff_exists.mp hsome
      have ho'' := hback _ o' ho'
      rw [hs.stash] at ho''
      cases ho.symm.trans ho''
      exact ⟨o, ho', .refl w h o⟩

theorem honours_shut (hclosed : s'.closed = true) (hissued : s'.issued = s.issued) (htable : s'.table = {}) :
    s.Honours w h s' := by
  refine ⟨fun ho => absurd (hclosed.symm.trans ho) nofun, Nat.le_of_eq (by rw [hissued]),
    fun _ => by rw [htable]; exact Nat.zero_le _, fun p o ho => ?_,
    fun ho => absurd (hclosed.symm.trans ho) nofun⟩
  unfold object? at ho
  rw [htable] at ho
  simpa using (Table.get?_eq_some.mp ho).2

end Heap

/-! ## Grounds -/

namespace World

theorem faithful_of_setHeap (hs : w.heaps[h]? = some s) (hissued : s.issued.length ≤ s'.issued.length)
    (hf : (w.setHeap h s').Faithful) : w.Faithful := by
  refine ⟨hf.1, fun k x hx => ?_⟩
  by_cases hk : k = h
  · subst hk
    cases hs.symm.trans hx
    exact Nat.lt_of_le_of_lt hissued (hf.2 k s' (get_setHeap hs s'))
  · refine hf.2 k x ?_
    rw [heaps_setHeap hs, if_neg hk]
    exact hx

theorem Grounds.setHeap (hw : w.Grounds) (hs : w.heaps[h]? = some s) (hh : s.Honours w h s') :
    (w.setHeap h s').Grounds := by
  have hfaithful := faithful_of_setHeap hs hh.issued
  refine ⟨fun k x hx => ?_, hw.keyed, fun k x p o name arity b hx ho hbody => ?_, fun b k hb => ?_,
    fun hkeys k r hr => ?_, fun hf b k x hb hx hopen => ?_, fun hf => hw.single (hfaithful hf)⟩
  · rcases heaps_setHeap_cases hs hx with ⟨rfl, rfl⟩ | hx
    · exact hh.slots (hw.slots k s hs)
    · exact hw.slots k x hx
  · rcases heaps_setHeap_cases hs hx with ⟨rfl, rfl⟩ | hx
    · rcases hh.objects p o ho with ⟨o0, ho0, ha⟩ | ⟨-, hcode⟩
      · exact hw.finalizers k s p o0 name arity b hs ho0 ((ha.finalizer _ _ _ hbody).trans hbody)
      · exact hcode name arity b hbody
    · exact hw.finalizers k x p o name arity b hx ho hbody
  · show k < (w.heaps.setIfInBounds h s').size
    rw [Array.size_setIfInBounds]
    exact hw.housed b k hb
  · obtain ⟨x, p, o, hx, ho, hkey⟩ := hr
    rcases heaps_setHeap_cases hs hx with ⟨rfl, rfl⟩ | hx
    · rcases hh.objects p o ho with ⟨o0, ho0, ha⟩ | ⟨hnone, -⟩
      · rcases ha.record hkeys r hkey with hkey | hseats
        · exact hw.carriers hkeys k r ⟨s, p, o0, hs, ho0, hkey⟩
        · exact hseats
      · cases hnone.symm.trans hkey
    · exact hw.carriers hkeys k r ⟨x, p, o, hx, ho, hkey⟩
  · rcases heaps_setHeap_cases hs hx with ⟨rfl, rfl⟩ | hx
    · obtain ⟨o, ho, hkey⟩ := hw.bridged (hfaithful hf) b k s hb hs (hh.isOpen hopen)
      have ha : x.table.Addressable := Nat.lt_of_le_of_lt (hh.slots (hw.slots k s hs)) (hf.2 k x (get_setHeap hs x))
      obtain ⟨o', ho', hheeds⟩ := hh.stash hopen ha o ho
      exact ⟨o', ho', hheeds.bridge hf.1 _ hkey⟩
    · exact hw.bridged (hfaithful hf) b k x hb hx hopen

theorem Grounds.beside (hw : w.Grounds) (hheaps : w'.heaps = w.heaps)
    (hbridges : w'.bridges.map (·.heapId) = w.bridges.map (·.heapId))
    (hrecords : Retains Record.bridge w.records w'.records)
    (hkeyed : ∀ k, w'.Keyed k → w.Keyed k ∨ ∃ name n, k = classKey name n)
    (hkeys : w'.breaches.keys = false → w.breaches.keys = false) : w'.Grounds := by
  have hbased : ∀ {b h}, w'.Based b h ↔ w.Based b h := by
    refine ⟨fun ⟨br', hbr', he⟩ => ?_, fun ⟨br, hbr, he⟩ => ?_⟩
    · obtain ⟨br, hbr, hid⟩ := getElem?_of_map_eq hbridges hbr'
      exact ⟨br, hbr, hid.symm.trans he⟩
    · obtain ⟨br', hbr', hid⟩ := getElem?_of_map_eq hbridges.symm hbr
      exact ⟨br', hbr', hid.symm.trans he⟩
  have hfaithful : w'.Faithful → w.Faithful := fun hf => ⟨hkeys hf.1, fun h s hs => hf.2 h s (hheaps ▸ hs)⟩
  refine ⟨by rw [hheaps]; exact hw.slots, fun k hk => (hkeyed k hk).elim (hw.keyed k) id,
    fun h s p o name arity b hs ho hbody => ?_, fun b h hb => ?_, fun hk h r hr => ?_,
    fun hf b h s hb hs => ?_, fun hf b b' h hb hb' => ?_⟩
  · exact hbased.mpr (hw.finalizers h s p o name arity b (hheaps ▸ hs) ho hbody)
  · rw [hheaps]
    exact hw.housed b h (hbased.mp hb)
  · obtain ⟨s, p, o, hs, ho, hkey⟩ := hr
    obtain ⟨x, hx, hb⟩ := hw.carriers (hkeys hk) h r ⟨s, p, o, hheaps ▸ hs, ho, hkey⟩
    obtain ⟨x', hx', he⟩ := hrecords r x hx
    exact ⟨x', hx', by rw [he]; exact hbased.mpr hb⟩
  · exact hw.bridged (hfaithful hf) b h s (hbased.mp hb) (hheaps ▸ hs)
  · exact hw.single (hfaithful hf) b b' h (hbased.mp hb) (hbased.mp hb')

theorem Grounds.newHeap (hw : w.Grounds) {x : Heap} (hx : x.table = {}) :
    ({ w with heaps := w.heaps.push x } : World).Grounds := by
  have hnone : ∀ p o, x.object? p ≠ some o := by
    intro p o ho
    unfold object? at ho
    rw [hx] at ho
    simpa using (Table.get?_eq_some.mp ho).2
  have hfaithful : World.Faithful { w with heaps := w.heaps.push x } → w.Faithful :=
    fun hf => ⟨hf.1, fun h s hs => hf.2 h s (push_of_some hs)⟩
  refine ⟨fun h s hs => ?_, hw.keyed, fun h s p o name arity b hs ho hbody => ?_, fun b h hb => ?_,
    fun hk h r ⟨s, p, o, hs, ho, hkey⟩ => ?_, fun hf b h s hb hs hopen => ?_, fun hf => hw.single (hfaithful hf)⟩
  · rcases push_cases hs with hs | rfl
    · exact hw.slots h s hs
    · rw [hx]
      exact Nat.zero_le _
  · rcases push_cases hs with hs | rfl
    · exact hw.finalizers h s p o name arity b hs ho hbody
    · exact absurd ho (hnone p o)
  · show h < (w.heaps.push x).size
    rw [Array.size_push]
    exact Nat.lt_succ_of_lt (hw.housed b h hb)
  · rcases push_cases hs with hs | rfl
    · exact hw.carriers hk h r ⟨s, p, o, hs, ho, hkey⟩
    · exact absurd ho (hnone p o)
  · have hlt := hw.housed b h hb
    rw [Array.getElem?_push, if_neg (Nat.ne_of_lt hlt)] at hs
    exact hw.bridged (hfaithful hf) b h s hb hs hopen

theorem Grounds.newBridge (hw : w.Grounds) (br : Bridge) (hs : w.heaps[br.heapId]? = some s)
    (hfree : w.Faithful → ∀ b, ¬ w.Based b br.heapId) (hstash : ∃ o, s.object? s.stash = some o ∧
      o.hidden.get? bridgeKey = some (.pointer (.bridge w.bridges.size))) :
    ({ w with bridges := w.bridges.push br } : World).Grounds := by
  have hforth : ∀ {b h}, w.Based b h → World.Based { w with bridges := w.bridges.push br } b h :=
    fun ⟨x, hx, he⟩ => ⟨x, push_of_some hx, he⟩
  have hback : ∀ {b h}, World.Based { w with bridges := w.bridges.push br } b h →
      w.Based b h ∨ b = w.bridges.size ∧ h = br.heapId := by
    rintro b h ⟨x, hx, rfl⟩
    rw [Array.getElem?_push] at hx
    split at hx
    case isTrue hb => exact .inr ⟨hb, by rw [Option.some.inj hx]⟩
    case isFalse => exact .inl ⟨x, hx, rfl⟩
  refine ⟨hw.slots, hw.keyed, fun h s p o name arity b hs ho hbody =>
    hforth (hw.finalizers h s p o name arity b hs ho hbody), fun b h hb => ?_, fun hk h r hr => ?_,
    fun hf b h x hb hx hopen => ?_, fun hf b b' h hb hb' => ?_⟩
  · rcases hback hb with hb | ⟨-, rfl⟩
    · exact hw.housed b h hb
    · exact (Array.getElem?_eq_some_iff.mp hs).1
  · obtain ⟨x, hx, hb⟩ := hw.carriers hk h r hr
    exact ⟨x, hx, hforth hb⟩
  · rcases hback hb with hb | ⟨rfl, rfl⟩
    · exact hw.bridged hf b h x hb hx hopen
    · exact Option.mem_unique hs hx ▸ hstash
  · rcases hback hb with hb | ⟨rfl, rfl⟩
    · rcases hback hb' with hb' | ⟨-, rfl⟩
      · exact hw.single hf b b' h hb hb'
      · exact absurd hb (hfree hf b)
    · rcases hback hb' with hb' | ⟨rfl, -⟩
      · exact absurd hb' (hfree hf b')
      · rfl

/-! ## The regime -/

end World

/-- A state of the past: its books agreed, and what was abandoned in it is so still. -/
structure State.Kept (x : State) (w : World) : Prop where
  holdings : (World.ofState x).Holdings
  reckoned : (World.ofState x).Reckoned (World.ofState x).Faithful
  abandoned : ∀ r c, (World.ofState x).Abandons r c → w.Abandons r c

namespace World

/-- A world with a past whose books agree, as they did whenever a step began or ended. -/
structure Booked (w : World) : Prop extends w.Chronicled where
  holdings : w.Holdings
  grounds : w.Grounds
  reckoned : w.Reckoned w.Faithful
  kept : ∀ x, w.history (.step x) → x.Kept w

theorem Booked.step (hw : w.Booked) (hc : w'.Chronicled) (hs : w.Settles w') (hg : w'.Grounds)
    (ht : w'.Reckoned w'.Faithful) (hhistory : w'.history = w.history) : w'.Booked ∧ w.Bequeaths w' := by
  refine ⟨⟨hc, hw.holdings.settle hs, hg, ht, fun x hx => ?_⟩, hs.bequeaths⟩
  have hk := hw.kept x (hhistory ▸ hx)
  exact ⟨hk.holdings, hk.reckoned, fun r c ha => hs.bequeaths.abandoned r c (hk.abandoned r c ha)⟩

theorem Booked.setHeap (hw : w.Booked) (hc : (w.setHeap h s').Chronicled) (hs : w.heaps[h]? = some s)
    (hh : s.Honours w h s') : (w.setHeap h s').Booked := by
  have hsame : w.SameBooks (w.setHeap h s') := sameBooks_of_eq rfl rfl rfl rfl rfl rfl id
  exact (hw.step hc (hsame.settles hw.holdings) (hw.grounds.setHeap hs hh)
    (hw.reckoned.same hsame (faithful_of_setHeap hs hh.issued)) rfl).1

theorem SameBooks.bridge (h : w.SameBooks w') : Retains Record.bridge w.records w'.records := by
  intro r x hx
  obtain ⟨x', hx', he⟩ := getElem?_of_map_eq h.records.symm hx
  exact ⟨x', hx', (Record.eq_of_book he.symm).1⟩

theorem SameBooks.heapIds (h : w.SameBooks w') : w'.bridges.map (·.heapId) = w.bridges.map (·.heapId) := by
  have he := congrArg (Array.map Prod.fst) h.bridges
  rwa [Array.map_map, Array.map_map] at he

theorem Booked.beside (hw : w.Booked) (hc : w'.Chronicled) (hs : w.SameBooks w')
    (hheaps : w'.heaps = w.heaps) (hkeyed : ∀ k, w'.Keyed k → w.Keyed k ∨ ∃ name n, k = classKey name n)
    (hhistory : w'.history = w.history) : w'.Booked ∧ w.Bequeaths w' :=
  hw.step hc (hs.settles hw.holdings) (hw.grounds.beside hheaps hs.heapIds hs.bridge hkeyed fun hk => (hs.bound hk).1)
    (hw.reckoned.same hs fun hf => ⟨(hs.bound hf.1).1, fun h s hx => hf.2 h s (hheaps ▸ hx)⟩) hhistory

theorem sameBooks_state (h : w'.state = w.state) : w.SameBooks w' := by
  obtain ⟨-, -, hnatives, hcontrols, hshares, hrecords, hbridges, -, -, hnames, -, -, hbreaches⟩ := state_eq_iff.mp h
  exact sameBooks_of_eq hshares hcontrols hrecords hnatives hnames hbridges fun hk => hbreaches ▸ hk

theorem Booked.keep (hw : w.Booked) : w.state.Kept w := by
  have hsame : w.SameBooks (ofState w.state) := sameBooks_state rfl
  exact ⟨hw.holdings.settle (hsame.settles hw.holdings), hw.reckoned.same hsame id, fun _ _ => id⟩

theorem Booked.recall (hw : w.Booked) (hc : w'.Chronicled) (hstate : w'.state = w.state)
    (hrecalled : ∀ x, w'.history (.step x) → w.history (.step x) ∨ x = w.state) :
    w'.Booked ∧ w.Bequeaths w' := by
  have hsame := sameBooks_state hstate
  have hset := hsame.settles hw.holdings
  obtain ⟨hheaps, -, -, -, -, -, -, hclasses, -⟩ := state_eq_iff.mp hstate
  refine ⟨⟨hc, hw.holdings.settle hset, hw.grounds.beside hheaps hsame.heapIds hsame.bridge (fun k hk => .inl ?_)
    fun hk => (hsame.bound hk).1, hw.reckoned.same hsame fun hf =>
      ⟨(hsame.bound hf.1).1, fun h s hx => hf.2 h s (hheaps ▸ hx)⟩, fun x hx => ?_⟩, hset.bequeaths⟩
  · obtain ⟨c, d, hd, he⟩ := hk
    exact ⟨c, d, hclasses ▸ hd, he⟩
  · have hk : x.Kept w := (hrecalled x hx).elim (hw.kept x) fun he => he ▸ hw.keep
    exact ⟨hk.holdings, hk.reckoned, fun r c ha => hset.bequeaths.abandoned r c (hk.abandoned r c ha)⟩

end World

namespace Regime

theorem booked_aside (hw : w.Booked) (ha : w.Aside w') (hs : w.SameBooks w')
    (hkeyed : ∀ k, w'.Keyed k → w.Keyed k ∨ ∃ name n, k = classKey name n) :
    w'.Booked ∧ w.Extends w' ∧ w.Bequeaths w' :=
  have hg := chronicled_aside hw.toChronicled ha
  have hb := hw.beside hg.1 hs ha.heaps hkeyed ha.history
  ⟨hb.1, hg.2, hb.2⟩

theorem booked_post (hw : w.Booked) (hc : chronicle.Good w w') (hs : w.Settles w')
    (hheaps : w'.heaps = w.heaps) (hbridges : w'.bridges.map (·.heapId) = w.bridges.map (·.heapId))
    (hclasses : w'.classes = w.classes) (hkeys : w'.breaches = w.breaches) (hhistory : w'.history = w.history)
    (ht : w'.Reckoned w.Faithful) : w'.Booked ∧ w.Extends w' ∧ w.Bequeaths w' := by
  have hrecords : Retains Record.bridge w.records w'.records := by
    intro r x hx
    obtain ⟨x', hx', he, -⟩ := hs.kept r x hx
    exact ⟨x', hx', he⟩
  have hkeyed : ∀ k, w'.Keyed k → w.Keyed k ∨ ∃ name n, k = classKey name n :=
    fun k ⟨c, d, hd, he⟩ => .inl ⟨c, d, hclasses ▸ hd, he⟩
  have hfaithful : w'.Faithful → w.Faithful := fun hf => ⟨hkeys ▸ hf.1, fun h s hx => hf.2 h s (hheaps ▸ hx)⟩
  have hb := hw.step hc.1 hs (hw.grounds.beside hheaps hbridges hrecords hkeyed fun hk => hkeys ▸ hk)
    (fun b br hbr => (ht b br hbr).imp_right fun h => h.imp_right fun h => h.imp_right (· ∘ hfaithful)) hhistory
  exact ⟨hb.1, hc.2, hb.2⟩

theorem booked_issue (hw : w.Booked) (hi : w.Issues w') :
    (w'.Booked ∧ w.Extends w' ∧ w.Bequeaths w') ∧ w'.Spare w.shares.size := by
  have hg := chronicled_aside hw.toChronicled hi.aside
  have hset := hi.settles hw.holdings
  have hlt : w.shares.size < w'.shares.size := by cases hi <;> exact Array.size_push _ ▸ Nat.lt_succ_self _
  cases hi <;> exact ⟨booked_post hw hg hset rfl rfl rfl rfl rfl (hw.reckoned.of_eq rfl rfl id), hlt,
    fun r y hy => Nat.ne_of_lt (hw.holdings.origin_lt hy)⟩

theorem booked_setHeap (hw : w.Booked) (hg : chronicle.Good w (w.setHeap h s')) (hs : w.heaps[h]? = some s)
    (hh : s.Honours w h s') :
    (w.setHeap h s').Booked ∧ w.Extends (w.setHeap h s') ∧ w.Bequeaths (w.setHeap h s') :=
  ⟨hw.setHeap hg.1 hs hh, hg.2, Nat.le_refl _, fun _ x hx => .inl ⟨x, hx, rfl⟩, fun _ _ => id⟩

def booked : Regime where
  inv := World.Booked
  rel w w' := w.Extends w' ∧ w.Bequeaths w'
  loose i w := w.Spare i
  deep := chronicle.deep
  tends h b w := w.Based b h
  sound hw := hw.sound
  later h := h.1.toLater
  refl w := ⟨.refl w, .refl w⟩
  trans h h' := ⟨h.1.trans h'.1, h.2.trans h'.2⟩
  loose_stable h hi := h.2.spare hi
  tends_stable h := fun ⟨br, hbr, he⟩ => by
    obtain ⟨br', hbr', hid⟩ := h.1.bridges _ br hbr
    exact ⟨br', hbr', hid.trans he⟩
  tends_code hw hs _ ho hbody := hw.grounds.finalizers _ _ _ _ _ _ _ hs ho hbody
  loose_named hw hm := hw.holdings.named _ _ hm
  silent hw h :=
    have hc := chronicle.silent hw.toChronicled h
    have hb := hw.recall hc.1 h.state fun x hx => (h.recalled _ hx).imp_right Moment.step.inj
    ⟨hb.1, hc.2, hb.2⟩
  misfit hw _ hc _ htypes hmisfit :=
    have hg := chronicle.misfit hw.toChronicled trivial hc trivial htypes hmisfit
    have hb := hw.recall hg.1 (state_recalling _ _) fun x hx =>
      (history_recalling hx).imp_right nofun
    ⟨hb.1, hg.2, hb.2⟩
  amend hw hs ha := booked_setHeap hw (chronicle.amend hw.toChronicled hs ha) hs ha.honours
  alloc hw hs hblank _ hfinal := booked_setHeap hw (chronicle.alloc hw.toChronicled hs hblank
    (fun _ _ _ _ _ => ⟨trivial, trivial⟩) fun _ _ _ _ => trivial) hs
    (honours_withObject hblank hfinal (hw.sound.heaps _ _ hs))
  alter {w w'} hw ha := by
    have haside := ha.aside
    cases ha with
    | note _ hb =>
      exact booked_aside hw haside (sameBooks_of_eq rfl rfl rfl rfl rfl rfl fun hk =>
        Bool.eq_false_iff.mpr fun h => absurd ((hb.keys h).symm.trans hk) nofun) fun _ => .inl
    | tamper _ hkeys ht =>
      refine booked_aside hw haside ⟨rfl, rfl, rfl, rfl, fun a n' c hn' hc => ?_,
        fun hk => absurd (hkeys.symm.trans hk) nofun, fun _ _ => .inl⟩ fun _ => .inl
      rcases modify_cases hn' with ⟨-, n, -, rfl⟩ | ⟨-, hn⟩
      · rcases ht with rfl | ⟨m, k, hk, rfl⟩
        · simp at hc
        · exact ⟨m, k, hk, hc⟩
      · exact ⟨a, n', hn, hc⟩
    | newNative hn =>
      refine booked_aside hw haside (sameBooks_natives fun o n' hn' => ?_) fun _ => .inl
      rcases push_cases hn' with hn' | rfl
      · exact .inr ⟨n', hn', rfl, .inr rfl⟩
      · exact .inl hn
    | editNative hf =>
      exact booked_aside hw haside
        (sameBooks_modifyNative fun n => ⟨by rw [(hf n).1], .inr (by rw [(hf n).1])⟩) fun _ => .inl
    | newClass hkey =>
      refine booked_aside hw haside (sameBooks_of_eq rfl rfl rfl rfl rfl rfl id) fun k ⟨c, d, hd, he⟩ => ?_
      rcases push_cases hd with hd | rfl
      · exact .inl ⟨c, d, hd, he⟩
      · obtain ⟨name, hname⟩ := hkey
        exact .inr ⟨name, _, he.symm.trans hname⟩
    | editClass hf =>
      refine booked_aside hw haside (sameBooks_of_eq rfl rfl rfl rfl rfl rfl id) fun k ⟨c, d, hd, he⟩ => .inl ?_
      obtain ⟨d', hd', hkey⟩ := getElem?_modify_back (g := ClassDecl.key) (fun d => (hf d).1.1) hd
      exact ⟨c, d', hd', hkey.symm.trans he⟩
    | editBridge hf =>
      exact booked_aside hw haside (sameBooks_bridges fun br => ⟨(hf br).1, (hf br).2.2⟩) fun _ => .inl
    | enroll => exact booked_aside hw haside (sameBooks_bridges fun _ => ⟨rfl, rfl⟩) fun _ => .inl
    | nameShare hi =>
      refine booked_aside hw haside { World.SameBooks.refl w with named := fun name' j hm => ?_ } fun _ => .inl
      rcases List.mem_cons.mp hm with he | hm
      · exact .inr ((Prod.mk.inj he).2 ▸ hi)
      · exact .inl hm
    | _ => exact booked_aside hw haside (sameBooks_of_eq rfl rfl rfl rfl rfl rfl id) fun _ => .inl
  issue hw hi := booked_issue hw hi

theorem booked_attach {v : World} (hw : w.Booked) {s1 s2 : Heap} {strict : Bool} (hv : v.Booked)
    (hs0 : v.heaps[h]? = some s) (hs : w.heaps[h]? = some s1) (hopen : s.closed = false)
    (hs1 : s1 = s.push (.object s.stash)) (hhas : s1.hasHidden (-1) bridgeKey = .ok false)
    (hs2 : s2 = s1.push (.pointer (.bridge w.bridges.size)))
    (hput : s2.putHidden (-2) bridgeKey = .ok s' ∨ (∃ e, s2.putHidden (-2) bridgeKey = .error e) ∧ s' = s2)
    (hc : chronicle.Good w (w.attaching h s' strict)) : booked.Good w (w.attaching h s' strict) := by
  have hbot : s.bottom ≤ s.stack.size := (hv.heaps h s hs0).bottom_le
  have hbot1 : s1.bottom ≤ s1.stack.size := (hw.heaps h s1 hs).bottom_le
  obtain ⟨o, ho, hnone⟩ := object_of_hasHidden (hs1 ▸ value?_push hbot _) hhas
  have hstash : s1.stash = s.stash := by rw [hs1]; rfl
  -- The stash is there, so it is written to.
  have hvalue : s2.value? (-2) = some (.object s.stash) := by
    rw [hs2, hs1]
    exact value?_push_push hbot _ _
  have hwritten := putHidden_push hbot1 (hs2 ▸ hvalue) ho bridgeKey
  rw [← hs2] at hwritten
  have hs' : s' = s1.modifyObject s.stash fun o =>
      { o with hidden := o.hidden.put bridgeKey (.pointer (.bridge w.bridges.size)) } := by
    rcases hput with hput | ⟨⟨e, hput⟩, -⟩
    · exact Except.ok.inj (hput.symm.trans hwritten)
    · cases hput.symm.trans hwritten
  have hhonours : s1.Honours w h s' := by
    rw [hs']
    refine honours_modify rfl rfl rfl rfl fun o' ho' =>
      ⟨fun _ _ _ _ => rfl, fun _ r hr => .inl ?_, fun _ v hv => ?_⟩
    · exact ((KeyMap.get?_put ..).trans (if_neg (by decide))).symm.trans hr
    · cases ho.symm.trans ho'
      simp [KeyMap.has, hv] at hnone
  have hset : w.Settles (w.attaching h s' strict) :=
    settles_shares rfl (Array.size_push _ ▸ Nat.le_succ _) rfl rfl (fun _ n hn => ⟨n, hn, rfl⟩)
      hw.holdings.counted (Nat.le_refl _) (fun a n _ hn hc => .inr ⟨a, n, hn, hc⟩) (.refl _ _)
      (fun _ sh hsh => .inr ⟨sh, hsh, rfl⟩) fun _ _ _ => rfl
  have hgrounds := hw.grounds.setHeap hs hhonours
  have hfaithful : (w.setHeap h s').Faithful → w.Faithful := faithful_of_setHeap hs hhonours.issued
  have hattached : (w.attaching h s' strict).Grounds := by
    refine hgrounds.newBridge { heapId := h, strict, logs := w.logging } (get_setHeap hs s') (fun hf b hb => ?_) ?_
    · obtain ⟨x, hx, hkey⟩ := hw.grounds.bridged (hfaithful hf) b h s1 hb hs (hs1 ▸ hopen)
      cases ho.symm.trans (hstash ▸ hx)
      simp [KeyMap.has, hkey] at hnone
    · refine ⟨{ o with hidden := o.hidden.put bridgeKey (.pointer (.bridge w.bridges.size)) }, ?_, ?_⟩
      · rw [hs']
        show (s1.table.modify s.stash _).get? s1.stash = _
        rw [hstash, Table.get?_modify, if_pos rfl]
        exact congrArg (Option.map _) ho
      · exact (KeyMap.get?_put ..).trans (if_pos rfl)
  have hb := hw.step hc.1 hset hattached (hw.reckoned.newBridge hw.holdings rfl rfl rfl hfaithful) rfl
  exact ⟨hb.1, hc.2, hb.2⟩

theorem booked_posts (hw : w.Booked) (hp : booked.Posts w w') : booked.Good w w' := by
  have hg : chronicle.Good w w' := IsPosting.post hw.toChronicled
    (hp.mono World.Booked.toChronicled (fun _ => trivial) (fun _ => trivial) fun _ => trivial)
  have hids : ∀ {b : BridgeId} {f : Bridge → Bridge}, (∀ br, (f br).heapId = br.heapId) →
      (w.bridges.modify b f).map (·.heapId) = w.bridges.map (·.heapId) := fun hf => map_modify_eq hf _ _
  have hbeside : w.SameBooks w' → w'.heaps = w.heaps → w'.classes = w.classes → w'.history = w.history →
      booked.Good w w' := fun hs hheaps hclasses hhistory =>
    have hb := hw.beside hg.1 hs hheaps (fun k ⟨c, d, hd, he⟩ => .inl ⟨c, d, hclasses ▸ hd, he⟩) hhistory
    ⟨hb.1, hg.2, hb.2⟩
  cases hp with
  | control =>
    exact booked_post hw hg (settles_withControl hw.holdings _) rfl rfl rfl rfl rfl (hw.reckoned.of_eq rfl rfl id)
  | destroy c =>
    have hrefs : (w.controls.modify c fun k => { k with destroyed := true }).map (·.refs) =
        w.controls.map (·.refs) := map_modify_eq (by exact fun _ => rfl) _ _
    exact hbeside { World.SameBooks.refl w with controls := hrefs } rfl rfl rfl
  | giveUp hi hsh hr =>
    exact booked_post hw hg (settles_giveUp hw.holdings hi hsh hr) rfl rfl rfl rfl rfl (hw.reckoned.of_eq rfl rfl id)
  | untie => exact hbeside (sameBooks_modifyNative fun _ => ⟨rfl, .inl rfl⟩) rfl rfl rfl
  | sever hn hr hx hs =>
    refine booked_post hw hg (settles_sever hw.holdings hn hr hx hs) rfl (hids fun _ => rfl) rfl rfl rfl
      (hw.reckoned.sever hx hs fun hf => ?_)
    obtain ⟨y, i, -, ⟨hy, -, hi⟩, -⟩ := hw.holdings.bound hf.1 _ _ _ hn hr
    cases hx.symm.trans hy
    exact Option.isSome_iff_exists.mpr ⟨i, hi⟩
  | @bind o i w1 b h c ptr he hb _ =>
    obtain ⟨hi, hissues⟩ := issues_take he
    have hset := hissues.settles hw.holdings
    obtain ⟨br, hbr, -⟩ := hb
    have hparts : w1.heaps = w.heaps ∧ w1.bridges = w.bridges ∧ w1.classes = w.classes ∧ w1.records = w.records ∧
        w1.breaches = w.breaches ∧ w1.history = w.history ∧
        ∃ sh, w1.shares[i]? = some sh ∧ sh.object = o ∧ sh.released = false := by
      obtain ⟨n, c, w1, -, rfl, rfl, ⟨-, rfl⟩ | ⟨-, -, rfl⟩⟩ := exec_take_eq_ok he <;>
        exact ⟨rfl, rfl, rfl, rfl, rfl, rfl, _, Array.getElem?_push_size, rfl, rfl⟩
    obtain ⟨hheaps, hbridges, hclasses, hrecords, hkeys, hhistory, sh, hsh, ho, hr⟩ := hparts
    refine booked_post hw hg (hset.bind hi hrecords hsh ho hr (Array.getElem?_eq_some_iff.mp hbr).1) hheaps ?_
      hclasses hkeys hhistory (World.Reckoned.bind (hw.reckoned.of_eq hrecords hbridges id) rfl rfl)
    show (w1.bridges.modify b _).map _ = _
    rw [hbridges]
    exact hids fun _ => rfl
  | @unlink b h r x i sh log hfound htends hlive hsh hr =>
    have hmap := hids (b := b) (f := Bridge.countFinalized) fun _ => rfl
    have hreckoned : (w.unlinking b r sh.object log).Reckoned w.Faithful := by
      refine hw.reckoned.unlink hlive fun hf => ?_
      -- The record is of a bridge of the heap that it was found on, and there is only one.
      obtain ⟨v, s, hv, hshows, rfl⟩ := hfound
      obtain ⟨y, hy, hb⟩ := hv.grounds.carriers hf.1 h r hshows
      cases hlive.1.symm.trans hy
      exact hw.grounds.single hf _ _ h hb htends
    exact booked_post hw hg (settles_unlink hw.holdings hlive hsh hr) rfl hmap rfl rfl rfl
      (hreckoned.of_eq rfl rfl id)
  | @unlinkSpent b h r x i sh log htends hlive hsh hspent =>
    obtain ⟨-, sh', hsh', hr⟩ := hw.holdings.held hlive
    obtain ⟨br, hbr, -⟩ := htends
    cases hsh.symm.trans hsh'
    rcases hspent with he | he
    · cases he.symm.trans hr
    · cases he.symm.trans hbr
  | discard r =>
    have hbooks : (w.records.modify r fun x => { x with ptr := .null }).map Record.book =
        w.records.map Record.book := map_modify_eq (by exact fun _ => rfl) _ _
    exact hbeside { World.SameBooks.refl w with records := hbooks } rfl rfl rfl
  | force => exact hbeside (sameBooks_of_eq rfl rfl rfl rfl rfl rfl id) rfl rfl rfl
  | attach hv hs0 hs hopen hs1 hhas hs2 hput => exact booked_attach hw hv hs0 hs hopen hs1 hhas hs2 hput hg

instance : Elaborates booked where
  chronicled := World.Booked.toChronicled
  extended := And.left
  rest hw hs hc htable hclosed hissued hstash :=
    World.Booked.setHeap hw hc hs (honours_table htable hclosed hissued.issued (.inl hstash))
  swept {w _ _ _ _} (hw : w.Booked) hs hswept hsound _ hc :=
    hw.setHeap hc hs (hswept.honours fun hopen ha => hsound (hw.sound.working hs hopen ha))
  around hrel hext := ⟨hext, hrel.2.shares, hrel.2.fresh, hrel.2.abandoned⟩

instance : IsPosting booked where
  sane {w h s code} hsane := by
    cases code with
    | bound b c => exact ⟨trivial, trivial⟩
    | finalizer b => exact hsane
    | program => trivial
  start {w _ _} p (hw : w.Booked) hs :=
    booked_setHeap hw (IsHeapwise.start p hw.toChronicled hs) hs (honours_modify rfl rfl rfl rfl fun _ _ =>
      heeds_of_hidden (fun _ _ _ _ => rfl) fun _ _ _ => rfl)
  clear {w _ _} (hw : w.Booked) hs :=
    booked_setHeap hw (IsHeapwise.clear hw.toChronicled hs) hs (honours_table rfl rfl rfl (.inl rfl))
  shut {w _ _ _} (hw : w.Booked) hs hempty hclosed hlimits hframes hissued hretired htable :=
    booked_setHeap hw (IsHeapwise.shut hw.toChronicled hs hempty hclosed hlimits hframes hissued hretired
      htable) hs (honours_shut hclosed hissued.issued htable)
  tends hb := hb
  root {w _ _ _ _} (hw : w.Booked) hs hroots hstash :=
    booked_setHeap hw (IsPosting.root hw.toChronicled hs hroots hstash) hs (honours_table rfl rfl rfl hstash)
  newHeap {w limits storage ownsStorage logs} hw hdepth := by
    have hw : w.Booked := hw
    have hg : chronicle.Good w { w with heaps := w.heaps.push { limits, storage, ownsStorage, logs } } :=
      IsPosting.newHeap hw.toChronicled hdepth
    have hsame : w.SameBooks { w with heaps := w.heaps.push { limits, storage, ownsStorage, logs } } :=
      sameBooks_of_eq rfl rfl rfl rfl rfl rfl id
    have hb := hw.step hg.1 (hsame.settles hw.holdings) (hw.grounds.newHeap rfl)
      (hw.reckoned.same hsame fun hf => ⟨hf.1, fun h s hs => hf.2 h s (push_of_some hs)⟩) rfl
    exact ⟨hb.1, hg.2, hb.2⟩
  write {w _ _ _} (hw : w.Booked) hs hwrites :=
    booked_setHeap hw (IsPosting.write hw.toChronicled hs hwrites) hs (hwrites.honours hw.grounds)
  post := booked_posts

/-! ## Whole runs -/

theorem booked_world (script : Script) (n : Nat) (recording : Bool) : (script.world n recording).Booked :=
  inv_world (R := booked) ⟨chronicled_start _ _, ⟨nofun, nofun, nofun, nofun, nofun, nofun, nofun⟩,
    ⟨fun _ _ hs => absurd hs nofun, fun _ ⟨_, _, hd, _⟩ => absurd hd nofun,
      fun _ _ _ _ _ _ _ hs => absurd hs nofun, fun _ _ ⟨_, hbr, _⟩ => absurd hbr nofun,
      fun _ _ _ ⟨_, _, _, hs, _⟩ => absurd hs nofun, fun _ _ _ _ _ hs => absurd hs nofun,
      fun _ _ _ _ ⟨_, hbr, _⟩ => absurd hbr nofun⟩,
    nofun, fun _ hx => hx.elim⟩

theorem kept_of_met {script : Script} {n : Nat} {recording : Bool} {x : State}
    (hx : (script.world n recording).Met x) : x.Kept (script.world n recording) := by
  have hw := booked_world script n recording
  rcases hx with hx | rfl
  · exact hw.kept x hx
  · exact hw.keep

end Regime

section Counting

variable {α : Type} (xs : Array α) (p q : α → Bool)

theorem countP_split : xs.countP p = xs.countP (fun a => p a && q a) + xs.countP fun a => p a && !q a := by
  obtain ⟨l⟩ := xs
  simp only [List.countP_toArray]
  rw [List.countP_eq_countP_filter_add l p q, List.countP_filter, List.countP_filter]

theorem countP_eq_card : xs.countP p = ((Finset.range xs.size).filter fun i => (xs[i]?).any p = true).card := by
  obtain ⟨l⟩ := xs
  simp only [List.countP_toArray, List.size_toArray, List.getElem?_toArray]
  induction l using List.reverseRecOn with
  | nil => rfl
  | append_singleton l a ih =>
    have hold : ((Finset.range l.length).filter fun i => ((l ++ [a])[i]?).any p = true) =
        (Finset.range l.length).filter fun i => (l[i]?).any p = true :=
      Finset.filter_congr fun i hi => by rw [List.getElem?_append_left (Finset.mem_range.mp hi)]
    rw [List.countP_append, List.length_append, List.length_singleton, Finset.range_add_one,
      Finset.filter_insert, hold, List.getElem?_concat_length, ih]
    cases h : p a <;> simp [h]

end Counting

def Record.live (x : Record) : Bool := x.share.isSome && !x.severed

namespace State

variable (x : State) (c : ControlId)

def owes (i : ShareId) : Bool :=
  (x.shares[i]?).any fun sh => sh.control == c && !sh.released

/-- The number of the shares of a control block that native code has: no record was made with them, and
they were not given up. -/
def handles : Nat :=
  ((Finset.range x.shares.size).filter fun i => x.owes c i ∧ ¬ x.records.any (·.origin == i)).card

/-- The number of the live records that hold a share of a control block. -/
def holders : Nat :=
  x.records.countP fun y => y.live && y.share.any fun i => (x.shares[i]?).any (·.control == c)

/-- The number of the severed records that were made with a share of a control block which was never
given up. -/
def strays : Nat := x.records.countP fun y => y.severed && x.owes c y.origin

variable {x : State} {c : ControlId}

theorem Kept.card_made (hx : x.Kept w) (c : ControlId) :
    ((Finset.range x.shares.size).filter fun i => x.owes c i ∧ x.records.any (·.origin == i)).card =
      x.records.countP fun y => x.owes c y.origin := by
  have hget : ∀ {r : RecordId}, (x.records[r]?).any (fun y => x.owes c y.origin) = true →
      ∃ y, x.records[r]? = some y ∧ x.owes c y.origin = true := fun h => (Option.any_eq_true _ _).mp h
  rw [countP_eq_card]
  symm
  refine Finset.card_bij (fun r _ => ((x.records[r]?).map (·.origin)).getD 0) (fun r hr => ?_)
    (fun r hr r' hr' he => ?_) fun i hi => ?_
  · obtain ⟨y, hy, howes⟩ := hget (Finset.mem_filter.mp hr).2
    have hlt : y.origin < x.shares.size := hx.holdings.origin_lt hy
    have hany : x.records.any (·.origin == y.origin) = true :=
      Array.any_eq_true'.mpr ⟨y, Array.mem_of_getElem? hy, beq_self_eq_true _⟩
    rw [hy]
    exact Finset.mem_filter.mpr ⟨Finset.mem_range.mpr hlt, howes, hany⟩
  · obtain ⟨y, hy, -⟩ := hget (Finset.mem_filter.mp hr).2
    obtain ⟨y', hy', -⟩ := hget (Finset.mem_filter.mp hr').2
    simp only [hy, hy', Option.map_some, Option.getD_some] at he
    exact hx.holdings.distinct r r' y y' hy hy' he
  · obtain ⟨-, howes, hany⟩ := Finset.mem_filter.mp hi
    obtain ⟨y, hm, he⟩ := Array.any_eq_true'.mp hany
    obtain ⟨r, hr, rfl⟩ := Array.mem_iff_getElem.mp hm
    obtain rfl := beq_iff_eq.mp he
    have hy : x.records[r]? = some x.records[r] := Array.getElem?_eq_getElem hr
    refine ⟨r, Finset.mem_filter.mpr ⟨Finset.mem_range.mpr hr, ?_⟩, ?_⟩
    · rw [hy]
      exact howes
    · rw [hy]
      rfl

theorem Kept.countP_origin (hx : x.Kept w) (c : ControlId) :
    (x.records.countP fun y => x.owes c y.origin) = x.holders c + x.strays c := by
  rw [countP_split _ _ (·.severed), Nat.add_comm]
  refine congrArg₂ (· + ·) (Array.countP_congr fun y hm => ?_) (Array.countP_congr fun y _ => by rw [Bool.and_comm])
  obtain ⟨r, hr, rfl⟩ := Array.mem_iff_getElem.mp hm
  obtain ⟨-, sh, hsh, hagrees⟩ := hx.holdings.records r _ (Array.getElem?_eq_getElem hr)
  have hsh : x.shares[x.records[r].origin]? = some sh := hsh
  rcases hagrees with ⟨hshare, hsevered, hreleased⟩ | ⟨hnone, hlost⟩
  · simp [owes, Record.live, hsh, hshare, hsevered, hreleased]
  · rcases hlost with hs | hs <;> simp [owes, Record.live, hsh, hnone, hs]

end State

/-- **Conservation of shares.** In every state that a run of native code met, the count of a control block
is the number of the shares that native code has, of the live records, and of the severed records whose
share was never given up. The last ones stay what they are for the rest of the run, so an object whose
record was severed is never released for good. -/
theorem shares_conserved {n : Nat} {recording : Bool} {x : State} (script : Script)
    (hx : (script.world n recording).Met x) (c : ControlId) :
    (∀ k, x.controls[c]? = some k → k.refs = x.handles c + x.holders c + x.strays c) ∧
      x.strays c ≤ (script.world n recording).state.strays c := by
  have hk := kept_of_met hx
  refine ⟨fun k hc => ?_, ?_⟩
  · have hcounted : k.refs = (x.shares.countP fun sh => sh.control == c && !sh.released : Nat) :=
      hk.holdings.counted c k hc
    rw [hcounted, countP_eq_card]
    have hsplit := Finset.card_filter_add_card_filter_not
      (s := (Finset.range x.shares.size).filter fun i => x.owes c i = true)
      (fun i => x.records.any (·.origin == i) = true)
    rw [Finset.filter_filter, Finset.filter_filter, hk.card_made, hk.countP_origin] at hsplit
    have hhandles : x.handles c = ((Finset.range x.shares.size).filter fun i =>
      x.owes c i = true ∧ ¬ x.records.any (·.origin == i) = true).card := rfl
    have hopen : ((Finset.range x.shares.size).filter fun i => x.owes c i = true).card =
      ((Finset.range x.shares.size).filter fun i =>
        (x.shares[i]?).any (fun sh => sh.control == c && !sh.released) = true).card := rfl
    omega
  · unfold State.strays
    rw [countP_eq_card, countP_eq_card]
    refine Finset.card_le_card fun r hr => ?_
    obtain ⟨y, hy, hstray⟩ := (Option.any_eq_true _ _).mp (Finset.mem_filter.mp hr).2
    obtain ⟨hsevered, howes⟩ := Bool.and_eq_true_iff.mp hstray
    obtain ⟨sh, hsh, hc⟩ := (Option.any_eq_true _ _).mp howes
    simp only [Bool.and_eq_true, beq_iff_eq, Bool.not_eq_true'] at hc
    obtain ⟨y', sh', hy', hsevered', hsh', hc'⟩ := hk.abandoned r c ⟨y, sh, hy, hsevered, hsh, hc⟩
    refine Finset.mem_filter.mpr ⟨Finset.mem_range.mpr (Array.getElem?_eq_some_iff.mp hy').1,
      (Option.any_eq_true _ _).mpr ⟨y', hy', ?_⟩⟩
    refine Bool.and_eq_true_iff.mpr ⟨hsevered', (Option.any_eq_true _ _).mpr ⟨sh', hsh', ?_⟩⟩
    simp [hc']

/-- An object with a live wrapper is disposed of, and the share that native code has is released. -/
def disposesShared : Script :=
  .ofSteps (makesGadget ++ [.objects (.share "x" "s"),
        .bridge (.pushNative (some "x")), .objects (.dispose "x"), .objects (.release "s")])

/-- The count stays at one: the severed record has abandoned its share. -/
theorem shares_conserved_disposesShared : ∃ k, (disposesShared.world 2 true).controls[0]? = some k ∧
    k.refs = 1 ∧ (disposesShared.world 2 true).state.handles 0 = 0 ∧
    (disposesShared.world 2 true).state.holders 0 = 0 ∧ (disposesShared.world 2 true).state.strays 0 = 1 := by
  obtain ⟨k, hk, hone, hhandles, hholders⟩ : ∃ k, (disposesShared.world 2 true).controls[0]? = some k ∧ k.refs = 1 ∧
    (disposesShared.world 2 true).state.handles 0 = 0 ∧ (disposesShared.world 2 true).state.holders 0 = 0 := by
    decide +kernel
  have hrefs := (shares_conserved disposesShared (World.met_state (disposesShared.world 2 true)) 0).1
  generalize disposesShared.world 2 true = w at *
  have hsum := hrefs k hk
  exact ⟨k, hk, hone, hhandles, hholders, by omega⟩

/-- **Conservation of wrappers.** In every state that a run of native code met, a bridge has counted the
records that were made for it and those that were severed, and its count of live wrappers is what remains
after those that were finalized. Unless somebody else wrote the hidden keys of bridges or a token, or a heap
ran out of numbers, the finalized and the live ones are counted right too, so that every record is counted as
exactly one of the three. -/
theorem wrappers_conserved {n : Nat} {recording : Bool} {x : State} {b : BridgeId} {br : Bridge}
    (script : Script) (hx : (script.world n recording).Met x) (hb : x.bridges[b]? = some br) :
    (br.stats.wrapped : Int) = br.stats.finalized + br.stats.severed + br.stats.live ∧
    br.stats.wrapped = x.records.countP (·.bridge == b) ∧
    br.stats.severed = x.records.countP (fun y => y.bridge == b && y.severed) ∧
    (x.breaches.keys = false → (∀ s ∈ x.heaps, s.issued.length < 2 ^ 32) →
      br.stats.finalized = x.records.countP (fun y => y.bridge == b && y.finalized) ∧
      br.stats.live = x.records.countP fun y => y.bridge == b && y.live) := by
  obtain ⟨hall, hsevered, hlive, hfinalized⟩ := (kept_of_met hx).reckoned b br hb
  have hwrapped : br.stats.wrapped = x.records.countP (·.bridge == b) := by
    rw [hall, World.tally]
    simp only [Bool.and_true]
    rfl
  have hsevered : br.stats.severed = x.records.countP (fun y => y.bridge == b && y.severed) := hsevered
  refine ⟨by omega, hwrapped, hsevered, fun hkeys hroomy => ?_⟩
  have hfin : br.stats.finalized = x.records.countP (fun y => y.bridge == b && y.finalized) :=
    hfinalized ⟨hkeys, fun h s hs => hroomy s (Array.mem_of_getElem? hs)⟩
  refine ⟨hfin, ?_⟩
  have hsplit := countP_split x.records (·.bridge == b) (·.severed)
  have hrest := countP_split x.records (fun y => y.bridge == b && !y.severed) (·.share.isNone)
  have hnone : x.records.countP (fun y => y.bridge == b && !y.severed && y.share.isNone) =
      x.records.countP fun y => y.bridge == b && y.finalized :=
    Array.countP_congr fun y _ => by rw [Record.finalized, Bool.and_assoc, Bool.and_comm (!y.severed)]
  have hsome : x.records.countP (fun y => y.bridge == b && !y.severed && !y.share.isNone) =
      x.records.countP fun y => y.bridge == b && y.live :=
    Array.countP_congr fun y _ => by
      rw [Record.live, Bool.and_assoc, Bool.and_comm (!y.severed), Option.not_isNone]
  omega

def threeWrappers : Script :=
  .ofSteps (makesGadget ++ [.objects (.make "y" .gadget 2 "" none), .objects (.make "z" .gadget 3 "" none),
        .bridge (.pushNative (some "x")), .stack .pop, .heap .collect, .bridge (.pushNative (some "y")),
        .objects (.dispose "y"), .bridge (.pushNative (some "z"))])

theorem wrappers_conserved_threeWrappers : ∃ br, (threeWrappers.world 2 true).bridges[0]? = some br ∧
    br.stats.wrapped = 3 ∧ br.stats.finalized = 1 ∧ br.stats.severed = 1 ∧ br.stats.live = 1 ∧
    (threeWrappers.world 2 true).records.countP (fun y => y.bridge == 0 && y.finalized) = 1 ∧
    (threeWrappers.world 2 true).records.countP (fun y => y.bridge == 0 && y.live) = 1 := by
  have hkeys : (threeWrappers.world 2 true).breaches.keys = false := by decide +kernel
  obtain ⟨br, hbr, hwrapped, hfinalized, hsevered, hlive⟩ : ∃ br, (threeWrappers.world 2 true).bridges[0]? = some br ∧
    br.stats.wrapped = 3 ∧ br.stats.finalized = 1 ∧ br.stats.severed = 1 ∧ br.stats.live = 1 := by decide +kernel
  have hroomy : ∀ s ∈ (threeWrappers.world 2 true).heaps, s.issued.length < 2 ^ 32 := by decide +kernel
  have hcounts := fun br => @wrappers_conserved 2 true _ 0 br threeWrappers
    (World.met_state (threeWrappers.world 2 true))
  generalize threeWrappers.world 2 true = w at *
  obtain ⟨-, -, -, hexact⟩ := hcounts br hbr
  obtain ⟨hfin, hlives⟩ := hexact hkeys hroomy
  refine ⟨br, hbr, hwrapped, hfinalized, hsevered, hlive, hfin.symm.trans hfinalized, ?_⟩
  exact Int.ofNat_inj.mp (hlives.symm.trans hlive)

end Tether
