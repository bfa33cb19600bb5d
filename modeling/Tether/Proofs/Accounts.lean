import Tether.Proofs.Abiding
import Tether.Proofs.Collector

/-!
# The accounts of tables and heaps

A table keeps its slots, its free list and its count apart, and a heap counts what it makes and what it
frees. They agree, whatever pointers the table is asked to drop and whatever finalizers do.
-/

namespace Tether

variable {s s' : Heap}

/-! ## Tables -/

inductive TableEdit where
  | insert (o : Object)
  | drop (p : HeapPtr)

namespace Table

variable {t : Table} {held : List (HeapPtr × Object)}

/-- The table after an edit, and the objects that were put in and not dropped since, each with the pointer
that it was given. -/
def edit : Table × List (HeapPtr × Object) → TableEdit → Table × List (HeapPtr × Object)
  | (t, held), .insert o => ((t.insert o).2, ((t.insert o).1, o) :: held)
  | (t, held), .drop p => (t.drop p, held.filter (·.1 != p))

variable (edits : List TableEdit)

def replay : Table × List (HeapPtr × Object) := edits.foldl edit ({}, [])

/-- The pointer that names a slot by its number and its generation. -/
def pointerTo (i : Nat) (gen : UInt32) : HeapPtr := ⟨UInt32.ofNat (i + 1), gen⟩

/-- The slots that 32 bits can number hold objects under the pointers that these were given. -/
structure Keeps (t : Table) (held : List (HeapPtr × Object)) : Prop extends t.Sound where
  given_each : ∀ i gen o, t.slots[i]? = some ⟨gen, some o⟩ → i + 1 < 2 ^ 32 → (pointerTo i gen, o) ∈ held

theorem get?_pointerTo {i : Nat} {gen : UInt32} {o : Object} (hslot : t.slots[i]? = some ⟨gen, some o⟩)
    (hi : i + 1 < 2 ^ 32) : t.get? (pointerTo i gen) = some o := by
  have hn : (pointerTo i gen).slot.toNat = i + 1 := UInt32.toNat_ofNat_of_lt' hi
  exact get?_eq_some.mpr (by rw [hn]; exact ⟨Nat.succ_pos i, hslot⟩)

theorem Keeps.insert (h : t.Keeps held) (o : Object) : (t.insert o).2.Keeps (((t.insert o).1, o) :: held) := by
  refine ⟨h.toSound.insert o, fun i gen x hslot hi => ?_⟩
  rcases insert_cases t o with ⟨n, rest, hf, he⟩ | ⟨hf, he⟩
  · have hn := (h.free_empty n (by rw [hf]; exact List.mem_cons_self)).1
    rw [he, Array.getElem?_modify] at hslot
    rw [he]
    split at hslot
    case isTrue hni =>
      -- The slot was free and has the next generation now.
      obtain ⟨_, -, hx⟩ := Option.map_eq_some_iff.mp hslot
      cases hx
      have hnumber : UInt32.ofNat (i + 1) = n := by rw [← hni, Nat.sub_add_cancel hn, UInt32.ofNat_toNat]
      exact List.mem_cons.mpr (.inl (by rw [pointerTo, hnumber]))
    case isFalse => exact List.mem_cons_of_mem _ (h.given_each i gen x hslot hi)
  · rw [he, Array.getElem?_push] at hslot
    rw [he]
    split at hslot
    case isTrue hnew =>
      cases hslot
      subst hnew
      exact List.mem_cons.mpr (.inl (by rw [pointerTo, gen_insert hf (Nat.lt_of_succ_lt hi)]))
    case isFalse => exact List.mem_cons_of_mem _ (h.given_each i gen x hslot hi)

theorem Keeps.drop (h : t.Keeps held) (p : HeapPtr) : (t.drop p).Keeps (held.filter (·.1 != p)) := by
  refine ⟨h.toSound.drop p, fun i gen x hslot hi => ?_⟩
  have hleft := get?_pointerTo hslot hi
  rw [get?_drop] at hleft
  split at hleft
  case isTrue => simp at hleft
  case isFalse hne =>
    obtain ⟨-, hold⟩ := get?_eq_some.mp hleft
    rw [show (pointerTo i gen).slot.toNat - 1 = i by
      rw [pointerTo, UInt32.toNat_ofNat_of_lt' hi, Nat.add_sub_cancel]] at hold
    exact List.mem_filter.mpr ⟨h.given_each i gen x hold hi, bne_iff_ne.mpr hne⟩

theorem keeps_replay : (replay edits).1.Keeps (replay edits).2 := by
  have hrun : ∀ (edits : List TableEdit) x, x.1.Keeps x.2 → (edits.foldl edit x).1.Keeps (edits.foldl edit x).2 := by
    intro edits
    induction edits with
    | nil => exact fun _ hx => hx
    | cons e rest ih =>
      intro x hx
      refine ih _ ?_
      cases e with
      | insert o => exact hx.insert o
      | drop p => exact hx.drop p
  exact hrun edits _ ⟨sound_empty, fun _ _ _ hslot => absurd hslot (by simp)⟩

theorem Sound.mem_free_iff (ht : t.Sound) (n : Nat) : n ∈ t.free.map UInt32.toNat ↔
    0 < n ∧ ∃ slot, t.slots[n - 1]? = some slot ∧ slot.object = none := by
  rw [List.mem_map]
  constructor
  · rintro ⟨m, hm, rfl⟩
    exact ht.free_empty m hm
  · rintro ⟨hpos, slot, hslot, hempty⟩
    obtain ⟨m, hm, hmn⟩ := ht.empty_free _ slot hslot hempty
    exact ⟨m, hm, by omega⟩

end Table

/-! ## Heaps -/

namespace Heap

/-- How many objects were put into new slots, whatever became of them: at least as many as the table ever had
slots, as long as 32 bits can number these. -/
def opened (s : Heap) : Nat := s.issued.countP (·.gen == 1)

/-- A heap whose table is kept and, as long as 32 bits can number its slots, whose counters add up. -/
structure Balanced (s : Heap) : Prop where
  table : s.table.Sound
  slots : s.opened < 2 ^ 32 → s.table.slots.size ≤ s.opened
  balance : s.opened < 2 ^ 32 → s.counters.allocated = s.counters.freed + s.table.size

theorem Accounts.opened {n : Nat} (h : s.Accounts n s') : s'.opened = s.opened := by
  unfold Heap.opened
  rw [h.issued]

theorem Balanced.congr (hs : s.Balanced) (ha : s.Accounts 0 s') (htable : s'.table = s.table) : s'.Balanced := by
  refine ⟨htable ▸ hs.table, by rw [htable, ha.opened]; exact hs.slots, fun hfit => ?_⟩
  rw [ha.allocated, ha.freed, htable]
  exact hs.balance (ha.opened ▸ hfit)

theorem Balanced.edit (hs : s.Balanced) (ha : s.Accounts 0 s') {p : HeapPtr} {f : Object → Object}
    (htable : s'.table = s.table.modify p f) : s'.Balanced := by
  refine ⟨htable ▸ hs.table.modify p f, ?_, fun hfit => ?_⟩
  · rw [htable, Table.slots_size_modify, ha.opened]
    exact hs.slots
  · rw [ha.allocated, ha.freed, htable, Table.size_modify]
    exact hs.balance (ha.opened ▸ hfit)

theorem Balanced.amend {w : World} (hs : s.Balanced) (ha : s.Amends w s') : s'.Balanced := by
  cases ha with
  | restack _ | restore _ => exact hs.congr ⟨rfl, rfl, rfl⟩ rfl
  | edit _ _ _ _ => exact hs.edit ⟨rfl, rfl, rfl⟩ rfl

/-- A new object counts as made and as live. -/
theorem Balanced.withObject (hs : s.Balanced) (o : Object) : (s.withObject o).Balanced := by
  have hopened : (s.withObject o).opened = s.opened + if (s.table.insert o).1.gen = 1 then 1 else 0 := by
    unfold Heap.opened
    show ((s.table.insert o).1 :: s.issued).countP _ = _
    rw [List.countP_cons]
    simp only [beq_iff_eq]
  refine ⟨hs.table.insert o, fun hfit => ?_, fun hfit => ?_⟩
  · have hslots := hs.slots (by omega)
    show (s.table.insert o).2.slots.size ≤ _
    rw [hopened]
    rcases Table.insert_cases s.table o with ⟨n, rest, -, he⟩ | ⟨hf, he⟩
    · rw [he, Array.size_modify]
      omega
    · rw [if_pos (Table.gen_insert hf (by show s.table.slots.size < 2 ^ 32; omega) o), he, Array.size_push]
      omega
  · have hbalance := hs.balance (by omega)
    show s.counters.allocated + 1 = s.counters.freed + (s.table.insert o).2.size
    rw [Table.size_insert]
    omega

theorem Balanced.swept (hs : s.Balanced) {ps : List HeapPtr} (hswept : s.Swept ps s')
    (hps : s.table.Addressable → ps.Nodup ∧ ∀ p ∈ ps, (s.object? p).isSome = true) :
    ({ s' with collecting := false } : Heap).Balanced := by
  have hopened : ({ s' with collecting := false } : Heap).opened = s.opened := by
    unfold Heap.opened
    exact congrArg _ hswept.issued
  refine ⟨hswept.keeps (fun _ p ht => ht.drop p) (fun _ p f ht => ht.modify p f) hs.table, ?_, fun hfit => ?_⟩
  · rw [hopened]
    exact fun hfit => Nat.le_trans (Nat.le_of_eq hswept.slots) (hs.slots hfit)
  · rw [hopened] at hfit
    -- Every object that is freed was there, so the table lost as many as the heap counts.
    obtain ⟨hnodup, hlive⟩ := hps (Nat.lt_of_le_of_lt (hs.slots hfit) hfit)
    have hsize := hswept.size hs.table hnodup hlive
    have hbalance := hs.balance hfit
    show s'.counters.allocated = s'.counters.freed + s'.table.size
    rw [hswept.allocated, hswept.freed]
    omega

theorem balanced_of_shift (hshift : s.Shifts s') (hs : s.Balanced) : s'.Balanced := by
  cases hshift with
  | turn ht =>
    cases ht with
    | amend ha => exact hs.amend ha
    | start p => exact hs.edit ⟨rfl, rfl, rfl⟩ rfl
    | root _ | clear => exact hs.congr ⟨rfl, rfl, rfl⟩ rfl
    | shut _ _ _ _ haccounts _ htable =>
      refine ⟨htable ▸ Table.sound_empty, fun _ => by rw [htable]; exact Nat.zero_le _, fun hfit => ?_⟩
      -- All that lived was freed.
      rw [haccounts.allocated, haccounts.freed, htable, ← hs.table.size_eq]
      exact hs.balance (haccounts.opened ▸ hfit)
  | amend ha => exact hs.amend ha
  | rest htable _ haccounts => exact hs.congr haccounts htable
  | alloc _ _ => exact hs.withObject _
  | sweep hswept _ hps => exact hs.swept hswept hps

theorem balanced_new (limits : Limits) (storage : Storage) (ownsStorage logs : Bool) :
    ({ limits, storage, ownsStorage, logs } : Heap).Balanced :=
  ⟨Table.sound_empty, fun _ => Nat.le_refl _, fun _ => rfl⟩

end Heap

/-- An object whose finalizer makes another is collected, and more objects are made before and after the heap is
closed. -/
def closesBetween : Script :=
  .ofSteps [.stack .pushObject, .call (.pushFunc makesAnother), .property (.setFinalizer (-2)), .stack .pop, .heap .collect,
        .stack .pushObject, .heap .close, .stack .pushObject]

/-- **Tables and heaps keep their accounts.** After any insertions into an empty table and any drops from it, the
free list has the number of each empty slot once and no other number, the count is that of the slots with an
object, and each of these that 32 bits can number holds its object under the pointer that it was given, made
of the number of the slot and its generation. A drop of a pointer that resolves to nothing changes nothing.
In every state that a script meets, inside finalizers and after closing too, the table of each heap is kept like
that, and the heap has made as many objects as it has freed and as live, unless it opened more slots than 32 bits
can number. -/
theorem accounts_add_up : (∀ edits t held, Table.replay edits = (t, held) → (t.free.map UInt32.toNat).Nodup ∧
      (∀ n, n ∈ t.free.map UInt32.toNat ↔ 0 < n ∧ ∃ slot, t.slots[n - 1]? = some slot ∧ slot.object = none) ∧
      t.size = t.slots.countP (·.object.isSome) ∧
      (∀ i gen o, t.slots[i]? = some ⟨gen, some o⟩ → i + 1 < 2 ^ 32 →
        (Table.pointerTo i gen, o) ∈ held ∧ t.get? (Table.pointerTo i gen) = some o) ∧
      ∀ p, t.get? p = none → t.drop p = t) ∧
    ∀ (script : Script) (n : Nat) (recording : Bool) x (h : HeapId) s,
      (script.world n recording).Met x → x.heaps[h]? = some s →
      s.table.Sound ∧ (s.opened < 2 ^ 32 → s.stats.allocated = s.stats.freed + s.stats.live) := by
  refine ⟨fun edits t held he => ?_, fun script n recording x h s hx hs => ?_⟩
  · have hkeeps := Table.keeps_replay edits
    rw [he] at hkeeps
    exact ⟨hkeeps.free_nodup.map fun _ _ => UInt32.toNat_inj.mp, hkeeps.mem_free_iff, hkeeps.size_counts,
      fun i gen o hslot hi => ⟨hkeeps.given_each i gen o hslot hi, Table.get?_pointerTo hslot hi⟩,
      fun p => Table.drop_eq_self⟩
  · have hbalanced := holds_when_met Heap.balanced_new Heap.balanced_of_shift hx hs
    exact ⟨hbalanced.table, hbalanced.balance⟩

/-- One slot is dropped, once under its pointer and once under a stale and a forged one. -/
def dropsTwice : List TableEdit := [.insert {}, .insert {}, .drop ⟨1, 1⟩, .drop ⟨1, 1⟩, .drop ⟨7, 3⟩]

theorem accounts_add_up_closesBetween : (1 ∈ (Table.replay dropsTwice).1.free.map UInt32.toNat ∧
      (Table.pointerTo 1 1, {}) ∈ (Table.replay dropsTwice).2) ∧
    ∃ s, (closesBetween.world 3 true).heaps[0]? = some s ∧ s.closed = true ∧ s.opened = 7 ∧
      (s.stats.allocated, s.stats.freed, s.stats.live) = (8, 7, 1) ∧
      s.stats.allocated = s.stats.freed + s.stats.live := by
  obtain ⟨-, hfree, -, hslots, -⟩ := accounts_add_up.1 dropsTwice _ _ rfl
  refine ⟨⟨(hfree 1).mpr ⟨Nat.one_pos, ⟨1, none⟩, rfl, rfl⟩, (hslots 1 1 {} rfl (by decide)).1⟩, ?_⟩
  obtain ⟨s, hs, hclosed, hopened, hstats⟩ : ∃ s, (closesBetween.world 3 true).heaps[0]? = some s ∧
    s.closed = true ∧ s.opened = 7 ∧ (s.stats.allocated, s.stats.freed, s.stats.live) = (8, 7, 1) := by decide +kernel
  refine ⟨s, hs, hclosed, hopened, hstats, ?_⟩
  exact (accounts_add_up.2 closesBetween 3 true _ 0 s (World.met_state _) (World.heap_state hs)).2
    (by rw [hopened]; decide)

end Tether
