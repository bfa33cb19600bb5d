import Tether.Proofs.Abiding
import Tether.Proofs.Resolution

/-!
# Pointers of closed heaps

Closing a heap empties its table, generations included, and objects can still be made afterwards. The
table then numbers them from the start, and pointers that were issued before the heap was closed come
back.
-/

namespace Tether

variable {s s' : Heap}

namespace Table

/-- A table that agrees with what it gave and took. As long as it took nothing, the slots were filled one
after the other. -/
structure Recorded (t : Table) : Prop extends t.Sound, t.Numbers t.given t.taken where
  fresh : t.taken = [] → t.free = [] ∧ t.slots.size = t.given.length ∧
    ∀ (i : Nat) (x : Slot), t.slots[i]? = some x → x.gen = 1 ∧ x.object.isSome = true

variable {t : Table}

theorem recorded_empty : ({} : Table).Recorded :=
  ⟨sound_empty, numbers_empty, fun _ => ⟨rfl, rfl, fun _ _ hx => by simp at hx⟩⟩

variable (t)

theorem given_modify (p : HeapPtr) (f : Object → Object) :
    (t.modify p f).given = t.given ∧ (t.modify p f).taken = t.taken := by
  unfold modify
  split <;> exact ⟨rfl, rfl⟩

theorem given_insert (o : Object) :
    (t.insert o).2.given = (t.insert o).1 :: t.given ∧ (t.insert o).2.taken = t.taken := by
  rcases insert_cases t o with ⟨n, rest, -, he⟩ | ⟨-, he⟩ <;>
    exact ⟨congrArg (·.2.given) he, congrArg (·.2.taken) he⟩

theorem given_drop (p : HeapPtr) : (t.drop p).given = t.given := by
  unfold drop
  split <;> rfl

variable {t}

theorem Recorded.modify (ht : t.Recorded) (p : HeapPtr) (f : Object → Object) : (t.modify p f).Recorded := by
  obtain ⟨hgiven, htaken⟩ := given_modify t p f
  refine ⟨ht.toSound.modify p f, ?_, fun hnone => ?_⟩
  · rw [hgiven, htaken]
    refine ht.toNumbers.of_isSome (gen?_modify t p f) fun q => ?_
    rw [get?_modify]
    split <;> simp
  · obtain ⟨hfree, hsize, hslots⟩ := ht.fresh (htaken ▸ hnone)
    refine ⟨(free_modify t p f).trans hfree, by rw [slots_size_modify, hgiven, hsize], fun i x hx => ?_⟩
    rw [slot_modify] at hx
    split at hx
    · obtain ⟨y, hy, rfl⟩ := Option.map_eq_some_iff.mp hx
      have hfull := hslots i y hy
      split
      · exact ⟨hfull.1, by rw [Option.isSome_map]; exact hfull.2⟩
      · exact hfull
    · exact hslots i x hx

theorem Recorded.insert (ht : t.Recorded) {o : Object} (ha : (t.insert o).2.Addressable) :
    (t.insert o).2.Recorded := by
  obtain ⟨hgiven, htaken⟩ := given_insert t o
  refine ⟨ht.toSound.insert o, ?_, fun hnone => ?_⟩
  · rw [hgiven, htaken]
    exact ht.toNumbers.insert ht.toSound ha
  · obtain ⟨hfree, hsize, hslots⟩ := ht.fresh (htaken ▸ hnone)
    rcases insert_cases t o with ⟨n, rest, hf, -⟩ | ⟨-, he⟩
    · simp [hfree] at hf
    · rw [hgiven, List.length_cons, ← hsize, he]
      refine ⟨rfl, Array.size_push _, fun i x hx => ?_⟩
      rw [Array.getElem?_push] at hx
      split at hx
      · cases hx
        exact ⟨rfl, rfl⟩
      · exact hslots i x hx

theorem Recorded.drop (ht : t.Recorded) (p : HeapPtr) : (t.drop p).Recorded := by
  cases h : t.get? p with
  | none => rwa [Table.drop_eq_self h]
  | some o =>
    have hnumbers : (t.drop p).Numbers t.given ([p].reverse ++ t.taken) :=
      ht.toNumbers.freed (gen?_drop t p) (fun q => by rw [get?_drop]; simp) fun q hq => by
        rw [List.mem_singleton.mp hq, h]
        rfl
    have hsound := ht.toSound.drop p
    rw [drop_eq h] at hnumbers hsound ⊢
    exact ⟨hsound, hnumbers, nofun⟩

theorem Recorded.mem_given_iff (ht : t.Recorded) (hfit : CountsFit t.given) (hnone : t.taken = [])
    (p : HeapPtr) : p ∈ t.given ↔ p.gen = 1 ∧ 0 < p.slot.toNat ∧ p.slot.toNat ≤ t.given.length := by
  obtain ⟨-, hsize, hslots⟩ := ht.fresh hnone
  have hlive := ht.live hfit p
  rw [hnone] at hlive
  simp only [List.not_mem_nil, not_false_eq_true, and_true] at hlive
  rw [← hlive, Option.isSome_iff_exists, ← hsize]
  constructor
  · rintro ⟨o, ho⟩
    obtain ⟨hpos, hslot⟩ := get?_eq_some.mp ho
    have hlt := (Array.getElem?_eq_some_iff.mp hslot).1
    exact ⟨(hslots _ _ hslot).1, hpos, by omega⟩
  · rintro ⟨hgen, hpos, hle⟩
    have hlt : p.slot.toNat - 1 < t.slots.size := by omega
    have hslot := Array.getElem?_eq_getElem hlt
    obtain ⟨hone, hfull⟩ := hslots _ _ hslot
    obtain ⟨o, ho⟩ := Option.isSome_iff_exists.mp hfull
    refine ⟨o, get?_eq_some.mpr ⟨hpos, hslot.trans (congrArg some ?_)⟩⟩
    rw [hgen, ← hone, ← ho]

end Table

namespace Heap

/-- A heap whose table agrees with what it gave, which was issued last. -/
structure Recorded (s : Heap) : Prop where
  table : s.table.Addressable → s.table.Recorded
  given : s.table.given <+: s.issued

/-- Only tables and issued pointers count. -/
theorem Recorded.congr (hs : s.Recorded) (htable : s'.table = s.table) (hissued : s'.issued = s.issued) :
    s'.Recorded :=
  ⟨htable ▸ hs.table, by rw [htable, hissued]; exact hs.given⟩

theorem Recorded.edit (hs : s.Recorded) {p : HeapPtr} {f : Object → Object}
    (htable : s'.table = s.table.modify p f) (hissued : s'.issued = s.issued) : s'.Recorded := by
  refine ⟨fun ha => ?_, ?_⟩
  · rw [htable] at ha ⊢
    unfold Table.Addressable at ha
    rw [Table.slots_size_modify] at ha
    exact (hs.table ha).modify p f
  · rw [htable, hissued, (Table.given_modify _ p f).1]
    exact hs.given

theorem Recorded.amend {w : World} (hs : s.Recorded) (ha : s.Amends w s') : s'.Recorded := by
  cases ha with
  | restack _ | restore _ => exact hs.congr rfl rfl
  | edit _ _ _ _ => exact hs.edit rfl rfl

theorem recorded_of_shift (hshift : s.Shifts s') (hs : s.Recorded) : s'.Recorded := by
  cases hshift with
  | turn ht =>
    cases ht with
    | amend ha => exact hs.amend ha
    | start p => exact hs.edit rfl rfl
    | root _ | clear => exact hs.congr rfl rfl
    | shut _ _ _ _ _ _ htable =>
      -- The record of the table is lost with it.
      exact ⟨fun _ => htable ▸ Table.recorded_empty, htable ▸ List.nil_prefix⟩
  | amend ha => exact hs.amend ha
  | rest htable _ hissued => exact hs.congr htable hissued.issued
  | @alloc o _ _ =>
    refine ⟨fun ha => (hs.table ?_).insert ha, ?_⟩
    · exact Nat.lt_of_le_of_lt (Table.slots_size_le_insert s.table o) ha
    · show (s.table.insert o).2.given <+: (s.table.insert o).1 :: s.issued
      rw [(Table.given_insert s.table o).1]
      exact (List.prefix_cons_inj _).mpr hs.given
  | sweep hswept _ _ =>
    refine ⟨hswept.keeps (P := fun t => t.Addressable → t.Recorded) (fun t p ht ha => (ht ?_).drop p)
      (fun t p f ht ha => (ht ?_).modify p f) hs.table, ?_⟩
    · unfold Table.Addressable at ha ⊢
      rwa [Table.slots_size_drop] at ha
    · unfold Table.Addressable at ha ⊢
      rwa [Table.slots_size_modify] at ha
    · have hgiven := hswept.keeps (P := fun t => t.given = s.table.given)
        (fun t p ht => (Table.given_drop t p).trans ht) (fun t p f ht => (Table.given_modify t p f).1.trans ht) rfl
      rw [hgiven, hswept.issued]
      exact hs.given

theorem table_of_close {host : Host} {h : HeapId} {w w' : World} (hs : w.heaps[h]? = some s)
    (hopen : s.closed = false) (he : (Heap.close host h).exec w = (.ok (), w')) :
    ∃ s', w'.heaps[h]? = some s' ∧ s'.closed = true ∧ s'.table = {} := by
  unfold Heap.close at he
  rw [M.bind_ok (M.exec_heap hs), if_neg (by simp [hopen])] at he
  obtain ⟨_, w1, -, he⟩ := M.bind_ok_iff.mp he
  obtain ⟨k, w2, -, hshut⟩ := M.bind_ok_iff.mp he
  have hthere : ∃ s2, w2.heaps[h]? = some s2 := by
    -- What is freed is read from the heap, so it is still there.
    have hread := hshut
    obtain ⟨_, w3, hempty, hread⟩ := M.bind_ok_iff.mp hread
    obtain ⟨_, _, hread, -⟩ := M.bind_ok_iff.mp hread
    obtain ⟨s3, _, hread, -⟩ := M.bind_ok_iff.mp hread
    have hs3 := (M.exec_heap_eq_ok.mp hread).1
    cases hempty
    rw [Array.getElem?_modify] at hs3
    split at hs3
    · exact (Option.map_eq_some_iff.mp hs3).imp fun _ => And.left
    · exact ⟨s3, hs3⟩
  obtain ⟨s2, hs2⟩ := hthere
  obtain ⟨s3, log, hexec, hclosed, -, -, htable, -⟩ := Regime.exec_shut hs2 k
  rw [hexec] at hshut
  cases hshut
  exact ⟨s3, World.get_setHeap hs2 _, hclosed, htable⟩

end Heap

/-- An object is made, the heap is closed, and more objects are made. -/
def closesEarly : Script :=
  .ofSteps [.stack .pushObject, .heap .close, .stack .pushObject, .stack .pushObject, .stack .pushObject]

/-- **Pointers come back after a heap was closed.** Take any state that a script meets and a heap in it, open
or closed, with slots and uses of slots that 32 bits can count. Of the pointers issued for the heap, the
table knows those that were given since it was last emptied, which closing does. A pointer is pushed if it
is among them and was not freed since, no matter what was issued before; otherwise it is stale. Until
something is freed, these are the pointers of generation 1 to as many slots as objects were made: the
pointer that the heap issued first for a slot is good again once that many objects were made after it was
closed. A collection that starts in a closed heap does nothing. -/
theorem pointers_come_back (script : Script) {n : Nat} {recording : Bool} {x : State} {h : HeapId}
    (hx : (script.world n recording).Met x) (hs : x.heaps[h]? = some s) (haddr : s.table.Addressable)
    (hfit : CountsFit s.table.given) :
    (∃ former, s.issued = s.table.given ++ former) ∧
    (∀ host w w' t, w.heaps[h]? = some t → t.closed = false → (Heap.close host h).exec w = (.ok (), w') →
        ∃ t', w'.heaps[h]? = some t' ∧ t'.closed = true ∧ t'.table.given = [] ∧ t'.table.taken = []) ∧
    (∀ p, s.pushPointer p = if p ∈ s.table.given ∧ p ∉ s.table.taken then .ok (s.push (.object p))
      else .error (.fault (.issue ⟨.heap, .notFound, [], "", "", s!"stale heap pointer {p.text}"⟩))) ∧
    (s.table.taken = [] → ∀ p, p ∈ s.table.given ↔
      p.gen = 1 ∧ 0 < p.slot.toNat ∧ p.slot.toNat ≤ s.table.given.length) ∧
    ∀ host w t, w.heaps[h]? = some t → t.closed = true → (Heap.collect host h).exec w = (.ok {}, w) := by
  have hrec : s.Recorded := holds_when_met
    (fun _ _ _ _ => ⟨fun _ => Table.recorded_empty, List.nil_prefix⟩) Heap.recorded_of_shift hx hs
  have htable := hrec.table haddr
  refine ⟨hrec.given.imp fun _ => Eq.symm, fun host w w' t ht hopen he => ?_, fun p => ?_, htable.mem_given_iff hfit,
    fun host w t ht hclosed => ?_⟩
  · obtain ⟨t', ht', hclosed, hempty⟩ := Heap.table_of_close ht hopen he
    exact ⟨t', ht', hclosed, by rw [hempty], by rw [hempty]⟩
  · have hlive := htable.live hfit p
    unfold Heap.pushPointer Heap.object?
    cases hp : s.table.get? p with
    | none =>
      rw [hp] at hlive
      rw [if_neg fun hmem => absurd (hlive.mpr hmem) nofun]
    | some o =>
      rw [hp] at hlive
      rw [if_pos (hlive.mp rfl)]
  · unfold Heap.collect
    rw [M.bind_ok (M.exec_heap ht), if_pos (.inr hclosed)]
    rfl

/-- The pointer to the object that was freed when the heap was closed is pushed again: it names the last
object made. -/
theorem pointers_come_back_closesEarly : ∃ s, (closesEarly.world 2 true).heaps[0]? = some s ∧
    s.closed = true ∧ s.issued = [⟨3, 1⟩, ⟨2, 1⟩, ⟨1, 1⟩, ⟨3, 1⟩, ⟨2, 1⟩, ⟨1, 1⟩] ∧
    s.table.given = [⟨3, 1⟩, ⟨2, 1⟩, ⟨1, 1⟩] ∧ s.pushPointer ⟨3, 1⟩ = .ok (s.push (.object ⟨3, 1⟩)) := by
  obtain ⟨s, hs, hclosed, haddr, hissued, hgiven, htaken⟩ : ∃ s, (closesEarly.world 2 true).heaps[0]? = some s ∧
    s.closed = true ∧ s.table.Addressable ∧ s.issued = [⟨3, 1⟩, ⟨2, 1⟩, ⟨1, 1⟩, ⟨3, 1⟩, ⟨2, 1⟩, ⟨1, 1⟩] ∧
    s.table.given = [⟨3, 1⟩, ⟨2, 1⟩, ⟨1, 1⟩] ∧ s.table.taken = [] := by decide +kernel
  have hfit : CountsFit s.table.given := fun slot => by
    refine Nat.lt_of_le_of_lt List.countP_le_length ?_
    rw [hgiven]
    decide
  obtain ⟨-, -, hpush, -⟩ := pointers_come_back closesEarly (World.met_state _) (World.heap_state hs) haddr hfit
  refine ⟨s, hs, hclosed, hissued, hgiven, (hpush _).trans (if_pos ?_)⟩
  rw [hgiven, htaken]
  decide

end Tether
