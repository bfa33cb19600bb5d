import Tether.Heap.Table

/-!
# The object table as a partial map

The table seen through `Table.get?`: what a pointer names after an object is put in, changed or
dropped.
-/

namespace Tether

variable {t : Table} {p : HeapPtr} {o : Object} {n : Nat} {slots : List Slot}

theorem countP_modify {α : Type} {xs : Array α} {i : Nat} {a : α} (p : α → Bool)
    (h : xs[i]? = some a) (f : α → α) :
    (xs.modify i f).countP p + (if p a then 1 else 0) = xs.countP p + (if p (f a) then 1 else 0) := by
  obtain ⟨hi, ha⟩ := Array.getElem?_eq_some_iff.mp h
  have hset : xs.modify i f = xs.set i (f a) hi := by
    refine Array.ext (by simp) fun j hj _ => ?_
    rw [Array.getElem_modify, Array.getElem_set]
    split
    · subst ha
      simp_all
    · rfl
  have hle : (if p xs[i] then 1 else 0) ≤ xs.countP p := by
    split
    · exact Array.countP_pos_iff.mpr ⟨xs[i], Array.getElem_mem hi, by assumption⟩
    · omega
  rw [hset, Array.countP_set hi, ← ha]
  omega

namespace Table

/-- Every slot number fits into the 32 bits that a pointer has for it. -/
def Addressable (t : Table) : Prop := t.slots.size < 2 ^ 32

instance (t : Table) : Decidable t.Addressable := inferInstanceAs (Decidable (_ < _))

/-- The free list has the empty slots of the table, each once, and the others are counted. -/
structure Sound (t : Table) : Prop where
  free_empty : ∀ n ∈ t.free, 0 < n.toNat ∧ ∃ s, t.slots[n.toNat - 1]? = some s ∧ s.object = none
  free_nodup : t.free.Nodup
  empty_free : ∀ i s, t.slots[i]? = some s → s.object = none → ∃ n ∈ t.free, n.toNat = i + 1
  size_counts : t.size = t.slots.countP (·.object.isSome)

theorem sound_empty : ({} : Table).Sound := ⟨nofun, List.nodup_nil, fun _ _ hs => absurd hs (by simp), rfl⟩

/-! ## Looking up -/

theorem get?_eq_some : t.get? p = some o ↔ 0 < p.slot.toNat ∧ t.slots[p.slot.toNat - 1]? = some ⟨p.gen, some o⟩ := by
  unfold get? position?
  by_cases hp : p.slot.toNat = 0 ∨ t.slots.size < p.slot.toNat
  · rw [if_pos hp]
    constructor
    · intro h
      simp at h
    · rintro ⟨hpos, hs⟩
      have hlt := (Array.getElem?_eq_some_iff.mp hs).1
      omega
  · rw [if_neg hp]
    simp only
    have hlt : p.slot.toNat - 1 < t.slots.size := by omega
    rw [Array.getElem?_eq_getElem hlt]
    cases hs : t.slots[p.slot.toNat - 1] with
    | mk gen object =>
      by_cases hg : gen = p.gen
      · simp only [hg, if_true, Option.some.injEq, Slot.mk.injEq, true_and]
        exact ⟨fun h => ⟨by omega, h⟩, fun h => h.2⟩
      · simp [hg]

@[simp] theorem get?_null (t : Table) : t.get? .null = none := by
  unfold get? position?
  rfl

theorem ptr_eq {q : HeapPtr} (hp : 0 < p.slot.toNat) (hq : 0 < q.slot.toNat)
    (hi : p.slot.toNat - 1 = q.slot.toNat - 1) (hg : p.gen = q.gen) : p = q := by
  have hs : p.slot = q.slot := UInt32.toNat_inj.mp (by omega)
  cases p
  cases q
  exact congr (congrArg HeapPtr.mk hs) hg

/-- How often the slot at a position was used, as far as its generation tells; none if it is not
there. -/
def gen? (t : Table) (i : Nat) : Option UInt32 := (t.slots[i]?).map (·.gen)

/-! ## Changing an object -/

section

variable (t : Table) (p : HeapPtr) (f : Object → Object)

@[simp] theorem slots_size_modify : (t.modify p f).slots.size = t.slots.size := by
  unfold modify
  split <;> simp

@[simp] theorem free_modify : (t.modify p f).free = t.free := by
  unfold modify
  split <;> rfl

theorem size_modify : (t.modify p f).size = t.size := by
  unfold modify
  split <;> rfl

theorem countP_slots_modify : (t.modify p f).slots.countP (·.object.isSome) = t.slots.countP (·.object.isSome) := by
  unfold modify position?
  by_cases hp : p.slot.toNat = 0 ∨ t.slots.size < p.slot.toNat
  · rw [if_pos hp]
  · rw [if_neg hp]
    have hs := Array.getElem?_eq_getElem (show p.slot.toNat - 1 < t.slots.size by omega)
    have h := countP_modify (·.object.isSome) hs (fun s : Slot =>
      if s.gen = p.gen then { s with object := s.object.map f } else s)
    simp only [apply_ite Slot.object, apply_ite Option.isSome, Option.isSome_map, ite_self] at h
    simp only
    omega

theorem slot_modify (i : Nat) : (t.modify p f).slots[i]? =
      if 0 < p.slot.toNat ∧ i = p.slot.toNat - 1 then
        (t.slots[i]?).map fun s => if s.gen = p.gen then { s with object := s.object.map f } else s
      else t.slots[i]? := by
  unfold modify position?
  by_cases hp : p.slot.toNat = 0 ∨ t.slots.size < p.slot.toNat
  · rw [if_pos hp]
    by_cases hi : 0 < p.slot.toNat ∧ i = p.slot.toNat - 1
    · have hnone : t.slots[i]? = none := Array.getElem?_eq_none_iff.mpr (by omega)
      simp only [if_pos hi, hnone, Option.map_none]
    · simp only [if_neg hi]
  · rw [if_neg hp]
    simp only [Array.getElem?_modify]
    by_cases hi : p.slot.toNat - 1 = i
    · rw [if_pos hi, if_pos ⟨by omega, hi.symm⟩]
    · rw [if_neg hi, if_neg (fun h => hi h.2.symm)]

theorem gen?_modify (i : Nat) : (t.modify p f).gen? i = t.gen? i := by
  unfold gen?
  rw [slot_modify]
  split
  · rw [Option.map_map]
    refine congrArg (fun g => (t.slots[i]?).map g) (funext fun s => ?_)
    show (if s.gen = p.gen then { s with object := s.object.map f } else s).gen = s.gen
    split <;> rfl
  · rfl

end

theorem modify_of_get? {f : Object → Object} (ho : t.get? p = some o) (hf : f o = o) : t.modify p f = t := by
  have hslots : (t.modify p f).slots = t.slots := by
    refine Array.ext_getElem? fun i => ?_
    rw [slot_modify]
    split
    case isTrue hi =>
      rw [hi.2, (get?_eq_some.mp ho).2]
      simp [hf]
    case isFalse => rfl
  unfold modify at hslots ⊢
  split
  case h_1 => rfl
  case h_2 i hi =>
    simp only [hi] at hslots
    rw [hslots]

theorem get?_modify (t : Table) (p q : HeapPtr) (f : Object → Object) :
    (t.modify p f).get? q = if q = p then (t.get? q).map f else t.get? q := by
  have key : ∀ o, (t.modify p f).get? q = some o ↔ (if q = p then (t.get? q).map f else t.get? q) = some o := by
    intro o
    rw [get?_eq_some, slot_modify]
    by_cases hqp : q = p
    · subst hqp
      rw [if_pos rfl, Option.map_eq_some_iff]
      constructor
      · rintro ⟨hq, hs⟩
        rw [if_pos ⟨hq, rfl⟩, Option.map_eq_some_iff] at hs
        obtain ⟨s, hs, he⟩ := hs
        by_cases hg : s.gen = q.gen
        · rw [if_pos hg, Slot.mk.injEq] at he
          obtain ⟨o', ho', hf⟩ := Option.map_eq_some_iff.mp he.2
          exact ⟨o', get?_eq_some.mpr ⟨hq, by rw [hs, ← hg, ← ho']⟩, hf⟩
        · rw [if_neg hg] at he
          exact absurd (congrArg Slot.gen he) hg
      · rintro ⟨o', ho', hf⟩
        obtain ⟨hq, hs⟩ := get?_eq_some.mp ho'
        refine ⟨hq, ?_⟩
        rw [if_pos ⟨hq, rfl⟩, hs]
        simp [hf]
    · rw [if_neg hqp, get?_eq_some]
      refine and_congr_right fun hq => ?_
      by_cases hi : 0 < p.slot.toNat ∧ q.slot.toNat - 1 = p.slot.toNat - 1
      · rw [if_pos hi]
        -- The slot is the same, so the generations differ, and the change passes the object by.
        have hg : q.gen ≠ p.gen := fun hg => hqp (ptr_eq hq hi.1 hi.2 hg)
        cases hs : t.slots[q.slot.toNat - 1]? with
        | none => simp
        | some s =>
          by_cases hsg : s.gen = p.gen
          · simp only [Option.map_some, if_pos hsg, Option.some.injEq, Slot.mk.injEq]
            constructor
            · intro h
              exact absurd (h.1.symm.trans hsg) hg
            · intro h
              rw [h] at hsg
              exact absurd hsg hg
          · simp [hsg]
      · rw [if_neg hi]
  exact Option.ext key

theorem Sound.modify (ht : t.Sound) (p : HeapPtr) (f : Object → Object) : (t.modify p f).Sound := by
  refine ⟨fun n hn => ?_, by rw [free_modify]; exact ht.free_nodup, fun i s hs he => ?_,
    by rw [size_modify, countP_slots_modify]; exact ht.size_counts⟩
  · rw [free_modify] at hn
    obtain ⟨hpos, s, hs, he⟩ := ht.free_empty n hn
    refine ⟨hpos, ?_⟩
    rw [slot_modify]
    split
    · refine ⟨_, by rw [hs, Option.map_some], ?_⟩
      split
      · simp [he]
      · exact he
    · exact ⟨s, hs, he⟩
  · rw [free_modify]
    rw [slot_modify] at hs
    split at hs
    · obtain ⟨y, hy, rfl⟩ := Option.map_eq_some_iff.mp hs
      refine ht.empty_free i y hy ?_
      split at he
      · exact Option.map_eq_none_iff.mp he
      · exact he
    · exact ht.empty_free i s hs he

/-! ## Putting an object in -/

theorem insert_cases (t : Table) (o : Object) : (∃ n rest, t.free = n :: rest ∧
      t.insert o = (⟨n, ((t.slots[n.toNat - 1]?).map (·.gen)).getD 0 + 1⟩, ⟨t.slots.modify (n.toNat - 1)
          fun _ => ⟨((t.slots[n.toNat - 1]?).map (·.gen)).getD 0 + 1, some o⟩, rest,
          t.size + 1, (t.insert o).1 :: t.given, t.taken⟩)) ∨
    (t.free = [] ∧ t.insert o = (⟨UInt32.ofNat (t.slots.size + 1), (t.insert o).1.gen⟩,
        ⟨t.slots.push ⟨1, some o⟩, [], t.size + 1, (t.insert o).1 :: t.given, t.taken⟩)) := by
  unfold insert
  cases hf : t.free with
  | nil =>
    refine .inr ⟨rfl, ?_⟩
    simp only [Array.size_push]
  | cons n rest =>
    exact .inl ⟨n, rest, rfl, rfl⟩

theorem toNat_push {x : Slot} (ha : (t.slots.push x).size < 2 ^ 32) :
    t.Addressable ∧ (UInt32.ofNat (t.slots.size + 1)).toNat = t.slots.size + 1 := by
  rw [Array.size_push] at ha
  exact ⟨Nat.lt_of_succ_lt ha, UInt32.toNat_ofNat_of_lt' ha⟩

/-- A new slot has the first generation, as long as its number does not wrap past zero. -/
theorem gen_insert (hfree : t.free = []) (ha : t.Addressable) (o : Object) : (t.insert o).1.gen = 1 := by
  unfold insert
  rw [hfree]
  have hn : (UInt32.ofNat (t.slots.size + 1) - 1).toNat = t.slots.size := by
    rw [UInt32.ofNat_add, show UInt32.ofNat 1 = 1 from rfl, UInt32.add_sub_cancel, UInt32.toNat_ofNat_of_lt' ha]
  simp only [Array.size_push, hn, Array.getElem?_push_size, Option.map_some, Option.getD_some]

theorem get?_insert_cases {x : Object} (h : (t.insert o).2.get? p = some x) : x = o ∨ t.get? p = some x := by
  obtain ⟨hpos, hslot⟩ := get?_eq_some.mp h
  rcases insert_cases t o with ⟨n, rest, -, he⟩ | ⟨-, he⟩
  · rw [he] at hslot
    simp only [Array.getElem?_modify] at hslot
    split at hslot
    · obtain ⟨_, -, hx⟩ := Option.map_eq_some_iff.mp hslot
      exact .inl (Option.some.inj (Slot.mk.inj hx).2).symm
    · exact .inr (get?_eq_some.mpr ⟨hpos, hslot⟩)
  · rw [he, Array.getElem?_push] at hslot
    split at hslot
    · exact .inl (Option.some.inj (Slot.mk.inj (Option.some.inj hslot)).2).symm
    · exact .inr (get?_eq_some.mpr ⟨hpos, hslot⟩)

theorem slots_size_le_insert (t : Table) (o : Object) : t.slots.size ≤ (t.insert o).2.slots.size := by
  rcases insert_cases t o with ⟨n, rest, -, he⟩ | ⟨-, he⟩ <;> rw [he] <;> simp

section Insert

variable {t : Table} (ht : t.Sound) {o : Object} (ha : (t.insert o).2.Addressable)
include ht ha

theorem slot_insert : 0 < (t.insert o).1.slot.toNat ∧
      (∀ s, t.slots[(t.insert o).1.slot.toNat - 1]? = some s → s.object = none) ∧
      ∀ i, (t.insert o).2.slots[i]? =
        if i = (t.insert o).1.slot.toNat - 1 then some ⟨(t.insert o).1.gen, some o⟩
        else t.slots[i]? := by
  rcases insert_cases t o with ⟨n, rest, hf, he⟩ | ⟨hf, he⟩
  · obtain ⟨hpos, s, hs, hempty⟩ := ht.free_empty n (by rw [hf]; exact List.mem_cons_self)
    rw [he]
    refine ⟨hpos, fun s' hs' => ?_, fun i => ?_⟩
    · rw [hs] at hs'
      exact Option.some.inj hs' ▸ hempty
    · simp only [Array.getElem?_modify]
      by_cases hi : i = n.toNat - 1
      · rw [if_pos hi.symm, if_pos hi, hi, hs, Option.map_some]
      · rw [if_neg (Ne.symm hi), if_neg hi]
  · rw [he] at ha
    obtain ⟨ha, hn⟩ := toNat_push ha
    rw [he]
    simp only [hn, Nat.add_sub_cancel, gen_insert hf ha]
    refine ⟨by omega, fun s hs => ?_, fun i => ?_⟩
    · exact absurd (Array.getElem?_eq_some_iff.mp hs).1 (by omega)
    · rw [Array.getElem?_push]

theorem gen?_insert : (t.insert o).1.gen = (t.gen? ((t.insert o).1.slot.toNat - 1)).getD 0 + 1 ∧
      ∀ i, (t.insert o).2.gen? i =
        if i = (t.insert o).1.slot.toNat - 1 then some (t.insert o).1.gen else t.gen? i := by
  refine ⟨?_, fun i => ?_⟩
  · rcases insert_cases t o with ⟨n, rest, -, he⟩ | ⟨hf, he⟩
    · rw [he]
      rfl
    · rw [he] at ha ⊢
      obtain ⟨ha, hn⟩ := toNat_push ha
      unfold gen?
      simp only [hn, Nat.add_sub_cancel]
      rw [gen_insert hf ha, Array.getElem?_eq_none (Nat.le_refl _)]
      rfl
  · unfold gen?
    rw [(slot_insert ht ha).2.2]
    split <;> rfl

theorem get?_insert_fresh : t.get? (t.insert o).1 = none := by
  obtain ⟨-, hempty, -⟩ := slot_insert ht ha
  cases hg : t.get? (t.insert o).1 with
  | none => rfl
  | some x => simpa using hempty _ (get?_eq_some.mp hg).2

theorem get?_insert (q : HeapPtr) : (t.insert o).2.get? q = if q = (t.insert o).1 then some o else t.get? q := by
  obtain ⟨hpos, hempty, hslots⟩ := slot_insert ht ha
  refine Option.ext fun x => ?_
  rw [get?_eq_some, hslots]
  by_cases hq : q = (t.insert o).1
  · subst hq
    rw [if_pos rfl, if_pos rfl]
    simp [hpos]
  · rw [if_neg hq, get?_eq_some]
    refine and_congr_right fun hqpos => ?_
    by_cases hi : q.slot.toNat - 1 = (t.insert o).1.slot.toNat - 1
    · rw [if_pos hi]
      constructor
      · intro h
        exact absurd (ptr_eq hqpos hpos hi (congrArg Slot.gen (Option.some.inj h)).symm) hq
      · intro h
        rw [hi] at h
        simpa using hempty _ h
    · rw [if_neg hi]

end Insert

theorem size_insert (t : Table) (o : Object) : (t.insert o).2.size = t.size + 1 := by
  rcases insert_cases t o with ⟨n, rest, -, he⟩ | ⟨-, he⟩ <;> rw [he]

theorem countP_slots_insert (ht : t.Sound) (o : Object) :
    (t.insert o).2.slots.countP (·.object.isSome) = t.slots.countP (·.object.isSome) + 1 := by
  rcases insert_cases t o with ⟨n, rest, hf, he⟩ | ⟨hf, he⟩
  · obtain ⟨-, s, hs, hempty⟩ := ht.free_empty n (by rw [hf]; exact List.mem_cons_self)
    rw [he]
    have h := countP_modify (·.object.isSome) hs (fun _ : Slot =>
      ⟨((t.slots[n.toNat - 1]?).map (·.gen)).getD 0 + 1, some o⟩)
    simp only [hempty, Option.isSome_none, Option.isSome_some, Bool.false_eq_true, if_false, if_true] at h
    omega
  · rw [he, Array.countP_push]
    simp

theorem Sound.insert (ht : t.Sound) (o : Object) : (t.insert o).2.Sound := by
  have hcounted : (t.insert o).2.size = (t.insert o).2.slots.countP (·.object.isSome) := by
    rw [size_insert, countP_slots_insert ht, ht.size_counts]
  rcases insert_cases t o with ⟨n, rest, hf, he⟩ | ⟨hf, he⟩
  · have hnodup := ht.free_nodup
    rw [hf, List.nodup_cons] at hnodup
    have hn := (ht.free_empty n (by rw [hf]; exact List.mem_cons_self)).1
    refine ⟨fun m hm => ?_, by rw [he]; exact hnodup.2, fun i s hs hnone => ?_, hcounted⟩
    · rw [he] at hm ⊢
      obtain ⟨hpos, s, hs, hempty⟩ := ht.free_empty m (by rw [hf]; exact List.mem_cons_of_mem _ hm)
      have hmn : ¬ n.toNat - 1 = m.toNat - 1 := fun hi =>
        hnodup.1 ((UInt32.toNat_inj.mp (by omega) : m = n) ▸ hm)
      exact ⟨hpos, s, by rw [Array.getElem?_modify, if_neg hmn]; exact hs, hempty⟩
    · rw [he, Array.getElem?_modify] at hs
      split at hs
      · obtain ⟨_, -, rfl⟩ := Option.map_eq_some_iff.mp hs
        simp at hnone
      case isFalse hi =>
        obtain ⟨m, hm, hmi⟩ := ht.empty_free i s hs hnone
        rw [hf] at hm
        rw [he]
        exact ⟨m, (List.mem_cons.mp hm).resolve_left fun hmn => hi (by rw [← hmn, hmi]; omega), hmi⟩
  · refine ⟨fun m hm => absurd hm (by rw [he]; simp), by rw [he]; exact List.nodup_nil, fun i s hs hnone => ?_, hcounted⟩
    rw [he, Array.getElem?_push] at hs
    split at hs
    · cases hs
      simp at hnone
    · obtain ⟨m, hm, -⟩ := ht.empty_free i s hs hnone
      simp [hf] at hm

/-! ## Dropping an object -/

theorem drop_eq (h : t.get? p = some o) :
    t.drop p = ⟨t.slots.modify (p.slot.toNat - 1) fun s => { s with object := none },
      p.slot :: t.free, t.size - 1, t.given, p :: t.taken⟩ := by
  unfold drop
  rw [h]

variable (t)

@[simp] theorem slots_size_drop (p : HeapPtr) : (t.drop p).slots.size = t.slots.size := by
  cases h : t.get? p with
  | none =>
    unfold drop
    rw [h]
  | some o =>
    rw [drop_eq h, Array.size_modify]

theorem gen?_drop (p : HeapPtr) (i : Nat) : (t.drop p).gen? i = t.gen? i := by
  unfold gen?
  cases h : t.get? p with
  | none =>
    unfold drop
    rw [h]
  | some o =>
    rw [drop_eq h]
    simp only [Array.getElem?_modify]
    split
    · rw [Option.map_map]
      rfl
    · rfl

theorem get?_drop (p q : HeapPtr) : (t.drop p).get? q = if q = p then none else t.get? q := by
  cases h : t.get? p with
  | none =>
    have hd : t.drop p = t := by
      unfold drop
      rw [h]
    rw [hd]
    split
    case isTrue hq => rw [hq, h]
    case isFalse => rfl
  | some o =>
    obtain ⟨hpos, hs⟩ := get?_eq_some.mp h
    refine Option.ext fun x => ?_
    rw [get?_eq_some, drop_eq h]
    simp only [Array.getElem?_modify]
    by_cases hq : q = p
    · subst hq
      rw [if_pos rfl, if_pos rfl, hs]
      simp
    · rw [if_neg hq, get?_eq_some]
      refine and_congr_right fun hqpos => ?_
      by_cases hi : p.slot.toNat - 1 = q.slot.toNat - 1
      · rw [if_pos hi, ← hi, hs]
        constructor
        · intro he
          simpa using congrArg (Option.map Slot.object) he
        · intro he
          exact absurd (ptr_eq hqpos hpos hi.symm
            (congrArg Slot.gen (Option.some.inj he)).symm) hq
      · rw [if_neg hi]

variable {t}

theorem countP_slots_drop (h : t.get? p = some o) :
    (t.drop p).slots.countP (·.object.isSome) + 1 = t.slots.countP (·.object.isSome) := by
  rw [drop_eq h]
  have hc := countP_modify (·.object.isSome) (get?_eq_some.mp h).2
    (fun s : Slot => { s with object := none })
  simp only [Option.isSome_none, Option.isSome_some, Bool.false_eq_true, if_false, if_true] at hc
  omega

theorem size_drop (ht : t.Sound) (h : t.get? p = some o) : (t.drop p).size + 1 = t.size := by
  have hcount := countP_slots_drop h
  have hsize := ht.size_counts
  rw [drop_eq h]
  show t.size - 1 + 1 = t.size
  omega

theorem drop_eq_self (h : t.get? p = none) : t.drop p = t := by
  unfold drop
  rw [h]

theorem Sound.drop (ht : t.Sound) (p : HeapPtr) : (t.drop p).Sound := by
  cases h : t.get? p with
  | none => rwa [drop_eq_self h]
  | some o =>
    have hsize := size_drop ht h
    have hcount := countP_slots_drop h
    have hcounted := ht.size_counts
    obtain ⟨hpos, hs⟩ := get?_eq_some.mp h
    refine ⟨fun n hn => ?_, ?_, fun i s hi hnone => ?_, by omega⟩ <;> rw [drop_eq h] at *
    · rcases List.mem_cons.mp hn with rfl | hn
      · refine ⟨hpos, ⟨p.gen, none⟩, ?_, rfl⟩
        simp [Array.getElem?_modify, hs]
      · obtain ⟨hnpos, s, hns, hempty⟩ := ht.free_empty n hn
        refine ⟨hnpos, ?_⟩
        simp only [Array.getElem?_modify, hns]
        split
        · exact ⟨_, rfl, rfl⟩
        · exact ⟨s, rfl, hempty⟩
    · refine List.nodup_cons.mpr ⟨fun hm => ?_, ht.free_nodup⟩
      obtain ⟨-, s, hps, hempty⟩ := ht.free_empty p.slot hm
      rw [hs] at hps
      exact absurd (Option.some.inj hps ▸ hempty) nofun
    · rw [Array.getElem?_modify] at hi
      split at hi
      case isTrue hpi => exact ⟨p.slot, List.mem_cons_self, by omega⟩
      case isFalse =>
        obtain ⟨n, hn, hni⟩ := ht.empty_free i s hi hnone
        exact ⟨n, List.mem_cons_of_mem _ hn, hni⟩

/-! ## Listing the objects -/

theorem mem_liveFrom : (p, o) ∈ liveFrom n slots ↔
      ∃ i, slots[i]? = some ⟨p.gen, some o⟩ ∧ p.slot = UInt32.ofNat (n + i) := by
  induction slots generalizing n with
  | nil => simp [liveFrom]
  | cons s rest ih =>
    have hrest : (p, o) ∈ liveFrom (n + 1) rest ↔
        ∃ i, (s :: rest)[i + 1]? = some ⟨p.gen, some o⟩ ∧ p.slot = UInt32.ofNat (n + (i + 1)) := by
      rw [ih]
      simp only [List.getElem?_cons_succ, Nat.add_assoc, Nat.add_comm 1]
    obtain ⟨gen, object⟩ := s
    cases object with
    | none =>
      rw [liveFrom, hrest]
      constructor
      · rintro ⟨i, h⟩
        exact ⟨i + 1, h⟩
      · rintro ⟨i, h⟩
        cases i with
        | zero => simp at h
        | succ i => exact ⟨i, h⟩
    | some x =>
      rw [liveFrom, List.mem_cons, hrest]
      constructor
      · rintro (h | ⟨i, h⟩)
        · cases h
          exact ⟨0, rfl, rfl⟩
        · exact ⟨i + 1, h⟩
      · rintro ⟨i, h⟩
        cases i with
        | zero =>
          obtain ⟨hs, hp⟩ := h
          simp only [List.getElem?_cons_zero, Option.some.injEq, Slot.mk.injEq] at hs
          obtain ⟨slot, g⟩ := p
          simp only [Nat.add_zero] at hp hs
          exact .inl (by rw [hp, hs.1, hs.2])
        | succ i => exact .inr ⟨i, h⟩

theorem mem_live (ha : t.Addressable) : (p, o) ∈ t.live ↔ t.get? p = some o := by
  unfold live
  rw [mem_liveFrom, get?_eq_some]
  unfold Addressable at ha
  constructor
  · rintro ⟨i, hs, hp⟩
    rw [Array.getElem?_toList] at hs
    have hi := (Array.getElem?_eq_some_iff.mp hs).1
    have hn : p.slot.toNat = 1 + i := by
      rw [hp]
      exact UInt32.toNat_ofNat_of_lt' (show 1 + i < 2 ^ 32 by omega)
    rw [hn, Nat.add_sub_cancel_left]
    exact ⟨by omega, hs⟩
  · rintro ⟨hpos, hs⟩
    refine ⟨p.slot.toNat - 1, by rw [Array.getElem?_toList]; exact hs, ?_⟩
    rw [Nat.add_sub_cancel' hpos]
    exact UInt32.ofNat_toNat.symm

theorem liveFrom_nodup (hn : n + slots.length ≤ 2 ^ 32) : ((liveFrom n slots).map (·.1)).Nodup := by
  induction slots generalizing n with
  | nil => exact List.nodup_nil
  | cons s rest ih =>
    rw [List.length_cons] at hn
    have hrest := ih (n := n + 1) (by omega)
    obtain ⟨gen, object⟩ := s
    cases object with
    | none => exact hrest
    | some x =>
      rw [liveFrom, List.map_cons, List.nodup_cons]
      refine ⟨fun hm => ?_, hrest⟩
      obtain ⟨⟨p, o⟩, hmem, hp⟩ := List.mem_map.mp hm
      obtain ⟨i, hi, hslot⟩ := mem_liveFrom.mp hmem
      have hlt := (List.getElem?_eq_some_iff.mp hi).1
      -- The slots of the rest have greater numbers, and none wraps around.
      have hslots : UInt32.ofNat (n + 1 + i) = UInt32.ofNat n := by
        rw [← hslot]
        exact congrArg HeapPtr.slot hp
      have hnat := congrArg UInt32.toNat hslots
      rw [UInt32.toNat_ofNat_of_lt' (show n + 1 + i < 2 ^ 32 by omega),
        UInt32.toNat_ofNat_of_lt' (show n < 2 ^ 32 by omega)] at hnat
      omega

theorem live_nodup (ha : t.Addressable) : (t.live.map (·.1)).Nodup := by
  unfold Addressable at ha
  exact liveFrom_nodup (by rw [Array.length_toList]; omega)

/-! ## Counting the objects -/

theorem length_live (t : Table) : t.live.length = t.slots.countP (·.object.isSome) := by
  have key : ∀ slots n, (liveFrom n slots).length = slots.countP (·.object.isSome) := by
    intro slots
    induction slots with
    | nil => exact fun _ => rfl
    | cons s rest ih =>
      intro n
      obtain ⟨gen, object⟩ := s
      cases object <;> simp [liveFrom, ih]
  unfold live
  rw [key, Array.countP_toList]

theorem Sound.size_eq (ht : t.Sound) : t.size = t.live.length := by rw [length_live, ht.size_counts]

end Table

end Tether
