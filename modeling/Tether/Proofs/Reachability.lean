import Tether.Heap.Reach
import Tether.Proofs.Table

/-!
# Marking computes reachability

`Heap.Reachable` says which objects roots lead to, through prototypes, finalizers, properties and
hidden properties; `Heap.marks` walks a worklist.
-/

namespace Tether

variable {p q : HeapPtr} {o x : Object} {s : Heap} {t : Table} {marks : Array Bool} {i n : Nat} {work : List HeapPtr}

/-- What an object refers to: its prototype, its finalizer, and the objects among the values of its
properties and hidden properties. -/
def Object.RefersTo (o : Object) (q : HeapPtr) : Prop :=
  o.prototype = some q ∨ o.finalizer = some q ∨ Value.object q ∈ o.props.values ∨ Value.object q ∈ o.hidden.values

/-- What roots refer to: the global object, the stash, every slot of the stack, and the function and
the receiver of every frame. -/
def Heap.Rooted (s : Heap) (p : HeapPtr) : Prop :=
  p = s.global ∨ p = s.stash ∨ Value.object p ∈ s.stack ∨ ∃ f ∈ s.frames, p = f.fn ∨ f.this = .object p

theorem Value.object?_eq_some {v : Value} : v.object? = some p ↔ v = .object p := by
  cases v <;> simp [Value.object?]

theorem Value.mem_objects {vs : List Value} : p ∈ vs.filterMap Value.object? ↔ Value.object p ∈ vs := by
  simp [List.mem_filterMap, Value.object?_eq_some]

theorem Object.mem_references : q ∈ o.references ↔ o.RefersTo q := by
  unfold Object.references Object.RefersTo
  simp only [List.mem_append, Option.mem_toList, Value.mem_objects, or_assoc]

theorem Heap.mem_roots : p ∈ s.roots ↔ s.Rooted p := by
  unfold Heap.roots Heap.Rooted
  simp only [List.mem_append, List.mem_cons, List.not_mem_nil, or_false, Value.mem_objects,
    Array.mem_toList_iff, List.mem_flatMap, Option.mem_toList, Value.object?_eq_some, or_assoc]

namespace Heap

inductive Reachable (s : Heap) : HeapPtr → Prop
  | root {p : HeapPtr} : s.Rooted p → p ≠ .null → Reachable s p
  | reference {p q : HeapPtr} {o : Object} : Reachable s p → s.object? p = some o →
      o.RefersTo q → q ≠ .null → Reachable s q

theorem Reachable.congr {s' : Heap} (hroots : ∀ p, s'.Rooted p → s.Rooted p)
    (hobjects : ∀ p o, s.Reachable p → s'.object? p = some o →
      ∃ o', s.object? p = some o' ∧ ∀ q, o.RefersTo q → o'.RefersTo q)
    (h : s'.Reachable p) : s.Reachable p := by
  induction h with
  | root hr hn => exact .root (hroots _ hr) hn
  | reference _ ho hq hn ih =>
    obtain ⟨o', ho', hrefs⟩ := hobjects _ _ ih ho
    exact .reference ih ho' (hrefs _ hq) hn

theorem reachable_iff_of_eq (s s' : Heap) (htable : s'.table = s.table) (hstack : s'.stack = s.stack)
    (hframes : s'.frames = s.frames) (hglobal : s'.global = s.global) (hstash : s'.stash = s.stash) :
    s'.Reachable p ↔ s.Reachable p := by
  have hrooted : ∀ q, s'.Rooted q ↔ s.Rooted q := fun q => by
    unfold Rooted
    rw [hglobal, hstash, hstack, hframes]
  have hobject : ∀ q, s'.object? q = s.object? q := fun q => by
    unfold object?
    rw [htable]
  constructor
  · intro hp
    exact hp.congr (fun q => (hrooted q).mp) fun q o _ ho => ⟨o, hobject q ▸ ho, fun _ => id⟩
  · intro hp
    exact hp.congr (fun q => (hrooted q).mpr) fun q o _ ho => ⟨o, (hobject q).trans ho, fun _ => id⟩

/-! ## The worklist -/

def Marked (marks : Array Bool) (p : HeapPtr) : Prop := marks[p.slot.toNat - 1]? = some true

theorem live_slot_inj (hp : t.get? p = some o) (hq : t.get? q = some x)
    (h : p.slot.toNat - 1 = q.slot.toNat - 1) : p = q := by
  obtain ⟨hppos, hps⟩ := Table.get?_eq_some.mp hp
  obtain ⟨hqpos, hqs⟩ := Table.get?_eq_some.mp hq
  rw [h, hqs] at hps
  exact Table.ptr_eq hppos hqpos h (congrArg Slot.gen (Option.some.inj hps)).symm

/-- After the slot of a live object was marked, a live object is marked if it is this one or was
marked before. -/
theorem marked_set (hp : t.get? p = some o) (hq : t.get? q = some x) (hi : p.slot.toNat - 1 < marks.size) :
    Marked (marks.setIfInBounds (p.slot.toNat - 1) true) q ↔ q = p ∨ Marked marks q := by
  unfold Marked
  rw [Array.getElem?_setIfInBounds]
  split
  case isTrue h =>
    have he := live_slot_inj hp hq h
    simp [he]
  case isFalse h =>
    constructor
    · exact .inr
    · rintro (he | hm)
      · exact absurd (congrArg (fun r => r.slot.toNat - 1) he).symm h
      · exact hm

theorem count_unmarked_set (hi : marks[i]? = some false) :
    (marks.setIfInBounds i true).count false + 1 = marks.count false := by
  obtain ⟨hlt, hget⟩ := Array.getElem?_eq_some_iff.mp hi
  have hpos : 0 < marks.count false := Array.count_pos_iff.mpr (Array.mem_of_getElem? hi)
  have htrue : (true == false) = false := rfl
  rw [Array.setIfInBounds, dif_pos hlt, Array.count_set, hget]
  simp only [beq_self_eq_true, if_true, htrue, Bool.false_eq_true, if_false]
  omega

theorem marked_of_ne_unmarked (hsize : marks.size = t.slots.size) (ho : t.get? p = some o)
    (hp : marks[p.slot.toNat - 1]? ≠ some false) : Marked marks p := by
  have hlt := (Array.getElem?_eq_some_iff.mp (Table.get?_eq_some.mp ho).2).1
  rw [← hsize] at hlt
  unfold Marked
  rw [Array.getElem?_eq_getElem hlt] at hp ⊢
  cases hb : marks[p.slot.toNat - 1] with
  | true => rfl
  | false => exact absurd (congrArg some hb) hp

theorem nextUnmarked_cases (t : Table) (marks : Array Bool) (work : List HeapPtr) :
    (nextUnmarked t marks work = none ∧ ∀ p ∈ work, ∀ o, t.get? p = some o → marks[p.slot.toNat - 1]? ≠ some false) ∨
      ∃ before p o rest, work = before ++ p :: rest ∧
        (∀ q ∈ before, ∀ x, t.get? q = some x → marks[q.slot.toNat - 1]? ≠ some false) ∧
        t.get? p = some o ∧ marks[p.slot.toNat - 1]? = some false ∧
        nextUnmarked t marks work = some (p.slot.toNat - 1, o, rest) := by
  induction work with
  | nil => exact .inl ⟨rfl, nofun⟩
  | cons p rest ih =>
    by_cases hp : ∃ o, t.get? p = some o ∧ marks[p.slot.toNat - 1]? = some false
    · obtain ⟨o, ho, hi⟩ := hp
      refine .inr ⟨[], p, o, rest, rfl, nofun, ho, hi, ?_⟩
      rw [nextUnmarked, ho]
      exact if_pos hi
    · -- The head is passed over, whether it names nothing or is marked.
      have hpass : ∀ q ∈ [p], ∀ x, t.get? q = some x → marks[q.slot.toNat - 1]? ≠ some false := by
        intro q hq x hx hi
        obtain rfl := List.mem_singleton.mp hq
        exact hp ⟨x, hx, hi⟩
      have hskip : nextUnmarked t marks (p :: rest) = nextUnmarked t marks rest := by
        rw [nextUnmarked]
        cases ho : t.get? p with
        | none => rfl
        | some o => exact if_neg fun hi => hp ⟨o, ho, hi⟩
      rw [hskip]
      rcases ih with ⟨hnone, hrest⟩ | ⟨before, q, o, rest', rfl, hbefore, ho, hi, hnext⟩
      · refine .inl ⟨hnone, fun q hq => ?_⟩
        rcases List.mem_cons.mp hq with rfl | hq
        · exact hpass q List.mem_cons_self
        · exact hrest q hq
      · refine .inr ⟨p :: before, q, o, rest', rfl, fun r hr => ?_, ho, hi, hnext⟩
        rcases List.mem_cons.mp hr with rfl | hr
        · exact hpass r List.mem_cons_self
        · exact hbefore r hr

theorem markFrom_succ {rest : List HeapPtr} (h : nextUnmarked t marks work = some (i, o, rest)) :
    markFrom t (n + 1) marks work = markFrom t n (marks.setIfInBounds i true) (o.references ++ rest) := by
  rw [markFrom, h]

theorem markFrom_none (h : nextUnmarked t marks work = none) : markFrom t n marks work = marks := by
  cases n with
  | zero => rfl
  | succ n => rw [markFrom, h]

theorem markFrom_sound {R : HeapPtr → Prop}
    (hR : ∀ p o, R p → t.get? p = some o → ∀ q ∈ o.references, R q) (n : Nat) (marks : Array Bool)
    (work : List HeapPtr) (hmarks : ∀ p o, t.get? p = some o → Marked marks p → R p)
    (hwork : ∀ p ∈ work, R p) :
    ∀ p o, t.get? p = some o → Marked (markFrom t n marks work) p → R p := by
  induction n generalizing marks work with
  | zero => exact hmarks
  | succ n ih =>
    rcases nextUnmarked_cases t marks work with ⟨hnone, -⟩ | ⟨before, p, o, rest, rfl, -, ho, hi, hnext⟩
    · rw [markFrom_none hnone]
      exact hmarks
    · have hp : R p := hwork p (by simp)
      have hlt := (Array.getElem?_eq_some_iff.mp hi).1
      rw [markFrom_succ hnext]
      refine ih _ _ (fun q x hq hm => ?_) fun q hq => ?_
      · rcases (marked_set ho hq hlt).mp hm with rfl | hm
        · exact hp
        · exact hmarks q x hq hm
      · rcases List.mem_append.mp hq with hq | hq
        · exact hR p o hp ho q hq
        · exact hwork q (by simp [hq])

/-- What a marking has to reach: it keeps the marks, marks the live objects of the worklist, and is
closed under the references of what it marked. -/
structure Complete (t : Table) (marks : Array Bool) (work : List HeapPtr) (final : Array Bool) : Prop where
  keeps : ∀ p o, t.get? p = some o → Marked marks p → Marked final p
  visits : ∀ p ∈ work, ∀ o, t.get? p = some o → Marked final p
  closed : ∀ p o, t.get? p = some o → Marked final p → ∀ q ∈ o.references, ∀ x, t.get? q = some x → Marked final q

/-- If the references of marked objects are marked or on the worklist, and there are rounds for all slots
that are not marked, the marking is complete. -/
theorem markFrom_complete (n : Nat) (marks : Array Bool) (work : List HeapPtr)
    (hsize : marks.size = t.slots.size) (hrounds : marks.count false ≤ n)
    (hopen : ∀ p o, t.get? p = some o → Marked marks p → ∀ q ∈ o.references, ∀ x, t.get? q = some x →
      Marked marks q ∨ q ∈ work) : Complete t marks work (markFrom t n marks work) := by
  induction n generalizing marks work with
  | zero =>
    -- All slots are marked.
    have hall : ∀ p o, t.get? p = some o → Marked marks p := fun p o ho =>
      marked_of_ne_unmarked hsize ho fun hi => by
        have hpos := Array.count_pos_iff.mpr (Array.mem_of_getElem? hi)
        omega
    exact ⟨fun p o ho _ => hall p o ho, fun p _ o ho => hall p o ho, fun _ _ _ _ q _ x hx => hall q x hx⟩
  | succ n ih =>
    rcases nextUnmarked_cases t marks work with ⟨hnone, hwork⟩ | ⟨before, p, o, rest, rfl, hbefore, ho, hi, hnext⟩
    · rw [markFrom_none hnone]
      have hvisits : ∀ p ∈ work, ∀ o, t.get? p = some o → Marked marks p := fun p hp o ho =>
        marked_of_ne_unmarked hsize ho (hwork p hp o ho)
      refine ⟨fun p o _ hm => hm, hvisits, fun p o ho hm q hq x hx => ?_⟩
      rcases hopen p o ho hm q hq x hx with h | h
      · exact h
      · exact hvisits q h x hx
    · have hlt := (Array.getElem?_eq_some_iff.mp hi).1
      have hpassed : ∀ q ∈ before, ∀ x, t.get? q = some x → Marked marks q := fun q hq x hx =>
        marked_of_ne_unmarked hsize hx (hbefore q hq x hx)
      rw [markFrom_succ hnext]
      have hc := ih (marks.setIfInBounds (p.slot.toNat - 1) true) (o.references ++ rest)
        (by rw [Array.size_setIfInBounds, hsize]) (by have := count_unmarked_set hi; omega)
        fun r y hy hm q hq x hx => by
          rw [marked_set ho hx hlt]
          rcases (marked_set ho hy hlt).mp hm with rfl | hm
          · rw [ho] at hy
            exact .inr (List.mem_append_left _ (Option.some.inj hy ▸ hq))
          · rcases hopen r y hy hm q hq x hx with h | h
            · exact .inl (.inr h)
            · rcases List.mem_append.mp h with h | h
              · exact .inl (.inr (hpassed q h x hx))
              · rcases List.mem_cons.mp h with rfl | h
                · exact .inl (.inl rfl)
                · exact .inr (List.mem_append_right _ h)
      refine ⟨fun q x hx hm => hc.keeps q x hx ((marked_set ho hx hlt).mpr (.inr hm)), fun q hq x hx => ?_, hc.closed⟩
      rcases List.mem_append.mp hq with hq | hq
      · exact hc.keeps q x hx ((marked_set ho hx hlt).mpr (.inr (hpassed q hq x hx)))
      · rcases List.mem_cons.mp hq with rfl | hq
        · exact hc.keeps q x hx ((marked_set ho hx hlt).mpr (.inl rfl))
        · exact hc.visits q (List.mem_append_right _ hq) x hx

/-! ## Marks and garbage -/

theorem marked_iff (h : s.object? p = some o) : Marked s.marks p ↔ s.Reachable p := by
  have hblank : ∀ q, ¬ Marked (Array.replicate s.table.slots.size false) q := by
    intro q
    unfold Marked
    rw [Array.getElem?_replicate]
    split <;> simp
  constructor
  · intro hm
    have hp := markFrom_sound (R := fun q => q = .null ∨ s.Reachable q) (fun q x hq hx r hr => by
        by_cases hn : r = .null
        · exact .inl hn
        · rcases hq with rfl | hq
          · simp at hx
          · exact .inr (.reference hq hx (Object.mem_references.mp hr) hn))
      _ _ _ (fun q x _ hq => absurd hq (hblank q))
      (fun q hq => by
        by_cases hn : q = .null
        · exact .inl hn
        · exact .inr (.root (mem_roots.mp hq) hn)) p o h hm
    rcases hp with rfl | hp
    · simp [object?] at h
    · exact hp
  · intro hr
    have hc := markFrom_complete (t := s.table) s.table.slots.size
      (Array.replicate s.table.slots.size false) s.roots Array.size_replicate
      (Nat.le_of_eq (by simp)) fun q x _ hq => absurd hq (hblank q)
    induction hr generalizing o with
    | root hr _ => exact hc.visits _ (mem_roots.mpr hr) o h
    | reference _ ho hq _ ih =>
      exact hc.closed _ _ ho (ih ho) _ (Object.mem_references.mpr hq) o h

theorem mem_garbage (ha : s.table.Addressable) : (p, o) ∈ s.garbage ↔ s.object? p = some o ∧ ¬ s.Reachable p := by
  unfold garbage
  rw [List.mem_filter, Table.mem_live ha]
  refine and_congr_right fun h => ?_
  rw [← marked_iff (s := s) h]
  show (!(s.marks[p.slot.toNat - 1]?.getD false)) = true ↔ ¬ s.marks[p.slot.toNat - 1]? = some true
  cases s.marks[p.slot.toNat - 1]? with
  | none => simp
  | some b => cases b <;> simp

theorem garbage_nodup (ha : s.table.Addressable) : (s.garbage.map (·.1)).Nodup := by
  have hsub : (s.garbage.map (·.1)).Sublist (s.table.live.map (·.1)) := List.Sublist.map _ List.filter_sublist
  exact hsub.nodup (Table.live_nodup ha)

end Heap

end Tether
