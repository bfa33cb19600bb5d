import Tether.Proofs.Finalization

/-!
# Following a computation to its result

A regime says that computations end well, however they end. Where a computation succeeds, more can
be said: what is on the stack, and which objects are as they were.
-/

namespace Tether

open M World Heap

variable {h : HeapId} {s : Heap} {vs : List Value} {p : HeapPtr} {o : Object} {off : Prop}
  {b : BridgeId} {Rest : World → Prop} {R : Regime} {α : Type} {w w' : World} {ι : Type}
  {f : Heap → Except Stop Heap} {u : Unit} {F : Footing}

namespace Regime

variable {β : Type}

structure Test (R : Regime) where
  passes : World → Prop
  back : ∀ {w w'}, R.rel w w' → passes w' → passes w

/-- A computation keeps the regime. Where it succeeds in a world that passes a test, a fact holds of
its result; a condition on the start may rest on the test as well. -/
def Meets (F : R.Fact) (T : R.Test) (P : World → Prop) (x : M α) (Q : α → World → Prop) : Prop :=
  ∀ w, R.inv w → F.holds w → (T.passes w → P w) →
    R.Good w (x.after w) ∧ ∀ a w', x.exec w = (.ok a, w') → T.passes w' → Q a w'

namespace Meets

variable {F : R.Fact} {T : R.Test} {P P' : World → Prop} {Q S : α → World → Prop} {x : M α}

theorem of_good (hgood : ∀ w, R.inv w → F.holds w → (T.passes w → P w) → R.Good w (x.after w))
    (hpost : ∀ a w w', R.inv w → F.holds w → P w → x.exec w = (.ok a, w') → R.Good w w' →
      T.passes w' → Q a w') : Meets F T P x Q := by
  intro w hw hF hP
  have hg := hgood w hw hF hP
  refine ⟨hg, fun a w' he hT => ?_⟩
  rw [after_eq he] at hg
  exact hpost a w w' hw hF (hP (T.back hg.2 hT)) he hg hT

theorem of_keeps (hx : Keeps F x)
    (hpost : ∀ a w w', R.inv w → F.holds w → P w → x.exec w = (.ok a, w') → R.Good w w' →
      T.passes w' → Q a w') : Meets F T P x Q :=
  of_good (fun w hw hF _ => hx w hw hF) hpost

theorem of_passes (hlax : ∀ w, R.inv w → ¬ T.passes w → R.Good w (x.after w))
    (hx : ∀ w, R.inv w → F.holds w → T.passes w → P w → ∃ y : M α, x.exec w = y.exec w ∧
      Meets F T (fun w' => w' = w) y Q) : Meets F T P x Q := by
  intro w hw hF hP
  by_cases hT : T.passes w
  · obtain ⟨y, he, hy⟩ := hx w hw hF hT (hP hT)
    rw [after, he]
    exact hy w hw hF fun _ => rfl
  · have hg := hlax w hw hT
    refine ⟨hg, fun a w' he hT' => ?_⟩
    rw [after_eq he] at hg
    exact absurd (T.back hg.2 hT') hT

theorem of_reads (hx : M.Reads x) : Meets F T P x fun a w => P w ∧ x.exec w = (.ok a, w) := by
  refine of_keeps (keeps_of_reads hx) fun a w w' _ _ hP he _ _ => ?_
  obtain rfl := hx.exec he
  exact ⟨hP, he⟩

theorem good (h : Meets F T P x Q) (hw : R.inv w) (hF : F.holds w) (hP : T.passes w → P w) : R.Good w (x.after w) :=
  (h w hw hF hP).1

theorem pre (h : Meets F T P x Q) (hpre : ∀ w, P' w → P w) : Meets F T P' x Q :=
  fun w hw hF hP => h w hw hF fun hT => hpre w (hP hT)

theorem post (h : Meets F T P x Q) (hpost : ∀ a w, Q a w → S a w) : Meets F T P x S := by
  intro w hw hF hP
  obtain ⟨hg, hQ⟩ := h w hw hF hP
  exact ⟨hg, fun a w' he hT => hpost a w' (hQ a w' he hT)⟩

theorem bind {f : α → M β} {S : β → World → Prop} (hx : Meets F T P x Q)
    (hf : ∀ a, Meets F T (Q a) (f a) S) : Meets F T P (x >>= f) S := by
  intro w hw hF hP
  obtain ⟨hg, hQ⟩ := hx w hw hF hP
  rcases he : x.exec w with ⟨e | a, w1⟩
  · rw [after_eq he] at hg
    rw [after_bind_error he]
    refine ⟨hg, fun b w' hb => ?_⟩
    rw [bind_error he] at hb
    simpa using congrArg Prod.fst hb
  · rw [after_eq he] at hg
    obtain ⟨hg', hS⟩ := hf a w1 hg.1 (F.stable hg.2 hF) (hQ a w1 he)
    rw [after_bind_ok he]
    refine ⟨hg.trans hg', fun b w' hb => ?_⟩
    rw [bind_ok he] at hb
    exact hS b w' hb

theorem exists_pre [Nonempty ι] {P : ι → World → Prop} (h : ∀ i, Meets F T (P i) x Q) :
    Meets F T (fun w => ∃ i, P i w) x Q := by
  intro w hw hF hP
  by_cases hT : T.passes w
  · obtain ⟨i, hi⟩ := hP hT
    exact h i w hw hF fun _ => hi
  · exact h (Classical.choice inferInstance) w hw hF fun h => absurd h hT

theorem bind_exists [Nonempty ι] {f : α → M β} {Q : α → ι → World → Prop} {S : β → World → Prop}
    (hx : Meets F T P x fun a w => ∃ i, Q a i w) (hf : ∀ a i, Meets F T (Q a i) (f a) S) :
    Meets F T P (x >>= f) S :=
  hx.bind fun a => exists_pre (hf a)

theorem frame {φ : Prop} (h : Meets F T P x Q) : Meets F T (fun w => φ ∧ P w) x fun a w => φ ∧ Q a w := by
  intro w hw hF hP
  obtain ⟨hg, hQ⟩ := h w hw hF fun hT => (hP hT).2
  refine ⟨hg, fun a w' he hT => ⟨?_, hQ a w' he hT⟩⟩
  rw [after_eq he] at hg
  exact (hP (T.back hg.2 hT)).1

theorem forM {l : List β} {f : β → M PUnit} (hf : ∀ b ∈ l, Meets F T P (f b) fun _ => P) :
    Meets F T P (l.forM f) fun _ => P := by
  induction l with
  | nil => exact of_keeps (keeps_pure _) fun a w w' _ _ hP he _ _ => (Prod.mk.inj he).2 ▸ hP
  | cons b rest ih =>
    exact (hf b List.mem_cons_self).bind fun _ => ih fun c hc => hf c (List.mem_cons_of_mem _ hc)

theorem onFault {y : M Unit} (hx : Meets F T P x Q) (hy : Keeps F y) : Meets F T P (onFault x y) Q := by
  intro w hw hF hP
  obtain ⟨hg, hQ⟩ := hx w hw hF hP
  refine ⟨?_, fun a w' he hT => hQ a w' (exec_onFault_eq_ok.mp he) hT⟩
  refine Good.bind (x := catchFault x) (by rw [after_catchFault]; exact hg) fun r w1 _ hg1 => ?_
  cases r with
  | ok a => exact .refl hg1.1
  | error f => exact (hy.bind fun _ => keeps_fail f) w1 hg1.1 (F.stable hg1.2 hF)

end Meets

end Regime

theorem Bridge.equipWrapper_eq_ok (hs : w.heaps[h]? = some s) (he : (Bridge.equipWrapper h f).exec w = (.ok u, w')) :
    (∃ s', f s = .ok s' ∧ w' = w.setHeap h s') ∨ ∃ e, f s = .error (.fault e) ∧
        w' = { w with breaches := w.breaches.merge { refusals := 1 } } := by
  obtain ⟨r, w1, hr, hnote⟩ := bind_ok_iff.mp he
  cases hf : f s with
  | ok s' =>
    rw [exec_catchFault, exec_changeHeap_ok hs hf] at hr
    obtain ⟨rfl, rfl⟩ : .ok () = r ∧ w.setHeap h s' = w1 := by simpa [caught] using hr
    exact .inl ⟨s', rfl, (Prod.mk.inj hnote).2.symm⟩
  | error e =>
    rw [exec_catchFault, exec_changeHeap_error hs hf] at hr
    cases e with
    | fault e =>
      obtain ⟨rfl, rfl⟩ : .error e = r ∧ w = w1 := by simpa [caught] using hr
      exact .inr ⟨e, rfl, (Prod.mk.inj hnote).2.symm⟩
    | crash c => simp [caught] at hr

/-! ## Work on top of a stack -/

namespace Heap

def pushAll (s : Heap) (vs : List Value) : Heap := vs.foldl push s

theorem pushAll_eq (s : Heap) (vs : List Value) : s.pushAll vs = { s with stack := s.stack ++ vs.toArray } := by
  induction vs generalizing s with
  | nil => simp [pushAll]
  | cons v rest ih =>
    show (s.push v).pushAll rest = _
    rw [ih]
    simp [push]

theorem pushAll_append (s : Heap) (us vs : List Value) :
    s.pushAll (us ++ vs) = (s.pushAll us).pushAll vs := List.foldl_append

theorem push_pushAll (s : Heap) (l : List Value) (v : Value) : (s.pushAll l).push v = s.pushAll (l ++ [v]) :=
  (pushAll_append s l [v]).symm

section

variable (s : Heap) (vs : List Value)

theorem object?_pushAll (q : HeapPtr) : (s.pushAll vs).object? q = s.object? q := by
  rw [pushAll_eq]
  rfl

theorem stash_pushAll : (s.pushAll vs).stash = s.stash := by
  rw [pushAll_eq]

theorem bottom_pushAll : (s.pushAll vs).bottom = s.bottom := by
  rw [pushAll_eq]
  rfl

theorem size_pushAll : (s.pushAll vs).stack.size = s.stack.size + vs.length := by
  rw [pushAll_eq]
  simp

end

theorem value?_pushAll (hs : s.bottom ≤ s.stack.size) {j : Nat} {v : Value} (hv : vs[j]? = some v) :
    (s.pushAll vs).value? ((s.stack.size - s.bottom + j : Nat) : Int) = some v := by
  obtain ⟨hj, -⟩ := List.getElem?_eq_some_iff.mp hv
  have hp : (s.pushAll vs).position? ((s.stack.size - s.bottom + j : Nat) : Int) = some (s.stack.size + j) := by
    rw [position?_nat (by rw [bottom_pushAll, size_pushAll]; omega), bottom_pushAll]
    congr 1
    omega
  unfold value?
  rw [hp, pushAll_eq]
  show (s.stack ++ vs.toArray)[s.stack.size + j]? = _
  rw [Array.getElem?_append_right (by omega), Nat.add_sub_cancel_left, List.getElem?_toArray]
  exact hv

theorem withObject_pushAll (s : Heap) (vs : List Value) (o : Object) :
    (s.pushAll vs).withObject o = (s.withObject o).pushAll vs := by
  rw [pushAll_eq, pushAll_eq]
  rfl

theorem modifyObject_pushAll (s : Heap) (vs : List Value) (p : HeapPtr) (f : Object → Object) :
    (s.pushAll vs).modifyObject p f = (s.modifyObject p f).pushAll vs := by
  rw [pushAll_eq, pushAll_eq]
  rfl

end Heap

/-- The part of a heap that work on top of its stack leaves alone. -/
structure Footing where
  stack : Array Value
  frames : List Frame
  stash : HeapPtr
  /-- The objects that stay as they are. -/
  kept : HeapPtr → Prop
  object : HeapPtr → Option Object
  /-- The hidden keys under which the stash holds objects only. -/
  keys : String → Prop
  /-- The objects that no prototype chain leads to. -/
  barred : HeapPtr → Prop

def Footing.base (F : Footing) : Nat := (F.frames.head?.map (·.base)).getD 0

variable (F)

def Footing.height : Nat := F.stack.size - F.base

/-- What is kept is there and not collected, be it that collections are off; the stash may change. -/
structure Footing.Firm (off : Prop) (F : Footing) : Prop where
  live : ∀ q, F.kept q → (F.object q).isSome = true
  rooted : ∀ q, F.kept q → .object q ∈ F.stack ∨ off
  stash : ¬ F.kept F.stash
  barred : ∀ q, F.barred q → F.kept q ∧ off

def Footing.Proto (v : Value) : Prop := ∃ q, v = .object q ∧ ¬ F.barred q

/-- An index names an object that is not kept, one of the values on top of the stack. -/
def Footing.Names (vs : List Value) (i : Int) (p : HeapPtr) : Prop :=
  (¬ F.kept p ∧ p ≠ F.stash) ∧ ∃ j : Nat, i = ((F.height + j : Nat) : Int) ∧ vs[j]? = some (.object p)

variable {F}

/-- A heap that stands on a footing. -/
structure Heap.On (F : Footing) (s : Heap) : Prop where
  stack : s.stack = F.stack
  frames : s.frames = F.frames
  stash : s.stash = F.stash
  bottom_le : s.bottom ≤ s.stack.size
  objects : ∀ q, F.kept q → s.object? q = F.object q
  slots : ∀ st k v, s.object? s.stash = some st → F.keys k → st.hidden.get? k = some v → F.Proto v
  apart : ∀ q o r, s.object? q = some o → o.prototype = some r → ¬ F.barred r

namespace Heap.On

variable {F : Footing} {s' : Heap}

section

variable (hs : s.On F)
include hs

theorem pushAll_bottom_le (vs : List Value) : (s.pushAll vs).bottom ≤ (s.pushAll vs).stack.size := by
  rw [bottom_pushAll, size_pushAll]
  exact Nat.le_trans hs.bottom_le (Nat.le_add_right _ _)

theorem bottom_eq : s.bottom = F.base := by
  unfold Footing.base bottom
  rw [hs.frames]
  cases F.frames <;> rfl

theorem height_eq : F.height = s.stack.size - s.bottom := by
  unfold Footing.height
  rw [hs.stack, hs.bottom_eq]

theorem sound (h : (s.pushAll vs).Sound) : s.Sound := by
  rw [pushAll_eq] at h
  exact ⟨h.table, h.framed, hs.bottom_le, h.global, h.stash,
    fun v hv => h.stack v (Array.mem_append_left _ hv), h.frames, h.references⟩

theorem not_kept (hF : F.Firm off) (hp : s.object? p = none) : ¬ F.kept p := by
  intro hk
  have hlive := hF.live p hk
  rw [← hs.objects p hk, hp] at hlive
  simp at hlive

theorem withObject (hF : F.Firm off) (hsound : s.Sound) (ho : o.Blank)
    (haddr : (s.withObject o).table.Addressable) : (s.withObject o).On F := by
  have hfresh : s.object? (s.table.insert o).1 = none := Table.get?_insert_fresh hsound.table haddr
  refine ⟨hs.stack, hs.frames, hs.stash, hs.bottom_le, fun q hq => ?_, fun st k v hst hk hv => ?_,
    fun q x r hx hr => ?_⟩
  · rw [object?_withObject hsound haddr, if_neg, hs.objects q hq]
    rintro rfl
    exact hs.not_kept hF hfresh hq
  · rcases Table.get?_insert_cases hst with rfl | hst
    · rw [ho.hidden] at hv
      simp [KeyMap.get?] at hv
    · exact hs.slots st k v hst hk hv
  · rcases Table.get?_insert_cases hx with rfl | hx
    · have hmem : r ∈ x.references := Object.mem_references.mpr (.inl hr)
      rw [ho.references] at hmem
      simp at hmem
    · exact hs.apart q x r hx hr

theorem modifyObject {f : Object → Object} (hp : ¬ F.kept p)
    (hhidden : ∀ o k v, (f o).hidden.get? k = some v → o.hidden.get? k = some v ∨ F.Proto v)
    (hproto : ∀ o r, (f o).prototype = some r → o.prototype = some r ∨ ¬ F.barred r) :
    (s.modifyObject p f).On F := by
  refine ⟨hs.stack, hs.frames, hs.stash, hs.bottom_le, fun q hq => ?_, fun st k v hst hk hv => ?_,
    fun q x r hx hr => ?_⟩
  · rw [object?_modifyObject, if_neg fun he : q = p => hp (he ▸ hq), hs.objects q hq]
  · rw [object?_modifyObject] at hst
    split at hst
    · obtain ⟨o, ho, rfl⟩ := Option.map_eq_some_iff.mp hst
      rcases hhidden o k v hv with hv | hv
      · exact hs.slots o k v ho hk hv
      · exact hv
    · exact hs.slots st k v hst hk hv
  · rw [object?_modifyObject] at hx
    split at hx
    · obtain ⟨o, ho, rfl⟩ := Option.map_eq_some_iff.mp hx
      rcases hproto o r hr with hr | hr
      · exact hs.apart q o r ho hr
      · exact hr
    · exact hs.apart q x r hx hr

theorem spares (hF : F.Firm off) {t : Heap} (hsp : (s.pushAll vs).Spares (s.pushAll vs).Reachable t)
    (hoff : off → t = s.pushAll vs) : ∃ s' : Heap, s'.On F ∧ t = s'.pushAll vs := by
  have hroot : ∀ q, (s.pushAll vs).Rooted q → t.object? q = s.object? q := by
    intro q hq
    by_cases hnull : q = .null
    · rw [hnull]
      exact (Table.get?_null _).trans (Table.get?_null _).symm
    · rw [hsp.objects q (.root hq hnull), object?_pushAll]
  refine ⟨{ t with stack := s.stack }, ⟨hs.stack, ?_, ?_, ?_, fun q hq => ?_, fun st k v hst hk hv => ?_,
    fun q o r ho hr => ?_⟩, ?_⟩
  · rw [← hs.frames]
    exact hsp.frames.trans (by rw [pushAll_eq])
  · rw [← hs.stash, ← stash_pushAll s vs]
    exact hsp.stash
  · have hframes : t.frames = s.frames := hsp.frames.trans (by rw [pushAll_eq])
    show ({ t with stack := s.stack } : Heap).bottom ≤ s.stack.size
    unfold bottom
    rw [hframes]
    exact hs.bottom_le
  · rw [← hs.objects q hq]
    rcases hF.rooted q hq with hmem | ho
    · refine hroot q (.inr (.inr (.inl ?_)))
      rw [pushAll_eq]
      exact Array.mem_append_left _ (hs.stack ▸ hmem)
    · show t.object? q = _
      rw [hoff ho, object?_pushAll]
  · have hst : t.object? t.stash = some st := hst
    rw [hsp.stash, hroot _ (.inr (.inl rfl)), stash_pushAll] at hst
    exact hs.slots st k v hst hk hv
  · intro hbar
    have ho : t.object? q = some o := ho
    rw [hoff (hF.barred r hbar).2, object?_pushAll] at ho
    exact hs.apart q o r ho hr hbar
  · rw [pushAll_eq]
    have hstack : t.stack = s.stack ++ vs.toArray := hsp.stack.trans (by rw [pushAll_eq])
    show t = { t with stack := s.stack ++ vs.toArray }
    rw [← hstack]

end

end Heap.On

/-- An object that was just made: nothing leads to it, and it has no place in a footing. -/
structure Heap.Fresh (F : Footing) (o : Object) (p : HeapPtr) (s : Heap) : Prop where
  kept : ¬ F.kept p
  stash : p ≠ F.stash
  object : s.object? p = some o
  apart : ∀ q x, s.object? q = some x → p ∉ x.references

theorem Heap.On.fresh (hs : s.On F) (hF : F.Firm off) (hsound : s.Sound) (ho : o.Blank)
    (haddr : (s.withObject o).table.Addressable) :
    (s.withObject o).Fresh F o (s.table.insert o).1 := by
  have hfresh : s.object? (s.table.insert o).1 = none := Table.get?_insert_fresh hsound.table haddr
  have hself : (s.withObject o).object? (s.table.insert o).1 = some o := by
    rw [object?_withObject hsound haddr, if_pos rfl]
  have hnull : (s.table.insert o).1 ≠ .null := by
    intro he
    rw [he] at hself
    cases hself.symm.trans (Table.get?_null _)
  have hnot : ¬ s.Holds (s.table.insert o).1 := by
    rintro (he | hlive)
    · exact hnull he
    · rw [hfresh] at hlive
      simp at hlive
  refine ⟨hs.not_kept hF hfresh, fun he => hnot ?_, hself, fun q x hx hmem => ?_⟩
  · rw [he, ← hs.stash]
    exact hsound.stash
  · rcases Table.get?_insert_cases hx with rfl | hx
    · rw [ho.references] at hmem
      simp at hmem
    · exact hnot (hsound.references q x hx _ hmem)

/-- A footing with one more object on top of its stack, which is kept as it is. -/
def Footing.add (F : Footing) (off : Prop) (p : HeapPtr) (o : Object) : Footing where
  stack := F.stack.push (.object p)
  frames := F.frames
  stash := F.stash
  kept q := F.kept q ∨ q = p
  object q := if q = p then some o else F.object q
  keys := F.keys
  barred q := F.barred q ∨ q = p ∧ off

structure Footing.Seat (F : Footing) (i : Int) (p : HeapPtr) : Prop where
  index : i = (F.height : Int)
  base_le : F.base ≤ F.stack.size
  kept : ¬ F.kept p
  stash : p ≠ F.stash

section Seat

variable {F : Footing} {i : Int}

theorem Footing.Firm.add (hF : F.Firm off) (hp : F.Seat i p) (o : Object) : (F.add off p o).Firm off where
  live q hq := by
    show (if q = p then some o else F.object q).isSome = true
    split
    · rfl
    · exact hF.live q (hq.resolve_right ‹_›)
  rooted q hq := by
    rcases hq with hq | rfl
    · exact (hF.rooted q hq).imp_left (Array.mem_push_of_mem _)
    · exact .inl Array.mem_push_self
  stash := fun h => h.elim hF.stash fun he => hp.stash he.symm
  barred q hq := by
    rcases hq with hq | ⟨rfl, hoff⟩
    · exact ⟨.inl (hF.barred q hq).1, (hF.barred q hq).2⟩
    · exact ⟨.inr rfl, hoff⟩

theorem Footing.Firm.change (hF : (F.add off p o).Firm off) (o' : Object) : (F.add off p o').Firm off where
  live q hq := by
    have hlive : (if q = p then some o else F.object q).isSome = true := hF.live q hq
    show (if q = p then some o' else F.object q).isSome = true
    split
    · rfl
    · rwa [if_neg ‹_›] at hlive
  rooted := hF.rooted
  stash := hF.stash
  barred := hF.barred

theorem Heap.On.add (hs : s.On F) (hp : s.Fresh F o p) : (s.push (.object p)).On (F.add off p o) := by
  refine ⟨?_, hs.frames, hs.stash, ?_, fun q hq => ?_, fun st k v hst hk hv => ?_, fun q x r hx hr => ?_⟩
  · show s.stack.push _ = F.stack.push _
    rw [hs.stack]
  · rw [bottom_push, size_push]
    exact Nat.le_succ_of_le hs.bottom_le
  · show s.object? q = if q = p then some o else F.object q
    split
    case isTrue he => rw [he, hp.object]
    case isFalse he => exact hs.objects q (hq.resolve_right he)
  · obtain ⟨q, rfl, hq⟩ := hs.slots st k v hst hk hv
    refine ⟨q, rfl, fun hbar => hbar.elim hq fun he => hp.apart s.stash st hst ?_⟩
    refine Object.mem_references.mpr (.inr (.inr (.inr ?_)))
    exact he.1 ▸ KeyMap.mem_values_of_get? hv
  · exact fun hbar => hbar.elim (hs.apart q x r hx hr) fun he =>
      hp.apart q x hx (Object.mem_references.mpr (.inl (he.1 ▸ hr)))

theorem Heap.On.value?_seat (hs : s.On (F.add off p o)) (hp : F.Seat i p) (vs : List Value) :
    (s.pushAll vs).value? i = some (.object p) := by
  have hstack : s.stack = F.stack.push (.object p) := hs.stack
  have hbottom : s.bottom = F.base := hs.bottom_eq
  have hle := hp.base_le
  obtain rfl := hp.index
  have hpos : (s.pushAll vs).position? (F.height : Int) = some F.stack.size := by
    unfold Footing.height
    rw [position?_nat (by rw [bottom_pushAll, size_pushAll, hstack, Array.size_push]; omega), bottom_pushAll, hbottom]
    congr 1
    omega
  unfold value?
  rw [hpos, pushAll_eq, hstack]
  show (F.stack.push (.object p) ++ vs.toArray)[F.stack.size]? = _
  rw [Array.getElem?_append_left (by rw [Array.size_push]; omega)]
  exact Array.getElem?_push_size

theorem Heap.On.object?_seat (hs : s.On (F.add off p o)) : s.object? p = some o := by
  rw [hs.objects p (.inr rfl)]
  exact if_pos rfl

theorem Heap.On.update (hs : s.On (F.add off p o)) (hp : F.Seat i p) {f : Object → Object}
    (hproto : ∀ r, (f o).prototype = some r → ¬ (F.add off p o).barred r) :
    (s.modifyObject p f).On (F.add off p (f o)) := by
  have hself := hs.object?_seat
  refine ⟨hs.stack, hs.frames, hs.stash, hs.bottom_le, fun q hq => ?_, fun st k v hst hk hv => ?_,
    fun q x r hx hr => ?_⟩
  · show _ = if q = p then some (f o) else F.object q
    rw [object?_modifyObject]
    split
    case isTrue he =>
      rw [he, hself]
      rfl
    case isFalse he => exact (hs.objects q hq).trans (if_neg he)
  · rw [object?_modifyObject, if_neg fun he => hp.stash (he.symm.trans hs.stash)] at hst
    exact hs.slots st k v hst hk hv
  · rw [object?_modifyObject] at hx
    split at hx
    case isTrue he =>
      rw [he, hself] at hx
      cases hx
      exact hproto r hr
    case isFalse he => exact hs.apart q x r hx hr

end Seat

/-- A heap with a footing and values on top of its stack, which a bridge is attached to; and what is
known of the rest. -/
structure Over (b : BridgeId) (h : HeapId) (off : Prop) (Rest : World → Prop) (F : Footing)
    (vs : List Value) (w : World) : Prop where
  firm : F.Firm off
  based : w.Based b h
  rest : Rest w
  heap : ∃ s : Heap, s.On F ∧ w.heaps[h]? = some (s.pushAll vs)

/-- A heap with a footing and values on top of its stack, and an object that was just made. -/
structure Placed (b : BridgeId) (h : HeapId) (off : Prop) (Rest : World → Prop) (F : Footing)
    (vs : List Value) (o : Object) (p : HeapPtr) (w : World) : Prop where
  firm : F.Firm off
  based : w.Based b h
  rest : Rest w
  heap : ∃ s : Heap, s.On F ∧ s.Fresh F o p ∧ w.heaps[h]? = some (s.pushAll vs)

theorem Placed.over (hw : Placed b h off Rest F vs o p w) :
    (¬ F.kept p ∧ p ≠ F.stash) ∧ Over b h off Rest F vs w := by
  obtain ⟨s, hon, hfresh, hs⟩ := hw.heap
  exact ⟨⟨hfresh.kept, hfresh.stash⟩, hw.firm, hw.based, hw.rest, s, hon, hs⟩

theorem Placed.seat (hw : Placed b h off Rest F [.object p] o p w) :
    F.Seat (F.height : Int) p ∧ Over b h off Rest (F.add off p o) [] w := by
  obtain ⟨s, hon, hfresh, hs⟩ := hw.heap
  have hbase : F.base ≤ F.stack.size := by
    rw [← hon.bottom_eq, ← hon.stack]
    exact hon.bottom_le
  have hseat : F.Seat (F.height : Int) p := ⟨rfl, hbase, hfresh.kept, hfresh.stash⟩
  exact ⟨hseat, hw.firm.add hseat o, hw.based, hw.rest, s.push (.object p), hon.add hfresh, hs⟩

namespace Regime

structure Indifferent (b : BridgeId) (h : HeapId) (Rest : World → Prop) : Prop where
  setHeap : ∀ {w : World} s, Rest w → Rest (w.setHeap h s)
  editBridge : ∀ {w : World} f, Recounts f → Rest w → Rest { w with bridges := w.bridges.modify b f }
  setLog : ∀ {w : World} log, Rest w → Rest { w with log }
  setBreaches : ∀ {w : World} breaches, Rest w → Rest { w with breaches }

/-- What a regime shows of the collections that allocations on a heap start, and of what is known of
the rest of the world. -/
structure Crafts {R : Regime} (T : R.Test) (n : Nat) (b : BridgeId) (h : HeapId) (off : Prop)
    (Rest : World → Prop) : Prop extends Indifferent b h Rest where
  collects : R.Collects n
  proper : ∀ c w, R.proper c w
  /-- Where the test fails, heaps have to stay sound. -/
  lax : ∀ {w w' : World}, R.inv w → ¬ T.passes w → plain.Good w w' → R.Good w w'
  working : ∀ {w : World} {s : Heap}, R.inv w → T.passes w → w.heaps[h]? = some s → s.Working
  spares : ∀ {w w' : World} {s : Heap}, R.inv w → w.heaps[h]? = some s →
    (Heap.maybeCollect (hostAt n) h).exec w = (.ok (), w') → T.passes w' → w.Based b h → Rest w →
    w'.Based b h ∧ Rest w' ∧ ∃ s' : Heap, w'.heaps[h]? = some s' ∧ s.Spares s.Reachable s' ∧ (off → s' = s)

namespace Crafts

variable {A : R.Fact} {T : R.Test} {n : Nat} {F F' : Footing} {l l' : List Value}

variable (C : Crafts T n b h off Rest)
include C

/-! ## Steps on top of the stack -/

theorem over_setHeap {s' : Heap} (hs : w.heaps[h]? = some s) (hover : Over b h off Rest F l w)
    (hF' : F'.Firm off) (hs' : s'.On F') : Over b h off Rest F' l' (w.setHeap h (s'.pushAll l')) :=
  ⟨hF', hover.based, C.setHeap _ hover.rest, s', hs', get_setHeap hs _⟩

theorem over_setBreaches (breaches : Breaches) (hover : Over b h off Rest F l w) :
    Over b h off Rest F l { w with breaches } :=
  ⟨hover.firm, hover.based, C.setBreaches breaches hover.rest, hover.heap⟩

omit C in
theorem meets_onHeap {f : Heap → Except Stop (α × Heap)} {Q : α → World → Prop} (hk : Keeps A (onHeap h f))
    (hf : ∀ w (s : Heap) a s', F.Firm off → s.On F → f (s.pushAll l) = .ok (a, s') →
      Over b h off Rest F l w → w.heaps[h]? = some (s.pushAll l) → Q a (w.setHeap h s')) :
    Meets A T (Over b h off Rest F l) (onHeap h f) Q := by
  refine .of_keeps hk fun a w w' _ _ hover he _ _ => ?_
  obtain ⟨s, hon, hs⟩ := hover.heap
  obtain ⟨t, s', ht, hft, rfl⟩ := exec_onHeap_eq_ok.mp he
  cases hs.symm.trans ht
  exact hf w s a s' hover.firm hon hft hover hs

theorem meets_changeHeap (hk : Keeps A (changeHeap h f))
    (hf : ∀ (s : Heap) s', F.Firm off → s.On F → f (s.pushAll l) = .ok s' →
      F'.Firm off ∧ ∃ s1 : Heap, s1.On F' ∧ s' = s1.pushAll l') :
    Meets A T (Over b h off Rest F l) (changeHeap h f) fun _ => Over b h off Rest F' l' := by
  refine .of_keeps hk fun a w w' _ _ hover he _ _ => ?_
  obtain ⟨s, hon, hs⟩ := hover.heap
  obtain ⟨t, s', ht, hft, rfl⟩ := exec_changeHeap_eq_ok.mp he
  cases hs.symm.trans ht
  obtain ⟨hF', s1, hon1, rfl⟩ := hf s s' hover.firm hon hft
  exact C.over_setHeap hs hover hF' hon1

omit C in
theorem meets_requireStack (k : Int) : Meets A T (Over b h off Rest F l)
    (readHeap h (·.requireStack k)) fun _ => Over b h off Rest F l :=
  (Meets.of_reads (reads_readHeap h _)).post fun _ _ hw => hw.1

theorem meets_pushStash : Meets A T (Over b h off Rest F l) (modifyHeap h fun s => s.push (.object s.stash))
    fun _ => Over b h off Rest F (l ++ [.object F.stash]) := by
  refine .of_keeps (plain_pushStash h) fun a w w' _ _ hover he _ _ => ?_
  obtain ⟨s, hon, hs⟩ := hover.heap
  rw [exec_modifyHeap hs] at he
  cases he
  rw [stash_pushAll, hon.stash, push_pushAll]
  exact C.over_setHeap hs hover hover.firm hon

theorem meets_popN (v : Value) : Meets A T (Over b h off Rest F (l ++ [v]))
    (changeHeap h (·.popN 1)) fun _ => Over b h off Rest F l := by
  refine C.meets_changeHeap (keeps_popN h 1) fun s s' hF hon he => ⟨hF, s, hon, ?_⟩
  rw [pushAll_append] at he
  have hpop : ((s.pushAll l).push v).popN 1 = .ok (s.pushAll l) := popN_push (hon.pushAll_bottom_le l) v
  exact (Except.ok.inj (hpop.symm.trans he)).symm

theorem meets_swap (u v : Value) : Meets A T (Over b h off Rest F (l ++ [u, v]))
    (changeHeap h (·.swap (-1) (-2))) fun _ => Over b h off Rest F (l ++ [v, u]) := by
  refine C.meets_changeHeap (keeps_changeHeap amends_swap) fun s s' hF hon he => ⟨hF, s, hon, ?_⟩
  rw [pushAll_append] at he ⊢
  have hswap : (((s.pushAll l).push u).push v).swap (-1) (-2) =
      .ok (((s.pushAll l).push v).push u) := swap_push (hon.pushAll_bottom_le l) u v
  exact (Except.ok.inj (hswap.symm.trans he)).symm

theorem meets_dup (v : Value) : Meets A T (Over b h off Rest F (l ++ [v]))
    (changeHeap h (·.dup (-1))) fun _ => Over b h off Rest F (l ++ [v, v]) := by
  refine C.meets_changeHeap (keeps_changeHeap amends_dup) fun s s' hF hon he => ⟨hF, s, hon, ?_⟩
  rw [pushAll_append] at he ⊢
  have hdup : ((s.pushAll l).push v).dup (-1) = .ok (((s.pushAll l).push v).push v) :=
    dup_push (hon.pushAll_bottom_le l) v
  exact (Except.ok.inj (hdup.symm.trans he)).symm

theorem meets_getHidden (k : String) : Meets A T (Over b h off Rest F (l ++ [.object F.stash]))
    (onHeap h (·.getHidden (-1) k)) fun found w => ∃ v, (found = true → F.keys k → F.Proto v) ∧
      Over b h off Rest F (l ++ [.object F.stash, v]) w := by
  refine meets_onHeap (keeps_onHeap amends_getHidden) fun w s found s' hF hon he hover hs => ?_
  have hbot := hon.pushAll_bottom_le l
  have hv := value?_push hbot (.object F.stash)
  rw [← push_pushAll] at he
  cases hst : s.object? F.stash with
  | none =>
    have hst' : ((s.pushAll l).push (.object F.stash)).object? F.stash = none := (object?_pushAll s l _).trans hst
    rw [getHidden_missing hv hst'] at he
    simp at he
  | some st =>
    have hst' : ((s.pushAll l).push (.object F.stash)).object? F.stash = some st := (object?_pushAll s l _).trans hst
    rw [getHidden_eq hv hst'] at he
    cases he
    refine ⟨(st.hidden.get? k).getD .undefined, fun hfound hk => ?_, ?_⟩
    · obtain ⟨v, hv⟩ := Option.isSome_iff_exists.mp hfound
      rw [hv]
      exact hon.slots st k v (by rw [hon.stash]; exact hst) hk hv
    · rw [push_pushAll, push_pushAll, List.append_assoc]
      exact C.over_setHeap hs hover hF hon

theorem meets_modifyBridge {f : Bridge → Bridge}
    (hf : ∀ x, (f x).heapId = x.heapId ∧ (f x).registry = x.registry ∧ (f x).stats.tally = x.stats.tally) :
    Meets A T (Over b h off Rest F l) (modifyBridge b f) fun _ => Over b h off Rest F l := by
  refine .of_keeps (keeps_modifyBridge hf) fun _ w w' _ _ hover he _ _ => ?_
  cases he
  refine ⟨hover.firm, ?_, C.editBridge f (fun x => ⟨(hf x).1, (hf x).2.1⟩) hover.rest, hover.heap⟩
  obtain ⟨br, hbr, hid⟩ := hover.based
  obtain ⟨br', hbr', hid'⟩ := modify_forth (fun x => (hf x).1) hbr
  exact ⟨br', hbr', hid'.trans hid⟩

theorem meets_log (enabled : Bool) (level : LogLevel) (message : String)
    (fields : List (String × LogValue)) : Meets A T (Over b h off Rest F l)
    (log enabled level message fields) fun _ => Over b h off Rest F l := by
  refine .of_keeps (keeps_log _ _ _ _) fun _ w w' _ _ hover he _ _ => ?_
  obtain ⟨log, hlog⟩ := exec_log enabled level message fields w
  cases hlog.symm.trans he
  exact ⟨hover.firm, hover.based, C.setLog log hover.rest, hover.heap⟩

theorem meets_putProp (i : Int) (k : String) (v : Value) (p : HeapPtr) :
    Meets A T (fun w => F.Names l i p ∧ Over b h off Rest F (l ++ [v]) w)
      (changeHeap h (·.putProp i k)) fun _ w => F.Names l i p ∧ Over b h off Rest F l w := by
  refine .of_keeps (keeps_putProp h i k) fun _ w w' _ _ ⟨hnames, hover⟩ he _ _ => ⟨hnames, ?_⟩
  obtain ⟨s, hon, hs⟩ := hover.heap
  obtain ⟨t, s', ht, hput, rfl⟩ := exec_changeHeap_eq_ok.mp he
  cases hs.symm.trans ht
  obtain ⟨⟨hkept, -⟩, j, rfl, hj⟩ := hnames
  have hv : (s.pushAll (l ++ [v])).value? ((F.height + j : Nat) : Int) = some (.object p) := by
    rw [hon.height_eq]
    refine value?_pushAll hon.bottom_le ?_
    rw [List.getElem?_append_left (List.getElem?_eq_some_iff.mp hj).1]
    exact hj
  obtain ⟨q, hq, hput⟩ := bind_eq_ok.mp hput
  obtain rfl : q = p := by simpa using (value?_of_requireObject hq).symm.trans hv
  obtain ⟨x, -, hput⟩ := bind_eq_ok.mp hput
  obtain ⟨-, -, hput⟩ := bind_eq_ok.mp hput
  rw [pushAll_append] at hput
  have hpop := popN_modifyObject (hon.pushAll_bottom_le l) v q fun o => { o with props := o.props.put k x }
  cases hpop.symm.trans hput
  rw [modifyObject_pushAll]
  exact C.over_setHeap hs hover hover.firm (hon.modifyObject hkept (fun _ _ _ hv => .inl hv) fun _ _ hr => .inl hr)

/-! ## New objects -/

theorem meets_maybeCollect : Meets A T (Over b h off Rest F l) (Heap.maybeCollect (hostAt n) h)
    fun _ => Over b h off Rest F l := by
  refine .of_keeps (keeps_maybeCollect C.collects h) fun _ w w' hw _ hover he _ hT => ?_
  obtain ⟨s, hon, hs⟩ := hover.heap
  obtain ⟨hbased, hrest, t, ht, hsp, hoff⟩ := C.spares hw hs he hT hover.based hover.rest
  obtain ⟨s', hon', rfl⟩ := hon.spares hover.firm hsp hoff
  exact ⟨hover.firm, hbased, hrest, s', hon', ht⟩

omit C in
theorem good_present (hw : R.inv w) (hs : w.heaps[h]? = some s)
    (halloc : R.inv (w.setHeap h (s.withObject o))) : R.Good (w.setHeap h (s.withObject o))
      (w.setHeap h ((s.withObject o).push (.object (s.table.insert o).1))) := by
  have hpush := R.amend halloc (get_setHeap hs _) (amends_push fun hwork =>
    holdsValue_object.mpr (holds_placed hw hs hwork))
  rwa [setHeap_setHeap] at hpush

omit C in
theorem good_place (hw : R.inv w) (hs : w.heaps[h]? = some s) (ho : o.Blank)
    (hcode : ∀ name arity b c, o.body = .function name arity (some (.bound b c)) → R.usable b w ∧ R.proper c w)
    (hfinalizer : ∀ name arity b, o.body = .function name arity (some (.finalizer b)) → R.tends h b w := by simp) :
    R.Good w (w.setHeap h ((s.withObject o).push (.object (s.table.insert o).1))) :=
  have halloc : R.Good w (w.setHeap h (s.withObject o)) := R.alloc hw hs ho hcode hfinalizer
  halloc.trans (good_present hw hs halloc.1)

omit C in
theorem pushNew_eq_ok {i : Int} (he : (Heap.pushNew (hostAt n) h o).exec w = (.ok i, w')) :
    ∃ w1 s, (Heap.maybeCollect (hostAt n) h).exec w = (.ok (), w1) ∧ w1.heaps[h]? = some s ∧
      w' = w1.setHeap h ((s.withObject o).push (.object (s.table.insert o).1)) ∧
      i = ((s.withObject o).push (.object (s.table.insert o).1)).top - 1 := by
  obtain ⟨p, w2, hnew, he⟩ := bind_ok_iff.mp he
  obtain ⟨w1, s, hm, hs, rfl, rfl⟩ := newObject_eq_ok hnew
  rw [bind_ok (exec_modifyHeap (get_setHeap hs _) _), setHeap_setHeap, bind_ok (exec_heap (get_setHeap hs _))] at he
  obtain ⟨hi, rfl⟩ := Prod.mk.inj he
  exact ⟨w1, s, hm, hs, rfl, (Except.ok.inj hi).symm⟩

theorem meets_pushNew (ho : o.Blank)
    (hcode : ∀ name arity b c, o.body = .function name arity (some (.bound b c)) → A.Gives (Bound b c))
    (hfinalizer : ∀ name arity b, o.body = .function name arity (some (.finalizer b)) →
      A.Gives (Tends h b) := by simp) :
    Meets A T (Over b h off Rest F l) (Heap.pushNew (hostAt n) h o) fun i w => ∃ p,
      i = ((F.height + l.length : Nat) : Int) ∧ Placed b h off Rest F (l ++ [.object p]) o p w := by
  refine .of_keeps (keeps_pushNew C.collects h ho hcode hfinalizer) fun i w w' hw hFa hover he hg hT => ?_
  obtain ⟨w1, t, hm, ht, rfl, rfl⟩ := pushNew_eq_ok he
  have hg1 : R.Good w w1 := by
    rw [← after_eq hm]
    exact (keeps_maybeCollect C.collects h).good hw
  have hplace := good_place hg1.1 ht ho (fun name arity b c hb => hcode name arity b c hb w1 (A.stable hg1.2 hFa))
    fun name arity b hb => hfinalizer name arity b hb w1 (A.stable hg1.2 hFa)
  obtain ⟨-, hcollected⟩ := C.meets_maybeCollect (A := noFact) (F := F) w hw trivial fun _ => hover
  obtain ⟨hF, hbased, hrest, s, hon, hs⟩ := hcollected () w1 hm (T.back hplace.2 hT)
  cases ht.symm.trans hs
  have hwork := C.working hg.1 hT (get_setHeap hs _)
  have hsound : s.Sound := hon.sound (C.working hg1.1 (T.back hplace.2 hT) hs).toSound
  have hinsert : ((s.pushAll l).table.insert o).1 = (s.table.insert o).1 := by rw [pushAll_eq]
  have haddr : (s.withObject o).table.Addressable := by
    have := hwork.addressable
    rw [withObject_pushAll, pushAll_eq] at this
    exact this
  refine ⟨(s.table.insert o).1, ?_, hF, hbased, C.setHeap _ hrest, s.withObject o,
    hon.withObject hF hsound ho haddr, hon.fresh hF hsound ho haddr, ?_⟩
  · have hbot := hon.bottom_le
    rw [hon.height_eq, withObject_pushAll, hinsert, top, size_push, bottom_push, size_pushAll, bottom_pushAll]
    show ((s.stack.size + l.length + 1 : Nat) : Int) - (s.bottom : Int) - 1 = _
    omega
  · rw [get_setHeap hs, withObject_pushAll, pushAll_append, hinsert]
    rfl

end Crafts

end Regime

end Tether
