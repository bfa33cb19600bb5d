import Mathlib.Algebra.Order.Ring.Nat
import Mathlib.Tactic.ByContra
import Mathlib.Tactic.Tauto
import Tether.Storage.Steps

/-!
# An arena divides its range

The free spans of an arena and the spans that it handed out lie side by side in its range, and no
address is in two of them or in none.
-/

namespace Tether

namespace Span

variable {s t : Span}

def Has (s : Span) (x : Nat) : Prop := s.start ≤ x ∧ x < s.stop

def Disjoint (s t : Span) : Prop := ∀ x, s.Has x → ¬ t.Has x

theorem Disjoint.symm (h : s.Disjoint t) : t.Disjoint s := fun x ht hs => h x hs ht

theorem has_start (hs : 0 < s.size) : s.Has s.start := ⟨Nat.le_refl _, Nat.lt_add_of_pos_right hs⟩

theorem Disjoint.stop_le (h : s.Disjoint t) (ht : 0 < t.size) (hle : s.start ≤ t.start) : s.stop ≤ t.start := by
  by_contra hlt
  exact h t.start ⟨hle, by omega⟩ (has_start ht)

theorem disjoint_of_stop_le (h : s.stop ≤ t.start) : s.Disjoint t := by
  intro x hs ht
  have := hs.2
  have := ht.1
  omega

end Span

namespace Arena

variable {a b : Arena} {s t : Span} {l l' : List Span} {x base size align lo hi : Nat}

/-! ## Lists of spans -/

def Covers (l : List Span) (x : Nat) : Prop := ∃ s ∈ l, s.Has x

@[simp] theorem covers_nil : ¬ Covers [] x := by
  rintro ⟨s, hs, -⟩
  simp at hs

@[simp] theorem covers_cons : Covers (s :: l) x ↔ s.Has x ∨ Covers l x := by
  simp [Covers]

@[simp] theorem covers_append : Covers (l ++ l') x ↔ Covers l x ∨ Covers l' x := by
  simp [Covers, or_and_right, exists_or]

/-- No span is empty, and every span ends before the next begins, with a gap between them. -/
structure Spaced (l : List Span) : Prop where
  nonempty : ∀ s ∈ l, 0 < s.size
  apart : l.Pairwise fun s t => s.stop < t.start

theorem spaced_nil : Spaced [] := ⟨by simp, .nil⟩

theorem spaced_cons : Spaced (s :: l) ↔ 0 < s.size ∧ (∀ t ∈ l, s.stop < t.start) ∧ Spaced l := by
  constructor
  · intro h
    obtain ⟨hs, hl⟩ := List.forall_mem_cons.mp h.nonempty
    obtain ⟨ha, hp⟩ := List.pairwise_cons.mp h.apart
    exact ⟨hs, ha, hl, hp⟩
  · rintro ⟨hs, ha, hl⟩
    exact ⟨List.forall_mem_cons.mpr ⟨hs, hl.nonempty⟩, List.pairwise_cons.mpr ⟨ha, hl.apart⟩⟩

theorem spaced_append : Spaced (l ++ l') ↔ Spaced l ∧ Spaced l' ∧ ∀ s ∈ l, ∀ t ∈ l', s.stop < t.start := by
  constructor
  · intro h
    obtain ⟨hl, hl'⟩ := List.forall_mem_append.mp h.nonempty
    obtain ⟨hp, hp', hx⟩ := List.pairwise_append.mp h.apart
    exact ⟨⟨hl, hp⟩, ⟨hl', hp'⟩, hx⟩
  · rintro ⟨hl, hl', hx⟩
    exact ⟨List.forall_mem_append.mpr ⟨hl.nonempty, hl'.nonempty⟩, List.pairwise_append.mpr ⟨hl.apart, hl'.apart, hx⟩⟩

theorem Spaced.eq_range (h : Spaced l) (hlt : lo < hi) (hc : ∀ x, lo ≤ x ∧ x < hi ↔ Covers l x) :
    l = [⟨lo, hi - lo⟩] := by
  obtain ⟨s, hs, hlo⟩ := (hc lo).mp ⟨Nat.le_refl _, hlt⟩
  cases l with
  | nil => simp at hs
  | cons t rest =>
    obtain ⟨ht, hgap, hrest⟩ := spaced_cons.mp h
    -- The address after the first span is in no span, so the range ends there.
    have hstart := (hc t.start).mpr ⟨t, List.mem_cons_self, Span.has_start ht⟩
    have hlast := (hc (t.stop - 1)).mpr ⟨t, List.mem_cons_self, by unfold Span.Has Span.stop; omega⟩
    have hnext : ¬ Covers (t :: rest) t.stop := by
      rw [covers_cons]
      rintro (hx | ⟨u, hu, hx⟩)
      · exact absurd hx.2 (Nat.lt_irrefl _)
      · exact absurd (hgap u hu) (Nat.not_lt.mpr hx.1)
    have hend : hi ≤ t.stop := by
      by_contra hlt
      exact hnext ((hc t.stop).mp ⟨by unfold Span.stop; omega, by omega⟩)
    have hrest_nil : rest = [] := by
      cases rest with
      | nil => rfl
      | cons u us =>
        have hu := hgap u List.mem_cons_self
        have := (hc u.start).mpr ⟨u, by simp, Span.has_start (hrest.nonempty u List.mem_cons_self)⟩
        omega
    subst hrest_nil
    obtain rfl := List.mem_singleton.mp hs
    have := hlo.1
    simp only [Span.stop] at hlast hend
    obtain ⟨start, size⟩ := s
    simp only [List.cons.injEq, Span.mk.injEq, and_true]
    simp only at *
    omega

/-! ## Joining -/

theorem covers_attach : Covers (attach s l) x ↔ s.Has x ∨ Covers l x := by
  cases l with
  | nil => simp [attach]
  | cons t rest =>
    rw [attach]
    split
    · rename_i h
      simp only [covers_cons, ← or_assoc]
      refine or_congr_left ?_
      simp only [Span.Has, Span.stop] at h ⊢
      omega
    · simp

theorem spaced_attach (hs : 0 < s.size) (hl : Spaced l) (hle : ∀ t ∈ l, s.stop ≤ t.start) : Spaced (attach s l) := by
  cases l with
  | nil => exact spaced_cons.mpr ⟨hs, by simp, spaced_nil⟩
  | cons t rest =>
    obtain ⟨ht, hgap, hrest⟩ := spaced_cons.mp hl
    have hst := hle t List.mem_cons_self
    rw [attach]
    split
    · rename_i h
      refine spaced_cons.mpr ⟨Nat.lt_of_lt_of_le hs (Nat.le_add_right _ _), ?_, hrest⟩
      intro u hu
      have := hgap u hu
      simp only [Span.stop] at *
      omega
    · rename_i h
      refine spaced_cons.mpr ⟨hs, ?_, hl⟩
      intro u hu
      rcases List.mem_cons.mp hu with rfl | hu
      · omega
      · have := hgap u hu
        simp only [Span.stop] at *
        omega

theorem covers_insertFree : Covers (insertFree s l) x ↔ s.Has x ∨ Covers l x := by
  induction l with
  | nil => simp [insertFree]
  | cons t rest ih =>
    rw [insertFree]
    split
    · exact covers_attach
    · rw [covers_attach, ih, covers_cons]
      exact or_left_comm

theorem spaced_insertFree (hs : 0 < s.size) (hl : Spaced l) (hd : ∀ t ∈ l, s.Disjoint t) :
    Spaced (insertFree s l) := by
  induction l with
  | nil => exact spaced_cons.mpr ⟨hs, by simp, spaced_nil⟩
  | cons t rest ih =>
    obtain ⟨ht, hgap, hrest⟩ := spaced_cons.mp hl
    obtain ⟨hdt, hdrest⟩ := List.forall_mem_cons.mp hd
    rw [insertFree]
    split
    · rename_i hlt
      refine spaced_attach hs hl fun u hu => ?_
      have hle : s.start ≤ u.start := by
        rcases List.mem_cons.mp hu with rfl | hu
        · omega
        · have := hgap u hu
          simp only [Span.stop] at this
          omega
      exact (hd u hu).stop_le (hl.nonempty u hu) hle
    · rename_i hlt
      have hts : t.stop ≤ s.start := hdt.symm.stop_le hs (Nat.not_lt.mp hlt)
      have hback := ih hrest hdrest
      refine spaced_attach ht hback fun u hu => ?_
      -- What begins in the joined list begins in the span or in one of the others.
      rcases covers_insertFree.mp ⟨u, hu, Span.has_start (hback.nonempty u hu)⟩ with h | ⟨v, hv, h⟩
      · exact Nat.le_trans hts h.1
      · exact Nat.le_trans (Nat.le_of_lt (hgap v hv)) h.1

/-! ## Cutting out -/

theorem le_alignUp (h : 0 < align) : x ≤ alignUp x align := by
  unfold alignUp
  have hdiv := Nat.div_add_mod (x + align - 1) align
  have hmod := Nat.mod_lt (x + align - 1) h
  rw [Nat.mul_comm] at hdiv
  omega

theorem firstFit_eq_some (h : firstFit size align l = some (base, l')) :
    ∃ before s after, l = before ++ s :: after ∧ base = alignUp s.start align ∧ base - s.start + size ≤ s.size ∧
      l' = before ++ (remainders s (base - s.start) size ++ after) := by
  induction l generalizing base l' with
  | nil => simp [firstFit] at h
  | cons s rest ih =>
    simp only [firstFit] at h
    split at h
    · rename_i hfit
      cases h
      exact ⟨[], s, rest, rfl, rfl, hfit, rfl⟩
    · obtain ⟨⟨c, spans⟩, hrest, heq⟩ := Option.map_eq_some_iff.mp h
      cases heq
      obtain ⟨before, u, after, rfl, hbase, hroom, rfl⟩ := ih hrest
      exact ⟨s :: before, u, after, rfl, hbase, hroom, rfl⟩

variable {pad : Nat}

theorem mem_remainders : t ∈ remainders s pad size ↔ 0 < pad ∧ t = ⟨s.start, pad⟩ ∨
      0 < s.size - pad - size ∧ t = ⟨s.start + pad + size, s.size - pad - size⟩ := by
  unfold remainders
  by_cases hpad : 0 < pad <;> by_cases hrest : 0 < s.size - pad - size <;> simp [hpad, hrest]

theorem covers_remainders (hroom : pad + size ≤ s.size) :
    Covers (remainders s pad size) x ↔ s.Has x ∧ ¬ Span.Has ⟨s.start + pad, size⟩ x := by
  simp only [Covers, mem_remainders, Span.Has, Span.stop]
  constructor
  · rintro ⟨t, ⟨hpad, rfl⟩ | ⟨hrest, rfl⟩, hx⟩ <;> simp only at hx <;> omega
  · rintro ⟨hin, hout⟩
    by_cases hx : x < s.start + pad
    · exact ⟨_, .inl ⟨by omega, rfl⟩, hin.1, hx⟩
    · exact ⟨_, .inr ⟨by omega, rfl⟩, by simp only; omega, by simp only; omega⟩

theorem spaced_remainders (hsize : 0 < size) : Spaced (remainders s pad size) := by
  refine ⟨fun t ht => ?_, ?_⟩
  · rcases mem_remainders.mp ht with ⟨hpad, rfl⟩ | ⟨hrest, rfl⟩
    · exact hpad
    · exact hrest
  · unfold remainders
    by_cases hpad : 0 < pad <;> by_cases hrest : 0 < s.size - pad - size <;>
      simp [hpad, hrest, Span.stop, hsize]

theorem remainders_inside (hroom : pad + size ≤ s.size) (ht : t ∈ remainders s pad size) :
    s.start ≤ t.start ∧ t.stop ≤ s.stop := by
  rcases mem_remainders.mp ht with ⟨hpad, rfl⟩ | ⟨hrest, rfl⟩ <;> simp only [Span.stop] <;> omega

theorem spaced_firstFit (hl : Spaced l) (hsize : 0 < size) (halign : 0 < align)
    (h : firstFit size align l = some (base, l')) :
    Spaced l' ∧ (∀ x, Covers l x ↔ Span.Has ⟨base, size⟩ x ∨ Covers l' x) ∧
      ∀ x, Span.Has ⟨base, size⟩ x → ¬ Covers l' x := by
  obtain ⟨before, s, after, rfl, hbase, hroom, rfl⟩ := firstFit_eq_some h
  have hstart : s.start + (base - s.start) = base := by
    have := @le_alignUp s.start align halign
    omega
  have hinside := fun t ht => @remainders_inside s t _ _ hroom ht
  have hcover : ∀ x, Covers (remainders s (base - s.start) size) x ↔ s.Has x ∧ ¬ Span.Has ⟨base, size⟩ x := by
    intro x
    rw [covers_remainders hroom, hstart]
  obtain ⟨hbefore, hrest, hgap⟩ := spaced_append.mp hl
  obtain ⟨hs, hgap', hafter⟩ := spaced_cons.mp hrest
  have hpiece : ∀ x, Span.Has ⟨base, size⟩ x → s.Has x := by
    intro x hx
    simp only [Span.Has, Span.stop] at hx ⊢
    omega
  refine ⟨?_, ?_, ?_⟩
  · refine spaced_append.mpr ⟨hbefore, spaced_append.mpr ⟨spaced_remainders hsize, hafter, ?_⟩, ?_⟩
    · intro t ht u hu
      exact Nat.lt_of_le_of_lt (hinside t ht).2 (hgap' u hu)
    · intro t ht u hu
      rcases List.mem_append.mp hu with hu | hu
      · exact Nat.lt_of_lt_of_le (hgap t ht s List.mem_cons_self) (hinside u hu).1
      · exact hgap t ht u (List.mem_cons_of_mem _ hu)
  · intro x
    simp only [covers_append, covers_cons, hcover x]
    tauto
  · intro x hx hc
    simp only [covers_append] at hc
    rcases hc with ⟨t, ht, htx⟩ | hc | ⟨t, ht, htx⟩
    · exact Span.disjoint_of_stop_le (Nat.le_of_lt (hgap t ht s List.mem_cons_self)) x htx (hpiece x hx)
    · exact ((hcover x).mp hc).2 hx
    · exact Span.disjoint_of_stop_le (Nat.le_of_lt (hgap' t ht)) x (hpiece x hx) htx

/-! ## Arenas -/

/-- The free spans of an arena are spaced, and with the spans handed out they divide the range from
`lo` to `hi`; the bytes in use are the sizes handed out. -/
structure Partitions (a : Arena) (lo hi : Nat) : Prop where
  spaced : Spaced a.vacant
  nonempty : ∀ s ∈ a.used, 0 < s.size
  disjoint : (a.vacant ++ a.used).Pairwise Span.Disjoint
  covers : ∀ x, lo ≤ x ∧ x < hi ↔ Covers (a.vacant ++ a.used) x
  inUse : a.inUse = (a.used.map (·.size)).sum

theorem Spaced.disjoint (h : Spaced l) : l.Pairwise Span.Disjoint :=
  h.apart.imp fun hst => Span.disjoint_of_stop_le (Nat.le_of_lt hst)

theorem disjoint_iff (hv : Spaced a.vacant) : (a.vacant ++ a.used).Pairwise Span.Disjoint ↔
      a.used.Pairwise Span.Disjoint ∧ ∀ x, Covers a.vacant x → ¬ Covers a.used x := by
  rw [List.pairwise_append]
  constructor
  · rintro ⟨-, hu, hx⟩
    refine ⟨hu, ?_⟩
    rintro x ⟨s, hs, hsx⟩ ⟨t, ht, htx⟩
    exact hx s hs t ht x hsx htx
  · rintro ⟨hu, hx⟩
    exact ⟨hv.disjoint, hu, fun s hs t ht x hsx htx => hx x ⟨s, hs, hsx⟩ ⟨t, ht, htx⟩⟩

theorem partitions_ofRange (h : lo < hi) : (ofRange lo hi).Partitions lo hi where
  spaced := spaced_cons.mpr ⟨Nat.sub_pos_of_lt h, by simp, spaced_nil⟩
  nonempty := by simp [ofRange]
  disjoint := by simp [ofRange]
  covers := by
    simp only [ofRange, List.append_nil, covers_cons, covers_nil, or_false, Span.Has, Span.stop]
    omega
  inUse := rfl

theorem alloc_eq_ok (h : a.alloc size align = .ok (base, b)) :
    0 < size ∧ ∃ align' vacant, 0 < align' ∧ firstFit size align' a.vacant = some (base, vacant) ∧
      b = ⟨vacant, ⟨base, size⟩ :: a.used, a.inUse + size⟩ := by
  have hpos : 0 < (if align = 0 then 1 else align) := by split <;> omega
  unfold alloc at h
  generalize (if align = 0 then 1 else align) = align' at h hpos
  simp only at h
  split at h
  · simp at h
  rename_i hsize
  split at h
  · simp at h
  split at h
  · rename_i c vacant hfit
    cases h
    exact ⟨Nat.pos_of_ne_zero hsize, align', vacant, hpos, hfit, rfl⟩
  · simp at h

theorem Partitions.alloc (ha : a.Partitions lo hi) (h : a.alloc size align = .ok (base, b)) : b.Partitions lo hi := by
  obtain ⟨hsize, align', vacant, halign, hfit, rfl⟩ := alloc_eq_ok h
  obtain ⟨hspaced, hcover, hout⟩ := spaced_firstFit ha.spaced hsize halign hfit
  obtain ⟨hused, happart⟩ := (disjoint_iff ha.spaced).mp ha.disjoint
  refine ⟨hspaced, List.forall_mem_cons.mpr ⟨hsize, ha.nonempty⟩, (disjoint_iff hspaced).mpr ⟨?_, ?_⟩, ?_, ?_⟩
  · refine List.pairwise_cons.mpr ⟨?_, hused⟩
    intro t ht x hx htx
    exact happart x ((hcover x).mpr (.inl hx)) ⟨t, ht, htx⟩
  · intro x hx hu
    rcases covers_cons.mp hu with hu | hu
    · exact hout x hu hx
    · exact happart x ((hcover x).mpr (.inr hx)) hu
  · intro x
    rw [ha.covers x]
    simp only [covers_append, covers_cons, hcover x]
    tauto
  · simp only [List.map_cons, List.sum_cons, ha.inUse]
    omega

theorem Partitions.usedAt?_eq_some (ha : a.Partitions lo hi) {address : Nat} (h : a.usedAt? address = some s) :
    s.start = address ∧ ∃ before after, a.used = before ++ s :: after ∧
      a.used.filter (·.start != address) = before ++ after := by
  obtain ⟨hstart, before, after, hused, hbefore⟩ := List.find?_eq_some_iff_append.mp h
  have hstart : s.start = address := by simpa using hstart
  obtain ⟨hdisjoint, -⟩ := (disjoint_iff ha.spaced).mp ha.disjoint
  rw [hused] at hdisjoint
  obtain ⟨-, hrest, -⟩ := List.pairwise_append.mp hdisjoint
  have hs : 0 < s.size := ha.nonempty s (by simp [hused])
  -- A second span with the same start would share its first address.
  have hafter : ∀ t ∈ after, t.start ≠ address := by
    intro t ht heq
    have htpos : 0 < t.size := ha.nonempty t (by simp [hused, ht])
    have hshare : t.Has s.start := by
      rw [hstart, ← heq]
      exact Span.has_start htpos
    exact (List.pairwise_cons.mp hrest).1 t ht s.start (Span.has_start hs) hshare
  refine ⟨hstart, before, after, hused, ?_⟩
  rw [hused, List.filter_append, List.filter_cons_of_neg (by simpa using hstart)]
  congr 1
  · refine List.filter_eq_self.mpr fun t ht => ?_
    simpa using hbefore t ht
  · refine List.filter_eq_self.mpr fun t ht => ?_
    simpa using hafter t ht

theorem Partitions.free (ha : a.Partitions lo hi) (address : Nat) : (a.free address).Partitions lo hi := by
  unfold Arena.free
  split
  · exact ha
  rename_i s hs
  obtain ⟨-, before, after, hused, hfilter⟩ := ha.usedAt?_eq_some hs
  rw [hfilter]
  obtain ⟨hdisjoint, happart⟩ := (disjoint_iff ha.spaced).mp ha.disjoint
  have hnonempty := ha.nonempty
  have hcovers := ha.covers
  have hsum := ha.inUse
  simp only [hused, covers_append, covers_cons] at hdisjoint happart hcovers
  rw [hused] at hnonempty hsum
  obtain ⟨hbefore, hafter, hbetween⟩ := List.pairwise_append.mp hdisjoint
  obtain ⟨hs_after, hafter⟩ := List.pairwise_cons.mp hafter
  have hpos : 0 < s.size := hnonempty s (by simp)
  have hspaced : Spaced (insertFree s a.vacant) := by
    refine spaced_insertFree hpos ha.spaced fun t ht x hx htx => ?_
    exact happart x ⟨t, ht, htx⟩ (.inr (.inl hx))
  refine ⟨hspaced, fun t ht => hnonempty t ?_, (disjoint_iff hspaced).mpr ⟨?_, ?_⟩, ?_, ?_⟩
  · rcases List.mem_append.mp ht with ht | ht <;> simp [ht]
  · exact List.pairwise_append.mpr ⟨hbefore, hafter, fun t ht u hu =>
      hbetween t ht u (List.mem_cons_of_mem _ hu)⟩
  · intro x hx hu
    rw [covers_insertFree] at hx
    rw [covers_append] at hu
    rcases hx with hx | hx
    · rcases hu with ⟨t, ht, htx⟩ | ⟨t, ht, htx⟩
      · exact hbetween t ht s List.mem_cons_self x htx hx
      · exact hs_after t ht x hx htx
    · exact happart x hx (hu.imp id .inr)
  · intro x
    rw [hcovers x]
    simp only [covers_append, covers_insertFree]
    tauto
  · simp only [List.map_append, List.map_cons, List.sum_append, List.sum_cons] at hsum ⊢
    omega

theorem used_free (a : Arena) (address : Nat) : (a.free address).used = a.used.filter (·.start != address) := by
  unfold free
  split
  · rename_i hnone
    refine (List.filter_eq_self.mpr fun t ht => ?_).symm
    simpa using List.find?_eq_none.mp hnone t ht
  · rfl

theorem Partitions.foldl_free (ha : a.Partitions lo hi) (order : List Nat) :
    (order.foldl Arena.free a).Partitions lo hi := by
  induction order generalizing a with
  | nil => exact ha
  | cons address rest ih => exact ih (ha.free address)

theorem used_foldl_free (a : Arena) (order : List Nat) :
    (order.foldl Arena.free a).used = a.used.filter fun s => decide (s.start ∉ order) := by
  induction order generalizing a with
  | nil => exact (List.filter_eq_self.mpr (by simp)).symm
  | cons address rest ih =>
    rw [List.foldl_cons, ih, used_free, List.filter_filter]
    refine List.filter_congr fun s _ => ?_
    by_cases h : s.start = address <;> simp [h]

theorem Partitions.eq_ofRange (ha : a.Partitions lo hi) (hlt : lo < hi) (hused : a.used = []) :
    a = ofRange lo hi := by
  have hcovers := ha.covers
  have hsum := ha.inUse
  rw [hused] at hsum
  simp only [hused, List.append_nil] at hcovers
  have hvacant := ha.spaced.eq_range hlt hcovers
  obtain ⟨vacant, used, inUse⟩ := a
  simp only at hused hsum hvacant
  rw [hused, hsum, hvacant]
  rfl

theorem Partitions.stop_le (ha : a.Partitions lo hi) (hs : s ∈ a.vacant ++ a.used) : s.stop ≤ hi := by
  have hpos : 0 < s.size := by
    rcases List.mem_append.mp hs with h | h
    · exact ha.spaced.nonempty s h
    · exact ha.nonempty s h
  have hlast := (ha.covers (s.stop - 1)).mpr ⟨s, hs, by unfold Span.Has Span.stop; omega⟩
  omega

end Arena

end Tether
