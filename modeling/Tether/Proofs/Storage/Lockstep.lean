import Tether.Proofs.Storage.Runs

/-!
# Block storage and linear storage in lock step

The two kinds of storage place their spans by the same rule, over ranges that begin at the same
address. As long as linear storage has room, nobody can tell them apart by what they hand out.
-/

namespace Tether

namespace Arena

variable {a b b' : Arena} {s t : Span} {l l' front more : List Span} {x base size align lo mid hi : Nat} {f : Fault}

/-! ## Free lists and what they cover -/

theorem Spaced.start_le (h : Spaced (s :: l)) (hx : Covers (s :: l) x) : s.start ≤ x := by
  obtain ⟨-, hgap, -⟩ := spaced_cons.mp h
  rcases covers_cons.mp hx with hx | ⟨t, ht, hx⟩
  · exact hx.1
  · have := hgap t ht
    have := hx.1
    unfold Span.stop at *
    omega

theorem Spaced.covers_tail (h : Spaced (s :: l)) : Covers l x ↔ s.stop < x ∧ Covers (s :: l) x := by
  obtain ⟨-, hgap, -⟩ := spaced_cons.mp h
  constructor
  · rintro ⟨t, ht, hx⟩
    exact ⟨Nat.lt_of_lt_of_le (hgap t ht) hx.1, covers_cons.mpr (.inr ⟨t, ht, hx⟩)⟩
  · rintro ⟨hlt, hx⟩
    rcases covers_cons.mp hx with hx | hx
    · exact absurd hx.2 (by omega)
    · exact hx

theorem Spaced.not_covers_stop (h : Spaced (s :: l)) : ¬ Covers (s :: l) s.stop := by
  intro hx
  rcases covers_cons.mp hx with hx | hx
  · exact absurd hx.2 (Nat.lt_irrefl _)
  · exact absurd (h.covers_tail.mp hx).1 (Nat.lt_irrefl _)

theorem Spaced.head_le (hl : Spaced (s :: l)) (hl' : Spaced (t :: l'))
    (h : ∀ x, Covers (s :: l) x ↔ Covers (t :: l') x) : s.start ≤ t.start ∧ t.stop ≤ s.stop := by
  have ht := (spaced_cons.mp hl').1
  have hstart : s.start ≤ t.start := hl.start_le ((h _).mpr (covers_cons.mpr (.inl (Span.has_start ht))))
  by_contra hlt
  -- The address after the shorter span would be in the longer one.
  refine hl.not_covers_stop ((h _).mpr (covers_cons.mpr (.inl ⟨?_, by omega⟩)))
  have hs := (spaced_cons.mp hl).1
  have : t.start ≤ s.start := hl'.start_le ((h _).mp (covers_cons.mpr (.inl (Span.has_start hs))))
  unfold Span.stop
  omega

theorem Spaced.ext (hl : Spaced l) (hl' : Spaced l') (h : ∀ x, Covers l x ↔ Covers l' x) : l = l' := by
  induction l generalizing l' with
  | nil =>
    cases l' with
    | nil => rfl
    | cons t rest =>
      have ht := (spaced_cons.mp hl').1
      exact absurd ((h t.start).mpr (covers_cons.mpr (.inl (Span.has_start ht)))) covers_nil
  | cons s rest ih =>
    cases l' with
    | nil =>
      have hs := (spaced_cons.mp hl).1
      exact absurd ((h s.start).mp (covers_cons.mpr (.inl (Span.has_start hs)))) covers_nil
    | cons t rest' =>
      obtain ⟨hstart, hstop⟩ := hl.head_le hl' h
      obtain ⟨hstart', hstop'⟩ := hl'.head_le hl fun x => (h x).symm
      have hst : s = t := by
        obtain ⟨start, size⟩ := s
        obtain ⟨start', size'⟩ := t
        simp only [Span.stop, Span.mk.injEq] at *
        omega
      subst hst
      refine congrArg _ (ih (spaced_cons.mp hl).2.2 (spaced_cons.mp hl').2.2 fun x => ?_)
      rw [hl.covers_tail, hl'.covers_tail, h x]

/-- A free list with the addresses from `lo` to `hi` added at its end: the last span grows if it
reaches them. -/
def withTail (l : List Span) (lo hi : Nat) : List Span :=
  if lo < hi then
    match l.getLast? with
    | some s => if s.stop = lo then l.dropLast ++ [⟨s.start, hi - s.start⟩] else l ++ [⟨lo, hi - lo⟩]
    | none => [⟨lo, hi - lo⟩]
  else l

theorem withTail_nil (h : lo < hi) : withTail [] lo hi = [⟨lo, hi - lo⟩] := if_pos h

theorem withTail_of_le (h : hi ≤ lo) : withTail l lo hi = l := if_neg (Nat.not_lt.mpr h)

theorem withTail_grow (h : lo < hi) (hs : s.stop = lo) :
    withTail (front ++ [s]) lo hi = front ++ [⟨s.start, hi - s.start⟩] := by
  simp [withTail, h, hs]

theorem withTail_gap (h : lo < hi) (hs : s.stop ≠ lo) :
    withTail (front ++ [s]) lo hi = front ++ [s, ⟨lo, hi - lo⟩] := by
  simp [withTail, h, hs]

theorem eq_nil_or_append (l : List Span) : l = [] ∨ ∃ front s, l = front ++ [s] := by
  rcases List.eq_nil_or_concat l with h | ⟨front, s, h⟩
  · exact .inl h
  · exact .inr ⟨front, s, h.trans List.concat_eq_append⟩

theorem covers_withTail (hend : ∀ s ∈ l, s.stop ≤ lo) :
    Covers (withTail l lo hi) x ↔ Covers l x ∨ lo ≤ x ∧ x < hi := by
  by_cases h : lo < hi
  · rcases eq_nil_or_append l with rfl | ⟨front, s, rfl⟩
    · rw [withTail_nil h]
      simp only [covers_cons, covers_nil, or_false, false_or, Span.Has, Span.stop]
      omega
    · have hle : s.stop ≤ lo := hend s (by simp)
      by_cases hs : s.stop = lo
      · rw [withTail_grow h hs]
        simp only [covers_append, covers_cons, covers_nil, or_false, or_assoc]
        refine or_congr_right ?_
        simp only [Span.Has, Span.stop] at hs ⊢
        omega
      · rw [withTail_gap h hs]
        simp only [covers_append, covers_cons, covers_nil, or_false, or_assoc]
        refine or_congr_right (or_congr_right ?_)
        simp only [Span.Has, Span.stop]
        omega
  · rw [withTail_of_le (Nat.not_lt.mp h)]
    simp only [iff_self_or]
    omega

theorem spaced_withTail (hl : Spaced l) (hend : ∀ s ∈ l, s.stop ≤ lo) : Spaced (withTail l lo hi) := by
  by_cases h : lo < hi
  · rcases eq_nil_or_append l with rfl | ⟨front, s, rfl⟩
    · rw [withTail_nil h]
      exact spaced_cons.mpr ⟨Nat.sub_pos_of_lt h, by simp, spaced_nil⟩
    · have hle : s.stop ≤ lo := hend s (by simp)
      by_cases hs : s.stop = lo
      · rw [withTail_grow h hs]
        obtain ⟨hfront, -, hgap⟩ := spaced_append.mp hl
        refine spaced_append.mpr ⟨hfront, spaced_cons.mpr ⟨?_, by simp, spaced_nil⟩, ?_⟩
        · unfold Span.stop at hs
          exact Nat.sub_pos_of_lt (by omega)
        · intro t ht u hu
          rw [List.mem_singleton.mp hu]
          exact hgap t ht s List.mem_cons_self
      · rw [withTail_gap h hs, ← List.singleton_append, ← List.append_assoc]
        refine spaced_append.mpr ⟨hl, spaced_cons.mpr ⟨Nat.sub_pos_of_lt h, by simp, spaced_nil⟩, ?_⟩
        intro t ht u hu
        rw [List.mem_singleton.mp hu]
        rcases List.mem_append.mp ht with ht | ht
        · obtain ⟨-, hlast, hgap⟩ := spaced_append.mp hl
          have := hgap t ht s List.mem_cons_self
          show t.stop < lo
          unfold Span.stop at *
          omega
        · rw [List.mem_singleton.mp ht]
          exact Nat.lt_of_le_of_ne hle hs
  · rw [withTail_of_le (Nat.not_lt.mp h)]
    exact hl

theorem Partitions.covers_vacant (ha : a.Partitions lo hi) :
    Covers a.vacant x ↔ (lo ≤ x ∧ x < hi) ∧ ¬ Covers a.used x := by
  have happart := ((disjoint_iff ha.spaced).mp ha.disjoint).2 x
  rw [ha.covers x, covers_append]
  tauto

/-- Two arenas that handed out the same spans have the same free list, up to the addresses that only one
of them has. -/
theorem Partitions.vacant_withTail (ha : a.Partitions lo hi) (hb : b.Partitions lo mid) (hlo : lo ≤ mid)
    (hmid : mid ≤ hi) (hused : a.used = b.used) : a.vacant = withTail b.vacant mid hi := by
  have hend : ∀ s ∈ b.vacant, s.stop ≤ mid := fun s hs => hb.stop_le (List.mem_append_left _ hs)
  refine ha.spaced.ext (spaced_withTail hb.spaced hend) fun x => ?_
  have hinside : Covers b.used x → x < mid := fun hx =>
    ((hb.covers x).mpr (covers_append.mpr (.inr hx))).2
  rw [covers_withTail hend, ha.covers_vacant, hb.covers_vacant, hused]
  by_cases hx : x < mid
  · have : ¬ mid ≤ x := by omega
    simp only [hx, this, false_and, or_false, and_true]
    refine and_congr_left fun _ => ?_
    omega
  · have : ¬ Covers b.used x := fun hc => hx (hinside hc)
    simp only [hx, this, not_false_eq_true, and_true, and_false, false_or]
    omega

/-! ## The same answers -/

theorem firstFit_grow (h : firstFit size align (front ++ [s]) = some (base, l')) (hstart : t.start = s.start)
    (hsize : s.size ≤ t.size) :
    ∃ l'', firstFit size align (front ++ t :: more) = some (base, l'') := by
  induction front generalizing base l' with
  | nil =>
    simp only [List.nil_append, firstFit, Option.map_none] at h ⊢
    rw [hstart]
    split at h
    · rename_i hfit
      rw [if_pos (Nat.le_trans hfit hsize), (Prod.mk.inj (Option.some.inj h)).1]
      exact ⟨_, rfl⟩
    · simp at h
  | cons u rest ih =>
    simp only [List.cons_append, firstFit] at h ⊢
    split at h
    · rename_i hfit
      rw [if_pos hfit, (Prod.mk.inj (Option.some.inj h)).1]
      exact ⟨_, rfl⟩
    · rename_i hfit
      obtain ⟨⟨c, spans⟩, hrest, heq⟩ := Option.map_eq_some_iff.mp h
      cases heq
      obtain ⟨l'', hl''⟩ := ih hrest
      rw [if_neg hfit, hl'']
      exact ⟨_, rfl⟩

theorem firstFit_withTail (h : firstFit size align l = some (base, l')) :
    ∃ l'', firstFit size align (withTail l lo hi) = some (base, l'') := by
  by_cases hlt : lo < hi
  · rcases eq_nil_or_append l with rfl | ⟨front, s, rfl⟩
    · simp [firstFit] at h
    · by_cases hs : s.stop = lo
      · rw [withTail_grow hlt hs]
        refine firstFit_grow h rfl ?_
        unfold Span.stop at hs
        show s.size ≤ hi - s.start
        omega
      · rw [withTail_gap hlt hs]
        exact firstFit_grow h rfl (Nat.le_refl _)
  · rw [withTail_of_le (Nat.not_lt.mp hlt)]
    exact ⟨l', h⟩

theorem alloc_withTail (hvacant : a.vacant = withTail b.vacant mid hi) (hused : a.used = b.used)
    (h : b.alloc size align = .ok (base, b')) :
    ∃ a', a.alloc size align = .ok (base, a') ∧ a'.used = b'.used := by
  unfold alloc at h ⊢
  generalize (if align = 0 then 1 else align) = align' at h ⊢
  simp only at h ⊢
  split at h
  · simp at h
  rename_i hsize
  split at h
  · simp at h
  rename_i hpower
  split at h
  · rename_i c vacant hfit
    obtain ⟨rfl, rfl⟩ := Prod.mk.inj (Except.ok.inj h)
    obtain ⟨vacant', hfit'⟩ : ∃ l, firstFit size align' (withTail b.vacant mid hi) = some (c, l) :=
      firstFit_withTail hfit
    rw [if_neg hsize, if_neg hpower, hvacant, hfit', hused]
    exact ⟨_, rfl, rfl⟩
  · simp at h

/-- An allocation that the smaller arena refuses, though not for want of room, the larger one refuses
with the same fault. -/
theorem alloc_error_withTail (h : b.alloc size align = .error f) (hf : f.kindOf ≠ Kind.allocation) :
    a.alloc size align = .error f := by
  unfold alloc at h ⊢
  generalize (if align = 0 then 1 else align) = align' at h ⊢
  simp only at h ⊢
  split at h
  · rename_i hsize
    rw [if_pos hsize, h]
  rename_i hsize
  split at h
  · rename_i hpower
    rw [if_neg hsize, if_pos hpower, h]
  split at h
  · simp at h
  · obtain rfl := Except.error.inj h
    exact absurd rfl hf

end Arena

/-! ## Storages -/

inductive StorageRequest where
  | alloc (size align : Nat)
  | free (address : Nat)
deriving DecidableEq

def StorageRequest.step : StorageRequest → StorageStep
  | alloc size align => .alloc size align
  | free address => .free address

def StorageReply.noRoom : StorageReply → Bool
  | .stopped (.fault f) => f.kindOf == Kind.allocation
  | _ => false

namespace StorageState

open Arena

variable {g m : StorageState} {mid : Nat} {held : List Span}

/-- Block storage and open linear storage that handed out the same spans. -/
structure Tracks (g m : StorageState) (mid : Nat) (held : List Span) : Prop where
  blocks : g.Accounts Storage.reserved Storage.addressSpace held
  linear : m.Accounts Storage.reserved mid held
  isBlocks : ∃ slices, g.storage.backing = .blocks slices
  isLinear : ∃ memory, m.storage.backing = .linear memory true
  start_le : Storage.reserved ≤ mid
  stop_le : mid ≤ Storage.addressSpace

theorem Tracks.used (h : g.Tracks m mid held) : g.storage.arena.used = m.storage.arena.used :=
  h.blocks.used.trans h.linear.used.symm

theorem Tracks.vacant (h : g.Tracks m mid held) :
    g.storage.arena.vacant = withTail m.storage.arena.vacant mid Storage.addressSpace :=
  h.blocks.partitions.vacant_withTail h.linear.partitions h.start_le h.stop_le h.used

theorem Tracks.inUse (h : g.Tracks m mid held) : g.storage.inUse = m.storage.inUse := by
  show g.storage.arena.inUse = m.storage.arena.inUse
  rw [h.blocks.partitions.inUse, h.linear.partitions.inUse, h.used]

theorem Tracks.allocations (h : g.Tracks m mid held) : g.storage.allocations = m.storage.allocations :=
  congrArg List.length h.used

theorem step_alloc_blocks {slices : List (Nat × Slice)} (hg : g.storage.backing = .blocks slices) (size align : Nat) :
    (g.step (.alloc size align)).1 = (match g.storage.arena.alloc size align with
        | .ok (base, _) => .address base
        | .error f => .stopped (.fault f)) ∧
      ∃ slices', (g.step (.alloc size align)).2.storage.backing = .blocks slices' := by
  simp only [step, Storage.alloc, hg]
  cases g.storage.arena.alloc size align with
  | error f => exact ⟨rfl, slices, hg⟩
  | ok r => exact ⟨rfl, _, rfl⟩

theorem step_alloc_linear {memory : Slice} (hm : m.storage.backing = .linear memory true) (size align : Nat) :
    (m.step (.alloc size align)).1 = (match m.storage.arena.alloc size align with
        | .ok (base, _) => .address base
        | .error f => .stopped (.fault f)) ∧
      (m.step (.alloc size align)).2.storage.backing = .linear memory true := by
  simp only [step, Storage.alloc, hm]
  cases m.storage.arena.alloc size align with
  | error f => exact ⟨rfl, hm⟩
  | ok r => exact ⟨rfl, rfl⟩

theorem Tracks.step (h : g.Tracks m mid held) (r : StorageRequest) (hroom : (m.step r.step).1.noRoom = false) :
    (g.step r.step).1 = (m.step r.step).1 ∧
      (g.step r.step).2.Tracks (m.step r.step).2 mid (account held r.step (m.step r.step).1) := by
  obtain ⟨slices, hg⟩ := h.isBlocks
  obtain ⟨memory, hm⟩ := h.isLinear
  have hreply : (g.step r.step).1 = (m.step r.step).1 := by
    cases r with
    | free address => rfl
    | alloc size align =>
      have hmreply := (step_alloc_linear hm size align).1
      simp only [StorageRequest.step] at hroom ⊢
      rw [hmreply] at hroom ⊢
      rw [(step_alloc_blocks hg size align).1]
      cases halloc : m.storage.arena.alloc size align with
      | ok r =>
        obtain ⟨a', ha', -⟩ := alloc_withTail h.vacant h.used halloc
        rw [ha']
      | error f =>
        rw [halloc] at hroom
        rw [alloc_error_withTail halloc (by simpa [StorageReply.noRoom] using hroom)]
  refine ⟨hreply, ?_, h.linear.step _, ?_, ?_, h.start_le, h.stop_le⟩
  · rw [← hreply]
    exact h.blocks.step _
  · cases r with
    | alloc size align => exact (step_alloc_blocks hg size align).2
    | free address =>
      exact ⟨slices.filter (·.1 != address), by simp only [StorageRequest.step, StorageState.step, Storage.free, hg]⟩
  · cases r with
    | alloc size align => exact ⟨memory, (step_alloc_linear hm size align).2⟩
    | free address =>
      exact ⟨memory, by simp only [StorageRequest.step, StorageState.step, Storage.free, hm]⟩

theorem Tracks.run (h : g.Tracks m mid held) (requests : List StorageRequest)
    (hroom : ∀ r ∈ m.run (requests.map (·.step)), r.1.noRoom = false) :
    g.run (requests.map (·.step)) = m.run (requests.map (·.step)) ∧
      ∃ held', (g.after (requests.map (·.step))).Tracks (m.after (requests.map (·.step))) mid held' := by
  induction requests generalizing g m held with
  | nil => exact ⟨rfl, held, h⟩
  | cons r rest ih =>
    obtain ⟨hhead, hrest⟩ := List.forall_mem_cons.mp hroom
    obtain ⟨hreply, hnext⟩ := h.step r hhead
    obtain ⟨hrun, hafter⟩ := ih hnext hrest
    refine ⟨?_, hafter⟩
    simp only [List.map_cons, run]
    rw [hreply, hnext.inUse, hnext.allocations, hrun]

theorem tracks_make {pages : Nat} (hg : make none = .ok g) (hm : make (some pages) = .ok m) :
    g.Tracks m (rangeEnd (some pages)) [] := by
  obtain ⟨harena, hback, hlt⟩ := arena_make hg
  obtain ⟨harena', hback', hlt'⟩ := arena_make hm
  refine ⟨⟨?_, by rw [harena]; rfl, hback⟩, ⟨?_, by rw [harena']; rfl, hback'⟩, ?_, ?_, Nat.le_of_lt hlt',
    Nat.min_le_right _ _⟩
  · rw [harena]
    exact partitions_ofRange hlt
  · rw [harena']
    exact partitions_ofRange hlt'
  · cases hg
    exact ⟨[], rfl⟩
  · simp only [make, Storage.linear] at hm
    split at hm
    · simp [Except.map] at hm
    · cases hm
      exact ⟨_, rfl⟩

/-- **Agreement of the two storages.** Block storage and linear storage of any number of pages are new
and get the same requests, of which linear storage has room for all. Then they reply the same to each
request, with the same bytes in use and the same number of allocations after it, and the free list of
block storage is that of linear storage with the addresses from the end of linear memory on added at its
end. -/
theorem storages_agree {pages : Nat} (hg : make none = .ok g) (hm : make (some pages) = .ok m)
    (requests : List StorageRequest) (hroom : ∀ r ∈ m.run (requests.map (·.step)), r.1.noRoom = false) :
    g.run (requests.map (·.step)) = m.run (requests.map (·.step)) ∧
      (g.after (requests.map (·.step))).storage.arena.vacant =
        withTail (m.after (requests.map (·.step))).storage.arena.vacant
          (min (pages * Storage.pageSize) Storage.addressSpace) Storage.addressSpace := by
  obtain ⟨hrun, held, htracks⟩ := (tracks_make hg hm).run requests hroom
  exact ⟨hrun, htracks.vacant⟩

/-- One page is used up to its end, with a refused alignment and an unknown address on the way: the free
list of linear storage is a gap in the middle, that of block storage has all the rest as well. -/
theorem storages_agree_page : ∃ g m : StorageState, make none = .ok g ∧ make (some 1) = .ok m ∧
    (m.after [.alloc 24 8, .alloc 4 3, .alloc 65504 8, .free 99, .free 8, .alloc 8 16]).storage.arena.vacant =
      [⟨8, 8⟩, ⟨24, 8⟩] ∧
    (g.after [.alloc 24 8, .alloc 4 3, .alloc 65504 8, .free 99, .free 8, .alloc 8 16]).storage.arena.vacant =
      [⟨8, 8⟩, ⟨24, 8⟩, ⟨65536, 2 ^ 32 - 1 - 65536⟩] ∧
    g.run [.alloc 24 8, .alloc 4 3, .alloc 65504 8, .free 99, .free 8, .alloc 8 16] =
      m.run [.alloc 24 8, .alloc 4 3, .alloc 65504 8, .free 99, .free 8, .alloc 8 16] := by
  refine ⟨_, _, rfl, rfl, rfl, ?_⟩
  have hmake : make (some 1) = .ok _ := rfl
  obtain ⟨hrun, hvacant⟩ := storages_agree rfl hmake
    [.alloc 24 8, .alloc 4 3, .alloc 65504 8, .free 99, .free 8, .alloc 8 16] (by decide)
  exact ⟨hvacant, hrun⟩

end StorageState

end Tether
