import Tether.Proofs.Sweep

/-!
# The numbers of objects

A heap numbers its objects by slot and generation. The generation of a slot counts how often it was
used, in 32 bits; as long as no count runs over, a pointer that was issued once is never issued again.
-/

namespace Tether

def uses (ps : List HeapPtr) (slot : UInt32) : Nat := ps.countP (·.slot == slot)

/-- Pointers, the latest first, each with the number of pointers to its slot so far as generation. -/
inductive Counted : List HeapPtr → Prop
  | nil : Counted []
  | cons {p : HeapPtr} {ps : List HeapPtr} : Counted ps → p.slot ≠ 0 →
      p.gen = UInt32.ofNat (uses ps p.slot + 1) → Counted (p :: ps)

def CountsFit (ps : List HeapPtr) : Prop := ∀ slot, uses ps slot < 2 ^ 32

theorem uses_cons (p : HeapPtr) (ps : List HeapPtr) (slot : UInt32) :
    uses (p :: ps) slot = uses ps slot + if p.slot = slot then 1 else 0 := by
  unfold uses
  rw [List.countP_cons]
  simp only [beq_iff_eq]

variable {ps ps' : List HeapPtr}

theorem CountsFit.of_suffix (hf : CountsFit ps') (h : ps <:+ ps') : CountsFit ps :=
  fun slot => Nat.lt_of_le_of_lt h.sublist.countP_le (hf slot)

namespace Counted

variable {p : HeapPtr} {ps : List HeapPtr}

section

variable (hc : Counted ps)
include hc

theorem gen_mem (hp : p ∈ ps) : ∃ k, 0 < k ∧ k ≤ uses ps p.slot ∧ p.gen = UInt32.ofNat k := by
  induction hc with
  | nil => simp at hp
  | @cons q qs _ _ hgen ih =>
    rw [uses_cons]
    rcases List.mem_cons.mp hp with rfl | hp
    · exact ⟨_, Nat.succ_pos _, Nat.le_of_eq (by rw [if_pos rfl]), hgen⟩
    · obtain ⟨k, hpos, hle, hk⟩ := ih hp
      exact ⟨k, hpos, by omega, hk⟩

theorem slot_ne_zero (hp : p ∈ ps) : p.slot ≠ 0 := by
  induction hc with
  | nil => simp at hp
  | cons _ hslot _ ih =>
    rcases List.mem_cons.mp hp with rfl | hp
    · exact hslot
    · exact ih hp

theorem not_mem_of_next (hgen : p.gen = UInt32.ofNat (uses ps p.slot + 1))
    (hfit : uses ps p.slot + 1 < 2 ^ 32) : p ∉ ps := by
  intro hp
  obtain ⟨k, hpos, hle, hk⟩ := hc.gen_mem hp
  have he : (UInt32.ofNat k).toNat = (UInt32.ofNat (uses ps p.slot + 1)).toNat := by rw [← hk, ← hgen]
  rw [UInt32.toNat_ofNat_of_lt' (Nat.lt_of_le_of_lt (Nat.le_succ_of_le hle) hfit),
    UInt32.toNat_ofNat_of_lt' hfit] at he
  omega

theorem nodup (hfit : CountsFit ps) : ps.Nodup := by
  induction hc with
  | nil => exact List.nodup_nil
  | @cons q qs hqs _ hgen ih =>
    refine List.nodup_cons.mpr ⟨hqs.not_mem_of_next hgen ?_, ih (hfit.of_suffix ⟨[q], rfl⟩)⟩
    have hq := hfit q.slot
    rwa [uses_cons, if_pos rfl] at hq

end

end Counted

/-! ## Tables -/

namespace Table

/-- The pointers that were given are counted, the table goes on counting from there, and as long as the
counts fit, a pointer names an object if it was given and not taken. -/
structure Numbers (t : Table) (given taken : List HeapPtr) : Prop where
  counted : Counted given
  gens : ∀ slot, slot ≠ 0 → (t.gen? (slot.toNat - 1)).getD 0 = UInt32.ofNat (uses given slot)
  retired : CountsFit given → taken ⊆ given
  live : CountsFit given → ∀ p, (t.get? p).isSome = true ↔ p ∈ given ∧ p ∉ taken

theorem numbers_empty : ({} : Table).Numbers [] [] := by
  refine ⟨.nil, fun _ _ => rfl, fun _ _ hp => hp, fun _ p => ?_⟩
  have hnone : ({} : Table).get? p = none := by
    cases ho : ({} : Table).get? p with
    | none => rfl
    | some o => simpa using (get?_eq_some.mp ho).2
  rw [hnone]
  simp

variable {t t' : Table} {given taken : List HeapPtr} (hn : t.Numbers given taken)
include hn

theorem Numbers.of_isSome (hgens : ∀ i, t'.gen? i = t.gen? i)
    (hsome : ∀ p, (t'.get? p).isSome = (t.get? p).isSome) : t'.Numbers given taken :=
  ⟨hn.counted, fun slot hslot => by rw [hgens]; exact hn.gens slot hslot, hn.retired,
    fun hfit p => by rw [hsome]; exact hn.live hfit p⟩

theorem Numbers.insert (ht : t.Sound) {o : Object} (ha : (t.insert o).2.Addressable) :
    (t.insert o).2.Numbers ((t.insert o).1 :: given) taken := by
  obtain ⟨hgen, hgens⟩ := gen?_insert ht ha
  obtain ⟨hpos, -, -⟩ := slot_insert ht ha
  have hslot : (t.insert o).1.slot ≠ 0 := by
    intro h0
    rw [h0] at hpos
    exact absurd hpos (by decide)
  have hnext : (t.insert o).1.gen = UInt32.ofNat (uses given (t.insert o).1.slot + 1) := by
    rw [hgen, hn.gens _ hslot, UInt32.ofNat_add]
    rfl
  refine ⟨.cons hn.counted hslot hnext, fun slot hne => ?_, fun hfit p hp => ?_, fun hfit p => ?_⟩
  · rw [hgens, uses_cons]
    split
    case isTrue hi =>
      have hpos' : 0 < slot.toNat := by
        rcases Nat.eq_zero_or_pos slot.toNat with h0 | h0
        · exact absurd (UInt32.toNat_inj.mp (h0 : slot.toNat = (0 : UInt32).toNat)) hne
        · exact h0
      have he : (t.insert o).1.slot = slot := UInt32.toNat_inj.mp (by omega)
      rw [if_pos he, ← he]
      exact hnext
    case isFalse hi =>
      rw [if_neg fun he => hi (by rw [he])]
      exact hn.gens slot hne
  · exact List.mem_cons_of_mem _ (hn.retired (CountsFit.of_suffix hfit ⟨[_], rfl⟩) hp)
  · have hfit' : CountsFit given := CountsFit.of_suffix hfit ⟨[_], rfl⟩
    have hlt : uses given (t.insert o).1.slot + 1 < 2 ^ 32 := by
      have hcount : uses ((t.insert o).1 :: given) _ < _ := hfit (t.insert o).1.slot
      rwa [uses_cons, if_pos rfl] at hcount
    have hnew := hn.counted.not_mem_of_next hnext hlt
    rw [get?_insert ht ha, List.mem_cons]
    split
    case isTrue hp =>
      subst hp
      exact ⟨fun _ => ⟨.inl rfl, fun hr => hnew (hn.retired hfit' hr)⟩, fun _ => rfl⟩
    case isFalse hp =>
      rw [hn.live hfit' p]
      exact and_congr_left fun _ => ⟨.inr, fun h => h.resolve_left hp⟩

theorem Numbers.freed {ps : List HeapPtr} (hgens : ∀ i, t'.gen? i = t.gen? i)
    (hobjects : ∀ q, t'.get? q = if q ∈ ps then none else t.get? q)
    (hps : ∀ p ∈ ps, (t.get? p).isSome = true) : t'.Numbers given (ps.reverse ++ taken) := by
  refine ⟨hn.counted, fun slot hslot => ?_, fun hfit p hp => ?_, fun hfit p => ?_⟩
  · rw [hgens]
    exact hn.gens slot hslot
  · rw [List.mem_append, List.mem_reverse] at hp
    exact hp.elim (fun hp => ((hn.live hfit p).mp (hps p hp)).1) fun hp => hn.retired hfit hp
  · rw [hobjects, List.mem_append, List.mem_reverse]
    split
    case isTrue hp => simp [hp]
    case isFalse hp =>
      rw [hn.live hfit p]
      simp [hp]

end Table

/-! ## Heaps -/

namespace Heap

/-- What the table of a heap holds is what was issued and not retired. The heap counts both. -/
structure Numbered (s : Heap) : Prop extends s.table.Numbers s.issued s.retired where
  allocated : s.issued.length = s.counters.allocated
  freed : s.retired.length = s.counters.freed

variable {s s' : Heap}

/-- The pointers issued and retired, and how many objects were allocated and freed. -/
def tallies (s : Heap) : List HeapPtr × List HeapPtr × Nat × Nat :=
  (s.issued, s.retired, s.counters.allocated, s.counters.freed)

theorem Numbered.of_isSome (hn : s.Numbered) (hgens : ∀ i, s'.table.gen? i = s.table.gen? i)
    (hsome : ∀ p, (s'.object? p).isSome = (s.object? p).isSome) (htallies : s'.tallies = s.tallies) :
    s'.Numbered := by
  simp only [tallies, Prod.mk.injEq] at htallies
  obtain ⟨hissued, hretired, hallocated, hfreed⟩ := htallies
  refine ⟨?_, ?_, ?_⟩
  · rw [hissued, hretired]
    exact hn.toNumbers.of_isSome hgens hsome
  · rw [hissued, hallocated]
    exact hn.allocated
  · rw [hretired, hfreed]
    exact hn.freed

theorem Numbered.withObject (hn : s.Numbered) (hs : s.Sound) {o : Object}
    (ha : (s.withObject o).table.Addressable) : (s.withObject o).Numbered :=
  ⟨hn.toNumbers.insert hs.table ha, congrArg (· + 1) hn.allocated, hn.freed⟩

theorem Numbered.swept (hn : s.Numbered) {ps : List HeapPtr} (hswept : s.Swept ps s')
    (hps : ∀ p ∈ ps, (s.object? p).isSome = true) : s'.Numbered := by
  refine ⟨?_, ?_, ?_⟩
  · rw [hswept.issued, hswept.retired]
    exact Table.Numbers.freed hn.toNumbers hswept.gens hswept.objects hps
  · rw [hswept.issued, hswept.allocated]
    exact hn.allocated
  · rw [hswept.retired, hswept.freed, List.length_append, List.length_reverse, hn.freed, Nat.add_comm]

end Heap

end Tether
