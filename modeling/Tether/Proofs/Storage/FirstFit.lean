import Mathlib.Order.Bounds.Basic
import Tether.Proofs.Storage.Runs

/-!
# The first fit is the lowest place

A request is answered by the first free span with room for it. The free spans are spaced, so a run of
addresses that are all free lies in one of them, and the first span with room holds the lowest place.
-/

namespace Tether

namespace Arena

variable {a : Arena} {s : Span} {l : List Span} {x base size align lo hi : Nat}

/-! ## Alignment -/

theorem alignUp_le (h : 0 < align) (hx : x ≤ base) (hdvd : align ∣ base) : alignUp x align ≤ base := by
  obtain ⟨q, rfl⟩ := hdvd
  rw [Nat.mul_comm align q] at hx ⊢
  refine Nat.mul_le_mul_right align (Nat.lt_succ_iff.mp ?_)
  rw [Nat.div_lt_iff_lt_mul h, Nat.succ_mul]
  omega

theorem and_mask {x k : Nat} (hx : x < 2 ^ 64) (hk : k ≤ 64) :
    x &&& (2 ^ 64 - 1 - (2 ^ k - 1)) = x / 2 ^ k * 2 ^ k := by
  have hpow : 2 ^ k ≤ 2 ^ 64 := Nat.pow_le_pow_right (by decide) hk
  have hmask : ∀ i, (2 ^ 64 - 1 - (2 ^ k - 1)).testBit i = (decide (i < 64) && !decide (i < k)) := by
    intro i
    rw [Nat.sub_sub, Nat.add_comm 1, Nat.testBit_two_pow_sub_succ (by omega), Nat.testBit_two_pow_sub_one]
  refine Nat.eq_of_testBit_eq fun i => ?_
  rw [← Nat.shiftRight_eq_div_pow, ← Nat.shiftLeft_eq, Nat.testBit_and, hmask, Nat.testBit_shiftLeft,
    Nat.testBit_shiftRight]
  by_cases hlow : i < k
  · simp [hlow]
  by_cases hhigh : i < 64
  · simp [Nat.not_lt.mp hlow, hhigh, show k + (i - k) = i by omega]
  · have hbit : x.testBit i = false :=
      Nat.testBit_lt_two_pow (Nat.lt_of_lt_of_le hx (Nat.pow_le_pow_right (by decide) (by omega)))
    simp [hbit, show k + (i - k) = i by omega]

theorem alignUp_words (address align : UInt32) {k : Nat} (h : align.toNat = 2 ^ k) :
    ((address.toUInt64 + align.toUInt64 - 1) &&& ~~~(align.toUInt64 - 1)).toNat =
      alignUp address.toNat align.toNat := by
  have haddress := address.toNat_lt
  have halign := align.toNat_lt
  have hpos := Nat.two_pow_pos k
  have hone : (1 : UInt64).toNat = 1 := rfl
  have hk : k ≤ 64 := by
    refine Nat.le_of_lt ((Nat.pow_lt_pow_iff_right (a := 2) (by decide)).mp ?_)
    omega
  have hsum : (address.toUInt64 + align.toUInt64).toNat = address.toNat + align.toNat := by
    rw [UInt64.toNat_add, UInt32.toNat_toUInt64, UInt32.toNat_toUInt64, Nat.mod_eq_of_lt (by omega)]
  have hup : (address.toUInt64 + align.toUInt64 - 1).toNat = address.toNat + align.toNat - 1 := by
    rw [UInt64.toNat_sub_of_le _ _ (UInt64.le_iff_toNat_le.mpr (by omega)), hsum, hone]
  have hmask : (align.toUInt64 - 1).toNat = 2 ^ k - 1 := by
    rw [UInt64.toNat_sub_of_le _ _ (UInt64.le_iff_toNat_le.mpr (by rw [UInt32.toNat_toUInt64]; omega)),
      UInt32.toNat_toUInt64, h, hone]
  rw [UInt64.toNat_and, UInt64.toNat_not, hup, hmask]
  exact (and_mask (by omega) hk).trans (by rw [alignUp, h])

theorem isPowerOfTwo_iff (h : 0 < align) : isPowerOfTwo align = true ↔ ∃ k, align = 2 ^ k := by
  unfold isPowerOfTwo
  rw [beq_iff_eq]
  constructor
  · intro hand
    refine ⟨align.log2, ?_⟩
    have hlow : 2 ^ align.log2 ≤ align := Nat.log2_self_le (Nat.ne_of_gt h)
    have hhigh : align < 2 ^ align.log2 * 2 := Nat.lt_log2_self
    have hbit : ∀ m, 2 ^ align.log2 ≤ m → m < 2 ^ align.log2 * 2 → m.testBit align.log2 = true := by
      intro m hle hlt
      have hquot : m / 2 ^ align.log2 = 1 := (Nat.div_eq_iff (Nat.two_pow_pos _)).mpr (by omega)
      rw [Nat.testBit_eq_decide_div_mod_eq, hquot]
      rfl
    by_contra hne
    -- Otherwise the predecessor has the same leading digit.
    have hboth : (align &&& (align - 1)).testBit align.log2 = true := by
      rw [Nat.testBit_and, hbit align hlow hhigh, hbit (align - 1) (by omega) (by omega)]
      rfl
    rw [hand, Nat.zero_testBit] at hboth
    exact nomatch hboth
  · rintro ⟨k, rfl⟩
    rw [Nat.and_two_pow_sub_one_eq_mod, Nat.mod_self]

/-! ## Places -/

/-- Where a request can be met: at a multiple of the alignment, where no alignment counts as one, inside
the range, and apart from all that is handed out. -/
def Place (held : List Span) (lo hi size align base : Nat) : Prop :=
  max align 1 ∣ base ∧ lo ≤ base ∧ base + size ≤ hi ∧ ∀ t ∈ held, Span.Disjoint ⟨base, size⟩ t

theorem Spaced.run_inside (h : Spaced l) (hsize : 0 < size) (hrun : ∀ x, Span.Has ⟨base, size⟩ x → Covers l x) :
    ∃ s ∈ l, s.start ≤ base ∧ base + size ≤ s.stop := by
  induction l with
  | nil => exact absurd (hrun base (Span.has_start hsize)) covers_nil
  | cons s rest ih =>
    obtain ⟨hs, hgap, hrest⟩ := spaced_cons.mp h
    -- The address after the first span is free nowhere, so the run is before it or after it.
    have hstop : ¬ Span.Has ⟨base, size⟩ s.stop := by
      intro hx
      rcases covers_cons.mp (hrun _ hx) with hx | ⟨t, ht, hx⟩
      · exact absurd hx.2 (Nat.lt_irrefl _)
      · exact absurd (hgap t ht) (Nat.not_lt.mpr hx.1)
    by_cases hbase : s.Has base
    · refine ⟨s, List.mem_cons_self, hbase.1, Nat.not_lt.mp fun hlt => hstop ⟨?_, hlt⟩⟩
      exact Nat.le_of_lt hbase.2
    · have hafter : s.stop < base := by
        rcases covers_cons.mp (hrun base (Span.has_start hsize)) with hx | ⟨t, ht, hx⟩
        · exact absurd hx hbase
        · exact Nat.lt_of_lt_of_le (hgap t ht) hx.1
      obtain ⟨t, ht, hinside⟩ := ih hrest fun x hx => by
        rcases covers_cons.mp (hrun x hx) with hs' | hc
        · exact absurd (Nat.lt_of_lt_of_le hs'.2 (Nat.le_of_lt hafter)) (Nat.not_lt.mpr hx.1)
        · exact hc
      exact ⟨t, List.mem_cons_of_mem _ ht, hinside⟩

theorem Partitions.place_iff (ha : a.Partitions lo hi) (hsize : 0 < size) : Place a.used lo hi size align base ↔
      max align 1 ∣ base ∧ ∃ s ∈ a.vacant, s.start ≤ base ∧ base + size ≤ s.stop := by
  obtain ⟨-, happart⟩ := (disjoint_iff ha.spaced).mp ha.disjoint
  refine and_congr_right fun _ => ⟨?_, ?_⟩
  · rintro ⟨hlo, hhi, hfree⟩
    refine ha.spaced.run_inside hsize fun x hx => ?_
    have hin : lo ≤ x ∧ x < hi := ⟨Nat.le_trans hlo hx.1, Nat.lt_of_lt_of_le hx.2 hhi⟩
    rcases covers_append.mp ((ha.covers x).mp hin) with hv | ⟨t, ht, htx⟩
    · exact hv
    · exact absurd htx (hfree t ht x hx)
  · rintro ⟨s, hs, hstart, hstop⟩
    have hinside : ∀ x, Span.Has ⟨base, size⟩ x → s.Has x :=
      fun x hx => ⟨Nat.le_trans hstart hx.1, Nat.lt_of_lt_of_le hx.2 hstop⟩
    have hfirst := (ha.covers base).mpr (covers_append.mpr (.inl ⟨s, hs, hinside base (Span.has_start hsize)⟩))
    refine ⟨hfirst.1, Nat.le_trans hstop (ha.stop_le (List.mem_append_left _ hs)), ?_⟩
    exact fun t ht x hx htx => happart x ⟨s, hs, hinside x hx⟩ ⟨t, ht, htx⟩

theorem firstFit_eq_some_iff (hl : Spaced l) (halign : 0 < align) : (∃ l', firstFit size align l = some (base, l')) ↔
      IsLeast {b | align ∣ b ∧ ∃ s ∈ l, s.start ≤ b ∧ b + size ≤ s.stop} base := by
  induction l with
  | nil =>
    constructor
    · rintro ⟨l', h⟩
      exact nomatch h
    · rintro ⟨⟨-, s, hs, -⟩, -⟩
      exact nomatch hs
  | cons s rest ih =>
    obtain ⟨hs, hgap, hrest⟩ := spaced_cons.mp hl
    have hstart := @le_alignUp s.start align halign
    simp only [firstFit]
    by_cases hfit : alignUp s.start align - s.start + size ≤ s.size
    · have hleast : IsLeast {b | align ∣ b ∧ ∃ t ∈ s :: rest, t.start ≤ b ∧ b + size ≤ t.stop}
          (alignUp s.start align) := by
        refine ⟨⟨Nat.dvd_mul_left align _, s, List.mem_cons_self, hstart, by unfold Span.stop; omega⟩, ?_⟩
        rintro b ⟨hdvd, t, ht, hb, -⟩
        rcases List.mem_cons.mp ht with rfl | ht
        · exact alignUp_le halign hb hdvd
        · have := hgap t ht
          unfold Span.stop at this
          omega
      rw [if_pos hfit]
      constructor
      · rintro ⟨l', h⟩
        cases h
        exact hleast
      · intro h
        obtain rfl := h.unique hleast
        exact ⟨_, rfl⟩
    · -- No place is inside the first span, so the others decide.
      have hnone : ∀ b, align ∣ b → s.start ≤ b → ¬ b + size ≤ s.stop := by
        intro b hdvd hb hstop
        have := alignUp_le halign hb hdvd
        unfold Span.stop at hstop
        omega
      have hset : {b | align ∣ b ∧ ∃ t ∈ s :: rest, t.start ≤ b ∧ b + size ≤ t.stop} =
          {b | align ∣ b ∧ ∃ t ∈ rest, t.start ≤ b ∧ b + size ≤ t.stop} := by
        ext b
        refine and_congr_right fun hdvd => ?_
        constructor
        · rintro ⟨t, ht, hb, hstop⟩
          rcases List.mem_cons.mp ht with rfl | ht
          · exact absurd hstop (hnone b hdvd hb)
          · exact ⟨t, ht, hb, hstop⟩
        · rintro ⟨t, ht, hb⟩
          exact ⟨t, List.mem_cons_of_mem _ ht, hb⟩
      rw [if_neg hfit, hset, ← ih hrest]
      simp

theorem alloc_eq (hsize : 0 < size) (halign : isPowerOfTwo (max align 1) = true) :
    a.alloc size align = match firstFit size (max align 1) a.vacant with
      | some (base, free) => .ok (base, ⟨free, ⟨base, size⟩ :: a.used, a.inUse + size⟩)
      | none => .error (.allocationFailed .heap size (max align 1)) := by
  have hmax : (if align = 0 then 1 else align) = max align 1 := by split <;> omega
  unfold alloc
  rw [hmax]
  exact (if_neg (Nat.ne_of_gt hsize)).trans (if_neg (by simp [halign]))

theorem alloc_eq_error (h : size = 0 ∨ isPowerOfTwo (max align 1) = false) :
    ∃ detail, a.alloc size align = .error (.invalidInput .heap detail) := by
  have hmax : (if align = 0 then 1 else align) = max align 1 := by split <;> omega
  unfold alloc
  simp only [hmax]
  split
  · exact ⟨_, rfl⟩
  · rename_i hsize
    rw [h.resolve_left hsize]
    exact ⟨_, rfl⟩

end Arena

namespace StorageState

open Arena

variable {s s0 : StorageState} {size align : Nat}

theorem step_alloc (hopen : s.storage.isOpen = true) : (∀ base, (s.step (.alloc size align)).1 = .address base ↔
      ∃ arena, s.storage.arena.alloc size align = .ok (base, arena)) ∧
    ∀ f, s.storage.arena.alloc size align = .error f → s.step (.alloc size align) = (.stopped (.fault f), s) := by
  simp only [step, Storage.alloc]
  rcases hb : s.storage.backing with slices | ⟨memory, _ | _⟩
  case linear.false => simp [Storage.isOpen, hb] at hopen
  all_goals
    rcases s.storage.arena.alloc size align with f | ⟨base, arena⟩
    · exact ⟨by simp [Except.map], fun g hg => by rw [Except.error.inj hg]; rfl⟩
    · refine ⟨fun c => ?_, by simp⟩
      simp [Except.map]

/-- **First fit finds the lowest place.** After any steps on a new storage that is still open, a request
for some bytes, with no alignment or a power of two, is answered with the lowest place in its range that
is aligned and apart from all that the client holds; it fails only if there is none, as a failed
allocation. Aligned addresses are what masking 64-bit words gives. Requests for no bytes or with another
alignment are refused, and no request that fails changes anything. -/
theorem first_fit_lowest {pages : Option Nat} (h : make pages = .ok s0) (steps : List StorageStep)
    (hopen : (s0.after steps).storage.isOpen = true) :
    let s := s0.after steps
    let place := Place (s0.held [] steps) Storage.reserved (rangeEnd pages)
    (∀ size align, 0 < size → (align = 0 ∨ ∃ k, align = 2 ^ k) →
      (∀ base, (s.step (.alloc size align)).1 = .address base ↔ IsLeast {b | place size align b} base) ∧
      ((∀ base, ¬ place size align base) → s.step (.alloc size align) =
        (.stopped (.fault (.allocationFailed .heap size (max align 1))), s))) ∧
    (∀ (address align : UInt32) (k : Nat), align.toNat = 2 ^ k →
      ((address.toUInt64 + align.toUInt64 - 1) &&& ~~~(align.toUInt64 - 1)).toNat =
        alignUp address.toNat align.toNat) ∧
    (∀ size align, size = 0 ∨ align ≠ 0 ∧ (∀ k, align ≠ 2 ^ k) →
      ∃ detail, (s.step (.alloc size align)).1 = .stopped (.fault (.invalidInput .heap detail))) ∧
    ∀ size align, (∀ base, (s.step (.alloc size align)).1 ≠ .address base) → (s.step (.alloc size align)).2 = s := by
  intro s place
  obtain ⟨hused, -, hpart, -⟩ := arena_after_steps h steps
  have hok := fun size align => (@step_alloc s size align hopen).1
  have herror := fun size align => (@step_alloc s size align hopen).2
  have hpower : ∀ align : Nat, isPowerOfTwo (max align 1) = true ↔ align = 0 ∨ ∃ k, align = 2 ^ k := by
    intro align
    rw [isPowerOfTwo_iff (by omega)]
    rcases Nat.eq_zero_or_pos align with rfl | hpos
    · exact ⟨fun _ => .inl rfl, fun _ => ⟨0, rfl⟩⟩
    · rw [Nat.max_eq_left hpos]
      exact ⟨.inr, fun h => h.resolve_left (Nat.ne_of_gt hpos)⟩
  refine ⟨fun size align hsize halign => ?_, fun address align k => alignUp_words address align,
    fun size align hbad => ?_, fun size align hfail => ?_⟩
  · have halloc := alloc_eq (a := s.storage.arena) hsize ((hpower align).mpr halign)
    have hplaces : {b | place size align b} = {b | max align 1 ∣ b ∧
        ∃ t ∈ s.storage.arena.vacant, t.start ≤ b ∧ b + size ≤ t.stop} := by
      ext b
      simp only [place, ← hused, Set.mem_ofPred_eq]
      exact hpart.place_iff hsize
    have hfit := fun base => @firstFit_eq_some_iff _ base size _ hpart.spaced (Nat.le_max_right align 1)
    have haddress : ∀ base, (s.step (.alloc size align)).1 = .address base ↔
        IsLeast {b | place size align b} base := by
      intro base
      rw [hok, hplaces, ← hfit, halloc]
      cases firstFit size (max align 1) s.storage.arena.vacant with
      | none => simp
      | some r => simp [Prod.ext_iff]
    refine ⟨haddress, fun hnone => herror size align _ ?_⟩
    rw [halloc]
    cases hf : firstFit size (max align 1) s.storage.arena.vacant with
    | none => rfl
    | some r =>
      have hleast := (hfit r.1).mp ⟨r.2, hf⟩
      rw [← hplaces] at hleast
      exact absurd hleast.1 (hnone r.1)
  · have hmask : size = 0 ∨ isPowerOfTwo (max align 1) = false := hbad.imp_right fun hbad => by
      rw [← Bool.not_eq_true, hpower]
      rintro (hzero | ⟨k, hk⟩)
      · exact hbad.1 hzero
      · exact hbad.2 k hk
    obtain ⟨detail, hd⟩ := alloc_eq_error (a := s.storage.arena) hmask
    exact ⟨detail, by rw [herror size align _ hd]⟩
  · cases hr : s.storage.arena.alloc size align with
    | error f => rw [herror size align f hr]
    | ok r => exact absurd ((hok size align r.1).mpr ⟨r.2, hr⟩) (hfail r.1)

/-- Three bytes are freed before sixteen that stay, and the gap between them takes eight bytes at a
multiple of eight, but not nine. -/
theorem first_fit_lowest_gap : ∃ s0, make (some 1) = .ok s0 ∧
      (s0.after [.alloc 3 1, .alloc 16 16, .free 8]).storage.isOpen = true ∧
      IsLeast {b | Place [⟨16, 16⟩] 8 65536 8 8 b} 8 ∧ IsLeast {b | Place [⟨16, 16⟩] 8 65536 9 8 b} 32 := by
  refine ⟨_, rfl, rfl, ?_⟩
  have hmake : make (some 1) = .ok _ := rfl
  obtain ⟨hlow, -⟩ := first_fit_lowest hmake [.alloc 3 1, .alloc 16 16, .free 8] rfl
  exact ⟨((hlow 8 8 (by decide) (.inr ⟨3, rfl⟩)).1 8).mp rfl, ((hlow 9 8 (by decide) (.inr ⟨3, rfl⟩)).1 32).mp rfl⟩

end StorageState

end Tether
