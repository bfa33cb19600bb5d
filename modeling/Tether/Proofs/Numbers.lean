import Tether.Number.Double

/-!
# Integers and script numbers

A script number that is an integer is the number nearest to that integer, so integers that some number
holds are converted exactly.
-/

namespace Tether

variable {n m k M e : Nat} {x y : Double} {u i : Int}

/-- An integer that is a significand of 53 digits times a power of two fills such a significand, counted
in units of its leading digit. -/
theorem exists_significand {c : Nat} (hn : n ≠ 0) (hm : m < 2 ^ 53) (hc : 52 ≤ c) (h : n * 2 ^ c = m * 2 ^ k) :
    n.log2 + c < 53 + k ∧ ∃ M, 2 ^ 52 ≤ M ∧ M < 2 ^ 53 ∧ n * 2 ^ 52 = M * 2 ^ n.log2 := by
  have hlow : 2 ^ n.log2 ≤ n := Nat.log2_self_le hn
  have hhigh : n < 2 ^ (n.log2 + 1) := Nat.lt_log2_self
  have hk : n.log2 + c < 53 + k := by
    refine (Nat.pow_lt_pow_iff_right (a := 2) (by decide)).mp ?_
    calc 2 ^ (n.log2 + c) = 2 ^ n.log2 * 2 ^ c := Nat.pow_add ..
      _ ≤ n * 2 ^ c := Nat.mul_le_mul_right _ hlow
      _ = m * 2 ^ k := h
      _ < 2 ^ 53 * 2 ^ k := Nat.mul_lt_mul_of_pos_right hm (Nat.two_pow_pos k)
      _ = 2 ^ (53 + k) := (Nat.pow_add ..).symm
  have hdvd : 2 ^ n.log2 * 2 ^ (c - 52) ∣ n * 2 ^ 52 * 2 ^ (c - 52) := by
    rw [← Nat.pow_add, Nat.mul_assoc, ← Nat.pow_add, Nat.add_sub_cancel' hc, h]
    exact Nat.dvd_mul_left_of_dvd (Nat.pow_dvd_pow 2 (by omega)) m
  obtain ⟨M, hM⟩ := Nat.dvd_of_mul_dvd_mul_right (Nat.two_pow_pos (c - 52)) hdvd
  rw [Nat.mul_comm] at hM
  have hpos := Nat.two_pow_pos n.log2
  refine ⟨hk, M, Nat.le_of_mul_le_mul_right ?_ hpos, Nat.lt_of_mul_lt_mul_right (a := 2 ^ n.log2) ?_,
    by rw [Nat.mul_comm, hM, Nat.mul_comm]⟩
  · calc 2 ^ 52 * 2 ^ n.log2 ≤ 2 ^ 52 * n := Nat.mul_le_mul_left _ hlow
      _ = M * 2 ^ n.log2 := by rw [hM, Nat.mul_comm]
  · calc M * 2 ^ n.log2 = 2 ^ 52 * n := by rw [hM, Nat.mul_comm]
      _ < 2 ^ 52 * 2 ^ (n.log2 + 1) := Nat.mul_lt_mul_of_pos_left hhigh (Nat.two_pow_pos 52)
      _ = 2 ^ (53 + n.log2) := by rw [← Nat.pow_add, Nat.add_comm n.log2, ← Nat.add_assoc]
      _ = 2 ^ 53 * 2 ^ n.log2 := Nat.pow_add ..

namespace BinaryFormat

theorem nearest_mul {d : Nat} (q : Nat) (hd : 0 < d) : nearest (q * d) d = q := by
  simp only [nearest, Nat.mul_div_cancel q hd, Nat.mul_mod_left]
  exact if_neg (by omega)

theorem exponentOf_double (hn : n ≠ 0) : double.exponentOf n 1 = (n.log2 : Int) - 52 := by
  have hlow : 2 ^ n.log2 ≤ n := Nat.log2_self_le hn
  have hguess : max ((n.log2 : Int) - (Nat.log2 1 : Int) - (double.precision : Int))
      double.minExponent = (n.log2 : Int) - 53 := by
    show max ((n.log2 : Int) - ((0 : Nat) : Int) - ((53 : Nat) : Int)) (-1074) = _
    omega
  simp only [exponentOf, hguess, scaled]
  split
  case isTrue hl =>
    rw [if_pos ?_]
    · omega
    · show 2 ^ 53 ≤ n / (1 * 2 ^ _)
      rw [Nat.one_mul, Nat.le_div_iff_mul_le (Nat.two_pow_pos _), ← Nat.pow_add,
        show 53 + ((n.log2 : Int) - 53).toNat = n.log2 by omega]
      exact hlow
  case isFalse hl =>
    rw [if_pos ?_]
    · omega
    · show 2 ^ 53 ≤ n * 2 ^ _ / 1
      rw [Nat.div_one]
      have hpow : 2 ^ n.log2 * 2 ^ (-((n.log2 : Int) - 53)).toNat = 2 ^ 53 := by
        rw [← Nat.pow_add, show n.log2 + (-((n.log2 : Int) - 53)).toNat = 53 by omega]
      exact Nat.le_trans (Nat.le_of_eq hpow.symm) (Nat.mul_le_mul_right _ hlow)

theorem round_of_significand (hn : n ≠ 0) (hmin : 2 ^ 52 ≤ M) (hmax : M < 2 ^ 53)
    (h : n * 2 ^ 52 = M * 2 ^ n.log2) (hl : n.log2 ≤ 1023) :
    double.round n 1 = some (M, (n.log2 : Int) - 52) := by
  have hlog : M.log2 = 52 := (Nat.log2_eq_iff (by omega)).mpr ⟨hmin, hmax⟩
  have hnearest : nearest (scaled n 1 ((n.log2 : Int) - 52)).1 (scaled n 1 ((n.log2 : Int) - 52)).2 = M := by
    unfold scaled
    split
    case isTrue hge =>
      have he : n = M * 2 ^ ((n.log2 : Int) - 52).toNat := by
        refine Nat.eq_of_mul_eq_mul_right (Nat.two_pow_pos 52) ?_
        rw [h, Nat.mul_assoc, ← Nat.pow_add, show ((n.log2 : Int) - 52).toNat + 52 = n.log2 by omega]
      have hexact := nearest_mul M (Nat.two_pow_pos ((n.log2 : Int) - 52).toNat)
      rwa [← he, ← Nat.one_mul (2 ^ _)] at hexact
    case isFalse hlt =>
      have he : n * 2 ^ (-((n.log2 : Int) - 52)).toNat = M * 1 := by
        refine Nat.eq_of_mul_eq_mul_right (Nat.two_pow_pos n.log2) ?_
        rw [Nat.mul_assoc, ← Nat.pow_add, Nat.mul_one,
          show (-((n.log2 : Int) - 52)).toNat + n.log2 = 52 by omega, h]
      simp only
      rw [he]
      exact nearest_mul M Nat.one_pos
  simp only [round, if_neg hn, exponentOf_double hn]
  rw [hnearest, hlog]
  exact if_neg (by simp only [double]; omega)

end BinaryFormat

namespace Double

theorem unit_pos : (0 : Int) < (unit : Int) := by
  unfold unit
  exact Int.natCast_pos.mpr (Nat.two_pow_pos 1074)

theorem shape_of_units? (h : x.units? = some u) : ∃ neg m e, x.shape = .finite neg m e := by
  unfold units? at h
  split at h
  case h_1 neg m e hshape => exact ⟨neg, m, e, hshape⟩
  case h_2 => exact nomatch h

theorem shape_ofParts (neg : Bool) {l : Nat} (hmin : 2 ^ 52 ≤ M) (hmax : M < 2 ^ 53) (hl : l ≤ 1023) :
    (ofParts neg M ((l : Int) - 52)).shape = .finite neg M ((l : Int) - 52) := by
  have hplace : ((l : Int) - 52 + 1074).toNat = l + 1022 := by omega
  have hbits : (ofParts neg M ((l : Int) - 52)).bits.toNat =
      (if neg then 2 ^ 63 else 0) + (l + 1022) * 2 ^ 52 + M := by
    simp only [ofParts, hplace]
    refine UInt64.toNat_ofNat_of_lt' ?_
    show _ < 2 ^ 64
    split <;> omega
  have hneg : (ofParts neg M ((l : Int) - 52)).negative = neg := by
    unfold negative
    rw [hbits]
    cases neg
    · simp only [Bool.false_eq_true, if_false, decide_eq_false_iff_not]
      omega
    · simp only [if_true, decide_eq_true_eq]
      omega
  have hexp : ((if neg then 2 ^ 63 else 0) + (l + 1022) * 2 ^ 52 + M) / 2 ^ 52 % 2 ^ 11 = l + 1023 := by
    split <;> omega
  have hman : ((if neg then 2 ^ 63 else 0) + (l + 1022) * 2 ^ 52 + M) % 2 ^ 52 = M - 2 ^ 52 := by
    split <;> omega
  simp only [shape]
  rw [hbits, hneg, hexp, hman, if_neg (by omega), if_neg (by omega), Nat.sub_add_cancel hmin,
    show ((l + 1023 : Nat) : Int) - 1075 = (l : Int) - 52 by omega]

theorem significand_of_toInt? (h : x.toInt? = some i) :
    ∃ m k : Nat, m < 2 ^ 53 ∧ k ≤ 2045 ∧ i.natAbs * unit = m * 2 ^ k := by
  unfold toInt? units? at h
  have hunit : ∀ u : Int, u % (unit : Int) = 0 → (u / (unit : Int)).natAbs * unit = u.natAbs := by
    intro u hu
    have hmul := Int.natAbs_mul (u / (unit : Int)) unit
    rw [Int.ediv_mul_cancel (Int.dvd_of_emod_eq_zero hu), Int.natAbs_natCast] at hmul
    exact hmul.symm
  have hfinite : ∀ neg m e, x.shape = .finite neg m e → m < 2 ^ 53 ∧ (e + 1074).toNat ≤ 2045 := by
    intro neg m e he
    simp only [shape] at he
    split at he
    · split at he <;> simp at he
    · split at he
      all_goals
        simp only [Shape.finite.injEq] at he
        omega
  split at h
  case h_2 => simp at h
  case h_1 u hu =>
    split at hu
    case h_2 => simp at hu
    case h_1 neg m e hshape =>
      obtain ⟨hm, hk⟩ := hfinite neg m e hshape
      refine ⟨m, (e + 1074).toNat, hm, hk, ?_⟩
      split at h
      case isFalse => simp at h
      case isTrue hmod =>
        cases h
        refine (hunit u hmod).trans ?_
        rw [← Option.some.inj hu]
        cases neg
        · exact Int.natAbs_natCast _
        · exact (Int.natAbs_neg _).trans (Int.natAbs_natCast _)

theorem toInt?_ofInt (h : x.toInt? = some i) : (ofInt i).toInt? = some i := by
  by_cases hzero : i = 0
  · subst hzero
    decide +kernel
  have hn : i.natAbs ≠ 0 := by omega
  obtain ⟨m, k, hm, hk, he⟩ := significand_of_toInt? h
  obtain ⟨hlog, M, hmin, hmax, hM⟩ := exists_significand hn hm (by decide) he
  -- Finite numbers end below two to the 1024.
  have hl : i.natAbs.log2 ≤ 1023 := by omega
  have hofInt : ofInt i = ofParts (decide (i < 0)) M ((i.natAbs.log2 : Int) - 52) := by
    simp only [ofInt, ofRatio, ofRatio?, BinaryFormat.round_of_significand hn hmin hmax hM hl]
    rfl
  have hunits : M * 2 ^ ((i.natAbs.log2 : Int) - 52 + 1074).toNat = i.natAbs * unit := by
    rw [show ((i.natAbs.log2 : Int) - 52 + 1074).toNat = i.natAbs.log2 + 1022 by omega, Nat.pow_add,
      ← Nat.mul_assoc, ← hM, Nat.mul_assoc, ← Nat.pow_add]
    rfl
  have hsigned : (if decide (i < 0) = true then -((i.natAbs * unit : Nat) : Int) else
      ((i.natAbs * unit : Nat) : Int)) = i * (unit : Int) := by
    rw [Int.natCast_mul]
    rcases Int.lt_or_le i 0 with hneg | hpos
    · rw [if_pos (by simpa using hneg), ← Int.neg_mul, Int.ofNat_natAbs_of_nonpos (Int.le_of_lt hneg), Int.neg_neg]
    · rw [if_neg (by simpa using hpos), Int.natAbs_of_nonneg hpos]
  rw [hofInt, toInt?, units?, shape_ofParts _ hmin hmax hl]
  simp only [hunits, hsigned, Int.mul_emod_left, if_true, Int.mul_ediv_cancel _ (Int.ne_of_gt unit_pos)]

theorem units?_of_toInt? (h : x.toInt? = some i) : x.units? = some (i * (unit : Int)) := by
  unfold toInt? at h
  split at h
  case h_2 => simp at h
  case h_1 u hu =>
    split at h
    case isFalse => simp at h
    case isTrue hmod =>
      rw [hu, ← Option.some.inj h, Int.ediv_mul_cancel (Int.dvd_of_emod_eq_zero hmod)]

theorem truncate?_of_toInt? (h : x.toInt? = some i) : x.truncate? = some i := by
  rw [truncate?, units?_of_toInt? h]
  exact congrArg some (Int.mul_tdiv_cancel i (Int.ne_of_gt unit_pos))

theorem equals_of_toInt? (hx : x.toInt? = some i) (hy : y.toInt? = some i) : x.equals y = true := by
  obtain ⟨_, _, _, hx'⟩ := shape_of_units? (units?_of_toInt? hx)
  obtain ⟨_, _, _, hy'⟩ := shape_of_units? (units?_of_toInt? hy)
  simp only [equals, hx', hy', units?_of_toInt? hx, units?_of_toInt? hy,
    Option.isSome_some, beq_self_eq_true, Bool.and_self]

/-! ## Fractions -/

/-- The units of a finite number without its sign, by the exponent and the fraction in its bits. -/
def magnitude (e m : Nat) : Nat := if e = 0 then m else (m + 2 ^ 52) * 2 ^ (e - 1)

theorem units?_eq (x : Double) (he : x.bits.toNat / 2 ^ 52 % 2 ^ 11 = e)
    (hm : x.bits.toNat % 2 ^ 52 = m) : x.units? = if e = 2047 then none else
      some (if x.negative then -(magnitude e m : Int) else magnitude e m) := by
  unfold units? shape
  rw [he, hm]
  simp only [magnitude]
  by_cases hlast : e = 2047
  · rw [if_pos hlast, if_pos hlast]
    split <;> first | rfl | (rename_i h; split at h <;> cases h)
  by_cases hzero : e = 0
  · simp [hzero]
  · have hexp : ((e : Int) - 1075 + 1074).toNat = e - 1 := by omega
    simp [hlast, hzero, hexp]

theorem clear_digits {b : Nat} (hk : k ≤ 52) : (b - b % 2 ^ k) / 2 ^ 52 = b / 2 ^ 52 ∧
      (b - b % 2 ^ k) % 2 ^ 52 = b % 2 ^ 52 / 2 ^ k * 2 ^ k ∧ b % 2 ^ 52 % 2 ^ k = b % 2 ^ k := by
  have hmod : b % 2 ^ 52 % 2 ^ k = b % 2 ^ k := Nat.mod_mod_of_dvd b (Nat.pow_dvd_pow 2 hk)
  have hquot := Nat.div_add_mod' (b % 2 ^ 52) (2 ^ k)
  have hsplit := Nat.div_add_mod b (2 ^ 52)
  rw [hmod] at hquot
  refine ⟨?_, ?_, hmod⟩ <;> generalize b % 2 ^ 52 / 2 ^ k * 2 ^ k = q at * <;>
    generalize b % 2 ^ k = r at * <;> omega

theorem magnitude_clear (hk : e + k = 1075) (hlow : 1 ≤ e) (hhigh : k ≤ 52) :
    magnitude e (m / 2 ^ k * 2 ^ k) = magnitude e m / unit * unit := by
  have hunit : unit = 2 ^ k * 2 ^ (e - 1) := by
    rw [unit, ← Nat.pow_add]
    congr 1
    omega
  have hone : 2 ^ 52 = 2 ^ (52 - k) * 2 ^ k := by rw [← Nat.pow_add, Nat.sub_add_cancel hhigh]
  have hquot : (m + 2 ^ 52) / 2 ^ k = m / 2 ^ k + 2 ^ (52 - k) := by
    rw [hone, Nat.add_mul_div_right _ _ (Nat.two_pow_pos k)]
  rw [magnitude, magnitude, if_neg (by omega), if_neg (by omega), hunit,
    Nat.mul_div_mul_right _ _ (Nat.two_pow_pos _), hquot, ← Nat.mul_assoc,
    Nat.add_mul (m / 2 ^ k), ← hone]

/-- Truncation keeps the sign of a finite number and rounds its magnitude down to whole ones; it changes
nothing exactly if there is nothing to round. -/
theorem trunc_eq (he : x.bits.toNat / 2 ^ 52 % 2 ^ 11 = e) (hm : x.bits.toNat % 2 ^ 52 = m) (hfinite : e ≠ 2047) :
    x.trunc.units? = some (if x.negative then -((magnitude e m / unit * unit : Nat) : Int)
      else (magnitude e m / unit * unit : Nat)) ∧
      (magnitude e m / unit * unit = magnitude e m → x.trunc = x) := by
  have hbits := x.bits.toNat_lt
  have hm' : m < 2 ^ 52 := by omega
  by_cases hsmall : e < 1023
  · -- Below one, only the sign is left.
    have hlt : magnitude e m < unit := by
      have hfits : magnitude e m < 2 ^ 53 * 2 ^ (e - 1) := by
        unfold magnitude
        split
        · exact Nat.lt_of_lt_of_le (by omega) (Nat.le_mul_of_pos_right _ (Nat.two_pow_pos _))
        · exact Nat.mul_lt_mul_of_pos_right (by omega) (Nat.two_pow_pos _)
      refine Nat.lt_of_lt_of_le hfits ?_
      rw [← Nat.pow_add, unit]
      exact Nat.pow_le_pow_right (by decide) (by omega)
    have htrunc : x.trunc = ⟨UInt64.ofNat (if x.negative then 2 ^ 63 else 0)⟩ := by
      rw [trunc, he, if_pos hsmall]
    rw [Nat.div_eq_of_lt hlt, Nat.zero_mul, htrunc]
    refine ⟨by cases x.negative <;> decide, fun hzero => ?_⟩
    obtain ⟨rfl, rfl⟩ : e = 0 ∧ m = 0 := by
      unfold magnitude at hzero
      split at hzero
      · exact ⟨by assumption, hzero.symm⟩
      · exact absurd hzero.symm (Nat.ne_of_gt (Nat.mul_pos (by omega) (Nat.two_pow_pos _)))
    have hsign : (if x.negative then 2 ^ 63 else 0) = x.bits.toNat := by
      unfold negative
      simp only [decide_eq_true_eq]
      split <;> omega
    rw [hsign, UInt64.ofNat_toNat]
  by_cases hmid : e < 1075
  · have hk : 1075 - e ≤ 52 := by omega
    obtain ⟨hexp, hfraction, hmod⟩ := clear_digits (b := x.bits.toNat) hk
    have htrunc : x.trunc = ⟨UInt64.ofNat (x.bits.toNat - x.bits.toNat % 2 ^ (1075 - e))⟩ := by
      rw [trunc, he, if_neg hsmall, if_pos hmid]
    have htoNat : x.trunc.bits.toNat = x.bits.toNat - x.bits.toNat % 2 ^ (1075 - e) := by
      rw [htrunc]
      exact UInt64.toNat_ofNat_of_lt' (Nat.lt_of_le_of_lt (Nat.sub_le _ _) hbits)
    have hneg : x.trunc.negative = x.negative := by
      unfold negative
      rw [htoNat]
      generalize x.bits.toNat - x.bits.toNat % 2 ^ (1075 - e) = b at hexp
      exact decide_eq_decide.mpr (by omega)
    rw [← magnitude_clear (by omega : e + (1075 - e) = 1075) (by omega) hk]
    refine ⟨?_, fun hsame => ?_⟩
    · rw [units?_eq x.trunc (e := e) (m := m / 2 ^ (1075 - e) * 2 ^ (1075 - e)) (by rw [htoNat, hexp, he])
        (by rw [htoNat, hfraction, hm]), if_neg hfinite, hneg]
    · -- The digits cleared were zero.
      have hrest : x.bits.toNat % 2 ^ (1075 - e) = 0 := by
        have hquot := Nat.div_add_mod' m (2 ^ (1075 - e))
        have hsum := Nat.eq_of_mul_eq_mul_right (Nat.two_pow_pos (e - 1))
          (by simpa [magnitude, show e ≠ 0 by omega] using hsame)
        rw [← hmod, hm]
        omega
      rw [htrunc, hrest, Nat.sub_zero, UInt64.ofNat_toNat]
  · -- From two to the 52 on there is no fraction.
    have htrunc : x.trunc = x := by
      rw [trunc, he, if_neg hsmall, if_neg hmid]
    have hdvd : unit ∣ magnitude e m := by
      rw [magnitude, if_neg (by omega)]
      exact Nat.dvd_mul_left_of_dvd (Nat.pow_dvd_pow 2 (by omega)) _
    rw [htrunc, Nat.div_mul_cancel hdvd, units?_eq x he hm, if_neg hfinite]
    exact ⟨rfl, fun _ => rfl⟩

theorem toInt?_of_units? (h : x.units? = some (i * (unit : Int))) : x.toInt? = some i := by
  rw [toInt?, h]
  simp only [Int.mul_emod_left, if_true, Int.mul_ediv_cancel i (Int.ne_of_gt unit_pos)]

/-- **Truncation is exact.** A number with its fraction cleared is the integer next to it towards zero, and
a number that is an integer is not changed. -/
theorem toInt?_trunc (x : Double) : x.trunc.toInt? = x.truncate? ∧ ∀ i, x.toInt? = some i → x.trunc = x := by
  have hx := units?_eq x rfl rfl
  by_cases hfinite : x.bits.toNat / 2 ^ 52 % 2 ^ 11 = 2047
  · rw [if_pos hfinite] at hx
    have htrunc : x.trunc = x := by rw [trunc, hfinite]; rfl
    rw [htrunc, toInt?, truncate?, hx]
    exact ⟨rfl, nofun⟩
  · rw [if_neg hfinite] at hx
    obtain ⟨hunits, hsame⟩ := trunc_eq rfl rfl hfinite
    generalize magnitude _ _ = n at *
    refine ⟨?_, fun i hi => hsame ?_⟩
    · rw [truncate?, hx]
      refine toInt?_of_units? (hunits.trans ?_)
      generalize unit = u
      cases x.negative <;> simp [Int.neg_tdiv, Int.neg_mul]
    · have := Option.mem_unique hx (units?_of_toInt? hi)
      refine Nat.div_mul_cancel (Int.natCast_dvd_natCast.mp ?_)
      cases hneg : x.negative <;> rw [hneg] at this
      · exact ⟨i, (Int.mul_comm ..).symm ▸ this⟩
      · exact ⟨-i, by rw [Int.mul_neg, Int.mul_comm, ← this]; simp⟩

theorem truncate?_isNone (x : Double) : x.truncate?.isNone = (x.isNaN || x.isInfinite) := by
  unfold truncate? units? isNaN isInfinite
  cases x.shape <;> rfl

/-! ## Comparison -/

theorem lt_eq {v : Int} (hx : x.units? = some u) (hy : y.units? = some v) : x.lt y = decide (u < v) := by
  obtain ⟨_, _, _, hx'⟩ := shape_of_units? hx
  obtain ⟨_, _, _, hy'⟩ := shape_of_units? hy
  simp only [lt, hx', hy', hx, hy]

theorem units?_powerOfTwo (negative : Bool) (hk : k ≤ 1023) :
    (powerOfTwo negative k).units? = some ((if negative then -2 ^ k else 2 ^ k) * (unit : Int)) := by
  have hsum : 2 ^ 52 * 2 ^ ((k : Int) - 52 + 1074).toNat = 2 ^ k * unit := by
    rw [unit, ← Nat.pow_add, ← Nat.pow_add]
    congr 1
    omega
  rw [units?, powerOfTwo, shape_ofParts negative (Nat.le_refl _) (by decide) hk]
  simp only [hsum]
  generalize unit = u
  cases negative <;> simp [Int.neg_mul]

theorem lt_powerOfTwo (h : x.toInt? = some i) (hk : k ≤ 1023) (negative : Bool) :
    x.lt (powerOfTwo negative k) = decide (i < if negative then -2 ^ k else 2 ^ k) := by
  rw [lt_eq (units?_of_toInt? h) (units?_powerOfTwo negative hk)]
  exact decide_eq_decide.mpr (Int.mul_lt_mul_right unit_pos)

end Double

end Tether
