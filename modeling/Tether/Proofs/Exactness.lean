import Mathlib.Data.Rat.Floor
import Mathlib.Tactic.Ring
import Tether.Proofs.Crossing

/-!
# Numbers as exact rationals

A finite script number is a rational number, a significand times a power of two. Integers are compared
with it as rationals: no rounding is left in what is said here.
-/

namespace Tether

def truncation (q : ℚ) : Int := if 0 ≤ q then ⌊q⌋ else ⌈q⌉

namespace Double

def value? (x : Double) : Option ℚ :=
  match x.shape with
  | .finite negative m e => some ((if negative then -1 else 1) * m * 2 ^ e)
  | _ => none

variable {x : Double} {i : Int}

theorem le_of_shape {negative : Bool} {m : Nat} {e : Int} (h : x.shape = .finite negative m e) : -1074 ≤ e := by
  unfold shape at h
  simp only at h
  split at h
  · split at h <;> exact nomatch h
  · split at h <;> obtain ⟨-, -, rfl⟩ := Shape.finite.inj h <;> omega

theorem value?_eq (x : Double) : x.value? = x.units?.map fun u : Int => (u / unit : ℚ) := by
  unfold value? units?
  cases hshape : x.shape with
  | nan | infinite => rfl
  | finite negative m e =>
    have htwo : (2 : ℚ) ≠ 0 := two_ne_zero
    have hpow : ∀ k : Nat, ((2 ^ k : Nat) : ℚ) = 2 ^ (k : Int) := fun k => by
      rw [Nat.cast_pow, Nat.cast_ofNat, zpow_natCast]
    have hunit : (unit : ℚ) = 2 ^ ((1074 : Nat) : Int) := hpow 1074
    have hscale : ((m * 2 ^ (e + 1074).toNat : Nat) : ℚ) = m * 2 ^ e * (unit : ℚ) := by
      have he : 0 ≤ e + 1074 := by have := le_of_shape hshape; omega
      rw [hunit, Nat.cast_mul, hpow, mul_assoc, ← zpow_add₀ htwo, Int.toNat_of_nonneg he]
      rfl
    have hne : (unit : ℚ) ≠ 0 := hunit ▸ zpow_ne_zero _ htwo
    simp only [Option.map_some, Option.some.injEq]
    rw [eq_div_iff hne]
    cases negative
    · simp only [Bool.false_eq_true, if_false, Int.cast_natCast, hscale, one_mul]
    · simp only [if_true, Int.cast_neg, Int.cast_natCast, hscale]
      ring

theorem truncation_div (u : Int) {d : Nat} (hd : 0 < d) : truncation (u / d) = u.tdiv d := by
  have hpos : (0 : ℚ) < d := Nat.cast_pos.mpr hd
  unfold truncation
  by_cases hu : 0 ≤ u
  · rw [if_pos (div_nonneg (Int.cast_nonneg hu) hpos.le), Rat.floor_intCast_div_natCast,
      Int.tdiv_eq_ediv_of_nonneg hu]
  · have hneg : ¬ (0 : ℚ) ≤ u / d := not_le.mpr (div_neg_of_neg_of_pos (Int.cast_lt_zero.mpr (by omega)) hpos)
    rw [if_neg hneg, Rat.ceil_intCast_div_natCast, ← Int.tdiv_eq_ediv_of_nonneg (by omega), Int.neg_tdiv, Int.neg_neg]

theorem truncate?_eq (x : Double) : x.truncate? = x.value?.map truncation := by
  rw [truncate?, value?_eq, Option.map_map]
  exact Option.map_congr fun u _ => (truncation_div u (Int.natCast_pos.mp unit_pos)).symm

theorem toInt?_eq_some_iff : x.toInt? = some i ↔ x.value? = some (i : ℚ) := by
  have hne : (unit : ℚ) ≠ 0 := Nat.cast_ne_zero.mpr (Nat.pos_iff_ne_zero.mp (Int.natCast_pos.mp unit_pos))
  rw [value?_eq, Option.map_eq_some_iff]
  constructor
  · intro h
    refine ⟨_, units?_of_toInt? h, ?_⟩
    rw [Int.cast_mul, Int.cast_natCast, mul_div_cancel_right₀ _ hne]
  · rintro ⟨u, hu, hi⟩
    refine toInt?_of_units? (hu.trans (congrArg some ?_))
    have := (div_eq_iff hne).mp hi
    exact_mod_cast this

end Double

open Bridge in
/-- **Numbers and integers convert exactly.** A number is read as an integer of a declared width exactly
if it is finite and its value, rounded towards zero, is in the range of the width, and then that integer
is read, which every native type allowed for the width keeps; any other number is an overflow.

An integer of 64 bits goes out exactly if it is the value of some number. What goes out is then the number
nearest to it, has it as value, and is read as the same integer again. -/
theorem numbers_convert_exactly {bits : Nat} (hbits : bits ∈ [8, 16, 32, 64]) (signed : Bool)
    (name : String) (path : List String) :
    (∀ x : Double, integerOf bits signed name x path = match x.value? with
      | none => .error (.overflow .unmarshal path x.text name)
      | some q => if InWidth bits signed (truncation q) then .ok (truncation q)
          else .error (.overflow .unmarshal path x.trunc.text name)) ∧
    (∀ i, InWidth bits signed i → ∀ k ∈ Codec.allowedInts bits signed, k.wrap i = i) ∧
    (∀ i, InWidth 64 signed i → ((exactNumber? signed i).isSome = true ↔ ∃ y : Double, y.value? = some (i : ℚ)) ∧
      ∀ x, exactNumber? signed i = some x →
        x = .ofInt i ∧ x.value? = some (i : ℚ) ∧ integerOf 64 signed name x path = .ok i) := by
  have hle : bits ≤ 64 := by
    simp only [List.mem_cons, List.not_mem_nil, or_false] at hbits
    omega
  refine ⟨fun x => ?_, fun i hi k hk => (k.wrap_eq_self_iff i).mpr (hi.holds hk), fun i hi => ⟨?_, fun x hx => ?_⟩⟩
  · rw [integerOf_eq hle, Double.truncate?_eq]
    cases x.value? <;> rfl
  · rw [Option.isSome_iff_ne_none, ne_eq, exactNumber?_eq_none_iff hi]
    simp only [not_forall, not_not, Double.toInt?_eq_some_iff]
  · obtain ⟨rfl, hint⟩ := (exactNumber?_eq_some_iff hi).mp hx
    refine ⟨rfl, Double.toInt?_eq_some_iff.mp hint, ?_⟩
    rw [integerOf_eq (Nat.le_refl 64), Double.truncate?_of_toInt? hint]
    exact if_pos hi

open Bridge in
/-- The least integer of 64 bits goes out and comes back; the first integer that needs 54 digits is no
number. -/
theorem numbers_convert_exactly_edges : exactNumber? true (-2 ^ 63) = some (.powerOfTwo true 63) ∧
      integerOf 64 true "s64" (.powerOfTwo true 63) [] = .ok (-2 ^ 63) ∧
      ¬ ∃ y : Double, y.value? = some ((2 ^ 53 + 1 : Int) : ℚ) := by
  obtain ⟨-, -, hout⟩ := numbers_convert_exactly (by decide : 64 ∈ [8, 16, 32, 64]) true "s64" []
  have hleast : exactNumber? true (-2 ^ 63) = some (.powerOfTwo true 63) := by decide +kernel
  have hnone : exactNumber? true (2 ^ 53 + 1) = none := by decide +kernel
  refine ⟨hleast, ((hout _ (by decide)).2 _ hleast).2.2, fun hy => ?_⟩
  have := (hout _ (by decide)).1.mpr hy
  rw [hnone] at this
  exact absurd this (by decide)

end Tether
