import Tether.Proofs.Chronicle
import Tether.Proofs.Codecs
import Tether.Proofs.Numbers
import Tether.Proofs.Slots

/-!
# Numbers that cross

Integers and the cases of enumerations cross as script numbers. Three limits are independent of each
other: the width that the interface declares, the width of the native type, and the digits of a script
number. Going out, integers are held against the last alone; coming back, against the first. Cases are
held against the number of cases, in both directions.
-/

namespace Tether

open Bridge

variable {i j : Int} {k : IntType} {bits : Nat} {signed : Bool} {shape : CodecShape}

def Bridge.intRange (bits : Nat) (signed : Bool) : Int × Int :=
  if signed then (-(2 ^ (bits - 1)), 2 ^ (bits - 1)) else (0, 2 ^ bits)

def InWidth (bits : Nat) (signed : Bool) (i : Int) : Prop :=
  (intRange bits signed).1 ≤ i ∧ i < (intRange bits signed).2

instance (bits : Nat) (signed : Bool) (i : Int) : Decidable (InWidth bits signed i) :=
  inferInstanceAs (Decidable (_ ∧ _))

namespace IntType

def Holds (k : IntType) (i : Int) : Prop := InWidth k.bits k.signed i

instance (k : IntType) (i : Int) : Decidable (k.Holds i) := inferInstanceAs (Decidable (InWidth k.bits k.signed i))

variable (k)

/-- How many integers from zero on are values of an integer type. -/
def ordinals : Nat := 2 ^ (if k.signed then k.bits - 1 else k.bits)

theorem wrap_eq_self_iff (i : Int) : k.wrap i = i ↔ k.Holds i := by
  cases k <;>
    simp only [wrap, Holds, InWidth, intRange, signed, bits, Int.bmod, if_true, if_false,
      Bool.false_eq_true] <;> omega

theorem holds_iff_lt_ordinals (hi : 0 ≤ i) : k.Holds i ↔ i < (k.ordinals : Int) := by
  cases k <;>
    simp only [ordinals, Holds, InWidth, intRange, signed, bits, if_true, if_false, Bool.false_eq_true] <;> omega

variable {k}

/-- The values of a type that was allowed for a declared width have that width, except that machine
integers also cross as integers of 32 bits. -/
theorem Holds.inWidth (h : k.Holds i) (hk : k ∈ Codec.allowedInts bits signed) :
    InWidth bits signed i ∨ bits = 32 ∧ (k = .int ∨ k = .uint) := by
  obtain ⟨rfl, rfl | ⟨-, hbits⟩, -⟩ := allowed_cases hk
  · exact .inl h
  · exact .inr hbits

theorem bits_le_of_allowed (hk : k ∈ Codec.allowedInts bits signed) : bits ≤ 64 := by
  have := (allowed_cases hk).2.2
  omega

theorem Holds.inWord (h : k.Holds i) (hk : k ∈ Codec.allowedInts bits signed) : InWidth 64 signed i := by
  obtain ⟨rfl, -, -⟩ := allowed_cases hk
  cases k <;>
    simp only [Holds, InWidth, intRange, IntType.signed, IntType.bits, if_true, if_false, Bool.false_eq_true] at h ⊢ <;>
    omega

end IntType

theorem InWidth.holds {bits : Nat} {signed : Bool} {i : Int} (h : InWidth bits signed i) {k : IntType}
    (hk : k ∈ Codec.allowedInts bits signed) : k.Holds i := by
  obtain ⟨rfl, rfl | ⟨hmachine, rfl, -⟩, -⟩ := IntType.allowed_cases hk
  · exact h
  · unfold IntType.Holds
    rw [hmachine]
    cases hsigned : k.signed <;>
      simp only [hsigned, InWidth, intRange, if_true, if_false, Bool.false_eq_true] at h ⊢ <;> omega


namespace Bridge

open M

variable {w : World} {b : BridgeId} {br : Bridge} {s : Heap} {type : NativeType} {name : String}
  {path : List String} {i : Int} {x : Double}

theorem exact_iff (hi : InWidth 64 signed i) :
    (Double.ofInt i).lt (.powerOfTwo false (if signed then 63 else 64)) = true ∧
      (Double.ofInt i).truncate? = some i ↔ (Double.ofInt i).toInt? = some i := by
  constructor
  · rintro ⟨-, htrunc⟩
    exact Double.toInt?_ofInt ((Double.toInt?_trunc _).1.trans htrunc)
  · intro hint
    refine ⟨?_, Double.truncate?_of_toInt? hint⟩
    rw [Double.lt_powerOfTwo hint (by split <;> decide)]
    cases signed <;> simp [InWidth, intRange] at hi ⊢ <;> omega

theorem exactNumber?_eq_some_iff (hi : InWidth 64 signed i) :
    exactNumber? signed i = some x ↔ x = Double.ofInt i ∧ x.toInt? = some i := by
  simp only [exactNumber?, exact_iff hi]
  split
  case isTrue h => exact ⟨fun he => Option.some.inj he ▸ ⟨rfl, h⟩, fun he => by rw [he.1]⟩
  case isFalse h => exact ⟨nofun, fun he => absurd (he.1 ▸ he.2) h⟩

theorem exactNumber?_eq_none_iff (hi : InWidth 64 signed i) :
    exactNumber? signed i = none ↔ ∀ x : Double, x.toInt? ≠ some i := by
  simp only [exactNumber?, exact_iff hi]
  split
  case isTrue h => exact ⟨nofun, fun he => absurd h (he _)⟩
  case isFalse h => exact ⟨fun _ x hx => h (Double.toInt?_ofInt hx), fun _ => rfl⟩

theorem exec_pushValue (host : Host) (v : NativeValue) (path : List String)
    (hb : w.bridges[b]? = some br) (hs : w.heaps[br.heapId]? = some s) (hroom : s.requireStack 1 = .ok ()) :
    (pushValue host b (.mk type name shape) v path).exec w =
      (pushShape host b br.heapId type name shape v path).exec w := by
  have hbridge : (bridge b).exec w = (.ok br, w) := exec_bridge_eq_ok.mpr ⟨hb, rfl⟩
  have hstack : (readHeap br.heapId (·.requireStack 1)).exec w = (.ok (), w) := by
    rw [exec_readHeap hs, hroom]
  rw [pushValue, bind_ok hbridge, bind_ok hstack]

theorem exec_requireValue (i : Int) (path : List String) (hb : w.bridges[b]? = some br) :
    (requireValue b (.mk type name shape) i path).exec w =
      (requireShape b br.heapId type name shape i path).exec w := by
  have hbridge : (bridge b).exec w = (.ok br, w) := exec_bridge_eq_ok.mpr ⟨hb, rfl⟩
  rw [requireValue, bind_ok hbridge]

theorem exec_requireCase {cases : List String} (hk : type.intType? = some k)
    (hs : w.heaps[br.heapId]? = some s) (hv : s.value? j = some (.number x)) (path : List String) :
    (requireShape b br.heapId type name (.enum cases) j path).exec w = (match caseOf cases name x path with
        | .ok i => .ok (.int (k.wrap i))
        | .error f => .error (.fault f), w) := by
  rw [requireShape, bind_ok (exec_heap hs), hv]
  simp only [NativeType.stored?_int hk]
  cases caseOf cases name x path <;> rfl

theorem integerOf_eq (hbits : bits ≤ 64) : integerOf bits signed name x path = match x.truncate? with
      | none => .error (.overflow .unmarshal path x.text name)
      | some i => if InWidth bits signed i then .ok i
          else .error (.overflow .unmarshal path x.trunc.text name) := by
  unfold integerOf
  rw [← x.truncate?_isNone]
  cases htrunc : x.truncate? with
  | none => rfl
  | some i =>
    have hint : x.trunc.toInt? = some i := (Double.toInt?_trunc x).1.trans htrunc
    have hzero : x.trunc.lt ⟨0⟩ = decide (i < 0) := by
      rw [Double.lt_eq (Double.units?_of_toInt? hint) (v := 0 * (Double.unit : Int)) (by rw [Int.zero_mul]; decide)]
      exact decide_eq_decide.mpr (Int.mul_lt_mul_right Double.unit_pos)
    have hbelow := fun neg => Double.lt_powerOfTwo hint (show bits - 1 ≤ 1023 by omega) neg
    simp only [Option.isNone_some, Bool.false_eq_true, if_false, Double.truncate?_of_toInt? hint,
      Option.getD_some, InWidth, intRange]
    cases signed
    · simp only [Bool.false_eq_true, if_false, hzero, Double.lt_powerOfTwo hint (show bits ≤ 1023 by omega)]
      by_cases h : 0 ≤ i ∧ i < 2 ^ bits <;> simp [h] <;> omega
    · simp only [if_true, hbelow]
      by_cases h : -2 ^ (bits - 1) ≤ i ∧ i < 2 ^ (bits - 1) <;> simp [h] <;> omega

theorem exec_requireInt (hk : type.intType? = some k) (hallowed : k ∈ Codec.allowedInts bits signed)
    (hs : w.heaps[br.heapId]? = some s) (hv : s.value? j = some (.number x)) (path : List String) :
    (requireShape b br.heapId type name (.int bits signed) j path).exec w =
      (match integerOf bits signed name x path with
        | .ok i => .ok (.int i)
        | .error f => .error (.fault f), w) := by
  rw [requireShape, bind_ok (exec_heap hs), hv]
  simp only
  have hinteger : integerOf bits signed name x path = _ := integerOf_eq (IntType.bits_le_of_allowed hallowed)
  cases hi : integerOf bits signed name x path with
  | error f => rfl
  | ok i =>
    -- An integer that was read has the declared width, so that the native type keeps it.
    have hin : InWidth bits signed i := by
      rw [hi] at hinteger
      grind
    have hwrap : k.wrap i = i := (k.wrap_eq_self_iff i).mpr (hin.holds hallowed)
    refine (bind_ok (a := i) rfl).trans ?_
    rw [if_pos (NativeType.hasSign_of_allowed hk hallowed), NativeType.stored?_int hk, hwrap]
    rfl

theorem caseOf_eq (cases : List String) (name : String) (x : Double) (path : List String) :
    (∃ i, x.toInt? = some i ∧ 0 ≤ i ∧ i < (cases.length : Int) ∧ caseOf cases name x path = .ok i) ∨
      (∀ i, x.toInt? = some i → ¬ (0 ≤ i ∧ i < (cases.length : Int))) ∧
        caseOf cases name x path = .error (.invalidEnum .unmarshal path x.text name) := by
  unfold caseOf
  split
  case h_1 i hi =>
    split
    case isTrue h => exact .inl ⟨i, hi, h.1, h.2, rfl⟩
    case isFalse h => exact .inr ⟨fun j hj => Option.mem_unique hi hj ▸ h, rfl⟩
  case h_2 hnone => exact .inr ⟨fun i hi => absurd hi (by simp [hnone]), rfl⟩

end Bridge

open Bridge in
/-- **Integers that cross.** Take an integer codec that was compiled, and a value of its native type. On a
stack with a free slot the value goes out exactly if some script number is it, and then the number
pushed is it; otherwise this is an overflow, and nothing changes.

Read by the same codec, the number pushed gives the value again exactly if that has the declared width;
otherwise this is an overflow. All values of the native type have the declared width, except where a
machine integer was declared as one of 32 bits. -/
theorem integers_cross {w : World} {b : BridgeId} {br : Bridge} {s : Heap} {wit : WitType}
    {expected type : NativeType} {place : List String} {name : String} {bits : Nat} {signed : Bool}
    {k : IntType} {i : Int} (hc : Codec.compileAt wit expected place = .ok (.mk type name (.int bits signed)))
    (hk : type.intType? = some k) (hi : k.Holds i) (hw : w.Chronicled) (hb : w.bridges[b]? = some br)
    (hs : w.heaps[br.heapId]? = some s) (hroom : s.requireStack 1 = .ok ()) (host : Host)
    (path : List String) :
    ((∃ x : Double, x.toInt? = some i) ↔
      ∃ w', (pushValue host b (.mk type name (.int bits signed)) (.int i) path).exec w = (.ok (), w')) ∧
    (∀ w', (pushValue host b (.mk type name (.int bits signed)) (.int i) path).exec w = (.ok (), w') →
      ∃ x : Double, x.toInt? = some i ∧ w' = w.setHeap br.heapId (s.push (.number x)) ∧
        ∀ path', (requireValue b (.mk type name (.int bits signed)) (-1) path').exec w' =
          (if InWidth bits signed i then .ok (.int i)
            else .error (.fault (.overflow .unmarshal path' (Double.ofInt i).text name)), w')) ∧
    ((∀ x : Double, x.toInt? ≠ some i) → (pushValue host b (.mk type name (.int bits signed)) (.int i) path).exec w =
        (.error (.fault (.overflow .marshal path (toString i) name)), w)) ∧
    (InWidth bits signed i ∨ bits = 32 ∧ (k = .int ∨ k = .uint)) := by
  have hpush : (pushValue host b (.mk type name (.int bits signed)) (.int i) path).exec w =
      (pushShape host b br.heapId type name (.int bits signed) (.int i) path).exec w :=
    exec_pushValue host (.int i) path hb hs hroom
  obtain ⟨k', hk', hsome⟩ := Codec.regular_compileAt wit expected place hc
  obtain rfl := Option.some.inj (hk.symm.trans hsome)
  have hbits := IntType.bits_le_of_allowed hk'
  have hword := hi.inWord hk'
  have hsign : type.hasSign signed = true := NativeType.hasSign_of_allowed hk hk'
  have hgoes : ∀ x, exactNumber? signed i = some x →
      (pushValue host b (.mk type name (.int bits signed)) (.int i) path).exec w =
        (.ok (), w.setHeap br.heapId (s.push (.number x))) := by
    intro x hx
    rw [hpush, pushShape, if_pos hsign, hx]
    exact M.exec_modifyHeap hs _
  have hfails : exactNumber? signed i = none →
      (pushValue host b (.mk type name (.int bits signed)) (.int i) path).exec w =
        (.error (.fault (.overflow .marshal path (toString i) name)), w) := by
    intro hnone
    rw [hpush, pushShape, if_pos hsign, hnone]
    rfl
  refine ⟨⟨?_, ?_⟩, ?_, fun hnone => hfails ((exactNumber?_eq_none_iff hword).mpr hnone), hi.inWidth hk'⟩
  · rintro ⟨x, hx⟩
    exact ⟨_, hgoes _ ((exactNumber?_eq_some_iff hword).mpr ⟨rfl, Double.toInt?_ofInt hx⟩)⟩
  · rintro ⟨w', he⟩
    cases hx : exactNumber? signed i with
    | some x => exact ⟨x, ((exactNumber?_eq_some_iff hword).mp hx).2⟩
    | none => exact absurd ((hfails hx).symm.trans he) (by simp)
  · intro w' he
    cases hx : exactNumber? signed i with
    | none => exact absurd ((hfails hx).symm.trans he) (by simp)
    | some x =>
      obtain ⟨rfl, hint⟩ := (exactNumber?_eq_some_iff hword).mp hx
      obtain rfl := (Prod.mk.inj ((hgoes _ hx).symm.trans he)).2
      refine ⟨_, hint, rfl, fun path' => ?_⟩
      have htop := Heap.value?_push (hw.heaps _ _ hs).bottom_le (.number (.ofInt i))
      have hb' : (w.setHeap br.heapId (s.push (.number (.ofInt i)))).bridges[b]? = some br := hb
      rw [exec_requireValue (-1) path' hb', exec_requireInt hk hk' (World.get_setHeap hs _) htop path', integerOf_eq hbits,
        Double.truncate?_of_toInt? hint, (Double.toInt?_trunc _).2 i hint]
      by_cases hin : InWidth bits signed i <;> simp only [hin, if_true, if_false]

def holdsNumber (x : Double) : Script :=
  .ofSteps [.bridge (.make false false), .stack (.pushNumber x)]

open Bridge in
/-- A machine integer of 41 digits goes out as one of 32, and does not come back. -/
theorem integers_cross_wide : ∃ (w' : World) (x : Double), x.toInt? = some (2 ^ 40) ∧
    (pushValue (hostAt 2) 0 (.mk (.int .int) "s32" (.int 32 true)) (.int (2 ^ 40)) []).exec
      ((holdsNumber ⟨0⟩).world 2 false) = (.ok (), w') ∧
    (requireValue 0 (.mk (.int .int) "s32" (.int 32 true)) (-1) []).exec w' =
      (.error (.fault (.overflow .unmarshal [] (Double.ofInt (2 ^ 40)).text "s32")), w') := by
  obtain ⟨br, hb, s, hs, hroom⟩ : ∃ br, ((holdsNumber ⟨0⟩).world 2 false).bridges[0]? = some br ∧
    ∃ s, ((holdsNumber ⟨0⟩).world 2 false).heaps[br.heapId]? = some s ∧ (s.requireStack 1).toOption = some () := by
    decide +kernel
  have hc : Codec.compileAt (.prim .s32) (.int .int) [] = .ok (.mk (.int .int) "s32" (.int 32 true)) := rfl
  obtain ⟨hiff, hback, -⟩ := integers_cross (k := .int) (i := 2 ^ 40) hc rfl (by decide)
    (Regime.chronicled_world (holdsNumber ⟨0⟩) 2 false) hb hs (toOption_eq_some.mp hroom) (hostAt 2) []
  obtain ⟨w', he⟩ := hiff.mp ⟨Double.ofInt (2 ^ 40), by decide +kernel⟩
  obtain ⟨x, hx, -, hread⟩ := hback w' he
  exact ⟨w', x, hx, he, (hread []).trans (by rw [if_neg (by decide)])⟩

open Bridge in
/-- **Cases that cross.** Take a codec of an enumeration that was compiled, and a number on the stack. It
is read as a case exactly if it is an integer from zero on and below the number of cases; otherwise this
is an invalid case. The native value is the integer as the native type stores it, so it is the integer
exactly if that is a value of the type, and then pushing it on a stack with a free slot pushes a number
equal to the one that was read.

So no case is altered exactly if the native type has a value for each case. -/
theorem cases_cross {w : World} {b : BridgeId} {br : Bridge} {s : Heap} {wit : WitType}
    {expected type : NativeType} {place : List String} {name : String} {cases : List String} {j : Int}
    {x : Double} (hc : Codec.compileAt wit expected place = .ok (.mk type name (.enum cases)))
    (hb : w.bridges[b]? = some br) (hs : w.heaps[br.heapId]? = some s)
    (hv : s.value? j = some (.number x)) (host : Host) (path : List String) :
    ∃ k, type.intType? = some k ∧
      (∀ v w', (requireValue b (.mk type name (.enum cases)) j path).exec w = (.ok v, w') ↔
        w' = w ∧ ∃ i, x.toInt? = some i ∧ 0 ≤ i ∧ i < (cases.length : Int) ∧ v = .int (k.wrap i)) ∧
      ((∀ i, x.toInt? = some i → ¬ (0 ≤ i ∧ i < (cases.length : Int))) →
        (requireValue b (.mk type name (.enum cases)) j path).exec w =
          (.error (.fault (.invalidEnum .unmarshal path x.text name)), w)) ∧
      (∀ i, x.toInt? = some i → 0 ≤ i → i < (cases.length : Int) → (k.wrap i = i ↔ k.Holds i) ∧
        (s.requireStack 1 = .ok () → k.Holds i → ∃ y : Double, y.equals x = true ∧
          (pushValue host b (.mk type name (.enum cases)) (.int (k.wrap i)) path).exec w =
            (.ok (), w.setHeap br.heapId (s.push (.number y))))) ∧
      ((∀ i : Int, 0 ≤ i → i < (cases.length : Int) → k.wrap i = i) ↔ cases.length ≤ k.ordinals) := by
  obtain ⟨hne, k, hk⟩ := Codec.regular_compileAt wit expected place hc
  have hread : (requireValue b (.mk type name (.enum cases)) j path).exec w = _ :=
    (exec_requireValue j path hb).trans (exec_requireCase hk hs hv path)
  refine ⟨k, hk, fun v w' => ?_, fun hbad => ?_, fun i hi hlow hhigh => ⟨k.wrap_eq_self_iff i, ?_⟩, ?_⟩
  · rw [hread]
    rcases caseOf_eq cases name x path with ⟨i, hi, hlow, hhigh, he⟩ | ⟨hbad, he⟩
    · rw [he]
      simp only [Prod.mk.injEq, Except.ok.injEq]
      constructor
      · rintro ⟨rfl, rfl⟩
        exact ⟨rfl, i, hi, hlow, hhigh, rfl⟩
      · rintro ⟨rfl, i', hi', -, -, rfl⟩
        exact ⟨by rw [Option.some.inj (hi.symm.trans hi')], rfl⟩
    · rw [he]
      simp only [Prod.mk.injEq, reduceCtorEq, false_and, false_iff]
      rintro ⟨-, i, hi, hlow, hhigh, -⟩
      exact hbad i hi ⟨hlow, hhigh⟩
  · rw [hread]
    rcases caseOf_eq cases name x path with ⟨i, hi, hlow, hhigh, -⟩ | ⟨-, he⟩
    · exact absurd ⟨hlow, hhigh⟩ (hbad i hi)
    · rw [he]
  · intro hroom hholds
    refine ⟨Double.ofInt i, Double.equals_of_toInt? (Double.toInt?_ofInt hi) hi, ?_⟩
    rw [exec_pushValue host _ path hb hs hroom, (k.wrap_eq_self_iff i).mpr hholds, pushShape, if_pos ⟨hlow, hhigh⟩]
    exact M.exec_modifyHeap hs _
  · constructor
    · intro hall
      have hpos : 0 < cases.length := List.length_pos_iff.mpr hne
      have hlast := hall ((cases.length : Int) - 1) (by omega) (by omega)
      have := (k.holds_iff_lt_ordinals (by omega)).mp ((k.wrap_eq_self_iff _).mp hlast)
      omega
    · intro hle i hlow hhigh
      exact (k.wrap_eq_self_iff i).mpr ((k.holds_iff_lt_ordinals hlow).mpr (by omega))

open Bridge in
/-- The last of 129 cases is read as a negative integer where the native type has eight digits. -/
theorem cases_cross_many : ∃ cases : List String, cases.length = 129 ∧
    (requireValue 0 (.mk (.int .int8) "many" (.enum cases)) (-1) []).exec
      ((holdsNumber (Double.ofInt 128)).world 2 false) =
        (.ok (.int (-128)), (holdsNumber (Double.ofInt 128)).world 2 false) ∧
    ¬ cases.length ≤ IntType.int8.ordinals := by
  obtain ⟨br, hb, s, hs, hv⟩ : ∃ br, ((holdsNumber (Double.ofInt 128)).world 2 false).bridges[0]? = some br ∧
    ∃ s, ((holdsNumber (Double.ofInt 128)).world 2 false).heaps[br.heapId]? = some s ∧
      s.value? (-1) = some (.number (Double.ofInt 128)) := by decide +kernel
  have hc : Codec.compileAt (.defined (.mk 0 (some "many") (.enum (List.replicate 129 "case")))) (.int .int8) [] =
      .ok (.mk (.int .int8) "many" (.enum (List.replicate 129 "case"))) := rfl
  obtain ⟨k, hk, hread, -⟩ := cases_cross hc hb hs hv (hostAt 2) []
  obtain rfl : IntType.int8 = k := Option.some.inj hk
  have hlength : (List.replicate 129 "case").length = 129 := List.length_replicate
  refine ⟨_, hlength, (hread _ _).mpr ⟨rfl, 128, by decide +kernel, by decide, ?_, rfl⟩, ?_⟩
  · rw [hlength]
    decide
  · rw [hlength]
    decide

end Tether
