import Tether.Proofs.Calls

/-!
# Counts of values

Callers give counts of values in 64 bits, and the checks add and subtract in 64 bits. Where a sum or a
difference has more, it wraps, and a check passes that should not.
-/

namespace Tether

open M

variable {h : HeapId} {s : Heap} {w : World} {host : Host} {n : Int64} {x : M Unit}

namespace Heap

theorem wrapCount_cases {k : Int} (hlow : -2 ^ 64 ≤ k) (hhigh : k < 2 ^ 64) :
    -2 ^ 63 ≤ k ∧ k < 2 ^ 63 ∧ wrapCount k = k ∨ 2 ^ 63 ≤ k ∧ wrapCount k = k - 2 ^ 64 ∨
      k < -2 ^ 63 ∧ wrapCount k = k + 2 ^ 64 := by
  have hwrap : wrapCount k = k.bmod (2 ^ 64) := Int64.toInt_ofInt
  rw [hwrap, Int.bmod_def]
  omega

theorem requireStack_eq_ok_iff (hsize : s.stack.size < 2 ^ 63) (hpos : 0 < s.limits.stack)
    (hlimit : s.limits.stack < 2 ^ 63) : s.requireStack n.toInt = .ok () ↔
      0 ≤ n.toInt ∧ (s.stack.size + n.toInt ≤ s.limits.stack ∨ 2 ^ 63 ≤ s.stack.size + n.toInt) := by
  have hn := n.toInt_lt
  unfold requireStack
  by_cases hneg : n.toInt < 0
  · simp only [if_pos hneg, reduceCtorEq, false_iff]
    omega
  · have hwrap := wrapCount_cases (k := s.stack.size + n.toInt) (by omega) (by omega)
    rw [if_neg hneg]
    split
    case isTrue hfull =>
      simp only [reduceCtorEq, false_iff]
      omega
    case isFalse hroom =>
      simp only [true_iff]
      omega

theorem mismatch_ne_invalidInput {i : Int} {want detail : String} :
    s.mismatch i want ≠ .fault (.invalidInput .heap detail) := by
  unfold mismatch typeName typeOf
  cases s.value? i with
  | none => simp [Fault.invalidInput, Kind.typeMismatch, Kind.invalidInput]
  | some v =>
    cases v with
    | object p => cases hp : s.object? p <;> simp [hp, Fault.invalidInput, Kind.typeMismatch, Kind.invalidInput]
    | _ => simp [Fault.invalidInput, Kind.typeMismatch, Kind.invalidInput]

namespace Calling

variable (c : Calling)

def begin (host : Host) (h : HeapId) (n : Int) : M Unit :=
  match c with
  | .call => Heap.call host h n
  | .method => Heap.callMethod host h n
  | .prop i k => Heap.callProp host h i k n

/-- The same call that leaves an error object if it fails, where there is one. -/
def beginGuarded? (host : Host) (h : HeapId) (n : Int) : Option (M Unit) :=
  match c with
  | .call => some (Heap.pcall host h n)
  | .method => some (Heap.pcallMethod host h n)
  | .prop .. => none

def refusal : Calling → Fault
  | .call => .invalidInput .heap "call: not enough values on stack"
  | .method => .invalidInput .heap "call method: not enough values on stack"
  | .prop .. => .invalidInput .heap "call property: invalid index"

/-- A call cannot be begun: the count is negative, or the frame does not supply what the call takes. -/
def Refused (s : Heap) (n : Int) : Prop := n < 0 ∨ ¬ c.Supplied s n.toNat

/-- The position of the function of a method call wraps: the stack is empty and the count is the largest. -/
def Overruns (s : Heap) (n : Int) : Prop := c = .method ∧ s.stack.size = 0 ∧ n = 2 ^ 63 - 1

variable {c : Calling}

theorem begin_eq_run (hn : ¬ n.toInt < 0) : c.begin host h n.toInt = c.run host h n.toInt.toNat := by
  cases c <;> simp only [begin, run, Int.toNat_of_nonneg (Int.not_lt.mp hn)]

section

variable (hs : w.heaps[h]? = some s) (hcount : s.Countable)
include hs hcount

theorem exec_refused (host : Host) (hrefused : c.Refused s n.toInt) (hfits : ¬ c.Overruns s n.toInt) :
    (c.begin host h n.toInt).exec w = (.error (.fault c.refusal), w) := by
  have hlow := n.le_toInt
  have hhigh := n.toInt_lt
  unfold Countable at hcount
  cases c with
  | call =>
    have hwrap := wrapCount_cases (k := s.stack.size - n.toInt - 1) (by omega) (by omega)
    have hshort : n.toInt < 0 ∨ ¬ s.bottom + (n.toInt.toNat + 1) ≤ s.stack.size := hrefused
    show (Heap.call host h n.toInt).exec w = _
    unfold Heap.call
    rw [bind_ok (exec_heap hs), if_pos (by omega)]
    rfl
  | method =>
    have hwrap := wrapCount_cases (k := s.stack.size - n.toInt - 2) (by omega) (by omega)
    have hshort : n.toInt < 0 ∨ ¬ s.bottom + (n.toInt.toNat + 2) ≤ s.stack.size := hrefused
    have hfits : ¬ (s.stack.size = 0 ∧ n.toInt = 2 ^ 63 - 1) := fun h => hfits ⟨rfl, h⟩
    show (Heap.callMethod host h n.toInt).exec w = _
    unfold callMethod
    rw [bind_ok (exec_heap hs), if_pos (by omega)]
    rfl
  | prop i k =>
    have hshort : n.toInt < 0 ∨ ¬ (s.bottom + n.toInt.toNat ≤ s.stack.size ∧ (s.value? i).isSome = true) := hrefused
    show (Heap.callProp host h i k n.toInt).exec w = _
    unfold callProp
    rw [bind_ok (exec_heap hs)]
    cases hv : s.value? i with
    | none => rfl
    | some v =>
      rw [hv] at hshort
      simp only [Option.isSome_some, and_true] at hshort
      simp only
      rw [if_pos (by unfold top; omega)]
      rfl

omit hcount in
theorem exec_overruns (host : Host) (hbottom : s.bottom ≤ s.stack.size) (hover : c.Overruns s n.toInt) :
    (c.begin host h n.toInt).exec w = (.error (.crash .runtime), w) := by
  obtain ⟨rfl, hempty, hn⟩ := hover
  have hwrap := wrapCount_cases (k := s.stack.size - n.toInt - 2) (by omega) (by omega)
  have hnone : s.stack[(wrapCount (s.stack.size - n.toInt - 2)).toNat + 1]? = none :=
    Array.getElem?_eq_none (by omega)
  show (Heap.callMethod host h n.toInt).exec w = _
  unfold callMethod
  rw [bind_ok (exec_heap hs), if_neg (by omega), hnone]
  rfl

theorem exec_begun (host : Host) (hrefused : ¬ c.Refused s n.toInt) :
    (∀ s1 t, c.site? s n.toInt.toNat = some (s1, t) →
      (c.begin host h n.toInt).exec w = (t.call host h).exec (w.setHeap h s1)) ∧
    (c.site? s n.toInt.toNat = none → ∃ e, e ≠ .fault c.refusal ∧
      (c.begin host h n.toInt).exec w = (.error e, w.setHeap h (s.truncate (s.stack.size - n.toInt.toNat)))) := by
  obtain ⟨hnat, hsup⟩ := not_or.mp hrefused
  have hsup : c.Supplied s n.toInt.toNat := Classical.not_not.mp hsup
  rw [begin_eq_run hnat]
  refine ⟨fun s1 t hsite => hsup.exec_run host hs hcount hsite, fun hsite => ?_⟩
  cases c with
  | call => simp [site?] at hsite
  | method =>
    have hnargs : s.bottom + (n.toInt.toNat + 2) ≤ s.stack.size := hsup
    rw [site?, Option.map_eq_none_iff, Array.getElem?_eq_none_iff] at hsite
    omega
  | prop i k =>
    obtain ⟨hnargs, hslot⟩ : s.bottom + n.toInt.toNat ≤ s.stack.size ∧ (s.value? i).isSome = true := hsup
    obtain ⟨v, hv⟩ := Option.isSome_iff_exists.mp hslot
    have hno : v.object? = none := by
      rw [site?, Option.map_eq_none_iff, hv] at hsite
      exact hsite
    exact ⟨_, mismatch_ne_invalidInput, exec_callProp_other host hs _ hnargs k hv hno⟩

/-- What a refused call loses: a method call with one argument too few for none takes the top value away. -/
def remainder (c : Calling) (s : Heap) (n : Int) : Heap :=
  match c with
  | .method => if n = -1 ∧ s.bottom < s.stack.size then s.truncate (s.stack.size - 1) else s
  | _ => s

theorem exec_guarded_refused (hrefused : c.Refused s n.toInt) (hfits : ¬ c.Overruns s n.toInt)
    (hx : c.beginGuarded? host h n.toInt = some x) : x.exec w = (do
      pushError host h (some c.refusal)
      fail c.refusal : M Unit).exec (w.setHeap h (c.remainder s n.toInt)) := by
  have hrefuse := exec_refused hs hcount host hrefused hfits
  have hcaught : (catchFault (c.begin host h n.toInt)).exec w = (.ok (.error c.refusal), w) := by
    rw [exec_catchFault, hrefuse]
    rfl
  have hlow := n.le_toInt
  have hhigh := n.toInt_lt
  unfold Countable at hcount
  cases c with
  | call =>
    cases hx
    have hwrap := wrapCount_cases (k := s.stack.size - n.toInt - 1) (by omega) (by omega)
    have hshort : n.toInt < 0 ∨ ¬ s.bottom + (n.toInt.toNat + 1) ≤ s.stack.size := hrefused
    unfold pcall
    rw [bind_ok (exec_heap hs)]
    refine (bind_ok hcaught).trans ?_
    unfold leaveError
    rw [bind_ok (exec_modifyHeap hs _), if_neg (by omega)]
    rfl
  | method =>
    cases hx
    have hwrap := wrapCount_cases (k := s.stack.size - n.toInt - 2) (by omega) (by omega)
    have hshort : n.toInt < 0 ∨ ¬ s.bottom + (n.toInt.toNat + 2) ≤ s.stack.size := hrefused
    unfold pcallMethod
    rw [bind_ok (exec_heap hs)]
    refine (bind_ok hcaught).trans ?_
    unfold leaveError remainder
    rw [bind_ok (exec_modifyHeap hs _)]
    by_cases hone : n.toInt = -1 ∧ s.bottom < s.stack.size
    · rw [if_pos (by omega), if_pos hone]
      congr 3
      omega
    · rw [if_neg (by omega), if_neg hone]
  | prop i k => simp [beginGuarded?] at hx

omit hcount in
theorem exec_guarded_overruns (hbottom : s.bottom ≤ s.stack.size) (hover : c.Overruns s n.toInt)
    (hx : c.beginGuarded? host h n.toInt = some x) : x.exec w = (.error (.crash .runtime), w) := by
  have hcrash := exec_overruns hs host hbottom hover
  obtain ⟨rfl, -, -⟩ := hover
  cases hx
  have hcaught : (catchFault (begin .method host h n.toInt)).exec w = (.error (.crash .runtime), w) := by
    rw [exec_catchFault, hcrash]
    rfl
  exact (bind_ok (exec_heap hs)).trans (bind_error hcaught)

theorem exec_guarded_begun (hrefused : ¬ c.Refused s n.toInt) (hx : c.beginGuarded? host h n.toInt = some x) :
    x.exec w = (do
      match ← catchFault (c.begin host h n.toInt) with
      | .ok () => return ()
      | .error f => leaveError host h (c.position s n.toInt.toNat) f : M Unit).exec w := by
  obtain ⟨hnat, hsup⟩ := not_or.mp hrefused
  have hn := Int.toNat_of_nonneg (Int.not_lt.mp hnat)
  have hx : c.guarded? host h n.toInt.toNat = some x := by
    rw [← hx]
    cases c <;> simp only [guarded?, beginGuarded?, hn]
  have hguarded := Supplied.guarded host hs hcount (Classical.not_not.mp hsup) hx
  rw [← begin_eq_run hnat] at hguarded
  exact hguarded

end

end Calling

end Heap

open Heap

/-- **Counts are checked** in 64 bits. A reservation is granted if it is not negative and the stack with it is
within the limit, but also if their sum has more than 63 bits; the check is right exactly if it has not. Take
any way to call, with any count of arguments. If the count is negative or the frame has too few values (or the
index of the receiver names none), the call is refused: it fails as invalid input and nothing has changed, and
the guarded way then pushes the error object, for a method call with the count -1 in place of the top value.
The only exception is a method call with the largest count on an empty stack, which crashes. Otherwise the call
is made where it stands, unless its receiver is no object. -/
theorem counts_checked (host : Host) (w : World) (h : HeapId) (s : Heap) (n : Int64)
    (hs : w.heaps[h]? = some s) (hbottom : s.bottom ≤ s.stack.size) (hcount : s.Countable)
    (hpos : 0 < s.limits.stack) (hlimit : s.limits.stack < 2 ^ 63) :
    ((s.requireStack n.toInt = .ok () ↔ 0 ≤ n.toInt ∧
        (s.stack.size + n.toInt ≤ s.limits.stack ∨ 2 ^ 63 ≤ s.stack.size + n.toInt)) ∧
      ((s.requireStack n.toInt = .ok () ↔ 0 ≤ n.toInt ∧ s.stack.size + n.toInt ≤ s.limits.stack) ↔
        s.stack.size + n.toInt < 2 ^ 63)) ∧
    ∀ c : Calling, (c.Refused s n.toInt → ¬ c.Overruns s n.toInt →
        (c.begin host h n.toInt).exec w = (.error (.fault c.refusal), w) ∧
        ∀ x, c.beginGuarded? host h n.toInt = some x → x.exec w = (do
          pushError host h (some c.refusal)
          fail c.refusal : M Unit).exec (w.setHeap h (c.remainder s n.toInt))) ∧
      (c.Overruns s n.toInt → c.Refused s n.toInt ∧ (c.begin host h n.toInt).exec w = (.error (.crash .runtime), w) ∧
        ∀ x, c.beginGuarded? host h n.toInt = some x → x.exec w = (.error (.crash .runtime), w)) ∧
      (¬ c.Refused s n.toInt → (∀ s1 t, c.site? s n.toInt.toNat = some (s1, t) →
          (c.begin host h n.toInt).exec w = (t.call host h).exec (w.setHeap h s1)) ∧
        (c.site? s n.toInt.toNat = none → ∃ e, e ≠ .fault c.refusal ∧ (c.begin host h n.toInt).exec w =
          (.error e, w.setHeap h (s.truncate (s.stack.size - n.toInt.toNat)))) ∧
        ∀ x, c.beginGuarded? host h n.toInt = some x → x.exec w = (do
          match ← catchFault (c.begin host h n.toInt) with
          | .ok () => return ()
          | .error f => leaveError host h (c.position s n.toInt.toNat) f : M Unit).exec w) := by
  have hsize : s.stack.size < 2 ^ 63 := Nat.lt_of_le_of_lt (Nat.le_add_right _ 2) hcount
  have hgranted := requireStack_eq_ok_iff (n := n) hsize hpos hlimit
  refine ⟨⟨hgranted, ?_⟩, fun c => ⟨fun hr hf => ?_, fun hover => ?_, fun hr => ?_⟩⟩
  · rw [hgranted]
    omega
  · exact ⟨Calling.exec_refused hs hcount host hr hf, fun x hx => Calling.exec_guarded_refused hs hcount hr hf hx⟩
  · refine ⟨.inr fun hsup => ?_, Calling.exec_overruns hs host hbottom hover,
      fun x hx => Calling.exec_guarded_overruns hs hbottom hover hx⟩
    obtain ⟨rfl, hempty, -⟩ := hover
    have hsup : s.bottom + (n.toInt.toNat + 2) ≤ s.stack.size := hsup
    omega
  · obtain ⟨hcalled, hother⟩ := Calling.exec_begun hs hcount host hr
    exact ⟨hcalled, hother, fun x hx => Calling.exec_guarded_begun hs hcount hr hx⟩

def holdingNulls (n : Nat) : Heap := { limits := ⟨10, 10, 0⟩, storage := .blocks, stack := Array.replicate n .null }

/-- With one value on the stack the largest reservation is granted; on an empty stack the largest count of
arguments of a method crashes. -/
theorem counts_checked_largest : (holdingNulls 1).requireStack (2 ^ 63 - 1) = .ok () ∧
    (callMethod (hostAt 0) 0 (2 ^ 63 - 1)).exec { heaps := #[holdingNulls 0] } =
      (.error (.crash .runtime), { heaps := #[holdingNulls 0] }) :=
  ⟨(counts_checked (hostAt 0) { heaps := #[holdingNulls 1] } 0 _ Int64.maxValue rfl (by decide)
      (by unfold Heap.Countable; decide) (by decide) (by decide)).1.1.mpr (by decide),
    ((counts_checked (hostAt 0) { heaps := #[holdingNulls 0] } 0 _ Int64.maxValue rfl (by decide)
      (by unfold Heap.Countable; decide) (by decide) (by decide)).2 .method |>.2.1 ⟨rfl, rfl, by decide⟩).2.1⟩

end Tether
