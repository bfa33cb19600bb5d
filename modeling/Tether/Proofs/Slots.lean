import Tether.Proofs.Amendments

/-!
# The top of a stack

What the operations on the stack do right after values were pushed: the heap is written as the one
below with those values pushed onto it.
-/

namespace Tether.Heap

variable {s : Heap} {u v x : Value}

theorem size_push : (s.push v).stack.size = s.stack.size + 1 := Array.size_push _

theorem bottom_push : (s.push v).bottom = s.bottom := rfl

theorem position?_neg {k : Nat} (hk : 0 < k) (hle : s.bottom + k ≤ s.stack.size) :
    s.position? (-(k : Int)) = some (s.stack.size - k) := by
  unfold position?
  have hneg : -(k : Int) < 0 := by omega
  rw [if_neg (by omega)]
  congr 1
  omega

theorem position?_nat {k : Nat} (hlt : s.bottom + k < s.stack.size) :
    s.position? (k : Int) = some (s.bottom + k) := by
  unfold position?
  rw [if_neg (by omega), if_neg (by omega)]
  congr 1

theorem value?_zero (s : Heap) : s.value? 0 = s.stack[s.bottom]? := by
  unfold value? position?
  simp only [Int.lt_irrefl, if_false]
  split
  · exact (Array.getElem?_eq_none (by omega)).symm
  · rfl

variable (hs : s.bottom ≤ s.stack.size)
include hs

theorem position?_push (v : Value) : (s.push v).position? (-1) = some s.stack.size :=
  (position?_neg (k := 1) (by omega) (by rw [size_push, bottom_push]; omega)).trans (by rw [size_push]; rfl)

theorem value?_push (v : Value) : (s.push v).value? (-1) = some v := by
  rw [value?, position?_push hs]
  exact Array.getElem?_push_size

theorem position?_push_push (u v : Value) : ((s.push u).push v).position? (-2) = some s.stack.size :=
  (position?_neg (k := 2) (by omega) (by simp only [size_push, bottom_push]; omega)).trans
    (by simp only [size_push]; rfl)

theorem value?_push_push (u v : Value) : ((s.push u).push v).value? (-2) = some u := by
  rw [value?, position?_push_push hs]
  show ((s.stack.push u).push v)[s.stack.size]? = _
  rw [Array.getElem?_push, if_neg (by rw [Array.size_push]; omega)]
  exact Array.getElem?_push_size

theorem value?_push_push_push (u v x : Value) : (((s.push u).push v).push x).value? (-3) = some u := by
  have hp : (((s.push u).push v).push x).position? (-3) = some s.stack.size :=
    (position?_neg (k := 3) (by omega) (by simp only [size_push, bottom_push]; omega)).trans
      (by simp only [size_push]; rfl)
  rw [value?, hp]
  show (((s.stack.push u).push v).push x)[s.stack.size]? = _
  rw [Array.getElem?_push, if_neg (by simp only [Array.size_push]; omega), Array.getElem?_push,
    if_neg (by rw [Array.size_push]; omega)]
  exact Array.getElem?_push_size

theorem operand_push (what : String) (v : Value) : (s.push v).operand what = .ok v := by
  unfold operand top
  rw [if_neg (by rw [size_push, bottom_push]; omega)]
  congr 1
  show (s.stack.push v).back?.getD _ = v
  rw [Array.back?_push]
  rfl

theorem popN_push (v : Value) : (s.push v).popN 1 = .ok s := by
  unfold popN top truncate
  rw [if_neg (by rw [size_push, bottom_push]; omega)]
  congr 1
  show { s with stack := (s.stack.push v).take ((s.stack.push v).size - 1) } = s
  rw [Array.size_push, Nat.add_sub_cancel, Array.take_eq_extract, Array.extract_push_of_le (Nat.le_refl _),
    Array.extract_size]

theorem dup_push (v : Value) : (s.push v).dup (-1) = .ok ((s.push v).push v) := by
  unfold dup position
  rw [position?_push hs]
  show Except.ok ((s.push v).push ((s.stack.push v)[s.stack.size]?.getD _)) = _
  rw [Array.getElem?_push_size]
  rfl

theorem swap_push (u v : Value) : ((s.push u).push v).swap (-1) (-2) = .ok ((s.push v).push u) := by
  have hu : (s.push u).bottom ≤ (s.push u).stack.size := by rw [size_push, bottom_push]; omega
  unfold swap position
  rw [position?_push hu, position?_push_push hs, size_push]
  show Except.ok { s with stack := ((s.stack.push u).push v).swapIfInBounds (s.stack.size + 1) s.stack.size } =
    Except.ok { s with stack := (s.stack.push v).push u }
  have hsize : ((s.stack.push u).push v).size = s.stack.size + 2 := by rw [Array.size_push, Array.size_push]
  rw [Array.swapIfInBounds_def, dif_pos (by omega), dif_pos (by omega)]
  congr 2
  apply Array.ext'
  simp [Array.swap, Array.getElem_push]

omit hs

theorem value?_push_below {i : Int} (hi : 0 ≤ i) (hv : s.value? i = some v) (u : Value) :
    (s.push u).value? i = some v := by
  unfold value? at hv ⊢
  obtain ⟨a, ha, hv⟩ := Option.bind_eq_some_iff.mp hv
  have hp : (s.push u).position? i = some a := by
    have hneg : ¬ i < 0 := by omega
    unfold position? at ha ⊢
    simp only [hneg, if_false, bottom_push, size_push] at ha ⊢
    split at ha
    · simp at ha
    · rw [if_neg (by omega)]
      exact ha
  rw [hp]
  exact push_of_some hv

/-! ## Hidden properties of an object on the stack -/

section Hidden

variable {i : Int} {p : HeapPtr} {o : Object}

theorem requireObject_eq (hv : s.value? i = some (.object p)) : s.requireObject i = .ok p := by
  unfold requireObject
  rw [hv]

theorem deref_eq (ho : s.object? p = some o) : s.deref p = .ok o := by
  unfold deref
  rw [ho]

theorem getHidden_eq (hv : s.value? i = some (.object p)) (ho : s.object? p = some o) (k : String) :
    s.getHidden i k = .ok ((o.hidden.get? k).isSome, s.push ((o.hidden.get? k).getD .undefined)) := by
  unfold getHidden
  rw [requireObject_eq hv]
  show (s.deref p >>= _) = _
  rw [deref_eq ho]
  simp only [bind, Except.bind]
  cases o.hidden.get? k <;> rfl

theorem getHidden_missing (hv : s.value? i = some (.object p)) (ho : s.object? p = none)
    (k : String) : s.getHidden i k = .error (.crash .runtime) := by
  unfold getHidden
  rw [requireObject_eq hv]
  show (s.deref p >>= _) = _
  unfold deref
  rw [ho]
  rfl

theorem getHidden_mismatch (hv : ∀ p, s.value? i ≠ some (.object p)) (k : String) :
    s.getHidden i k = .error (s.mismatch i "object") := by
  have hreq : s.requireObject i = .error (s.mismatch i "object") := by
    unfold requireObject
    split
    case h_1 p hp => exact absurd hp (hv p)
    case h_2 => rfl
  unfold getHidden
  rw [hreq]
  rfl

theorem popN_modifyObject (hs : s.bottom ≤ s.stack.size) (v : Value) (p : HeapPtr)
    (f : Object → Object) : ((s.push v).modifyObject p f).popN 1 = .ok (s.modifyObject p f) :=
  popN_push (s := s.modifyObject p f) hs v

theorem putHidden_push (hs : s.bottom ≤ s.stack.size) (hv : (s.push v).value? i = some (.object p))
    (ho : s.object? p = some o) (k : String) :
    (s.push v).putHidden i k = .ok (s.modifyObject p fun o => { o with hidden := o.hidden.put k v }) := by
  have hderef : (s.push v).deref p = .ok o := deref_eq ho
  unfold putHidden
  rw [requireObject_eq hv, operand_push hs]
  simp only [bind, Except.bind, hderef]
  exact popN_modifyObject hs v p _

theorem object_of_hasHidden {k : String} {b : Bool} (hv : s.value? i = some (.object p))
    (he : s.hasHidden i k = .ok b) : ∃ o, s.object? p = some o ∧ o.hidden.has k = b := by
  unfold hasHidden deref at he
  rw [hv] at he
  cases ho : s.object? p with
  | none =>
    simp only [ho] at he
    simp [Except.map] at he
  | some o =>
    simp only [ho] at he
    exact ⟨o, rfl, Except.ok.inj he⟩

end Hidden

end Tether.Heap
