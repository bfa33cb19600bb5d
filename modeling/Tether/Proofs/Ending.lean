import Tether.Proofs.Calls
import Tether.Proofs.Following

/-!
# How work on a stack ends

A computation succeeds, stops with a fault, or crashes. What it leaves on a stack is said for the first
two, each on its own.
-/

namespace Tether

open M Heap

variable {h : HeapId} {s s' s0 : Heap} {α β : Type} {R : Regime} {E : World → Prop} {vs us : List Value}
  {v : Value} {i : Int} {φ : Prop} {w w' : World} {e : Fault} {y : M Unit} {c : Prop}
  {f : Heap → Except Stop Heap} {what : String} {n : Int} {p : HeapPtr} {found : Bool}

/-! ## Computations without faults -/

namespace M

theorem exec_bind_eq_fault {x : M α} {f : α → M β} (h : (x >>= f).exec w = (.error (.fault e), w')) :
    x.exec w = (.error (.fault e), w') ∨
      ∃ a w1, x.exec w = (.ok a, w1) ∧ (f a).exec w1 = (.error (.fault e), w') := by
  rcases hx : x.exec w with ⟨r | a, w1⟩
  · rw [bind_error hx] at h
    obtain ⟨hr, rfl⟩ := Prod.mk.inj h
    exact .inl (by rw [Except.error.inj hr])
  · rw [bind_ok hx] at h
    exact .inr ⟨a, w1, rfl, h⟩

variable (x : M α)

def Sure : Prop := ∀ w f w', x.exec w ≠ (.error (.fault f), w')

theorem Sure.bind {x : M α} {f : α → M β} (hx : Sure x) (hf : ∀ a, Sure (f a)) : Sure (x >>= f) := by
  intro w e w' he
  rcases exec_bind_eq_fault he with he | ⟨a, w1, -, he⟩
  · exact hx w e w' he
  · exact hf a w1 e w' he

theorem sure_pure (a : α) : Sure (pure a : M α) := fun _ _ _ he => by simp at he

theorem sure_modify (f : World → World) : Sure (modify f : M Unit) := fun _ _ _ he => by simp at he

theorem sure_need (x : Option α) : Sure (need x) := by
  intro w f w' he
  cases x with
  | none => simp [exec_need_none] at he
  | some a => simp [exec_need_some] at he

theorem sure_look (f : World → Option α) : Sure (do need (f (← get)) : M α) :=
  Sure.bind (fun _ _ _ he => by simp at he) fun w => sure_need (f w)

theorem sure_log (enabled : Bool) (level : LogLevel) (message : String)
    (fields : List (String × LogValue)) : Sure (log enabled level message fields) := by
  intro w f w' he
  obtain ⟨log, hlog⟩ := exec_log enabled level message fields w
  cases hlog.symm.trans he

theorem sure_readHeap {f : Heap → Except Stop α} (hf : ∀ s e, f s ≠ .error (.fault e)) : Sure (readHeap h f) := by
  refine (sure_look _).bind fun s w e w' he => ?_
  cases hs : f s with
  | ok a => exact absurd (congrArg Prod.fst he) (by simp [hs])
  | error g =>
    have hg : Except.error g = (Except.error (.fault e) : Except Stop α) := by
      simpa [hs, ofStop] using congrArg Prod.fst he
    exact hf s e (hs.trans hg)

theorem sure_catchFault : Sure (catchFault x) := by
  intro w f w' he
  rw [exec_catchFault] at he
  rcases hx : x.exec w with ⟨(e | c) | a, w1⟩ <;> rw [hx] at he <;> simp [caught] at he

theorem Sure.andFinally {x : M α} (hx : Sure x) (hy : Sure y) : Sure (andFinally x y) := by
  intro w f w' he
  rcases hend : y.exec (x.after w) with ⟨e | ⟨⟩, w2⟩
  · rw [exec_andFinally_error hend] at he
    obtain ⟨rfl, -⟩ : e = .fault f ∧ w2 = w' := by simpa using he
    exact hy _ f _ hend
  · rw [exec_andFinally_ok hend] at he
    exact hx w f (x.after w) (Prod.ext (Prod.mk.inj he).1 rfl)

theorem Sure.ite [Decidable c] {x y : M α} (hx : Sure x) (hy : Sure y) : Sure (if c then x else y) := by
  split
  · exact hx
  · exact hy

theorem Sure.forM {l : List β} {f : β → M PUnit} (hf : ∀ b ∈ l, Sure (f b)) : Sure (l.forM f) := by
  induction l with
  | nil => exact sure_pure _
  | cons b rest ih =>
    exact (hf b List.mem_cons_self).bind fun _ => ih fun c hc => hf c (List.mem_cons_of_mem _ hc)

end M

namespace Heap

open M

variable {host : Host}

theorem sure_runFinalizer (p : HeapPtr) : Sure (runFinalizer host h p) := by
  refine (sure_look _).bind fun s => (sure_need _).bind fun o => (sure_modify _).bind fun _ =>
    (sure_modify _).bind fun _ => (sure_catchFault _).bind fun r => ?_
  cases r with
  | ok _ => exact sure_modify _
  | error f =>
    exact (sure_look _).bind fun _ => (sure_need _).bind fun _ => (sure_log _ _ _ _).bind fun _ =>
      sure_modify _

theorem sure_free (p : HeapPtr) : Sure (free h p) := by
  refine Sure.bind ((sure_look _).bind fun s => (sure_modify _).bind fun _ => ?_) fun _ => sure_modify _
  split
  · exact sure_log _ _ _ _
  · exact sure_pure _

theorem sure_collect : Sure (collect host h) := by
  refine (sure_look _).bind fun s => .ite (sure_pure _) ?_
  refine (sure_modify _).bind fun _ => (sure_modify _).bind fun _ => .andFinally ?_ (sure_modify _)
  have hfinalize : Sure (finalizeGarbage host h) :=
    (sure_look _).bind fun _ => (Sure.forM fun e _ => (sure_modify _).bind fun _ =>
      sure_runFinalizer e.1).bind fun _ => sure_pure _
  refine hfinalize.bind fun k => Sure.bind ?_ fun _ => (sure_modify _).bind fun _ =>
    (sure_look _).bind fun _ => (sure_log _ _ _ _).bind fun _ => sure_pure _
  exact (sure_look _).bind fun _ => (Sure.forM fun e _ => sure_free e.1).bind fun _ => sure_pure _

theorem sure_maybeCollect : Sure (maybeCollect host h) :=
  (sure_look _).bind fun _ => .ite (sure_collect.bind fun _ => sure_pure _) (sure_pure _)

theorem sure_pushNew (o : Object) : Sure (pushNew host h o) := by
  refine Sure.bind (sure_maybeCollect.bind fun _ => ?_) fun p => (sure_modify _).bind fun _ =>
    (sure_look _).bind fun _ => sure_pure _
  exact (sure_look _).bind fun s => (sure_modify _).bind fun _ => sure_pure _

end Heap

/-! ## Results and faults -/

namespace Regime

/-- A computation keeps the regime. In worlds that pass a test, one fact holds where it succeeded, and
another where it stopped with a fault. -/
structure Ends (F : R.Fact) (T : R.Test) (P : World → Prop) (x : M α) (Q : α → World → Prop)
    (E : World → Prop) : Prop where
  keeps : Keeps F x
  ok : ∀ {w a w'}, R.inv w → F.holds w → P w → x.exec w = (.ok a, w') → T.passes w' → Q a w'
  fault : ∀ {w f w'}, R.inv w → F.holds w → P w → x.exec w = (.error (.fault f), w') → T.passes w' → E w'

namespace Ends

variable {F : R.Fact} {T : R.Test} {P P' : World → Prop} {Q Q' : α → World → Prop} {E' : World → Prop} {x : M α}

theorem mono (h : Ends F T P x Q E) (hP : ∀ w, P' w → P w) (hQ : ∀ a w, Q a w → Q' a w)
    (hE : ∀ w, E w → E' w) : Ends F T P' x Q' E' where
  keeps := h.keeps
  ok hw hF hp he hT := hQ _ _ (h.ok hw hF (hP _ hp) he hT)
  fault hw hF hp he hT := hE _ (h.fault hw hF (hP _ hp) he hT)

theorem pre (h : Ends F T P x Q E) (hP : ∀ w, P' w → P w) : Ends F T P' x Q E := h.mono hP (fun _ _ => id) fun _ => id

theorem post (h : Ends F T P x Q E) (hQ : ∀ a w, Q a w → Q' a w) : Ends F T P x Q' E :=
  h.mono (fun _ => id) hQ fun _ => id

theorem sure (h : Ends F T P x Q E) (hx : ∀ w f w', P w → x.exec w ≠ (.error (.fault f), w')) :
    Ends F T P x Q E' where
  keeps := h.keeps
  ok := h.ok
  fault _ _ hp he _ := absurd he (hx _ _ _ hp)

theorem bind {f : α → M β} {S : β → World → Prop} (hx : Ends F T P x Q E)
    (hf : ∀ a, Ends F T (Q a) (f a) S E) : Ends F T P (x >>= f) S E := by
  have hback : ∀ {a w1 w'} {r : Except Stop β}, R.inv w1 → F.holds w1 → (f a).exec w1 = (r, w') →
      T.passes w' → T.passes w1 := by
    intro a w1 w' r hw1 hF1 he hT
    have hg := (hf a).keeps w1 hw1 hF1
    rw [after_eq he] at hg
    exact T.back hg.2 hT
  have hstep : ∀ {w a w1}, R.inv w → F.holds w → x.exec w = (.ok a, w1) → R.inv w1 ∧ F.holds w1 := by
    intro w a w1 hw hF he
    have hg := hx.keeps w hw hF
    rw [after_eq he] at hg
    exact ⟨hg.1, F.stable hg.2 hF⟩
  refine ⟨hx.keeps.bind fun a => (hf a).keeps, fun hw hF hP he hT => ?_, fun hw hF hP he hT => ?_⟩
  · obtain ⟨a, w1, he1, he2⟩ := bind_ok_iff.mp he
    obtain ⟨hw1, hF1⟩ := hstep hw hF he1
    exact (hf a).ok hw1 hF1 (hx.ok hw hF hP he1 (hback hw1 hF1 he2 hT)) he2 hT
  · rcases exec_bind_eq_fault he with he | ⟨a, w1, he1, he2⟩
    · exact hx.fault hw hF hP he hT
    · obtain ⟨hw1, hF1⟩ := hstep hw hF he1
      exact (hf a).fault hw1 hF1 (hx.ok hw hF hP he1 (hback hw1 hF1 he2 hT)) he2 hT

variable {S : β → World → Prop}

theorem bind_exists {ι : Type} [Nonempty ι] {f : α → M β} {Q : α → ι → World → Prop}
    (hx : Ends F T P x (fun a w => ∃ i, Q a i w) E)
    (hf : ∀ a i, Ends F T (Q a i) (f a) S E) : Ends F T P (x >>= f) S E := by
  refine hx.bind fun a => ⟨(hf a (Classical.choice inferInstance)).keeps, ?_, ?_⟩
  · rintro w b w' hw hF ⟨i, hi⟩ he hT
    exact (hf a i).ok hw hF hi he hT
  · rintro w e w' hw hF ⟨i, hi⟩ he hT
    exact (hf a i).fault hw hF hi he hT

theorem of_reads (hx : M.Reads x) : Ends F T P x (fun _ => P) P where
  keeps := keeps_of_reads hx
  ok _ _ hP he _ := hx.exec he ▸ hP
  fault _ _ hP he _ := hx.exec he ▸ hP

theorem read {f : α → M β} (hx : Reads x) (hf : ∀ a, Ends F T P (f a) S P) : Ends F T P (x >>= f) S P :=
  (of_reads hx).bind hf

theorem pure {a : α} (h : ∀ w, P w → Q a w) : Ends F T P (pure a) Q E where
  keeps := keeps_pure a
  ok _ _ hP he _ := by
    obtain ⟨ha, rfl⟩ := Prod.mk.inj he
    cases ha
    exact h _ hP
  fault _ _ _ he _ := absurd (congrArg Prod.fst he) nofun

theorem fail {f : Fault} (h : ∀ w, P w → E w) : Ends F T P (fail f) Q E where
  keeps := keeps_fail f
  ok _ _ _ he _ := absurd (congrArg Prod.fst he) nofun
  fault _ _ hP he _ := (Prod.mk.inj he).2 ▸ h _ hP

theorem crash {c : Crash} : Ends F T P (crash c) Q E where
  keeps := keeps_crash c
  ok _ _ _ he _ := absurd (congrArg Prod.fst he) nofun
  fault _ _ _ he _ := absurd (congrArg Prod.fst he) nofun

theorem ite [Decidable c] {y : M α} (hx : c → Ends F T P x Q E) (hy : ¬ c → Ends F T P y Q E) :
    Ends F T P (if c then x else y) Q E := by
  split
  case isTrue h => exact hx h
  case isFalse h => exact hy h

theorem catchFault (h : Ends F T P x Q E) : Ends F T P (catchFault x) (fun r w => match r with
      | .ok a => Q a w
      | .error _ => E w) E' where
  keeps := h.keeps.catchFault
  ok hw hF hP he hT := by
    rcases exec_catchFault_eq_ok he with ⟨a, rfl, hx⟩ | ⟨f, rfl, hx⟩
    · exact h.ok hw hF hP hx hT
    · exact h.fault hw hF hP hx hT
  fault _ _ _ he _ := absurd he (sure_catchFault x _ _ _)

theorem onFault (hx : Ends F T P x Q E) (hy : Ends F T E y (fun _ => E') E') : Ends F T P (onFault x y) Q E' := by
  refine hx.catchFault.bind fun r => ?_
  cases r with
  | ok a => exact pure fun _ => id
  | error f => exact hy.bind fun _ => fail fun _ => id

theorem ignoreFault (h : Ends F T P x Q fun _ => False) : Ends F T P (ignoreFault x) (fun _ w => ∃ a, Q a w) E := by
  refine h.catchFault.bind fun r => ?_
  cases r with
  | ok a => exact pure fun _ hq => ⟨a, hq⟩
  | error f => exact pure fun _ => False.elim

theorem forM {l : List β} {f : β → M PUnit} (hf : ∀ b ∈ l, Ends F T P (f b) (fun _ => P) E) :
    Ends F T P (l.forM f) (fun _ => P) E := by
  induction l with
  | nil => exact pure fun _ => id
  | cons b rest ih =>
    exact (hf b List.mem_cons_self).bind fun _ => ih fun c hc => hf c (List.mem_cons_of_mem _ hc)

end Ends

end Regime

/-! ## Values above a stack -/

namespace Heap

/-- A heap has values on top of those of another heap, in the same frames. -/
structure Tops (s0 : Heap) (vs : List Value) (s : Heap) : Prop where
  stack : s.stack = s0.stack ++ vs.toArray
  frames : s.frames = s0.frames

/-- The index of the next value, counted from the frame's first slot. -/
def height (s : Heap) : Nat := s.stack.size - s.bottom

theorem Tops.bottom (hs : s0.Tops vs s) : s.bottom = s0.bottom := by
  unfold Heap.bottom
  rw [hs.frames]

theorem Tops.size (hs : s0.Tops vs s) : s.stack.size = s0.stack.size + vs.length := by
  rw [hs.stack]
  simp

theorem tops_self (s : Heap) : s.Tops [] s := ⟨by simp, rfl⟩

theorem Tops.of_eq (hs : s0.Tops vs s) (hstack : s'.stack = s.stack) (hframes : s'.frames = s.frames) :
    s0.Tops vs s' :=
  ⟨hstack.trans hs.stack, hframes.trans hs.frames⟩

theorem Tops.push (hs : s0.Tops vs s) (v : Value) : s0.Tops (vs ++ [v]) (s.push v) := by
  refine ⟨?_, hs.frames⟩
  show s.stack.push v = _
  rw [hs.stack]
  simp

theorem Tops.popN {k : Int} (hs : s0.Tops (vs ++ us) s) (hk : k = us.length) (he : s.popN k = .ok s') :
    s0.Tops vs s' := by
  obtain ⟨rfl, -⟩ := popN_eq he
  refine ⟨?_, hs.frames⟩
  show s.stack.take (s.stack.size - k.toNat) = _
  have hsize := hs.size
  rw [List.length_append] at hsize
  have htake : s.stack.size - k.toNat = s0.stack.size + vs.length := by omega
  rw [htake, hs.stack]
  apply Array.toList_inj.mp
  simp

theorem Tops.at_position {j : Nat} {i : Int} (hs : s0.Tops vs s) (hp : s.position? i = some (s0.stack.size + j)) :
    s.value? i = vs[j]? := by
  rw [Heap.value?, hp, hs.stack, Option.bind_some, Array.getElem?_append_right (by omega), Nat.add_sub_cancel_left,
    List.getElem?_toArray]

variable (hbot : s0.bottom ≤ s0.stack.size)
include hbot

theorem Tops.bottom_le (hs : s0.Tops vs s) : s.bottom ≤ s.stack.size := by
  rw [hs.bottom, hs.size]
  omega

theorem Tops.value? {j : Nat} (hs : s0.Tops vs s) (hv : vs[j]? = some v) :
    s.value? ((s0.height + j : Nat) : Int) = some v := by
  obtain ⟨hj, -⟩ := List.getElem?_eq_some_iff.mp hv
  have hp : s.position? ((s0.height + j : Nat) : Int) = some (s0.stack.size + j) := by
    rw [position?_nat (by rw [hs.bottom, hs.size]; unfold height; omega), hs.bottom]
    congr 1
    unfold height
    omega
  exact (hs.at_position hp).trans hv

theorem Tops.value?_neg {k : Nat} (hs : s0.Tops (vs ++ v :: us) s) (hk : k = us.length + 1) :
    s.value? (-(k : Int)) = some v := by
  have hsize := hs.size
  rw [List.length_append, List.length_cons] at hsize
  have hp : s.position? (-(k : Int)) = some (s0.stack.size + vs.length) := by
    rw [position?_neg (by omega) (by rw [hs.bottom]; omega)]
    congr 1
    omega
  rw [hs.at_position hp]
  simp

theorem Tops.value?_top (hs : s0.Tops (vs ++ [v]) s) : s.value? (-1) = some v := hs.value?_neg hbot (k := 1) rfl

theorem Tops.operand (hs : s0.Tops (vs ++ [v]) s) (what : String) : s.operand what = .ok v := by
  have hsize := hs.size
  rw [List.length_append, List.length_singleton] at hsize
  have hback : s.stack.back? = some v := by
    rw [hs.stack]
    simp
  unfold Heap.operand
  rw [if_neg (by rw [top, hs.bottom]; omega), hback]
  rfl

theorem Tops.swap {u : Value} (hs : s0.Tops (vs ++ [u, v]) s) (he : s.swap (-1) (-2) = .ok s') :
    s0.Tops (vs ++ [v, u]) s' := by
  let t : Heap := { s with stack := s0.stack ++ vs.toArray }
  have hsize : t.stack.size = s0.stack.size + vs.length := by simp [t]
  have ht : t.bottom ≤ t.stack.size := by
    rw [hsize, show t.bottom = s0.bottom from hs.bottom]
    omega
  have hst : s = (t.push u).push v := by
    obtain ⟨hstack, -⟩ := hs
    cases s
    simp [t, Heap.push] at hstack ⊢
    simp [hstack]
  rw [hst, swap_push ht] at he
  cases he
  refine ⟨?_, hs.frames⟩
  show ((s0.stack ++ vs.toArray).push v).push u = _
  simp

theorem Tops.dup (hs : s0.Tops (vs ++ [v]) s) (he : s.dup (-1) = .ok s') : s0.Tops (vs ++ [v, v]) s' := by
  obtain ⟨a, ha, hpush⟩ := bind_eq_ok.mp he
  have hvalue : s.stack[a]? = some v := by
    have hv : s.value? (-1) = some v := hs.value?_top hbot
    unfold Heap.value? at hv
    rw [position?_of_position ha] at hv
    exact hv
  cases hpush
  have := hs.push v
  rw [hvalue]
  simpa using this

end Heap

/-- A heap of a world has values on top of those that were there. What else came to be known on the way,
such as the index of a new object, does not depend on the world. -/
structure World.Above (φ : Prop) (h : HeapId) (s0 : Heap) (vs : List Value) (w : World) : Prop where
  known : φ
  heap : ∃ s, w.heaps[h]? = some s ∧ s0.Tops vs s

theorem World.Above.imp {φ ψ : Prop} {s0 : Heap} {vs : List Value} (hw : w.Above φ h s0 vs) (hφ : φ → ψ) :
    w.Above ψ h s0 vs :=
  ⟨hφ hw.known, hw.heap⟩

open World (Above)

def Heap.Takes (f : Heap → Except Stop Heap) : Prop :=
  ∀ {s s' : Heap}, f s = .ok s' → ∃ t : Heap, t.stack = s.stack ∧ t.frames = s.frames ∧ t.popN 1 = .ok s'

namespace Heap

variable {k : String}

theorem takes_edit {f : Object → Object} (he : (do let _ ← s.deref p; (s.modifyObject p f).popN 1) = .ok s') :
    ∃ s1 : Heap, s1.stack = s.stack ∧ s1.frames = s.frames ∧ s1.popN 1 = .ok s' := by
  obtain ⟨o, -, he⟩ := bind_eq_ok.mp he
  exact ⟨s.modifyObject p f, rfl, rfl, he⟩

theorem takes_put {f : Value → Object → Object} : Takes (fun s => do
    let p ← s.requireObject i
    let v ← s.operand what
    let _ ← s.deref p
    (s.modifyObject p (f v)).popN 1) := by
  intro s s' he
  obtain ⟨p, -, he⟩ := bind_eq_ok.mp he
  obtain ⟨v, -, he⟩ := bind_eq_ok.mp he
  exact takes_edit he

theorem takes_setPrototype : Takes (·.setPrototype i) := by
  intro s s' he
  obtain ⟨p, -, he⟩ := bind_eq_ok.mp he
  obtain ⟨v, -, he⟩ := bind_eq_ok.mp he
  split at he
  · split at he
    · simp at he
    · exact takes_edit he
  · exact takes_edit he
  · exact takes_edit he
  · simp at he

theorem takes_setFinalizer : Takes (·.setFinalizer i) := by
  intro s s' he
  obtain ⟨p, -, he⟩ := bind_eq_ok.mp he
  obtain ⟨v, -, he⟩ := bind_eq_ok.mp he
  split at he
  · exact takes_edit he
  · obtain ⟨f, -, he⟩ := bind_eq_ok.mp he
    split at he
    · exact takes_edit he
    · simp at he
  · simp at he

theorem popN_ne_fault : s.popN n ≠ .error (.fault e) := by
  unfold popN
  split <;> simp

theorem swap_ne_fault {j : Int} : s.swap i j ≠ .error (.fault e) := by
  unfold swap position
  split <;> split <;> simp [badIndex, bind, Except.bind, pure, Except.pure]

theorem dup_ne_fault : s.dup i ≠ .error (.fault e) := by
  unfold dup position
  split <;> simp [badIndex, bind, Except.bind, pure, Except.pure]

theorem put_ne_fault {v : Value} {f : Value → Object → Object} (hp : s.value? i = some (.object p))
    (hv : ∀ what, s.operand what = .ok v) :
    (do
      let p ← s.requireObject i
      let v ← s.operand what
      let _ ← s.deref p
      (s.modifyObject p (f v)).popN 1) ≠ .error (.fault e) := by
  rw [requireObject_eq hp, hv]
  cases ho : s.object? p with
  | none => simp [deref, ho, bind, Except.bind]
  | some o =>
    simp only [deref_eq ho, bind, Except.bind]
    exact popN_ne_fault

theorem getHidden_eq_ok (he : s.getHidden i k = .ok (found, s')) : ∃ v, s' = s.push v := by
  obtain ⟨p, -, he⟩ := bind_eq_ok.mp he
  obtain ⟨o, -, he⟩ := bind_eq_ok.mp he
  split at he
  · exact ⟨_, (Prod.mk.inj (Except.ok.inj he)).2.symm⟩
  · exact ⟨_, (Prod.mk.inj (Except.ok.inj he)).2.symm⟩

theorem getProp_eq_ok (he : s.getProp i k = .ok (found, s')) : ∃ v, s' = s.push v := by
  obtain ⟨p, -, he⟩ := bind_eq_ok.mp he
  split at he
  · exact ⟨_, (Prod.mk.inj (Except.ok.inj he)).2.symm⟩
  · exact ⟨_, (Prod.mk.inj (Except.ok.inj he)).2.symm⟩

theorem getHidden_ne_fault (hp : s.value? i = some (.object p)) : s.getHidden i k ≠ .error (.fault e) := by
  unfold getHidden
  rw [requireObject_eq hp]
  cases ho : s.object? p with
  | none => simp [deref, ho, bind, Except.bind]
  | some o =>
    simp only [deref_eq ho, bind, Except.bind]
    split <;> simp [pure, Except.pure]

end Heap

/-! ## Operations on the stack -/

namespace Regime

variable {F : R.Fact} {T : R.Test} {u : Value} {k : String}

theorem ends_fixes {x : M α} (hk : Keeps F x) (hx : M.Fixes World.heaps x) :
    Ends F T (Above φ h s0 vs) x (fun _ => Above φ h s0 vs) (Above φ h s0 vs) where
  keeps := hk
  ok _ _ := fun ⟨hφ, s, hs, hv⟩ he _ => ⟨hφ, s, by rw [hx.exec he]; exact hs, hv⟩
  fault _ _ := fun ⟨hφ, s, hs, hv⟩ he _ => ⟨hφ, s, by rw [hx.exec he]; exact hs, hv⟩

theorem ends_fixes_sure {x : M α} (hk : Keeps F x) (hx : M.Fixes World.heaps x) (hsure : M.Sure x) :
    Ends F T (Above φ h s0 vs) x (fun _ => Above φ h s0 vs) E :=
  (ends_fixes hk hx).sure fun w e w' _ => hsure w e w'

theorem ends_modifyHeap {f : Heap → Heap} (hk : Keeps F (modifyHeap h f))
    (hf : ∀ s, s0.Tops vs s → ∃ i, s0.Tops (us ++ [.object i]) (f s)) :
    Ends F T (Above φ h s0 vs) (modifyHeap h f) (fun _ w => ∃ i, Above φ h s0 (us ++ [.object i]) w) E where
  keeps := hk
  ok _ _ := fun ⟨hφ, s, hs, hv⟩ he _ => by
    rw [exec_modifyHeap hs] at he
    cases he
    obtain ⟨i, hi⟩ := hf s hv
    exact ⟨i, hφ, f s, World.get_setHeap hs _, hi⟩
  fault _ _ _ he _ := absurd he (sure_modify _ _ _ _)

theorem ends_push (hv : v.object? = none) : Ends F T (Above φ h s0 vs) (modifyHeap h (·.push v))
    (fun _ => Above φ h s0 (vs ++ [v])) E where
  keeps := keeps_push hv
  ok _ _ := fun ⟨hφ, s, hs, hv⟩ he _ => by
    rw [exec_modifyHeap hs] at he
    cases he
    exact ⟨hφ, s.push v, World.get_setHeap hs _, hv.push _⟩
  fault _ _ _ he _ := absurd he (sure_modify _ _ _ _)

theorem changeHeap_ne_fault (hf : ∀ s e, w.heaps[h]? = some s → f s ≠ .error (.fault e)) :
    (changeHeap h f).exec w ≠ (.error (.fault e), w') := by
  intro he
  cases hs : w.heaps[h]? with
  | none =>
    have := (bind_error (exec_heap_none hs)).symm.trans he
    simpa using congrArg Prod.fst this
  | some s =>
    cases hfs : f s with
    | ok s' => simpa using (exec_changeHeap_ok hs hfs).symm.trans he
    | error g =>
      have := (exec_changeHeap_error hs hfs).symm.trans he
      obtain rfl : g = .fault e := by simpa using congrArg Prod.fst this
      exact hf s e hs hfs

theorem ends_changeHeap (hk : Keeps F (changeHeap h f)) (hf : ∀ s s', s0.Tops vs s → f s = .ok s' → s0.Tops us s') :
    Ends F T (Above φ h s0 vs) (changeHeap h f) (fun _ => Above φ h s0 us) (Above φ h s0 vs) where
  keeps := hk
  ok _ _ := fun ⟨hφ, s, hs, hv⟩ he _ => by
    obtain ⟨t, s', ht, hfs, rfl⟩ := exec_changeHeap_eq_ok.mp he
    cases hs.symm.trans ht
    exact ⟨hφ, s', World.get_setHeap hs _, hf s s' hv hfs⟩
  fault {w e w'} _ _ := fun ⟨hφ, s, hs, hv⟩ he _ => by
    cases hfs : f s with
    | ok s' => simpa using (exec_changeHeap_ok hs hfs).symm.trans he
    | error g =>
      cases (exec_changeHeap_error hs hfs).symm.trans he
      exact ⟨hφ, s, hs, hv⟩

theorem ends_takes (hk : Keeps F (changeHeap h f)) (hf : Heap.Takes f) :
    Ends F T (Above φ h s0 (vs ++ [v])) (changeHeap h f) (fun _ => Above φ h s0 vs) (Above φ h s0 (vs ++ [v])) := by
  refine ends_changeHeap hk fun s s' hv he => ?_
  obtain ⟨t, hstack, hframes, hpop⟩ := hf he
  exact (hv.of_eq hstack hframes).popN rfl hpop

theorem Ends.certain {Q : Unit → World → Prop} {E' : World → Prop}
    (hx : Ends F T (Above φ h s0 vs) (changeHeap h f) Q E)
    (hf : φ → ∀ s e, s0.Tops vs s → f s ≠ .error (.fault e)) :
    Ends F T (Above φ h s0 vs) (changeHeap h f) Q E' := by
  refine hx.sure fun w e w' ⟨hφ, s, hs, hv⟩ => changeHeap_ne_fault fun t e ht => ?_
  cases hs.symm.trans ht
  exact hf hφ s e hv

theorem ends_popN (hn : n = us.length) : Ends F T (Above φ h s0 (vs ++ us))
    (changeHeap h (·.popN n)) (fun _ => Above φ h s0 vs) E :=
  (ends_changeHeap (keeps_popN h n) fun _ _ hv he => hv.popN hn he).certain fun _ _ _ _ =>
    popN_ne_fault

section Frame

variable (hbot : s0.bottom ≤ s0.stack.size)
include hbot

theorem ends_swap : Ends F T (Above φ h s0 (vs ++ [u, v])) (changeHeap h (·.swap (-1) (-2)))
    (fun _ => Above φ h s0 (vs ++ [v, u])) E :=
  (ends_changeHeap (keeps_changeHeap amends_swap) fun _ _ hv he => hv.swap hbot he).certain
    fun _ _ _ _ => swap_ne_fault

theorem ends_dup : Ends F T (Above φ h s0 (vs ++ [v])) (changeHeap h (·.dup (-1)))
    (fun _ => Above φ h s0 (vs ++ [v, v])) E :=
  (ends_changeHeap (keeps_changeHeap amends_dup) fun _ _ hv he => hv.dup hbot he).certain fun _ _ _ _ => dup_ne_fault

theorem ends_putProp (hi : φ → ∀ s, s0.Tops (vs ++ [v]) s → s.value? i = some (.object p)) :
    Ends F T (Above φ h s0 (vs ++ [v])) (changeHeap h (·.putProp i k)) (fun _ => Above φ h s0 vs) E :=
  (ends_takes (keeps_putProp h i k) takes_put).certain fun hφ s _ hv =>
    put_ne_fault (hi hφ s hv) (hv.operand hbot)

theorem ends_putHidden (hk : Keeps F (changeHeap h (·.putHidden i k)))
    (hi : φ → ∀ s, s0.Tops (vs ++ [v]) s → s.value? i = some (.object p)) :
    Ends F T (Above φ h s0 (vs ++ [v])) (changeHeap h (·.putHidden i k)) (fun _ => Above φ h s0 vs) E :=
  (ends_takes hk takes_put).certain fun hφ s _ hv =>
    put_ne_fault (hi hφ s hv) (hv.operand hbot)

theorem ends_getHidden : Ends F T (Above φ h s0 (vs ++ [.object p]))
    (onHeap h (·.getHidden (-1) k)) (fun _ w => ∃ v, Above φ h s0 (vs ++ [.object p, v]) w) E where
  keeps := keeps_onHeap amends_getHidden
  ok _ _ := fun ⟨hφ, s, hs, hv⟩ he _ => by
    obtain ⟨t, s', ht, hget, rfl⟩ := exec_onHeap_eq_ok.mp he
    cases hs.symm.trans ht
    obtain ⟨v, rfl⟩ := getHidden_eq_ok hget
    refine ⟨v, hφ, _, World.get_setHeap hs _, ?_⟩
    have := hv.push v
    rwa [List.append_assoc] at this
  fault {w e w'} _ _ := fun ⟨hφ, s, hs, hv⟩ he _ => by
    have hp : s.value? (-1) = some (.object p) := hv.value?_top hbot
    cases hget : s.getHidden (-1) k with
    | ok r => simpa using (exec_onHeap_ok hs hget).symm.trans he
    | error g =>
      have hg := (exec_onHeap_error hs hget).symm.trans he
      obtain rfl : g = .fault e := by simpa using congrArg Prod.fst hg
      exact absurd hget (getHidden_ne_fault hp)

end Frame

end Regime

/-! ## New objects -/

namespace Regime

variable {n k : Nat} {F : chronicle.Fact}

/-- No finalizer was called on a stack without a count, at most some number of wrappers refused what
they were given, and a heap is open. -/
def calm (h : HeapId) (k : Nat) : chronicle.Test where
  passes w := w.breaches.counts = false ∧ w.breaches.refusals ≤ k ∧ ∀ s, w.heaps[h]? = some s → s.closed = false
  back {w w'} hg := by
    rintro ⟨hcounts, hrefusals, hopen⟩
    refine ⟨hg.breaches.counts_back hcounts, Nat.le_trans hg.breaches.refusals hrefusals, fun s hs => ?_⟩
    obtain ⟨s', hs', hl⟩ := hg.heaps h s hs
    exact hl.isOpen (hopen s' hs')

theorem chronicle_upholds (n : Nat) : chronicle.Upholds n := plain_upholds (plain_serves n)

variable (hbot : s0.bottom ≤ s0.stack.size)
include hbot

theorem ends_pushNew {o : Object} (ho : o.Blank) : Ends F (calm h k) (Above φ h s0 vs)
    (Heap.pushNew (hostAt n) h o) (fun i w => ∃ p, Above (φ ∧ i = ((s0.height + vs.length : Nat) : Int)) h s0
      (vs ++ [.object p]) w) E where
  keeps := keeps_pushNew (chronicle_upholds n).collects h ho (fun _ _ _ _ _ _ _ => ⟨trivial, trivial⟩)
    fun _ _ _ _ _ _ => trivial
  ok {w i w'} hw _ := fun ⟨hφ, s, hs, hv⟩ he hT => by
    obtain ⟨w1, t, hm, ht, rfl, rfl⟩ := Crafts.pushNew_eq_ok he
    have hg1 := (keeps_maybeCollect (chronicle_upholds n).collects h).good hw
    rw [after_eq hm] at hg1
    have hplace := Crafts.good_place hg1.1 ht ho (fun _ _ _ _ _ => ⟨trivial, trivial⟩) fun _ _ _ _ => trivial
    obtain ⟨hcounts, -, hopen⟩ := (calm h k).back hplace.2 hT
    obtain ⟨s1, hs1, hl⟩ := hg1.heap hs
    obtain ⟨s', hs', hstack, hframes, -⟩ := stack_of_maybeCollect hw hs (hl.isOpen (hopen s1 hs1)) (.inr hcounts) hm
    cases ht.symm.trans hs'
    have htop : s0.Tops (vs ++ [.object (t.table.insert o).1])
        ((t.withObject o).push (.object (t.table.insert o).1)) :=
      Heap.Tops.push (s := t.withObject o) (hv.of_eq hstack hframes) _
    refine ⟨(t.table.insert o).1, ⟨hφ, ?_⟩, _, World.get_setHeap ht _, htop⟩
    rw [top, htop.size, htop.bottom, List.length_append, height]
    simp only [List.length_singleton]
    omega
  fault _ _ _ he _ := absurd he (sure_pushNew o _ _ _)

omit hbot in
theorem ends_equipWrapper (hk : Keeps F (changeHeap h f)) (hf : Heap.Takes f)
    (hF : ∀ w, F.holds w → k ≤ w.breaches.refusals) :
    Ends F (calm h k) (Above φ h s0 (vs ++ [v])) (Bridge.equipWrapper h f) (fun _ => Above φ h s0 vs) E where
  keeps := keeps_equipWrapper hk
  ok {w _ w'} _ hFw := fun ⟨hφ, s, hs, hv⟩ he hT => by
    rcases Bridge.equipWrapper_eq_ok hs he with ⟨s', hset, rfl⟩ | ⟨e, -, rfl⟩
    · obtain ⟨t, hstack, hframes, hpop⟩ := hf hset
      exact ⟨hφ, s', World.get_setHeap hs _, (hv.of_eq hstack hframes).popN rfl hpop⟩
    · have hle : w.breaches.refusals + 1 ≤ k := hT.2.1
      have := hF w hFw
      omega
  fault _ _ _ he _ := by
    refine absurd he (M.Sure.bind (sure_catchFault _) (fun r => ?_) _ _ _)
    cases r with
    | ok _ => exact sure_pure _
    | error _ => exact sure_modify _

end Regime

end Tether
