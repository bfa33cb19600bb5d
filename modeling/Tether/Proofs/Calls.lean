import Tether.Proofs.Chronicle
import Tether.Proofs.Collector

/-!
# The discipline of calls

What a call does to the stack of its caller, whatever the code that it runs does.

The proofs rest on the chronicle of heaps: code in a frame leaves the slots below the frame, so the
stack is at least as high when it returns as where its arguments began.
-/

namespace Tether

open Regime M
open World hiding bind

variable {arity : Int} {fn : HeapPtr} {name : String} {code : Option Code} {pos start : Nat}
  {r : Except Stop Unit} {i : Int} {v : Value} {s2 : Heap} {p : HeapPtr} {w2 : World} {x : M Unit}

variable {n : Nat} {w w' : World} {h : HeapId} {s s' : Heap}

namespace Heap

/-! ## A call on the stack -/

/-- A call as the stack holds it: the position of the function, the receiver, the position of the
first argument, and how many arguments there are. -/
structure Site where
  pos : Nat
  this : Value
  start : Nat
  nargs : Nat

namespace Site

variable (t : Site)

def call (host : Host) (h : HeapId) : M Unit := callAt host h t.pos t.this t.start t.nargs

def enter (s : Heap) (fn : HeapPtr) (arity : Int) : Heap :=
  { s.fitArguments t.start t.nargs arity with
    frames := ⟨fn, t.this, t.start, t.nargs⟩ :: s.frames }

structure Inside (t : Site) (s : Heap) : Prop where
  bottom : s.bottom ≤ t.pos
  above : t.pos < t.start
  size : t.start ≤ s.stack.size
  this : s.Working → s.HoldsValue t.this

/-- The code that a call runs, if it runs any: that of the function at the site, as long as one more
frame is allowed. -/
def Runs (s : Heap) (fn : HeapPtr) (name : String) (arity : Int) (code : Option Code) : Prop :=
  s.functionAt t.pos = .ok (fn, name, arity, code) ∧ (s.frames.length : Int) < s.limits.depth

/-- The code that a call runs neither crashes nor closes the heap. -/
def Sober (host : Host) (w : World) (h : HeapId) (s : Heap) : Prop :=
  ∀ fn name arity code, t.Runs s fn name arity code →
    (∀ c, ((runBody host h code).exec (w.setHeap h (t.enter s fn arity))).1 ≠ .error (.crash c)) ∧
    ∀ s2 : Heap, ((runBody host h code).after (w.setHeap h (t.enter s fn arity))).heaps[h]? = some s2 → s2.frames ≠ []

/-- The result of a call: the code returned with no result, which is undefined, or with one, which is
the top value of its frame. -/
def Gives (host : Host) (w : World) (h : HeapId) (s : Heap) (v : Value) : Prop :=
  ∃ fn name arity code k, ∃ s2 : Heap, t.Runs s fn name arity code ∧
    ((runBody host h code).exec (w.setHeap h (t.enter s fn arity))).1 = .ok k ∧
    ((runBody host h code).after (w.setHeap h (t.enter s fn arity))).heaps[h]? = some s2 ∧
    (k = 0 ∧ v = .undefined ∨ k = 1 ∧ t.start < s2.stack.size ∧ s2.stack.back? = some v)

/-- The heap and the end of a call that left the heap `s2` and has a result or a fault: the result takes
the place of the call. -/
def place (s s2 : Heap) : Except Fault Value → Except Stop Unit × Heap
  | .ok v => (.ok (), { (s2.truncate t.pos).push v with frames := s.frames })
  | .error f => (.error (.fault f), { s2.truncate t.pos with frames := s.frames })

/-- How a call ends whose code ended with `r` and left the heap `s2`. -/
def finish (s s2 : Heap) (name : String) : Except Stop Int → Except Stop Unit × Heap
  | .error (.crash c) => (.error (.crash c), { s2 with frames := s.frames })
  | .error (.fault f) => t.place s s2 (.error f)
  | .ok k => t.place s s2 (s2.resultOf name t.start k)

end Site

/-- What a call at a position leaves of a heap: the frames and the slots below, and in its place one
value if it succeeds and none if it fails. -/
structure Leaves (s : Heap) (pos : Nat) (r : Except Stop Unit) (s' : Heap) : Prop where
  frames : s'.frames = s.frames
  closed : s'.closed = s.closed
  below : ∀ i < pos, s'.stack[i]? = s.stack[i]?
  height : r = .ok () ∧ s'.stack.size = pos + 1 ∨ ∃ f, r = .error (.fault f) ∧ s'.stack.size = pos

theorem Leaves.calm (h : s.Leaves pos r s') (c : Crash) : r ≠ .error (.crash c) := by
  rcases h.height with ⟨rfl, -⟩ | ⟨f, rfl, -⟩ <;> simp

/-! ## How calls end -/

theorem getElem?_fitArguments {nargs : Nat} {i : Nat} (hi : i < start) (hstart : start ≤ s.stack.size) :
    (s.fitArguments start nargs arity).stack[i]? = s.stack[i]? := by
  unfold fitArguments
  split
  · rfl
  · split
    · exact getElem?_take (by omega)
    · exact Array.getElem?_append_left (by omega)

theorem resultOf_eq_ok (name : String) {k : Int} : s.resultOf name start k = .ok v ↔
      k = 0 ∧ v = .undefined ∨ k = 1 ∧ start < s.stack.size ∧ s.stack.back? = some v := by
  unfold resultOf
  split
  case isTrue hk =>
    constructor
    · intro hv
      exact .inl ⟨hk, (Except.ok.inj hv).symm⟩
    · rintro (⟨-, rfl⟩ | ⟨hk', -⟩)
      · rfl
      · omega
  case isFalse hk =>
    split
    case isTrue hone =>
      have hlt := hone.2
      obtain ⟨x, hx⟩ : ∃ x, s.stack.back? = some x := by
        refine ⟨s.stack.back (by omega), ?_⟩
        rw [Array.back?_eq_getElem?, Array.back_eq_getElem]
        exact Array.getElem?_eq_getElem _
      rw [hx]
      constructor
      · intro hv
        exact .inr ⟨hone.1, hlt, congrArg some (Except.ok.inj hv)⟩
      · rintro (⟨hk', -⟩ | ⟨-, -, hv⟩)
        · exact absurd hk' hk
        · exact congrArg Except.ok (Option.some.inj hv)
    case isFalse hone =>
      constructor
      · intro hv
        simp at hv
      · rintro (⟨hk', -⟩ | ⟨hk', hlt, -⟩)
        · exact absurd hk' hk
        · exact absurd ⟨hk', hlt⟩ hone

theorem exec_leaveResult (hs : w.heaps[h]? = some s) (hpos : pos ≤ s.stack.size) (name : String)
    (start : Nat) (k : Except Fault Int) :
    (leaveResult h pos name start k).exec w = match k.bind (s.resultOf name start) with
      | .ok v => (.ok (), w.setHeap h ((s.truncate pos).push v))
      | .error f => (.error (.fault f), w.setHeap h (s.truncate pos)) := by
  unfold leaveResult
  rw [bind_ok (exec_heap hs)]
  simp only [crash_bind]
  rw [if_neg (by omega)]
  refine (bind_ok (exec_modifyHeap hs _)).trans ?_
  cases k.bind (s.resultOf name start) with
  | error f => rfl
  | ok v =>
    simp only
    rw [exec_modifyHeap (get_setHeap hs _), setHeap_setHeap]

namespace Site

variable {t : Site} {host : Host}

theorem exec_call_refused (hs : w.heaps[h]? = some s) (hopen : s.closed = false) {f : Fault}
    (hf : s.functionAt t.pos = .error (.fault f)) :
    (t.call host h).exec w = (.error (.fault f), w.setHeap h (s.truncate t.pos)) := by
  have hread := exec_readHeap hs (·.functionAt t.pos)
  simp only [hf] at hread
  unfold call callAt
  rw [bind_ok (exec_heap hs)]
  simp only [hopen, Bool.false_eq_true, if_false]
  refine bind_error ?_
  unfold onFault
  rw [bind_ok (a := .error f) (by rw [exec_catchFault, hread]; rfl)]
  exact bind_ok (exec_modifyHeap hs _)

theorem exec_call_missing (hs : w.heaps[h]? = some s) (hopen : s.closed = false) {c : Crash}
    (hc : s.functionAt t.pos = .error (.crash c)) :
    (t.call host h).exec w = (.error (.crash c), w) := by
  have hread := exec_readHeap hs (·.functionAt t.pos)
  simp only [hc] at hread
  unfold call callAt
  rw [bind_ok (exec_heap hs)]
  simp only [hopen, Bool.false_eq_true, if_false]
  exact bind_error (bind_error (by rw [exec_catchFault, hread]; rfl))

section Found

variable (hs : w.heaps[h]? = some s) (hopen : s.closed = false)
  (hfn : s.functionAt t.pos = .ok (fn, name, arity, code))
include hs hopen hfn

theorem exec_call_deep (hdepth : s.limits.depth ≤ (s.frames.length : Int)) : ∃ f, ∀ host : Host,
      (t.call host h).exec w = (.error (.fault f), w.setHeap h (s.truncate t.pos)) := by
  have hread := exec_readHeap hs (·.functionAt t.pos)
  simp only [hfn] at hread
  refine ⟨.stackOverflow s!"call depth limit {s.limits.depth} reached", fun host => ?_⟩
  unfold call callAt
  rw [bind_ok (exec_heap hs)]
  simp only [hopen, Bool.false_eq_true, if_false]
  rw [bind_ok (exec_onFault_eq_ok.mpr hread)]
  simp only [if_pos hdepth]
  exact bind_ok (exec_modifyHeap hs _)

theorem exec_call_begin (host : Host) (hdepth : (s.frames.length : Int) < s.limits.depth) :
    (t.call host h).exec w = (do
      let k ← catchFault (invoke host h ⟨fn, t.this, t.start, t.nargs⟩ code)
      leaveResult h t.pos name t.start k : M Unit).exec (w.setHeap h (s.fitArguments t.start t.nargs arity)) := by
  have hread := exec_readHeap hs (·.functionAt t.pos)
  simp only [hfn] at hread
  unfold call callAt
  rw [bind_ok (exec_heap hs)]
  simp only [hopen, Bool.false_eq_true, if_false]
  rw [bind_ok (exec_onFault_eq_ok.mpr hread)]
  simp only [if_neg (Int.not_le.mpr hdepth)]
  exact bind_ok (exec_modifyHeap hs _)

omit hs hopen hfn in
theorem setHeap_enter : (w.setHeap h (s.fitArguments t.start t.nargs arity)).setHeap h
    { s.fitArguments t.start t.nargs arity with
      frames := ⟨fn, t.this, t.start, t.nargs⟩ :: (s.fitArguments t.start t.nargs arity).frames } =
    w.setHeap h (t.enter s fn arity) := by
  rw [setHeap_setHeap]
  unfold enter
  rw [fitArguments_eq]

theorem exec_call_run (hdepth : (s.frames.length : Int) < s.limits.depth)
    (hs2 : ((runBody host h code).after (w.setHeap h (t.enter s fn arity))).heaps[h]? = some s2) :
    (s2.frames = [] → ((t.call host h).exec w).1 = .error (.crash .runtime)) ∧
    ∀ f, s2.frames = f :: s.frames → t.pos ≤ s2.stack.size → (t.call host h).exec w =
        ((t.finish s s2 name ((runBody host h code).exec (w.setHeap h (t.enter s fn arity))).1).1,
          ((runBody host h code).after (w.setHeap h (t.enter s fn arity))).setHeap h (t.finish s s2 name
              ((runBody host h code).exec (w.setHeap h (t.enter s fn arity))).1).2) := by
  have hs1 := get_setHeap hs (s.fitArguments t.start t.nargs arity)
  have henter := @setHeap_enter arity fn w h s t
  have hinvoke := exec_invoke host hs1 ⟨fn, t.this, t.start, t.nargs⟩ code
    (show _ = some s2 by rw [henter]; exact hs2)
  rw [henter] at hinvoke
  rw [exec_call_begin hs hopen hfn host hdepth]
  refine ⟨fun hframes => ?_, fun f hframes hpos => ?_⟩
  · rw [bind_error (by rw [exec_catchFault, hinvoke.1 hframes]; rfl)]
  · have hleft := hinvoke.2 f s.frames hframes
    have hs3 := get_setHeap hs2 { s2 with frames := s.frames }
    cases hr : ((runBody host h code).exec (w.setHeap h (t.enter s fn arity))).1 with
    | error e =>
      rw [hr] at hleft
      cases e with
      | crash c => exact bind_error (by rw [exec_catchFault, hleft]; rfl)
      | fault e =>
        rw [bind_ok (a := .error e) (by rw [exec_catchFault, hleft]; rfl), exec_leaveResult hs3 hpos]
        simp only [Except.bind, setHeap_setHeap]
        rfl
    | ok k =>
      rw [hr] at hleft
      rw [bind_ok (a := .ok k) (by rw [exec_catchFault, hleft]; rfl), exec_leaveResult hs3 hpos]
      have hresult : ({ s2 with frames := s.frames } : Heap).resultOf name t.start k =
          s2.resultOf name t.start k := rfl
      simp only [Except.bind, setHeap_setHeap, hresult, finish]
      cases s2.resultOf name t.start k <;> rfl

end Found

/-! ## What calls leave -/

theorem entered {R : Regime} [IsFramed R] (hw : R.inv w) (hs : w.heaps[h]? = some s)
    (hopen : s.closed = false) (ht : t.Inside s) (hruns : t.Runs s fn name arity code) :
    R.inv (w.setHeap h (t.enter s fn arity)) := by
  obtain ⟨hfn, hdepth⟩ := hruns
  obtain ⟨-, o, ho, -⟩ := functionAt_eq_ok hfn
  have hbottom : s.bottom ≤ t.start := Nat.le_trans ht.bottom (Nat.le_of_lt ht.above)
  have hfit : R.inv (w.setHeap h (s.fitArguments t.start t.nargs arity)) :=
    (R.amend hw hs (amends_fitArguments hbottom)).1
  have hin := IsFramed.enter (R := R) (f := ⟨fn, t.this, t.start, t.nargs⟩) hfit
    (get_setHeap hs _) (by rw [fitArguments_eq]; exact hbottom)
    (le_size_fitArguments ht.size) (by rw [fitArguments_eq]; exact hdepth)
    (by rw [fitArguments_eq]; exact hopen) (by
      rw [fitArguments_eq]
      intro hwork
      have hworks := (R.sound hw).working hs hwork.isOpen hwork.addressable
      exact ⟨holds_of_object? ho, ht.this hworks⟩)
  rw [setHeap_setHeap] at hin
  unfold enter
  rw [fitArguments_eq] at hin ⊢
  exact hin

/-- Code in a frame ends with the stack at least as high as where its arguments began, and leaves the
slots below, unless the heap was closed meanwhile. -/
theorem body (hw : w.Chronicled) (hs : w.heaps[h]? = some s) (hopen : s.closed = false)
    (ht : t.Inside s) (hruns : t.Runs s fn name arity code) :
    ∃ s2 : Heap, ((runBody (hostAt n) h code).after (w.setHeap h (t.enter s fn arity))).heaps[h]? = some s2 ∧
      (s2.frames ≠ [] → s2.frames = ⟨fn, t.this, t.start, t.nargs⟩ :: s.frames ∧
        s2.closed = false ∧ t.start ≤ s2.stack.size ∧ ∀ i < t.start, s2.stack[i]? = s.stack[i]?) := by
  have hentered : (w.setHeap h (t.enter s fn arity)).Chronicled := entered (R := chronicle) hw hs hopen ht hruns
  have hrun : chronicle.Good (w.setHeap h (t.enter s fn arity))
      ((runBody (hostAt n) h code).after (w.setHeap h (t.enter s fn arity))) := by
    cases code with
    | none => exact .refl hentered
    | some c =>
      refine (plain_serves n).run _ h c hentered ?_
      unfold sane
      split <;> trivial
  have hs1 := get_setHeap hs (t.enter s fn arity)
  obtain ⟨s2, hs2, hl⟩ := hrun.heap hs1
  have htraces := World.Extends.traces hrun.2 h _ s2 hs1 hs2
  have hcharted := World.Chronicled.heaps hrun.1 h s2 hs2
  refine ⟨s2, hs2, fun hne => ?_⟩
  have hframes : s2.frames = ⟨fn, t.this, t.start, t.nargs⟩ :: s.frames := by
    rcases hl.frames with hf | hf
    · exact hf
    · exact absurd hf hne
  refine ⟨hframes, ?_, ?_, fun i hi => ?_⟩
  · cases hc : s2.closed with
    | false => rfl
    | true => exact absurd (hcharted.closed hc) hne
  · have hle := hcharted.bottom_le
    unfold bottom at hle
    rwa [hframes] at hle
  · exact (htraces.below hframes i hi).trans (getElem?_fitArguments hi ht.size)

theorem leaves_place (v : Except Fault Value) (hpos : t.pos ≤ s2.stack.size)
    (hclosed : s2.closed = s.closed) (hbelow : ∀ i < t.pos, s2.stack[i]? = s.stack[i]?) :
    s.Leaves t.pos (t.place s s2 v).1 (t.place s s2 v).2 := by
  have hsize : (s2.stack.take t.pos).size = t.pos := by
    rw [Array.take_eq_extract, Array.size_extract]
    omega
  cases v with
  | error f => exact ⟨rfl, hclosed, fun i hi => (getElem?_take hi).trans (hbelow i hi), .inr ⟨f, rfl, hsize⟩⟩
  | ok v =>
    refine ⟨rfl, hclosed, fun i hi => ?_, .inl ⟨rfl, ?_⟩⟩
    · show ((s2.stack.take t.pos).push v)[i]? = _
      rw [Array.getElem?_push_lt (by omega), ← Array.getElem?_eq_getElem, getElem?_take hi]
      exact hbelow i hi
    · show ((s2.stack.take t.pos).push v).size = _
      rw [Array.size_push, hsize]

theorem leaves_finish {r : Except Stop Int} (hr : ∀ c, r ≠ .error (.crash c))
    (hpos : t.pos ≤ s2.stack.size) (hclosed : s2.closed = s.closed)
    (hbelow : ∀ i < t.pos, s2.stack[i]? = s.stack[i]?) :
    s.Leaves t.pos (t.finish s s2 name r).1 (t.finish s s2 name r).2 := by
  rcases r with (f | c) | k
  · exact leaves_place _ hpos hclosed hbelow
  · exact absurd rfl (hr c)
  · exact leaves_place _ hpos hclosed hbelow

theorem back?_finish {r : Except Stop Int} :
    (t.finish s s2 name r).1 = .ok () ∧ (t.finish s s2 name r).2.stack.back? = some v ↔ ∃ k, r = .ok k ∧
        (k = 0 ∧ v = .undefined ∨ k = 1 ∧ t.start < s2.stack.size ∧ s2.stack.back? = some v) := by
  rcases r with (f | c) | k
  · simp [finish, place]
  · simp [finish]
  · simp only [← resultOf_eq_ok name, Except.ok.injEq, exists_eq_left', finish]
    cases s2.resultOf name t.start k with
    | error f => simp [place]
    | ok x =>
      show _ ∧ ((s2.stack.take t.pos).push x).back? = some v ↔ _
      simp [place]

section

variable (hw : w.Chronicled) (hs : w.heaps[h]? = some s) (hopen : s.closed = false) (ht : t.Inside s)
include hw hs hopen ht

theorem call_cases : (∃ f, (t.call (hostAt n) h).exec w = (.error (.fault f), w.setHeap h (s.truncate t.pos)) ∧
      ∀ fn name arity code, ¬ t.Runs s fn name arity code) ∨
    (∃ c, s.functionAt t.pos = .error (.crash c) ∧ ((t.call (hostAt n) h).exec w).1 = .error (.crash c)) ∨
    ∃ fn name arity code, ∃ s2 : Heap, t.Runs s fn name arity code ∧
      ((runBody (hostAt n) h code).after (w.setHeap h (t.enter s fn arity))).heaps[h]? = some s2 ∧
      (s2.frames = [] ∧ ((t.call (hostAt n) h).exec w).1 = .error (.crash .runtime) ∨
        s2.frames ≠ [] ∧ s2.closed = false ∧ t.pos ≤ s2.stack.size ∧
        (∀ i < t.pos, s2.stack[i]? = s.stack[i]?) ∧ ∃ w2 : World, w2.heaps[h]? = some s2 ∧
        (t.call (hostAt n) h).exec w = ((t.finish s s2 name
              ((runBody (hostAt n) h code).exec (w.setHeap h (t.enter s fn arity))).1).1,
            w2.setHeap h (t.finish s s2 name
              ((runBody (hostAt n) h code).exec (w.setHeap h (t.enter s fn arity))).1).2)) := by
  cases hfn : s.functionAt t.pos with
  | error e =>
    cases e with
    | fault f =>
      refine .inl ⟨f, exec_call_refused hs hopen hfn, fun fn name arity code hruns => ?_⟩
      simpa using hfn.symm.trans hruns.1
    | crash c => exact .inr (.inl ⟨c, rfl, by rw [exec_call_missing hs hopen hfn]⟩)
  | ok found =>
    obtain ⟨fn, name, arity, code⟩ := found
    by_cases hdepth : s.limits.depth ≤ (s.frames.length : Int)
    · obtain ⟨f, he⟩ := exec_call_deep hs hopen hfn hdepth
      exact .inl ⟨f, he _, fun _ _ _ _ hruns => absurd hruns.2 (Int.not_lt.mpr hdepth)⟩
    have hdepth := Int.not_le.mp hdepth
    obtain ⟨s2, hs2, hbody⟩ := body (n := n) hw hs hopen ht ⟨hfn, hdepth⟩
    obtain ⟨hlost, hleft⟩ := exec_call_run hs hopen hfn hdepth hs2
    refine .inr (.inr ⟨fn, name, arity, code, s2, ⟨hfn, hdepth⟩, hs2, ?_⟩)
    by_cases hne : s2.frames = []
    · exact .inl ⟨hne, hlost hne⟩
    · obtain ⟨hframes, hopen2, hsize, hbelow⟩ := hbody hne
      have hpos : t.pos ≤ s2.stack.size := Nat.le_trans (Nat.le_of_lt ht.above) hsize
      exact .inr ⟨hne, hopen2, hpos, fun i hi => hbelow i (Nat.lt_trans hi ht.above), _, hs2, hleft _ hframes hpos⟩

/-- A call that does not crash leaves the frames and the slots below it, and one value in its place if
it succeeds. -/
theorem leaves (hcalm : ∀ c, ((t.call (hostAt n) h).exec w).1 ≠ .error (.crash c)) :
    ∃ s', ((t.call (hostAt n) h).after w).heaps[h]? = some s' ∧
      s.Leaves t.pos ((t.call (hostAt n) h).exec w).1 s' := by
  rcases call_cases (n := n) hw hs hopen ht with ⟨f, he, -⟩ | ⟨c, -, hc⟩ |
    ⟨fn, name, arity, code, s2, -, -, ⟨-, hc⟩ | ⟨-, hopen2, hpos, hbelow, w2, hs2, he⟩⟩
  · rw [after_eq he, he]
    refine ⟨_, get_setHeap hs _, leaves_place (.error f) ?_ rfl fun _ _ => rfl⟩
    exact Nat.le_trans (Nat.le_of_lt ht.above) ht.size
  · exact absurd hc (hcalm c)
  · exact absurd hc (hcalm _)
  · have hbody : ∀ c, ((runBody (hostAt n) h code).exec (w.setHeap h (t.enter s fn arity))).1 ≠
        .error (.crash c) := by
      intro c hr
      rw [hr] at he
      exact hcalm c (by rw [he]; rfl)
    rw [after_eq he, he]
    exact ⟨_, get_setHeap hs2 _, leaves_finish hbody hpos (hopen2.trans hopen.symm) hbelow⟩

theorem Sober.call (hfn : ∀ c, s.functionAt t.pos ≠ .error (.crash c))
    (hsober : t.Sober (hostAt n) w h s) (c : Crash) :
    ((t.call (hostAt n) h).exec w).1 ≠ .error (.crash c) := by
  rcases call_cases (n := n) hw hs hopen ht with ⟨f, he, -⟩ | ⟨c', hc, -⟩ |
    ⟨fn, name, arity, code, s2, hruns, hs2, hrest⟩
  · rw [he]
    simp
  · exact absurd hc (hfn c')
  · obtain ⟨hbody, hne⟩ := hsober fn name arity code hruns
    rcases hrest with ⟨hframes, -⟩ | ⟨-, hopen2, hpos, hbelow, w2, -, he⟩
    · exact absurd hframes (hne s2 hs2)
    · rw [he]
      exact (leaves_finish hbody hpos (hopen2.trans hopen.symm) hbelow).calm c

theorem gives_iff (hcalm : ∀ c, ((t.call (hostAt n) h).exec w).1 ≠ .error (.crash c))
    (hs' : ((t.call (hostAt n) h).after w).heaps[h]? = some s') (v : Value) :
    ((t.call (hostAt n) h).exec w).1 = .ok () ∧ s'.stack.back? = some v ↔ t.Gives (hostAt n) w h s v := by
  rcases call_cases (n := n) hw hs hopen ht with ⟨f, he, hno⟩ | ⟨c, -, hc⟩ |
    ⟨fn, name, arity, code, s2, hruns, hbody, ⟨-, hc⟩ | ⟨-, -, -, -, w2, hs2, he⟩⟩
  · rw [he]
    constructor
    · intro hv
      exact absurd hv.1 nofun
    · rintro ⟨fn, name, arity, code, -, -, hruns, -⟩
      exact absurd hruns (hno fn name arity code)
  · exact absurd hc (hcalm c)
  · exact absurd hc (hcalm _)
  · rw [after_eq he, get_setHeap hs2] at hs'
    cases hs'
    rw [he, back?_finish]
    constructor
    · rintro ⟨k, hk, hv⟩
      exact ⟨fn, name, arity, code, k, s2, hruns, hk, hbody, hv⟩
    · rintro ⟨fn', name', arity', code', k, x, hruns', hk, hx, hv⟩
      obtain ⟨rfl, rfl, rfl, rfl⟩ : fn' = fn ∧ name' = name ∧ arity' = arity ∧ code' = code := by
        simpa using hruns'.1.symm.trans hruns.1
      cases hx.symm.trans hbody
      exact ⟨k, hk, hv⟩

end

end Site

/-! ## Collections -/

/-- The stack of a heap has a count, also with what a finalizer is called with on top. -/
def Countable (s : Heap) : Prop := s.stack.size + 2 < 2 ^ 63

instance (s : Heap) : Decidable s.Countable := inferInstanceAs (Decidable (_ < _))

theorem wrapCount_of_lt {k : Nat} (hk : k < 2 ^ 63) : wrapCount k = k := by
  unfold wrapCount
  rw [Int64.toInt_ofInt]
  exact Int.bmod_eq_of_le (by simp only [Int64.size]; omega) (by simp only [Int64.size]; omega)

theorem exec_call (host : Host) (hs : w.heaps[h]? = some s) (nargs : Nat) (hsize : s.stack.size < 2 ^ 63)
    (hnargs : s.bottom + (nargs + 1) ≤ s.stack.size) :
    (Heap.call host h nargs).exec w =
      (Site.call ⟨s.stack.size - (nargs + 1), .undefined, s.stack.size - nargs, nargs⟩ host h).exec w := by
  have hpos : wrapCount ((s.stack.size : Int) - nargs - 1) = ((s.stack.size - (nargs + 1) : Nat) : Int) := by
    rw [← wrapCount_of_lt (k := s.stack.size - (nargs + 1)) (by omega)]
    congr 1
    omega
  unfold call
  rw [bind_ok (exec_heap hs)]
  simp only [hpos]
  rw [if_neg (by omega)]
  have hstart : s.stack.size - (nargs + 1) + 1 = s.stack.size - nargs := by omega
  simp only [Int.toNat_natCast, hstart]
  rfl

theorem exec_noteCounts (hcount : s.Countable) (w : World) :
    (breach fun _ => { counts := !s.counts }).exec w = (.ok (), w) := by
  have hcounts : s.counts = true := decide_eq_true hcount
  show (Except.ok (), { w with breaches := w.breaches.merge { counts := !s.counts } }) = _
  rw [hcounts]
  exact congrArg (fun x => (Except.ok (), ({ w with breaches := x } : World))) (Breaches.merge_none _)

/-- Where the finalizer of an object is called: on top of the stack, with the object. -/
def finalizerSite (s : Heap) : Site := ⟨s.stack.size, .undefined, s.stack.size + 1, 1⟩

section

variable (s : Heap) (p : HeapPtr) (o : Object)

theorem size_offer : (s.offer p o).stack.size = s.stack.size + 2 := by
  show ((s.stack.push _).push _).size = _
  rw [Array.size_push, Array.size_push]

theorem getElem?_offer : (s.offer p o).stack[s.stack.size]? = some (.object (o.finalizer.getD .null)) := by
  show ((s.stack.push _).push _)[s.stack.size]? = _
  rw [Array.getElem?_push_lt (by rw [Array.size_push]; omega), ← Array.getElem?_eq_getElem, Array.getElem?_push_size]

theorem take_offer : (s.offer p o).stack.take s.stack.size = s.stack := by
  show ((s.stack.push _).push _).take _ = _
  simp

end

theorem finalizerSite_inside (hs : s.bottom ≤ s.stack.size) : s.finalizerSite.Inside (s.offer p o) :=
  ⟨hs, Nat.lt_succ_self _, by rw [size_offer]; exact Nat.le_succ _, fun _ => holdsValue_of_ne rfl⟩

theorem object?_started (ho : s.object? p = some o) :
    (s.startFinalizer p).object? p = some { o with finalized := true } := by
  rw [object?_startFinalizer, if_pos rfl, ho]
  rfl

def calling (s : Heap) (p : HeapPtr) (o : Object) : Heap := (s.startFinalizer p).offer p { o with finalized := true }

theorem exec_call_calling (host : Host) (hs : w.heaps[h]? = some s) (hbottom : s.bottom ≤ s.stack.size)
    (hcount : s.Countable) :
    (Heap.call host h 1).exec (w.setHeap h (s.calling p o)) =
      (s.finalizerSite.call host h).exec (w.setHeap h (s.calling p o)) := by
  have hsize : (s.calling p o).stack.size = s.stack.size + 2 := size_offer _ p _
  have hcalls := exec_call host (get_setHeap hs (s.calling p o)) 1
    (by rw [hsize]; exact hcount) (by rw [hsize]; exact Nat.add_le_add_right hbottom 2)
  rwa [hsize, show s.stack.size + 2 - (1 + 1) = s.stack.size by omega,
    show s.stack.size + 2 - 1 = s.stack.size + 1 by omega] at hcalls

def turnOutcome (s2 : Heap) (p : HeapPtr) : Except Stop Unit → Except Stop Unit
  | .error (.fault _) =>
    if ((s2.object? p).bind (·.finalizer)).isSome then .ok () else .error (.crash .runtime)
  | r => r

theorem exec_finalize (host : Host) (hs : w.heaps[h]? = some s) (p : HeapPtr) :
    (finalize host h p).exec w = (runFinalizer host h p).exec (w.setHeap h (s.startFinalizer p)) :=
  bind_ok (exec_modifyHeap hs _)

theorem exec_finalize_missing (host : Host) (hs : w.heaps[h]? = some s) (hp : s.object? p = none) :
    (finalize host h p).exec w = (.error (.crash .runtime), w.setHeap h (s.startFinalizer p)) := by
  have hstarted : (s.startFinalizer p).object? p = none := by
    rw [object?_startFinalizer, if_pos rfl, hp]
    rfl
  rw [exec_finalize host hs]
  unfold runFinalizer
  rw [bind_ok (exec_heap (get_setHeap hs _)), hstarted]
  exact bind_error (exec_need_none _)

/-- The turn of an object: its finalizer is called, a fault of it is logged, and the stack is cut to the
height that it had. After a crash nothing more is done. -/
theorem exec_finalize_call {w2 : World} {s2 : Heap} (hs : w.heaps[h]? = some s)
    (hbottom : s.bottom ≤ s.stack.size) (hcount : s.Countable) (ho : s.object? p = some o)
    (hs2 : w2.heaps[h]? = some s2) (r : Except Stop Unit) :
    ∃ log, ∀ host, (s.finalizerSite.call host h).exec (w.setHeap h (s.calling p o)) = (r, w2) →
      (finalize host h p).exec w = match turnOutcome s2 p r with
        | .ok () => (.ok (), { w2.setHeap h (s2.endFinalizer s.stack.size) with log })
        | .error e => (.error e, w2) := by
  have hs1 := get_setHeap hs (s.startFinalizer p)
  have hcount1 : (s.startFinalizer p).Countable := hcount
  have hcaught : ∀ host, (s.finalizerSite.call host h).exec (w.setHeap h (s.calling p o)) = (r, w2) →
      (catchFault (call host h 1)).exec ((w.setHeap h (s.startFinalizer p)).setHeap h
        (((s.startFinalizer p).push (.object (({ o with finalized := true } : Object).finalizer.getD
          .null))).push (.object p))) = (caught r, w2) := by
    intro host hcall
    rw [setHeap_setHeap, exec_catchFault]
    exact congrArg (fun x => (caught x.1, x.2)) ((exec_call_calling host hs hbottom hcount).trans hcall)
  -- After the call only the log and the heap change.
  have hcut : ∀ log : Array LogEntry, (modifyHeap h fun x =>
      let x := x.truncate s.stack.size
      { x with counters := { x.counters with finalizers := x.counters.finalizers + 1 } }).exec
        { w2 with log } = (.ok (), { w2.setHeap h (s2.endFinalizer s.stack.size) with log }) :=
    fun log => exec_modifyHeap (w := { w2 with log }) hs2 _
  by_cases hlogs : ∃ f fin, r = .error (.fault f) ∧ (s2.object? p).bind (·.finalizer) = some fin
  · obtain ⟨f, fin, rfl, hfin⟩ := hlogs
    obtain ⟨log, hlog⟩ := exec_log s2.logs .warn "finalizer failed"
      [("finalizer", .text (((s2.object? fin).bind (·.functionName?)).getD "")),
        ("object", .text p.text), ("error", .text f.message)] w2
    refine ⟨log, fun host hcall => ?_⟩
    rw [exec_finalize host hs, turnOutcome, hfin]
    unfold runFinalizer
    rw [bind_ok (exec_heap hs1), object?_started ho, bind_ok (exec_need_some _ _),
      bind_ok (exec_noteCounts hcount1 _), bind_ok (exec_modifyHeap hs1 _),
      bind_ok (show _ = (Except.ok (Except.error f), w2) from hcaught host hcall),
      bind_ok (exec_heap hs2), hfin, bind_ok (exec_need_some fin w2)]
    exact (bind_ok hlog).trans (hcut log)
  · refine ⟨w2.log, fun host hcall => ?_⟩
    have hcaught := hcaught host hcall
    rw [exec_finalize host hs]
    unfold runFinalizer
    rw [bind_ok (exec_heap hs1), object?_started ho, bind_ok (exec_need_some _ _),
      bind_ok (exec_noteCounts hcount1 _), bind_ok (exec_modifyHeap hs1 _)]
    rcases r with (f | c) | ⟨⟩
    · have hfin : (s2.object? p).bind (·.finalizer) = none :=
        Option.eq_none_iff_forall_ne_some.mpr fun fin hfin => hlogs ⟨f, fin, rfl, hfin⟩
      rw [bind_ok (show _ = (Except.ok (Except.error f), w2) from hcaught),
        bind_ok (exec_heap hs2), hfin, bind_error (exec_need_none w2), turnOutcome, hfin]
      rfl
    · exact bind_error hcaught
    · rw [bind_ok (show _ = (Except.ok (Except.ok ()), w2) from hcaught)]
      exact hcut w2.log

theorem Leaves.take (hl : s.Leaves pos r s') (hpos : pos ≤ s.stack.size) : s'.stack.take pos = s.stack.take pos := by
  have hle : pos ≤ s'.stack.size := by
    rcases hl.height with ⟨-, hsize⟩ | ⟨-, -, hsize⟩ <;> omega
  refine Array.ext_getElem? fun i => ?_
  by_cases hi : i < pos
  · rw [getElem?_take hi, getElem?_take hi]
    exact hl.below i hi
  · rw [Array.take_eq_extract, Array.take_eq_extract, Array.getElem?_eq_none, Array.getElem?_eq_none]
    · rw [Array.size_extract]
      omega
    · rw [Array.size_extract]
      omega

section

variable {R : Regime} (hw : R.inv w) (hs : w.heaps[h]? = some s) (ho : s.object? p = some o)
include hw hs ho

theorem inv_calling [IsPlain R] : R.inv (w.setHeap h (s.calling p o)) := by
  have hstarted := (IsPlain.turn hw hs (.start p)).1
  have hoffered := (R.amend hstarted (get_setHeap hs _) (amends_offer (object?_started ho))).1
  rwa [setHeap_setHeap] at hoffered

theorem heap_of_calling [IsPlain R] {r : Except Stop Unit} {w2 : World}
    (hbottom : s.bottom ≤ s.stack.size) (hcount : s.Countable)
    (hcall : (s.finalizerSite.call (hostAt n) h).exec (w.setHeap h (s.calling p o)) = (r, w2)) :
    ∃ s2 : Heap, w2.heaps[h]? = some s2 := by
  have hg := (keeps_call (R := R) (plain_invokes (plain_serves n)) h 1).good (inv_calling hw hs ho)
  rw [after_eq ((exec_call_calling _ hs hbottom hcount).trans hcall)] at hg
  obtain ⟨s2, hs2, -⟩ := hg.heap (get_setHeap hs _)
  exact ⟨s2, hs2⟩

end

theorem countable_of_runFinalizer (hw : w.Chronicled) (hs : w.heaps[h]? = some s)
    (he : (runFinalizer (hostAt n) h p).exec w = (.ok (), w')) (hcounts : w'.breaches.counts = false) :
    s.Countable := by
  by_contra hcount
  have hnoted : s.counts = false := decide_eq_false hcount
  let w0 : World := { w with breaches := w.breaches.merge { counts := !s.counts } }
  have hs0 : w0.heaps[h]? = some s := hs
  -- Noting the breach once more changes nothing, so the finalizer may as well run after it.
  have hagain : (runFinalizer (hostAt n) h p).exec w0 = (.ok (), w') := by
    rw [← he]
    unfold runFinalizer at he ⊢
    rw [bind_ok (exec_heap hs)] at he ⊢
    rw [bind_ok (exec_heap hs0)]
    obtain ⟨o, ho⟩ : ∃ o, s.object? p = some o := by
      obtain ⟨o, _, ho, -⟩ := bind_ok_iff.mp he
      exact ⟨o, (exec_need_eq_ok.mp ho).1⟩
    have hnote0 : (breach fun _ => { counts := !s.counts }).exec w0 = (.ok (), w0) := by
      show (Except.ok (), { w0 with breaches := w0.breaches.merge { counts := !s.counts } }) = _
      simp [w0, Breaches.merge]
    rw [ho, bind_ok (exec_need_some o w), bind_ok (exec_need_some o w0),
      bind_ok hnote0, bind_ok (show (breach fun _ => _).exec w = (.ok (), w0) from rfl)]
  have hg0 : chronicle.Good w w0 := (keeps_breach (fun _ => { counts := !s.counts })).good hw
  have hg := (plain_runFinalizer (R := chronicle) (plain_serves n) h p).good hg0.1
  rw [after_eq hagain] at hg
  have hstays := hg.2.breaches.counts (by simp [w0, Breaches.merge, hnoted])
  simpa using hcounts.symm.trans hstays

section

variable (hw : w.Chronicled) (hs : w.heaps[h]? = some s) (hopen : s.closed = false)
  (hcount : s.Countable ∨ w'.breaches.counts = false)
include hw hs hopen hcount

omit hopen in
theorem finalize_eq_ok (he : (finalize (hostAt n) h p).exec w = (.ok (), w')) :
    ∃ o r w2 s2 log, s.object? p = some o ∧ (w.setHeap h (s.calling p o)).Chronicled ∧
      (s.finalizerSite.call (hostAt n) h).exec (w.setHeap h (s.calling p o)) = (r, w2) ∧
      (∀ c, r ≠ .error (.crash c)) ∧ w2.heaps[h]? = some s2 ∧
      w' = { w2.setHeap h (s2.endFinalizer s.stack.size) with log } := by
  have hbottom : s.bottom ≤ s.stack.size := (hw.heaps h s hs).bottom_le
  have hs1 := get_setHeap hs (s.startFinalizer p)
  have hcount : s.Countable := hcount.elim id
    (countable_of_runFinalizer (s := s.startFinalizer p) (IsPlain.turn (R := chronicle) hw hs (.start p)).1
      hs1 ((exec_finalize _ hs p).symm.trans he))
  cases ho : s.object? p with
  | none => cases he.symm.trans (exec_finalize_missing _ hs ho)
  | some o =>
    have hcalling := inv_calling (R := chronicle) hw hs ho
    rcases hcall : (s.finalizerSite.call (hostAt n) h).exec (w.setHeap h (s.calling p o)) with ⟨r, w2⟩
    obtain ⟨s2, hs2⟩ := heap_of_calling (R := chronicle) hw hs ho hbottom hcount hcall
    obtain ⟨log, hend⟩ := exec_finalize_call hs hbottom hcount ho hs2 r
    have hend := he.symm.trans (hend _ hcall)
    refine ⟨o, r, w2, s2, log, rfl, hcalling, hcall, ?_, hs2, ?_⟩
    · rintro c rfl
      cases hend
    · split at hend
      · exact (Prod.mk.inj hend).2
      · cases hend

theorem stack_of_finalize (he : (finalize (hostAt n) h p).exec w = (.ok (), w')) :
    ∃ s', w'.heaps[h]? = some s' ∧ s'.stack = s.stack ∧ s'.frames = s.frames ∧ s'.closed = false := by
  obtain ⟨o, r, w2, s2, log, -, hcalling, hcall, hcalm, hs2, rfl⟩ := finalize_eq_ok hw hs hcount he
  -- The finalizer is called on top of the stack, so the call leaves all that was there.
  have hinside : s.finalizerSite.Inside (s.calling p o) :=
    finalizerSite_inside (s := s.startFinalizer p) (hw.heaps h s hs).bottom_le
  obtain ⟨s3, hs3, hleaves⟩ := Site.leaves (n := n) hcalling (get_setHeap hs _) hopen hinside
    (by rw [hcall]; exact hcalm)
  rw [after_eq hcall] at hs3
  cases hs2.symm.trans hs3
  refine ⟨_, get_setHeap hs2 _, ?_, hleaves.frames, hleaves.closed.trans hopen⟩
  calc s2.stack.take s.stack.size = (s.calling p o).stack.take s.stack.size := hleaves.take (by
          rw [calling, size_offer]; exact Nat.le_add_right _ _)
    _ = s.stack := take_offer (s.startFinalizer p) p _

theorem stack_of_forM {es : List (HeapPtr × Object)}
    (he : (es.forM fun e => finalize (hostAt n) h e.1).exec w = (.ok (), w')) :
    ∃ s', w'.heaps[h]? = some s' ∧ s'.stack = s.stack ∧ s'.frames = s.frames ∧ s'.closed = false := by
  induction es generalizing w s with
  | nil =>
    cases he
    exact ⟨s, hs, rfl, rfl, hopen⟩
  | cons e rest ih =>
    obtain ⟨_, w1, he1, he2⟩ := bind_ok_iff.mp he
    have hw1 : w1.Chronicled := by
      rw [← after_eq he1]
      exact ((plain_finalize (R := chronicle) (plain_serves n) h e.1).good hw).1
    have hg2 := (Keeps.forM fun e _ => plain_finalize (R := chronicle) (F := noFact) (plain_serves n) h
      e.1 : Keeps noFact (rest.forM fun e => finalize (hostAt n) h e.1)) w1 hw1 trivial
    rw [after_eq he2] at hg2
    obtain ⟨s1, hs1, hstack, hframes, hopen1⟩ := stack_of_finalize hw hs hopen
      (hcount.imp_right hg2.2.breaches.counts_back) he1
    have hcount1 : s1.Countable ∨ w'.breaches.counts = false := by
      unfold Countable
      rw [hstack]
      exact hcount
    obtain ⟨s', hs', hstack', hframes', hopen'⟩ := ih hw1 hs1 hopen1 hcount1 he2
    exact ⟨s', hs', hstack'.trans hstack, hframes'.trans hframes, hopen'⟩

theorem stack_of_maybeCollect (he : (maybeCollect (hostAt n) h).exec w = (.ok (), w')) :
    ∃ s', w'.heaps[h]? = some s' ∧ s'.stack = s.stack ∧ s'.frames = s.frames ∧ s'.closed = false := by
  unfold maybeCollect at he
  rw [bind_ok (exec_heap hs)] at he
  split at he
  case isFalse =>
    cases he
    exact ⟨s, hs, rfl, rfl, hopen⟩
  case isTrue hdue =>
    have hidle : s.collecting = false := by simpa using hdue.2.1
    obtain ⟨st, w1, hcollect, hrest⟩ := bind_ok_iff.mp he
    cases hrest
    obtain ⟨w2, s2, s3, log, hfin, hs2, hswept, -, -, rfl⟩ := collect_eq_ok hs hopen hidle hcollect
    have hbegun : (w.beginCollection h s).Chronicled := IsFramed.beginCollection (R := chronicle) hw hs hidle
    unfold finalizeGarbage at hfin
    rw [bind_ok (exec_heap (heaps_beginCollection hs))] at hfin
    obtain ⟨_, w3, hall, hrest⟩ := bind_ok_iff.mp hfin
    obtain rfl := (Prod.mk.inj hrest).2
    have hcount3 : s.Countable ∨ w3.breaches.counts = false := hcount
    obtain ⟨x, hx, hstack, hframes, hclosed⟩ := stack_of_forM hbegun (heaps_beginCollection hs) hopen hcount3 hall
    cases hx.symm.trans hs2
    exact ⟨_, get_setHeap hs2 _, hswept.stack.trans hstack, hswept.frames.trans hframes, hswept.closed.trans hclosed⟩

end

/-! ## The ways to call -/

theorem exec_callMethod (host : Host) (hs : w.heaps[h]? = some s) (nargs : Nat)
    (hsize : s.stack.size < 2 ^ 63) (hnargs : s.bottom + (nargs + 2) ≤ s.stack.size) {this : Value}
    (hthis : s.stack[s.stack.size - (nargs + 1)]? = some this) :
    (Heap.callMethod host h nargs).exec w =
      (Site.call ⟨s.stack.size - (nargs + 2), this, s.stack.size - nargs, nargs⟩ host h).exec w := by
  have hpos : wrapCount ((s.stack.size : Int) - nargs - 2) = ((s.stack.size - (nargs + 2) : Nat) : Int) := by
    rw [← wrapCount_of_lt (k := s.stack.size - (nargs + 2)) (by omega)]
    congr 1
    omega
  have hreceiver : s.stack.size - (nargs + 2) + 1 = s.stack.size - (nargs + 1) := by omega
  have hstart : s.stack.size - (nargs + 2) + 2 = s.stack.size - nargs := by omega
  unfold callMethod
  rw [bind_ok (exec_heap hs)]
  simp only [hpos]
  rw [if_neg (by omega)]
  simp only [Int.toNat_natCast, hreceiver, hstart, hthis]
  rfl

section

variable (host : Host) (hs : w.heaps[h]? = some s) (nargs : Nat)
  (hnargs : s.bottom + nargs ≤ s.stack.size) (k : String)
include host hs hnargs

theorem exec_callProp_object (hv : s.value? i = some (.object p)) :
    (Heap.callProp host h i k nargs).exec w = (Heap.callMethod host h nargs).exec
      (w.setHeap h (s.beneath (s.stack.size - nargs) ((s.lookup p k).getD .undefined) (.object p))) := by
  unfold callProp
  rw [bind_ok (exec_heap hs)]
  simp only [hv]
  rw [if_neg (by unfold top; omega)]
  exact bind_ok (exec_modifyHeap hs _)

theorem exec_callProp_other (hv : s.value? i = some v) (hno : v.object? = none) :
    (Heap.callProp host h i k nargs).exec w = (.error ((s.truncate (s.stack.size - nargs)).mismatch i "object"),
        w.setHeap h (s.truncate (s.stack.size - nargs))) := by
  have hpop : s.popN nargs = .ok (s.truncate (s.stack.size - nargs)) := by
    unfold popN
    rw [if_neg (by unfold top; omega)]
    rfl
  have hs' := get_setHeap hs (s.truncate (s.stack.size - nargs))
  unfold callProp
  rw [bind_ok (exec_heap hs)]
  simp only [hv]
  rw [if_neg (by unfold top; omega)]
  cases v with
  | object p => simp [Value.object?] at hno
  | _ =>
    refine (bind_ok (exec_changeHeap_ok hs hpop)).trans ?_
    rw [bind_ok (exec_heap hs')]
    rfl

end

theorem typeOf_calm {v : Option Value} (hv : ∀ x, v = some x → s.HoldsValue x)
    (hempty : v ≠ some (.object .null)) : ∃ t, s.typeOf v = .ok t := by
  unfold typeOf
  split
  · rename_i p
    rcases hv _ rfl p rfl with rfl | hp
    · exact absurd rfl hempty
    · obtain ⟨o, ho⟩ := Option.isSome_iff_exists.mp hp
      rw [ho]
      exact ⟨_, rfl⟩
  · exact ⟨_, rfl⟩

theorem functionAt_calm (hwork : s.Working) (hslot : s.stack[pos]? ≠ some (.object .null)) (c : Crash) :
    s.functionAt pos ≠ .error (.crash c) := by
  have hholds : ∀ x, s.stack[pos]? = some x → s.HoldsValue x := fun x hx => hwork.stack x (Array.mem_of_getElem? hx)
  obtain ⟨t, ht⟩ := typeOf_calm hholds hslot
  unfold functionAt
  simp only [ht]
  split
  · rename_i p hp
    obtain ⟨o, ho⟩ : ∃ o, s.object? p = some o := by
      rcases hholds _ hp p rfl with rfl | h
      · exact absurd hp hslot
      · exact Option.isSome_iff_exists.mp h
    have hderef : s.deref p = .ok o := by
      unfold deref
      rw [ho]
    rw [hderef]
    cases hb : o.body <;> simp [hb, bind, Except.bind, pure, Except.pure]
  · simp [bind, Except.bind]

theorem exec_pushNew (host : Host) (o : Object) (hcollect : (maybeCollect host h).exec w = (.ok (), w2))
    (hs2 : w2.heaps[h]? = some s2) :
    ∃ i, (pushNew host h o).exec w =
      (.ok i, w2.setHeap h ((s2.withObject o).push (.object (s2.table.insert o).1))) := by
  have hinsert : (onHeap h fun s => .ok ((s.table.insert o).1, s.withObject o)).exec w2 =
      (.ok (s2.table.insert o).1, w2.setHeap h (s2.withObject o)) := exec_onHeap_ok hs2 rfl
  have hnew : (newObject host h o).exec w = (.ok (s2.table.insert o).1, w2.setHeap h (s2.withObject o)) :=
    (bind_ok hcollect).trans hinsert
  have hs3 := get_setHeap hs2 (s2.withObject o)
  have hs4 := get_setHeap hs2 ((s2.withObject o).push (.object (s2.table.insert o).1))
  unfold pushNew
  rw [bind_ok hnew, bind_ok (exec_modifyHeap hs3 _), setHeap_setHeap, bind_ok (exec_heap hs4)]
  exact ⟨_, rfl⟩

theorem exec_leaveError (host : Host) (hs : w.heaps[h]? = some s) (f : Fault)
    (hcollect : (maybeCollect host h).exec w = (.ok (), w2)) (hs2 : w2.heaps[h]? = some s2) :
    ∃ o : Object, o.body = .error f ∧ (leaveError host h s.stack.size f).exec w = (.error (.fault f),
      w2.setHeap h ((s2.withObject o).push (.object (s2.table.insert o).1))) := by
  have hstay : (modifyHeap h fun x =>
      if (s.stack.size : Int) < (x.stack.size : Int) ∧ (x.bottom : Int) ≤ s.stack.size then
        x.truncate (s.stack.size : Int).toNat else x).exec w = (.ok (), w) := by
    rw [exec_modifyHeap hs, if_neg (by omega), setHeap_self hs]
  have hpush := fun props => exec_pushNew host { body := .error f, props } hcollect hs2
  obtain ⟨i, hpush⟩ := hpush ((({} : Properties Value).put "name" (.string f.scriptName)).put
    "message" (.string f.message))
  exact ⟨{ body := .error f, props := _ }, rfl, (bind_ok hstay).trans (bind_ok (bind_ok hpush))⟩

/-- The ways to call: a function, a function with a receiver, a property of the object at an index. -/
inductive Calling where
  | call
  | method
  | prop (i : Int) (k : String)

namespace Calling

variable (c : Calling)

def run (host : Host) (h : HeapId) (nargs : Nat) : M Unit :=
  match c with
  | .call => Heap.call host h nargs
  | .method => Heap.callMethod host h nargs
  | .prop i k => Heap.callProp host h i k nargs

/-- The way to make the same call that leaves an error object if it fails. -/
def guarded? (host : Host) (h : HeapId) (nargs : Nat) : Option (M Unit) :=
  match c with
  | .call => some (Heap.pcall host h nargs)
  | .method => some (Heap.pcallMethod host h nargs)
  | .prop .. => none

/-- The position of the first value that a call takes from the stack. -/
def position (s : Heap) (nargs : Nat) : Nat :=
  match c with
  | .call => s.stack.size - (nargs + 1)
  | .method => s.stack.size - (nargs + 2)
  | .prop .. => s.stack.size - nargs

/-- The current frame supplies what a call takes, and the index of a receiver names a slot. -/
def Supplied (s : Heap) (nargs : Nat) : Prop :=
  match c with
  | .call => s.bottom + (nargs + 1) ≤ s.stack.size
  | .method => s.bottom + (nargs + 2) ≤ s.stack.size
  | .prop i _ => s.bottom + nargs ≤ s.stack.size ∧ (s.value? i).isSome = true

/-- The call as the stack will hold it, and the heap then; none if the receiver has no properties. -/
def site? (s : Heap) (nargs : Nat) : Option (Heap × Site) :=
  match c with
  | .call => some (s, ⟨s.stack.size - (nargs + 1), .undefined, s.stack.size - nargs, nargs⟩)
  | .method => (s.stack[s.stack.size - (nargs + 1)]?).map fun this =>
    (s, ⟨s.stack.size - (nargs + 2), this, s.stack.size - nargs, nargs⟩)
  | .prop i k => ((s.value? i).bind Value.object?).map fun p =>
    (s.beneath (s.stack.size - nargs) ((s.lookup p k).getD .undefined) (.object p),
      ⟨s.stack.size - nargs, .object p, s.stack.size + 2 - nargs, nargs⟩)

/-- The slot that a call takes its function from, or that a fault describes, does not name an object
that is not there. Only a crash in the middle of a collection leaves such a slot. -/
def Filled (s : Heap) (nargs : Nat) : Prop :=
  match c.site? s nargs, c with
  | some (s1, t), _ => s1.stack[t.pos]? ≠ some (.object .null)
  | none, .prop i _ => (s.truncate (s.stack.size - nargs)).value? i ≠ some (.object .null)
  | none, _ => True

/-- The code that a call runs neither crashes nor closes the heap. -/
def Sober (c : Calling) (host : Host) (w : World) (h : HeapId) (s : Heap) (nargs : Nat) : Prop :=
  ∀ s1 t, c.site? s nargs = some (s1, t) → t.Sober host (w.setHeap h s1) h s1

/-- The result of a call: undefined or the top value that its code left, as the code returned. -/
def Gives (c : Calling) (host : Host) (w : World) (h : HeapId) (s : Heap) (nargs : Nat) (v : Value) : Prop :=
  ∃ s1 t, c.site? s nargs = some (s1, t) ∧ t.Gives host (w.setHeap h s1) h s1 v

structure Stands (c : Calling) (host : Host) (w : World) (h : HeapId) (s : Heap) (nargs : Nat)
    (s1 : Heap) (t : Site) : Prop where
  exec : (c.run host h nargs).exec w = (t.call host h).exec (w.setHeap h s1)
  chronicled : (w.setHeap h s1).Chronicled
  inside : t.Inside s1
  pos : t.pos = c.position s nargs
  frames : s1.frames = s.frames
  closed : s1.closed = s.closed
  table : s1.table = s.table
  below : ∀ i < t.pos, s1.stack[i]? = s.stack[i]?

variable {c : Calling} {nargs : Nat}

theorem position_le : c.position s nargs ≤ s.stack.size := by
  unfold position
  split <;> omega

theorem Supplied.exec_run (host : Host) (hs : w.heaps[h]? = some s) (hcount : s.Countable)
    (hsup : c.Supplied s nargs) {s1 : Heap} {t : Site} (hsite : c.site? s nargs = some (s1, t)) :
    (c.run host h nargs).exec w = (t.call host h).exec (w.setHeap h s1) := by
  unfold Countable at hcount
  cases c with
  | call =>
    cases hsite
    rw [setHeap_self hs]
    exact exec_call host hs nargs (by omega) hsup
  | method =>
    obtain ⟨this, hthis, heq⟩ := Option.map_eq_some_iff.mp hsite
    cases heq
    rw [setHeap_self hs]
    exact exec_callMethod host hs nargs (by omega) hsup hthis
  | prop i k =>
    obtain ⟨p, hp, heq⟩ := Option.map_eq_some_iff.mp hsite
    cases heq
    obtain ⟨hnargs, -⟩ : s.bottom + nargs ≤ s.stack.size ∧ _ := hsup
    obtain ⟨v, hv, hv'⟩ := Option.bind_eq_some_iff.mp hp
    cases Value.object?_eq_some.mp hv'
    have hle : s.stack.size - nargs ≤ s.stack.size := Nat.sub_le _ _
    have hsize := size_beneath ((s.lookup p k).getD .undefined) (.object p) hle
    have hreceiver := (callee_beneath ((s.lookup p k).getD .undefined) (.object p) hle).2
    have hs1 := get_setHeap hs (s.beneath (s.stack.size - nargs) ((s.lookup p k).getD .undefined) (.object p))
    refine (exec_callProp_object host hs nargs hnargs k hv).trans ?_
    have hslot : s.stack.size + 2 - (nargs + 1) = s.stack.size - nargs + 1 := by omega
    have hmethod := exec_callMethod host hs1 nargs (by rw [hsize]; exact hcount)
      (by rw [hsize]; exact Nat.add_le_add_right hnargs 2) (by rw [hsize, hslot]; exact hreceiver)
    rw [hsize] at hmethod
    rw [hmethod]
    congr 3
    omega

theorem Supplied.stands (host : Host) (hw : w.Chronicled) (hs : w.heaps[h]? = some s) (hcount : s.Countable)
    (hsup : c.Supplied s nargs) {s1 : Heap} {t : Site} (hsite : c.site? s nargs = some (s1, t)) :
    c.Stands host w h s nargs s1 t := by
  have hexec := hsup.exec_run host hs hcount hsite
  cases c with
  | call =>
    cases hsite
    have hnargs : s.bottom + (nargs + 1) ≤ s.stack.size := hsup
    refine ⟨hexec, ?_, ⟨?_, ?_, ?_, fun _ => holdsValue_of_ne rfl⟩, rfl, rfl, rfl, rfl, fun _ _ => rfl⟩
    · rwa [setHeap_self hs]
    all_goals simp only
    all_goals omega
  | method =>
    obtain ⟨this, hthis, heq⟩ := Option.map_eq_some_iff.mp hsite
    cases heq
    have hnargs : s.bottom + (nargs + 2) ≤ s.stack.size := hsup
    refine ⟨hexec, ?_, ⟨?_, ?_, ?_, fun hwork => hwork.stack _ (Array.mem_of_getElem? hthis)⟩, rfl, rfl,
      rfl, rfl, fun _ _ => rfl⟩
    · rwa [setHeap_self hs]
    all_goals simp only
    all_goals omega
  | prop i k =>
    obtain ⟨p, hp, heq⟩ := Option.map_eq_some_iff.mp hsite
    cases heq
    obtain ⟨hnargs, -⟩ : s.bottom + nargs ≤ s.stack.size ∧ _ := hsup
    have hv : s.value? i = some (.object p) := by
      obtain ⟨v, hv, hv'⟩ := Option.bind_eq_some_iff.mp hp
      rw [hv, Value.object?_eq_some.mp hv']
    have hle : s.stack.size - nargs ≤ s.stack.size := Nat.sub_le _ _
    have hsize := size_beneath ((s.lookup p k).getD .undefined) (.object p) hle
    have hreceiver := (callee_beneath ((s.lookup p k).getD .undefined) (.object p) hle).2
    have hbottom : s.bottom ≤ s.stack.size - nargs := by omega
    refine ⟨hexec, (chronicle.amend hw hs (amends_beneath k hbottom hle hv)).1,
      ⟨hbottom, ?_, ?_, fun hwork => hwork.stack _ (Array.mem_of_getElem? hreceiver)⟩,
      rfl, rfl, rfl, rfl, fun j hj => getElem?_beneath hj hle⟩
    · simp only
      omega
    · rw [hsize]
      simp only
      omega

theorem Supplied.refused (host : Host) (hw : w.Chronicled) (hs : w.heaps[h]? = some s) (hopen : s.closed = false)
    (haddr : s.table.Addressable) (hsup : c.Supplied s nargs) (hfilled : c.Filled s nargs)
    (hsite : c.site? s nargs = none) :
    ∃ f, (c.run host h nargs).exec w = (.error (.fault f), w.setHeap h (s.truncate (c.position s nargs))) := by
  cases c with
  | call => simp [site?] at hsite
  | method =>
    have hnargs : s.bottom + (nargs + 2) ≤ s.stack.size := hsup
    rw [site?, Option.map_eq_none_iff, Array.getElem?_eq_none_iff] at hsite
    omega
  | prop i k =>
    obtain ⟨hnargs, hslot⟩ : s.bottom + nargs ≤ s.stack.size ∧ (s.value? i).isSome = true := hsup
    obtain ⟨v, hv⟩ := Option.isSome_iff_exists.mp hslot
    have hno : v.object? = none := by
      rw [site?, Option.map_eq_none_iff, hv] at hsite
      exact hsite
    have hempty : (s.truncate (s.stack.size - nargs)).value? i ≠ some (.object .null) := by
      unfold Filled at hfilled
      rw [hsite] at hfilled
      exact hfilled
    -- The fault describes what the index names once the arguments are gone.
    obtain ⟨f, hf⟩ : ∃ f, (s.truncate (s.stack.size - nargs)).mismatch i "object" = .fault f := by
      have hwork : (s.truncate (s.stack.size - nargs)).Working := by
        refine ⟨?_, hopen, haddr⟩
        have hcut : s.Amends World.lawless (s.truncate (s.stack.size - nargs)) := amends_truncate (by omega)
        exact hcut.sound (hw.sound.working hs hopen haddr)
      obtain ⟨t, ht⟩ := typeOf_calm (v := (s.truncate (s.stack.size - nargs)).value? i)
        (fun x hx => hwork.stack x (mem_stack_of_value? hx)) hempty
      unfold mismatch typeName
      rw [ht]
      exact ⟨_, rfl⟩
    exact ⟨f, by rw [← hf]; exact exec_callProp_other host hs nargs hnargs k hv hno⟩

theorem Supplied.guarded (host : Host) (hs : w.heaps[h]? = some s) (hcount : s.Countable)
    (hsup : c.Supplied s nargs) (hx : c.guarded? host h nargs = some x) :
    x.exec w = (do
      match ← catchFault (c.run host h nargs) with
      | .ok () => return ()
      | .error f => leaveError host h (c.position s nargs) f : M Unit).exec w := by
  unfold Countable at hcount
  have hheight : ∀ j : Nat, s.bottom + (nargs + j) ≤ s.stack.size →
      wrapCount ((s.stack.size : Int) - nargs - j) = ((s.stack.size - (nargs + j) : Nat) : Int) := by
    intro j hj
    rw [← wrapCount_of_lt (k := s.stack.size - (nargs + j)) (by omega)]
    congr 1
    omega
  cases c with
  | call =>
    cases hx
    refine (bind_ok (exec_heap hs)).trans ?_
    have h := hheight 1 hsup
    rw [Nat.cast_one] at h
    simp only [h]
    rfl
  | method =>
    cases hx
    refine (bind_ok (exec_heap hs)).trans ?_
    have h := hheight 2 hsup
    rw [Nat.cast_two] at h
    simp only [h]
    rfl
  | prop i k => simp [guarded?] at hx

theorem keeps_run : Keeps (noFact (R := chronicle)) (c.run (hostAt n) h nargs) := by
  have hinvokes : chronicle.Invokes n := plain_invokes (plain_serves n)
  cases c with
  | call => exact keeps_call hinvokes h nargs
  | method => exact keeps_callMethod hinvokes h nargs
  | prop i k => exact keeps_callProp hinvokes h i k nargs

section Disciplined

variable (hw : w.Chronicled) (hs : w.heaps[h]? = some s) (hopen : s.closed = false)
  (haddr : s.table.Addressable) (hcount : s.Countable) (hsup : c.Supplied s nargs)
  (hfilled : c.Filled s nargs) (hsober : c.Sober (hostAt n) w h s nargs)
include hw hs hopen haddr hcount hsup hfilled hsober

/-- A call leaves the frames and the slots below it, and in its place one value if it succeeds and none
if it fails. -/
theorem leaves_run : ∃ s', ((c.run (hostAt n) h nargs).after w).heaps[h]? = some s' ∧
    s.Leaves (c.position s nargs) ((c.run (hostAt n) h nargs).exec w).1 s' ∧
    ∀ v, ((c.run (hostAt n) h nargs).exec w).1 = .ok () ∧ s'.stack.back? = some v ↔
      c.Gives (hostAt n) w h s nargs v := by
  cases hsite : c.site? s nargs with
  | none =>
    obtain ⟨f, he⟩ := hsup.refused (hostAt n) hw hs hopen haddr hfilled hsite
    rw [after_eq he, he]
    refine ⟨_, get_setHeap hs _, ?_, fun v => ?_⟩
    · exact Site.leaves_place (t := ⟨c.position s nargs, .undefined, 0, 0⟩) (.error f) position_le rfl fun _ _ => rfl
    · constructor
      · intro hv
        exact absurd hv.1 nofun
      · rintro ⟨s1, t, hsite', -⟩
        simpa using hsite.symm.trans hsite'
  | some found =>
    obtain ⟨s1, t⟩ := found
    have hstands := hsup.stands (hostAt n) hw hs hcount hsite
    have hs1 := get_setHeap hs s1
    have hopen1 := hstands.closed.trans hopen
    have hwork := hstands.chronicled.sound.working hs1 hopen1 (by rw [hstands.table]; exact haddr)
    have hslot : s1.stack[t.pos]? ≠ some (.object .null) := by
      unfold Filled at hfilled
      rw [hsite] at hfilled
      exact hfilled
    have hcalm := (hsober s1 t hsite).call hstands.chronicled hs1 hopen1 hstands.inside (functionAt_calm hwork hslot)
    obtain ⟨s', hs', hleaves⟩ := Site.leaves hstands.chronicled hs1 hopen1 hstands.inside hcalm
    have hgives := Site.gives_iff hstands.chronicled hs1 hopen1 hstands.inside hcalm hs'
    have hafter : (c.run (hostAt n) h nargs).after w = (t.call (hostAt n) h).after (w.setHeap h s1) :=
      congrArg Prod.snd hstands.exec
    rw [hafter, hstands.exec, ← hstands.pos]
    refine ⟨s', hs', ⟨hleaves.frames.trans hstands.frames, hleaves.closed.trans hstands.closed,
      fun i hi => (hleaves.below i hi).trans (hstands.below i hi), hleaves.height⟩, fun v => ?_⟩
    rw [hgives]
    constructor
    · intro hv
      exact ⟨s1, t, hsite, hv⟩
    · rintro ⟨s2, t2, hsite', hv⟩
      cases hsite.symm.trans hsite'
      exact hv

/-- A call that catches its fault leaves one value in both cases; a fault leaves an error object that
carries it. -/
theorem leaves_guarded (hx : c.guarded? (hostAt n) h nargs = some x)
    (hcollect : ∀ f w1, (c.run (hostAt n) h nargs).exec w = (.error (.fault f), w1) →
      ((maybeCollect (hostAt n) h).exec w1).1 = .ok ()) :
    (x.exec w).1 = ((c.run (hostAt n) h nargs).exec w).1 ∧
    (((c.run (hostAt n) h nargs).exec w).1 = .ok () → x.after w = (c.run (hostAt n) h nargs).after w) ∧
    ∃ s', (x.after w).heaps[h]? = some s' ∧ s'.frames = s.frames ∧
      (∀ i < c.position s nargs, s'.stack[i]? = s.stack[i]?) ∧
      s'.stack.size = c.position s nargs + 1 ∧
      ∀ f, (x.exec w).1 = .error (.fault f) → s'.table.Addressable →
        ∃ p o, s'.stack.back? = some (.object p) ∧ s'.object? p = some o ∧ o.body = .error f := by
  obtain ⟨s1, hs1, hleaves, -⟩ := leaves_run hw hs hopen haddr hcount hsup hfilled hsober
  have hguard := hsup.guarded (hostAt n) hs hcount hx
  rcases he : (c.run (hostAt n) h nargs).exec w with ⟨r, w1⟩
  rw [he] at hleaves
  rw [after_eq he] at hs1 ⊢
  rcases hleaves.height with ⟨hr, hsize⟩ | ⟨f, hr, hsize⟩
  · -- The call succeeded, and nothing is added.
    obtain rfl : r = .ok () := hr
    rw [bind_ok (a := .ok ()) (by rw [exec_catchFault, he]; rfl)] at hguard
    have hdone : x.exec w = (.ok (), w1) := hguard
    rw [after_eq hdone, hdone]
    exact ⟨rfl, fun _ => rfl, s1, hs1, hleaves.frames, hleaves.below, hsize, nofun⟩
  · -- The call failed and left nothing; the error object comes after a collection.
    obtain rfl : r = .error (.fault f) := hr
    rw [bind_ok (a := .error f) (by rw [exec_catchFault, he]; rfl)] at hguard
    have hw1 : w1.Chronicled := by
      rw [← after_eq he]
      exact (keeps_run w hw trivial).1
    have hc := exec_eq_ok (hcollect f w1 he)
    have hw2 : ((maybeCollect (hostAt n) h).after w1).Chronicled :=
      ((keeps_maybeCollect (R := chronicle) (plain_collects (plain_serves n)) h).good hw1).1
    have hcount1 : s1.Countable := by
      unfold Countable at hcount ⊢
      have hpos : c.position s nargs ≤ s.stack.size := position_le
      omega
    obtain ⟨s2, hs2, hstack, hframes, hopen2⟩ :=
      stack_of_maybeCollect hw1 hs1 (hleaves.closed.trans hopen) (.inl hcount1) hc
    obtain ⟨o, ho, hleave⟩ := exec_leaveError (hostAt n) hs1 f hc hs2
    rw [hsize] at hleave
    have hdone := hguard.trans hleave
    rw [after_eq hdone, hdone]
    refine ⟨rfl, nofun, _, get_setHeap hs2 _,
      hframes.trans hleaves.frames, fun i hi => ?_, ?_, fun f' hf haddr2 => ?_⟩
    · show (s2.stack.push _)[i]? = _
      rw [hstack, Array.getElem?_push_lt (by omega), ← Array.getElem?_eq_getElem]
      exact hleaves.below i hi
    · show (s2.stack.push _).size = _
      rw [Array.size_push, hstack, hsize]
    · obtain rfl : f = f' := by simpa using hf
      have hfits := Nat.lt_of_le_of_lt (Table.slots_size_le_insert s2.table o) haddr2
      refine ⟨_, o, Array.back?_push, ?_, ho⟩
      show (s2.withObject o).object? _ = _
      rw [object?_withObject (hw2.sound.heaps h s2 hs2 hopen2 hfits) haddr2, if_pos rfl]

end Disciplined

end Calling

end Heap

/-! ## The discipline -/

/-- **Calls are disciplined.** No script goes beyond the limit of frames of a heap, and none runs a
function that pops below its frame. Wherever a call finds a function and arguments on the stack, and
runs code that neither crashes nor closes the heap, it leaves the frames and all slots below; in the
place of what it took is exactly one value if it succeeds, the one that the code returned or
undefined, and nothing if it fails. A call that catches faults ends in the same way and leaves exactly
one value in both cases; after a fault that is an error object that carries it. -/
theorem calls_are_disciplined (n : Nat) : (∀ script : Script, (script.world n true).Chronicled ∧
      (∀ h, ¬ (script.world n true).history (.underflow h)) ∧
      ∀ x, (script.world n true).Met x → ∀ (h : HeapId) (s : Heap), x.heaps[h]? = some s →
        (s.frames.length : Int) ≤ s.limits.depth) ∧
    ∀ (w : World) (h : HeapId) (s : Heap) (c : Heap.Calling) (nargs : Nat), w.Chronicled →
      w.heaps[h]? = some s → s.closed = false → s.table.Addressable → s.Countable →
      c.Supplied s nargs → c.Filled s nargs → c.Sober (hostAt n) w h s nargs →
      (∃ s', ((c.run (hostAt n) h nargs).after w).heaps[h]? = some s' ∧
        s.Leaves (c.position s nargs) ((c.run (hostAt n) h nargs).exec w).1 s' ∧
        ∀ v, ((c.run (hostAt n) h nargs).exec w).1 = .ok () ∧ s'.stack.back? = some v ↔
          c.Gives (hostAt n) w h s nargs v) ∧
      ∀ x, c.guarded? (hostAt n) h nargs = some x →
        (∀ f w1, (c.run (hostAt n) h nargs).exec w = (.error (.fault f), w1) →
          ((Heap.maybeCollect (hostAt n) h).exec w1).1 = .ok ()) →
        (x.exec w).1 = ((c.run (hostAt n) h nargs).exec w).1 ∧
        (((c.run (hostAt n) h nargs).exec w).1 = .ok () → x.after w = (c.run (hostAt n) h nargs).after w) ∧
        ∃ s', (x.after w).heaps[h]? = some s' ∧ s'.frames = s.frames ∧
          (∀ i < c.position s nargs, s'.stack[i]? = s.stack[i]?) ∧
          s'.stack.size = c.position s nargs + 1 ∧
          ∀ f, (x.exec w).1 = .error (.fault f) → s'.table.Addressable →
            ∃ p o, s'.stack.back? = some (.object p) ∧ s'.object? p = some o ∧ o.body = .error f := by
  refine ⟨fun script => ?_, fun w h s c nargs hw hs hopen haddr hcount hsup hfilled hsober => ?_⟩
  · have hw := chronicled_world script n true
    exact ⟨hw, hw.underflow, fun x hx h s hs => ((hw.past_of_met hx).charted h s hs).depth⟩
  · exact ⟨Heap.Calling.leaves_run hw hs hopen haddr hcount hsup hfilled hsober, fun x hx hcollect =>
      Heap.Calling.leaves_guarded hw hs hopen haddr hcount hsup hfilled hsober hx hcollect⟩

/-- A function that takes one argument, drops it and returns the upper of two values. -/
def returnsUpper : FuncSpec Program :=
  { name := "upper", arity := 1, result := 1, throws := none
    body := .ofList [.stack .pop, .stack .pushNull, .stack (.pushBoolean true)] }

/-- A script that leaves a value, that function and an argument on the stack. -/
def aboutToCall : Script :=
  .ofSteps [.stack (.pushString "kept"), .call (.pushFunc returnsUpper), .stack (.pushString "argument")]

set_option maxRecDepth 4000 in
theorem calls_are_disciplined_aboutToCall : ∃ s s' : Heap, (aboutToCall.world 2 true).heaps[0]? = some s ∧
    ((Heap.call (hostAt 2) 0 1).exec (aboutToCall.world 2 true)).1 = .ok () ∧
    ((Heap.call (hostAt 2) 0 1).after (aboutToCall.world 2 true)).heaps[0]? = some s' ∧
    s'.frames = s.frames ∧ s'.stack[0]? = s.stack[0]? ∧ s'.stack.size = 2 ∧
    s'.stack.back? = some (.boolean true) := by
  have hw := ((calls_are_disciplined 2).1 aboutToCall).1
  obtain ⟨s, hs, hopen, haddr, hsize, hbottom, hslot, hframes, hdepth, ⟨fn, name, arity, code⟩, hf, rfl, rfl, rfl, hbody, s2,
      hs2, hframes2, hsize2, hback2⟩ : ∃ s, (aboutToCall.world 2 true).heaps[0]? = some s ∧ s.closed = false ∧
    s.table.Addressable ∧ s.stack.size = 3 ∧ s.bottom = 0 ∧ s.stack[1]? = some (.object ⟨3, 1⟩) ∧
    s.frames.length = 0 ∧ s.limits.depth = 200 ∧ ∃ f, (s.functionAt 1).toOption = some f ∧ f.1 = ⟨3, 1⟩ ∧ f.2.1 = "upper" ∧
    f.2.2.1 = 1 ∧ ((Heap.runBody (hostAt 2) 0 f.2.2.2).exec ((aboutToCall.world 2 true).setHeap 0
      (Heap.Site.enter ⟨1, .undefined, 2, 1⟩ s ⟨3, 1⟩ 1))).1 = .ok 1 ∧
    ∃ s2, ((Heap.runBody (hostAt 2) 0 f.2.2.2).after ((aboutToCall.world 2 true).setHeap 0
      (Heap.Site.enter ⟨1, .undefined, 2, 1⟩ s ⟨3, 1⟩ 1))).heaps[0]? = some s2 ∧ s2.frames.length = 1 ∧
      s2.stack.size = 4 ∧ s2.stack.back? = some (.boolean true) := by decide +kernel
  have hfunction := toOption_eq_some.mp hf
  generalize aboutToCall.world 2 true = w at hw hs hbody hs2 ⊢
  have hsite : Heap.Calling.call.site? s 1 = some (s, ⟨1, .undefined, 2, 1⟩) := by
    simp [Heap.Calling.site?, hsize]
  have hruns : (Heap.Site.mk 1 .undefined 2 1).Runs s ⟨3, 1⟩ "upper" 1 code :=
    ⟨hfunction, by rw [hframes, hdepth]; decide⟩
  have hsober : Heap.Calling.call.Sober (hostAt 2) w 0 s 1 := by
    intro s1 t hsite' fn name arity code hruns'
    obtain ⟨rfl, rfl⟩ := Prod.mk.inj (Option.some.inj (hsite.symm.trans hsite'))
    obtain ⟨rfl, rfl, rfl, rfl⟩ : _ ∧ _ ∧ _ ∧ _ := by simpa using hfunction.symm.trans hruns'.1
    rw [setHeap_self hs, hbody]
    refine ⟨fun c => by simp, fun x hx hnil => ?_⟩
    obtain rfl := Option.some.inj (hs2.symm.trans hx)
    rw [hnil] at hframes2
    exact absurd hframes2 (by simp)
  obtain ⟨⟨s', hs', hleaves, hgives⟩, -⟩ := (calls_are_disciplined 2).2 w 0 s .call 1 hw hs hopen
    haddr (by unfold Heap.Countable; rw [hsize]; decide)
    (by unfold Heap.Calling.Supplied; simp only; omega) (by simp [Heap.Calling.Filled, hsite, hslot, HeapPtr.null])
    hsober
  have hvalue := (hgives (.boolean true)).mpr ⟨s, _, hsite, ⟨3, 1⟩, "upper", 1, _, 1, s2, hruns,
    by rw [setHeap_self hs]; exact hbody, by rw [setHeap_self hs]; exact hs2,
    .inr ⟨rfl, by simp only; omega, hback2⟩⟩
  have hposition : Heap.Calling.call.position s 1 = 1 := by
    simp [Heap.Calling.position, hsize]
  rw [hposition] at hleaves
  refine ⟨s, s', hs, hvalue.1, hs', hleaves.frames, hleaves.below 0 (by omega), ?_, hvalue.2⟩
  rcases hleaves.height with ⟨-, h⟩ | ⟨f, hf, -⟩
  · exact h
  · exact absurd (hf.symm.trans hvalue.1) (by simp)

/-- Calling a property at an index that names no slot fails before anything is taken: the argument
stays. -/
theorem callProp_keeps_argument : ∃ s s' : Heap, ∃ f, (aboutToCall.world 2 true).heaps[0]? = some s ∧
    s.bottom + 1 ≤ s.stack.size ∧
    ((Heap.callProp (hostAt 2) 0 7 "key" 1).exec (aboutToCall.world 2 true)).1 = .error (.fault f) ∧
    ((Heap.callProp (hostAt 2) 0 7 "key" 1).after (aboutToCall.world 2 true)).heaps[0]? = some s' ∧
    s'.stack.size ≠ s.stack.size - 1 := by
  obtain ⟨s, hs, hsize, hbottom, hnone⟩ : ∃ s, (aboutToCall.world 2 true).heaps[0]? = some s ∧ s.stack.size = 3 ∧
    s.bottom = 0 ∧ s.value? 7 = none := by decide +kernel
  have he : (Heap.callProp (hostAt 2) 0 7 "key" 1).exec (aboutToCall.world 2 true) =
      (.error (.fault (.invalidInput .heap "call property: invalid index")), aboutToCall.world 2 true) := by
    unfold Heap.callProp
    rw [M.bind_ok (M.exec_heap hs)]
    simp only [hnone]
    rfl
  rw [M.after_eq he, he]
  exact ⟨s, s, _, hs, by omega, rfl, hs, by omega⟩

end Tether
