import Tether.Proofs.Finalization
import Tether.Proofs.Finalizers

/-!
# Collections keep the identity of native objects

A collection runs the finalizers of objects that no root reaches and frees them. In a settled world
these finalizers only read, or are the finalizers of bridges. So a collection changes no object that a
root reaches, and it frees no wrapper of a live record: such a wrapper would have been out of reach
when the collection began, and then its finalizer has detached the record.
-/

namespace Tether

open Bridge (bridgeKey objectKey finalizerKey)
open Regime M Heap

variable {h : HeapId} {w w' : World} {s s' s2 : Heap} {e : Excuse} {p : HeapPtr} {n : Nat} {o : Object}
  {fn : HeapPtr} {name : String} {arity : Int} {code : Option Code} {res : Except Stop Unit}
  {ps : List HeapPtr}

/-! ## Heaps that differ beside their objects -/

/-- Two heaps with the same objects and roots, whatever is on their stacks. -/
structure Heap.Alike (s s' : Heap) : Prop where
  table : s'.table = s.table
  global : s'.global = s.global
  stash : s'.stash = s.stash
  limits : s'.limits = s.limits
  retired : s'.retired = s.retired
  closed : s'.closed = s.closed

namespace Heap.Alike

variable {s1 s3 : Heap}

theorem refl (s : Heap) : s.Alike s := ⟨rfl, rfl, rfl, rfl, rfl, rfl⟩

theorem trans (h : s1.Alike s2) (h' : s2.Alike s3) : s1.Alike s3 :=
  ⟨h'.table.trans h.table, h'.global.trans h.global, h'.stash.trans h.stash, h'.limits.trans h.limits,
    h'.retired.trans h.retired, h'.closed.trans h.closed⟩

theorem object? (h : s.Alike s') (q : HeapPtr) : s'.object? q = s.object? q := by
  unfold Heap.object?
  rw [h.table]

theorem spares {kept : HeapPtr → Prop} (h : s.Alike s1) (hs : s1.Spares kept s2) (h' : s2.Alike s')
    (hstack : s'.stack = s.stack) (hframes : s'.frames = s.frames) : s.Spares kept s' := by
  refine ⟨hstack, hframes, h'.global.trans (hs.global.trans h.global),
    h'.stash.trans (hs.stash.trans h.stash), h'.limits.trans (hs.limits.trans h.limits),
    fun q hq => (h'.object? q).trans ((hs.objects q hq).trans (h.object? q)), fun p hp => ?_⟩
  rw [h'.retired]
  exact hs.retired (h.retired ▸ hp)

end Heap.Alike

namespace World

theorem Identity.sustains_alike (hi : w.Identity e) (hs : w.heaps[h]? = some s) (ha : s.Alike s') :
    Sustains e w (w.setHeap h s') :=
  hi.sustains_of_objects hs (.inl ha.stash) ha.object? ha.retired

def outline (w : World) : Bool × (HeapId → Option (Bool × Nat × Limits)) :=
  (w.orderly, fun k => (w.heaps[k]?).map fun s => (s.closed, s.table.slots.size, s.limits))

theorem Settled.of_outline (ho : w'.outline = w.outline) (hw : w'.Settled) : w.Settled := by
  have hforth : ∀ (k : HeapId) x, w.heaps[k]? = some x → ∃ x' : Heap, w'.heaps[k]? = some x' ∧ x'.closed = x.closed ∧
        x'.table.slots.size = x.table.slots.size ∧ x'.limits = x.limits := by
    intro k x hx
    have hk : (w'.heaps[k]?).map _ = (w.heaps[k]?).map _ := congrFun (congrArg Prod.snd ho) k
    rw [hx] at hk
    obtain ⟨x', hx', heq⟩ := Option.map_eq_some_iff.mp hk
    simp only [Prod.mk.injEq] at heq
    obtain ⟨hclosed, hslots, hlimits⟩ := heq
    exact ⟨x', hx', hclosed, hslots, hlimits⟩
  refine ⟨(congrArg Prod.fst ho).symm.trans hw.orderly, fun k x hx => ?_, fun k x hx => ?_, fun k x hx => ?_⟩
  · obtain ⟨x', hx', hclosed, -, -⟩ := hforth k x hx
    exact hclosed ▸ hw.isOpen k x' hx'
  · obtain ⟨x', hx', -, hslots, -⟩ := hforth k x hx
    have haddr := hw.addressable k x' hx'
    unfold Table.Addressable at haddr ⊢
    rwa [hslots] at haddr
  · obtain ⟨x', hx', -, -, hlimits⟩ := hforth k x hx
    exact hlimits ▸ hw.limited k x' hx'

theorem outline_setHeap (hs : w.heaps[h]? = some s) (hclosed : s'.closed = s.closed)
    (hslots : s'.table.slots.size = s.table.slots.size) (hlimits : s'.limits = s.limits) :
    (w.setHeap h s').outline = w.outline := by
  unfold outline
  congr 1
  funext k
  rw [heaps_setHeap hs]
  split
  case isTrue hk => rw [hk, hs, Option.map_some, Option.map_some, hclosed, hslots, hlimits]
  case isFalse => rfl

theorem outline_alike (hs : w.heaps[h]? = some s) (ha : s.Alike s') : (w.setHeap h s').outline = w.outline :=
  outline_setHeap hs ha.closed (by rw [ha.table]) ha.limits

end World

theorem M.fixes_outline_modifyHeap {f : Heap → Heap} (hf : ∀ s : Heap, s.Alike (f s)) :
    M.Fixes World.outline (modifyHeap h f) := by
  intro w
  cases hs : w.heaps[h]? with
  | none => rw [after_modifyHeap_none hs]
  | some s =>
    rw [after_eq (exec_modifyHeap hs f)]
    exact World.outline_alike hs (hf s)

theorem Heap.fixes_outline_leaveFrame (h : HeapId) : M.Fixes World.outline (Heap.leaveFrame h) := by
  refine M.Fixes.bind ((reads_heap h).fixes _) fun s => ?_
  split
  · exact fixes_outline_modifyHeap fun s => ⟨rfl, rfl, rfl, rfl, rfl, rfl⟩
  · exact (reads_crash _).fixes _

theorem Heap.fixes_outline_leaveResult (h : HeapId) (pos : Nat) (name : String) (start : Nat)
    (k : Except Fault Int) : M.Fixes World.outline (Heap.leaveResult h pos name start k) := by
  unfold leaveResult
  simp only [crash_bind]
  refine M.Fixes.bind ((reads_heap h).fixes _) fun s => ?_
  by_cases hlow : s.stack.size < pos
  · rw [if_pos hlow]
    refine M.Fixes.bind (fixes_modify fun w => ?_) fun _ => (reads_crash _).fixes _
    split <;> rfl
  · rw [if_neg hlow]
    refine M.Fixes.bind (fixes_outline_modifyHeap fun s => ⟨rfl, rfl, rfl, rfl, rfl, rfl⟩) fun _ => ?_
    split
    · exact fixes_outline_modifyHeap fun s => ⟨rfl, rfl, rfl, rfl, rfl, rfl⟩
    · exact (reads_fail _).fixes _

theorem Heap.Site.outline_call {t : Heap.Site} (hs : w.heaps[h]? = some s) (hopen : s.closed = false)
    (host : Host) (hruns : t.Runs s fn name arity code) :
    ((t.call host h).after w).outline =
      ((Heap.runBody host h code).after (w.setHeap h (t.enter s fn arity))).outline := by
  have hs1 := World.get_setHeap hs (s.fitArguments t.start t.nargs arity)
  have hinvoke : ((invoke host h ⟨fn, t.this, t.start, t.nargs⟩ code).after
      (w.setHeap h (s.fitArguments t.start t.nargs arity))).outline =
      ((runBody host h code).after (w.setHeap h (t.enter s fn arity))).outline := by
    unfold invoke
    rw [after_bind_ok (exec_modifyHeap hs1 _), after_andFinally, fixes_outline_leaveFrame, Heap.Site.setHeap_enter]
  rw [after, Heap.Site.exec_call_begin hs hopen hruns.1 host hruns.2, ← after, ← hinvoke,
    ← after_catchFault (invoke _ _ _ _)]
  rcases he : (catchFault (invoke host h ⟨fn, t.this, t.start, t.nargs⟩ code)).exec
      (w.setHeap h (s.fitArguments t.start t.nargs arity)) with ⟨_ | k, w'⟩
  · rw [after_bind_error he, after_eq he]
  · rw [after_bind_ok he, after_eq he]
    exact fixes_outline_leaveResult h _ _ _ k w'

namespace World

/-! ## Code that runs inside a collection -/

theorem Identity.sustains_silent (hi : w.Identity none) (hsil : w.Silent w') : Sustains none w w' := by
  have hlasts : w.Lasts w' := .of_state (w := w') hsil.state.symm (.refl w')
  refine ⟨hi.of_state hsil.state, hlasts, fun x hx => ?_⟩
  refine (hsil.recalled _ hx).imp_right fun he => ?_
  obtain rfl := Moment.step.inj he
  exact ⟨hi.of_state rfl, .of_state (w := w) rfl hlasts⟩

end World

theorem M.after_finalize_idle {host : Host} {b : BridgeId} (hs : w.heaps[h]? = some s)
    (hidle : s.requireStack 1 ≠ .ok () ∨ s.value? 0 = none) :
    (Bridge.finalize host b h).after w = w.noting s := by
  have hs1 : (w.noting s).heaps[h]? = some s := hs
  unfold Bridge.finalize
  rw [after_bind_ok (exec_noteFinalizer hs)]
  cases hroom : s.requireStack 1 with
  | error f =>
    have hread : (readHeap h (·.requireStack 1)).exec (w.noting s) = (.error f, w.noting s) := by
      rw [exec_readHeap hs1, hroom]
    exact after_bind_error hread
  | ok _ =>
    have hv : s.value? 0 = none := hidle.resolve_left (not_not_intro hroom)
    rw [after_bind_ok (exec_requireStack_noting hs hroom)]
    have hget := getHidden_mismatch (s := s) (i := 0) (fun p => by simp [hv]) objectKey
    have hcaught : (catchFault (onHeap h (·.getHidden 0 objectKey))).exec (w.noting s) =
        (caught (.error (s.mismatch 0 "object")), w.noting s) := by
      rw [exec_catchFault, exec_onHeap_error hs1 hget]
    have htop : s.top < 1 := by
      unfold value? position? at hv
      unfold top
      simp only [Int.lt_irrefl, if_false] at hv
      split at hv
      · omega
      · have hnone := Array.getElem?_eq_none_iff.mp hv
        omega
    have hpop : s.popN 1 = .error (.crash (.heap s!"heap: pop {(1 : Int)} with top {s.top}")) := by
      unfold popN
      rw [if_pos (.inr htop)]
    cases hm : s.mismatch 0 "object" with
    | crash c =>
      rw [hm] at hcaught
      exact after_bind_error hcaught
    | fault f =>
      rw [hm] at hcaught
      rw [after_bind_ok hcaught, after_bind_ok (exec_heap hs1)]
      exact after_bind_error (exec_changeHeap_error hs1 hpop)

namespace World

theorem sustains_tame (hw : w.Sound) (hid : w.Identity none) (hs : w.heaps[h]? = some s)
    (htame : ∀ c, code = some c → c.tame = true) (hfirst : s.value? 0 = some (.object p) ∨ s.value? 0 = none)
    (he : (Heap.runBody (hostAt n) h code).after w = w') (hw' : w'.Settled) :
    Sustains none w w' ∧ w.Spares h (· ≠ p) w' := by
  cases code with
  | none =>
    obtain rfl : w = w' := he
    exact ⟨hid.sustains, .refl h _ w⟩
  | some c =>
    cases n with
    | zero =>
      have hdisorder : w'.orderly = false := by
        rw [← he]
        exact Bool.and_false _
      cases hdisorder.symm.trans hw'.orderly
    | succ n =>
      have htame := htame c rfl
      cases c with
      | program f =>
        have hsil : w.Silent w' := he ▸ quiet_runFunction htame w
        exact ⟨hid.sustains_silent hsil, hsil.spares⟩
      | bound b c => exact absurd htame Bool.false_ne_true
      | finalizer b =>
        have he : (Bridge.finalize (hostAt n) b h).after w = w' := he
        by_cases hidle : s.requireStack 1 ≠ .ok () ∨ s.value? 0 = none
        · rw [after_finalize_idle hs hidle] at he
          subst he
          exact ⟨hid.sustains_noting s, spares_noting w s _⟩
        · have hroom : s.requireStack 1 = .ok () := not_not.mp fun hne => hidle (.inl hne)
          have hv := hfirst.resolve_right fun hnone => hidle (.inr hnone)
          exact sustains_finalize hw hid hs (nofun) hroom hv he hw'

end World

/-! ## One finalizer -/

namespace Heap

variable {s0 : Heap}

theorem hasRoom_iff : s.hasRoom = true ↔
    (s.frames.length : Int) < s.limits.depth ∧ (s.stack.size : Int) + 3 ≤ s.limits.stack := by
  unfold hasRoom
  rw [Bool.and_eq_true, decide_eq_true_eq, decide_eq_true_eq]
  rfl

theorem alike_offer (s : Heap) (p : HeapPtr) (o : Object) : s.Alike (s.offer p o) := ⟨rfl, rfl, rfl, rfl, rfl, rfl⟩

theorem alike_enter (t : Site) (s : Heap) (fn : HeapPtr) (arity : Int) : s.Alike (t.enter s fn arity) := by
  unfold Site.enter
  rw [fitArguments_eq]
  exact ⟨rfl, rfl, rfl, rfl, rfl, rfl⟩

theorem alike_finish (t : Site) (s s2 : Heap) (name : String) (r : Except Stop Int) :
    s2.Alike (t.finish s s2 name r).2 := by
  have hplace : ∀ v, s2.Alike (t.place s s2 v).2 := fun v => by
    cases v <;> exact ⟨rfl, rfl, rfl, rfl, rfl, rfl⟩
  rcases r with (f | c) | k
  · exact hplace _
  · exact ⟨rfl, rfl, rfl, rfl, rfl, rfl⟩
  · exact hplace _

end Heap

namespace World

section Called

variable (hw : w.Sound) (hws : w.Settled) (hid : w.Identity e) (hs : w.heaps[h]? = some s)
  (hexcuse : ∀ k q, e = some (k, q) → k = h ∧ q = p) (ho : s.object? p = some o)
  (hroom : s.hasRoom = true) (hlink : e = none ∨ ∃ q b, o.finalizer = some q ∧ s.Finalizes q b)
include hw hws hid hs hexcuse ho hroom hlink

theorem sustains_finalizerBody (hruns : s.finalizerSite.Runs (s.offer p o) fn name arity code)
    (he : (Heap.runBody (hostAt n) h code).after (w.setHeap h (s.finalizerSite.enter (s.offer p o) fn arity)) = w')
    (hw' : w'.Settled) :
    Sustains none (w.setHeap h (s.finalizerSite.enter (s.offer p o) fn arity)) w' ∧
      (w.setHeap h (s.finalizerSite.enter (s.offer p o) fn arity)).Spares h (· ≠ p) w' := by
  have hwork := hws.working hw hs
  have hs0 := get_setHeap hs (s.offer p o)
  have hsound : (w.setHeap h (s.finalizerSite.enter (s.offer p o) fn arity)).Sound := by
    have hentered := Heap.Site.entered (R := plain) (plain.amend hw hs (amends_offer ho)).1 hs0
      (hws.isOpen h s hs) (finalizerSite_inside hwork.bottom_le) hruns
    rw [setHeap_setHeap] at hentered
    exact hentered
  obtain ⟨hfn, f, hf, hbody⟩ := functionAt_eq_ok hruns.1
  have hfin : o.finalizer = some fn := by
    rw [show s.finalizerSite.pos = s.stack.size from rfl, getElem?_offer] at hfn
    cases hq : o.finalizer with
    | none =>
      rw [hq] at hfn
      obtain rfl : HeapPtr.null = fn := by simpa using hfn
      simpa using hf.symm.trans (Table.get?_null _)
    | some q =>
      rw [hq] at hfn
      simpa using hfn
  have htame : ∀ c, code = some c → c.tame = true := by
    rintro c rfl
    have hf' := (hid.tidy h s hs).tame p o fn f ho hfin hf
    unfold Object.tame at hf'
    rw [hbody] at hf'
    exact hf'
  have halike : s.Alike (s.finalizerSite.enter (s.offer p o) fn arity) :=
    (alike_offer s p o).trans (alike_enter _ _ fn arity)
  have hid1 := (hid.sustains_alike hs halike).1
  have hs1 := get_setHeap hs (s.finalizerSite.enter (s.offer p o) fn arity)
  have hvalue := value?_enter s p o fn arity
  rcases hlink with rfl | ⟨q, b, hq, f', name', hf', hbody'⟩
  · refine sustains_tame hsound hid1 hs1 htame ?_ he hw'
    rw [hvalue]
    split
    · exact .inr rfl
    · exact .inl rfl
  · -- The object may be a wrapper. Then the code is the finalizer of its bridge, and it has room.
    cases hfin.symm.trans hq
    cases hf.symm.trans hf'
    obtain ⟨rfl, rfl, rfl⟩ : name = name' ∧ arity = 1 ∧ code = some (.finalizer b) := by
      simpa using hbody.symm.trans hbody'
    have hstack := stack_enter_one s p o fn
    have hroom1 : (s.finalizerSite.enter (s.offer p o) fn 1).requireStack 1 = .ok () := by
      obtain ⟨-, hslots⟩ := hasRoom_iff.mp hroom
      have hlimit := hws.limited h s hs
      have hsize := size_offer s p o
      have hcount : wrapCount (((s.offer p o).stack.size : Int) + 1) = s.stack.size + 3 := by
        rw [hsize]
        exact wrapCount_of_lt (k := s.stack.size + 3) (by omega)
      unfold requireStack
      rw [if_neg (by decide), hstack, hcount, halike.limits, if_neg (by omega)]
    cases n with
    | zero =>
      have hdisorder : w'.orderly = false := by
        rw [← he]
        exact Bool.and_false _
      simpa using hdisorder.symm.trans hw'.orderly
    | succ n => exact sustains_finalize hsound hid1 hs1 hexcuse hroom1 hvalue he hw'

/-- Calling the finalizer of an object changes at most this object, beside the stack. If the call does
not crash, it leaves the frames and the slots below. -/
theorem sustains_callFinalizer
    (he : (s.finalizerSite.call (hostAt n) h).exec (w.setHeap h (s.offer p o)) = (res, w')) (hw' : w'.Settled) :
    ∃ s1 s2 s3 : Heap, ∃ w2 : World, s.Alike s1 ∧ Sustains none (w.setHeap h s1) w2 ∧
      (w.setHeap h s1).Spares h (· ≠ p) w2 ∧ w2.heaps[h]? = some s2 ∧ s2.Alike s3 ∧
      w' = w2.setHeap h s3 ∧
      ((∀ c, res ≠ .error (.crash c)) → s3.stack.take s.stack.size = s.stack ∧ s3.frames = s.frames) := by
  have hwork := hws.working hw hs
  have hopen := hws.isOpen h s hs
  obtain ⟨hdepth, -⟩ := hasRoom_iff.mp hroom
  have hs0 := get_setHeap hs (s.offer p o)
  have hsize := size_offer s p o
  -- A function that is not there is not called, and the stack is as before.
  have hended : ∀ s3 : Heap, e = none → s.Alike s3 → s3.stack.take s.stack.size = s.stack →
      s3.frames = s.frames → w' = w.setHeap h s3 → ∃ s1 s2 s3 : Heap, ∃ w2 : World, s.Alike s1 ∧
        Sustains none (w.setHeap h s1) w2 ∧ (w.setHeap h s1).Spares h (· ≠ p) w2 ∧
        w2.heaps[h]? = some s2 ∧ s2.Alike s3 ∧ w' = w2.setHeap h s3 ∧
        ((∀ c, res ≠ .error (.crash c)) → s3.stack.take s.stack.size = s.stack ∧ s3.frames = s.frames) := by
    intro s3 hnone halike hstack hframes hw3
    subst hnone
    refine ⟨s, s, s3, w, .refl s, ?_, ?_, hs, halike, hw3, fun _ => ⟨hstack, hframes⟩⟩
    · rw [setHeap_self hs]
      exact hid.sustains
    · rw [setHeap_self hs]
      exact .refl h _ w
  cases hfn : (s.offer p o).functionAt s.finalizerSite.pos with
  | error stop =>
    have hnone : e = none := by
      refine hlink.resolve_right ?_
      rintro ⟨q, b, hq, f, name, hf, hbody⟩
      have hat := getElem?_offer s p o
      rw [hq] at hat
      cases hfn.symm.trans (functionAt_of_body hat hf hbody)
    cases stop with
    | fault f =>
      rw [Heap.Site.exec_call_refused hs0 hopen hfn, setHeap_setHeap] at he
      refine hended ((s.offer p o).truncate s.stack.size) hnone ⟨rfl, rfl, rfl, rfl, rfl, rfl⟩ ?_ rfl
        (Prod.mk.inj he).2.symm
      show ((s.offer p o).stack.take s.stack.size).take s.stack.size = s.stack
      rw [take_offer]
      simp
    | crash c =>
      rw [Heap.Site.exec_call_missing hs0 hopen hfn] at he
      exact hended _ hnone (alike_offer s p o) (take_offer s p o) rfl (Prod.mk.inj he).2.symm
  | ok found =>
    obtain ⟨fn, name, arity, code⟩ := found
    have hruns : s.finalizerSite.Runs (s.offer p o) fn name arity code := ⟨hfn, hdepth⟩
    let s1 := s.finalizerSite.enter (s.offer p o) fn arity
    let w2 := (runBody (hostAt n) h code).after (w.setHeap h s1)
    have hw2 : w2.Settled := by
      have houtline := Heap.Site.outline_call hs0 hopen (hostAt n) hruns
      rw [after_eq he, setHeap_setHeap] at houtline
      exact hw'.of_outline houtline
    obtain ⟨hsus, hsp⟩ := sustains_finalizerBody hw hws hid hs hexcuse ho hroom hlink hruns rfl hw2
    obtain ⟨s2, hs2, hsp2⟩ := hsp.heap s1 (get_setHeap hs s1)
    have hstart : s.stack.size + 1 ≤ s1.stack.size := le_size_fitArguments (by rw [hsize]; exact Nat.le_succ _)
    have hpos : s.stack.size ≤ s2.stack.size := by
      rw [hsp2.stack]
      omega
    have hbelow : ∀ i < s.stack.size, s2.stack[i]? = (s.offer p o).stack[i]? := fun i hi => by
      rw [hsp2.stack]
      exact getElem?_fitArguments (Nat.lt_succ_of_lt hi) (by rw [hsize]; exact Nat.le_succ _)
    have hleft : ((runBody (hostAt n) h code).after ((w.setHeap h (s.offer p o)).setHeap h
        s1)).heaps[h]? = some s2 := by
      rw [setHeap_setHeap]
      exact hs2
    have hrun := (Heap.Site.exec_call_run hs0 hopen hfn hdepth hleft).2 _ hsp2.frames hpos
    rw [setHeap_setHeap, he] at hrun
    obtain ⟨rfl, hw3⟩ := Prod.mk.inj hrun
    refine ⟨s1, s2, _, w2, (alike_offer s p o).trans (alike_enter _ _ fn arity), hsus, hsp, hs2,
      alike_finish _ _ _ _ _, hw3, fun hcalm => ?_⟩
    have hleaves := @Heap.Site.leaves_finish name s2 (s.offer p o) s.finalizerSite
      ((runBody (hostAt n) h code).exec (w.setHeap h s1)).1 ?_ hpos ?_ hbelow
    · exact ⟨(hleaves.take (by rw [hsize]; exact Nat.le_add_right _ _)).trans (take_offer s p o), hleaves.frames⟩
    · intro c hc
      exact hcalm c (by rw [hc]; rfl)
    · exact (hw2.isOpen h s2 hs2).trans hopen.symm

end Called

/-- The finalizer of an object counts as started: the object stays linked only if the finalizer is that of
its bridge. -/
theorem sustains_start (hid : w.Identity none) (hs : w.heaps[h]? = some s) (ho : s.object? p = some o) :
    ∃ e1 : Excuse, Sustains e1 w (w.setHeap h (s.startFinalizer p)) ∧ (∀ k q, e1 = some (k, q) → k = h ∧ q = p) ∧
      (e1 = none ∨ ∃ q b, o.finalizer = some q ∧ (s.startFinalizer p).Finalizes q b) ∧
      s.Spares (· ≠ p) (s.startFinalizer p) := by
  have ho1 := object?_started ho
  have hsp : s.Spares (· ≠ p) (s.startFinalizer p) :=
    ⟨rfl, rfl, rfl, rfl, rfl, fun q hq => by rw [object?_startFinalizer, if_neg hq], fun _ h => h⟩
  have hst : o.Strips { o with finalized := true } := ⟨rfl, rfl, rfl, rfl, id, fun _ => rfl, fun _ h => h⟩
  by_cases hun : w.Unlinked h p
  · exact ⟨none, hid.sustains_strips hs hun hsp ho ho1 hst, by simp, .inl rfl, hsp⟩
  · have hretains : w.Preserves none (some (h, p)) h s (s.startFinalizer p) :=
      hid.retains_of_strips hs nofun hsp ho ho1 hst (.inr ⟨rfl, rfl⟩)
    refine ⟨some (h, p), hid.sustains_setHeap hs hretains nofun (hsp.spent ho ho1 hst),
      fun k q hkq => by simpa [eq_comm] using hkq, .inr ?_, hsp⟩
    simp only [Unlinked, not_forall, ne_eq, not_not] at hun
    obtain ⟨r, x, i, br, hx, hbr, rfl, rfl⟩ := hun
    obtain ⟨br', d, t, hbr', -, ht, ⟨o', q, ho', -, -, hq, f, name, hf, hbody⟩, -⟩ := hid.linked r x i hx
    cases hbr.symm.trans hbr'
    cases hs.symm.trans ht
    cases ho.symm.trans ho'
    refine ⟨q, x.bridge, hq, ?_⟩
    by_cases hqp : q = x.ptr
    · subst hqp
      cases ho.symm.trans hf
      exact ⟨_, name, ho1, hbody⟩
    · exact ⟨f, name, (hsp.objects q hqp).trans hf, hbody⟩

section

variable (hw : w.Sound) (hid : w.Identity none) (hs : w.heaps[h]? = some s) (hroom : s.hasRoom = true)
include hw hid hs hroom

theorem sustains_finalizeObject (he : (Heap.finalize (hostAt n) h p).exec w = (res, w'))
    (hw' : w'.Settled) : Sustains none w w' ∧ (res = .ok () → w.Spares h (· ≠ p) w') := by
  have hs1 := get_setHeap hs (s.startFinalizer p)
  have hw1 : (w.setHeap h (s.startFinalizer p)).Sound := (plain_turn hw hs (.start p)).1
  have hws1 : (w.setHeap h (s.startFinalizer p)).Settled := by
    have hgood := (plain_runFinalizer (R := plain) (plain_serves n) h p).good hw1
    rw [after_eq ((exec_finalize _ hs p).symm.trans he)] at hgood
    exact World.Later.settled hgood.2 hw'
  cases ho : s.object? p with
  | none =>
    cases he.symm.trans (exec_finalize_missing _ hs ho)
    refine ⟨hid.sustains_of_objects hs (.inl rfl) (fun q => ?_) rfl, nofun⟩
    rw [object?_startFinalizer]
    split
    case isTrue hq => rw [hq, ho, Option.map_none]
    case isFalse => rfl
  | some o =>
    have ho1 := object?_started ho
    have hbottom : s.bottom ≤ s.stack.size := (hws1.working hw1 hs1).bottom_le
    have hcount : s.Countable := by
      obtain ⟨-, hslots⟩ := hasRoom_iff.mp hroom
      have hlimit : s.limits.stack < 2 ^ 63 := hws1.limited h (s.startFinalizer p) hs1
      show s.stack.size + 2 < 2 ^ 63
      omega
    rcases hcall : (s.finalizerSite.call (hostAt n) h).exec (w.setHeap h (s.calling p o)) with ⟨r, w2⟩
    obtain ⟨s2, hs2⟩ := heap_of_calling (R := plain) hw hs ho hbottom hcount hcall
    obtain ⟨e1, hsus1, hexcuse, hlink, hsp1⟩ := sustains_start hid hs ho
    have hcalled := fun hw2 : w2.Settled =>
      sustains_callFinalizer hw1 hws1 hsus1.1 hs1 hexcuse ho1 hroom hlink (by rw [setHeap_setHeap]; exact hcall) hw2
    obtain ⟨log, hend⟩ := exec_finalize_call hs hbottom hcount ho hs2 r
    have hend := he.symm.trans (hend _ hcall)
    split at hend
    case h_2 =>
      cases hend
      obtain ⟨t1, t2, t3, w3, ha1, hsus, -, ht2, ha3, rfl, -⟩ := hcalled hw'
      have hbegun := hsus1.trans (hsus1.1.sustains_alike hs1 ha1)
      exact ⟨(hbegun.trans hsus).trans (hsus.1.sustains_alike ht2 ha3), nofun⟩
    case h_1 hok =>
      cases hend
      have hcalm : ∀ c, r ≠ .error (.crash c) := by
        rintro c rfl
        cases hok
      let t4 := s2.endFinalizer s.stack.size
      have halike : s2.Alike t4 := ⟨rfl, rfl, rfl, rfl, rfl, rfl⟩
      have hlogged : ({ w2.setHeap h t4 with log } : World).outline = (w2.setHeap h t4).outline := rfl
      have hw2 : w2.Settled := hw'.of_outline (hlogged.trans (outline_alike hs2 halike))
      obtain ⟨t1, t2, t3, w3, ha1, hsus, hsp, ht2, ha3, rfl, hleft⟩ := hcalled hw2
      obtain ⟨hstack, hframes⟩ := hleft hcalm
      have ht3 := get_setHeap ht2 t3
      cases ht3.symm.trans hs2
      have hbegun := hsus1.trans (hsus1.1.sustains_alike hs1 ha1)
      have hended := (hbegun.trans hsus).trans (hsus.1.sustains_alike ht2 (ha3.trans halike))
      have hlog : (w3.setHeap h t4).Silent { w3.setHeap h t4 with log } := .of_state rfl rfl
      rw [setHeap_setHeap]
      refine ⟨hended.trans (hended.1.sustains_silent hlog), fun _ => ?_⟩
      have hspared : (s.startFinalizer p).Spares (· ≠ p) t4 := by
        obtain ⟨t, ht, hsp2⟩ := hsp.heap t1 (get_setHeap hs1 t1)
        cases ht2.symm.trans ht
        exact ha1.spares hsp2 (ha3.trans halike) hstack hframes
      exact ((spares_setHeap hs hsp1).trans (hsp.through hs1 ht2 hspared)).trans hlog.spares

theorem sustains_forM {es : List (HeapPtr × Object)}
    (he : (es.forM fun e => Heap.finalize (hostAt n) h e.1).exec w = (res, w')) (hw' : w'.Settled) :
    Sustains none w w' ∧ (res = .ok () → w.Spares h (fun q => ∀ e ∈ es, q ≠ e.1) w') := by
  induction es generalizing w s with
  | nil =>
    obtain ⟨-, rfl⟩ := Prod.mk.inj he
    exact ⟨hid.sustains, fun _ => .refl h _ w⟩
  | cons e rest ih =>
    have he : (finalize (hostAt n) h e.1 >>= fun _ =>
      rest.forM fun e => finalize (hostAt n) h e.1).exec w = (res, w') := he
    rcases hfirst : (finalize (hostAt n) h e.1).exec w with ⟨stop | _, w1⟩
    · rw [bind_error hfirst] at he
      cases he
      exact ⟨(sustains_finalizeObject hw hid hs hroom hfirst hw').1, nofun⟩
    · rw [bind_ok hfirst] at he
      have hw1 : w1.Sound := by
        rw [← after_eq hfirst]
        exact ((plain_finalize (R := plain) (plain_serves n) h e.1).good hw).1
      have hws1 : w1.Settled := by
        have hgood := (Keeps.forM (R := plain) (l := rest) (fun e _ => plain_finalize (plain_serves n) h e.1)).good hw1
        rw [after_eq he] at hgood
        exact World.Later.settled hgood.2 hw'
      obtain ⟨hsus1, hsp1⟩ := sustains_finalizeObject hw hid hs hroom hfirst hws1
      obtain ⟨s1, hs1, hspared⟩ := (hsp1 rfl).heap s hs
      have hroom1 : s1.hasRoom = true := by
        rw [hasRoom_iff, hspared.frames, hspared.stack, hspared.limits]
        exact hasRoom_iff.mp hroom
      obtain ⟨hsus2, hsp2⟩ := ih hw1 hsus1.1 hs1 hroom1 he
      refine ⟨hsus1.trans hsus2, fun hok => ?_⟩
      exact ((hsp1 rfl).weaken fun q hq => hq e List.mem_cons_self).trans
        ((hsp2 hok).weaken fun q hq e' he' => hq e' (List.mem_cons_of_mem _ he'))

end

end World

/-! ## Freeing -/

namespace Heap

variable {kept : HeapPtr → Prop}

theorem Spares.reachable (hsp : s.Spares kept s') (hkept : ∀ q, s.Reachable q → kept q)
    (hp : s.Reachable p) : s'.Reachable p := by
  induction hp with
  | root hr hn =>
    refine .root ?_ hn
    unfold Rooted at hr ⊢
    rw [hsp.global, hsp.stash, hsp.stack, hsp.frames]
    exact hr
  | reference hq ho hrefers hn ih => exact .reference ih ((hsp.objects _ (hkept _ hq)).trans ho) hrefers hn

theorem ne_null_of_object? {o : Object} (ho : s.object? p = some o) : p ≠ .null := by
  rintro rfl
  cases ho.symm.trans (Table.get?_null _)

theorem Swept.spent (hswept : s.Swept ps s') (hp : s.Spent p) : s'.Spent p := by
  rcases hp with hp | ⟨o, ho, hfin⟩
  · refine .inl ?_
    rw [hswept.retired]
    exact List.mem_append_right _ hp
  · by_cases hm : p ∈ ps
    · refine .inl ?_
      rw [hswept.retired]
      exact List.mem_append_left _ (List.mem_reverse.mpr hm)
    · refine .inr ⟨o, ?_, hfin⟩
      rw [hswept.objects, if_neg hm]
      exact ho

end Heap

namespace World

theorem Identity.sustains_swept (hi : w.Identity none) (hs : w.heaps[h]? = some s)
    (hswept : s.Swept ps s') (hunreached : ∀ p ∈ ps, ¬ s.Reachable p)
    (hlive : ∀ r x i br, w.Live r x i → w.bridges[x.bridge]? = some br → br.heapId = h →
      s.Reachable x.ptr) : Sustains none w (w.setHeap h s') := by
  have hkept : ∀ q, s.Reachable q → s'.object? q = s.object? q := fun q hq => by
    rw [hswept.objects, if_neg fun hm => hunreached q hm hq]
  have hback : ∀ q x, s'.object? q = some x → s.object? q = some x := fun q x hx => by
    rw [hswept.objects] at hx
    split at hx
    · simp at hx
    · exact hx
  have hstash : ∀ st, s.object? s.stash = some st → s.Reachable s.stash := fun st hst =>
    .root (.inr (.inl rfl)) (ne_null_of_object? hst)
  have hfinalizes : ∀ q b, s.Reachable q → s.Finalizes q b → s'.Finalizes q b := by
    rintro q b hq ⟨f, name, hf, hbody⟩
    exact ⟨f, name, (hkept q hq).trans hf, hbody⟩
  have hretains : w.Preserves none none h s s' := by
    refine hi.preserves_of_back hs hback (fun st hst => .inr (hswept.stash ▸ hback _ _ hst)) ?_ ?_
    · rintro b ⟨st, q, hst, hq, hfin⟩
      obtain ⟨f, name, hf, hbody⟩ := hfin
      have hreach := hstash st hst
      have hrefers : st.RefersTo q := .inr (.inr (.inr (KeyMap.mem_values_of_get? hq)))
      refine ⟨st, q, by rw [hswept.stash, hkept _ hreach]; exact hst, hq, ?_⟩
      exact hfinalizes q b (.reference hreach hst hrefers (ne_null_of_object? hf)) ⟨f, name, hf, hbody⟩
    · rintro r x i br d hx hbr hbh - ⟨o, q, ho, hkey, hcls, hq, hfin⟩ hunstarted
      obtain ⟨f, name, hf, hbody⟩ := hfin
      have hreach := hlive r x i br hx hbr hbh
      have hreachq : s.Reachable q := .reference hreach ho (.inr (.inl hq)) (ne_null_of_object? hf)
      refine ⟨⟨o, q, (hkept _ hreach).trans ho, hkey, hcls, hq, hfinalizes q _ hreachq ⟨f, name, hf, hbody⟩⟩,
        .inl fun o' ho' => ?_⟩
      exact hunstarted.resolve_right nofun o' (hback _ _ ho')
  exact hi.sustains_setHeap hs hretains nofun fun q hq => hswept.spent hq

theorem beginCollection_eq (hroom : s.hasRoom = true) :
    w.beginCollection h s = w.setHeap h { s with collecting := true, allocs := 0 } := by
  unfold beginCollection
  rw [hroom, Bool.and_true]

/-- The finalizers of a collection: if they end, all that roots reach is as before, and the wrappers of
live records are in reach. -/
theorem sustains_finalizeGarbage {res : Except Stop Nat} (hw : w.Sound) (hid : w.Identity none)
    (hs : w.heaps[h]? = some s) (hidle : s.collecting = false) (hroom : s.hasRoom = true)
    (he : (Heap.finalizeGarbage (hostAt n) h).exec (w.beginCollection h s) = (res, w'))
    (hw' : w'.Settled) :
    Sustains none w w' ∧ ∀ k, res = .ok k → w.Spares h s.Reachable w' ∧
      ∀ s' : Heap, w'.heaps[h]? = some s' → ∀ r x i br, w'.Live r x i →
        w'.bridges[x.bridge]? = some br → br.heapId = h → s'.Reachable x.ptr := by
  let s1 : Heap := { s with collecting := true, allocs := 0 }
  have halike : s.Alike s1 := ⟨rfl, rfl, rfl, rfl, rfl, rfl⟩
  have hs1 : (w.beginCollection h s).heaps[h]? = some s1 := heaps_beginCollection hs
  have hbegun : Sustains none w (w.beginCollection h s) := by
    rw [beginCollection_eq hroom]
    exact hid.sustains_alike hs halike
  have hw1 := (plain_beginCollection hw hs hidle).1
  have hgood := (plain_finalizeGarbage (R := plain) (plain_serves n) h).good hw1
  rw [after_eq he] at hgood
  have haddr : s.table.Addressable := (World.Later.settled hgood.2 hw').addressable h s1 hs1
  let es := s1.garbage.filter fun e => awaitsFinalizer e.2
  have hall : ∃ u : Except Stop Unit, (es.forM fun e => finalize (hostAt n) h e.1).exec
      (w.beginCollection h s) = (u, w') ∧ ∀ k, res = .ok k → u = .ok () := by
    unfold finalizeGarbage at he
    rw [bind_ok (exec_heap hs1)] at he
    rcases hloop : (es.forM fun e => finalize (hostAt n) h e.1).exec (w.beginCollection h s) with
      ⟨stop | _, w1⟩
    · rw [bind_error hloop] at he
      cases he
      exact ⟨_, rfl, nofun⟩
    · rw [bind_ok hloop] at he
      cases he
      exact ⟨_, rfl, fun _ _ => rfl⟩
  obtain ⟨u, hloop, hok⟩ := hall
  obtain ⟨hsus, hsp⟩ := sustains_forM hw1 hbegun.1 hs1 hroom hloop hw'
  refine ⟨hbegun.trans hsus, fun k hk => ?_⟩
  have hspared := hsp (hok k hk)
  -- What is not to be finalized is spared; what roots reach is not to be finalized.
  have hreach : ∀ {q}, s1.Reachable q ↔ s.Reachable q := reachable_iff_of_eq s s1 rfl rfl rfl rfl rfl
  have hpending : ∀ q, (∀ e ∈ es, q ≠ e.1) ↔ ¬ (s.Awaits q ∧ ¬ s.Reachable q) := by
    intro q
    constructor
    · rintro hne ⟨⟨o, ho, ha⟩, hr⟩
      have hgarbage := (mem_garbage (s := s1) haddr).mpr ⟨ho, fun hq => hr (hreach.mp hq)⟩
      exact hne (q, o) (List.mem_filter.mpr ⟨hgarbage, ha⟩) rfl
    · rintro hne ⟨q', o⟩ hm rfl
      obtain ⟨hgarbage, ha⟩ := List.mem_filter.mp hm
      obtain ⟨ho, hr⟩ := (mem_garbage (s := s1) haddr).mp hgarbage
      exact hne ⟨⟨o, ho, ha⟩, fun hq => hr (hreach.mpr hq)⟩
  have hkept : ∀ q, s.Reachable q → ∀ e ∈ es, q ≠ e.1 := fun q hq => (hpending q).mpr fun hp => hp.2 hq
  refine ⟨?_, fun s' hs' r x i br hx hbr hbh => ?_⟩
  · refine Spares.trans ?_ (hspared.weaken hkept)
    rw [beginCollection_eq hroom]
    exact spares_setHeap hs ⟨rfl, rfl, rfl, rfl, rfl, fun _ _ => rfl, fun _ hp => hp⟩
  · obtain ⟨t, ht, hheap⟩ := hspared.heap s1 hs1
    cases hs'.symm.trans ht
    obtain ⟨br', d, t, hbr', -, ht, ⟨o, q, ho, -, -, hq, -⟩, hunstarted⟩ := hsus.1.linked r x i hx
    cases hbr.symm.trans hbr'
    rw [hbh] at ht
    cases hs'.symm.trans ht
    have hfin : o.finalized = false := hunstarted.resolve_right nofun o ho
    have hawaits : awaitsFinalizer o = true := by simp [awaitsFinalizer, hq, hfin]
    refine hheap.reachable (fun q hq => hkept q (hreach.mp hq)) (hreach.mpr (by_contra fun hr => ?_))
    by_cases hp : s.Awaits x.ptr
    · rw [hk] at he
      obtain ⟨o', ho', hstarted⟩ := started_of_finalizeGarbage hw hs hidle he hs'
        (hw'.isOpen h s' hs') (hw'.addressable h s' hs') hp hr
      cases ho.symm.trans ho'
      cases hfin.symm.trans hstarted
    · have hsame := hheap.objects x.ptr ((hpending x.ptr).mpr fun hboth => hp hboth.1)
      exact hp ⟨o, hsame.symm.trans ho, hawaits⟩

theorem sustains_collect {res : Except Stop CollectStats} (hw : w.Sound) (hid : w.Identity none)
    (hs : w.heaps[h]? = some s) (he : (Heap.collect (hostAt n) h).exec w = (res, w')) (hw' : w'.Settled) :
    Sustains none w w' ∧ ∀ st, res = .ok st → w.Spares h s.Reachable w' := by
  by_cases hbusy : s.collecting = true ∨ s.closed = true
  · rw [exec_collect_idle _ hs hbusy] at he
    cases he
    exact ⟨hid.sustains, fun _ _ => .refl h _ w⟩
  obtain ⟨hidle, hopen⟩ : s.collecting = false ∧ s.closed = false := by simpa using hbusy
  have hw1 := (plain_beginCollection hw hs hidle).1
  have hgood := (plain_finalizeGarbage (R := plain) (plain_serves n) h).good hw1
  obtain ⟨s2, hs2, -⟩ := hgood.heap (heaps_beginCollection hs)
  obtain ⟨s3, log, hafter, hcases⟩ := after_collect (hostAt n) hs hopen hidle hs2
  rw [after_eq he] at hafter
  rcases hfin : (finalizeGarbage (hostAt n) h).exec (w.beginCollection h s) with ⟨u, w2⟩
  rw [after_eq hfin] at hgood hs2 hafter
  rw [hfin] at hcases
  subst hafter
  let s4 : Heap := { s3 with collecting := false }
  have houtline : ({ w2.setHeap h s4 with log } : World).outline = w2.outline := by
    show (w2.setHeap h s4).outline = _
    rcases hcases with ⟨-, rfl⟩ | ⟨-, hswept⟩
    · exact outline_setHeap hs2 rfl rfl rfl
    · exact outline_setHeap hs2 hswept.closed hswept.slots hswept.limits
  have hws2 : w2.Settled := hw'.of_outline houtline
  have hroom : s.hasRoom = true := by
    have horderly := (World.Later.toProceeds hgood.2).orderly hws2.orderly
    exact (Bool.and_eq_true_iff.mp horderly).2
  obtain ⟨hsus, hends⟩ := sustains_finalizeGarbage hw hid hs hidle hroom hfin hws2
  have hlog : (w2.setHeap h s4).Silent { w2.setHeap h s4 with log } := .of_state rfl rfl
  have halike : s3.Alike s4 := ⟨rfl, rfl, rfl, rfl, rfl, rfl⟩
  rcases hcases with ⟨⟨stop, hstop⟩, rfl⟩ | ⟨⟨k, hk⟩, hswept⟩
  · have hlast := hsus.1.sustains_alike hs2 halike
    refine ⟨(hsus.trans hlast).trans (hlast.1.sustains_silent hlog), fun st hst => ?_⟩
    subst hst
    obtain ⟨_, _, _, _, hfin', -⟩ := collect_eq_ok hs hopen hidle he
    simpa using hstop.symm.trans (congrArg Prod.fst (hfin.symm.trans hfin'))
  · obtain ⟨hspared, hlive⟩ := hends k hk
    have hun := unreached_garbage (hws2.addressable h s2 hs2)
    have hfreed := hsus.1.sustains_swept hs2 hswept (fun p hp => ((hun p).mp hp).2) (hlive s2 hs2)
    have hlast := hfreed.1.sustains_alike (get_setHeap hs2 s3) halike
    rw [setHeap_setHeap] at hlast
    refine ⟨((hsus.trans hfreed).trans hlast).trans (hlast.1.sustains_silent hlog), fun _ _ => ?_⟩
    obtain ⟨t, ht, hheap⟩ := hspared.heap s hs
    cases hs2.symm.trans ht
    have hswept4 : s2.Spares s.Reachable s4 := by
      refine ⟨hswept.stack, hswept.frames, hswept.global, hswept.stash, hswept.limits, fun q hq => ?_, fun p hp => ?_⟩
      · show s3.object? q = _
        rw [hswept.objects, if_neg fun hm => ((hun q).mp hm).2 (hheap.reachable (fun _ h => h) hq)]
      · show p ∈ s3.retired
        rw [hswept.retired]
        exact List.mem_append_right _ hp
    exact (hspared.trans (spares_setHeap hs2 hswept4)).trans hlog.spares

end World

theorem identity_collects (n : Nat) : identity.Collects n := by
  intro w h hw
  have hplain : plain.Good w _ := plain_collects (plain_serves n) w h hw.1
  refine identified_of hw hplain fun hw' _ hid => ?_
  rcases he : (collect (hostAt n) h).exec w with ⟨res, w'⟩
  rw [after_eq he] at hw' ⊢
  cases hs : w.heaps[h]? with
  | none =>
    unfold collect at he
    rw [bind_error (exec_heap_none hs)] at he
    cases he
    exact hid.sustains
  | some s => exact (World.sustains_collect hw.1 hid hs he hw').1

end Tether
