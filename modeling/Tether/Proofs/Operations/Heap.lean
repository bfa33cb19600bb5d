import Tether.Proofs.Regime

/-!
# Calls and new objects keep every regime
-/

namespace Tether.Regime

open M Heap

variable {s : Heap} {pos start nargs : Nat} {name : String} {arity : Int} {w : World} {h : HeapId} {o : Object}

variable {R : Regime} {F : R.Fact} {n : Nat}

/-! ## Calls -/

theorem functionAt_eq_ok {fn : HeapPtr} {code : Option Code} (h : s.functionAt pos = .ok (fn, name, arity, code)) :
    s.stack[pos]? = some (.object fn) ∧ ∃ o, s.object? fn = some o ∧ o.body = .function name arity code := by
  have hnot : ∀ {t : Except Stop String} {f : String → Stop},
      (t >>= fun x => (.error (f x) : Except Stop (HeapPtr × String × Int × Option Code))) ≠
        .ok (fn, name, arity, code) := by
    intro t f ht
    obtain ⟨x, -, ht⟩ := bind_eq_ok.mp ht
    simp at ht
  unfold functionAt at h
  split at h
  · rename_i p hp
    obtain ⟨o, ho, h⟩ := bind_eq_ok.mp h
    split at h
    · rename_i name' arity' code' hbody
      simp only [pure, Except.pure, Except.ok.injEq, Prod.mk.injEq] at h
      obtain ⟨rfl, rfl, rfl, rfl⟩ := h
      exact ⟨hp, o, object?_of_deref ho, hbody⟩
    · exact absurd h hnot
  · exact absurd h hnot

/-- Code runs with one more frame. Afterwards the innermost frame is left; if there is none, that is a
crash. -/
theorem exec_invoke (host : Host) {s' : Heap} (hs : w.heaps[h]? = some s) (f : Frame) (code : Option Code)
    (hs' : ((Heap.runBody host h code).after (w.setHeap h { s with frames := f :: s.frames })).heaps[h]? = some s') :
    (s'.frames = [] → (Heap.invoke host h f code).exec w = (.error (.crash .runtime),
      (Heap.runBody host h code).after (w.setHeap h { s with frames := f :: s.frames }))) ∧
    ∀ g rest, s'.frames = g :: rest → (Heap.invoke host h f code).exec w =
      (((Heap.runBody host h code).exec (w.setHeap h { s with frames := f :: s.frames })).1,
        ((Heap.runBody host h code).after (w.setHeap h { s with frames := f :: s.frames })).setHeap h
          { s' with frames := rest }) := by
  unfold invoke
  rw [bind_ok (exec_modifyHeap hs _)]
  refine ⟨fun hframes => exec_andFinally_error ?_, fun g rest hframes => exec_andFinally_ok ?_⟩
  · unfold leaveFrame
    rw [bind_ok (exec_heap hs'), hframes]
    rfl
  · unfold leaveFrame
    rw [bind_ok (exec_heap hs'), hframes]
    exact exec_modifyHeap hs' _

theorem le_size_fitArguments (h : start ≤ s.stack.size) : start ≤ (s.fitArguments start nargs arity).stack.size := by
  unfold fitArguments
  split
  · exact h
  · split
    · show start ≤ (s.stack.take (start + arity.toNat)).size
      simp only [Array.take_eq_extract, Array.size_extract]
      omega
    · show start ≤ (s.stack ++ _).size
      rw [Array.size_append]
      omega

theorem fitArguments_eq (s : Heap) (start nargs : Nat) (arity : Int) : s.fitArguments start nargs arity =
      { s with stack := (s.fitArguments start nargs arity).stack } := by
  unfold fitArguments
  split
  · rfl
  · split <;> rfl

theorem holds_resultOf (hs : s.Sound) {k : Int} {v : Value} (h : s.resultOf name start k = .ok v) :
    s.HoldsValue v := by
  unfold Heap.resultOf at h
  split at h
  · cases h
    exact holdsValue_of_ne rfl
  · split at h
    · cases h
      cases hb : s.stack.back? with
      | none => exact holdsValue_of_ne rfl
      | some v => exact hs.stack v (Array.mem_of_back? hb)
    · simp at h

theorem good_leaveResult {k : Except Fault Int} (hw : R.inv w) (hs : w.heaps[h]? = some s)
    (hpos : s.bottom ≤ pos) (hle : pos ≤ start) (hdeep : R.deep h start w) :
    R.Good w ((Heap.leaveResult h pos name start k).after w) := by
  unfold leaveResult
  rw [after_bind_ok (exec_heap hs)]
  simp only [crash_bind]
  split
  · exact R.underflow hw hs hdeep (by omega)
  refine Good.bind (good_modifyHeap hw hs (amends_truncate hpos)) fun _ w' he hg => ?_
  rw [exec_modifyHeap hs] at he
  cases he
  cases hv : k.bind (s.resultOf name start) with
  | error f => exact .refl hg.1
  | ok v =>
    refine good_modifyHeap hg.1 (World.get_setHeap hs _) (amends_push fun hcut => ?_)
    cases k with
    | error f => simp [Except.bind] at hv
    | ok k => exact holds_resultOf ((R.sound hw).heaps h s hs hcut.isOpen hcut.addressable) hv

section Calls

variable (hinvokes : R.Invokes n)
include hinvokes

theorem good_callAt {this : Value} (hw : R.inv w) (hs : w.heaps[h]? = some s) (hbottom : s.bottom ≤ pos)
    (hpos : pos ≤ start) (hstart : pos < s.stack.size → start ≤ s.stack.size)
    (hthis : s.Working → s.HoldsValue this) :
    R.Good w ((Heap.callAt (hostAt n) h pos this start nargs).after w) := by
  have hcut : R.Good w ((modifyHeap h (·.truncate pos)).after w) := good_modifyHeap hw hs (amends_truncate hbottom)
  unfold callAt
  rw [after_bind_ok (exec_heap hs)]
  simp only [fail_bind]
  split
  · exact hcut.bind fun _ w' _ hg => .refl hg.1
  rename_i hopen
  refine Good.bind ?_ fun found w1 hfound _ => ?_
  · have hread := exec_readHeap hs (·.functionAt pos)
    unfold onFault
    cases hf : s.functionAt pos with
    | ok a =>
      rw [hf] at hread
      rw [after_bind_ok (a := .ok a) (by rw [exec_catchFault, hread]; rfl)]
      exact .refl hw
    | error e =>
      rw [hf] at hread
      cases e with
      | fault f =>
        rw [after_bind_ok (a := .error f) (by rw [exec_catchFault, hread]; rfl)]
        exact hcut.bind fun _ w' _ hg => .refl hg.1
      | crash c =>
        rw [after_bind_error (e := .crash c) (by rw [exec_catchFault, hread]; rfl)]
        exact .refl hw
  obtain ⟨fn, name, arity, code⟩ := found
  obtain ⟨s1, hs1, hfn, rfl⟩ := exec_readHeap_eq_ok.mp (exec_onFault_eq_ok.mp hfound)
  rw [hs] at hs1
  cases hs1
  obtain ⟨hslot, o, ho, hbody⟩ := functionAt_eq_ok hfn
  have hsize := hstart (Array.getElem?_eq_some_iff.mp hslot).1
  split
  · exact hcut.bind fun _ w' _ hg => .refl hg.1
  rename_i hdepth
  refine Good.bind (good_modifyHeap hw hs (amends_fitArguments (Nat.le_trans hbottom hpos))) fun _ w2 he hg => ?_
  rw [exec_modifyHeap hs] at he
  cases he
  -- The frame of the call is inside the stack, and what it names is there.
  have hs2 := World.get_setHeap hs (s.fitArguments start nargs arity)
  have heq := fitArguments_eq s start nargs arity
  obtain ⟨hinvoked, hdeep⟩ := hinvokes _ h _ ⟨fn, this, start, nargs⟩ code hg.1 hs2 (by
      rw [heq]
      exact Nat.le_trans hbottom hpos) (le_size_fitArguments hsize) (by
      rw [heq]
      exact Int.not_le.mp hdepth) (by
      rw [heq]
      simpa using hopen) (by
      rw [heq]
      intro hwork
      have hworks := (R.sound hw).working hs hwork.isOpen hwork.addressable
      exact ⟨holds_of_object? ho, hthis hworks⟩) (by
      unfold sane
      split
      · exact (Bound _ _).stable hg.2 (R.usable_bound hw hs (by simpa using hopen) ho hbody)
      · exact (Tends _ _).stable hg.2 (R.tends_code hw hs (by simpa using hopen) ho hbody)
      · trivial)
  refine Good.bind (by rw [after_catchFault]; exact hinvoked) fun k w3 he3 hg' => ?_
  obtain ⟨s3, hs3, hl⟩ := hg'.heap hs2
  refine good_leaveResult hg'.1 hs3 (Nat.le_trans hl.bottom_le ?_) hpos (hdeep k w3 he3)
  rw [heq]
  exact hbottom

theorem keeps_call (h : HeapId) (nargs : Int) : Keeps F (Heap.call (hostAt n) h nargs) := by
  intro w hw _
  refine Good.bind ((keeps_heap h).good hw) fun s w' he hg => ?_
  obtain ⟨hs, rfl⟩ := exec_heap_eq_ok.mp he
  simp only [fail_bind]
  split
  · exact .refl hw
  · exact good_callAt hinvokes hw hs (by omega) (Nat.le_succ _) id fun _ => holdsValue_of_ne rfl

theorem keeps_callMethod (h : HeapId) (nargs : Int) : Keeps F (Heap.callMethod (hostAt n) h nargs) := by
  intro w hw _
  refine Good.bind ((keeps_heap h).good hw) fun s w' he hg => ?_
  obtain ⟨hs, rfl⟩ := exec_heap_eq_ok.mp he
  simp only [fail_bind]
  split
  · exact .refl hw
  · refine Good.bind ((keeps_need _).good hw) fun this w'' hthis _ => ?_
    obtain ⟨hslot, rfl⟩ := exec_need_eq_ok.mp hthis
    have hlt := (Array.getElem?_eq_some_iff.mp hslot).1
    exact good_callAt hinvokes hw hs (by omega) (by omega) (fun _ => hlt)
      fun hwork => hwork.stack _ (Array.mem_of_getElem? hslot)

theorem keeps_callProp (h : HeapId) (i : Int) (k : String) (nargs : Int) :
    Keeps F (Heap.callProp (hostAt n) h i k nargs) := by
  refine (keeps_heap h).bind_of fun s w w' hw hF he hg => ?_
  obtain ⟨hs, rfl⟩ := exec_heap_eq_ok.mp he
  cases hv : s.value? i with
  | none => exact .refl hw
  | some this =>
    simp only [fail_bind]
    split
    · exact .refl hw
    rename_i htop
    cases this with
    | object p =>
      have hstart : s.bottom ≤ s.stack.size - nargs.toNat := by
        unfold top at htop
        omega
      exact Good.bind (good_modifyHeap hw hs (amends_beneath k hstart (Nat.sub_le _ _) hv))
        fun _ w' _ hg => keeps_callMethod hinvokes h nargs w' hg.1 (F.stable hg.2 hF)
    | _ =>
      exact (keeps_popN (F := F) h nargs w' hw hF).bind fun _ w' _ hg =>
        ((keeps_heap h).good hg.1).bind fun _ w'' _ hg' => .refl hg'.1

end Calls

/-! ## New objects -/

section Allocation

variable (hcollects : R.Collects n)
include hcollects

theorem keeps_maybeCollect (h : HeapId) : Keeps F (Heap.maybeCollect (hostAt n) h) := by
  refine (keeps_heap h).bind fun s => .ite (fun _ => ?_) fun _ => keeps_pure _
  exact Keeps.bind (fun w hw _ => hcollects w h hw) fun _ => keeps_pure _

omit hcollects in
theorem newObject_eq_ok {w' : World} {p : HeapPtr} (he : (Heap.newObject (hostAt n) h o).exec w = (.ok p, w')) :
    ∃ w1 s, (Heap.maybeCollect (hostAt n) h).exec w = (.ok (), w1) ∧ w1.heaps[h]? = some s ∧
      p = (s.table.insert o).1 ∧ w' = w1.setHeap h (s.withObject o) := by
  obtain ⟨u, w1, hm, he⟩ := bind_ok_iff.mp he
  obtain ⟨s, s', hs, hf, rfl⟩ := exec_onHeap_eq_ok.mp he
  cases hf
  exact ⟨w1, s, hm, hs, rfl, rfl⟩

omit hcollects in
theorem holds_placed {w : World} (hw : R.inv w) (hs : w.heaps[h]? = some s) (hwork : (s.withObject o).Working) :
    (s.withObject o).Holds (s.table.insert o).1 := by
  have haddr := Nat.lt_of_le_of_lt (Table.slots_size_le_insert s.table o) hwork.addressable
  have hsound := (R.sound hw).heaps h s hs hwork.isOpen haddr
  refine holds_of_object? (o := o) ?_
  rw [object?_withObject hsound hwork.addressable, if_pos rfl]

section

variable (h : HeapId) (ho : o.Blank)
  (hcode : ∀ name arity b c, o.body = .function name arity (some (.bound b c)) → F.Gives (Bound b c))
include ho hcode

theorem keeps_newObject
    (hfinalizer : ∀ name arity b, o.body = .function name arity (some (.finalizer b)) → F.Gives (Tends h b) := by simp) :
    Keeps F (Heap.newObject (hostAt n) h o) := by
  refine (keeps_maybeCollect hcollects h).bind fun _ w hw hF => .onHeap hw fun s a s' hs he => ?_
  cases he
  exact R.alloc hw hs ho (fun name arity b c hb => hcode name arity b c hb w hF)
    fun name arity b hb => hfinalizer name arity b hb w hF

theorem keeps_pushNew
    (hfinalizer : ∀ name arity b, o.body = .function name arity (some (.finalizer b)) → F.Gives (Tends h b) := by simp) :
    Keeps F (Heap.pushNew (hostAt n) h o) := by
  refine (keeps_newObject hcollects h ho hcode hfinalizer).bind_of fun p w w' hw hF he hg => ?_
  obtain ⟨w1, s, hm, hs, rfl, rfl⟩ := newObject_eq_ok he
  have hw1 : R.inv w1 := by
    rw [← after_eq hm]
    exact ((keeps_maybeCollect hcollects h).good hw).1
  refine Good.bind (good_modifyHeap hg.1 (World.get_setHeap hs _)
    (amends_push fun hwork => holdsValue_object.mpr (holds_placed hw1 hs hwork))) fun _ w'' _ hg' => ?_
  exact ((keeps_heap h).good hg'.1).bind fun _ w3 _ hg'' => .refl hg''.1

end

theorem keeps_pushObject (h : HeapId) : Keeps F (Heap.pushObject (hostAt n) h) :=
  keeps_pushNew hcollects h (.of_body _) (by simp)

theorem keeps_pushFunc (h : HeapId) (name : String) (arity : Int) (code : Option Code)
    (hcode : ∀ b c, code = some (.bound b c) → F.Gives (Bound b c))
    (hfinalizer : ∀ b, code = some (.finalizer b) → F.Gives (Tends h b) := by simp) :
    Keeps F (Heap.pushFunc (hostAt n) h name arity code) := by
  refine keeps_pushNew hcollects h (.named ..) (fun name' arity' b c hb => ?_) fun name' arity' b hb => ?_
  · exact hcode b c (Body.function.inj hb).2.2
  · exact hfinalizer b (Body.function.inj hb).2.2

theorem keeps_pushError (h : HeapId) (f : Option Fault) : Keeps F (Heap.pushError (hostAt n) h f) := by
  cases f with
  | none =>
    refine (keeps_newObject hcollects h (.named ..) ?_).bind fun _ => keeps_crash _
    simp
  | some f =>
    have hprops : Properties.Becomes {} ((({} : Properties Value).put "name" (.string f.scriptName)).put "message"
        (.string f.message)) :=
      ⟨[("name", some (.string f.scriptName)), ("message", some (.string f.message))], rfl⟩
    refine (keeps_pushNew hcollects h ⟨rfl, hprops, rfl, rfl, rfl⟩ ?_).returns
    simp

omit hcollects in
theorem keeps_allocBytes (h : HeapId) (size : Nat) : Keeps F (Heap.allocBytes h size) := by
  refine (keeps_heap h).bind fun s => keeps_get.bind fun w => ?_
  simp only
  split
  · split
    · exact (keeps_log _ _ _ _).bind fun _ => keeps_fail _
    · exact keeps_fail _
  · split
    · exact (keeps_modifyHeap fun _ _ _ _ _ => .restore _).bind fun _ => keeps_fail _
    · refine (keeps_modifyHeap fun _ _ _ _ _ => .restore _).bind fun _ => ?_
      exact Keeps.bind (keeps_modify fun _ => .of_state rfl rfl) fun _ =>
        keeps_pure _

theorem keeps_pushBuffer (h : HeapId) (size : Int) : Keeps F (Heap.pushBuffer (hostAt n) h size) := by
  unfold pushBuffer
  have hpush : ∀ b : Buffer, Keeps F (pushNew (hostAt n) h { body := .buffer b }) := fun b =>
    keeps_pushNew hcollects h (.of_body _) (by simp)
  refine .ite (fun _ => keeps_fail _) fun _ => .ite (fun _ => ?_) fun _ => ?_
  · exact (keeps_allocBytes h _).bind fun _ => (hpush _).returns
  · exact (keeps_pure _).bind fun _ => (hpush _).returns

theorem keeps_pushExternal (h : HeapId) (data : Option Slice) : Keeps F (Heap.pushExternal (hostAt n) h data) := by
  refine (keeps_pushNew hcollects h (.of_body _) ?_).returns
  simp

omit hcollects in
theorem keeps_release (h : HeapId) (p : HeapPtr) : Keeps F (Heap.release h p) := by
  refine (keeps_heap h).bind_of fun s w w' hw hF he hg => ?_
  obtain ⟨hs, rfl⟩ := exec_heap_eq_ok.mp he
  refine Good.bind (good_modifyHeap hw hs (amends_releaseBuffer p)) fun _ w'' _ hg => ?_
  split
  · exact (keeps_log _ _ _ _).good hg.1
  · exact .refl hg.1

omit hcollects in
theorem keeps_detach (h : HeapId) (i : Int) : Keeps F (Heap.detach h i) := by
  refine (keeps_heap h).bind fun s => (keeps_readHeap h _).bind fun o => ?_
  split
  · exact .ite (fun _ => keeps_release h _) fun _ => keeps_throw _
  · exact keeps_throw _

theorem keeps_leaveError (h : HeapId) (height : Int) (f : Fault) :
    Keeps F (Heap.leaveError (hostAt n) h height f) := by
  refine (keeps_modifyHeap fun w s _ _ _ => ?_).bind fun _ =>
    (keeps_pushError hcollects h _).bind fun _ => keeps_fail _
  split
  · exact amends_truncate (by omega)
  · exact .restack (fits_stack s)

variable (hinvokes : R.Invokes n)
include hinvokes

theorem keeps_pcall (h : HeapId) (nargs : Int) : Keeps F (Heap.pcall (hostAt n) h nargs) := by
  refine (keeps_heap h).bind fun s => (keeps_call hinvokes h nargs).catchFault.bind fun r => ?_
  cases r with
  | ok _ => exact keeps_pure _
  | error f => exact keeps_leaveError hcollects h _ f

theorem keeps_pcallMethod (h : HeapId) (nargs : Int) : Keeps F (Heap.pcallMethod (hostAt n) h nargs) := by
  refine (keeps_heap h).bind fun s =>
    (keeps_callMethod hinvokes h nargs).catchFault.bind fun r => ?_
  cases r with
  | ok _ => exact keeps_pure _
  | error f => exact keeps_leaveError hcollects h _ f

end Allocation

end Tether.Regime
