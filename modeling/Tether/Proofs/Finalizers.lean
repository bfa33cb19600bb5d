import Tether.Proofs.Abiding
import Tether.Proofs.Calls
import Tether.Proofs.Slots

/-!
# Which finalizers a collection runs

A collection calls the finalizers of the objects that wait for one and that no root reaches. These are
ordinary calls, one frame above whatever was running, so they are refused where no more frames are
allowed.
-/

namespace Tether

open Regime M Heap

variable {pos : Nat} {q : HeapPtr} {f : Object} {name : String} {arity : Int} {code : Option Code}
  {ps : List HeapPtr} {s' : Heap} {w2 : World}

variable {n : Nat} {w w' : World} {h : HeapId} {s s2 : Heap} {p : HeapPtr} {o : Object}

namespace Heap

/-! ## Where finalizers are called -/

theorem value?_enter (s : Heap) (p : HeapPtr) (o : Object) (fn : HeapPtr) (arity : Int) :
    (s.finalizerSite.enter (s.offer p o) fn arity).value? 0 =
      if arity = 0 then none else some (.object p) := by
  have hlast : (s.offer p o).stack[s.stack.size + 1]? = some (.object p) := by
    show ((s.stack.push _).push _)[s.stack.size + 1]? = _
    rw [Array.getElem?_push, if_pos (by simp)]
  have hsize := size_offer s p o
  have hvalue : (s.finalizerSite.enter (s.offer p o) fn arity).value? 0 =
      ((s.offer p o).fitArguments (s.stack.size + 1) 1 arity).stack[s.stack.size + 1]? := value?_zero _
  rw [hvalue]
  unfold fitArguments
  split
  case isTrue hneg => rwa [if_neg (by omega)]
  case isFalse =>
    split
    case isTrue hnone =>
      rw [if_pos (by omega)]
      refine Array.getElem?_eq_none ?_
      show ((s.offer p o).stack.take _).size ≤ _
      rw [Array.take_eq_extract, Array.size_extract]
      omega
    case isFalse =>
      show ((s.offer p o).stack ++ Array.replicate (arity.toNat - 1) Value.undefined)[ s.stack.size + 1]? = _
      rw [if_neg (by omega), Array.getElem?_append_left (by omega)]
      exact hlast

theorem stack_enter_one (s : Heap) (p : HeapPtr) (o : Object) (fn : HeapPtr) :
    (s.finalizerSite.enter (s.offer p o) fn 1).stack = (s.offer p o).stack := by
  show ((s.offer p o).fitArguments (s.stack.size + 1) 1 1).stack = _
  unfold fitArguments
  simp

theorem functionAt_of_body (hv : s.stack[pos]? = some (.object q)) (hf : s.object? q = some f)
    (hbody : f.body = .function name arity code) : s.functionAt pos = .ok (q, name, arity, code) := by
  unfold functionAt
  rw [hv]
  simp only [deref_eq hf, bind, Except.bind, hbody]
  rfl

theorem functionAt_of_missing (hv : s.stack[pos]? = some (.object q)) (hq : s.object? q = none) :
    s.functionAt pos = .error (.crash .runtime) := by
  unfold functionAt deref
  rw [hv]
  simp only [hq]
  rfl

theorem function_started (hf : s.object? q = some f) (hbody : f.body = .function name arity code) :
    ∃ f', (s.startFinalizer p).object? q = some f' ∧ f'.body = .function name arity code := by
  rw [object?_startFinalizer]
  split
  · exact ⟨{ f with finalized := true }, by rw [hf]; rfl, hbody⟩
  · exact ⟨f, hf, hbody⟩

theorem getElem?_calling (s : Heap) (p : HeapPtr) (o : Object) :
    (s.calling p o).stack[s.finalizerSite.pos]? = some (.object (o.finalizer.getD .null)) :=
  getElem?_offer (s.startFinalizer p) p { o with finalized := true }

theorem exec_call_unarmed {host : Host} (hs : w.heaps[h]? = some s) (hopen : s.closed = false)
    (hfin : o.finalizer = none) :
    (s.finalizerSite.call host h).exec (w.setHeap h (s.calling p o)) =
      (.error (.crash .runtime), w.setHeap h (s.calling p o)) := by
  have hat := getElem?_calling s p o
  rw [hfin] at hat
  exact Site.exec_call_missing (World.get_setHeap hs (s.calling p o)) hopen
    (functionAt_of_missing hat (Table.get?_null _))

theorem Armed.functionAt {fn : HeapPtr} (harmed : s.Armed) (ho : s.object? p = some o)
    (hfin : o.finalizer = some fn) :
    ∃ f name arity code, s.object? fn = some f ∧ f.body = .function name arity code ∧
      (s.calling p o).functionAt s.finalizerSite.pos = .ok (fn, name, arity, code) := by
  obtain ⟨f, hf, hisf⟩ := harmed p o fn ho hfin
  obtain ⟨name, arity, code, hbody⟩ := body_of_isFunction hisf
  obtain ⟨f', hf', hbody'⟩ := function_started (p := p) hf hbody
  have hat := getElem?_calling s p o
  rw [hfin] at hat
  exact ⟨f, name, arity, code, hf, hbody, functionAt_of_body hat hf' hbody'⟩

/-! ## Finalizers that are entered -/

/-- A heap in which the body of a finalizer begins: in a frame of its own above what was running,
supplied with one argument. This is the object, which a function of arity zero does not look at. -/
structure Entered (s : Heap) (p fn : HeapPtr) (arity : Int) (s1 : Heap) : Prop where
  frames : s1.frames = ⟨fn, .undefined, s.stack.size + 1, 1⟩ :: s.frames
  argument : arity ≠ 0 → s1.value? 0 = some (.object p)
  started : s1.Started p

/-- The heap that the body of a finalizer left, after it ended: its frame is gone, the stack has the
height that it had, and the finalizer counts. -/
def afterFinalizer (s s2 : Heap) : Heap := { s2 with frames := s.frames }.endFinalizer s.stack.size

/-- The body of the finalizer of an object is entered, and ends. -/
inductive Enters (host : Host) (h : HeapId) (p : HeapPtr) (w : World) : World → Prop
  | body {s s1 s2 : Heap} {o f : Object} {fn : HeapPtr} {name : String} {arity : Int}
      {code : Option Code} {log : Array LogEntry} :
      w.heaps[h]? = some s → s.object? p = some o → o.finalizer = some fn →
      s.object? fn = some f → f.body = .function name arity code → s.Entered p fn arity s1 →
      ((runBody host h code).after (w.setHeap h s1)).heaps[h]? = some s2 →
      Enters host h p w { ((runBody host h code).after (w.setHeap h s1)).setHeap h (s.afterFinalizer s2) with log }

/-- The finalizers of objects are entered and end, one after the other. -/
inductive EntersAll (host : Host) (h : HeapId) : List HeapPtr → World → World → Prop
  | nil (w : World) : EntersAll host h [] w w
  | cons {p : HeapPtr} {ps : List HeapPtr} {w w1 w' : World} :
      Enters host h p w w1 → EntersAll host h ps w1 w' → EntersAll host h (p :: ps) w w'

theorem entered_enter (ho : s.object? p = some o) (fn : HeapPtr) (arity : Int) :
    s.Entered p fn arity (s.finalizerSite.enter (s.calling p o) fn arity) := by
  refine ⟨rfl, fun hne => ?_, { o with finalized := true }, ?_, rfl⟩
  · have hvalue := value?_enter (s.startFinalizer p) p { o with finalized := true } fn arity
    rwa [if_neg hne] at hvalue
  · unfold Site.enter
    rw [fitArguments_eq]
    exact object?_started ho

theorem endFinalizer_finish {t : Site} {r : Except Stop Int} (hr : ∀ c, r ≠ .error (.crash c))
    (hpos : t.pos ≤ s2.stack.size) :
    (t.finish s s2 name r).2.endFinalizer t.pos = { s2 with frames := s.frames }.endFinalizer t.pos := by
  have hplace : ∀ v, (t.place s s2 v).2.endFinalizer t.pos = { s2 with frames := s.frames }.endFinalizer t.pos := by
    intro v
    unfold endFinalizer truncate
    cases v with
    | error f => simp [Site.place, truncate]
    | ok v => simp [Site.place, truncate, push, hpos]
  rcases r with (f | c) | k
  · exact hplace _
  · exact absurd rfl (hr c)
  · exact hplace _

theorem enters_of_finalize (hw : w.Abides Armed) (hs : w.heaps[h]? = some s) (hopen : s.closed = false)
    (haddr : s.table.Addressable) (hcount : s.Countable) (hdepth : (s.frames.length : Int) < s.limits.depth)
    (he : (finalize (hostAt n) h p).exec w = (.ok (), w')) : Enters (hostAt n) h p w w' := by
  have hbottom : s.bottom ≤ s.stack.size := (hw.heaps h s hs).bottom_le
  obtain ⟨o, r, w2, s3, log, ho, hchron, hcall, hcalm, hs3, rfl⟩ := finalize_eq_ok hw.toChronicled hs (.inl hcount) he
  have hs0 := World.get_setHeap hs (s.calling p o)
  cases hfin : o.finalizer with
  | none => exact absurd (Prod.mk.inj (hcall.symm.trans (exec_call_unarmed hs hopen hfin))).1 (hcalm _)
  | some fn =>
    obtain ⟨f, name, arity, code, hf, hbody, hfn⟩ := Armed.functionAt (hw.objects h s hs hopen haddr) ho hfin
    have hinside : s.finalizerSite.Inside (s.calling p o) := finalizerSite_inside (s := s.startFinalizer p) hbottom
    obtain ⟨s2, hs2, hleft⟩ := Site.body (n := n) hchron hs0 hopen hinside ⟨hfn, hdepth⟩
    obtain ⟨hlost, hrun⟩ := Site.exec_call_run hs0 hopen hfn hdepth hs2
    have hframes : s2.frames ≠ [] := fun hnil =>
      hcalm _ ((congrArg Prod.fst hcall).symm.trans (hlost hnil))
    obtain ⟨hframes, -, hsize, -⟩ := hleft hframes
    have hpos : s.finalizerSite.pos ≤ s2.stack.size := Nat.le_trans (Nat.le_succ _) hsize
    have hrun := hrun _ hframes hpos
    rw [World.setHeap_setHeap] at hrun hs2
    obtain ⟨hr, rfl⟩ := Prod.mk.inj (hcall.symm.trans hrun)
    cases hs3.symm.trans (World.get_setHeap hs2 _)
    have hbodycalm : ∀ c, ((runBody (hostAt n) h code).exec
        (w.setHeap h (s.finalizerSite.enter (s.calling p o) fn arity))).1 ≠ .error (.crash c) := by
      intro c hc
      rw [hc] at hr
      exact hcalm c hr
    have hcut : (s.finalizerSite.finish (s.calling p o) s2 name ((runBody (hostAt n) h code).exec
        (w.setHeap h (s.finalizerSite.enter (s.calling p o) fn arity))).1).2.endFinalizer s.stack.size =
        s.afterFinalizer s2 := endFinalizer_finish (t := s.finalizerSite) hbodycalm hpos
    rw [World.setHeap_setHeap, hcut]
    exact .body hs ho hfin hf hbody (entered_enter ho fn arity) hs2

theorem enters_of_forM {es : List (HeapPtr × Object)} (hw : w.Abides Armed) (hs : w.heaps[h]? = some s)
    (hopen : s.closed = false) (hcount : s.Countable) (hdepth : (s.frames.length : Int) < s.limits.depth)
    (he : (es.forM fun e => finalize (hostAt n) h e.1).exec w = (.ok (), w'))
    (haddr : ∀ s', w'.heaps[h]? = some s' → s'.table.Addressable) :
    EntersAll (hostAt n) h (es.map (·.1)) w w' := by
  induction es generalizing w s with
  | nil =>
    obtain rfl := (Prod.mk.inj he).2
    exact .nil w
  | cons e rest ih =>
    obtain ⟨_, w1, hfirst, hrest⟩ := bind_ok_iff.mp he
    have hkeeps : ∀ q, Keeps (noFact (R := abiding abiding_armed)) (finalize (hostAt n) h q) :=
      fun q => plain_finalize (plain_serves n) h q
    have hg1 := hkeeps e.1 w hw trivial
    rw [after_eq hfirst] at hg1
    have hg2 := (Keeps.forM (fun e _ => hkeeps e.1) (l := rest)).good hg1.1
    rw [after_eq hrest] at hg2
    -- Objects are only added inside the pass, so every heap on the way has numbers to give.
    obtain ⟨s1, hs1, hstack, hframes, hopen1⟩ := stack_of_finalize hw.toChronicled hs hopen (.inl hcount) hfirst
    obtain ⟨t, ht, hl⟩ := hg1.heap hs
    cases hs1.symm.trans ht
    have hcount1 : s1.Countable := by
      unfold Countable
      rwa [hstack]
    have hdepth1 : (s1.frames.length : Int) < s1.limits.depth := by rwa [hframes, hl.limits]
    obtain ⟨s', hs', -, -, hopen'⟩ := stack_of_forM (World.Abides.toChronicled hg1.1) hs1 hopen1 (.inl hcount1) hrest
    obtain ⟨t', ht', hl'⟩ := hg2.heap hs1
    cases hs'.symm.trans ht'
    have haddr1 := hl'.addressable hopen' (haddr s' hs')
    exact .cons (enters_of_finalize hw hs hopen (hl.addressable hopen1 haddr1) hcount hdepth hfirst)
      (ih hg1.1 hs1 hopen1 hcount1 hdepth1 hrest)

/-! ## Finalizers that are refused -/

/-- The heap in which an object counts as finalized and its finalizer as run, without more. -/
def skipFinalizer (s : Heap) (p : HeapPtr) : Heap :=
  { s.startFinalizer p with
    counters := { s.counters with finalizers := s.counters.finalizers + 1 } }

structure Skipped (s : Heap) (ps : List HeapPtr) (s' : Heap) : Prop where
  objects : ∀ q, s'.object? q =
    if q ∈ ps then (s.object? q).map fun o => { o with finalized := true } else s.object? q
  slots : s'.table.slots.size = s.table.slots.size
  stack : s'.stack = s.stack
  frames : s'.frames = s.frames
  global : s'.global = s.global
  stash : s'.stash = s.stash
  limits : s'.limits = s.limits
  closed : s'.closed = s.closed
  finalizers : s'.counters.finalizers = s.counters.finalizers + ps.length

theorem Skipped.nil (s : Heap) : s.Skipped [] s := ⟨fun q => by simp, rfl, rfl, rfl, rfl, rfl, rfl, rfl, rfl⟩

theorem Skipped.cons (hs : (s.skipFinalizer p).Skipped ps s') : s.Skipped (p :: ps) s' := by
  refine ⟨fun q => ?_, hs.slots.trans (Table.slots_size_modify _ _ _), hs.stack, hs.frames, hs.global,
    hs.stash, hs.limits, hs.closed, ?_⟩
  · have hone : (s.skipFinalizer p).object? q =
        if q = p then (s.object? q).map fun o => { o with finalized := true } else s.object? q :=
      object?_startFinalizer s p q
    rw [hs.objects, hone]
    by_cases hq : q = p
    · subst hq
      cases s.object? q <;> simp
    · simp [hq]
  · have hone : (s.skipFinalizer p).counters.finalizers = s.counters.finalizers + 1 := rfl
    rw [hs.finalizers, hone, List.length_cons]
    omega

theorem Skipped.reachable (hs : s.Skipped ps s') (hq : s'.Reachable q) : s.Reachable q := by
  refine hq.congr (fun r hr => ?_) fun r x _ hx => ?_
  · unfold Rooted at hr ⊢
    rwa [hs.global, hs.stash, hs.stack, hs.frames] at hr
  · rw [hs.objects] at hx
    split at hx
    · obtain ⟨x', hx', rfl⟩ := Option.map_eq_some_iff.mp hx
      exact ⟨x', hx', fun _ => id⟩
    · exact ⟨x, hx, fun _ => id⟩

/-- At the limit of frames, the finalizer of an object is not entered, whatever code there is: the
object is marked, the refusal is logged, and the finalizer counts as run. -/
theorem exec_finalize_deep (hs : w.heaps[h]? = some s) (hopen : s.closed = false)
    (hbottom : s.bottom ≤ s.stack.size) (hcount : s.Countable)
    (hdepth : s.limits.depth ≤ (s.frames.length : Int)) (harmed : s.Armed)
    (ho : s.object? p = some o) (hfin : o.finalizer.isSome = true) :
    ∃ log, ∀ host, (finalize host h p).exec w = (.ok (), { w.setHeap h (s.skipFinalizer p) with log }) := by
  obtain ⟨fn, hfin⟩ := Option.isSome_iff_exists.mp hfin
  obtain ⟨f, name, arity, code, -, -, hfn⟩ := harmed.functionAt ho hfin
  have hs1 := World.get_setHeap hs (s.startFinalizer p)
  obtain ⟨fault, hcall⟩ := Site.exec_call_deep (t := s.finalizerSite)
    (World.get_setHeap hs (s.calling p o)) hopen hfn hdepth
  have hcut : (s.calling p o).truncate s.finalizerSite.pos = s.startFinalizer p := by
    unfold truncate
    rw [show (s.calling p o).stack.take s.finalizerSite.pos = _ from take_offer (s.startFinalizer p) p _]
    rfl
  have houtcome : turnOutcome (s.startFinalizer p) p (.error (.fault fault)) = .ok () := by
    rw [turnOutcome, object?_started ho]
    exact if_pos (by rw [Option.bind_some, hfin]; rfl)
  have hend : (s.startFinalizer p).endFinalizer s.stack.size = s.skipFinalizer p := by
    unfold endFinalizer truncate
    rw [Array.take_eq_extract, show (s.startFinalizer p).stack = s.stack from rfl, Array.extract_size]
    rfl
  obtain ⟨log, hlog⟩ := exec_finalize_call hs hbottom hcount ho hs1 (.error (.fault fault))
  refine ⟨log, fun host => ?_⟩
  rw [hlog host, houtcome, hend, World.setHeap_setHeap]
  rw [hcall host, hcut, World.setHeap_setHeap]

theorem exec_forM_deep (es : List (HeapPtr × Object)) (hs : w.heaps[h]? = some s)
    (hopen : s.closed = false) (hbottom : s.bottom ≤ s.stack.size) (hcount : s.Countable)
    (hdepth : s.limits.depth ≤ (s.frames.length : Int)) (harmed : s.Armed)
    (hes : ∀ e ∈ es, ∃ o, s.object? e.1 = some o ∧ o.finalizer.isSome = true) :
    ∃ s' log, s.Skipped (es.map (·.1)) s' ∧ ∀ host, (es.forM fun e => finalize host h e.1).exec w =
      (.ok (), { w.setHeap h s' with log }) := by
  induction es generalizing w s with
  | nil =>
    refine ⟨s, w.log, .nil s, fun host => ?_⟩
    rw [World.setHeap_self hs]
    rfl
  | cons e rest ih =>
    obtain ⟨o, ho, hfin⟩ := hes e List.mem_cons_self
    obtain ⟨log1, hfirst⟩ := exec_finalize_deep hs hopen hbottom hcount hdepth harmed ho hfin
    have hs1 : ({ w.setHeap h (s.skipFinalizer e.1) with log := log1 } : World).heaps[h]? =
        some (s.skipFinalizer e.1) := World.get_setHeap hs _
    have harmed1 : (s.skipFinalizer e.1).Armed := (harmed.start e.1).congr rfl
    obtain ⟨s', log, hskipped, hrest⟩ := ih hs1 hopen hbottom hcount hdepth harmed1 fun e' he' => by
      obtain ⟨x, hx, hxfin⟩ := hes e' (List.mem_cons_of_mem _ he')
      have hone : (s.skipFinalizer e.1).object? e'.1 = _ := object?_startFinalizer s e.1 e'.1
      rw [hone]
      split
      · exact ⟨{ x with finalized := true }, by rw [hx]; rfl, hxfin⟩
      · exact ⟨x, hx, hxfin⟩
    refine ⟨s', log, hskipped.cons, fun host => ?_⟩
    refine (bind_ok (hfirst host)).trans ((hrest host).trans ?_)
    exact congrArg (fun x => (Except.ok (), ({ x with log } : World))) (World.setHeap_setHeap w h _ _)

def pending (s : Heap) : List (HeapPtr × Object) := s.garbage.filter fun (_, o) => awaitsFinalizer o

theorem mem_pending (haddr : s.table.Addressable) : p ∈ s.pending.map (·.1) ↔ s.Awaits p ∧ ¬ s.Reachable p := by
  unfold pending Awaits
  simp only [List.mem_map, List.mem_filter, Prod.exists, exists_and_right, exists_eq_right, mem_garbage haddr]
  constructor
  · rintro ⟨o, ⟨ho, hr⟩, ha⟩
    exact ⟨⟨o, ho, ha⟩, hr⟩
  · rintro ⟨⟨o, ho, ha⟩, hr⟩
    exact ⟨o, ⟨ho, hr⟩, ha⟩

theorem exec_finalizeGarbage (host : Host) (hs : w.heaps[h]? = some s) :
    (finalizeGarbage host h).exec (w.beginCollection h s) = (do
      s.pending.forM fun e => finalize host h e.1
      return s.pending.length : M Nat).exec (w.beginCollection h s) := by
  unfold finalizeGarbage
  rw [bind_ok (exec_heap (heaps_beginCollection hs))]
  rfl

/-- A collection whose finalizers end frees what no root reaches then. The code of finalizers matters
for nothing else. -/
theorem exec_collect_ok (hs : w.heaps[h]? = some s) (hopen : s.closed = false)
    (hidle : s.collecting = false) (hs2 : w2.heaps[h]? = some s2) (k : Nat) :
    ∃ s3 log, s2.Swept (s2.garbage.map (·.1)) s3 ∧ ∀ host,
      (finalizeGarbage host h).exec (w.beginCollection h s) = (.ok k, w2) →
      (collect host h).exec w = (.ok ⟨s3.table.size, s2.garbage.length, k⟩,
        { w2.setHeap h { s3 with collecting := false } with log }) := by
  obtain ⟨s3, log, hreclaim, hswept⟩ := exec_reclaim hs2 k
  refine ⟨s3, log, hswept, fun host hfin => ?_⟩
  have hs3 : ({ w2.setHeap h s3 with log } : World).heaps[h]? = some s3 := World.get_setHeap hs2 s3
  have hbody := (bind_ok (f := reclaim h) hfin).trans hreclaim
  rw [exec_collect host hs hopen hidle]
  refine (exec_andFinally_ok (by rw [after_eq hbody]; exact exec_modifyHeap hs3 _)).trans ?_
  rw [hbody]
  exact congrArg (fun x => (_, ({ x with log } : World))) (World.setHeap_setHeap w2 h _ _)

end Heap

/-- **Finalizers and the limit of frames.** Take the objects that wait for their finalizer and that no
root reaches when a collection begins.

Below the limit of frames, a collection that ends has entered the body of the finalizer of each of
them, one after the other and with the object as its argument, before it freed anything.

At the limit it enters none, whatever code there is: the collection ends, counts all of them as
finalized and their finalizers as run, and frees them all. -/
theorem collect_at_depth (hw : w.Abides Heap.Armed) (hs : w.heaps[h]? = some s)
    (hopen : s.closed = false) (hidle : s.collecting = false) (haddr : s.table.Addressable)
    (hcount : s.Countable) :
    ∃ ps : List HeapPtr, ps.Nodup ∧ (∀ p, p ∈ ps ↔ s.Awaits p ∧ ¬ s.Reachable p) ∧
      ((s.frames.length : Int) < s.limits.depth → ∀ st w', (Heap.collect (hostAt n) h).exec w = (.ok st, w') →
        (∀ s', w'.heaps[h]? = some s' → s'.table.Addressable) →
        ∃ w2 s2 s3 log, Heap.EntersAll (hostAt n) h ps (w.beginCollection h s) w2 ∧
          w2.heaps[h]? = some s2 ∧ (∀ p ∈ ps, s2.Started p) ∧ s2.Swept (s2.garbage.map (·.1)) s3 ∧
          w' = { w2.setHeap h { s3 with collecting := false } with log } ∧ st.finalized = ps.length) ∧
      (s.limits.depth ≤ (s.frames.length : Int) → ∃ st s' log, (∀ host, (Heap.collect host h).exec w =
          (.ok st, { ({ w with orderly := false } : World).setHeap h s' with log })) ∧
        st.finalized = ps.length ∧ s'.counters.finalizers = s.counters.finalizers + ps.length ∧
        ∀ p ∈ ps, s'.object? p = none) := by
  have hs1 := heaps_beginCollection hs
  have hbegun : (w.beginCollection h s).Abides Heap.Armed :=
    IsFramed.beginCollection (R := abiding Heap.abiding_armed) hw hs hidle
  refine ⟨s.pending.map (·.1), (List.filter_sublist.map _).nodup (Heap.garbage_nodup haddr), fun p => Heap.mem_pending haddr,
    fun hdepth st w' he hlast => ?_, fun hdepth => ?_⟩
  · -- The pass runs on the heap of the collection, whose frames and limits are those of the heap.
    obtain ⟨w2, s2, s3, log, hfin, hs2, hswept, -, -, rfl⟩ := Heap.collect_eq_ok hs hopen hidle he
    obtain ⟨_, w3, hpass, hend⟩ := M.bind_ok_iff.mp ((Heap.exec_finalizeGarbage (hostAt n) hs).symm.trans hfin)
    obtain ⟨hlength, rfl⟩ := Prod.mk.inj hend
    have haddr3 := hlast { s3 with collecting := false } (World.get_setHeap hs2 _)
    have haddr2 : s2.table.Addressable := Nat.lt_of_le_of_lt (Nat.le_of_eq hswept.slots.symm) haddr3
    obtain ⟨x, hx, -, -, hopen2⟩ := Heap.stack_of_forM hbegun.toChronicled hs1 hopen (.inl hcount) hpass
    obtain rfl := Option.some.inj (hs2.symm.trans hx)
    refine ⟨w3, s2, s3, log, ?_, hs2, fun p hp => ?_, hswept, rfl, ?_⟩
    · exact Heap.enters_of_forM hbegun hs1 hopen hcount hdepth hpass fun s' hs' => by
        obtain rfl := Option.some.inj (hs2.symm.trans hs')
        exact haddr2
    · obtain ⟨hawaits, hr⟩ := (Heap.mem_pending haddr).mp hp
      exact started_of_finalizeGarbage hw.sound hs hidle hfin hs2 hopen2 haddr2 hawaits hr
    · rw [List.length_map]
      exact (Except.ok.inj hlength).symm
  · obtain ⟨s2, log2, hskipped, hpass⟩ := Heap.exec_forM_deep s.pending hs1 hopen
      (hw.heaps h s hs).bottom_le hcount hdepth (hbegun.objects h _ hs1 hopen haddr) fun e he => by
        obtain ⟨hgarbage, hawaits⟩ := List.mem_filter.mp he
        refine ⟨e.2, ((Heap.mem_garbage haddr).mp hgarbage).1, ?_⟩
        exact (Bool.and_eq_true_iff.mp hawaits).1
    have hs2 : ({ (w.beginCollection h s).setHeap h s2 with log := log2 } : World).heaps[h]? = some s2 :=
      World.get_setHeap hs1 s2
    obtain ⟨s3, log, hswept, hcollect⟩ := Heap.exec_collect_ok hs hopen hidle hs2 s.pending.length
    refine ⟨⟨s3.table.size, s2.garbage.length, s.pending.length⟩, { s3 with collecting := false }, log,
      fun host => (hcollect host ?_).trans ?_, ?_, ?_, fun p hp => ?_⟩
    · rw [Heap.exec_finalizeGarbage _ hs, M.bind_ok (hpass host)]
      rfl
    · have hroom : s.hasRoom = false := by
        unfold Heap.hasRoom
        rw [decide_eq_false (Int.not_lt.mpr hdepth), Bool.false_and]
      have horderly : (w.orderly && s.hasRoom) = false := by rw [hroom, Bool.and_false]
      unfold World.beginCollection
      rw [horderly]
      show (_, ({ (({ w with orderly := false } : World).setHeap h _ |>.setHeap h s2).setHeap h
        { s3 with collecting := false } with log } : World)) = _
      rw [World.setHeap_setHeap, World.setHeap_setHeap]
    · exact (List.length_map _).symm
    · exact hswept.finalizers.trans hskipped.finalizers
    · obtain ⟨⟨o, ho, -⟩, hr⟩ := (Heap.mem_pending haddr).mp hp
      show s3.object? p = none
      have haddr2 : s2.table.Addressable := Nat.lt_of_le_of_lt (Nat.le_of_eq hskipped.slots) haddr
      rw [hswept.objects, if_pos]
      refine (Heap.unreached_garbage haddr2 p).mpr ⟨?_, fun hr2 => hr ?_⟩
      · have hlive : s2.object? p = (s.object? p).map fun o => { o with finalized := true } := by
          rw [hskipped.objects, if_pos hp]
          rfl
        rw [hlive, ho]
        rfl
      · exact (Heap.reachable_iff_of_eq s { s with collecting := true, allocs := 0 }
          rfl rfl rfl rfl rfl).mp (hskipped.reachable hr2)

def doesNothing : FuncSpec Program :=
  { name := "idle", arity := 1, body := .done, result := 0, throws := none }

variable (depth : Int)

/-- A heap that allows so many frames, with a function on its stack. -/
def frameLimit : Script :=
  { heap := { gcThreshold := 0, depthLimit := depth }, logging := false
    program := .ofList [.call (.pushFunc doesNothing)] }

def insideCall : World :=
  (modifyHeap 0 fun s => Heap.Site.enter ⟨0, .undefined, 1, 0⟩ s ⟨3, 1⟩ 1).after ((frameLimit depth).world 2 false)

/-- Inside the call an object with a finalizer is made and let go of. -/
def diesInside : World :=
  ((Program.ofList [.stack .pushObject, .call (.pushFunc doesNothing), .property (.setFinalizer (-2)),
    .stack .pop]).run (hostAt 2) true).after (insideCall depth)

theorem abides_diesInside (hstart : ∃ s, ((frameLimit depth).world 2 false).heaps[0]? = some s ∧
      s.closed = false ∧ s.frames.length = 0 ∧ s.stack.size = 1 ∧ s.limits.depth = depth ∧
      ∃ f, (s.functionAt 0).toOption = some f ∧ f.1 = ⟨3, 1⟩ ∧ f.2.2.1 = 1) (hdepth : 0 < depth) :
    (diesInside depth).Abides Heap.Armed := by
  have hw := abides_world abiding_armed (frameLimit depth) 2 false
  obtain ⟨s, hs, hopen, hlength, hsize, hlimit, ⟨fn, name, arity, code⟩, hf, rfl, rfl⟩ := hstart
  have hframes : s.frames = [] := List.length_eq_zero_iff.mp hlength
  have hinside : (Heap.Site.mk 0 .undefined 1 0).Inside s :=
    ⟨Nat.le_of_eq (bottom_nil hframes), Nat.zero_lt_one, Nat.le_of_eq hsize.symm, fun _ => holdsValue_of_ne rfl⟩
  have hentered : (insideCall depth).Abides Heap.Armed := by
    unfold insideCall
    rw [after_eq (exec_modifyHeap hs _)]
    exact Heap.Site.entered (R := abiding abiding_armed) hw hs hopen hinside
      ⟨toOption_eq_some.mp hf, by rw [hlength, hlimit]; exact hdepth⟩
  exact ((keeps_run (R := abiding abiding_armed) (plain_upholds (plain_serves 2)) true _).good hentered).1

set_option synthInstance.maxSize 1000 in
/-- With two frames allowed, the finalizer is entered in the second; with one, the object is freed and
its finalizer counted, whatever code there is. -/
theorem diesInside_waits {d : Int} (hd : d = 1 ∨ d = 2) : (∃ s, (diesInside d).heaps[0]? = some s ∧ s.closed = false ∧
      s.collecting = false ∧ s.table.Addressable ∧ s.Countable ∧ s.frames.length = 1 ∧ s.limits.depth = d) ∧
    ((Heap.collect (hostAt 2) 0).exec (diesInside d)).1 = .ok ⟨3, 2, 1⟩ := by
  rcases hd with rfl | rfl <;> decide +kernel

theorem collect_at_depth_diesInside : (∃ s p w2, (diesInside 2).heaps[0]? = some s ∧ s.Awaits p ∧
      Heap.EntersAll (hostAt 2) 0 [p] ((diesInside 2).beginCollection 0 s) w2) ∧
    ∃ s s' : Heap, ∃ p, (diesInside 1).heaps[0]? = some s ∧ s.Awaits p ∧ s'.object? p = none ∧
      s'.counters.finalizers = s.counters.finalizers + 1 ∧
      ∀ host, ((Heap.collect host 0).after (diesInside 1)).heaps[0]? = some s' := by
  constructor
  · have hw := abides_diesInside 2 (by decide +kernel) (by decide)
    obtain ⟨⟨s, hs, hopen, hidle, haddr, hcount, hframes, hdepth⟩, hend⟩ := diesInside_waits (.inr rfl)
    obtain ⟨t, ht, haddr'⟩ : ∃ t, ((Heap.collect (hostAt 2) 0).after (diesInside 2)).heaps[0]? = some t ∧
      t.table.Addressable := by decide +kernel
    generalize diesInside 2 = w at hw hs hend ht ⊢
    obtain ⟨ps, -, hps, hbelow, -⟩ := collect_at_depth (n := 2) hw hs hopen hidle haddr hcount
    obtain ⟨w2, -, -, -, henters, -, -, -, -, hlength⟩ :=
      hbelow (by rw [hframes, hdepth]; decide) _ _ (M.exec_eq_ok hend) fun s' hs' => Option.mem_unique ht hs' ▸ haddr'
    obtain ⟨p, rfl⟩ := List.length_eq_one_iff.mp hlength.symm
    exact ⟨s, p, w2, hs, ((hps p).mp List.mem_cons_self).1, henters⟩
  · have hw := abides_diesInside 1 (by decide +kernel) (by decide)
    obtain ⟨⟨s, hs, hopen, hidle, haddr, hcount, hframes, hdepth⟩, hend⟩ := diesInside_waits (.inl rfl)
    generalize diesInside 1 = w at hw hs hend ⊢
    obtain ⟨ps, -, hps, -, hdeep⟩ := collect_at_depth (n := 2) hw hs hopen hidle haddr hcount
    obtain ⟨st, s', log, hcollect, hlength, hcounted, hfreed⟩ := hdeep (by rw [hframes, hdepth]; decide)
    obtain rfl : st = ⟨3, 2, 1⟩ := by
      rw [hcollect] at hend
      exact Except.ok.inj hend
    obtain ⟨p, rfl⟩ := List.length_eq_one_iff.mp hlength.symm
    refine ⟨s, s', p, hs, ((hps p).mp List.mem_cons_self).1, hfreed p List.mem_cons_self, hcounted, fun host => ?_⟩
    rw [M.after_eq (hcollect host)]
    exact World.get_setHeap (w := { w with orderly := false }) hs s'

end Tether
