import Mathlib.Data.Set.Card
import Tether.Proofs.Posting

/-!
# What a collection leaves, and what it frees

Both results hold for all object graphs and for all native code that finalizers run; a collection
that stops, or whose heap a finalizer closes, promises nothing.
-/

namespace Tether

open Regime M World

variable {n : Nat} {w w' : World} {h : HeapId} {s : Heap}

namespace Heap

theorem collect_eq_ok {host : Host} {st : CollectStats} (hs : w.heaps[h]? = some s)
    (hopen : s.closed = false) (hidle : s.collecting = false) (he : (collect host h).exec w = (.ok st, w')) :
    ∃ w2 s2 s3 log, (finalizeGarbage host h).exec (w.beginCollection h s) = (.ok st.finalized, w2) ∧
      w2.heaps[h]? = some s2 ∧ s2.Swept (s2.garbage.map (·.1)) s3 ∧
      st.live = s3.table.size ∧ st.swept = s2.garbage.length ∧
      w' = { w2.setHeap h { s3 with collecting := false } with log } := by
  rw [exec_collect host hs hopen hidle] at he
  obtain ⟨w3, hbody, hend⟩ := exec_andFinally_eq_ok he
  obtain ⟨k, w2, hfin, hreclaim⟩ := bind_ok_iff.mp hbody
  obtain ⟨k', w2', hsweep, -⟩ := bind_ok_iff.mp hreclaim
  obtain ⟨s2, w2'', hs2, -⟩ := bind_ok_iff.mp hsweep
  obtain ⟨hs2, rfl⟩ := exec_heap_eq_ok.mp hs2
  obtain ⟨s3, log, hreclaim', hswept⟩ := exec_reclaim hs2 k
  obtain ⟨hst, rfl⟩ := Prod.mk.inj (hreclaim.symm.trans hreclaim')
  cases hst
  have hs3 : ({ w2''.setHeap h s3 with log } : World).heaps[h]? = some s3 := get_setHeap hs2 s3
  rw [exec_modifyHeap hs3] at hend
  refine ⟨w2'', s2, s3, log, hfin, hs2, hswept, rfl, rfl, ?_⟩
  rw [← (Prod.mk.inj hend).2]
  exact setHeap_logged ..

theorem close_eq_ok {host : Host} (hs : w.heaps[h]? = some s) (hopen : s.closed = false)
    (he : (close host h).exec w = (.ok (), w')) :
    ∃ k w2, (finalizeAll host h).exec (w.beginClosing h s) = (.ok k, w2) ∧
      ∀ s2, w2.heaps[h]? = some s2 → ∃ s3, w'.heaps[h]? = some s3 ∧ s3.table = {} := by
  rw [exec_close host hs hopen] at he
  obtain ⟨k, w2, hfin, hshut⟩ := bind_ok_iff.mp he
  refine ⟨k, w2, hfin, fun s2 hs2 => ?_⟩
  obtain ⟨s3, log, hshut', -, -, -, htable, -⟩ := exec_shut hs2 k
  cases hshut.symm.trans hshut'
  exact ⟨s3, get_setHeap hs2 s3, htable⟩

end Heap

/-! ## A finalizer that makes an object -/

/-- A finalizer that makes an object with a finalizer of its own and lets go of it. -/
def makesAnother : FuncSpec Program :=
  { name := "outer", arity := 1, result := 0, throws := none
    body := .ofList [.stack .pushObject,
        .call (.pushFunc { name := "inner", arity := 1, body := .done, result := 0, throws := none }),
        .property (.setFinalizer (-2)), .stack .pop] }

/-- A world in which an object with that finalizer is out of reach. -/
def lateMaking : World :=
  ((Program.ofList [.heap (.newHeap { gcThreshold := 0 }), .stack .pushObject, .call (.pushFunc makesAnother),
      .property (.setFinalizer (-2)), .stack .pop]).run (hostAt 2) true).after {}

theorem sound_lateMaking : lateMaking.Sound := (sound_start false false).run true _

namespace Heap

/-! ## Exactness -/

theorem ncard_live (hs : s.table.Sound) (ha : s.table.Addressable) : {p | (s.object? p).isSome = true}.ncard = s.table.size := by
  have hset : {p | (s.object? p).isSome = true} = ((s.table.live.map (·.1)).toFinset : Set HeapPtr) := by
    ext p
    simp only [Set.mem_ofPred_eq, List.coe_toFinset, List.mem_map]
    constructor
    · intro hp
      obtain ⟨o, ho⟩ := Option.isSome_iff_exists.mp hp
      exact ⟨(p, o), (Table.mem_live ha).mpr ho, rfl⟩
    · rintro ⟨⟨q, o⟩, hm, rfl⟩
      show (s.table.get? q).isSome = true
      rw [(Table.mem_live ha).mp hm]
      rfl
  rw [hset, Set.ncard_coe_finset, List.toFinset_card_of_nodup (Table.live_nodup ha), List.length_map, hs.size_eq]

end Heap

/-- **Collector exactness.** When a collection of an open heap ends outside any other, the objects of
the table are exactly those that roots reach in the resulting heap. The collection counts them, and
counts what it freed: the objects that are left and those freed are the objects there were and those
that finalizers made. -/
theorem table_eq_reachable {st : CollectStats} (hw : w.Sound) (hs : w.heaps[h]? = some s)
    (hopen : s.closed = false) (hidle : s.collecting = false)
    (he : (Heap.collect (hostAt n) h).exec w = (.ok st, w')) :
    ∃ s', w'.heaps[h]? = some s' ∧ (s'.closed = false → s'.table.Addressable →
      {p | (s'.object? p).isSome = true} = {p | s'.Reachable p} ∧
      {p | s'.Reachable p}.ncard = st.live ∧
      s'.counters.freed = s.counters.freed + st.swept ∧
      s'.table.size + st.swept + s.counters.allocated = s.table.size + s'.counters.allocated) := by
  obtain ⟨w2, s2, s3, log, hfin, hs2, hswept, hlive, hcount, rfl⟩ := Heap.collect_eq_ok hs hopen hidle he
  refine ⟨{ s3 with collecting := false }, World.get_setHeap hs2 _, fun hopen' haddr' => ?_⟩
  have hg1 := plain_beginCollection hw hs hidle
  have hg2 := plain_finalizeGarbage (F := noFact) (plain_serves n) h _ hg1.1 trivial
  rw [M.after_eq hfin] at hg2
  obtain ⟨s2', hs2', hl⟩ := hg2.heap (heaps_beginCollection hs)
  obtain rfl := Option.some.inj (hs2.symm.trans hs2')
  have hopen2 : s2.closed = false := hswept.closed ▸ hopen'
  have haddr2 : s2.table.Addressable := Nat.lt_of_le_of_lt (Nat.le_of_eq hswept.slots.symm) haddr'
  have hsound2 := World.Sound.heaps hg2.1 h s2 hs2 hopen2 haddr2
  have hgarbage := Heap.unreached_garbage haddr2
  have hsame : ∀ p, ({ s3 with collecting := false } : Heap).Reachable p ↔ s3.Reachable p :=
    fun p => Heap.reachable_iff_of_eq s3 { s3 with collecting := false } rfl rfl rfl rfl rfl
  have hset : {p | (({ s3 with collecting := false } : Heap).object? p).isSome = true} =
      {p | ({ s3 with collecting := false } : Heap).Reachable p} :=
    Set.ext fun p => (hswept.isSome_iff hgarbage hsound2).trans (hsame p).symm
  have hpersists := hl.persists hopen2 haddr2 rfl
  have hfreed := hpersists.freed
  have hsize := hpersists.size
  have hswept1 := hswept.freed
  have hswept2 := hswept.size hsound2.table (Heap.garbage_nodup haddr2) fun p hp => ((hgarbage p).mp hp).1
  have hallocated := hswept.allocated
  have hsound3 : ({ s3 with collecting := false } : Heap).table.Sound := (hswept.sound hgarbage hsound2).table
  rw [List.length_map] at hswept1 hswept2
  refine ⟨hset, ?_, ?_, ?_⟩
  · rw [← hset, Heap.ncard_live hsound3 haddr', hlive]
  · show s3.counters.freed = _
    rw [hswept1, hfreed, hcount]
  · show s3.table.size + _ + _ = _ + s3.counters.allocated
    have hbegin : s2.table.size + s.counters.allocated = s.table.size + s2.counters.allocated := hsize
    omega

/-- Of the six objects of that world and its collection, the global object and the stash are left. -/
theorem table_eq_reachable_lateMaking : ∃ s', ((Heap.collect (hostAt 2) 0).after lateMaking).heaps[0]? = some s' ∧
      {p | (s'.object? p).isSome = true} = {p | s'.Reachable p} ∧ {p | s'.Reachable p}.ncard = 2 := by
  have hend : ((Heap.collect (hostAt 2) 0).exec lateMaking).1 = .ok ⟨2, 4, 1⟩ := by decide +kernel
  obtain ⟨s, hs, hopen, hidle⟩ : ∃ s, lateMaking.heaps[0]? = some s ∧ s.closed = false ∧ s.collecting = false := by
    decide +kernel
  obtain ⟨t, ht, hopen', haddr⟩ : ∃ t, ((Heap.collect (hostAt 2) 0).after lateMaking).heaps[0]? = some t ∧
    t.closed = false ∧ t.table.Addressable := by decide +kernel
  obtain ⟨s', hs', hexact⟩ := table_eq_reachable sound_lateMaking hs hopen hidle (M.exec_eq_ok hend)
  cases ht.symm.trans hs'
  obtain ⟨hset, hcard, -⟩ := hexact hopen' haddr
  exact ⟨t, ht, hset, hcard⟩

/-! ## Finalizers before freeing -/

namespace Heap

/-- An object of the heap waits for its finalizer to be started. -/
def Awaits (s : Heap) (p : HeapPtr) : Prop := ∃ o, s.object? p = some o ∧ awaitsFinalizer o = true

def Started (s : Heap) (p : HeapPtr) : Prop := ∃ o, s.object? p = some o ∧ o.finalized = true

theorem Started.not_awaits {p : HeapPtr} (h : s.Started p) : ¬ s.Awaits p := by
  rintro ⟨o, ho, ha⟩
  obtain ⟨o', ho', hf⟩ := h
  rw [ho] at ho'
  cases ho'
  simp [awaitsFinalizer, hf] at ha

theorem Persists.started {s' : Heap} (h : s.Persists s') {p : HeapPtr} (hp : s.Started p) : s'.Started p := by
  obtain ⟨o, ho, hf⟩ := hp
  obtain ⟨o', ho', hf'⟩ := h.objects p o ho
  exact ⟨o', ho', hf' hf⟩

end Heap

theorem started_of_finalize {p : HeapPtr} {s' : Heap} (hw : w.Sound) (hs : w.heaps[h]? = some s)
    (hcollecting : s.collecting = true) (hp : (s.object? p).isSome = true)
    (he : (Heap.finalize (hostAt n) h p).exec w = (.ok (), w')) (hs' : w'.heaps[h]? = some s')
    (hopen : s'.closed = false) (haddr : s'.table.Addressable) : s'.Started p := by
  obtain ⟨_, w1, hstart, hrun⟩ := bind_ok_iff.mp he
  obtain rfl : w.setHeap h (s.startFinalizer p) = w1 := (Prod.mk.inj ((exec_modifyHeap hs _).symm.trans hstart)).2
  have hs1 := get_setHeap hs (s.startFinalizer p)
  have hg1 : plain.Good w (w.setHeap h (s.startFinalizer p)) :=
    plain_setHeap hw hs (Heap.later_startFinalizer s p) fun hwork _ => hwork.toSound.startFinalizer p
  have hg2 := (plain_runFinalizer (plain_serves n) h p).good hg1.1
  rw [after_eq hrun] at hg2
  obtain ⟨s2, hs2, hl⟩ := hg2.heap hs1
  cases hs'.symm.trans hs2
  refine (hl.persists hopen haddr hcollecting).started ?_
  obtain ⟨o, ho⟩ := Option.isSome_iff_exists.mp hp
  refine ⟨{ o with finalized := true }, ?_, rfl⟩
  rw [Heap.object?_startFinalizer, if_pos rfl, ho]
  rfl

theorem started_of_finalizeOnce {p : HeapPtr} {s' : Heap} (hw : w.Sound) (hs : w.heaps[h]? = some s)
    (hcollecting : s.collecting = true) (hp : (s.object? p).isSome = true) (he : (do
      let o ← need ((← heap h).object? p)
      if o.finalized then return
      Heap.finalize (hostAt n) h p : M Unit).exec w = (.ok (), w'))
    (hs' : w'.heaps[h]? = some s') (hopen : s'.closed = false) (haddr : s'.table.Addressable) :
    s'.Started p := by
  rw [bind_ok (exec_heap hs)] at he
  obtain ⟨o, w1, hneed, hrest⟩ := bind_ok_iff.mp he
  obtain ⟨ho, rfl⟩ := exec_need_eq_ok.mp hneed
  split at hrest
  · rename_i hf
    cases hrest
    cases hs'.symm.trans hs
    exact ⟨o, ho, hf⟩
  · exact started_of_finalize hw hs hcollecting hp hrest hs' hopen haddr

variable {step : HeapPtr × Object → M Unit}

theorem started_of_forM {es : List (HeapPtr × Object)} (hkeeps : ∀ e, Keeps (noFact (R := plain)) (step e))
    (hstep : ∀ e ∈ es, ∀ {w w' : World} {s s' : Heap}, w.Sound → w.heaps[h]? = some s →
      s.collecting = true → (s.object? e.1).isSome = true → (step e).exec w = (.ok (), w') →
      w'.heaps[h]? = some s' → s'.closed = false → s'.table.Addressable → s'.Started e.1)
    {s' : Heap} (hw : w.Sound) (hs : w.heaps[h]? = some s) (hcollecting : s.collecting = true)
    (hlive : ∀ e ∈ es, (s.object? e.1).isSome = true) (he : (es.forM step).exec w = (.ok (), w'))
    (hs' : w'.heaps[h]? = some s') (hopen : s'.closed = false) (haddr : s'.table.Addressable) :
    ∀ e ∈ es, s'.Started e.1 := by
  induction es generalizing w s with
  | nil => exact fun e hm => nomatch hm
  | cons e rest ih =>
    obtain ⟨_, w1, hfirst, hrest⟩ := M.bind_ok_iff.mp he
    have hg1 := hkeeps e w hw trivial
    rw [M.after_eq hfirst] at hg1
    obtain ⟨s1, hs1, hl1⟩ := hg1.heap hs
    have hg2 := (Keeps.forM (fun e _ => hkeeps e) (l := rest)).good hg1.1
    rw [M.after_eq hrest] at hg2
    obtain ⟨s2, hs2, hl2⟩ := hg2.heap hs1
    cases hs'.symm.trans hs2
    have hopen1 := hl2.isOpen hopen
    have haddr1 := hl2.addressable hopen haddr
    have hp1 := hl1.persists hopen1 haddr1 hcollecting
    have hp2 := hl2.persists hopen haddr hp1.collecting
    intro e' hm
    rcases List.mem_cons.mp hm with rfl | hm
    · exact hp2.started (hstep e' List.mem_cons_self hw hs hcollecting (hlive e' List.mem_cons_self)
        hfirst hs1 hopen1 haddr1)
    · refine ih (fun e he => hstep e (List.mem_cons_of_mem _ he)) hg1.1 hs1 hp1.collecting
        (fun e he => ?_) hrest e' hm
      obtain ⟨o, ho⟩ := Option.isSome_iff_exists.mp (hlive e (List.mem_cons_of_mem _ he))
      obtain ⟨o', ho', -⟩ := hp1.objects e.1 o ho
      rw [ho']
      rfl

variable {k : Nat}

theorem pass_of_exec {select : Heap → List (HeapPtr × Object)} {x : M Nat} {s' : Heap} (hx : x = do
      let es := select (← M.heap h)
      es.forM step
      return es.length) (hkeeps : Keeps (noFact (R := plain)) x) (hw : w.Sound) (hs : w.heaps[h]? = some s)
    (he : x.exec w = (.ok k, w')) (hs' : w'.heaps[h]? = some s')
    (hopen : s'.closed = false) (haddr : s'.table.Addressable) :
    s.table.Addressable ∧ ((select s).forM step).exec w = (.ok (), w') := by
  obtain ⟨_, hs2, hl⟩ := (M.after_eq he ▸ hkeeps w hw trivial).heap hs
  cases hs'.symm.trans hs2
  rw [hx, M.bind_ok (M.exec_heap hs)] at he
  obtain ⟨_, w1, hpass, hend⟩ := M.bind_ok_iff.mp he
  cases hend
  exact ⟨hl.addressable hopen haddr, hpass⟩

theorem started_of_finalizeGarbage {s2 : Heap} {w2 : World} (hw : w.Sound)
    (hs : w.heaps[h]? = some s) (hidle : s.collecting = false)
    (hfin : (Heap.finalizeGarbage (hostAt n) h).exec (w.beginCollection h s) = (.ok k, w2))
    (hs2 : w2.heaps[h]? = some s2) (hopen : s2.closed = false) (haddr : s2.table.Addressable)
    {p : HeapPtr} (hp : s.Awaits p) (hr : ¬ s.Reachable p) : s2.Started p := by
  have hg1 := plain_beginCollection hw hs hidle
  have hs1 := heaps_beginCollection hs
  obtain ⟨haddr1, hpass⟩ := pass_of_exec rfl (plain_finalizeGarbage (plain_serves n) h) hg1.1 hs1 hfin hs2 hopen haddr
  obtain ⟨o, ho, ha⟩ := hp
  refine started_of_forM (fun e => plain_finalize (plain_serves n) h e.1)
    (fun e _ {w w' s s'} => started_of_finalize) hg1.1 hs1 rfl (fun e he => ?_) hpass hs2 hopen haddr
    (p, o) ?_
  · obtain ⟨he, -⟩ := List.mem_filter.mp he
    show (s.object? e.1).isSome = true
    rw [((Heap.mem_garbage (s := s) haddr1).mp he).1]
    rfl
  · exact List.mem_filter.mpr ⟨(Heap.mem_garbage (s := s) haddr1).mpr ⟨ho, hr⟩, ha⟩

theorem started_of_finalizeAll {s2 : Heap} {w2 : World} (hw : w.Sound) (hs : w.heaps[h]? = some s)
    (hfin : (Heap.finalizeAll (hostAt n) h).exec (w.beginClosing h s) = (.ok k, w2))
    (hs2 : w2.heaps[h]? = some s2) (hopen : s2.closed = false) (haddr : s2.table.Addressable)
    {p : HeapPtr} (hp : s.Awaits p) : s2.Started p := by
  have hg1 := plain_beginClosing hw hs
  have hs1 := heaps_beginClosing hs
  obtain ⟨haddr1, hpass⟩ := pass_of_exec rfl (plain_finalizeAll (plain_serves n) h) hg1.1 hs1 hfin hs2 hopen haddr
  obtain ⟨o, ho, ha⟩ := hp
  refine started_of_forM (fun e => ?_) (fun e _ {w w' s s'} => started_of_finalizeOnce) hg1.1 hs1 rfl
    (fun e he => ?_) hpass hs2 hopen haddr (p, o) ?_
  · exact (keeps_heap h).bind fun _ => (keeps_need _).bind fun o =>
      .ite (fun _ => keeps_pure _) fun _ => plain_finalize (plain_serves n) h e.1
  · obtain ⟨he, -⟩ := List.mem_filter.mp he
    show (s.table.get? e.1).isSome = true
    rw [(Table.mem_live haddr1).mp he]
    rfl
  · exact List.mem_filter.mpr ⟨(Table.mem_live haddr1).mpr ho, ha⟩

/-- **Finalizers before freeing.** What a collection, or the closing of a heap, frees while it still
waits for its finalizer: exactly what waits and is out of reach (at closing: what waits) in the heap
that the finalizers of the pass left. None of it was waiting and out of reach (at closing: waiting)
when the pass began, for the finalizers of all those objects were started. -/
theorem freed_awaiting_iff (hw : w.Sound) (hs : w.heaps[h]? = some s) (hopen : s.closed = false) :
    (∀ st w', s.collecting = false → (Heap.collect (hostAt n) h).exec w = (.ok st, w') →
      ∃ w2 s2 s', (Heap.finalizeGarbage (hostAt n) h).exec (w.beginCollection h s) = (.ok st.finalized, w2) ∧
        w2.heaps[h]? = some s2 ∧ w'.heaps[h]? = some s' ∧
        (s2.closed = false → s2.table.Addressable → ∀ p,
          (s2.Awaits p ∧ s'.object? p = none ↔ s2.Awaits p ∧ ¬ s2.Reachable p) ∧
          (s2.Awaits p ∧ s'.object? p = none → ¬ (s.Awaits p ∧ ¬ s.Reachable p)))) ∧
    ∀ w', (Heap.close (hostAt n) h).exec w = (.ok (), w') →
      ∃ k w2 s2 s', (Heap.finalizeAll (hostAt n) h).exec (w.beginClosing h s) = (.ok k, w2) ∧
        w2.heaps[h]? = some s2 ∧ w'.heaps[h]? = some s' ∧
        (s2.closed = false → s2.table.Addressable → ∀ p, (s2.Awaits p ∧ s'.object? p = none ↔ s2.Awaits p) ∧
          (s2.Awaits p ∧ s'.object? p = none → ¬ s.Awaits p)) := by
  constructor
  · intro st w' hidle he
    obtain ⟨w2, s2, s3, log, hfin, hs2, hswept, -, -, rfl⟩ := Heap.collect_eq_ok hs hopen hidle he
    refine ⟨w2, s2, { s3 with collecting := false }, hfin, hs2, World.get_setHeap hs2 _,
      fun hopen2 haddr2 p => ⟨and_congr_right fun ha => ?_, fun hp hpending => ?_⟩⟩
    · obtain ⟨o, ho, -⟩ := ha
      show s3.object? p = none ↔ _
      have hiff := hswept.object?_eq_some (Heap.unreached_garbage haddr2) (q := p) (o := o)
      constructor
      · intro hnone hr
        rw [hnone] at hiff
        exact absurd (hiff.mpr ⟨ho, hr⟩) (by simp)
      · intro hr
        rw [hswept.objects, if_pos]
        exact (Heap.unreached_garbage haddr2 p).mpr ⟨by rw [ho]; rfl, hr⟩
    · exact (started_of_finalizeGarbage hw hs hidle hfin hs2 hopen2 haddr2 hpending.1 hpending.2).not_awaits hp.1
  · intro w' he
    obtain ⟨k, w2, hfin, hend⟩ := Heap.close_eq_ok hs hopen he
    have hg1 := plain_beginClosing hw hs
    have hg2 := plain_finalizeAll (F := noFact) (plain_serves n) h _ hg1.1 trivial
    rw [M.after_eq hfin] at hg2
    obtain ⟨s2, hs2, -⟩ := hg2.heap (heaps_beginClosing hs)
    obtain ⟨s3, hs3, htable⟩ := hend s2 hs2
    have hgone : ∀ p, s3.object? p = none := fun p => by
      unfold Heap.object?
      rw [htable]
      cases hp : ({} : Table).get? p with
      | none => rfl
      | some o => exact absurd (Table.get?_eq_some.mp hp).2 (by simp)
    refine ⟨k, w2, s2, s3, hfin, hs2, hs3, fun hopen2 haddr2 p => ⟨?_, fun hp hpending => ?_⟩⟩
    · exact ⟨fun hp => hp.1, fun hp => ⟨hp, hgone p⟩⟩
    · exact (started_of_finalizeAll hw hs hfin hs2 hopen2 haddr2 hpending).not_awaits hp.1

/-- The object that the finalizer of that world makes is freed while it waits for its own: it did not
exist when the collection looked for finalizers to run. -/
theorem freed_awaiting_lateMaking : ∃ s w2 s2 s' p, lateMaking.heaps[0]? = some s ∧
      (Heap.finalizeGarbage (hostAt 2) 0).exec (lateMaking.beginCollection 0 s) = (.ok 1, w2) ∧
      w2.heaps[0]? = some s2 ∧
      ((Heap.collect (hostAt 2) 0).after lateMaking).heaps[0]? = some s' ∧
      s2.Awaits p ∧ s'.object? p = none ∧ ¬ s2.Reachable p ∧ s.object? p = none := by
  have hend : ((Heap.collect (hostAt 2) 0).exec lateMaking).1 = .ok ⟨2, 4, 1⟩ := by decide +kernel
  obtain ⟨s, hs, hopen, hidle, habsent⟩ : ∃ s, lateMaking.heaps[0]? = some s ∧ s.closed = false ∧
    s.collecting = false ∧ (s.object? ⟨5, 1⟩).isNone = true := by decide +kernel
  have hmiddle : lateMaking.heaps[0]?.map (fun s =>
      ((Heap.finalizeGarbage (hostAt 2) 0).after (lateMaking.beginCollection 0 s)).heaps[0]?.map
        fun s2 => (s2.closed, s2.table.slots.size, (s2.object? ⟨5, 1⟩).any Heap.awaitsFinalizer)) =
      some (some (false, 6, true)) := by decide +kernel
  have hafter : ((Heap.collect (hostAt 2) 0).after lateMaking).heaps[0]?.map
      (fun s => (s.object? ⟨5, 1⟩).isNone) = some true := by decide +kernel
  obtain ⟨w2, s2, s', hfin, hs2, hs', hfreed⟩ :=
    (freed_awaiting_iff sound_lateMaking hs hopen).1 _ _ hidle (M.exec_eq_ok hend)
  rw [hs, Option.map_some, M.after_eq hfin, hs2] at hmiddle
  obtain ⟨hopen2, hrest⟩ := Prod.mk.inj (Option.some.inj (Option.some.inj hmiddle))
  obtain ⟨hslots, hawaits⟩ := Prod.mk.inj hrest
  have hawaits : s2.Awaits ⟨5, 1⟩ := by
    cases ho : s2.object? ⟨5, 1⟩ with
    | none => exact absurd hawaits (by simp [ho])
    | some o => exact ⟨o, ho, by simpa [ho] using hawaits⟩
  have haddr : s2.table.slots.size < 2 ^ 32 := by
    rw [hslots]
    decide
  rw [hs'] at hafter
  have hgone : s'.object? ⟨5, 1⟩ = none := by simpa using hafter
  obtain ⟨hiff, -⟩ := hfreed hopen2 haddr ⟨5, 1⟩
  exact ⟨s, w2, s2, s', ⟨5, 1⟩, hs, hfin, hs2, hs', hawaits, hgone, (hiff.mp ⟨hawaits, hgone⟩).2,
    by simpa using habsent⟩

end Tether
