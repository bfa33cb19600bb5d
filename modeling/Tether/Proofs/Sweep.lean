import Tether.Proofs.Amendments

/-!
# Freeing objects

Freeing lets go of an object's bytes and takes it off the table; nothing else of the world changes
but the log.
-/

namespace Tether

def Heap.without (s : Heap) (p : HeapPtr) : Heap :=
  { (s.releaseBuffer p).2 with
    table := (s.releaseBuffer p).2.table.drop p
    retired := p :: (s.releaseBuffer p).2.retired
    counters := { (s.releaseBuffer p).2.counters with
      freed := (s.releaseBuffer p).2.counters.freed + 1 } }

namespace Heap

variable {s s' : Heap} {p : HeapPtr}

theorem releaseBuffer_cases (s : Heap) (p : HeapPtr) : (s.releaseBuffer p).2 = s ∨ ∃ body storage,
      (s.releaseBuffer p).2 = { s with table := s.table.modify p fun o => { o with body }, storage } := by
  unfold releaseBuffer
  cases (s.object? p).bind (·.buffer?) with
  | none => exact .inl rfl
  | some b =>
    simp only
    split
    · exact .inl rfl
    · refine .inr ⟨.buffer { b with detached := true }, ?_⟩
      split
      · exact ⟨_, rfl⟩
      · exact ⟨s.storage, rfl⟩

/-- A heap after these objects were freed. -/
structure Swept (s : Heap) (ps : List HeapPtr) (s' : Heap) : Prop where
  objects : ∀ q, s'.object? q = if q ∈ ps then none else s.object? q
  stack : s'.stack = s.stack
  frames : s'.frames = s.frames
  global : s'.global = s.global
  stash : s'.stash = s.stash
  limits : s'.limits = s.limits
  closed : s'.closed = s.closed
  collecting : s'.collecting = s.collecting
  slots : s'.table.slots.size = s.table.slots.size
  freed : s'.counters.freed = s.counters.freed + ps.length
  allocated : s'.counters.allocated = s.counters.allocated
  keeps : ∀ {P : Table → Prop}, (∀ t p, P t → P (t.drop p)) → (∀ t p f, P t → P (t.modify p f)) →
    P s.table → P s'.table
  size : s.table.Sound → ps.Nodup → (∀ p ∈ ps, (s.object? p).isSome = true) → s'.table.size + ps.length = s.table.size
  gens : ∀ i, s'.table.gen? i = s.table.gen? i
  issued : s'.issued = s.issued
  retired : s'.retired = ps.reverse ++ s.retired
  finalizers : s'.counters.finalizers = s.counters.finalizers

theorem Swept.nil (s : Heap) : s.Swept [] s :=
  ⟨fun q => by simp, rfl, rfl, rfl, rfl, rfl, rfl, rfl, rfl, rfl, rfl, fun _ _ => id, fun _ _ _ => rfl,
    fun _ => rfl, rfl, rfl, rfl⟩

theorem Swept.cons {ps : List HeapPtr} {s1 s2 : Heap} (h : s.Swept [p] s1) (h' : s1.Swept ps s2) :
    s.Swept (p :: ps) s2 := by
  refine ⟨fun q => ?_, h'.stack.trans h.stack, h'.frames.trans h.frames, h'.global.trans h.global,
    h'.stash.trans h.stash, h'.limits.trans h.limits, h'.closed.trans h.closed,
    h'.collecting.trans h.collecting, h'.slots.trans h.slots, ?_, h'.allocated.trans h.allocated,
    fun hdrop hmodify => h'.keeps hdrop hmodify ∘ h.keeps hdrop hmodify, fun hsound hnodup hlive => ?_,
    fun i => (h'.gens i).trans (h.gens i), h'.issued.trans h.issued, ?_, h'.finalizers.trans h.finalizers⟩
  · rw [h'.objects, h.objects]
    by_cases hq : q = p
    · simp [hq]
    · simp [hq]
  · have hone : s1.counters.freed = s.counters.freed + 1 := h.freed
    rw [h'.freed, hone, List.length_cons]
    omega
  · obtain ⟨hp, hps⟩ := List.nodup_cons.mp hnodup
    have h1 := h.size hsound (by simp) fun q hq => hlive q (by
      rw [List.mem_singleton.mp hq]
      exact List.mem_cons_self)
    have hsound' : s1.table.Sound := h.keeps (fun _ p ht => ht.drop p) (fun _ p f ht => ht.modify p f) hsound
    have h2 := h'.size hsound' hps fun q hq => by
      rw [h.objects, if_neg]
      · exact hlive q (List.mem_cons_of_mem _ hq)
      · intro he
        exact hp (List.mem_singleton.mp he ▸ hq)
    rw [List.length_singleton] at h1
    rw [List.length_cons]
    omega
  · rw [h'.retired, h.retired]
    simp

theorem swept_without (s : Heap) (p : HeapPtr) : s.Swept [p] (s.without p) := by
  -- Whatever happens to the bytes, the table has the same slots and the same other objects.
  have key : ∀ t : Table, t.slots.size = s.table.slots.size →
      (∀ {P : Table → Prop}, (∀ t p f, P t → P (t.modify p f)) → P s.table → P t) →
      (s.table.Sound → t.Sound) → t.size = s.table.size → (∀ q, q ≠ p → t.get? q = s.table.get? q) →
      ((t.get? p).isSome = (s.table.get? p).isSome) → (∀ i, t.gen? i = s.table.gen? i) →
      ∀ storage : Storage,
      s.Swept [p] { s with table := t.drop p, storage, retired := p :: s.retired,
                           counters := { s.counters with freed := s.counters.freed + 1 } } := by
    intro t hslots hkeeps hsound hsize hother hsame hgens storage
    refine ⟨fun q => ?_, rfl, rfl, rfl, rfl, rfl, rfl, rfl, ?_, rfl, rfl,
      fun hdrop hmodify hs => hdrop _ p (hkeeps hmodify hs), fun ht _ hlive => ?_,
      fun i => (Table.gen?_drop t p i).trans (hgens i), rfl, rfl, rfl⟩
    · show (t.drop p).get? q = _
      rw [Table.get?_drop]
      by_cases hq : q = p
      · simp [hq]
      · rw [if_neg hq, if_neg (by simpa using hq), hother q hq]
        rfl
    · exact (Table.slots_size_drop t p).trans hslots
    · obtain ⟨o, ho⟩ := Option.isSome_iff_exists.mp (hsame.trans (hlive p List.mem_cons_self))
      show (t.drop p).size + 1 = _
      rw [Table.size_drop (hsound ht) ho, hsize]
  unfold without
  rcases releaseBuffer_cases s p with he | ⟨body, storage, he⟩
  · rw [he]
    exact key s.table rfl (fun _ => id) id rfl (fun _ _ => rfl) rfl (fun _ => rfl) s.storage
  · rw [he]
    refine key _ (Table.slots_size_modify _ _ _) (fun hmodify => hmodify _ _ _) (·.modify p _) (Table.size_modify _ _ _)
      (fun q hq => ?_) ?_ (Table.gen?_modify _ _ _) storage
    · rw [Table.get?_modify, if_neg hq]
    · rw [Table.get?_modify, if_pos rfl, Option.isSome_map]

/-! ## What is left -/

def Unreached (s : Heap) (ps : List HeapPtr) : Prop := ∀ p, p ∈ ps ↔ (s.object? p).isSome = true ∧ ¬ s.Reachable p

theorem unreached_garbage (ha : s.table.Addressable) : s.Unreached (s.garbage.map (·.1)) := by
  intro p
  constructor
  · intro h
    obtain ⟨⟨q, o⟩, hm, rfl⟩ := List.mem_map.mp h
    obtain ⟨ho, hr⟩ := (mem_garbage ha).mp hm
    exact ⟨by rw [ho]; rfl, hr⟩
  · rintro ⟨hlive, hr⟩
    obtain ⟨o, ho⟩ := Option.isSome_iff_exists.mp hlive
    exact List.mem_map.mpr ⟨(p, o), (mem_garbage ha).mpr ⟨ho, hr⟩, rfl⟩

section Unreached

variable {ps : List HeapPtr} (h : s.Swept ps s') (hps : s.Unreached ps)
include h hps

variable {q : HeapPtr}

theorem Swept.object?_eq_some {o : Object} : s'.object? q = some o ↔ s.object? q = some o ∧ s.Reachable q := by
  rw [h.objects]
  constructor
  · intro hq
    split at hq
    · simp at hq
    · rename_i hn
      refine ⟨hq, Classical.byContradiction fun hr => hn ((hps q).mpr ⟨by rw [hq]; rfl, hr⟩)⟩
  · rintro ⟨hq, hr⟩
    rw [if_neg fun hm => ((hps q).mp hm).2 hr]
    exact hq

omit hps in
theorem Swept.rooted_iff : s'.Rooted q ↔ s.Rooted q := by
  unfold Rooted
  rw [h.global, h.stash, h.stack, h.frames]

theorem Swept.reachable_iff : s'.Reachable q ↔ s.Reachable q := by
  have hsub : ∀ {p}, s'.Reachable p → s.Reachable p := fun hp =>
    hp.congr (fun _ => h.rooted_iff.mp) fun p o _ ho =>
      ⟨o, ((h.object?_eq_some hps).mp ho).1, fun _ => id⟩
  refine ⟨hsub, fun hq => ?_⟩
  -- What is reachable afterwards was reachable before, so it was not freed.
  exact hq.congr (fun _ => h.rooted_iff.mpr) fun p o hp ho =>
    ⟨o, (h.object?_eq_some hps).mpr ⟨ho, hsub hp⟩, fun _ => id⟩

theorem Swept.isSome_iff (hs : s.Sound) {q : HeapPtr} : (s'.object? q).isSome = true ↔ s'.Reachable q := by
  rw [h.reachable_iff hps]
  constructor
  · intro hq
    obtain ⟨o, ho⟩ := Option.isSome_iff_exists.mp hq
    exact ((h.object?_eq_some hps).mp ho).2
  · intro hq
    obtain ⟨o, ho⟩ := Option.isSome_iff_exists.mp (hs.live_of_reachable hq)
    rw [(h.object?_eq_some hps).mpr ⟨ho, hq⟩]
    rfl

theorem Swept.sound (hs : s.Sound) : s'.Sound := by
  have hholds : ∀ q, q = .null ∨ s.Reachable q → s'.Holds q := by
    rintro q (hq | hq)
    · exact .inl hq
    · exact .inr ((h.isSome_iff hps hs).mpr ((h.reachable_iff hps).mpr hq))
  have hroot : ∀ q, s.Rooted q → s'.Holds q := fun q hq =>
    hholds q (Classical.or_iff_not_imp_left.mpr fun hn => .root hq hn)
  have hbottom : s'.bottom = s.bottom := by
    unfold bottom
    rw [h.frames]
  refine ⟨h.keeps (fun _ _ hs => hs.drop _) (fun _ _ _ hs => hs.modify _ _) hs.table,
    by rw [h.frames]; exact hs.framed, ?_, ?_, ?_, fun v hv q hq => ?_, fun f hf => ⟨?_, fun q hq => ?_⟩, fun p o ho q hq => ?_⟩
  · rw [hbottom, h.stack]
    exact hs.bottom_le
  · rw [h.global]
    exact hroot _ (.inl rfl)
  · rw [h.stash]
    exact hroot _ (.inr (.inl rfl))
  · rw [h.stack, hq] at hv
    exact hroot q (.inr (.inr (.inl hv)))
  · rw [h.frames] at hf
    exact hroot _ (.inr (.inr (.inr ⟨f, hf, .inl rfl⟩)))
  · rw [h.frames] at hf
    exact hroot q (.inr (.inr (.inr ⟨f, hf, .inr hq⟩)))
  · obtain ⟨ho, hp⟩ := (h.object?_eq_some hps).mp ho
    refine hholds q (Classical.or_iff_not_imp_left.mpr fun hn => ?_)
    exact .reference hp ho (Object.mem_references.mp hq) hn

end Unreached

end Heap

/-! ## Freeing as a computation -/

namespace M

variable {w : World} {h : HeapId} {s : Heap}

section

variable (hs : w.heaps[h]? = some s)
include hs

theorem exec_free (p : HeapPtr) :
    ∃ log, (Heap.free h p).exec w = (.ok (), { w.setHeap h (s.without p) with log }) := by
  have hrelease : ∃ log, (Heap.release h p).exec w = (.ok (), { w.setHeap h (s.releaseBuffer p).2 with log }) := by
    unfold Heap.release
    rw [bind_ok (exec_heap hs)]
    rw [bind_ok (exec_modifyHeap hs _)]
    split
    · unfold log
      split
      · exact ⟨_, rfl⟩
      · exact ⟨w.log, rfl⟩
    · exact ⟨w.log, rfl⟩
  obtain ⟨log, hr⟩ := hrelease
  have hs' : ({ w.setHeap h (s.releaseBuffer p).2 with log } : World).heaps[h]? =
      some (s.releaseBuffer p).2 := World.get_setHeap hs _
  refine ⟨log, ?_⟩
  unfold Heap.free
  rw [bind_ok hr, exec_modifyHeap hs']
  exact congrArg (fun x => (Except.ok (), ({ x with log } : World))) (World.setHeap_setHeap w h _ (s.without p))

theorem exec_freeEach (es : List (HeapPtr × Object)) : ∃ s' log, (es.forM fun (p, _) => Heap.free h p).exec w =
      (.ok (), { w.setHeap h s' with log }) ∧ s.Swept (es.map (·.1)) s' := by
  induction es generalizing w s with
  | nil =>
    refine ⟨s, w.log, ?_, .nil s⟩
    rw [World.setHeap_self hs]
    rfl
  | cons e rest ih =>
    obtain ⟨p, o⟩ := e
    obtain ⟨log, hfree⟩ := exec_free hs p
    have hs1 : ({ w.setHeap h (s.without p) with log } : World).heaps[h]? = some (s.without p) :=
      World.get_setHeap hs _
    obtain ⟨s', log', hrest, hswept⟩ := ih hs1
    refine ⟨s', log', ?_, (Heap.swept_without s p).cons hswept⟩
    show (Heap.free h p >>= fun _ => rest.forM fun (p, _) => Heap.free h p).exec w = _
    rw [bind_ok hfree, hrest]
    exact congrArg (fun x => (Except.ok (), ({ x with log := log' } : World))) (World.setHeap_setHeap w h _ s')

theorem exec_sweep : ∃ s' log, (Heap.sweep h).exec w = (.ok s.garbage.length, { w.setHeap h s' with log }) ∧
      s.Swept (s.garbage.map (·.1)) s' := by
  obtain ⟨s', log, hfree, hswept⟩ := exec_freeEach hs s.garbage
  refine ⟨s', log, ?_, hswept⟩
  unfold Heap.sweep
  rw [bind_ok (exec_heap hs)]
  rw [bind_ok hfree]
  rfl

theorem exec_freeAll : ∃ s' log, (Heap.freeAll h).exec w = (.ok s.table.live.length, { w.setHeap h s' with log }) ∧
      s.Swept (s.table.live.map (·.1)) s' := by
  obtain ⟨s', log, hfree, hswept⟩ := exec_freeEach hs s.table.live
  refine ⟨s', log, ?_, hswept⟩
  unfold Heap.freeAll
  rw [bind_ok (exec_heap hs)]
  rw [bind_ok hfree]
  rfl

end

end M

end Tether
