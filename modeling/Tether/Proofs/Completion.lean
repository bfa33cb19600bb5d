import Tether.Proofs.Finalizers

/-!
# Whether collections come to their end

A pass of finalizers is fixed before the first of them runs. What the pass reads of an object when its
turn comes is what the finalizers before have left: one that takes the finalizer of a later object away
leaves nothing to call there.
-/

namespace Tether

open Regime M World

variable {n : Nat} {w w' : World} {h : HeapId} {s s2 : Heap} {p : HeapPtr} {o : Object}

namespace Heap

/-! ## One turn -/

def HasFinalizer (s : Heap) (p : HeapPtr) : Prop := ∃ o, s.object? p = some o ∧ o.finalizer.isSome = true

/-- The finalizer of an object is there when its turn comes, and still there if its call fails. -/
def Installed (host : Host) (h : HeapId) (p : HeapPtr) (w : World) : Prop :=
  ∃ s o, w.heaps[h]? = some s ∧ s.object? p = some o ∧ o.finalizer.isSome = true ∧
    ∀ f w2 s2, (s.finalizerSite.call host h).exec (w.setHeap h (s.calling p o)) =
      (.error (.fault f), w2) → w2.heaps[h]? = some s2 → s2.HasFinalizer p

/-- The code that runs for an object when its turn comes neither crashes nor closes the heap, and leaves
it with numbers for its objects. -/
structure Behaves (host : Host) (h : HeapId) (p : HeapPtr) (w : World) : Prop where
  sober : ∀ s, w.heaps[h]? = some s → ∀ o, s.object? p = some o →
    s.finalizerSite.Sober host (w.setHeap h (s.calling p o)) h (s.calling p o)
  addressable : ∀ s', ((finalize host h p).after w).heaps[h]? = some s' → s'.table.Addressable

theorem isSome_finalizer_iff : ((s.object? p).bind (·.finalizer)).isSome = true ↔ s.HasFinalizer p := by
  unfold HasFinalizer
  cases s.object? p <;> simp

/-- **One turn.** Where the code behaves, the turn of an object comes to its end if its finalizer is
installed, and crashes if not. -/
theorem finalize_outcome (hw : w.Abides Armed) (hs : w.heaps[h]? = some s) (hopen : s.closed = false)
    (haddr : s.table.Addressable) (hcount : s.Countable) (ho : s.object? p = some o)
    (hb : Behaves (hostAt n) h p w) :
    Installed (hostAt n) h p w ∧ ((finalize (hostAt n) h p).exec w).1 = .ok () ∨ ¬ Installed (hostAt n) h p w ∧
        ((finalize (hostAt n) h p).exec w).1 = .error (.crash .runtime) := by
  have hbottom : s.bottom ≤ s.stack.size := (hw.heaps h s hs).bottom_le
  have hs0 := get_setHeap hs (s.calling p o)
  have hturn : ∀ r w2 s2, (s.finalizerSite.call (hostAt n) h).exec (w.setHeap h (s.calling p o)) = (r, w2) →
      w2.heaps[h]? = some s2 → ((finalize (hostAt n) h p).exec w).1 = turnOutcome s2 p r := by
    intro r w2 s2 he hs2
    obtain ⟨log, hend⟩ := exec_finalize_call hs hbottom hcount ho hs2 r
    rw [hend _ he]
    split <;> simp_all only
  cases hfin : o.finalizer with
  | none =>
    right
    refine ⟨?_, hturn _ _ _ (exec_call_unarmed hs hopen hfin) hs0⟩
    rintro ⟨s', o', hs', ho', hsome, -⟩
    cases hs.symm.trans hs'
    cases ho.symm.trans ho'
    simp [hfin] at hsome
  | some fn =>
    obtain ⟨f, name, arity, code, hf, hbody, hfn⟩ := Armed.functionAt (hw.objects h s hs hopen haddr) ho hfin
    have hinside : s.finalizerSite.Inside (s.calling p o) := finalizerSite_inside (s := s.startFinalizer p) hbottom
    have hchron : (w.setHeap h (s.calling p o)).Chronicled := inv_calling (R := chronicle) hw.toChronicled hs ho
    have hcalm := Site.Sober.call hchron hs0 hopen hinside (fun c => by rw [hfn]; simp) (hb.sober s hs o ho)
    obtain ⟨s2, hs2, hleaves⟩ := Site.leaves hchron hs0 hopen hinside hcalm
    rcases hcall : (s.finalizerSite.call (hostAt n) h).exec (w.setHeap h (s.calling p o)) with ⟨r, w2⟩
    rw [after_eq hcall] at hs2
    rw [hcall] at hcalm
    rw [hturn r w2 s2 hcall hs2]
    have hinstalled : Installed (hostAt n) h p w ↔ ∀ f, r = .error (.fault f) → s2.HasFinalizer p := by
      constructor
      · rintro ⟨s', o', hs', ho', -, hkept⟩ f rfl
        cases hs.symm.trans hs'
        cases ho.symm.trans ho'
        exact hkept f w2 s2 hcall hs2
      · intro hkept
        refine ⟨s, o, hs, ho, by rw [hfin]; rfl, fun f w3 s3 he hs3 => ?_⟩
        obtain ⟨hr, rfl⟩ := Prod.mk.inj (hcall.symm.trans he)
        cases hs2.symm.trans hs3
        exact hkept f hr
    rw [hinstalled]
    rcases r with (f | c) | ⟨⟩
    · -- The call failed: its report needs the finalizer once more.
      by_cases hstill : s2.HasFinalizer p
      · exact .inl ⟨fun _ _ => hstill, if_pos (isSome_finalizer_iff.mpr hstill)⟩
      · exact .inr ⟨fun hall => hstill (hall f rfl), if_neg (mt isSome_finalizer_iff.mp hstill)⟩
    · exact absurd rfl (hcalm c)
    · exact .inl ⟨by simp, rfl⟩

/-! ## All turns of a pass -/

/-- A condition holds at the turn of each object of a list, as long as the turns before come to their
end. -/
def Along (turn : HeapPtr → M Unit) (C : HeapPtr → World → Prop) : List HeapPtr → World → Prop
  | [], _ => True
  | p :: ps, w => C p w ∧ ∀ w', (turn p).exec w = (.ok (), w') → Along turn C ps w'

variable {ps : List HeapPtr}

/-- If each turn ends or crashes by a condition, a pass ends if the condition holds at every turn, and
crashes if not. -/
theorem forM_ends {turn : HeapPtr → M Unit} {B C : HeapPtr → World → Prop} {I : World → Prop}
    (hturn : ∀ p ∈ ps, ∀ w, I w → B p w → (C p w ∧ ∃ w', (turn p).exec w = (.ok (), w') ∧ I w') ∨
      ¬ C p w ∧ ((turn p).exec w).1 = .error (.crash .runtime))
    (hw : I w) (hB : Along turn B ps w) :
    (Along turn C ps w ∧ ∃ w', (ps.forM turn).exec w = (.ok (), w') ∧ I w') ∨
      ¬ Along turn C ps w ∧ ((ps.forM turn).exec w).1 = .error (.crash .runtime) := by
  induction ps generalizing w with
  | nil => exact .inl ⟨trivial, w, rfl, hw⟩
  | cons p rest ih =>
    obtain ⟨hp, hrest⟩ := hB
    rcases hturn p List.mem_cons_self w hw hp with ⟨hC, w1, he, hw1⟩ | ⟨hC, he⟩
    · have hall : Along turn C (p :: rest) w ↔ Along turn C rest w1 := by
        refine ⟨fun h => h.2 w1 he, fun h => ⟨hC, fun w2 he2 => ?_⟩⟩
        exact (Prod.mk.inj (he.symm.trans he2)).2 ▸ h
      have hforM : ((p :: rest).forM turn).exec w = (rest.forM turn).exec w1 := bind_ok he
      rw [hall, hforM]
      exact ih (fun q hq => hturn q (List.mem_cons_of_mem p hq)) hw1 (hrest w1 he)
    · refine .inr ⟨fun h => hC h.1, ?_⟩
      have herror : (turn p).exec w = (.error (.crash .runtime), (turn p).after w) := Prod.ext he rfl
      exact congrArg Prod.fst (bind_error herror)

/-- What holds at every turn of a pass over objects: the heap is as the pass found it, apart from what
the finalizers did to its objects, and the objects are there. -/
structure InPass (h : HeapId) (ps : List HeapPtr) (s0 : Heap) (w : World) : Prop where
  abides : w.Abides Armed
  heap : ∃ s, w.heaps[h]? = some s ∧ s.closed = false ∧ s.collecting = true ∧ s.table.Addressable ∧
    s.stack = s0.stack ∧ s.frames = s0.frames ∧ ∀ p ∈ ps, (s.object? p).isSome = true

theorem InPass.turn {s0 : Heap} (hI : InPass h ps s0 w) (hcount : s0.Countable)
    (hp : p ∈ ps) (hb : Behaves (hostAt n) h p w) :
    (Installed (hostAt n) h p w ∧ ∃ w', (finalize (hostAt n) h p).exec w = (.ok (), w') ∧ InPass h ps s0 w') ∨
    ¬ Installed (hostAt n) h p w ∧ ((finalize (hostAt n) h p).exec w).1 = .error (.crash .runtime) := by
  obtain ⟨hw, s, hs, hopen, hbusy, haddr, hstack, hframes, hlive⟩ := hI
  obtain ⟨o, ho⟩ := Option.isSome_iff_exists.mp (hlive p hp)
  have hcount : s.Countable := by
    unfold Countable
    rwa [hstack]
  rcases finalize_outcome hw hs hopen haddr hcount ho hb with ⟨hinstalled, he⟩ | hcrash
  · refine .inl ⟨hinstalled, _, exec_eq_ok he, ?_⟩
    have hg := (plain_finalize (R := abiding abiding_armed) (plain_serves n) h p).good hw
    obtain ⟨s', hs', hstack', hframes', hopen'⟩ :=
      stack_of_finalize hw.toChronicled hs hopen (.inl hcount) (exec_eq_ok he)
    obtain ⟨t, ht, hlater⟩ := hg.heap hs
    cases hs'.symm.trans ht
    have haddr' := hb.addressable s' hs'
    have hpersists := hlater.persists hopen' haddr' hbusy
    refine ⟨hg.1, s', hs', hopen', hpersists.collecting, haddr', hstack'.trans hstack,
      hframes'.trans hframes, fun q hq => ?_⟩
    obtain ⟨x, hx⟩ := Option.isSome_iff_exists.mp (hlive q hq)
    obtain ⟨x', hx', -⟩ := hpersists.objects q x hx
    rw [hx']
    rfl
  · exact .inr hcrash

/-! ## Deciding whether finalizers behave -/

def isCalm {α : Type} : Except Stop α → Bool
  | .error (.crash _) => false
  | _ => true

theorem isCalm_iff {α : Type} {r : Except Stop α} : isCalm r = true ↔ ∀ c, r ≠ .error (.crash c) := by
  rcases r with (f | c) | a <;> simp [isCalm]

/-- What can be said of a thing, if it is there, can be decided. -/
instance decidableForallSome {α : Type} {P : α → Prop} [DecidablePred P] (x : Option α) :
    Decidable (∀ a, x = some a → P a) :=
  match x with
  | none => isTrue nofun
  | some a => decidable_of_iff (P a) (by simp)

instance (t : Site) (host : Host) (w : World) (h : HeapId) (s : Heap) : Decidable (t.Sober host w h s) :=
  match hfn : s.functionAt t.pos with
  | .error e => isTrue fun fn name arity code hruns => absurd (hfn.symm.trans hruns.1) nofun
  | .ok (fn, name, arity, code) =>
    decidable_of_iff ((s.frames.length : Int) < s.limits.depth →
      isCalm ((runBody host h code).exec (w.setHeap h (t.enter s fn arity))).1 = true ∧
      ∀ s2, ((runBody host h code).after (w.setHeap h (t.enter s fn arity))).heaps[h]? = some s2 →
        s2.frames ≠ []) <| by
      rw [isCalm_iff]
      constructor
      · rintro hsober fn' name' arity' code' ⟨hfn', hdepth⟩
        obtain ⟨rfl, rfl, rfl, rfl⟩ : fn = fn' ∧ name = name' ∧ arity = arity' ∧ code = code' := by
          simpa using hfn.symm.trans hfn'
        exact hsober hdepth
      · intro hsober hdepth
        exact hsober fn name arity code ⟨hfn, hdepth⟩

instance (host : Host) (h : HeapId) (p : HeapPtr) (w : World) : Decidable (Behaves host h p w) :=
  decidable_of_iff ((∀ s, w.heaps[h]? = some s → ∀ o, s.object? p = some o →
      s.finalizerSite.Sober host (w.setHeap h (s.calling p o)) h (s.calling p o)) ∧
    ∀ s', ((finalize host h p).after w).heaps[h]? = some s' → s'.table.slots.size < 2 ^ 32)
    ⟨fun h => ⟨h.1, h.2⟩, fun h => ⟨h.sober, h.addressable⟩⟩

instance decidableAlong {turn : HeapPtr → M Unit} {C : HeapPtr → World → Prop} [∀ p w, Decidable (C p w)] :
    (ps : List HeapPtr) → (w : World) → Decidable (Along turn C ps w)
  | [], _ => isTrue trivial
  | p :: ps, w =>
    match he : (turn p).exec w with
    | (.error e, w1) => decidable_of_iff (C p w) <| by
        refine ⟨fun hC => ⟨hC, fun w' he' => ?_⟩, fun h => h.1⟩
        simpa using congrArg Prod.fst (he.symm.trans he')
    | (.ok (), w1) =>
      have : Decidable (Along turn C ps w1) := decidableAlong ps w1
      decidable_of_iff (C p w ∧ Along turn C ps w1) <| by
        refine ⟨fun h => ⟨h.1, fun w' he' => ?_⟩, fun h => ⟨h.1, h.2 w1 he⟩⟩
        exact (Prod.mk.inj (he.symm.trans he')).2 ▸ h.2

/-! ## Collecting -/

theorem forM_map_fst (es : List (HeapPtr × Object)) (turn : HeapPtr → M Unit) :
    (es.forM fun e => turn e.1) = (es.map (·.1)).forM turn := by
  induction es with
  | nil => rfl
  | cons e rest ih => exact congrArg (turn e.1 >>= fun _ => ·) ih

theorem finalizeGarbage_ends (hw : w.Abides Armed) (hs : w.heaps[h]? = some s) (hopen : s.closed = false)
    (hidle : s.collecting = false) (haddr : s.table.Addressable) (hcount : s.Countable)
    (hB : Along (finalize (hostAt n) h) (Behaves (hostAt n) h) (s.pending.map (·.1)) (w.beginCollection h s)) :
    (Along (finalize (hostAt n) h) (Installed (hostAt n) h) (s.pending.map (·.1)) (w.beginCollection h s) ∧
      ∃ k w2 s2, (finalizeGarbage (hostAt n) h).exec (w.beginCollection h s) = (.ok k, w2) ∧
        w2.heaps[h]? = some s2 ∧ s2.stack = s.stack) ∨
    ¬ Along (finalize (hostAt n) h) (Installed (hostAt n) h) (s.pending.map (·.1)) (w.beginCollection h s) ∧
      ((finalizeGarbage (hostAt n) h).exec (w.beginCollection h s)).1 = .error (.crash .runtime) := by
  have hbegun : (w.beginCollection h s).Abides Armed :=
    IsFramed.beginCollection (R := abiding abiding_armed) hw hs hidle
  have hI : InPass h (s.pending.map (·.1)) s (w.beginCollection h s) := by
    refine ⟨hbegun, _, heaps_beginCollection hs, hopen, rfl, haddr, rfl, rfl, fun p hp => ?_⟩
    obtain ⟨⟨o, ho, -⟩, -⟩ := (mem_pending haddr).mp hp
    exact Option.isSome_iff_exists.mpr ⟨o, ho⟩
  rw [exec_finalizeGarbage (hostAt n) hs, forM_map_fst]
  rcases forM_ends (fun p hp w1 hI hb => hI.turn hcount hp hb) hI hB with
    ⟨hall, w2, he, -, s2, hs2, -, -, -, hstack, -⟩ | ⟨hnot, he⟩
  · exact .inl ⟨hall, _, w2, s2, bind_ok he, hs2, hstack⟩
  · exact .inr ⟨hnot, congrArg Prod.fst (bind_error (Prod.ext he rfl))⟩

/-! ## Closing -/

/-- The turn of an object when a heap is closed: one whose finalizer was started has had it. -/
def closingTurn (host : Host) (h : HeapId) (p : HeapPtr) : M Unit := do
  let o ← need ((← heap h).object? p)
  if o.finalized then return
  finalize host h p

/-- A condition on the turn of an object whose finalizer was not started. -/
def UnlessStarted (h : HeapId) (C : HeapPtr → World → Prop) (p : HeapPtr) (w : World) : Prop :=
  ∀ s, w.heaps[h]? = some s → ¬ s.Started p → C p w

/-- The objects whose finalizers are called when a heap is closed. -/
def waiting (s : Heap) : List (HeapPtr × Object) := s.table.live.filter fun (_, o) => awaitsFinalizer o

theorem InPass.turnClosing {ps : List HeapPtr} {s0 : Heap} (hI : InPass h ps s0 w)
    (hcount : s0.Countable) (hp : p ∈ ps) (hb : UnlessStarted h (Behaves (hostAt n) h) p w) :
    (UnlessStarted h (Installed (hostAt n) h) p w ∧
      ∃ w', (closingTurn (hostAt n) h p).exec w = (.ok (), w') ∧ InPass h ps s0 w') ∨
    ¬ UnlessStarted h (Installed (hostAt n) h) p w ∧
      ((closingTurn (hostAt n) h p).exec w).1 = .error (.crash .runtime) := by
  obtain ⟨s, hs, -, -, -, -, -, hlive⟩ := hI.heap
  obtain ⟨o, ho⟩ := Option.isSome_iff_exists.mp (hlive p hp)
  have hread : (closingTurn (hostAt n) h p).exec w =
      (if o.finalized then return else finalize (hostAt n) h p : M Unit).exec w := by
    unfold Heap.closingTurn
    rw [bind_ok (exec_heap hs), ho, bind_ok (exec_need_some o w)]
  have hunless : ∀ C : HeapPtr → World → Prop, UnlessStarted h C p w ↔ (o.finalized = false → C p w) := by
    intro C
    constructor
    · intro hC hnot
      refine hC s hs ?_
      rintro ⟨o', ho', hstarted⟩
      cases ho.symm.trans ho'
      cases hnot.symm.trans hstarted
    · intro hC s' hs' hnot
      cases hs.symm.trans hs'
      exact hC (Bool.eq_false_iff.mpr fun hstarted => hnot ⟨o, ho, hstarted⟩)
  rw [hread, hunless]
  cases hstarted : o.finalized with
  | true => exact .inl ⟨by simp, w, rfl, hI⟩
  | false =>
    rcases hI.turn hcount hp ((hunless _).mp hb hstarted) with ⟨hinstalled, hend⟩ | ⟨hnot, hcrash⟩
    · exact .inl ⟨fun _ => hinstalled, hend⟩
    · exact .inr ⟨fun h => hnot (h rfl), hcrash⟩

theorem finalizeAll_ends (hw : w.Abides Armed) (hs : w.heaps[h]? = some s) (hopen : s.closed = false)
    (haddr : s.table.Addressable)
    (hB : Along (Heap.closingTurn (hostAt n) h) (UnlessStarted h (Behaves (hostAt n) h))
      (s.waiting.map (·.1)) (w.beginClosing h s)) :
    (Along (Heap.closingTurn (hostAt n) h) (UnlessStarted h (Installed (hostAt n) h))
        (s.waiting.map (·.1)) (w.beginClosing h s) ∧
      ∃ k w2 s2, (finalizeAll (hostAt n) h).exec (w.beginClosing h s) = (.ok k, w2) ∧ w2.heaps[h]? = some s2) ∨
    ¬ Along (Heap.closingTurn (hostAt n) h) (UnlessStarted h (Installed (hostAt n) h))
        (s.waiting.map (·.1)) (w.beginClosing h s) ∧
      ((finalizeAll (hostAt n) h).exec (w.beginClosing h s)).1 = .error (.crash .runtime) := by
  have hbegun : (w.beginClosing h s).Abides Armed := (IsHeapwise.clear (R := abiding abiding_armed) hw hs).1
  let s0 : Heap := { s with stack := #[], frames := [], collecting := true }
  have hI : InPass h (s.waiting.map (·.1)) s0 (w.beginClosing h s) := by
    refine ⟨hbegun, s0, heaps_beginClosing hs, hopen, rfl, haddr, rfl, rfl, fun p hp => ?_⟩
    obtain ⟨⟨p, o⟩, hmem, rfl⟩ := List.mem_map.mp hp
    exact Option.isSome_iff_exists.mpr ⟨o, (Table.mem_live haddr).mp (List.mem_filter.mp hmem).1⟩
  have hpass : (finalizeAll (hostAt n) h).exec (w.beginClosing h s) =
      (do (s.waiting.map (·.1)).forM (Heap.closingTurn (hostAt n) h)
          return s.waiting.length : M Nat).exec (w.beginClosing h s) := by
    unfold finalizeAll
    rw [bind_ok (exec_heap (heaps_beginClosing hs)), ← forM_map_fst]
    rfl
  have hcount : s0.Countable := show 0 + 2 < 2 ^ 63 by decide
  rw [hpass]
  rcases forM_ends (fun p hp w1 hI hb => hI.turnClosing hcount hp hb) hI hB with
    ⟨hall, w2, he, -, s2, hs2, -⟩ | ⟨hnot, he⟩
  · exact .inl ⟨hall, _, w2, s2, bind_ok he, hs2⟩
  · exact .inr ⟨hnot, congrArg Prod.fst (bind_error (Prod.ext he rfl))⟩

end Heap

/-- **When collections crash by themselves.** Take a heap whose finalizers behave: none of those that a
collection, or closing the heap, runs crashes or closes the heap itself.

A collection comes to its end exactly if each finalizer of its pass is installed when its turn comes, and
still is if its call fails. The stack is then as it was and the collection is over. Otherwise it crashes,
and is over too.

Closing comes to its end on the same condition, and leaves the stack empty and the heap outside
collections. Otherwise it crashes. -/
theorem collections_complete_iff (hw : w.Abides Heap.Armed) (hs : w.heaps[h]? = some s)
    (hopen : s.closed = false) (haddr : s.table.Addressable) :
    (s.collecting = false → s.Countable →
      Heap.Along (Heap.finalize (hostAt n) h) (Heap.Behaves (hostAt n) h) (s.pending.map (·.1))
        (w.beginCollection h s) →
      ((∃ st w' s', (Heap.collect (hostAt n) h).exec w = (.ok st, w') ∧ w'.heaps[h]? = some s' ∧
          s'.stack = s.stack ∧ s'.collecting = false) ↔
        Heap.Along (Heap.finalize (hostAt n) h) (Heap.Installed (hostAt n) h) (s.pending.map (·.1))
          (w.beginCollection h s)) ∧
      ((∃ w' s', (Heap.collect (hostAt n) h).exec w = (.error (.crash .runtime), w') ∧
          w'.heaps[h]? = some s' ∧ s'.collecting = false) ↔
        ¬ Heap.Along (Heap.finalize (hostAt n) h) (Heap.Installed (hostAt n) h) (s.pending.map (·.1))
          (w.beginCollection h s))) ∧
    (Heap.Along (Heap.closingTurn (hostAt n) h) (Heap.UnlessStarted h (Heap.Behaves (hostAt n) h))
        (s.waiting.map (·.1)) (w.beginClosing h s) →
      ((∃ w' s', (Heap.close (hostAt n) h).exec w = (.ok (), w') ∧ w'.heaps[h]? = some s' ∧
          s'.closed = true ∧ s'.stack = #[] ∧ s'.collecting = false) ↔
        Heap.Along (Heap.closingTurn (hostAt n) h) (Heap.UnlessStarted h (Heap.Installed (hostAt n) h))
          (s.waiting.map (·.1)) (w.beginClosing h s)) ∧
      (((Heap.close (hostAt n) h).exec w).1 = .error (.crash .runtime) ↔
        ¬ Heap.Along (Heap.closingTurn (hostAt n) h) (Heap.UnlessStarted h (Heap.Installed (hostAt n) h))
          (s.waiting.map (·.1)) (w.beginClosing h s))) := by
  refine ⟨fun hidle hcount hB => ?_, fun hB => ?_⟩
  · rcases Heap.finalizeGarbage_ends hw hs hopen hidle haddr hcount hB with
      ⟨hall, k, w2, s2, hfin, hs2, hstack⟩ | ⟨hnot, hfin⟩
    · obtain ⟨s3, log, hswept, hcollect⟩ := Heap.exec_collect_ok hs hopen hidle hs2 k
      have he := hcollect (hostAt n) hfin
      have hs3 := World.get_setHeap hs2 { s3 with collecting := false }
      refine ⟨⟨fun _ => hall, fun _ => ⟨_, _, _, he, hs3, hswept.stack.trans hstack, rfl⟩⟩, ?_⟩
      refine ⟨fun ⟨_, _, hcrash, _⟩ => ?_, fun hnot => absurd hall hnot⟩
      exact absurd (congrArg Prod.fst (he.symm.trans hcrash)) (by simp)
    · have hcrash : ((Heap.collect (hostAt n) h).exec w).1 = .error (.crash .runtime) := by
        -- The end of the collection follows, whatever came before.
        rw [exec_collect (hostAt n) hs hopen hidle]
        refine (congrArg Prod.fst (M.exec_andFinally_ok
          (y := M.modifyHeap h fun s => { s with collecting := false }) rfl)).trans ?_
        exact congrArg Prod.fst (M.bind_error (Prod.ext hfin rfl))
      have hg := plain_finalizeGarbage (R := abiding Heap.abiding_armed) (F := noFact) (plain_serves n) h _
        (IsFramed.beginCollection (R := abiding Heap.abiding_armed) hw hs hidle) trivial
      obtain ⟨s2, hs2, -⟩ := hg.heap (heaps_beginCollection hs)
      obtain ⟨s3, log, hafter, -⟩ := after_collect (hostAt n) hs hopen hidle hs2
      refine ⟨⟨fun ⟨_, _, _, he, _⟩ => ?_, fun hall => absurd hall hnot⟩, fun _ => hnot, fun _ => ?_⟩
      · exact absurd ((congrArg Prod.fst he).symm.trans hcrash) (by simp)
      · refine ⟨_, { s3 with collecting := false }, Prod.ext hcrash rfl, ?_, rfl⟩
        show ((Heap.collect (hostAt n) h).after w).heaps[h]? = _
        rw [hafter]
        exact World.get_setHeap hs2 _
  · rcases Heap.finalizeAll_ends hw hs hopen haddr hB with ⟨hall, k, w2, s2, hfin, hs2⟩ | ⟨hnot, hfin⟩
    · obtain ⟨s3, log, hshut, hclosed, -, -, -, hstack, hcollecting⟩ := exec_shut hs2 k
      have he := (exec_close (hostAt n) hs hopen).trans ((M.bind_ok hfin).trans hshut)
      refine ⟨⟨fun _ => hall, fun _ => ⟨_, s3, he, World.get_setHeap hs2 s3, hclosed, hstack,
        hcollecting⟩⟩, fun hcrash => ?_, fun hnot => absurd hall hnot⟩
      exact absurd ((congrArg Prod.fst he).symm.trans hcrash) (by simp)
    · have hcrash : ((Heap.close (hostAt n) h).exec w).1 = .error (.crash .runtime) := by
        rw [exec_close (hostAt n) hs hopen, M.bind_error (Prod.ext hfin rfl)]
      refine ⟨⟨fun ⟨_, _, he, _⟩ => ?_, fun hall => absurd hall hnot⟩, fun _ => hnot, fun _ => hcrash⟩
      exact absurd ((congrArg Prod.fst he).symm.trans hcrash) (by simp)

/-- Two objects that nothing holds. The finalizer of the first does something, that of the second
nothing. -/
def twoGarbage (first : Program) : Script :=
  .ofSteps [.stack .pushObject,
        .call (.pushFunc { name := "first", arity := 1, result := 0, throws := none, body := first }),
        .property (.setFinalizer (-2)), .stack .pushObject, .call (.pushFunc doesNothing),
        .property (.setFinalizer (-2)), .stack .pop, .stack .pop]

def disarm : Program :=
  .ofList [.property (.pushHeapPtr "" ⟨5, 1⟩), .stack .pushUndefined, .property (.setFinalizer (-2)), .stack .pop]

/-- The finalizer of the first object takes that of the second away, and the collection crashes. With a
finalizer that does nothing in its place, the collection ends. -/
theorem twoGarbage_waits {p : Program} (hp : p = disarm ∨ p = .done) :
    ∃ s, ((twoGarbage p).world 2 false).heaps[0]? = some s ∧ s.closed = false ∧ s.collecting = false ∧
      s.table.Addressable ∧ s.Countable ∧ s.pending.length = 2 ∧
      Heap.Along (Heap.finalize (hostAt 2) 0) (Heap.Behaves (hostAt 2) 0) (s.pending.map (·.1))
        (((twoGarbage p).world 2 false).beginCollection 0 s) := by
  rcases hp with rfl | rfl <;> decide +kernel

theorem collections_complete_iff_twoGarbage : (∃ s w' s', ((twoGarbage disarm).world 2 false).heaps[0]? = some s ∧
      (Heap.collect (hostAt 2) 0).exec ((twoGarbage disarm).world 2 false) =
        (.error (.crash .runtime), w') ∧ w'.heaps[0]? = some s' ∧ s'.collecting = false ∧
      ¬ Heap.Along (Heap.finalize (hostAt 2) 0) (Heap.Installed (hostAt 2) 0) (s.pending.map (·.1))
        (((twoGarbage disarm).world 2 false).beginCollection 0 s)) ∧
    ∃ s, ((twoGarbage .done).world 2 false).heaps[0]? = some s ∧
      Heap.Along (Heap.finalize (hostAt 2) 0) (Heap.Installed (hostAt 2) 0) (s.pending.map (·.1))
        (((twoGarbage .done).world 2 false).beginCollection 0 s) ∧ s.pending.length = 2 := by
  constructor
  · have hw := abides_world Heap.abiding_armed (twoGarbage disarm) 2 false
    obtain ⟨s, hs, hopen, hidle, haddr, hcount, -, hB⟩ := twoGarbage_waits (.inl rfl)
    have hend : Heap.isCalm ((Heap.collect (hostAt 2) 0).exec ((twoGarbage disarm).world 2 false)).1 =
        false := by decide +kernel
    generalize (twoGarbage disarm).world 2 false = w at hw hs hB hend ⊢
    obtain ⟨hends, hcrashes⟩ := (collections_complete_iff (n := 2) hw hs hopen haddr).1 hidle hcount hB
    have hnot : ¬ Heap.Along (Heap.finalize (hostAt 2) 0) (Heap.Installed (hostAt 2) 0)
        (s.pending.map (·.1)) (w.beginCollection 0 s) := by
      intro hall
      obtain ⟨st, w', s', he, -⟩ := hends.mpr hall
      rw [he] at hend
      simp [Heap.isCalm] at hend
    obtain ⟨w', s', he, hs', hover⟩ := hcrashes.mpr hnot
    exact ⟨s, w', s', hs, he, hs', hover, hnot⟩
  · have hw := abides_world Heap.abiding_armed (twoGarbage .done) 2 false
    obtain ⟨s, hs, hopen, hidle, haddr, hcount, hlength, hB⟩ := twoGarbage_waits (.inr rfl)
    have hend : Heap.isCalm ((Heap.collect (hostAt 2) 0).exec ((twoGarbage .done).world 2 false)).1 =
        true := by decide +kernel
    generalize (twoGarbage .done).world 2 false = w at hw hs hB hend ⊢
    obtain ⟨-, hcrashes⟩ := (collections_complete_iff (n := 2) hw hs hopen haddr).1 hidle hcount hB
    refine ⟨s, hs, ?_, hlength⟩
    by_contra hnot
    obtain ⟨w', s', he, -⟩ := hcrashes.mpr hnot
    rw [he] at hend
    simp [Heap.isCalm] at hend

end Tether
