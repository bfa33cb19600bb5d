import Tether.Proofs.Chronicle

/-!
# What pointers resolve to

Both results hold in every state that a script meets: the states that its steps begin and end in, and
those of the native code and the finalizers that it runs.
-/

namespace Tether

open Regime

variable {n : Nat} {recording : Bool} {x : State} {h : HeapId} {s s' : Heap} {p : HeapPtr}

namespace Heap

theorem pushPointer_eq_ok {s1 : Heap} :
    s.pushPointer p = .ok s1 ↔ (s.object? p).isSome = true ∧ s1 = s.push (.object p) := by
  unfold pushPointer
  cases s.object? p with
  | none => simp
  | some o => simp [eq_comm]

theorem pushPointer_eq_error (hp : ¬ (s.object? p).isSome = true) : ∃ f, s.pushPointer p = .error (.fault f) := by
  unfold pushPointer
  rw [Option.not_isSome_iff_eq_none.mp hp]
  exact ⟨_, rfl⟩

end Heap

/-! ## A script that frees and resurrects -/

def keepsObject : FuncSpec Program :=
  { name := "keep", arity := 1, result := 0, throws := none
    body := .ofList [.stack .pushGlobal, .stack (.dup 0), .property (.put (-2) "kept"), .stack .pop] }

/-- One object with that finalizer and one without are let go of and collected, then another object is
made. -/
def keepsOne : Script :=
  .ofSteps [.stack .pushObject, .call (.pushFunc keepsObject), .property (.setFinalizer (-2)), .stack .pop,
        .stack .pushObject, .stack .pop, .heap .collect, .stack .pushObject]

/-! ## No use of freed objects -/

/-- **No use of freed objects.** In every state that a script meets, whatever a root of an open heap
leads to is an entry of the table, and its pointer resolves to it. It was not freed, unless a count of
32 bits ran over, so no step pushes, calls or reads an object that was. -/
theorem reachable_resolves (script : Script) (hx : (script.world n recording).Met x)
    (hs : x.heaps[h]? = some s) (hopen : s.closed = false) (haddr : s.table.Addressable) (hp : s.Reachable p) :
    ∃ o, (p, o) ∈ s.table.live ∧ s.deref p = .ok o ∧ s.pushPointer p = .ok (s.push (.object p)) ∧
      (CountsFit s.issued → p ∈ s.issued ∧ p ∉ s.retired) := by
  have hpast := (chronicled_world script n recording).past_of_met hx
  have hlive := (hpast.sound h s hs hopen haddr).live_of_reachable hp
  obtain ⟨o, ho⟩ := Option.isSome_iff_exists.mp hlive
  refine ⟨o, (Table.mem_live haddr).mpr ho, ?_, Heap.pushPointer_eq_ok.mpr ⟨hlive, rfl⟩, fun hfit => ?_⟩
  · unfold Heap.deref
    rw [ho]
  · exact (((hpast.charted h s hs).numbered hopen haddr).live hfit p).mp hlive

/-- The object that its finalizer keeps was out of reach and is reached again. -/
theorem reachable_resolves_keepsOne : ∃ x s o, (keepsOne.world 2 true).Met x ∧
    x.heaps[0]? = some s ∧ s.Reachable ⟨3, 1⟩ ∧ (⟨3, 1⟩, o) ∈ s.table.live ∧
    (CountsFit s.issued → ⟨3, 1⟩ ∉ s.retired) := by
  obtain ⟨s, hs, hopen, haddr, hlive, hmark⟩ : ∃ s, (keepsOne.world 2 true).heaps[0]? = some s ∧ s.closed = false ∧
    s.table.Addressable ∧ (s.object? ⟨3, 1⟩).isSome = true ∧ s.marks[2]? = some true := by decide +kernel
  have hs := World.heap_state hs
  obtain ⟨o, ho⟩ := Option.isSome_iff_exists.mp hlive
  have hp : s.Reachable ⟨3, 1⟩ := (Heap.marked_iff ho).mp hmark
  obtain ⟨o', hentry, -, -, hkept⟩ := reachable_resolves keepsOne (World.met_state _) hs hopen haddr hp
  exact ⟨(keepsOne.world 2 true).state, s, o', World.met_state _, hs, hp, hentry, fun hfit => (hkept hfit).2⟩

/-! ## Pointers are unique -/

/-- **Pointers are unique.** Take a heap that is open at the end of a script, with slots and uses of
slots that 32 bits can count. In every state that the script met, the pointers issued for the heap are
distinct and none is null; they are as many as objects were made. A pointer is pushed if and only if
it was issued and its object was not freed, and what is pushed is that object. What was freed once does
not resolve at the end, however often its slot was used again. -/
theorem resolves_iff_issued (script : Script)
    (hs' : (script.world n recording).heaps[h]? = some s') (hopen : s'.closed = false)
    (haddr : s'.table.Addressable) (hfit : CountsFit s'.issued)
    (hx : (script.world n recording).Met x) (hs : x.heaps[h]? = some s) :
    (s.issued.Nodup ∧ .null ∉ s.issued ∧ s.issued.length = s.counters.allocated ∧ s.issued <:+ s'.issued) ∧
    (∀ p, (∃ s1, s.pushPointer p = .ok s1) ↔ p ∈ s.issued ∧ p ∉ s.retired) ∧
    (∀ p s1, s.pushPointer p = .ok s1 → s1 = s.push (.object p) ∧ ∃ o, s.object? p = some o) ∧
    ∀ p ∈ s.retired, ∃ f, s'.pushPointer p = .error (.fault f) := by
  have hw := chronicled_world script n recording
  have hpast := hw.past_of_met hx
  obtain ⟨t, ht, hprec⟩ := hpast.precedes h s hs
  obtain rfl := Option.some.inj (hs'.symm.trans ht)
  have hn := (hpast.charted h s hs).numbered (hprec.isOpen hopen) (Nat.lt_of_le_of_lt (hprec.slots hopen) haddr)
  have hn' := (hw.heaps h s' hs').numbered hopen haddr
  have hfit0 : CountsFit s.issued := hfit.of_suffix hprec.issued
  refine ⟨⟨hn.counted.nodup hfit0, fun hp => hn.counted.slot_ne_zero hp rfl, hn.allocated, hprec.issued⟩, fun p => ?_,
    fun p s1 he => ?_, fun p hp => Heap.pushPointer_eq_error fun hlive => ?_⟩
  · rw [← hn.live hfit0 p]
    exact ⟨fun ⟨s1, he⟩ => (Heap.pushPointer_eq_ok.mp he).1,
      fun hlive => ⟨_, Heap.pushPointer_eq_ok.mpr ⟨hlive, rfl⟩⟩⟩
  · obtain ⟨hlive, rfl⟩ := Heap.pushPointer_eq_ok.mp he
    exact ⟨rfl, Option.isSome_iff_exists.mp hlive⟩
  · exact ((hn'.live hfit p).mp hlive).2 (hprec.retired.subset hp)

/-- The slot of the object that was freed is used again, with another pointer. -/
theorem resolves_iff_issued_keepsOne : ∃ s, (keepsOne.world 2 true).heaps[0]? = some s ∧
    s.issued = [⟨5, 2⟩, ⟨5, 1⟩, ⟨4, 1⟩, ⟨3, 1⟩, ⟨2, 1⟩, ⟨1, 1⟩] ∧ s.retired = [⟨5, 1⟩] ∧
    (∃ s1, s.pushPointer ⟨5, 2⟩ = .ok s1) ∧ ∃ f, s.pushPointer ⟨5, 1⟩ = .error (.fault f) := by
  obtain ⟨s, hs, hopen, haddr, hissued, hretired⟩ : ∃ s, (keepsOne.world 2 true).heaps[0]? = some s ∧
    s.closed = false ∧ s.table.Addressable ∧
    s.issued = [⟨5, 2⟩, ⟨5, 1⟩, ⟨4, 1⟩, ⟨3, 1⟩, ⟨2, 1⟩, ⟨1, 1⟩] ∧ s.retired = [⟨5, 1⟩] := by decide +kernel
  have hfit : CountsFit s.issued := fun slot => by
    refine Nat.lt_of_le_of_lt List.countP_le_length ?_
    rw [hissued]
    decide
  obtain ⟨-, hiff, -, hgone⟩ := resolves_iff_issued keepsOne hs hopen haddr hfit (World.met_state _) (World.heap_state hs)
  refine ⟨s, hs, hissued, hretired, (hiff _).mpr ?_, hgone _ ?_⟩
  · rw [hissued, hretired]
    decide
  · rw [hretired]
    exact List.mem_singleton.mpr rfl

end Tether
