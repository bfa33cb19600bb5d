import Tether.Program.Conduct
import Tether.Proofs.Computation
import Tether.Proofs.Reachability

/-!
# Sound heaps

A heap is sound if its table is, its frames lie one above the other inside the stack, and nothing
that it refers to has been freed. What a change of a heap may do is said once:
-/

namespace Tether

variable {s s1 s2 s3 s' : Heap} {p : HeapPtr} {stack : Array Value} {w w1 w2 w3 w' : World}
  {x y : Breaches} {h : HeapId}

/-! ## Histories of property tables -/

namespace Properties

variable {α : Type}

/-- A write to a key, or its deletion. -/
def change (t : Properties α) : String × Option α → Properties α
  | (k, some v) => t.put k v
  | (k, none) => t.erase k

/-- A table comes out of another by writes and deletions. -/
def Becomes (t t' : Properties α) : Prop := ∃ changes, t' = List.foldl change t changes

theorem Becomes.refl (t : Properties α) : t.Becomes t := ⟨[], rfl⟩

end Properties

namespace Heap

/-! ## The invariant -/

def Holds (s : Heap) (p : HeapPtr) : Prop := p = .null ∨ (s.object? p).isSome = true

def HoldsValue (s : Heap) (v : Value) : Prop := ∀ p, v = .object p → s.Holds p

/-- No reference of an open heap dangles. -/
structure Sound (s : Heap) : Prop where
  table : s.table.Sound
  /-- Frames lie one above the other. -/
  framed : s.frames.Pairwise fun inner outer => outer.base ≤ inner.base
  bottom_le : s.bottom ≤ s.stack.size
  global : s.Holds s.global
  stash : s.Holds s.stash
  stack : ∀ v ∈ s.stack, s.HoldsValue v
  frames : ∀ f ∈ s.frames, s.Holds f.fn ∧ s.HoldsValue f.this
  references : ∀ p o, s.object? p = some o → ∀ q ∈ o.references, s.Holds q

/-- A heap that the invariant speaks of: it is open, its pointers have numbers, and it is sound. -/
structure Working (s : Heap) : Prop extends s.Sound where
  isOpen : s.closed = false
  addressable : s.table.Addressable

theorem holdsValue_object : s.HoldsValue (.object p) ↔ s.Holds p := by
  constructor
  · intro h
    exact h p rfl
  · intro h q hq
    obtain rfl := Value.object.inj hq
    exact h

theorem holdsValue_of_ne {v : Value} (h : v.object? = none) : s.HoldsValue v := by
  intro p hp
  rw [hp] at h
  simp [Value.object?] at h

theorem holds_of_object? {o : Object} (h : s.object? p = some o) : s.Holds p := .inr (by rw [h]; rfl)

theorem Sound.rooted (hs : s.Sound) (hp : s.Rooted p) : s.Holds p := by
  rcases hp with rfl | rfl | hv | ⟨f, hf, rfl | ht⟩
  · exact hs.global
  · exact hs.stash
  · exact hs.stack _ hv p rfl
  · exact (hs.frames f hf).1
  · exact (hs.frames f hf).2 p ht

theorem Sound.live_of_reachable (hs : s.Sound) (hp : s.Reachable p) : (s.object? p).isSome = true := by
  cases hp with
  | root hr hn =>
    rcases hs.rooted hr with h | h
    · exact absurd h hn
    · exact h
  | reference _ ho hq hn =>
    rcases hs.references _ _ ho _ (Object.mem_references.mpr hq) with h | h
    · exact absurd h hn
    · exact h

/-! ## What stays in place -/

/-- What every piece of work inside a collection of a heap leaves in place: the collection goes on,
nothing is freed, and a finalizer that was started stays so. -/
structure Persists (s s' : Heap) : Prop where
  collecting : s'.collecting = true
  freed : s'.counters.freed = s.counters.freed
  size : s'.table.size + s.counters.allocated = s.table.size + s'.counters.allocated
  objects : ∀ p o, s.object? p = some o → ∃ o', s'.object? p = some o' ∧ (o.finalized = true → o'.finalized = true)

theorem Persists.trans (h : s1.Persists s2) (h' : s2.Persists s3) : s1.Persists s3 := by
  refine ⟨h'.collecting, h'.freed.trans h.freed, ?_, fun p o ho => ?_⟩
  · have h1 := h.size
    have h2 := h'.size
    omega
  · obtain ⟨o', ho', hf⟩ := h.objects p o ho
    obtain ⟨o'', ho'', hf'⟩ := h'.objects p o' ho'
    exact ⟨o'', ho'', hf' ∘ hf⟩

/-- A heap at a later time, between operations of the same frame. Closing empties the frames, and a
closed heap promises no more. -/
structure Later (s s' : Heap) : Prop where
  limits : s'.limits = s.limits
  isOpen : s'.closed = false → s.closed = false
  slots : s'.closed = false → s.table.slots.size ≤ s'.table.slots.size
  frames : s'.frames = s.frames ∨ s'.frames = []
  persists : s'.closed = false → s'.table.Addressable → s.collecting = true → s.Persists s'

theorem Later.addressable (h : s.Later s') (hopen : s'.closed = false) (ha : s'.table.Addressable) :
    s.table.Addressable :=
  Nat.lt_of_le_of_lt (h.slots hopen) ha

theorem Later.refl (s : Heap) : s.Later s := by
  refine ⟨rfl, id, fun _ => Nat.le_refl _, .inl rfl, fun _ _ hc => ?_⟩
  exact ⟨hc, rfl, rfl, fun p o ho => ⟨o, ho, id⟩⟩

theorem Later.trans (h : s1.Later s2) (h' : s2.Later s3) : s1.Later s3 := by
  refine ⟨h'.limits.trans h.limits, h.isOpen ∘ h'.isOpen, fun ho => ?_, ?_, fun ho ha hc => ?_⟩
  · exact Nat.le_trans (h.slots (h'.isOpen ho)) (h'.slots ho)
  · rcases h'.frames with hf | hf
    · rcases h.frames with hf' | hf'
      · exact .inl (hf.trans hf')
      · exact .inr (hf.trans hf')
    · exact .inr hf
  · have hp := h.persists (h'.isOpen ho) (h'.addressable ho ha) hc
    exact hp.trans (h'.persists ho ha hp.collecting)

theorem Later.bottom_le (h : s.Later s') : s'.bottom ≤ s.bottom := by
  unfold bottom
  rcases h.frames with hf | hf
  · exact Nat.le_of_eq (by rw [hf])
  · rw [hf]
    exact Nat.zero_le _

end Heap

/-! ## Ordinary changes -/

def World.Guarded (w : World) : Prop := w.orderly = true ∨ w.breaches.keys = false

/-- How an object may change by a step that keeps the rules of bridges: it stays the function that
it was, its finalizer is not started, a new finalizer is a function, and the links of bridges stay as
they are. -/
structure World.Akin (w : World) (s : Heap) (o o' : Object) : Prop where
  finalized : o'.finalized = o.finalized
  function : ∀ name arity code, o'.body = .function name arity code ↔ o.body = .function name arity code
  hidden : w.Guarded → ∀ k, w.reserves k = true → o'.hidden.get? k = o.hidden.get? k
  finalizer : w.orderly = true → o'.finalizer = o.finalizer ∨ o.isWrapper = false ∧
    ∀ q f, o'.finalizer = some q → s.object? q = some f → f.tame = true
  callable : ∀ q, o'.finalizer = some q → o.finalizer = some q ∨ ∃ f, s.object? q = some f ∧ f.isFunction = true
  props : o.props.Becomes o'.props

namespace Heap

/-- A stack that a heap may have in place of its own: it refers to nothing that a working heap does
not hold, and the slots below the current frame are as they were. -/
structure Fits (s : Heap) (stack : Array Value) : Prop where
  holds : s.Working → ∀ v ∈ stack, s.HoldsValue v
  below : s.bottom ≤ s.stack.size → ∀ i < s.bottom, stack[i]? = s.stack[i]?

theorem fits_stack (s : Heap) : s.Fits s.stack := ⟨fun hs => hs.stack, fun _ _ _ => rfl⟩

theorem Fits.bottom_le (h : s.Fits stack) (hs : s.bottom ≤ s.stack.size) : s.bottom ≤ stack.size := by
  rcases Nat.eq_zero_or_pos s.bottom with hb | hb
  · omega
  · have hlast := h.below hs (s.bottom - 1) (by omega)
    rw [Array.getElem?_eq_getElem (by omega : s.bottom - 1 < s.stack.size)] at hlast
    obtain ⟨hlt, -⟩ := Array.getElem?_eq_some_iff.mp hlast
    omega

/-- The changes that operations make outside calls, allocations and collections. -/
inductive Amends (w : World) (s : Heap) : Heap → Prop
  | restack {stack : Array Value} : s.Fits stack → Amends w s { s with stack }
  | edit {p : HeapPtr} {f : Object → Object} {stack : Array Value} {storage : Storage} : s.Fits stack →
      (s.Working → ∀ o, s.object? p = some o → ∀ q ∈ (f o).references, s.Holds q) →
      (∀ o, s.object? p = some o → w.Akin s o (f o)) →
      (prototype : ∀ o q, s.object? p = some o → (f o).prototype = some q →
        o.prototype = some q ∨ s.onChain p s.table.slots.size q = false := by exact fun _ _ _ => .inl) →
      Amends w s { s with table := s.table.modify p f, stack, storage }
  | restore (storage : Storage) : Amends w s { s with storage }

theorem holds_modify {q : HeapPtr} {f : Object → Object} {storage : Storage} :
    ({ s with table := s.table.modify p f, stack, storage } : Heap).Holds q ↔ s.Holds q := by
  unfold Holds object?
  rw [Table.get?_modify]
  split <;> simp

theorem Sound.transfer (hs : s.Sound) (ht : s'.table.Sound) (hframes : s'.frames = s.frames)
    (hglobal : s'.global = s.global) (hstash : s'.stash = s.stash)
    (hholds : ∀ q, s.Holds q → s'.Holds q) (hbottom : s.bottom ≤ s'.stack.size)
    (hstack : ∀ v ∈ s'.stack, s'.HoldsValue v)
    (hrefs : ∀ p o, s'.object? p = some o → ∀ q ∈ o.references, s'.Holds q) : s'.Sound := by
  have hb : s'.bottom = s.bottom := by
    unfold bottom
    rw [hframes]
  refine ⟨ht, by rw [hframes]; exact hs.framed, by rw [hb]; exact hbottom, ?_, ?_, hstack, ?_, hrefs⟩
  · rw [hglobal]
    exact hholds _ hs.global
  · rw [hstash]
    exact hholds _ hs.stash
  · intro f hf
    rw [hframes] at hf
    exact ⟨hholds _ (hs.frames f hf).1, fun p hp => hholds _ ((hs.frames f hf).2 p hp)⟩

theorem Amends.sound (h : Amends w s s') (hs : s.Working) : s'.Sound := by
  cases h with
  | restack hfits =>
    exact hs.transfer hs.table rfl rfl rfl (fun _ hq => hq) (hfits.bottom_le hs.bottom_le)
      (hfits.holds hs) hs.references
  | @edit p f stack storage hfits hrefs hakin _ =>
    refine hs.transfer (hs.table.modify _ _) rfl rfl rfl (fun _ hq => holds_modify.mpr hq)
      (hfits.bottom_le hs.bottom_le)
      (fun v hv r hr => holds_modify.mpr (hfits.holds hs v hv r hr)) ?_
    intro r o ho q hq
    rw [holds_modify]
    unfold object? at ho
    rw [Table.get?_modify] at ho
    by_cases hr : r = p
    · rw [if_pos hr, Option.map_eq_some_iff] at ho
      obtain ⟨o', ho', rfl⟩ := ho
      exact hrefs hs o' (hr ▸ ho') q hq
    · rw [if_neg hr] at ho
      exact hs.references r o ho q hq
  | restore storage =>
    exact hs.transfer hs.table rfl rfl rfl (fun _ hq => hq) hs.bottom_le hs.stack hs.references

theorem later_modify {f : Object → Object} {stack : Array Value} {storage : Storage}
    (hf : ∀ o, s.object? p = some o → o.finalized = true → (f o).finalized = true) :
    s.Later { s with table := s.table.modify p f, stack, storage } := by
  refine ⟨rfl, id, fun _ => Nat.le_of_eq (Table.slots_size_modify _ _ _).symm, .inl rfl,
    fun _ _ hc => ⟨hc, rfl, ?_, fun q o ho => ?_⟩⟩
  · show (s.table.modify p f).size + _ = _
    rw [Table.size_modify]
  · show ∃ o', (s.table.modify p f).get? q = some o' ∧ _
    rw [Table.get?_modify]
    by_cases hq : q = p
    · subst hq
      refine ⟨f o, ?_, hf o ho⟩
      rw [if_pos rfl]
      exact congrArg (Option.map f) ho
    · rw [if_neg hq]
      exact ⟨o, ho, id⟩

theorem Amends.later (h : Amends w s s') : s.Later s' := by
  cases h with
  | restack | restore =>
    exact ⟨rfl, id, fun _ => Nat.le_refl _, .inl rfl, fun _ _ hc =>
      ⟨hc, rfl, rfl, fun p o ho => ⟨o, ho, id⟩⟩⟩
  | @edit p f stack storage hfits hrefs hakin _ =>
    refine later_modify fun o ho hf => ?_
    rw [(hakin o ho).finalized]
    exact hf

theorem Amends.isSome_object? (ha : s.Amends w s') (q : HeapPtr) : (s'.object? q).isSome = (s.object? q).isSome := by
  cases ha with
  | restack _ => rfl
  | @edit p f stack storage _ _ _ _ =>
    show ((s.table.modify p f).get? q).isSome = _
    rw [Table.get?_modify]
    split
    · exact Option.isSome_map
    · rfl
  | restore _ => rfl

end Heap

/-! ## Worlds -/

/-- The invariant of a world: its open heaps are sound, as long as their pointers have numbers, and
the shares that records hold are there. -/
structure World.Sound (w : World) : Prop where
  heaps : ∀ (h : HeapId) s, w.heaps[h]? = some s → s.closed = false → s.table.Addressable → s.Sound
  records : ∀ (r : RecordId) x i, w.records[r]? = some x → x.share = some i → i < w.shares.size

structure Breaches.Leads (x y : Breaches) : Prop where
  keys : x.keys = true → y.keys = true
  races : x.races = true → y.races = true
  types : x.types = true → y.types = true
  counts : x.counts = true → y.counts = true
  refusals : x.refusals ≤ y.refusals

namespace Breaches

theorem Leads.refl (x : Breaches) : x.Leads x := ⟨id, id, id, id, Nat.le_refl _⟩

theorem Leads.trans {z : Breaches} (h : x.Leads y) (h' : y.Leads z) : x.Leads z :=
  ⟨h'.keys ∘ h.keys, h'.races ∘ h.races, h'.types ∘ h.types, h'.counts ∘ h.counts,
    Nat.le_trans h.refusals h'.refusals⟩

theorem Leads.counts_back (h : x.Leads y) (hy : y.counts = false) : x.counts = false := by
  cases hx : x.counts with
  | false => rfl
  | true => cases hy.symm.trans (h.counts hx)

@[simp] theorem merge_none (x : Breaches) : x.merge {} = x := by
  simp [Breaches.merge]

theorem leads_merge (x y : Breaches) : x.Leads (x.merge y) := by
  refine ⟨?_, ?_, ?_, ?_, Nat.le_add_right _ _⟩ <;> exact fun h => by simp [merge, h]

end Breaches

/-- What later worlds keep beside their heaps: the breaches, the heaps of bridges, the sorts of native
objects, and the types and keys of classes. -/
structure World.Proceeds (w w' : World) : Prop where
  orderly : w'.orderly = true → w.orderly = true
  breaches : w.breaches.Leads w'.breaches
  bridges : Retains Bridge.heapId w.bridges w'.bridges
  natives : Retains NativeObject.sort w.natives w'.natives
  classes : Retains (fun d : ClassDecl => (d.key, d.type)) w.classes w'.classes

structure World.Later (w w' : World) : Prop extends w.Proceeds w' where
  heaps : ∀ (h : HeapId) s, w.heaps[h]? = some s → ∃ s', w'.heaps[h]? = some s' ∧ s.Later s'

namespace World

theorem Proceeds.refl (w : World) : w.Proceeds w := ⟨id, .refl _, .refl _ _, .refl _ _, .refl _ _⟩

theorem Proceeds.trans (h : w1.Proceeds w2) (h' : w2.Proceeds w3) : w1.Proceeds w3 :=
  ⟨h.orderly ∘ h'.orderly, h.breaches.trans h'.breaches, h.bridges.trans h'.bridges,
    h.natives.trans h'.natives, h.classes.trans h'.classes⟩

theorem Later.refl (w : World) : w.Later w := ⟨.refl w, fun _ s hs => ⟨s, hs, .refl s⟩⟩

theorem Later.trans (h : w1.Later w2) (h' : w2.Later w3) : w1.Later w3 := by
  refine ⟨h.toProceeds.trans h'.toProceeds, fun i s hs => ?_⟩
  obtain ⟨s', hs', hl⟩ := h.heaps i s hs
  obtain ⟨s'', hs'', hl'⟩ := h'.heaps i s' hs'
  exact ⟨s'', hs'', hl.trans hl'⟩

theorem Sound.of_heaps_eq (hw : w.Sound) (hheaps : w'.heaps = w.heaps)
    (hrecords : w'.records = w.records) (hshares : w.shares.size ≤ w'.shares.size) : w'.Sound := by
  refine ⟨?_, fun r x i hr hx => ?_⟩
  · rw [hheaps]
    exact hw.heaps
  · rw [hrecords] at hr
    exact Nat.lt_of_lt_of_le (hw.records r x i hr hx) hshares

theorem Later.of_heaps_eq (hheaps : w'.heaps = w.heaps) (h : w.Proceeds w') : w.Later w' := by
  refine ⟨h, fun h s hs => ⟨s, ?_, .refl s⟩⟩
  rw [hheaps]
  exact hs

theorem Sound.setHeap (hw : w.Sound) (hs : w.heaps[h]? = some s)
    (hs' : s'.closed = false → s'.table.Addressable → s'.Sound) : (w.setHeap h s').Sound := by
  refine ⟨fun k x hx hopen ha => ?_, hw.records⟩
  rcases heaps_setHeap_cases hs hx with ⟨-, rfl⟩ | hx
  · exact hs' hopen ha
  · exact hw.heaps k x hx hopen ha

theorem Later.setHeap (hs : w.heaps[h]? = some s) (hl : s.Later s') : w.Later (w.setHeap h s') :=
  ⟨⟨id, .refl _, .refl _ _, .refl _ _, .refl _ _⟩, fun _ _ hx => heaps_setHeap_rel .refl hs hl hx⟩

theorem Later.through (hs : w.heaps[h]? = some s) (hl : (w.setHeap h s1).Later w')
    (hs2 : w'.heaps[h]? = some s2) (hlater : s.Later s') : w.Later (w'.setHeap h s') := by
  refine ⟨⟨hl.orderly, hl.breaches, hl.bridges, hl.natives, hl.classes⟩, fun k x hx => ?_⟩
  rw [heaps_setHeap hs2]
  split
  case isTrue hk =>
    rw [hk, hs] at hx
    cases hx
    exact ⟨s', rfl, hlater⟩
  case isFalse hk =>
    refine hl.heaps k x ?_
    rw [heaps_setHeap hs, if_neg hk]
    exact hx

theorem Sound.working (hw : w.Sound) (hs : w.heaps[h]? = some s) (hopen : s.closed = false)
    (ha : s.table.Addressable) : s.Working := ⟨hw.heaps h s hs hopen ha, hopen, ha⟩

theorem Sound.amend {w0 : World} (hw : w.Sound) (hs : w.heaps[h]? = some s) (ha : s.Amends w0 s') :
    (w.setHeap h s').Sound := by
  refine hw.setHeap hs fun hopen haddr => ha.sound ?_
  exact hw.working hs (ha.later.isOpen hopen) (ha.later.addressable hopen haddr)

end World

end Tether
