import Tether.Proofs.Operations.Program
import Tether.Proofs.Sweep

/-!
# Heaps stay sound

Regimes that look at heaps and at the history alone, so that native code may do whatever it likes
with bridges. Whatever it does, no operation leaves a heap with a broken table, frames outside the
stack or a reference to a freed object.
-/

namespace Tether

open M World Heap

variable {w w' : World} {s s' : Heap} {p : HeapPtr} {f : Frame} {natives : Array NativeObject} {r : RecordId}

/-! ## Changes beside the table -/

namespace Heap

theorem Sound.congr (hs : s.Sound) (htable : s'.table = s.table) (hstack : s'.stack = s.stack)
    (hframes : s'.frames = s.frames) (hglobal : s'.global = s.global) (hstash : s'.stash = s.stash) :
    s'.Sound := by
  have hobject : ∀ q, s'.object? q = s.object? q := fun q => by
    unfold object?
    rw [htable]
  have hholds : ∀ q, s.Holds q → s'.Holds q := fun q hq => by
    unfold Holds
    rw [hobject]
    exact hq
  refine hs.transfer (by rw [htable]; exact hs.table) hframes hglobal hstash hholds
    (by rw [hstack]; exact hs.bottom_le) (fun v hv p hp => ?_) fun p o ho q hq => ?_
  · rw [hstack] at hv
    exact hholds p (hs.stack v hv p hp)
  · rw [hobject] at ho
    exact hholds q (hs.references p o ho q hq)

theorem Later.of_table_eq (htable : s'.table = s.table) (hlimits : s'.limits = s.limits)
    (hclosed : s'.closed = s.closed) (hframes : s'.frames = s.frames ∨ s'.frames = [])
    (hcollecting : s.collecting = true → s'.collecting = true)
    (hfreed : s'.counters.freed = s.counters.freed)
    (hallocated : s'.counters.allocated = s.counters.allocated) : s.Later s' := by
  refine ⟨hlimits, fun h => hclosed ▸ h, fun _ => ?_, hframes, fun _ _ hc => ?_⟩
  · exact Nat.le_of_eq (by rw [htable])
  · refine ⟨hcollecting hc, hfreed, by rw [htable, hallocated], fun p o ho => ⟨o, ?_, id⟩⟩
    unfold object?
    rw [htable]
    exact ho

theorem Later.of_idle (hidle : s.collecting = false) (hlimits : s'.limits = s.limits)
    (hopen : s'.closed = false → s.closed = false)
    (hslots : s'.closed = false → s.table.slots.size ≤ s'.table.slots.size)
    (hframes : s'.frames = s.frames ∨ s'.frames = []) : s.Later s' :=
  ⟨hlimits, hopen, hslots, hframes, fun _ _ hc => absurd hc (by simp [hidle])⟩

def offer (s : Heap) (p : HeapPtr) (o : Object) : Heap := (s.push (.object (o.finalizer.getD .null))).push (.object p)

theorem amends_offer {o : Object} (ho : s.object? p = some o) : s.Amends w (s.offer p o) := by
  have hfin : s.Working → s.HoldsValue (.object (o.finalizer.getD .null)) := fun hwork => by
    cases hq : o.finalizer with
    | none => exact holdsValue_object.mpr (.inl rfl)
    | some q =>
      refine holdsValue_object.mpr (hwork.references p o ho q ?_)
      exact Object.mem_references.mpr (.inr (.inl hq))
  refine .restack ?_
  show s.Fits ((s.stack.push _).push _)
  rw [Array.push_eq_append, Array.push_eq_append, Array.append_assoc]
  refine fits_append fun hwork v hv => ?_
  simp only [Array.mem_append, List.mem_toArray, List.mem_singleton] at hv
  rcases hv with rfl | rfl
  · exact hfin hwork
  · exact holdsValue_object.mpr (holds_of_object? ho)

/-- The heap in which the finalizer of an object counts as started. -/
def startFinalizer (s : Heap) (p : HeapPtr) : Heap := s.modifyObject p fun o => { o with finalized := true }

theorem object?_modifyObject (s : Heap) (p : HeapPtr) (f : Object → Object) (q : HeapPtr) :
    (s.modifyObject p f).object? q = if q = p then (s.object? q).map f else s.object? q :=
  Table.get?_modify _ _ _ _

theorem object?_startFinalizer (s : Heap) (p q : HeapPtr) : (s.startFinalizer p).object? q =
      if q = p then (s.object? q).map fun o => { o with finalized := true } else s.object? q :=
  Table.get?_modify _ _ _ _

theorem Sound.startFinalizer (hs : s.Sound) (p : HeapPtr) : (s.startFinalizer p).Sound := by
  refine hs.transfer (hs.table.modify _ _) rfl rfl rfl (fun _ hq => holds_modify.mpr hq) hs.bottom_le
    (fun v hv q hq => holds_modify.mpr (hs.stack v hv q hq)) fun r o ho q hq => ?_
  refine holds_modify.mpr ?_
  rw [object?_startFinalizer] at ho
  split at ho
  · obtain ⟨o', ho', rfl⟩ := Option.map_eq_some_iff.mp ho
    exact hs.references r o' ho' q hq
  · exact hs.references r o ho q hq

theorem later_startFinalizer (s : Heap) (p : HeapPtr) : s.Later (s.startFinalizer p) := later_modify fun _ _ _ => rfl

theorem Sound.setRoots (hs : s.Sound) {global stash : HeapPtr} (hglobal : s.Holds global)
    (hstash : s.Holds stash) : ({ s with global, stash } : Heap).Sound :=
  ⟨hs.table, hs.framed, hs.bottom_le, hglobal, hstash, hs.stack, hs.frames, hs.references⟩

section

variable (hframed : s.frames.Pairwise fun inner outer => outer.base ≤ inner.base)
include hframed

theorem framed_cons (hbase : s.bottom ≤ f.base) :
    (f :: s.frames).Pairwise fun inner outer => outer.base ≤ inner.base := by
  refine List.pairwise_cons.mpr ⟨fun g hg => Nat.le_trans ?_ hbase, hframed⟩
  unfold bottom
  cases hframes : s.frames with
  | nil =>
    rw [hframes] at hg
    simp at hg
  | cons g' rest =>
    rw [hframes] at hg hframed
    rcases List.mem_cons.mp hg with rfl | hg
    · exact Nat.le_refl _
    · exact (List.pairwise_cons.mp hframed).1 g hg

theorem framed_tail {rest : List Frame} (hframes : s.frames = f :: rest) (hbottom : s.bottom ≤ s.stack.size) :
    (rest.Pairwise fun inner outer => outer.base ≤ inner.base) ∧
      ({ s with frames := rest } : Heap).bottom ≤ s.stack.size := by
  unfold bottom at hbottom ⊢
  rw [hframes] at hframed hbottom
  refine ⟨(List.pairwise_cons.mp hframed).2, ?_⟩
  cases rest with
  | nil => exact Nat.zero_le _
  | cons g rest => exact Nat.le_trans ((List.pairwise_cons.mp hframed).1 g List.mem_cons_self) hbottom

end

theorem Sound.pushFrame (hs : s.Sound) (hbase : s.bottom ≤ f.base) (hsize : f.base ≤ s.stack.size)
    (hf : s.Holds f.fn ∧ s.HoldsValue f.this) : ({ s with frames := f :: s.frames } : Heap).Sound := by
  refine ⟨hs.table, framed_cons hs.framed hbase, hsize, hs.global, hs.stash, hs.stack, fun g hg => ?_, hs.references⟩
  rcases List.mem_cons.mp hg with rfl | hg
  · exact hf
  · exact hs.frames g hg

theorem Sound.popFrame {rest : List Frame} (hs : s.Sound) (hframes : s.frames = f :: rest) :
    ({ s with frames := rest } : Heap).Sound := by
  obtain ⟨hframed, hbottom⟩ := framed_tail hs.framed hframes hs.bottom_le
  refine ⟨hs.table, hframed, hbottom, hs.global, hs.stash, hs.stack, fun g hg => hs.frames g ?_, hs.references⟩
  rw [hframes]
  exact List.mem_cons_of_mem _ hg

theorem depth_pos_of_checkLimits {l : Limits} (h : checkLimits l = .ok ()) : 0 < l.depth := by
  unfold checkLimits at h
  split at h
  · simp at h
  · split at h
    · simp at h
    · omega

theorem sound_new (limits : Limits) (storage : Storage) (ownsStorage logs : Bool) :
    ({ limits, storage, ownsStorage, logs } : Heap).Sound := by
  refine ⟨Table.sound_empty, .nil, Nat.le_refl _, .inl rfl, .inl rfl, fun v hv => ?_, fun f hf => ?_,
    fun p o ho => ?_⟩
  · simp at hv
  · simp at hf
  · obtain ⟨-, hslot⟩ := Table.get?_eq_some.mp ho
    simp at hslot

end Heap

def World.beginCollection (w : World) (h : HeapId) (s : Heap) : World :=
  { w with orderly := w.orderly && s.hasRoom }.setHeap h { s with collecting := true, allocs := 0 }

def World.beginClosing (w : World) (h : HeapId) (s : Heap) : World :=
  w.setHeap h { s with stack := #[], frames := [], collecting := true }

/-! ## Changes of one heap -/

def World.lawless : World := { orderly := false, breaches := { keys := true } }

theorem World.not_guarded_lawless : ¬ World.lawless.Guarded := by
  simp [World.Guarded, lawless]

namespace Heap

/-- What is counted when objects are freed. -/
structure Accounts (s : Heap) (freed : Nat) (s' : Heap) : Prop where
  issued : s'.issued = s.issued
  allocated : s'.counters.allocated = s.counters.allocated
  freed : s'.counters.freed = s.counters.freed + freed

/-- What happens to a heap outside calls, allocations and collections, whether or not the rules of
bridges are kept. -/
inductive Turns (s : Heap) : Heap → Prop
  | amend {s' : Heap} : s.Amends World.lawless s' → Turns s s'
  /-- A finalizer starts. -/
  | start (p : HeapPtr) : Turns s (s.startFinalizer p)
  /-- The global object or the stash is set. -/
  | root {global stash : HeapPtr} : (s.Working → s.Holds global ∧ s.Holds stash) → Turns s { s with global, stash }
  /-- Closing begins. -/
  | clear : Turns s { s with stack := #[], frames := [], collecting := true }
  /-- Closing ends. -/
  | shut {s' : Heap} : s.frames = [] → s'.closed = true → s'.limits = s.limits → s'.frames = [] →
      s.Accounts s.table.live.length s' → s.retired <:+ s'.retired → s'.table = {} → Turns s s'

theorem Turns.later (h : s.Turns s') : s.Later s' := by
  cases h with
  | amend ha => exact ha.later
  | start p => exact later_startFinalizer s p
  | root _ => exact .of_table_eq rfl rfl rfl (.inl rfl) id rfl rfl
  | clear => exact .of_table_eq rfl rfl rfl (.inr rfl) (fun _ => rfl) rfl rfl
  | shut _ hclosed hlimits hframes _ _ _ =>
    have hopen : ¬ s'.closed = false := by simp [hclosed]
    exact ⟨hlimits, fun ho => absurd ho hopen, fun ho => absurd ho hopen, .inr hframes, fun ho => absurd ho hopen⟩

theorem Turns.sound (h : s.Turns s') (hs : s.Working) (hopen : s'.closed = false) : s'.Sound := by
  cases h with
  | amend ha => exact ha.sound hs
  | start p => exact hs.toSound.startFinalizer p
  | root hroots => exact hs.toSound.setRoots (hroots hs).1 (hroots hs).2
  | clear =>
    exact ⟨hs.table, .nil, Nat.le_refl _, hs.global, hs.stash, by simp, by simp, hs.references⟩
  | shut _ hclosed => simp [hclosed] at hopen

/-- The heap after a finalizer ended: the stack is cut to a height, and the finalizer counts. -/
def endFinalizer (s : Heap) (height : Nat) : Heap :=
  { s.truncate height with counters := { s.counters with finalizers := s.counters.finalizers + 1 } }

theorem later_endFinalizer (s : Heap) (height : Nat) : s.Later (s.endFinalizer height) :=
  .of_table_eq rfl rfl rfl (.inl rfl) id rfl rfl

theorem Sound.endFinalizer (hs : s.Working) {height : Nat} (hheight : s.bottom ≤ height) :
    (s.endFinalizer height).Sound := by
  have hcut : s.Amends lawless (s.truncate height) := amends_truncate hheight
  exact (hcut.sound hs).congr rfl rfl rfl rfl rfl

end Heap

/-! ## The regime -/

/-- A change beside heaps, records and the history, to which shares may have been added. -/
structure World.Aside (w w' : World) : Prop extends w.Proceeds w' where
  heaps : w'.heaps = w.heaps
  records : w'.records = w.records
  shares : w.shares.size ≤ w'.shares.size
  history : w'.history = w.history

/-- The bookkeeping of bridges. Native objects keep their sorts, shares their objects, and bridges what
they know; a new bridge knows nothing. Records keep their classes, and their shares or give them up; a
new record holds a share of an object that fits its class. -/
structure World.BooksOnly (fits : ClassId → NativeId → World → Prop) (w w' : World) : Prop where
  heaps : w'.heaps = w.heaps
  history : w'.history = w.history
  orderly : w'.orderly = w.orderly
  breaches : w'.breaches = w.breaches
  classes : w'.classes = w.classes
  modules : w'.modules = w.modules
  natives : Retains NativeObject.sort w.natives w'.natives
  shares : Retains Share.object w.shares w'.shares
  bridges : Retains (fun br => (br.heapId, br.registry)) w.bridges w'.bridges
  tables : ∀ (b : BridgeId) br', w'.bridges[b]? = some br' →
    (∃ br, w.bridges[b]? = some br ∧ br'.registry = br.registry) ∨ br'.registry = ([], [], 0)
  records : ∀ (r : RecordId) x', w'.records[r]? = some x' →
    (∃ x, w.records[r]? = some x ∧ x'.cls = x.cls ∧ (x'.share = x.share ∨ x'.share = none)) ∨
      ∀ i, x'.share = some i → ∃ sh, w'.shares[i]? = some sh ∧ fits x'.cls sh.object w'

namespace World

variable {fits : ClassId → NativeId → World → Prop}

theorem Aside.trans {w1 w2 w3 : World} (h : w1.Aside w2) (h' : w2.Aside w3) : w1.Aside w3 :=
  ⟨h.toProceeds.trans h'.toProceeds, h'.heaps.trans h.heaps, h'.records.trans h.records,
    Nat.le_trans h.shares h'.shares, h'.history.trans h.history⟩

theorem Aside.refl (w : World) : w.Aside w := ⟨.refl w, rfl, rfl, Nat.le_refl _, rfl⟩

theorem aside_note {orderly : Bool} {breaches : Breaches} (ho : orderly = true → w.orderly = true)
    (hb : w.breaches.Leads breaches) : w.Aside { w with orderly, breaches } :=
  ⟨⟨ho, hb, .refl _ _, .refl _ _, .refl _ _⟩, rfl, rfl, Nat.le_refl _, rfl⟩

theorem aside_natives (hn : Retains NativeObject.sort w.natives natives) : w.Aside { w with natives } :=
  ⟨⟨id, .refl _, .refl _ _, hn, .refl _ _⟩, rfl, rfl, Nat.le_refl _, rfl⟩

theorem aside_classes {classes : Array ClassDecl}
    (hc : Retains (fun d : ClassDecl => (d.key, d.type)) w.classes classes) :
    w.Aside { w with classes } :=
  ⟨⟨id, .refl _, .refl _ _, .refl _ _, hc⟩, rfl, rfl, Nat.le_refl _, rfl⟩

theorem aside_bridges {bridges : Array Bridge} (hb : Retains Bridge.heapId w.bridges bridges) :
    w.Aside { w with bridges } :=
  ⟨⟨id, .refl _, hb, .refl _ _, .refl _ _⟩, rfl, rfl, Nat.le_refl _, rfl⟩

theorem aside_names {attached : List (HeapId × BridgeId)} {modules : Array ModuleDecl} {names : Names} :
    w.Aside { w with attached, modules, names } :=
  ⟨⟨id, .refl _, .refl _ _, .refl _ _, .refl _ _⟩, rfl, rfl, Nat.le_refl _, rfl⟩

theorem Alters.aside {usable : BridgeId → World → Prop} {loose : ShareId → World → Prop}
    (h : w.Alters usable loose w') : w.Aside w' := by
  cases h with
  | note ho hb => exact aside_note ho hb
  | tamper => exact aside_natives (retains_modify _ _ fun _ => rfl)
  | newNative => exact aside_natives (retains_push _ _ _)
  | editNative hf => exact aside_natives (retains_modify _ _ fun n => (hf n).2.2)
  | newClass => exact aside_classes (retains_push _ _ _)
  | editClass hf => exact aside_classes (retains_modify _ _ fun d => Prod.ext (hf d).1.1 (hf d).1.2)
  | editBridge hf => exact aside_bridges (retains_modify _ _ fun x => (hf x).1)
  | enroll => exact aside_bridges (retains_modify _ _ fun _ => rfl)
  | declare | attach | nameShare => exact aside_names

theorem aside_issue (w : World) (o : NativeId) (c : ControlId) : w.Aside (w.issue o c) :=
  ⟨⟨id, .refl _, .refl _ _, .refl _ _, .refl _ _⟩, rfl, rfl, by simp [issue], rfl⟩

theorem aside_withControl (w : World) (o : NativeId) : w.Aside (w.withControl o) :=
  ⟨⟨id, .refl _, .refl _ _, retains_modify _ _ fun _ => rfl, .refl _ _⟩, rfl, rfl, Nat.le_refl _, rfl⟩

theorem Issues.aside (h : w.Issues w') : w.Aside w' := by
  cases h with
  | held | again => exact aside_issue _ _ _
  | fresh => exact (aside_withControl w _).trans (aside_issue _ _ _)

theorem BooksOnly.proceeds (h : w.BooksOnly fits w') : w.Proceeds w' :=
  ⟨fun ho => h.orderly ▸ ho, by rw [h.breaches]; exact .refl _, fun b br hbr =>
    let ⟨br', hbr', he⟩ := h.bridges b br hbr
    ⟨br', hbr', (Prod.mk.inj he).1⟩, h.natives, by rw [h.classes]; exact .refl _ _⟩

theorem BooksOnly.mono {fits' : ClassId → NativeId → World → Prop} (h : w.BooksOnly fits w')
    (hfits : ∀ c o, fits c o w' → fits' c o w') : w.BooksOnly fits' w' :=
  ⟨h.heaps, h.history, h.orderly, h.breaches, h.classes, h.modules, h.natives, h.shares, h.bridges,
    h.tables, fun r x' hx' => (h.records r x' hx').imp_right fun hnew i hi =>
      let ⟨sh, hsh, ho⟩ := hnew i hi
      ⟨sh, hsh, hfits _ _ ho⟩⟩

theorem BooksOnly.sound (h : w.BooksOnly fits w') (hw : w.Sound) : w'.Sound := by
  refine ⟨by rw [h.heaps]; exact hw.heaps, fun r x' i hr hi => ?_⟩
  obtain ⟨sh, hsh⟩ : ∃ sh, w'.shares[i]? = some sh := by
    rcases h.records r x' hr with ⟨x, hx, -, hs | hs⟩ | hnew
    · have hlt := hw.records r x i hx (hs.symm.trans hi)
      obtain ⟨sh, hsh, -⟩ := h.shares i _ (Array.getElem?_eq_getElem hlt)
      exact ⟨sh, hsh⟩
    · simpa using hs.symm.trans hi
    · obtain ⟨sh, hsh, -⟩ := hnew i hi
      exact ⟨sh, hsh⟩
  exact (Array.getElem?_eq_some_iff.mp hsh).1

variable (w)

theorem books_ledger {controls : Array Control} {shares : Array Share} {forced : Bool}
    {log : Array LogEntry} (hn : Retains NativeObject.sort w.natives natives)
    (hs : Retains Share.object w.shares shares) :
    w.BooksOnly fits { w with natives, controls, shares, forced, log } :=
  ⟨rfl, rfl, rfl, rfl, rfl, rfl, hn, hs, .refl _ _, fun _ br h => .inl ⟨br, h, rfl⟩,
    fun _ x hx => .inl ⟨x, hx, rfl, .inl rfl⟩⟩

theorem books_editRecord {f : Record → Record}
    (hf : ∀ x, (f x).cls = x.cls ∧ ((f x).share = x.share ∨ (f x).share = none)) :
    w.BooksOnly fits { w with records := w.records.modify r f } := by
  refine ⟨rfl, rfl, rfl, rfl, rfl, rfl, .refl _ _, .refl _ _, .refl _ _, fun _ br h => .inl ⟨br, h, rfl⟩,
    fun r' x' hx => .inl ?_⟩
  rcases modify_cases hx with ⟨-, y, hy, rfl⟩ | ⟨-, hx'⟩
  · exact ⟨y, hy, hf y⟩
  · exact ⟨x', hx', rfl, .inl rfl⟩

theorem books_newRecord {x : Record} (hx : ∀ i, x.share = some i →
    ∃ sh, w.shares[i]? = some sh ∧ fits x.cls sh.object { w with records := w.records.push x }) :
    w.BooksOnly fits { w with records := w.records.push x } := by
  refine ⟨rfl, rfl, rfl, rfl, rfl, rfl, .refl _ _, .refl _ _, .refl _ _, fun _ br h => .inl ⟨br, h, rfl⟩,
    fun r y hy => ?_⟩
  rcases push_cases hy with hy | rfl
  · exact .inl ⟨y, hy, rfl, .inl rfl⟩
  · exact .inr hx

theorem books_editBridge {b : BridgeId} {f : Bridge → Bridge}
    (hf : Regime.Recounts f) :
    w.BooksOnly fits { w with bridges := w.bridges.modify b f } :=
  ⟨rfl, rfl, rfl, rfl, rfl, rfl, .refl _ _, .refl _ _, retains_modify _ _ fun x => Prod.ext (hf x).1 (hf x).2,
    fun _ _ h => .inl (getElem?_modify_back (fun x => (hf x).2) h), fun _ x hx => .inl ⟨x, hx, rfl, .inl rfl⟩⟩

theorem books_newBridge (br : Bridge) (hbr : br.registry = ([], [], 0)) :
    w.BooksOnly fits { w with bridges := w.bridges.push br } := by
  refine ⟨rfl, rfl, rfl, rfl, rfl, rfl, .refl _ _, .refl _ _, retains_push _ _ _, fun b br' h => ?_,
    fun _ x hx => .inl ⟨x, hx, rfl, .inl rfl⟩⟩
  rcases push_cases h with h | rfl
  · exact .inl ⟨br', h, rfl⟩
  · exact .inr hbr

variable {w}

end World

namespace Regime

theorem sound_aside (hw : w.Sound) (h : w.Aside w') : w'.Sound ∧ w.Later w' :=
  ⟨hw.of_heaps_eq h.heaps h.records h.shares, .of_heaps_eq h.heaps h.toProceeds⟩

theorem proceeds_state (h : w'.state = w.state) : w.Proceeds w' := by
  obtain ⟨-, -, hnatives, -, -, -, hbridges, hclasses, -, -, horderly, -, hbreaches⟩ := state_eq_iff.mp h
  refine ⟨fun ho => horderly ▸ ho, ?_, ?_, ?_, ?_⟩
  · rw [hbreaches]
    exact .refl _
  · rw [hbridges]
    exact .refl _ _
  · rw [hnatives]
    exact .refl _ _
  · rw [hclasses]
    exact .refl _ _

theorem sound_state (hw : w.Sound) (h : w'.state = w.state) : w'.Sound ∧ w.Later w' := by
  obtain ⟨hheaps, -, -, -, hshares, hrecords, -⟩ := state_eq_iff.mp h
  exact ⟨hw.of_heaps_eq hheaps hrecords (Nat.le_of_eq (by rw [hshares])), .of_heaps_eq hheaps (proceeds_state h)⟩

def plain : Regime where
  inv := World.Sound
  rel := World.Later
  deep _ _ _ := True
  sound := id
  later := id
  refl := World.Later.refl
  trans := World.Later.trans
  silent hw h := sound_state hw h.state
  underflow hw _ _ _ := sound_state hw (state_recalling _ _)
  misfit hw _ _ _ _ _ := sound_state hw (state_recalling _ _)
  alter hw ha := sound_aside hw ha.aside
  amend hw hs ha := ⟨hw.amend hs ha, .setHeap hs ha.later⟩
  alloc {w h s o} hw hs hblank _ _ := by
    refine ⟨hw.setHeap hs fun hopen ha => ?_, .setHeap hs (later_withObject (hw.heaps h s hs) o)⟩
    have haddr := Nat.lt_of_le_of_lt (Table.slots_size_le_insert s.table o) ha
    refine (hw.heaps h s hs hopen haddr).withObject ha fun q hq => ?_
    rw [hblank.references] at hq
    simp at hq
  issue hw hi := ⟨sound_aside hw hi.aside, trivial⟩

/-- What a regime has to show about entering and leaving frames, the ends of finalizers, and collections. -/
class IsFramed (R : Regime) : Prop where
  enter {w : World} {h : HeapId} {s : Heap} {f : Frame} : R.inv w → w.heaps[h]? = some s →
    s.bottom ≤ f.base → f.base ≤ s.stack.size → (s.frames.length : Int) < s.limits.depth →
    s.closed = false → (s.Working → s.Holds f.fn ∧ s.HoldsValue f.this) →
    R.inv (w.setHeap h { s with frames := f :: s.frames })
  leave {w w' : World} {h : HeapId} {s s' : Heap} {f : Frame} : R.inv w → w.heaps[h]? = some s →
    s.bottom ≤ f.base → R.Good (w.setHeap h { s with frames := f :: s.frames }) w' →
    w'.heaps[h]? = some s' → s'.frames = f :: s.frames →
    R.Good w (w'.setHeap h { s' with frames := s.frames }) ∧
      R.deep h f.base (w'.setHeap h { s' with frames := s.frames })
  lose {w w' : World} {h : HeapId} {s s' : Heap} {f : Frame} : R.inv w → w.heaps[h]? = some s →
    R.Good (w.setHeap h { s with frames := f :: s.frames }) w' → w'.heaps[h]? = some s' →
    s'.frames = [] → R.rel w w'
  endFinalizer {w w' : World} {h : HeapId} {s s' : Heap} : R.inv w → w.heaps[h]? = some s →
    R.Good w w' → w'.heaps[h]? = some s' →
    R.Good w' (w'.setHeap h (s'.endFinalizer s.stack.size))
  beginCollection {w : World} {h : HeapId} {s : Heap} : R.inv w → w.heaps[h]? = some s →
    s.collecting = false → R.inv (w.beginCollection h s)
  endCollection {w w' : World} {h : HeapId} {s s' s'' : Heap} {ps : List HeapPtr} : R.inv w →
    w.heaps[h]? = some s → s.collecting = false → R.Good (w.beginCollection h s) w' →
    w'.heaps[h]? = some s' → s'.Swept ps s'' →
    (s'.Working → s''.Sound) → (s'.table.Addressable → ps.Nodup ∧ ∀ p ∈ ps, (s'.object? p).isSome = true) →
    R.Good w (w'.setHeap h { s'' with collecting := false })

/-- What a regime has to show beyond that about the starts of finalizers and about closing. -/
class IsHeapwise (R : Regime) : Prop extends IsFramed R where
  sane {w : World} {h : HeapId} {s : Heap} {code : Code} : R.sane h w (some code) →
    R.sane h (w.setHeap h s) (some code)
  start {w : World} {h : HeapId} {s : Heap} (p : HeapPtr) : R.inv w → w.heaps[h]? = some s →
    R.Good w (w.setHeap h (s.startFinalizer p))
  clear {w : World} {h : HeapId} {s : Heap} : R.inv w → w.heaps[h]? = some s → R.Good w (w.beginClosing h s)
  shut {w : World} {h : HeapId} {s s' : Heap} : R.inv w → w.heaps[h]? = some s → s.frames = [] →
    s'.closed = true → s'.limits = s.limits → s'.frames = [] → s.Accounts s.table.live.length s' →
    s.retired <:+ s'.retired → s'.table = {} → R.Good w (w.setHeap h s')

/-- A regime that looks at heaps, the history and the types of things alone: what it has to show for the
bookkeeping of bridges, for the changes of one heap, for entering and leaving frames, for the ends of
finalizers, and for collections. -/
class IsPlain (R : Regime) : Prop extends IsFramed R where
  usable (b : BridgeId) (w : World) : R.usable b w := by intros; trivial
  loose (i : ShareId) (w : World) : R.loose i w := by intros; trivial
  tends (h : HeapId) (b : BridgeId) (w : World) : R.tends h b w := by intros; trivial
  proper {w : World} {h : HeapId} {s : Heap} {c : Callable} : R.proper c w →
    R.proper c (w.setHeap h s) := by intros; trivial
  fits {w : World} {c : ClassId} {o : NativeId} {records : Array Record} : R.fits c o w →
    R.fits c o { w with records } := by intros; trivial
  books {w w' : World} : R.inv w → w.BooksOnly R.fits w' → R.Good w w'
  turn {w : World} {h : HeapId} {s s' : Heap} : R.inv w → w.heaps[h]? = some s → s.Turns s' →
    R.Good w (w.setHeap h s')
  newHeap {w : World} {limits : Limits} {storage : Storage} {ownsStorage logs : Bool} : R.inv w → 0 < limits.depth →
    R.Good w { w with heaps := w.heaps.push { limits, storage, ownsStorage, logs } }

instance IsPlain.heapwise {R : Regime} [IsPlain R] : IsHeapwise R where
  sane {w h s code} hsane := by
    cases code with
    | bound b c => exact ⟨IsPlain.usable _ _, IsPlain.proper hsane.2⟩
    | finalizer b => exact IsPlain.tends _ _ _
    | program => trivial
  start p hw hs := IsPlain.turn hw hs (.start p)
  clear hw hs := IsPlain.turn hw hs .clear
  shut hw hs hempty hclosed hlimits hframes hissued hretired htable :=
    IsPlain.turn hw hs (.shut hempty hclosed hlimits hframes hissued hretired htable)

instance IsPlain.uncounted {R : Regime} [IsPlain R] : Uncounted R :=
  ⟨fun hw hf => IsPlain.books hw (books_editBridge _ hf)⟩

variable {R : Regime} {F : R.Fact} {n : Nat} {h : HeapId}

/-! ## The weakest plain regime -/

theorem plain_setHeap (hw : w.Sound) (hs : w.heaps[h]? = some s) (hl : s.Later s')
    (hsound : s.Working → s'.table.Addressable → s'.Sound) : plain.Good w (w.setHeap h s') :=
  ⟨hw.setHeap hs fun hopen ha =>
    hsound (hw.working hs (hl.isOpen hopen) (hl.addressable hopen ha)) ha, .setHeap hs hl⟩

theorem plain_turn (hw : w.Sound) (hs : w.heaps[h]? = some s) (ht : s.Turns s') : plain.Good w (w.setHeap h s') :=
  ⟨hw.setHeap hs fun hopen ha => ht.sound (hw.working hs (ht.later.isOpen hopen)
    (ht.later.addressable hopen ha)) hopen, .setHeap hs ht.later⟩

theorem plain_newHeap (hw : w.Sound) {s : Heap} (hs : s.Sound) : plain.Good w { w with heaps := w.heaps.push s } := by
  refine ⟨⟨fun h x hx hopen ha => ?_, hw.records⟩, ⟨⟨id, .refl _, .refl _ _, .refl _ _, .refl _ _⟩,
      fun h x hx => ⟨x, push_of_some hx, .refl x⟩⟩⟩
  rcases push_cases hx with hx | rfl
  · exact hw.heaps h x hx hopen ha
  · exact hs

theorem plain_beginCollection (hw : w.Sound) (hs : w.heaps[h]? = some s) (hidle : s.collecting = false) :
    plain.Good w (w.beginCollection h s) := by
  have hnoted : plain.Good w { w with orderly := w.orderly && s.hasRoom } := (keeps_note (fun _ => s.hasRoom)).good hw
  refine hnoted.trans (plain_setHeap hnoted.1 (s := s) hs ?_ fun hwork _ => ?_)
  · exact .of_idle hidle rfl id (fun _ => Nat.le_refl _) (.inl rfl)
  · exact hwork.toSound.congr rfl rfl rfl rfl rfl

theorem plain_beginClosing (hw : w.Sound) (hs : w.heaps[h]? = some s) :
    plain.Good w (w.beginClosing h s) := plain_turn hw hs .clear

theorem heaps_beginCollection (hs : w.heaps[h]? = some s) :
    (w.beginCollection h s).heaps[h]? = some { s with collecting := true, allocs := 0 } :=
  get_setHeap (w := { w with orderly := w.orderly && s.hasRoom }) hs _

theorem later_leave {frames : List Frame} (hl : ({ s with frames := f :: s.frames } : Heap).Later s')
    (hframes : frames = s.frames ∨ frames = []) : s.Later { s' with frames } := by
  refine ⟨hl.limits, hl.isOpen, hl.slots, hframes, fun hopen ha hc => ?_⟩
  have hp := hl.persists hopen ha hc
  exact ⟨hp.collecting, hp.freed, hp.size, hp.objects⟩

theorem later_endCollection {s'' : Heap} {ps : List HeapPtr} (hidle : s.collecting = false)
    (hl : ({ s with collecting := true, allocs := 0 } : Heap).Later s') (hswept : s'.Swept ps s'') :
    s.Later { s'' with collecting := false } := by
  refine .of_idle hidle (hswept.limits.trans hl.limits) (fun hopen => ?_) (fun hopen => ?_) ?_
  · exact hl.isOpen (hswept.closed ▸ hopen)
  · show s.table.slots.size ≤ s''.table.slots.size
    rw [hswept.slots]
    exact hl.slots (hswept.closed ▸ hopen)
  · show s''.frames = s.frames ∨ s''.frames = []
    rw [hswept.frames]
    exact hl.frames

instance : IsPlain plain where
  books hw hb := ⟨hb.sound hw, .of_heaps_eq hb.heaps hb.proceeds⟩
  turn := plain_turn
  newHeap hw _ := plain_newHeap hw (sound_new _ _ _ _)
  enter hw hs hbase hsize _ _ hf := World.Sound.setHeap hw hs fun hopen ha => by
    have hwork := World.Sound.working hw hs hopen ha
    exact hwork.toSound.pushFrame hbase hsize (hf hwork)
  leave {w w' h s s' f} hw hs _ hg hs' hframes := by
    obtain ⟨x, hx, hl⟩ := hg.heap (get_setHeap hs _)
    cases hs'.symm.trans hx
    refine ⟨⟨World.Sound.setHeap hg.1 hs' fun hopen ha => ?_, ?_⟩, trivial⟩
    · exact (World.Sound.heaps hg.1 h s' hs' hopen ha).popFrame hframes
    · exact .through hs hg.2 hs' (later_leave hl (.inl rfl))
  lose {w w' h s s' f} hw hs hg hs' hframes := by
    obtain ⟨x, hx, hl⟩ := hg.heap (get_setHeap hs _)
    cases hs'.symm.trans hx
    have hthrough : w.Later (w'.setHeap h { s' with frames := s'.frames }) :=
      .through hs hg.2 hs' (later_leave hl (.inr hframes))
    rwa [setHeap_self hs'] at hthrough
  endFinalizer {w w' h s s'} hw hs hg hs' := by
    obtain ⟨x, hx, hl⟩ := hg.heap hs
    cases hs'.symm.trans hx
    refine plain_setHeap hg.1 hs' (later_endFinalizer s' _) fun hwork _ => ?_
    refine Heap.Sound.endFinalizer hwork (Nat.le_trans hl.bottom_le ?_)
    exact (World.Sound.heaps hw h s hs (hl.isOpen hwork.isOpen)
      (hl.addressable hwork.isOpen hwork.addressable)).bottom_le
  beginCollection hw hs hidle := (plain_beginCollection hw hs hidle).1
  endCollection {w w' h s s' s'' ps} hw hs hidle hg hs' hswept hsound _ := by
    obtain ⟨x, hx, hl⟩ := hg.heap (heaps_beginCollection hs)
    cases hs'.symm.trans hx
    refine ⟨World.Sound.setHeap hg.1 hs' fun hopen ha => ?_, ?_⟩
    · refine (hsound (World.Sound.working hg.1 hs' (hswept.closed ▸ hopen) ?_)).congr
        rfl rfl rfl rfl rfl
      exact Nat.lt_of_le_of_lt (Nat.le_of_eq hswept.slots.symm) ha
    · have hnoted : w.Later { w with orderly := w.orderly && s.hasRoom } :=
        (sound_aside hw (aside_note (fun ho => (Bool.and_eq_true_iff.mp ho).1) (.refl _))).2
      exact hnoted.trans (.through (s := s) hs hg.2 hs' (later_endCollection hidle hl hswept))

/-! ## Changes that plain regimes permit -/

section Plain

variable [IsPlain R]

theorem plain_onHeap {α : Type} {f : Heap → Except Stop (α × Heap)}
    (hf : ∀ {s a s'}, f s = .ok (a, s') → s.Amends World.lawless s') : Keeps F (onHeap h f) :=
  fun _ hw _ => .onHeap hw fun _ _ _ hs he => IsPlain.turn hw hs (.amend (hf he))

theorem plain_changeHeap {f : Heap → Except Stop Heap}
    (hf : ∀ {s s'}, f s = .ok s' → s.Amends World.lawless s') : Keeps F (changeHeap h f) :=
  plain_onHeap fun he => hf (map_unit_eq_ok.mp he)

variable (i : Int)

theorem plain_putHidden (k : String) : Keeps F (changeHeap h (·.putHidden i k)) :=
  plain_changeHeap fun he => amends_putHidden (fun hg => absurd hg not_guarded_lawless) he

theorem plain_delHidden (k : String) : Keeps F (onHeap h (·.delHidden i k)) :=
  plain_onHeap fun he => amends_delHidden (fun hg => absurd hg not_guarded_lawless) he

theorem plain_setFinalizer : Keeps F (changeHeap h (·.setFinalizer i)) :=
  plain_changeHeap fun he => amends_setFinalizer (fun ho => absurd ho (by simp [lawless])) he

theorem plain_modifyRecord {f : Record → Record}
    (hf : ∀ x, (f x).cls = x.cls ∧ ((f x).share = x.share ∨ (f x).share = none)) :
    Keeps F (modifyRecord r f) :=
  fun w hw _ => IsPlain.books hw (w.books_editRecord hf)

end Plain

section Heapwise

variable [IsHeapwise R]

/-! ## Calls and finalizers -/

theorem plain_invokes (hserves : R.Serves n) : R.Invokes n := by
  intro w h s f code hw hs hbase hsize hdepth hopen hf hsane
  have hs1 := get_setHeap hs { s with frames := f :: s.frames }
  have hw1 := IsFramed.enter hw hs hbase hsize hdepth hopen hf
  have hrun : R.Good (w.setHeap h { s with frames := f :: s.frames })
      ((runBody (hostAt n) h code).after (w.setHeap h { s with frames := f :: s.frames })) := by
    cases code with
    | none => exact .refl hw1
    | some c =>
      exact hserves.run _ h c hw1 (IsHeapwise.sane hsane)
  obtain ⟨s2, hs2, hl⟩ := hrun.heap hs1
  obtain ⟨hlost, hleft⟩ := exec_invoke (hostAt n) hs f code hs2
  rcases hl.frames with hframes | hframes
  · obtain ⟨hgood, hdeep⟩ := IsFramed.leave hw hs hbase hrun hs2 hframes
    refine ⟨by rw [after_eq (hleft _ _ hframes)]; exact hgood, fun r w' he => ?_⟩
    rw [← after_eq he, after_catchFault, after_eq (hleft _ _ hframes)]
    exact hdeep
  · refine ⟨?_, fun r w' he => ?_⟩
    · rw [after_eq (hlost hframes)]
      exact ⟨hrun.1, IsFramed.lose hw hs hrun hs2 hframes⟩
    · rw [exec_catchFault, hlost hframes] at he
      exact absurd (congrArg Prod.fst he) (by simp [caught])

section Served

variable (hserves : R.Serves n)
include hserves

theorem plain_runFinalizer (h : HeapId) (p : HeapPtr) : Keeps F (Heap.runFinalizer (hostAt n) h p) := by
  refine (keeps_heap h).bind_of fun s w w' hw hF he _ => ?_
  obtain ⟨hs, rfl⟩ := exec_heap_eq_ok.mp he
  refine Good.bind_reads hw (reads_need _) fun o ho => ?_
  obtain ⟨ho, -⟩ := exec_need_eq_ok.mp ho
  refine Good.bind ((keeps_breach _).good hw) fun _ w0 he0 hg0 => ?_
  cases he0
  refine Good.bind (good_modifyHeap hg0.1 (s := s) hs (amends_offer ho)) fun _ w1 _ hg1 => ?_
  have hcall : Keeps (noFact (R := R)) (catchFault (call (hostAt n) h 1)) :=
    (keeps_call (plain_invokes hserves) h 1).catchFault
  refine Good.bind (hcall _ hg1.1 trivial) fun r w2 _ hg2 => ?_
  -- The stack is cut to the height it had, which is not below the current frame.
  have hcut : ∀ w3, R.Good w2 w3 → R.Good w3 ((modifyHeap h fun x =>
      let x := x.truncate s.stack.size
      { x with counters := { x.counters with finalizers := x.counters.finalizers + 1 } }).after w3) := by
    intro w3 hg3
    have hg := ((hg0.trans hg1).trans hg2).trans hg3
    obtain ⟨s3, hs3, -⟩ := hg.heap hs
    rw [after_eq (exec_modifyHeap hs3 _)]
    exact IsFramed.endFinalizer hw hs hg hs3
  cases r with
  | ok _ => exact hcut w2 (.refl hg2.1)
  | error f =>
    refine Good.bind_reads hg2.1 (reads_heap h) fun s2' _ =>
      Good.bind_reads hg2.1 (reads_need _) fun fin _ => ?_
    exact Good.bind ((keeps_log _ _ _ _).good hg2.1) fun _ w3 _ hg3 => hcut w3 hg3

theorem plain_finalize (h : HeapId) (p : HeapPtr) : Keeps F (Heap.finalize (hostAt n) h p) := by
  exact Keeps.bind (fun w hw _ => .modifyHeap hw fun s hs => IsHeapwise.start p hw hs) fun _ =>
    plain_runFinalizer hserves h p

theorem plain_finalizeGarbage (h : HeapId) : Keeps F (Heap.finalizeGarbage (hostAt n) h) :=
  (keeps_heap h).bind fun _ => (Keeps.forM fun e _ => plain_finalize hserves h e.1).returns

theorem plain_finalizeAll (h : HeapId) : Keeps F (Heap.finalizeAll (hostAt n) h) := by
  refine (keeps_heap h).bind fun _ => (Keeps.forM fun e _ => ?_).returns
  exact (keeps_heap h).bind fun _ => (keeps_need _).bind fun o =>
    .ite (fun _ => keeps_pure _) fun _ => plain_finalize hserves h e.1

/-! ## Collections -/

omit hserves in
theorem exec_collect (host : Host) (hs : w.heaps[h]? = some s) (hopen : s.closed = false)
    (hidle : s.collecting = false) :
    (Heap.collect host h).exec w = (M.andFinally (do Heap.reclaim h (← Heap.finalizeGarbage host h))
        (M.modifyHeap h fun s => { s with collecting := false })).exec (w.beginCollection h s) := by
  have hs0 : ({ w with orderly := w.orderly && s.hasRoom } : World).heaps[h]? = some s := hs
  have hnote : (M.note fun _ => s.hasRoom).exec w = (.ok (), { w with orderly := w.orderly && s.hasRoom }) := rfl
  unfold Heap.collect
  rw [M.bind_ok (M.exec_heap hs), if_neg (by simp [hopen, hidle]), M.bind_ok hnote,
    M.bind_ok (M.exec_modifyHeap hs0 _)]
  rfl

omit hserves in
theorem exec_collect_idle (host : Host) (hs : w.heaps[h]? = some s) (hbusy : s.collecting = true ∨ s.closed = true) :
    (Heap.collect host h).exec w = (.ok {}, w) := by
  unfold collect
  rw [bind_ok (exec_heap hs), if_pos (by simpa using hbusy)]
  rfl

omit hserves in
theorem exec_close (host : Host) (hs : w.heaps[h]? = some s) (hopen : s.closed = false) : (Heap.close host h).exec w =
      (do Heap.shut h (← Heap.finalizeAll host h) : M Unit).exec (w.beginClosing h s) := by
  unfold close
  rw [bind_ok (exec_heap hs), if_neg (by simp [hopen]), bind_ok (exec_modifyHeap hs _)]
  rfl

omit hserves in
theorem heaps_beginClosing (hs : w.heaps[h]? = some s) : (w.beginClosing h s).heaps[h]? =
    some { s with stack := #[], frames := [], collecting := true } :=
  get_setHeap hs _

omit hserves in
theorem exec_reclaim (hs : w.heaps[h]? = some s) (finalized : Nat) : ∃ s' log, (Heap.reclaim h finalized).exec w =
        (.ok ⟨s'.table.size, s.garbage.length, finalized⟩, { w.setHeap h s' with log }) ∧
      s.Swept (s.garbage.map (·.1)) s' := by
  obtain ⟨s1, log, hsweep, hswept⟩ := exec_sweep hs
  have hs1 : ({ w.setHeap h s1 with log } : World).heaps[h]? = some s1 := get_setHeap hs s1
  let s' : Heap := { s1 with counters := { s1.counters with collections := s1.counters.collections + 1 } }
  have hs' : ({ w.setHeap h s' with log } : World).heaps[h]? = some s' := get_setHeap hs s'
  have hswept' : s.Swept (s.garbage.map (·.1)) s' :=
    ⟨hswept.objects, hswept.stack, hswept.frames, hswept.global, hswept.stash, hswept.limits,
      hswept.closed, hswept.collecting, hswept.slots, hswept.freed, hswept.allocated, hswept.keeps,
      hswept.size, hswept.gens, hswept.issued, hswept.retired, hswept.finalizers⟩
  unfold reclaim
  rw [bind_ok hsweep, bind_ok (exec_modifyHeap hs1 _), setHeap_logged, bind_ok (M.exec_heap hs')]
  simp only [M.log]
  split
  · exact ⟨s', _, rfl, hswept'⟩
  · exact ⟨s', log, rfl, hswept'⟩

omit hserves in
theorem after_collect (host : Host) {s2 : Heap} (hs : w.heaps[h]? = some s) (hopen : s.closed = false)
    (hidle : s.collecting = false)
    (hs2 : ((Heap.finalizeGarbage host h).after (w.beginCollection h s)).heaps[h]? = some s2) :
    ∃ s3 log, (Heap.collect host h).after w =
        { ((Heap.finalizeGarbage host h).after (w.beginCollection h s)).setHeap h
          { s3 with collecting := false } with log } ∧
      ((∃ e, ((Heap.finalizeGarbage host h).exec (w.beginCollection h s)).1 = .error e) ∧ s3 = s2 ∨
        (∃ k, ((Heap.finalizeGarbage host h).exec (w.beginCollection h s)).1 = .ok k) ∧
          s2.Swept (s2.garbage.map (·.1)) s3) := by
  have hcollect : (collect host h).after w = (modifyHeap h fun s =>
      { s with collecting := false }).after ((do
        reclaim h (← finalizeGarbage host h)).after (w.beginCollection h s)) :=
    (congrArg Prod.snd (exec_collect host hs hopen hidle)).trans (after_andFinally _ _ _)
  rw [hcollect]
  rcases he : (finalizeGarbage host h).exec (w.beginCollection h s) with ⟨e | k, w2⟩
  · rw [after_eq he] at hs2 ⊢
    rw [after_bind_error he, after_eq (exec_modifyHeap hs2 _)]
    exact ⟨s2, w2.log, rfl, .inl ⟨⟨e, rfl⟩, rfl⟩⟩
  · rw [after_eq he] at hs2 ⊢
    obtain ⟨s3, log, hreclaim, hswept⟩ := exec_reclaim hs2 k
    have hs3 : ({ w2.setHeap h s3 with log } : World).heaps[h]? = some s3 := get_setHeap hs2 s3
    refine ⟨s3, log, ?_, .inr ⟨⟨k, rfl⟩, hswept⟩⟩
    rw [after_bind_ok he, after_eq hreclaim, after_eq (exec_modifyHeap hs3 _), setHeap_logged]

/-- A collection keeps heaps sound: finalizers do as native code does, and what is freed is what no
root reaches. -/
theorem plain_collects : R.Collects n := by
  intro w h hw
  cases hs : w.heaps[h]? with
  | none =>
    unfold collect
    rw [after_bind_error (exec_heap_none hs)]
    exact .refl hw
  | some s =>
  by_cases hbusy : s.collecting = true ∨ s.closed = true
  · rw [after_eq (exec_collect_idle _ hs hbusy)]
    exact .refl hw
  have hidle : s.collecting = false ∧ s.closed = false := by simpa using hbusy
  have hw1 := IsFramed.beginCollection hw hs hidle.1
  have hfin := (plain_finalizeGarbage hserves h).good hw1
  obtain ⟨s2, hs2, hl2⟩ := hfin.heap (heaps_beginCollection hs)
  obtain ⟨s3, log, hafter, hcases⟩ := after_collect (hostAt n) hs hidle.2 hidle.1 hs2
  -- However the finalizers end, what follows frees objects of this heap and writes to the log.
  obtain ⟨ps, hswept, hsound, hps⟩ : ∃ ps, s2.Swept ps s3 ∧ (s2.Working → s3.Sound) ∧
      (s2.table.Addressable → ps.Nodup ∧ ∀ p ∈ ps, (s2.object? p).isSome = true) := by
    rcases hcases with ⟨-, rfl⟩ | ⟨-, hswept⟩
    · exact ⟨[], .nil s3, Working.toSound, fun _ => ⟨.nil, nofun⟩⟩
    · exact ⟨_, hswept, fun hwork => hswept.sound (unreached_garbage hwork.addressable) hwork.toSound,
        fun ha => ⟨garbage_nodup ha, fun p hp => ((unreached_garbage ha p).mp hp).1⟩⟩
  rw [hafter]
  have hg := IsFramed.endCollection hw hs hidle.1 hfin hs2 hswept hsound hps
  exact hg.trans (R.silent hg.1 (.of_state rfl rfl))

omit hserves in
theorem exec_shut (hs : w.heaps[h]? = some s) (finalized : Nat) :
    ∃ s' log, (Heap.shut h finalized).exec w = (.ok (), { w.setHeap h s' with log }) ∧
      s'.closed = true ∧ s'.limits = s.limits ∧
      (s'.frames = s.frames ∧ s.Accounts s.table.live.length s' ∧ s.retired <:+ s'.retired) ∧
      s'.table = {} ∧ s'.stack = #[] ∧ s'.collecting = false := by
  have hs1 := get_setHeap hs { s with collecting := false, stack := #[] }
  obtain ⟨s2, log, hfree, hswept⟩ := exec_freeAll hs1
  rw [setHeap_setHeap] at hfree
  have hs2 : ({ w.setHeap h s2 with log } : World).heaps[h]? = some s2 := get_setHeap hs s2
  let s' : Heap := { s2 with table := {}, global := .null, stash := .null, closed := true }
  have hs' : ({ w.setHeap h s' with log } : World).heaps[h]? = some s' := get_setHeap hs s'
  have hkept : s'.frames = s.frames ∧ s.Accounts s.table.live.length s' ∧ s.retired <:+ s'.retired :=
    ⟨hswept.frames, ⟨hswept.issued, hswept.allocated, hswept.freed.trans (by rw [List.length_map])⟩,
      ⟨_, hswept.retired.symm⟩⟩
  unfold shut
  rw [bind_ok (exec_modifyHeap hs _), bind_ok hfree,
    bind_ok (exec_modifyHeap hs2 _), setHeap_logged, bind_ok (M.exec_heap hs')]
  simp only [M.log]
  split
  · exact ⟨s', _, rfl, rfl, hswept.limits, hkept, rfl, hswept.stack, hswept.collecting⟩
  · exact ⟨s', log, rfl, rfl, hswept.limits, hkept, rfl, hswept.stack, hswept.collecting⟩

theorem plain_closes (hw : R.inv w) : R.Good w ((Heap.close (hostAt n) h).after w) := by
  refine Good.bind_reads hw (reads_heap h) fun s he => ?_
  obtain ⟨hs, -⟩ := exec_heap_eq_ok.mp he
  split
  · exact .refl hw
  have hg1 : R.Good w (w.beginClosing h s) := IsHeapwise.clear hw hs
  rw [after_bind_ok (exec_modifyHeap hs _)]
  refine hg1.trans (Good.bind ((plain_finalizeAll hserves h).good hg1.1) fun k w2 _ hg2 => ?_)
  obtain ⟨s2, hs2, hl2⟩ := hg2.heap (heaps_beginClosing hs)
  obtain ⟨s3, log, hshut, hclosed, hlimits, ⟨hframes, hissued, hretired⟩, htable, -⟩ := exec_shut hs2 k
  have hempty : s2.frames = [] := hl2.frames.elim id id
  have hg3 : R.Good w2 (w2.setHeap h s3) :=
    IsHeapwise.shut hg2.1 hs2 hempty hclosed hlimits (hframes.trans hempty) hissued hretired htable
  rw [after_eq hshut]
  exact hg3.trans (R.silent hg3.1 (.of_state rfl rfl))

theorem holds_newObject (hw : R.inv w) (he : (Heap.newObject (hostAt n) h {}).exec w = (.ok p, w')) :
    ∃ s, w'.heaps[h]? = some s ∧ (s.Working → s.Holds p) := by
  obtain ⟨w1, s, hm, hs, rfl, rfl⟩ := newObject_eq_ok he
  have hw1 : R.inv w1 := by
    rw [← after_eq hm]
    exact ((keeps_maybeCollect (plain_collects hserves) h).good hw).1
  exact ⟨s.withObject {}, get_setHeap hs _, holds_placed hw1 hs⟩

end Served

end Heapwise

end Regime

-- `nofun` alone would take whole heaps apart.
theorem World.sound_start (logging recording : Bool) : World.Sound { logging, recording } :=
  ⟨fun _ _ hs => absurd hs nofun, fun _ _ _ hx => absurd hx nofun⟩

end Tether
