import Tether.Program.Run
import Tether.Proofs.Amendments
import Tether.Proofs.Ownership

/-!
# Regimes

A regime is an invariant of worlds together with a relation between a world and the later ones, both
kept by every elementary change. Computations are then followed once, for all regimes:
-/

namespace Tether

open M Bridge Ownership

variable {w w' w1 w2 w3 : World} {x : Moment} {h : HeapId} {s : Heap} {y : M Unit} {f : Heap → Heap} {b : BridgeId}

/-- A change that no regime looks at: of the log, the trace, bytes, the scene, the current heap, and
names other than those of shares. Steps may have begun and ended meanwhile. -/
structure World.Silent (w w' : World) : Prop where
  state : w'.state = w.state
  past : ∀ m, w.history m → w'.history m
  recalled : ∀ m, w'.history m → w.history m ∨ m = .step w.state

def World.recalling (w : World) (m : Moment) : World :=
  if w.recording then { w with history := m.addTo w.history } else w

namespace World

theorem Silent.of_state (h : w'.state = w.state) (hh : w'.history = w.history) : w.Silent w' :=
  ⟨h, fun _ hm => hh ▸ hm, fun _ hm => .inl (hh ▸ hm)⟩

theorem Silent.refl (w : World) : w.Silent w := .of_state rfl rfl

theorem Silent.trans (h : w1.Silent w2) (h' : w2.Silent w3) : w1.Silent w3 := by
  refine ⟨h'.state.trans h.state, fun m hm => h'.past m (h.past m hm), fun m hm => ?_⟩
  rcases h'.recalled m hm with hm | rfl
  · exact h.recalled m hm
  · exact .inr (congrArg Moment.step h.state)

@[simp] theorem state_recalling (w : World) (m : Moment) : (w.recalling m).state = w.state := by
  unfold recalling
  split <;> rfl

theorem history_recalling {m : Moment} (h : (w.recalling m).history x) : w.history x ∨ x = m := by
  unfold recalling at h
  split at h
  · exact h
  · exact .inl h

theorem recalling_history (m : Moment) (h : w.history x) : (w.recalling m).history x := by
  unfold recalling
  split
  · exact .inl h
  · exact h

variable (w)

theorem silent_recalling : w.Silent (w.recalling (.step w.state)) :=
  ⟨state_recalling _ _, fun _ => recalling_history _, fun _ => history_recalling⟩

def ofState (x : State) : World :=
  { heaps := x.heaps, attached := x.attached, natives := x.natives, controls := x.controls
    shares := x.shares, records := x.records, bridges := x.bridges, classes := x.classes
    modules := x.modules, names := { shares := x.named }, orderly := x.orderly, forced := x.forced
    breaches := x.breaches }

@[simp] theorem heaps_state : w.state.heaps = w.heaps := rfl

theorem heap_state {w : World} {h : HeapId} {s : Heap} (hs : w.heaps[h]? = some s) : w.state.heaps[h]? = some s := hs

@[simp] theorem natives_state : w.state.natives = w.natives := rfl

variable {w}

theorem state_eq_iff : w'.state = w.state ↔ w'.heaps = w.heaps ∧ w'.attached = w.attached ∧ w'.natives = w.natives ∧
      w'.controls = w.controls ∧ w'.shares = w.shares ∧ w'.records = w.records ∧
      w'.bridges = w.bridges ∧ w'.classes = w.classes ∧ w'.modules = w.modules ∧
      w'.names.shares = w.names.shares ∧ w'.orderly = w.orderly ∧ w'.forced = w.forced ∧
      w'.breaches = w.breaches := by
  unfold state
  rw [State.mk.injEq]

end World

/-- An object as allocations make it: it refers to nothing, its properties have been put one after the other,
and nothing is hidden in it. -/
structure Object.Blank (o : Object) : Prop where
  references : o.references = []
  props : Properties.Becomes {} o.props
  hidden : o.hidden = {}
  finalizer : o.finalizer = none
  finalized : o.finalized = false

theorem Object.Blank.of_body (body : Body) : ({ body } : Object).Blank := ⟨rfl, .refl _, rfl, rfl, rfl⟩

theorem Object.Blank.named (body : Body) (name : String) :
    ({ body, props := ({} : Properties Value).put "name" (.string name) } : Object).Blank :=
  ⟨rfl, ⟨[("name", some (.string name))], rfl⟩, rfl, rfl, rfl⟩

/-- The steps that make a bridge, register gadgets with it and make a gadget. -/
def makesGadget : List (Action Program) :=
  [.bridge (.make false false), .classes (.declare "G" (.object .gadget) "Gadget" .absent),
    .classes (.register (some "G")), .objects (.make "x" .gadget 1 "" none)]

def classKey (name : String) (n : Nat) : String := s!"heapbridge.class.{name}#{n}"

/-- The bound functions of a class: its methods, and its constructor if it has one. -/
def ClassDecl.callables (d : ClassDecl) : List Callable := d.methods ++ d.constructor.toList

/-- A bound function that is neither a method nor a constructor. -/
def Callable.Free (f : Callable) : Prop := f.receiver = none ∧ f.makes = none

/-- A bound function as declarations check it for a class with a native type: a method takes objects of
the type first, a constructor gives them. -/
inductive Callable.Suits (f : Callable) (c : ClassId) (type : NativeType) : Prop
  | method {first : NativeType} {inputs outputs : List NativeType} {variadic : Bool} :
      f.receiver = some c → f.makes = none → f.fn.types? = some (first :: inputs, outputs, variadic) →
      type.assignableTo first = true → Suits f c type
  | constructor {output : NativeType} {inputs outputs : List NativeType} {variadic : Bool} :
      f.receiver = none → f.makes = some c → f.fn.types? = some (inputs, output :: outputs, variadic) →
      output.assignableTo type = true → Suits f c type

/-- A value conforms to a native type: if it is an object, its sort may stand for the type. -/
def World.Conforms (w : World) (type : NativeType) (v : NativeValue) : Prop :=
  ∀ o, v = .object o → ∃ n, w.natives[o]? = some n ∧ (NativeType.object n.sort).assignableTo type = true

/-- An object may be wrapped as an instance of a class, unless a handle has crossed under a class that
does not take its object. -/
def World.Admits (w : World) (c : ClassId) (o : NativeId) : Prop := w.breaches.types = true ∨ w.takes c o = true

namespace World

variable {w w' : World} {c : ClassId} {o : NativeId}

theorem takes_eq_true : w.takes c o = true ↔ ∃ d n, w.classes[c]? = some d ∧
    w.natives[o]? = some n ∧ (NativeType.object n.sort).assignableTo d.type = true := by
  unfold takes
  simp only [Option.any_eq_true_iff_get, Option.isSome_iff_exists]
  constructor
  · rintro ⟨⟨d, hd⟩, ⟨n, hn⟩, h⟩
    exact ⟨d, n, hd, hn, by simpa [hd, hn] using h⟩
  · rintro ⟨d, n, hd, hn, h⟩
    exact ⟨⟨d, hd⟩, ⟨n, hn⟩, by simpa [hd, hn] using h⟩

theorem Later.conforms (hl : w.Later w') {type : NativeType} {v : NativeValue}
    (h : w.Conforms type v) : w'.Conforms type v := by
  intro o ho
  obtain ⟨n, hn, hsort⟩ := h o ho
  obtain ⟨n', hn', he⟩ := hl.natives o n hn
  exact ⟨n', hn', by rw [he]; exact hsort⟩

theorem Proceeds.admits (hl : w.Proceeds w') (h : w.Admits c o) : w'.Admits c o := by
  refine h.imp hl.breaches.types fun h => ?_
  obtain ⟨d, n, hd, hn, h⟩ := takes_eq_true.mp h
  obtain ⟨d', hd', he⟩ := hl.classes c d hd
  obtain ⟨n', hn', hsort⟩ := hl.natives o n hn
  exact takes_eq_true.mpr ⟨d', n', hd', hn', by rw [hsort, (Prod.mk.inj he).2]; exact h⟩

end World

def BridgeStats.tally (x : BridgeStats) : Nat × Nat × Nat × Int := (x.wrapped, x.finalized, x.severed, x.live)

/-- What a bridge knows of classes: by native type, by resource, and how many. -/
def Bridge.registry (br : Bridge) : List (NativeType × ClassId) × List (Nat × ClassId) × Nat :=
  (br.classes, br.resources, br.stats.classes)

section

variable (usable : BridgeId → World → Prop) (loose : ShareId → World → Prop) (w : World)

/-- The changes beside heaps, records and shares that operations make. -/
inductive World.Alters : World → Prop
  | note {orderly : Bool} {breaches : Breaches} : (orderly = true → w.orderly = true) →
      w.breaches.Leads breaches → Alters { w with orderly, breaches }
  | tamper {o : NativeId} {t : Token} : w.orderly = false → w.breaches.keys = true →
      (t = {} ∨ ∃ (a : NativeId) (m : NativeObject), w.natives[a]? = some m ∧ m.token = t) →
      Alters { w with natives := w.natives.modify o ({ · with token := t }) }
  | newNative {n : NativeObject} : n.token = {} → (w.orderly = true → n.onDestroy.all Program.inert = true) →
      Alters { w with natives := w.natives.push n }
  | editNative {o : NativeId} {f : NativeObject → NativeObject} :
      (∀ n, (f n).token = n.token ∧ (f n).onDestroy = n.onDestroy ∧ (f n).sort = n.sort) →
      Alters { w with natives := w.natives.modify o f }
  | newClass {d : ClassDecl} : (∃ name, d.key = classKey name (w.classes.size + 1)) → d.callables = [] →
      Alters { w with classes := w.classes.push d }
  | editClass {c : ClassId} {f : ClassDecl → ClassDecl} :
      (∀ d, ((f d).key = d.key ∧ (f d).type = d.type) ∧ (f d).resource = d.resource) →
      (∀ d m, w.classes[c]? = some d → m ∈ (f d).callables → m ∈ d.callables ∨ m.Suits c d.type) →
      Alters { w with classes := w.classes.modify c f }
  | declare {modules : Array ModuleDecl} : (∀ (i : Nat) (d : ModuleDecl) (f : Callable), modules[i]? = some d →
      f ∈ d.functions → f.Free ∨ ∃ (j : Nat) (d' : ModuleDecl), w.modules[j]? = some d' ∧ f ∈ d'.functions) →
      Alters { w with modules }
  | editBridge {b : BridgeId} {f : Bridge → Bridge} :
      (∀ x, (f x).heapId = x.heapId ∧ (f x).registry = x.registry ∧ (f x).stats.tally = x.stats.tally) →
      Alters { w with bridges := w.bridges.modify b f }
  | enroll {b : BridgeId} {br : Bridge} {c : ClassId} {d : ClassDecl} : w.classes[c]? = some d →
      w.bridges[b]? = some br → br.classes.lookup d.type = none →
      Alters { w with bridges := w.bridges.modify b (·.enroll c d) }
  | attach {h : HeapId} {b : BridgeId} : usable b w → Alters { w with attached := (h, b) :: w.attached }
  | nameShare {name : String} {s : ShareId} : loose s w →
      Alters { w with names := { w.names with shares := (name, s) :: w.names.shares } }

end

/-- An invariant of worlds and a relation to later worlds that elementary changes keep. -/
structure Regime where
  inv : World → Prop
  rel : World → World → Prop
  /-- A bridge that wrappers can be made with. -/
  usable : BridgeId → World → Prop := fun _ _ => True
  /-- A share that no record holds or will hold. -/
  loose : ShareId → World → Prop := fun _ _ => True
  /-- A heap whose stack reaches a height. -/
  deep : HeapId → Nat → World → Prop
  /-- A bound function that can be called. -/
  proper : Callable → World → Prop := fun _ _ => True
  /-- An object that can be wrapped as an instance of a class. -/
  fits : ClassId → NativeId → World → Prop := fun _ _ _ => True
  /-- A heap whose wrappers the finalizer of a bridge finalizes. -/
  tends : HeapId → BridgeId → World → Prop := fun _ _ _ => True
  sound {w : World} : inv w → w.Sound
  later {w w' : World} : rel w w' → w.Later w'
  refl (w : World) : rel w w
  trans {w1 w2 w3 : World} : rel w1 w2 → rel w2 w3 → rel w1 w3
  usable_stable {w w' : World} {b : BridgeId} : rel w w' → usable b w → usable b w' :=
    by intros; trivial
  loose_stable {w w' : World} {s : ShareId} : rel w w' → loose s w → loose s w' := by intros; trivial
  proper_stable {w w' : World} {f : Callable} : rel w w' → proper f w → proper f w' :=
    by intros; trivial
  fits_stable {w w' : World} {c : ClassId} {o : NativeId} : rel w w' → fits c o w → fits c o w' :=
    by intros; trivial
  tends_stable {w w' : World} {h : HeapId} {b : BridgeId} : rel w w' → tends h b w → tends h b w' :=
    by intros; trivial
  usable_attached {w : World} {h : HeapId} {b : BridgeId} : inv w → (h, b) ∈ w.attached → usable b w :=
    by intros; trivial
  usable_bound {w : World} {h : HeapId} {s : Heap} {p : HeapPtr} {o : Object} {name : String}
    {arity : Int} {b : BridgeId} {c : Callable} : inv w → w.heaps[h]? = some s → s.closed = false →
    s.object? p = some o → o.body = .function name arity (some (.bound b c)) →
    usable b w ∧ proper c w := by intros; trivial
  tends_code {w : World} {h : HeapId} {s : Heap} {p : HeapPtr} {o : Object} {name : String}
    {arity : Int} {b : BridgeId} : inv w → w.heaps[h]? = some s → s.closed = false →
    s.object? p = some o → o.body = .function name arity (some (.finalizer b)) → tends h b w :=
    by intros; trivial
  proper_class {w : World} {c : ClassId} {d : ClassDecl} {f : Callable} : inv w →
    w.classes[c]? = some d → f ∈ d.callables → proper f w := by intros; trivial
  proper_module {w : World} {m : Nat} {d : ModuleDecl} {f : Callable} : inv w →
    w.modules[m]? = some d → f ∈ d.functions → proper f w := by intros; trivial
  fits_admits {w : World} {c : ClassId} {o : NativeId} : w.Admits c o → fits c o w := by intros; trivial
  fits_enrolled {w : World} {b : BridgeId} {br : Bridge} {c : ClassId} {o : NativeId}
    {n : NativeObject} : inv w → w.bridges[b]? = some br → w.natives[o]? = some n →
    br.classes.lookup (.object n.sort) = some c → fits c o w := by intros; trivial
  fits_made {w : World} {f : Callable} {c : ClassId} {o : NativeId} : proper f w →
    f.makes = some c → (∀ inputs output outputs variadic,
      f.fn.types? = some (inputs, output :: outputs, variadic) → w.Conforms output (.object o)) →
    fits c o w := by intros; trivial
  fits_held {w : World} {r : RecordId} {x : Record} {i : ShareId} {s : Share} : inv w →
    w.records[r]? = some x → x.share = some i → w.shares[i]? = some s → fits x.cls s.object w :=
    by intros; trivial
  loose_named {w : World} {name : String} {s : ShareId} : inv w → (name, s) ∈ w.names.shares →
    loose s w := by intros; trivial
  silent {w w' : World} : inv w → w.Silent w' → inv w' ∧ rel w w'
  underflow {w : World} {h : HeapId} {s : Heap} {height : Nat} : inv w → w.heaps[h]? = some s →
    deep h height w → s.stack.size < height →
    inv (w.recalling (.underflow h)) ∧ rel w (w.recalling (.underflow h)) :=
    by exact fun _ hs hdeep hlt => absurd (hdeep _ hs) (Nat.not_le.mpr hlt)
  misfit {w : World} {f : Callable} {c : ClassId} {o : NativeId} {first : NativeType}
    {inputs outputs : List NativeType} {variadic : Bool} : inv w → proper f w → f.receiver = some c →
    fits c o w → f.fn.types? = some (first :: inputs, outputs, variadic) →
    ¬ w.Conforms first (.object o) →
    inv (w.recalling (.misfit w.state)) ∧ rel w (w.recalling (.misfit w.state))
  alter {w w' : World} : inv w → w.Alters usable loose w' → inv w' ∧ rel w w'
  amend {w : World} {h : HeapId} {s s' : Heap} : inv w → w.heaps[h]? = some s → s.Amends w s' →
    inv (w.setHeap h s') ∧ rel w (w.setHeap h s')
  alloc {w : World} {h : HeapId} {s : Heap} {o : Object} : inv w → w.heaps[h]? = some s → o.Blank →
    (∀ name arity b c, o.body = .function name arity (some (.bound b c)) → usable b w ∧ proper c w) →
    (∀ name arity b, o.body = .function name arity (some (.finalizer b)) → tends h b w) →
    inv (w.setHeap h (s.withObject o)) ∧ rel w (w.setHeap h (s.withObject o))
  issue {w w' : World} : inv w → w.Issues w' → (inv w' ∧ rel w w') ∧ loose w.shares.size w'

namespace Regime

variable {R : Regime} {α β : Type}

def Good (R : Regime) (w w' : World) : Prop := R.inv w' ∧ R.rel w w'

theorem Good.refl (hw : R.inv w) : R.Good w w := ⟨hw, R.refl w⟩

theorem Good.trans (h : R.Good w1 w2) (h' : R.Good w2 w3) : R.Good w1 w3 := ⟨h'.1, R.trans h.2 h'.2⟩

theorem Good.bind {x : M α} {f : α → M β} (hx : R.Good w (x.after w))
    (hf : ∀ a w', x.exec w = (.ok a, w') → R.Good w w' → R.Good w' ((f a).after w')) :
    R.Good w ((x >>= f).after w) := by
  rcases he : x.exec w with ⟨e | a, w'⟩
  · rw [after_bind_error he, ← after_eq he]
    exact hx
  · rw [after_eq he] at hx
    rw [after_bind_ok he]
    exact hx.trans (hf a w' he hx)

theorem Good.bind_reads {x : M α} {f : α → M β} (hw : R.inv w) (hx : M.Reads x)
    (hf : ∀ a, x.exec w = (.ok a, w) → R.Good w ((f a).after w)) : R.Good w ((x >>= f).after w) := by
  refine Good.bind (by rw [hx w]; exact .refl hw) fun a w' he _ => ?_
  obtain rfl := hx.exec he
  exact hf a he

theorem Good.returns {x : M α} {f : α → β} (hx : R.Good w (x.after w)) :
    R.Good w ((x >>= fun a => pure (f a)).after w) := hx.bind fun _ _ _ hg => .refl hg.1

theorem Good.heap (hg : R.Good w w') (hs : w.heaps[h]? = some s) : ∃ s', w'.heaps[h]? = some s' ∧ s.Later s' :=
  (R.later hg.2).heaps h s hs

/-- A fact that lasts. -/
structure Fact (R : Regime) where
  holds : World → Prop
  stable : ∀ {w w'}, R.rel w w' → holds w → holds w'

def noFact : R.Fact := ⟨fun _ => True, fun _ _ => trivial⟩

def Usable (b : BridgeId) : R.Fact := ⟨R.usable b, R.usable_stable⟩

def Proper (f : Callable) : R.Fact := ⟨R.proper f, R.proper_stable⟩

def Fits (c : ClassId) (o : NativeId) : R.Fact := ⟨R.fits c o, R.fits_stable⟩

/-- That the finalizer of a bridge finalizes the wrappers of a heap. -/
def Tends (h : HeapId) (b : BridgeId) : R.Fact := ⟨R.tends h b, R.tends_stable⟩

def Loose (s : ShareId) : R.Fact := ⟨R.loose s, R.loose_stable⟩

def Disorderly : R.Fact :=
  ⟨fun w => w.orderly = false, fun {_ w'} hr h => by
    cases ho : w'.orderly with
    | false => rfl
    | true => exact absurd ((R.later hr).orderly ho) (by simp [h])⟩

def Fact.and (F G : R.Fact) : R.Fact :=
  ⟨fun w => F.holds w ∧ G.holds w, fun hr h => ⟨F.stable hr h.1, G.stable hr h.2⟩⟩

def Fact.Gives (F G : R.Fact) : Prop := ∀ w, F.holds w → G.holds w

theorem Fact.Gives.rfl {F : R.Fact} : F.Gives F := fun _ h => h

theorem Fact.and_left {F G : R.Fact} : (F.and G).Gives F := fun _ h => h.1

theorem Fact.and_right {F G : R.Fact} : (F.and G).Gives G := fun _ h => h.2

def Bound (b : BridgeId) (c : Callable) : R.Fact := (Usable b).and (Proper c)

/-- A computation keeps the regime, however it ends, if a fact holds at its start. -/
def Keeps (F : R.Fact) (x : M α) : Prop := ∀ w, R.inv w → F.holds w → R.Good w (x.after w)

variable {F G : R.Fact}

theorem Keeps.exec {x : M α} {r : Except Stop α} (hx : Keeps F x) (hw : R.inv w) (hF : F.holds w)
    (he : x.exec w = (r, w')) : R.Good w w' := by
  rw [← after_eq he]
  exact hx w hw hF

theorem Keeps.good {x : M α} (hx : Keeps (R := R) noFact x) (hw : R.inv w) : R.Good w (x.after w) := hx w hw trivial

/-! ## Following computations -/

theorem keeps_of_reads {x : M α} (hx : M.Reads x) : Keeps F x := by
  intro w hw _
  rw [hx w]
  exact .refl hw

theorem Keeps.bind_of {x : M α} {f : α → M β} (hx : Keeps F x)
    (hf : ∀ a w w', R.inv w → F.holds w → x.exec w = (.ok a, w') → R.Good w w' →
      R.Good w' ((f a).after w')) : Keeps F (x >>= f) := by
  intro w hw hF
  exact (hx w hw hF).bind fun a w' he hg => hf a w w' hw hF he hg

theorem Keeps.bind {x : M α} {f : α → M β} (hx : Keeps F x) (hf : ∀ a, Keeps F (f a)) : Keeps F (x >>= f) :=
  hx.bind_of fun a _ w' _ hF _ hg => hf a w' hg.1 (F.stable hg.2 hF)

theorem Keeps.read {x : M α} {f : α → M β} (hx : Reads x) (hf : ∀ a, Keeps F (f a)) : Keeps F (x >>= f) :=
  (keeps_of_reads hx).bind hf

theorem Keeps.bind_fact {x : M α} {f : α → M β} {G : α → R.Fact} (hx : Keeps F x)
    (hG : ∀ a w w', R.inv w → F.holds w → x.exec w = (.ok a, w') → R.Good w w' → (G a).holds w')
    (hf : ∀ a, Keeps (G a) (f a)) : Keeps F (x >>= f) :=
  hx.bind_of fun a w w' hw hF he hg => hf a w' hg.1 (hG a w w' hw hF he hg)

theorem keeps_pure (a : α) : Keeps F (pure a : M α) := keeps_of_reads (reads_pure a)

theorem Keeps.returns {x : M α} {f : α → β} (hx : Keeps F x) : Keeps F (x >>= fun a => pure (f a)) :=
  hx.bind fun a => keeps_pure (f a)

theorem keeps_throw (e : Stop) : Keeps F (throw e : M α) := keeps_of_reads (reads_throw e)

theorem keeps_fail (f : Fault) : Keeps F (fail f : M α) := keeps_throw _

theorem keeps_crash (c : Crash) : Keeps F (crash c : M α) := keeps_throw _

theorem keeps_need (x : Option α) : Keeps F (need x) := keeps_of_reads (reads_need x)

theorem keeps_get : Keeps F (get : M World) := keeps_of_reads reads_get

theorem keeps_heap (h : HeapId) : Keeps F (heap h) := keeps_of_reads (reads_heap h)

theorem keeps_readHeap (h : HeapId) (f : Heap → Except Stop α) : Keeps F (readHeap h f) :=
  keeps_of_reads (reads_readHeap h f)

theorem Keeps.catchFault {x : M α} (hx : Keeps F x) : Keeps F (catchFault x) := by
  intro w hw hF
  rw [after_catchFault]
  exact hx w hw hF

theorem Keeps.catchAll {x : M α} (hx : Keeps F x) : Keeps F (catchAll x) := hx

theorem Keeps.andFinally {x : M α} (hx : Keeps F x) (hy : Keeps F y) : Keeps F (andFinally x y) := by
  intro w hw hF
  rw [after_andFinally]
  have h := hx w hw hF
  exact h.trans (hy _ h.1 (F.stable h.2 hF))

theorem Keeps.onFault {x : M α} (hx : Keeps F x) (hy : Keeps F y) : Keeps F (onFault x y) := by
  refine hx.catchFault.bind fun r => ?_
  cases r with
  | ok a => exact keeps_pure a
  | error f => exact hy.bind fun _ => keeps_fail f

theorem Keeps.ignoreFault {x : M α} (hx : Keeps F x) : Keeps F (ignoreFault x) := hx.catchFault.returns

theorem keeps_ofExcept (x : Except Fault α) : Keeps F (ofExcept x) := keeps_of_reads (reads_ofExcept x)

theorem Keeps.forM {l : List α} {f : α → M PUnit} (hf : ∀ a ∈ l, Keeps F (f a)) : Keeps F (l.forM f) := by
  induction l with
  | nil => exact keeps_pure _
  | cons a rest ih =>
    exact (hf a List.mem_cons_self).bind fun _ => ih fun b hb => hf b (List.mem_cons_of_mem _ hb)

theorem Keeps.mapM {l : List α} {f : α → M β} (hf : ∀ a, Keeps F (f a)) : Keeps F (l.mapM f) := by
  induction l with
  | nil => exact keeps_pure _
  | cons a rest ih =>
    rw [List.mapM_cons]
    exact (hf a).bind fun b => ih.returns

theorem Keeps.foldlM {l : List α} {f : β → α → M β} (hf : ∀ b a, Keeps F (f b a)) (b : β) :
    Keeps F (l.foldlM f b) := by
  induction l generalizing b with
  | nil => exact keeps_pure _
  | cons a rest ih =>
    rw [List.foldlM_cons]
    exact (hf b a).bind fun b' => ih b'

theorem Keeps.ite {c : Prop} [Decidable c] {x y : M α} (hx : c → Keeps F x) (hy : ¬ c → Keeps F y) :
    Keeps F (if c then x else y) := by
  split
  · exact hx ‹_›
  · exact hy ‹_›

/-! ## Elementary computations -/

theorem keeps_modify {f : World → World} (hf : ∀ w : World, w.Silent (f w)) : Keeps F (modify f : M Unit) :=
  fun w hw _ => R.silent hw (hf w)

theorem keeps_log (enabled : Bool) (level : LogLevel) (message : String)
    (fields : List (String × LogValue)) : Keeps F (log enabled level message fields) := by
  unfold log
  exact .ite (fun _ => keeps_modify fun _ => .of_state rfl rfl) fun _ => keeps_pure _

theorem keeps_recallStep : Keeps F (remember fun w => .step w.state) := fun w hw _ => R.silent hw w.silent_recalling

theorem keeps_trace (e : Event) : Keeps F (trace e) := fun _ hw _ => R.silent hw (.of_state rfl rfl)

theorem keeps_amend (i : Nat) (f : Event → Event) : Keeps F (M.amend i f) := keeps_modify fun _ => .of_state rfl rfl

theorem keeps_note (kept : World → Bool) : Keeps F (M.note kept) := by
  intro w hw _
  exact R.alter hw (.note (fun ho => (Bool.and_eq_true_iff.mp ho).1) (.refl _))

theorem keeps_breach (f : World → Breaches) : Keeps F (breach f) := by
  intro w hw _
  exact R.alter hw (.note id (w.breaches.leads_merge (f w)))

theorem good_modifyHeap (hw : R.inv w) (hs : w.heaps[h]? = some s) (ha : s.Amends w (f s)) :
    R.Good w ((modifyHeap h f).after w) := by
  rw [after_eq (exec_modifyHeap hs f)]
  exact R.amend hw hs ha

theorem Good.modifyHeap (hw : R.inv w) (hf : ∀ s, w.heaps[h]? = some s → R.Good w (w.setHeap h (f s))) :
    R.Good w ((modifyHeap h f).after w) := by
  cases hs : w.heaps[h]? with
  | none =>
    rw [after_modifyHeap_none hs]
    exact .refl hw
  | some s =>
    rw [after_eq (exec_modifyHeap hs f)]
    exact hf s hs

theorem keeps_modifyHeap (hf : ∀ w s, R.inv w → F.holds w → w.heaps[h]? = some s → s.Amends w (f s)) :
    Keeps F (modifyHeap h f) :=
  fun w hw hF => .modifyHeap hw fun s hs => R.amend hw hs (hf w s hw hF hs)

theorem Good.onHeap {f : Heap → Except Stop (α × Heap)} (hw : R.inv w)
    (hf : ∀ s a s', w.heaps[h]? = some s → f s = .ok (a, s') → R.Good w (w.setHeap h s')) :
    R.Good w ((onHeap h f).after w) := by
  rcases after_onHeap_cases h f w with he | ⟨s, a, s', hs, hfs, he⟩
  · rw [he]
    exact .refl hw
  · rw [he]
    exact hf s a s' hs hfs

theorem good_onHeap {f : Heap → Except Stop (α × Heap)} (hw : R.inv w)
    (hf : ∀ s a s', w.heaps[h]? = some s → f s = .ok (a, s') → s.Amends w s') :
    R.Good w ((onHeap h f).after w) :=
  .onHeap hw fun s a s' hs he => R.amend hw hs (hf s a s' hs he)

theorem good_changeHeap {f : Heap → Except Stop Heap} (hw : R.inv w)
    (hf : ∀ s s', w.heaps[h]? = some s → f s = .ok s' → s.Amends w s') :
    R.Good w ((changeHeap h f).after w) :=
  good_onHeap hw fun s _ s' hs he => hf s s' hs (map_unit_eq_ok.mp he)

theorem keeps_onHeap {f : Heap → Except Stop (α × Heap)}
    (hf : ∀ {w : World} {s a s'}, f s = .ok (a, s') → s.Amends w s') : Keeps F (onHeap h f) :=
  fun _ hw _ => good_onHeap hw fun _ _ _ _ he => hf he

theorem keeps_changeHeap {f : Heap → Except Stop Heap}
    (hf : ∀ {w : World} {s s' : Heap}, f s = .ok s' → s.Amends w s') : Keeps F (changeHeap h f) :=
  fun _ hw _ => good_changeHeap hw fun _ _ _ he => hf he

theorem keeps_push {v : Value} (hv : v.object? = none) : Keeps F (modifyHeap h (·.push v)) :=
  keeps_modifyHeap fun _ _ _ _ _ => Heap.amends_pushPlain hv

theorem keeps_popN (h : HeapId) (n : Int) : Keeps F (changeHeap h (·.popN n)) := keeps_changeHeap Heap.amends_popN

theorem keeps_putProp (h : HeapId) (i : Int) (k : String) : Keeps F (changeHeap h (·.putProp i k)) :=
  keeps_changeHeap Heap.amends_putProp

theorem keeps_modifyNative {o : NativeId} {f : NativeObject → NativeObject}
    (hf : ∀ n, (f n).token = n.token ∧ (f n).onDestroy = n.onDestroy ∧ (f n).sort = n.sort) :
    Keeps F (modifyNative o f) :=
  fun _ hw _ => R.alter hw (.editNative hf)

theorem keeps_modifyBridge {f : Bridge → Bridge}
    (hf : ∀ x, (f x).heapId = x.heapId ∧ (f x).registry = x.registry ∧ (f x).stats.tally = x.stats.tally) :
    Keeps F (modifyBridge b f) :=
  fun _ hw _ => R.alter hw (.editBridge hf)

/-- A change of counters of bridges. -/
def Recounts (f : Bridge → Bridge) : Prop := ∀ x, (f x).heapId = x.heapId ∧ (f x).registry = x.registry

/-- A regime that does not look at the counters of bridges. -/
class Uncounted (R : Regime) : Prop where
  recount {w : World} {b : BridgeId} {f : Bridge → Bridge} : R.inv w → Recounts f →
    R.Good w { w with bridges := w.bridges.modify b f }

theorem keeps_recount [Uncounted R] {f : Bridge → Bridge} (hf : Recounts f) : Keeps F (modifyBridge b f) :=
  fun _ hw _ => Uncounted.recount hw hf

theorem good_issue {x : M ShareId} (hw : R.inv w) (hx : x.after w = w ∨ ∃ s w', x.exec w = (.ok s, w'))
    (hok : ∀ {s w'}, x.exec w = (.ok s, w') → s = w.shares.size ∧ w.Issues w') :
    R.Good w (x.after w) ∧ ∀ s w', x.exec w = (.ok s, w') → R.loose s w' := by
  refine ⟨?_, fun s w' he => ?_⟩
  · rcases hx with he | ⟨s, w', he⟩
    · exact he.symm ▸ .refl hw
    · rw [after_eq he]
      exact (R.issue hw (hok he).2).1
  · obtain ⟨rfl, hi⟩ := hok he
    exact (R.issue hw hi).2

theorem good_take (o : NativeId) (hw : R.inv w) : R.Good w ((take o).after w) ∧
    ∀ s w', (take o).exec w = (.ok s, w') → R.loose s w' :=
  good_issue hw (exec_take_cases o w) issues_take

theorem good_clone (s : ShareId) (hw : R.inv w) : R.Good w ((clone s).after w) ∧
    ∀ s' w', (clone s).exec w = (.ok s', w') → R.loose s' w' :=
  good_issue hw (exec_clone_cases s w) issues_clone

theorem keeps_take (o : NativeId) : Keeps F (Ownership.take o) := fun _ hw _ => (good_take o hw).1

/-! ## Native code -/

variable (R)

/-- What code asks for before it runs on a heap: a bound function asks for its bridge, the finalizer of
a bridge for the heap. -/
def sane (h : HeapId) (w : World) : Option Code → Prop
  | some (.bound b c) => R.usable b w ∧ R.proper c w
  | some (.finalizer b) => R.tends h b w
  | _ => True

/-- Native code run to a nesting keeps the regime. The first result of a native function conforms to its
type if the arguments did. -/
structure Serves (R : Regime) (n : Nat) : Prop where
  run : ∀ w h code, R.inv w → R.sane h w (some code) → R.Good w (((hostAt n).run h code).after w)
  destroy : ∀ w o, R.inv w → R.Good w (((hostAt n).destroy o).after w)
  apply : ∀ w fn args, R.inv w → R.Good w (((hostAt n).apply fn args).after w)
  conforms : ∀ w w' fn args out inputs output outputs variadic, R.inv w →
    fn.types? = some (inputs, output :: outputs, variadic) →
    (∀ type v, (type, v) ∈ inputs.zip args → w.Conforms type v) →
    ((hostAt n).apply fn args).exec w = (.ok out, w') → w'.Conforms output (out.headD .nil)

/-- Running code in a frame keeps the regime. Unless it crashes, the stack still reaches the frame. -/
def Invokes (n : Nat) : Prop :=
  ∀ (w : World) (h : HeapId) s f code, R.inv w → w.heaps[h]? = some s → s.bottom ≤ f.base → f.base ≤ s.stack.size →
    (s.frames.length : Int) < s.limits.depth → s.closed = false →
    (s.Working → s.Holds f.fn ∧ s.HoldsValue f.this) → R.sane h w code →
    R.Good w ((Heap.invoke (hostAt n) h f code).after w) ∧
      ∀ r w', (catchFault (Heap.invoke (hostAt n) h f code)).exec w = (.ok r, w') → R.deep h f.base w'

def Collects (n : Nat) : Prop :=
  ∀ (w : World) h, R.inv w → R.Good w ((Heap.collect (hostAt n) h).after w)

variable {R}

/-- The operations that have to be looked at as a whole keep the regime. -/
structure Upholds (R : Regime) (n : Nat) : Prop where
  serves : R.Serves n
  invokes : R.Invokes n
  collects : R.Collects n
  closes : ∀ (w : World) (h : HeapId), R.inv w → w.orderly = false → R.Good w ((Heap.close (hostAt n) h).after w)
  makes : ∀ (w : World) (l : Limits) (storage : Storage) (owns : Bool), R.inv w →
    R.Good w ((Heap.make (hostAt n) l storage owns).after w)
  releases : ∀ (w : World) (s : ShareId), R.inv w → R.loose s w → R.Good w ((release (hostAt n) s).after w)
  disposes : ∀ (w : World) (o : NativeId), R.inv w → R.Good w ((dispose (hostAt n) o).after w)
  prototypes : ∀ (w : World) b c, R.inv w → R.usable b w → R.Good w ((pushPrototype (hostAt n) b c).after w)
  wraps : ∀ w b o c, R.inv w → R.usable b w → R.fits c o w → R.Good w ((wrap (hostAt n) b o c).after w)
  finalizes : ∀ w b h, R.inv w → R.tends h b w → R.Good w ((finalize (hostAt n) b h).after w)
  attaches : ∀ w h strict, R.inv w → R.Good w ((Bridge.attach (hostAt n) h strict).after w) ∧
      ∀ b w', (Bridge.attach (hostAt n) h strict).exec w = (.ok b, w') → R.usable b w'

end Regime

end Tether
