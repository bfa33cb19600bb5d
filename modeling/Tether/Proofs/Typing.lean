import Tether.Proofs.Chronicle

/-!
# The classes of native objects

A record names the class that its object was wrapped as. That class comes from the sort of the object,
from the constructor that made it, or from the handle that it crossed as, and only the last may be wrong.
-/

namespace Tether

open Regime M Ownership World

variable {f : Callable} {w0 w w' : World} {o : NativeId} {c : ClassId}

namespace World

variable {w w' : World} {h : HeapId} {s s' : Heap}

/-- A bound function is free, or suits the class that it is of. -/
def Fitted (w : World) (f : Callable) : Prop :=
  f.Free ∨ ∃ c d, w.classes[c]? = some d ∧ f.Suits c d.type

/-- Classes take what is recorded and bound under them. -/
structure Typing (w : World) : Prop where
  records : ∀ (r : RecordId) x (i : ShareId), w.records[r]? = some x → x.share = some i →
    ∃ sh, w.shares[i]? = some sh ∧ w.Admits x.cls sh.object
  tables : ∀ (b : BridgeId) br type (c : ClassId), w.bridges[b]? = some br →
    (type, c) ∈ br.classes → ∃ d, w.classes[c]? = some d ∧ d.type = type
  classes : ∀ (c : ClassId) d f, w.classes[c]? = some d → f ∈ d.callables →
    f.Suits c d.type
  modules : ∀ (m : Nat) d f, w.modules[m]? = some d → f ∈ d.functions → f.Free
  bound : ∀ (h : HeapId) s p o name arity
    (b : BridgeId) f, w.heaps[h]? = some s → s.closed = false → s.object? p = some o →
    o.body = .function name arity (some (.bound b f)) → w.Fitted f

/-- What one step may do to types: what is there after it was there before it, or agrees with what is
there after it. -/
structure Conveys (w w' : World) : Prop extends w.Proceeds w' where
  shares : Retains Share.object w.shares w'.shares
  records : ∀ (r : RecordId) (x' : Record) (i : ShareId), w'.records[r]? = some x' → x'.share = some i →
    (∃ x, w.records[r]? = some x ∧ x'.cls = x.cls ∧ x.share = some i) ∨
      ∃ sh, w'.shares[i]? = some sh ∧ w'.Admits x'.cls sh.object
  tables : ∀ (b : BridgeId) (br' : Bridge) (type : NativeType) (c : ClassId),
    w'.bridges[b]? = some br' → (type, c) ∈ br'.classes →
    (∃ br, w.bridges[b]? = some br ∧ (type, c) ∈ br.classes) ∨ ∃ d, w'.classes[c]? = some d ∧ d.type = type
  callables : ∀ (c : ClassId) (d' : ClassDecl) (f : Callable), w'.classes[c]? = some d' → f ∈ d'.callables →
    (∃ d, w.classes[c]? = some d ∧ d.type = d'.type ∧ f ∈ d.callables) ∨ f.Suits c d'.type
  modules : ∀ (m : Nat) (d' : ModuleDecl) (f : Callable), w'.modules[m]? = some d' →
    f ∈ d'.functions → f.Free ∨ ∃ (j : Nat) (d : ModuleDecl), w.modules[j]? = some d ∧ f ∈ d.functions
  bound : ∀ (h : HeapId) (s' : Heap) (p : HeapPtr) (o' : Object) (name : String) (arity : Int)
    (b : BridgeId) (f : Callable), w'.heaps[h]? = some s' → s'.closed = false → s'.object? p = some o' →
    o'.body = .function name arity (some (.bound b f)) →
    (∃ s o, w.heaps[h]? = some s ∧ s.closed = false ∧ s.object? p = some o ∧ o.body = o'.body) ∨ w'.Fitted f

theorem Proceeds.fitted (hp : w.Proceeds w') (hf : w.Fitted f) : w'.Fitted f := by
  refine hf.imp_right fun ⟨c, d, hd, hsuits⟩ => ?_
  obtain ⟨d', hd', he⟩ := hp.classes c d hd
  exact ⟨c, d', hd', (Prod.mk.inj he).2 ▸ hsuits⟩

theorem Typing.convey (hw : w.Typing) (hc : w.Conveys w') : w'.Typing := by
  refine ⟨fun r x' i hx' hi => ?_, fun b br' type c hbr' hm => ?_, fun c d' f hd' hf => ?_,
    fun m d' f hd' hf => ?_, fun h s' p o' name arity b f hs' hopen ho' hbody => ?_⟩
  · rcases hc.records r x' i hx' hi with ⟨x, hx, hcls, hshare⟩ | hnew
    · obtain ⟨sh, hsh, hadmits⟩ := hw.records r x i hx hshare
      obtain ⟨sh', hsh', hobject⟩ := hc.shares i sh hsh
      refine ⟨sh', hsh', ?_⟩
      rw [hcls, hobject]
      exact hc.toProceeds.admits hadmits
    · exact hnew
  · rcases hc.tables b br' type c hbr' hm with ⟨br, hbr, hm⟩ | hnew
    · obtain ⟨d, hd, rfl⟩ := hw.tables b br type c hbr hm
      obtain ⟨d', hd', he⟩ := hc.classes c d hd
      exact ⟨d', hd', (Prod.mk.inj he).2⟩
    · exact hnew
  · rcases hc.callables c d' f hd' hf with ⟨d, hd, htype, hf⟩ | hnew
    · exact htype ▸ hw.classes c d f hd hf
    · exact hnew
  · rcases hc.modules m d' f hd' hf with hfree | ⟨j, d, hd, hf⟩
    · exact hfree
    · exact hw.modules j d f hd hf
  · rcases hc.bound h s' p o' name arity b f hs' hopen ho' hbody with ⟨s, o, hs, hopen, ho, he⟩ | hnew
    · exact hc.toProceeds.fitted (hw.bound h s p o name arity b f hs hopen ho (he.trans hbody))
    · exact hnew

/-! ## Steps that leave things alone -/

theorem records_carried (h : w'.records = w.records) (r : RecordId) (x' : Record) (i : ShareId)
    (hx : w'.records[r]? = some x') (hi : x'.share = some i) :
    (∃ x, w.records[r]? = some x ∧ x'.cls = x.cls ∧ x.share = some i) ∨
      ∃ sh, w'.shares[i]? = some sh ∧ w'.Admits x'.cls sh.object :=
  .inl ⟨x', h ▸ hx, rfl, hi⟩

theorem tables_carried (h : w'.bridges = w.bridges) (b : BridgeId) (br' : Bridge) (type : NativeType)
    (c : ClassId) (hbr : w'.bridges[b]? = some br') (hm : (type, c) ∈ br'.classes) :
    (∃ br, w.bridges[b]? = some br ∧ (type, c) ∈ br.classes) ∨ ∃ d, w'.classes[c]? = some d ∧ d.type = type :=
  .inl ⟨br', h ▸ hbr, hm⟩

theorem callables_carried (h : w'.classes = w.classes) (c : ClassId) (d' : ClassDecl) (f : Callable)
    (hd : w'.classes[c]? = some d') (hf : f ∈ d'.callables) :
    (∃ d, w.classes[c]? = some d ∧ d.type = d'.type ∧ f ∈ d.callables) ∨ f.Suits c d'.type :=
  .inl ⟨d', h ▸ hd, rfl, hf⟩

theorem modules_carried (h : w'.modules = w.modules) (m : Nat) (d' : ModuleDecl) (f : Callable)
    (hd : w'.modules[m]? = some d') (hf : f ∈ d'.functions) :
    f.Free ∨ ∃ (j : Nat) (d : ModuleDecl), w.modules[j]? = some d ∧ f ∈ d.functions :=
  .inr ⟨m, d', h ▸ hd, hf⟩

theorem bound_carried (h : w'.heaps = w.heaps) (k : HeapId) (s' : Heap) (p : HeapPtr) (o' : Object)
    (name : String) (arity : Int) (b : BridgeId) (f : Callable) (hs : w'.heaps[k]? = some s')
    (hopen : s'.closed = false) (ho : s'.object? p = some o')
    (_ : o'.body = .function name arity (some (.bound b f))) :
    (∃ s o, w.heaps[k]? = some s ∧ s.closed = false ∧ s.object? p = some o ∧ o.body = o'.body) ∨ w'.Fitted f :=
  .inl ⟨s', o', h ▸ hs, hopen, ho, rfl⟩

theorem conveys_beside (hp : w.Proceeds w') (hshares : Retains Share.object w.shares w'.shares)
    (hrecords : w'.records = w.records) (hbridges : w'.bridges = w.bridges)
    (hclasses : w'.classes = w.classes) (hmodules : w'.modules = w.modules)
    (hheaps : w'.heaps = w.heaps) : w.Conveys w' :=
  ⟨hp, hshares, records_carried hrecords, tables_carried hbridges, callables_carried hclasses,
    modules_carried hmodules, bound_carried hheaps⟩

theorem conveys_state (h : w'.state = w.state) : w.Conveys w' := by
  have hp := proceeds_state h
  obtain ⟨hheaps, -, -, -, hshares, hrecords, hbridges, hclasses, hmodules, -⟩ := state_eq_iff.mp h
  exact conveys_beside hp (by rw [hshares]; exact .refl _ _) hrecords hbridges hclasses hmodules hheaps

section

variable (hs : w.heaps[h]? = some s)
include hs

theorem conveys_setHeap
    (hbound : s'.closed = false → s.closed = false ∧ ∀ p o', s'.object? p = some o' →
      (∃ o, s.object? p = some o ∧ ∀ name arity code, o'.body = .function name arity code → o.body = o'.body) ∨
        ∀ name arity b f, o'.body = .function name arity (some (.bound b f)) → w.Fitted f) :
    w.Conveys (w.setHeap h s') := by
  refine ⟨⟨id, .refl _, .refl _ _, .refl _ _, .refl _ _⟩, .refl _ _, records_carried rfl,
    tables_carried rfl, callables_carried rfl, modules_carried rfl, ?_⟩
  intro k x p o' name arity b f hx hopen ho' hbody
  rcases heaps_setHeap_cases hs hx with ⟨rfl, rfl⟩ | hx
  · obtain ⟨hopen0, hobjects⟩ := hbound hopen
    rcases hobjects p o' ho' with ⟨o, ho, hsame⟩ | hnew
    · exact .inl ⟨s, o, hs, hopen0, ho, hsame _ _ _ hbody⟩
    · exact .inr (hnew name arity b f hbody)
  · exact .inl ⟨x, o', hx, hopen, ho', rfl⟩

theorem conveys_table (htable : s'.table = s.table) (hclosed : s'.closed = s.closed) :
    w.Conveys (w.setHeap h s') := by
  refine conveys_setHeap hs fun hopen => ⟨hclosed ▸ hopen, fun p o' ho' => .inl ⟨o', ?_, fun _ _ _ _ => rfl⟩⟩
  unfold Heap.object? at ho' ⊢
  rw [← htable]
  exact ho'

theorem conveys_modify {p : HeapPtr} {f : Object → Object} (htable : s'.table = s.table.modify p f)
    (hclosed : s'.closed = s.closed)
    (hf : ∀ o, s.object? p = some o → ∀ name arity code, (f o).body = .function name arity code → o.body = (f o).body) :
    w.Conveys (w.setHeap h s') := by
  refine conveys_setHeap hs fun hopen => ⟨hclosed ▸ hopen, fun q o' ho' => .inl ?_⟩
  unfold Heap.object? at ho'
  rw [htable, Table.get?_modify] at ho'
  split at ho'
  case isTrue hq =>
    obtain ⟨o, ho, rfl⟩ := Option.map_eq_some_iff.mp ho'
    exact ⟨o, ho, hf o (hq ▸ ho)⟩
  case isFalse => exact ⟨o', ho', fun _ _ _ _ => rfl⟩

theorem conveys_amend (ha : s.Amends w0 s') : w.Conveys (w.setHeap h s') := by
  cases ha with
  | restack | restore => exact conveys_table hs rfl rfl
  | edit _ _ hakin _ =>
    refine conveys_modify hs rfl rfl fun o ho name arity code hbody => ?_
    exact (((hakin o ho).function name arity code).mp hbody).trans hbody.symm

theorem conveys_turn (ht : s.Turns s') : w.Conveys (w.setHeap h s') := by
  cases ht with
  | amend ha => exact conveys_amend hs ha
  | start p => exact conveys_modify hs (p := p) rfl rfl fun _ _ _ _ _ _ => rfl
  | root | clear => exact conveys_table hs rfl rfl
  | shut _ hclosed =>
    exact conveys_setHeap hs fun hopen => absurd (hclosed.symm.trans hopen) (by simp)

theorem conveys_alloc {o : Object}
    (hbound : ∀ name arity b f, o.body = .function name arity (some (.bound b f)) → w.Fitted f) :
    w.Conveys (w.setHeap h (s.withObject o)) := by
  refine conveys_setHeap hs fun hopen => ⟨hopen, fun p o' ho' => ?_⟩
  rcases Table.get?_insert_cases ho' with rfl | ho'
  · exact .inr hbound
  · exact .inl ⟨o', ho', fun _ _ _ _ => rfl⟩

theorem conveys_swept {ps : List HeapPtr} (hswept : s.Swept ps s') :
    w.Conveys (w.setHeap h { s' with collecting := false }) := by
  refine conveys_setHeap hs fun hopen => ⟨hswept.closed ▸ hopen, fun p o' ho' => .inl ⟨o', ?_, fun _ _ _ _ => rfl⟩⟩
  have ho' : s'.object? p = some o' := ho'
  rw [hswept.objects] at ho'
  split at ho'
  · simp at ho'
  · exact ho'

end

theorem conveys_books (hb : w.BooksOnly (fun c o w => w.Admits c o) w') : w.Conveys w' := by
  refine ⟨hb.proceeds, hb.shares, fun r x' i hx' hi => ?_, fun b br' type c hbr' hm => ?_,
    callables_carried hb.classes, modules_carried hb.modules, bound_carried hb.heaps⟩
  · rcases hb.records r x' hx' with ⟨x, hx, hcls, hshare | hshare⟩ | hnew
    · exact .inl ⟨x, hx, hcls, hshare ▸ hi⟩
    · cases hshare.symm.trans hi
    · exact .inr (hnew i hi)
  · rcases hb.tables b br' hbr' with ⟨br, hbr, he⟩ | hnone
    · exact .inl ⟨br, hbr, (show br'.classes = br.classes from congrArg Prod.fst he) ▸ hm⟩
    · rw [show br'.classes = [] from congrArg Prod.fst hnone] at hm
      simp at hm

/-- A world with a past whose types agree, as they did whenever a step began or ended, and in which a
method was applied to a misfit only after a handle had crossed under a wrong class. -/
structure Typed (w : World) : Prop extends w.Chronicled where
  typing : w.Typing
  recalled : ∀ x, w.history (.step x) → (World.ofState x).Typing
  misfits : ∀ x, w.history (.misfit x) → x.breaches.types = true

theorem Typed.step (hw : w.Typed) (hchronicled : w'.Chronicled) (hc : w.Conveys w')
    (hhistory : w'.history = w.history) : w'.Typed :=
  ⟨hchronicled, hw.typing.convey hc, fun x hx => hw.recalled x (hhistory ▸ hx),
    fun x hx => hw.misfits x (hhistory ▸ hx)⟩

theorem Typed.table (hw : w.Typed) (hs : w.heaps[h]? = some s) (hc : (w.setHeap h s').Chronicled)
    (htable : s'.table = s.table) (hclosed : s'.closed = s.closed) : (w.setHeap h s').Typed :=
  hw.step hc (conveys_table hs htable hclosed) rfl

end World

/-! ## The regime -/

namespace Regime

open World (conveys_beside records_carried tables_carried callables_carried modules_carried bound_carried)

section

variable (hw : w.Typed)
include hw

theorem typed_aside (ha : w.Aside w') (hshares : Retains Share.object w.shares w'.shares)
    (hbridges : w'.bridges = w.bridges) (hclasses : w'.classes = w.classes)
    (hmodules : w'.modules = w.modules) : w'.Typed ∧ w.Extends w' :=
  have hg := chronicled_aside hw.toChronicled ha
  ⟨hw.step hg.1 (conveys_beside ha.toProceeds hshares ha.records hbridges hclasses hmodules ha.heaps)
    ha.history, hg.2⟩

theorem typed_issue (ha : w.Aside w0) (hshares : w0.shares = w.shares)
    (hbridges : w0.bridges = w.bridges) (hclasses : w0.classes = w.classes)
    (hmodules : w0.modules = w.modules) (o : NativeId) (c : ControlId) :
    (w0.issue o c).Typed ∧ w.Extends (w0.issue o c) := by
  refine typed_aside hw (ha.trans (aside_issue _ _ _)) ?_ hbridges hclasses hmodules
  rw [← hshares]
  exact retains_push _ _ _

theorem typed_classes {classes : Array ClassDecl}
    (hc : Retains (fun d : ClassDecl => (d.key, d.type)) w.classes classes)
    (hnew : ∀ (c : ClassId) d' f, classes[c]? = some d' → f ∈ d'.callables →
      (∃ d, w.classes[c]? = some d ∧ d.type = d'.type ∧ f ∈ d.callables) ∨ f.Suits c d'.type) :
    World.Typed { w with classes } ∧ w.Extends { w with classes } := by
  have ha := aside_classes hc
  have hg := chronicled_aside hw.toChronicled ha
  exact ⟨hw.step hg.1 ⟨ha.toProceeds, .refl _ _, records_carried rfl, tables_carried rfl, hnew,
    modules_carried rfl, bound_carried rfl⟩ rfl, hg.2⟩

theorem typed_bridges {b : BridgeId} {f : Bridge → Bridge} (hid : ∀ x, (f x).heapId = x.heapId)
    (hnew : ∀ x type c, (type, c) ∈ (f x).classes →
      (type, c) ∈ x.classes ∨ ∃ d, w.classes[c]? = some d ∧ d.type = type) :
    World.Typed { w with bridges := w.bridges.modify b f } ∧
      w.Extends { w with bridges := w.bridges.modify b f } := by
  have ha : w.Aside { w with bridges := w.bridges.modify b f } := aside_bridges (retains_modify _ _ hid)
  have hg := chronicled_aside hw.toChronicled ha
  refine ⟨hw.step hg.1 ⟨ha.toProceeds, .refl _ _, records_carried rfl, fun k br' type c hbr' hm => ?_,
    callables_carried rfl, modules_carried rfl, bound_carried rfl⟩ rfl, hg.2⟩
  rcases modify_cases hbr' with ⟨-, br, hbr, rfl⟩ | ⟨-, hbr'⟩
  · exact (hnew br type c hm).imp_left fun hm => ⟨br, hbr, hm⟩
  · exact .inl ⟨br', hbr', hm⟩

theorem typed_silent (h : w.Silent w') : w'.Typed := by
  refine ⟨hw.toChronicled.silent h, hw.typing.convey (conveys_state h.state), fun x hx => ?_, fun x hx => ?_⟩
  · rcases h.recalled _ hx with hx | hx
    · exact hw.recalled x hx
    · obtain rfl := Moment.step.inj hx
      exact hw.typing.convey (conveys_state rfl)
  · rcases h.recalled _ hx with hx | hx
    · exact hw.misfits x hx
    · simp at hx

end

theorem conforms_of_fitted (hf : w.Fitted f) (hc : f.receiver = some c) (htakes : w.takes c o = true) :
    ∃ first inputs outputs variadic, f.fn.types? = some (first :: inputs, outputs, variadic) ∧
      w.Conforms first (.object o) := by
  rcases hf with hfree | ⟨c', d, hd, hsuits⟩
  · cases hfree.1.symm.trans hc
  · cases hsuits with
    | constructor hnone => cases hnone.symm.trans hc
    | method hreceiver _ htypes hfirst =>
      cases hc.symm.trans hreceiver
      obtain ⟨d', m, hd', hm, hassignable⟩ := takes_eq_true.mp htakes
      cases hd.symm.trans hd'
      refine ⟨_, _, _, _, htypes, fun o' ho' => ?_⟩
      obtain rfl := NativeValue.object.inj ho'
      exact ⟨m, hm, NativeType.assignableTo_trans hassignable hfirst⟩

theorem admits_of_fitted (hf : w.Fitted f) (hc : f.makes = some c)
    (hout : ∀ inputs output outputs variadic, f.fn.types? = some (inputs, output :: outputs, variadic)
      → w.Conforms output (.object o)) : w.Admits c o := by
  rcases hf with hfree | ⟨c', d, hd, hsuits⟩
  · cases hfree.2.symm.trans hc
  · cases hsuits with
    | method _ hnone => cases hnone.symm.trans hc
    | constructor _ hmakes htypes houtput =>
      cases hc.symm.trans hmakes
      obtain ⟨m, hm, hassignable⟩ := hout _ _ _ _ htypes o rfl
      exact .inr (takes_eq_true.mpr ⟨d, m, hd, hm, NativeType.assignableTo_trans hassignable houtput⟩)

def typed : Regime where
  inv := World.Typed
  rel := World.Extends
  deep := chronicle.deep
  proper f w := w.Fitted f
  fits c o w := w.Admits c o
  sound hw := hw.sound
  later h := h.toLater
  refl := World.Extends.refl
  trans := World.Extends.trans
  proper_stable h hf := h.toProceeds.fitted hf
  fits_stable h ho := h.toProceeds.admits ho
  usable_bound hw hs hopen ho hbody := ⟨trivial, hw.typing.bound _ _ _ _ _ _ _ _ hs hopen ho hbody⟩
  proper_class hw hd hf := .inr ⟨_, _, hd, hw.typing.classes _ _ _ hd hf⟩
  proper_module hw hd hf := .inl (hw.typing.modules _ _ _ hd hf)
  fits_admits h := h
  fits_enrolled hw hbr hn hc := by
    obtain ⟨l1, l2, hclasses, -⟩ := List.lookup_eq_some_iff.mp hc
    obtain ⟨d, hd, htype⟩ := hw.typing.tables _ _ _ _ hbr
      (by rw [hclasses]; exact List.mem_append_right _ List.mem_cons_self)
    refine .inr (takes_eq_true.mpr ⟨d, _, hd, hn, ?_⟩)
    rw [htype]
    simp [NativeType.assignableTo]
  fits_made hf hc hout := admits_of_fitted hf hc hout
  fits_held hw hx hi hs := by
    obtain ⟨sh, hsh, hadmits⟩ := hw.typing.records _ _ _ hx hi
    exact Option.mem_unique hsh hs ▸ hadmits
  silent hw h := ⟨typed_silent hw h, (chronicle.silent hw.toChronicled h).2⟩
  misfit {w f c o first inputs outputs variadic} hw hf hc ho htypes hmisfit := by
    have hg := chronicle.misfit hw.toChronicled trivial hc trivial htypes hmisfit
    have hstate := state_recalling w (.misfit w.state)
    refine ⟨⟨hg.1, hw.typing.convey (conveys_state hstate), fun x hx => ?_, fun x hx => ?_⟩, hg.2⟩
    · rcases history_recalling hx with hx | hx
      · exact hw.recalled x hx
      · simp at hx
    · rcases history_recalling hx with hx | hx
      · exact hw.misfits x hx
      · obtain rfl := Moment.misfit.inj hx
        rcases ho with hbreach | htakes
        · exact hbreach
        · obtain ⟨_, _, _, _, htypes', hconforms⟩ := conforms_of_fitted hf hc htakes
          rw [htypes] at htypes'
          obtain rfl := (List.cons.inj (Prod.mk.inj (Option.some.inj htypes')).1).1
          exact absurd hconforms hmisfit
  amend hw hs ha :=
    have hg := chronicle.amend hw.toChronicled hs ha
    ⟨hw.step hg.1 (conveys_amend hs ha) rfl, hg.2⟩
  alloc hw hs hblank hbound _ :=
    have hg := chronicle.alloc hw.toChronicled hs hblank (fun _ _ _ _ _ => ⟨trivial, trivial⟩) fun _ _ _ _ => trivial
    ⟨hw.step hg.1 (conveys_alloc hs fun name arity b f hbody => (hbound name arity b f hbody).2) rfl, hg.2⟩
  alter {w w'} hw ha := by
    have haside := ha.aside
    have hg := chronicled_aside hw.toChronicled haside
    cases ha with
    | tamper | newNative | editNative => exact typed_aside hw haside (.refl _ _) rfl rfl rfl
    | newClass _ hnone =>
      refine typed_classes hw (retains_push _ _ _) fun c d' f hd' hf => ?_
      rcases push_cases hd' with hd' | rfl
      · exact .inl ⟨d', hd', rfl, hf⟩
      · rw [hnone] at hf
        simp at hf
    | editClass hf hnew =>
      refine typed_classes hw (retains_modify _ _ fun d => Prod.ext (hf d).1.1 (hf d).1.2) fun k d' m hd' hm => ?_
      rcases modify_cases hd' with ⟨rfl, d, hd, rfl⟩ | ⟨-, hd'⟩
      · refine (hnew d m hd hm).imp (fun hm => ⟨d, hd, (hf d).1.2.symm, hm⟩) fun hsuits => ?_
        rw [(hf d).1.2]
        exact hsuits
      · exact .inl ⟨d', hd', rfl, hm⟩
    | declare hnew =>
      exact ⟨hw.step hg.1 ⟨haside.toProceeds, .refl _ _, records_carried rfl, tables_carried rfl, callables_carried rfl,
        fun m d f hd hf => hnew m d f hd hf, bound_carried rfl⟩ rfl, hg.2⟩
    | @editBridge _ f hf =>
      exact typed_bridges hw (fun x => (hf x).1) fun x type c hm => .inl
        ((show (f x).classes = x.classes from congrArg Prod.fst (hf x).2.1) ▸ hm)
    | enroll hd =>
      refine typed_bridges hw (fun _ => rfl) fun x type c hm => ?_
      rcases List.mem_cons.mp hm with he | hm
      · cases he
        exact .inr ⟨_, hd, rfl⟩
      · exact .inl hm
    | _ => exact typed_aside hw haside (.refl _ _) rfl rfl rfl
  issue {w _} hw hi := by
    cases hi with
    | held | again => exact ⟨typed_issue hw (.refl _) rfl rfl rfl rfl _ _, trivial⟩
    | fresh => exact ⟨typed_issue hw (aside_withControl w _) rfl rfl rfl rfl _ _, trivial⟩

-- Chronicles are shown to be kept already; what remains is the table of the one heap that changes.
instance : Elaborates typed where
  chronicled := World.Typed.toChronicled
  extended := id
  rest hw hs hc htable hclosed _ _ := World.Typed.table hw hs hc htable hclosed
  swept hw hs hswept _ _ hc := World.Typed.step hw hc (conveys_swept hs hswept) rfl
  around _ := id

instance : IsPlain typed where
  proper hf := hf
  fits ho := ho
  books {w w'} hw hb := by
    have hw : w.Typed := hw
    have hc : chronicle.Good w w' := IsPlain.books hw.toChronicled (hb.mono fun _ _ _ => trivial)
    exact ⟨hw.step hc.1 (conveys_books hb) hb.history, hc.2⟩
  turn {w h s s'} hw hs ht := by
    have hw : w.Typed := hw
    have hg : chronicle.Good w (w.setHeap h s') := IsPlain.turn hw.toChronicled hs ht
    exact ⟨hw.step hg.1 (conveys_turn hs ht) rfl, hg.2⟩
  newHeap {w limits storage ownsStorage logs} hw hdepth := by
    have hw : w.Typed := hw
    have hg : chronicle.Good w { w with heaps := w.heaps.push { limits, storage, ownsStorage, logs } } :=
      IsPlain.newHeap hw.toChronicled hdepth
    refine ⟨hw.step hg.1 ⟨hg.2.toProceeds, .refl _ _, records_carried rfl, tables_carried rfl,
      callables_carried rfl, modules_carried rfl, fun k x p o _ _ _ _ hx hopen ho _ => ?_⟩ rfl, hg.2⟩
    rcases push_cases hx with hx | rfl
    · exact .inl ⟨x, o, hx, hopen, ho, rfl⟩
    · simpa using (Table.get?_eq_some.mp ho).2


theorem typed_world (script : Script) (n : Nat) (recording : Bool) : (script.world n recording).Typed := by
  refine inv_world (R := typed) ⟨chronicled_start _ _, ⟨?_, ?_, ?_, ?_, ?_⟩, fun x hx => hx.elim, fun x hx => hx.elim⟩
  · exact fun r x i hx => absurd hx nofun
  · exact fun b br type c hbr => absurd hbr nofun
  · exact fun c d f hd => absurd hd nofun
  · exact fun m d f hd => absurd hd nofun
  · exact fun h s p o name arity b f hs => absurd hs nofun

end Regime

/-- A bound function that a state offers: a class declares it, or a function object of an open heap
stands for it. -/
def State.Offers (x : State) (f : Callable) : Prop :=
  (∃ (c : ClassId) (d : ClassDecl), x.classes[c]? = some d ∧ f ∈ d.callables) ∨
    ∃ (h : HeapId) (s : Heap) (p : HeapPtr) (o : Object) (name : String) (arity : Int) (b : BridgeId),
      x.heaps[h]? = some s ∧ s.closed = false ∧ s.object? p = some o ∧
        o.body = .function name arity (some (.bound b f))

theorem World.Typing.fitted {x : State} (hx : (World.ofState x).Typing) (hf : x.Offers f) :
    (World.ofState x).Fitted f := by
  rcases hf with ⟨c, d, hd, hf⟩ | ⟨h, s, p, o, name, arity, b, hs, hopen, ho, hbody⟩
  · exact .inr ⟨c, d, hd, hx.classes c d f hd hf⟩
  · exact hx.bound h s p o name arity b f hs hopen ho hbody

/-- **Class tags.** In every state that a run of native code met, up to the first handle that crossed
under a class that does not take its object, the object of every record is of a sort that may stand for
the native type of the record's class, and so for the first parameter of every method of the class that
the state offers. No method was applied to a receiver that it does not take unless such a handle had
crossed before. -/
theorem class_tags_sound {n : Nat} {recording : Bool} {x : State} (script : Script)
    (hx : (script.world n recording).Met x) :
    (x.breaches.types = false → ∀ (r : RecordId) (y : Record) (i : ShareId), x.records[r]? = some y →
      y.share = some i → ∃ sh d m, x.shares[i]? = some sh ∧ x.classes[y.cls]? = some d ∧
        x.natives[sh.object]? = some m ∧ (NativeType.object m.sort).assignableTo d.type = true ∧
        ∀ f, x.Offers f → f.receiver = some y.cls → ∃ first inputs outputs variadic,
          f.fn.types? = some (first :: inputs, outputs, variadic) ∧
          (NativeType.object m.sort).assignableTo first = true) ∧
    ∀ z, (script.world n recording).history (.misfit z) → z.breaches.types = true := by
  have hw := typed_world script n recording
  refine ⟨fun htypes r y i hr hi => ?_, hw.misfits⟩
  have htyping : (World.ofState x).Typing := by
    rcases hx with hx | rfl
    · exact hw.recalled x hx
    · exact hw.typing.convey (World.conveys_state rfl)
  obtain ⟨sh, hsh, hadmits⟩ := htyping.records r y i hr hi
  have htakes := hadmits.resolve_left fun hbreach => absurd (hbreach.symm.trans htypes) (by simp)
  obtain ⟨d, m, hd, hm, hassignable⟩ := World.takes_eq_true.mp htakes
  refine ⟨sh, d, m, hsh, hd, hm, hassignable, fun f hf hreceiver => ?_⟩
  obtain ⟨first, inputs, outputs, variadic, hfn, hconforms⟩ := conforms_of_fitted (htyping.fitted hf) hreceiver htakes
  obtain ⟨m', hm', hfirst⟩ := hconforms sh.object rfl
  obtain rfl := Option.some.inj (hm.symm.trans hm')
  exact ⟨first, inputs, outputs, variadic, hfn, hfirst⟩

def gadgetResource : WitDef := .mk 0 (some "gadget") (.other .resource)

/-- A function of a module hands out a gadget as a handle, and a method of its class is called on the
wrapper. -/
def givesHandle : Script :=
  .ofSteps [.bridge (.make false false),
        .classes (.declare "G" (.object .gadget) "Gadget" (.defined gadgetResource)),
        .classes (.addMethod "G" "poke" (.scripted [.object .gadget] [] false [] []) {}),
        .classes (.register (some "G")), .objects (.make "x" .gadget 1 "" none),
        .modules (.declare "M" "m"),
        .modules (.addFunc "M" "give" (.scripted [] [.object .gadget] false [] [.literal (.object "x")])
          { result := .defined (.mk 1 none (.own gadgetResource)) }),
        .modules (.push "M"), .call (.callProp (-1) "give" 0), .call (.callProp (-1) "poke" 0)]

set_option synthInstance.maxSize 1000 in
/-- The gadget is wrapped as one, and the method that was called takes it. -/
theorem class_tags_sound_givesHandle : ∃ (y : Record) (d : ClassDecl) (f : Callable) (sh : Share)
    (m : NativeObject) (first : NativeType), (givesHandle.world 2 true).breaches.types = false ∧
    (givesHandle.world 2 true).records[0]? = some y ∧ y.cls = 0 ∧ y.share = some 0 ∧
    (givesHandle.world 2 true).shares[0]? = some sh ∧
    (givesHandle.world 2 true).classes[0]? = some d ∧ f ∈ d.callables ∧ f.name = "poke" ∧
    (givesHandle.world 2 true).natives[sh.object]? = some m ∧
    f.fn.types? = some ([first], [], false) ∧
    (NativeType.object m.sort).assignableTo first = true := by
  have htypes : (givesHandle.world 2 true).breaches.types = false := by decide +kernel
  obtain ⟨y, hy, hcls, hi⟩ : ∃ y, (givesHandle.world 2 true).records[0]? = some y ∧ y.cls = 0 ∧ y.share = some 0 := by
    decide +kernel
  obtain ⟨d, hd, f, hf, hname, hreceiver, hfn⟩ : ∃ d, (givesHandle.world 2 true).classes[0]? = some d ∧
    ∃ f ∈ d.methods, f.name = "poke" ∧ f.receiver = some 0 ∧
      f.fn.types? = some ([.object .gadget], [], false) := by decide +kernel
  obtain ⟨hrules, -⟩ := class_tags_sound givesHandle (World.met_state (givesHandle.world 2 true))
  generalize givesHandle.world 2 true = w at *
  have hmem : f ∈ d.callables := List.mem_append_left _ hf
  obtain ⟨sh, d', m, hsh, -, hm, -, hmethod⟩ := hrules htypes 0 y 0 hy hi
  obtain ⟨first, inputs, outputs, variadic, hfn', hfirst⟩ :=
    hmethod f (.inl ⟨0, d, hd, hmem⟩) (by rw [hcls]; exact hreceiver)
  simp only [hfn, Option.some.injEq, Prod.mk.injEq, List.cons.injEq] at hfn'
  exact ⟨y, d, f, sh, m, first, htypes, hy, hcls, hi, hsh, hd, hmem, hname, hm, by rw [hfn, hfn'.1.1], hfirst⟩

end Tether
