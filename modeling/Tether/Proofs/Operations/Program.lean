import Tether.Proofs.Inert

/-!
# Programs keep every regime

Every step of a program is one of the operations already followed, so running a program keeps a
regime, and so does native code, whose bodies are programs.
-/

namespace Tether.Regime

open M Bridge Heap

variable {w : World} {x : NativeObject} {α : Type} {source : NativeType}
  {params types : List NativeType} {args out : List NativeValue} {h : HeapId}

variable {R : Regime} {F : R.Fact} {n : Nat}

/-! ## Native values -/

mutual

theorem keeps_nativeValue (type : NativeType) (l : Literal) : Keeps F (nativeValue type l) := by
  rw [nativeValue.eq_def]
  split
  · exact keeps_nativeValue _ l
  · exact keeps_pure _
  · exact keeps_pure _
  · exact keeps_pure _
  · exact keeps_pure _
  · exact keeps_pure _
  · exact (quiet_newBytes _).keeps.returns
  · refine keeps_get.bind fun w => ?_
    split
    · exact keeps_pure _
    · exact keeps_pure _
  · exact (Keeps.mapM fun l => keeps_nativeValue _ l).bind fun _ => keeps_sliceOf _ _
  · exact (Keeps.mapM fun l => keeps_nativeValue _ l).returns
  · exact (keeps_nativeValue _ _).bind fun _ => keeps_pointerTo _ _
  · exact (keeps_nativeFields _ _).returns
  · refine keeps_get.bind fun w => ?_
    split
    · refine .read (reads_native _) fun x => ?_
      exact .ite (fun _ => keeps_pure _) fun _ => keeps_crash _
    · exact keeps_pure _
  · exact keeps_pure _

theorem keeps_nativeFields (fields : NativeFields) (ls : List (String × Literal)) :
    Keeps F (nativeFields fields ls) := by
  match fields with
  | .nil =>
    rw [nativeFields]
    exact keeps_pure _
  | .cons name type _ _ rest =>
    rw [nativeFields]
    have hrest : ∀ v : NativeValue, Keeps F (do
        return v :: (← nativeFields rest ls) : M (List NativeValue)) := fun v =>
      (keeps_nativeFields rest ls).returns
    split
    · exact (keeps_nativeValue type _).bind hrest
    · exact (keeps_pure _).bind hrest

end

theorem reads_objectOf (v : NativeValue) : Reads (objectOf v) := by
  unfold objectOf
  split
  · exact reads_pure _
  · exact reads_crash _

theorem good_makeNative (hw : R.inv w) (hx : x.token = {})
    (hinert : w.orderly = true → x.onDestroy.all Program.inert = true) :
    R.Good w ((makeNative x).after w) := by
  have hnew : R.Good w { w with natives := w.natives.push x } := R.alter hw (.newNative hx hinert)
  exact hnew.trans (R.silent hnew.1 (.of_state rfl rfl))

theorem keeps_makeGadget (stem : String) (id : Int) : Keeps F (makeGadget stem id) := by
  refine keeps_get.bind fun w => Keeps.bind (keeps_modify fun _ => ?_) fun _ w hw _ => ?_
  · exact .of_state rfl rfl
  · exact good_makeNative hw rfl fun _ => rfl

theorem reads_resultOf (source type : NativeType) (v : NativeValue) : Reads (resultOf source type v) :=
  .ite (reads_pure _) (reads_crash _)

variable (params)

variable (args)

theorem keeps_returnValue (type : NativeType) (r : FnReturn) : Keeps F (returnValue params args type r) := by
  have hnative : ∀ {α : Type} (i : Nat) (f : NativeObject → M α), (∀ x, Keeps F (f x)) →
      Keeps F (do f (← native (← objectOf (← need args[i]?)))) := fun i f hf =>
    (keeps_need _).bind fun v => .read (reads_objectOf v) fun o =>
      .read (reads_native o) hf
  cases r with
  | zero => exact keeps_pure _
  | arg i => exact (keeps_need _).bind fun _ => (keeps_need _).bind fun _ => keeps_of_reads (reads_resultOf _ _ _)
  | lengthOf i => exact (keeps_need _).returns
  | idOf i => exact hnative i _ fun _ => keeps_pure _
  | labelOf i => exact hnative i _ fun _ => keeps_of_reads (reads_resultOf _ _ _)
  | newGadget stem id idArg =>
    have hmake : ∀ id : Int, Keeps F (do
        resultOf (.object .gadget) type (.object (← makeGadget stem (IntType.int32.wrap id)))) :=
      fun id => (keeps_makeGadget _ _).bind fun _ => keeps_of_reads (reads_resultOf _ _ _)
    cases idArg with
    | none => exact (keeps_pure _).bind hmake
    | some i =>
      refine (keeps_need _).bind fun v => ?_
      cases v with
      | int i => exact (keeps_pure _).bind hmake
      | _ => exact (keeps_crash _).bind hmake
  | fault f =>
    cases f with
    | none => exact keeps_pure _
    | some f => exact keeps_of_reads (reads_resultOf _ _ _)
  | literal l => exact keeps_nativeValue type l

theorem keeps_returnValues (types : List NativeType) (rs : List FnReturn) : Keeps F (returnValues params args types rs) := by
  induction types generalizing rs with
  | nil =>
    unfold returnValues
    exact keeps_pure _
  | cons type types ih =>
    cases rs with
    | nil => exact (ih []).returns
    | cons r rs =>
      exact (keeps_returnValue params args type r).bind fun _ => (ih rs).returns

variable {args}

variable {params}

/-! ## The geometry module -/

theorem keeps_modifyScene (f : Scene → Scene) : Keeps F (Scene.modifyScene f) :=
  keeps_modify fun _ => .of_state rfl rfl

theorem reads_widgetValue (o : NativeId) : Reads (Scene.widgetValue o) :=
  (reads_native o).bind fun _ => .ite (reads_pure _) (reads_crash _)

theorem keeps_largest : Keeps F Scene.largest := by
  refine keeps_get.bind fun w => (Keeps.foldlM (fun best o => ?_) _).bind fun best => ?_
  · refine .read (reads_isDisposed o) fun disposed => ?_
    refine .ite (fun _ => keeps_pure _) fun _ => ?_
    exact .read (reads_native o) fun _ => keeps_pure _
  · split
    · exact keeps_of_reads (reads_widgetValue _)
    · exact keeps_pure _

theorem reads_bytesOf (v : NativeValue) : Reads (Scene.bytesOf v) := by
  unfold Scene.bytesOf
  split
  · exact reads_get.returns
  · exact reads_pure _

theorem keeps_makeWidget (size : Double) : Keeps F (Scene.makeWidget size) := by
  unfold Scene.makeWidget
  refine .ite (fun _ => keeps_pure _) fun _ => .ite (fun _ => keeps_pure _) fun _ => ?_
  refine keeps_get.bind fun w => Keeps.bind (fun w' hw _ => ?_) fun _ =>
    (keeps_modifyScene _).returns
  exact R.alter hw (.newNative rfl fun _ => rfl)

theorem keeps_grow (o : NativeId) (by' : Double) : Keeps F (Scene.grow o by') := by
  unfold Scene.grow
  refine .ite (fun _ => keeps_pure _) fun _ => Keeps.bind (keeps_modifyNative ?_) fun _ =>
    .read (reads_native o) fun _ => keeps_pure _
  exact fun _ => ⟨rfl, rfl, rfl⟩

theorem keeps_turn (o : NativeId) (speed : Double) : Keeps F (Scene.turn o speed) := by
  refine .ite (fun _ => keeps_modifyNative ?_) fun _ => keeps_pure _
  exact fun _ => ⟨rfl, rfl, rfl⟩

/-! ## Results conform to their types -/

section Conforming

variable {w w' : World} {type : NativeType} {v : NativeValue}

theorem conforms_of_ne (hv : ∀ o, v ≠ .object o) : w.Conforms type v := fun o ho => absurd ho (hv o)

theorem conforms_of_made {x : M α} {f : α → NativeValue} (hf : ∀ a o, f a ≠ .object o)
    (he : (do return f (← x) : M NativeValue).exec w = (.ok v, w')) : w'.Conforms type v := by
  obtain ⟨a, w1, -, he⟩ := bind_ok_iff.mp he
  cases he
  exact conforms_of_ne (hf a)

theorem ne_object_of_conforms (hv : w.Conforms type v)
    (htype : ∀ sort, (NativeType.object sort).assignableTo type = false) (o : NativeId) :
    v ≠ .object o := by
  rintro rfl
  obtain ⟨n, -, hn⟩ := hv o rfl
  cases hn.symm.trans (htype n.sort)

theorem conforms_of_assignable (hv : w.Conforms source v) (hs : source.assignableTo type = true) :
    w.Conforms type v := by
  intro o ho
  obtain ⟨n, hn, h⟩ := hv o ho
  exact ⟨n, hn, NativeType.assignableTo_trans h hs⟩

theorem zero_ne_object (o : NativeId) : (type : NativeType) → type.zero ≠ .object o
  | .named _ type => by
    rw [NativeType.zero]
    exact zero_ne_object o type
  | .bool | .string | .int _ | .float32 | .float64 | .complex128 | .interface _ | .body _ | .slice _
  | .pointer _ | .array _ _ | .map _ _ | .func _ _ _ | .struct _ => by simp [NativeType.zero]

theorem conforms_push {natives : Array NativeObject} (hw : w.natives = natives.push x)
    (hx : (NativeType.object x.sort).assignableTo type = true) :
    w.Conforms type (.object natives.size) := by
  intro o ho
  obtain rfl := NativeValue.object.inj ho
  exact ⟨x, by rw [hw, Array.getElem?_push_size], hx⟩

theorem conforms_sliceOf {elems : List NativeValue} {slice : NativeType}
    (he : (sliceOf slice elems).exec w = (.ok v, w')) : w'.Conforms type v := by
  unfold sliceOf at he
  split at he
  · obtain ⟨w1, w2, -, he⟩ := bind_ok_iff.mp he
    obtain ⟨_, w3, -, he⟩ := bind_ok_iff.mp he
    cases he
    exact conforms_of_ne nofun
  · cases he
    exact conforms_of_ne nofun

theorem conforms_pointerTo {target : NativeType} {x : NativeValue}
    (he : (pointerTo target x).exec w = (.ok v, w')) : w'.Conforms (.pointer target) v := by
  unfold pointerTo at he
  split at he
  · rename_i sort
    obtain ⟨w1, w2, hget, he⟩ := bind_ok_iff.mp he
    cases hget
    obtain ⟨hv, rfl⟩ := (Prod.mk.inj he).imp_left Except.ok.inj
    subst hv
    exact conforms_push rfl (NativeType.assignableTo_object.mpr (.inl rfl))
  · cases he
    exact conforms_of_ne nofun

theorem conforms_nativeValue (type : NativeType) (l : Literal)
    (he : (nativeValue type l).exec w = (.ok v, w')) : w'.Conforms type v := by
  have hpure : ∀ {type : NativeType} {x : NativeValue}, (∀ o, x ≠ .object o) →
      (pure x : M NativeValue).exec w = (.ok v, w') → w'.Conforms type v := fun hx he => by
    cases he
    exact conforms_of_ne hx
  rw [nativeValue.eq_def] at he
  split at he
  · intro o ho
    obtain ⟨n, hn, h⟩ := conforms_nativeValue _ l he o ho
    exact ⟨n, hn, by rwa [NativeType.assignableTo_object] at h ⊢⟩
  iterate 5
    · exact hpure (fun _ => by simp) he
  · exact conforms_of_made (fun _ _ => by simp) he
  · obtain ⟨w1, w2, -, he⟩ := bind_ok_iff.mp he
    split at he
    all_goals
      cases he
      exact conforms_of_ne nofun
  · obtain ⟨elems, w1, -, he⟩ := bind_ok_iff.mp he
    exact conforms_sliceOf he
  · exact conforms_of_made (fun _ _ => by simp) he
  · obtain ⟨x, w1, -, he⟩ := bind_ok_iff.mp he
    exact conforms_pointerTo he
  · exact conforms_of_made (fun _ _ => by simp) he
  · obtain ⟨w1, w2, -, he⟩ := bind_ok_iff.mp he
    split at he
    · obtain ⟨n, hread, he⟩ := (reads_native _).bind_eq_ok he
      split at he
      · cases he
        intro o ho
        obtain rfl := NativeValue.object.inj ho
        exact ⟨n, (exec_look_eq_ok.mp hread).1, ‹_›⟩
      · cases he
    · cases he
      exact conforms_of_ne nofun
  · exact hpure (fun o => zero_ne_object o _) he

theorem conforms_resultOf {x : NativeValue} (hx : w.Conforms source x)
    (he : (resultOf source type x).exec w = (.ok v, w')) : w'.Conforms type v := by
  unfold resultOf at he
  split at he
  · cases he
    exact conforms_of_assignable hx ‹_›
  · cases he

theorem conforms_returnValue {r : FnReturn} (hargs : ∀ type v, (type, v) ∈ params.zip args → w.Conforms type v)
    (he : (returnValue params args type r).exec w = (.ok v, w')) : w'.Conforms type v := by
  have hcount : ∀ i o, countAs type i ≠ .object o := fun i o => by
    unfold countAs
    split <;> simp
  cases r with
  | zero =>
    cases he
    exact conforms_of_ne fun o => zero_ne_object o type
  | arg i =>
    obtain ⟨source, hsource, he⟩ := (reads_need _).bind_eq_ok he
    obtain ⟨x, hx, he⟩ := (reads_need _).bind_eq_ok he
    refine conforms_resultOf (hargs source x (List.mem_of_getElem? (i := i) ?_)) he
    exact List.getElem?_zip_eq_some.mpr ⟨(exec_need_eq_ok.mp hsource).1, (exec_need_eq_ok.mp hx).1⟩
  | lengthOf i => exact conforms_of_made (fun _ => hcount _) he
  | idOf i =>
    obtain ⟨x, -, he⟩ := (reads_need _).bind_eq_ok he
    obtain ⟨o, -, he⟩ := (reads_objectOf x).bind_eq_ok he
    exact conforms_of_made (fun _ => hcount _) he
  | labelOf i =>
    obtain ⟨x, -, he⟩ := (reads_need _).bind_eq_ok he
    obtain ⟨o, -, he⟩ := (reads_objectOf x).bind_eq_ok he
    obtain ⟨n, -, he⟩ := look_bind_eq_ok he
    exact conforms_resultOf (conforms_of_ne fun _ => by simp) he
  | newGadget stem id idArg =>
    have hmake : ∀ id : Int, (do
        resultOf (.object .gadget) type (.object (← makeGadget stem (IntType.int32.wrap id)))).exec w =
        (.ok v, w') → w'.Conforms type v := fun id he => by
      obtain ⟨o, w1, hmade, he⟩ := bind_ok_iff.mp he
      refine conforms_resultOf ?_ he
      cases hmade
      exact conforms_push rfl (NativeType.assignableTo_object.mpr (.inl rfl))
    cases idArg with
    | none => exact hmake id he
    | some i =>
      obtain ⟨x, -, he⟩ := (reads_need _).bind_eq_ok he
      cases x with
      | int id => exact hmake id he
      | _ => cases he
  | fault f =>
    cases f with
    | none =>
      cases he
      exact conforms_of_ne nofun
    | some f => exact conforms_resultOf (conforms_of_ne fun _ => by simp) he
  | literal l => exact conforms_nativeValue type l he

/-- The first result of a scripted function conforms to its type if the arguments did: later results
only add to native objects. -/
theorem conforms_returnValues {rs : List FnReturn} (hw : R.inv w)
    (hargs : ∀ type v, (type, v) ∈ params.zip args → w.Conforms type v)
    (he : (returnValues params args (type :: types) rs).exec w = (.ok out, w')) :
    w'.Conforms type (out.headD .nil) := by
  have hlater : ∀ {w1 : World} {x : M (List NativeValue)} {v : NativeValue}, R.inv w1 →
      w1.Conforms type v → Keeps (noFact (R := R)) x →
      (do return v :: (← x) : M (List NativeValue)).exec w1 = (.ok out, w') →
      w'.Conforms type (out.headD .nil) := by
    intro w1 x v hw1 hv hx he
    obtain ⟨rest, w2, hrest, he⟩ := bind_ok_iff.mp he
    cases he
    exact (R.later (hx.exec hw1 trivial hrest).2).conforms hv
  cases rs with
  | nil =>
    exact hlater hw (conforms_of_ne fun o => zero_ne_object o type) (keeps_returnValues _ _ _ _) he
  | cons r rs =>
    obtain ⟨v, w1, hv, he⟩ := bind_ok_iff.mp he
    have hg := (keeps_returnValue (F := noFact) params args type r).exec hw trivial hv
    exact hlater hg.1 (conforms_returnValue hargs hv) (keeps_returnValues _ _ _ _) he

theorem conforms_largest (he : Scene.largest.exec w = (.ok v, w')) : w'.Conforms SceneFn.widget v := by
  obtain ⟨w1, w2, -, he⟩ := bind_ok_iff.mp he
  obtain ⟨best, w3, -, he⟩ := bind_ok_iff.mp he
  split at he
  · obtain ⟨n, hn, he⟩ := (reads_native _).bind_eq_ok he
    split at he
    · rename_i hsort
      cases he
      intro o ho
      obtain rfl := NativeValue.object.inj ho
      refine ⟨n, (exec_look_eq_ok.mp hn).1, ?_⟩
      rw [hsort]
      exact NativeType.assignableTo_object.mpr (.inl rfl)
    · cases he
  · cases he
    exact conforms_of_ne nofun

theorem conforms_makeWidget {size : Double} (he : (Scene.makeWidget size).exec w = (.ok out, w')) :
    w'.Conforms SceneFn.widget (out.headD .nil) := by
  unfold Scene.makeWidget at he
  simp only at he
  have hnil : ∀ {rest : List NativeValue}, w'.Conforms SceneFn.widget ((.nil :: rest).headD .nil) :=
    conforms_of_ne nofun
  split at he
  · cases he
    exact hnil
  · split at he
    · cases he
      exact hnil
    · cases he
      exact conforms_push rfl (NativeType.assignableTo_object.mpr (.inl rfl))

theorem conforms_sceneApply {host : Host} {f : SceneFn} (hresults : f.results = type :: types)
    (hargs : ∀ type v, (type, v) ∈ f.params.zip args → w.Conforms type v)
    (he : (Scene.apply host f args).exec w = (.ok out, w')) : w'.Conforms type (out.headD .nil) := by
  have hmade : ∀ {α : Type} {x : M α} {g : α → NativeValue} {type : NativeType},
      (∀ a o, g a ≠ .object o) → (do return [g (← x)] : M (List NativeValue)).exec w = (.ok out, w') →
      w'.Conforms type (out.headD .nil) := fun hg he => by
    obtain ⟨a, w1, -, he⟩ := bind_ok_iff.mp he
    cases he
    exact conforms_of_ne (hg a)
  have hpure : ∀ {x : NativeValue} {type : NativeType}, (∀ o, x ≠ .object o) →
      (pure [x] : M (List NativeValue)).exec w = (.ok out, w') →
      w'.Conforms type (out.headD .nil) := fun hx he => by
    cases he
    exact conforms_of_ne hx
  -- What is given back is an argument of a type that no object conforms to.
  have hsame : ∀ {t : NativeType} {x : NativeValue} o, (t, x) ∈ f.params.zip args →
      (∀ sort, (NativeType.object sort).assignableTo t = false) → x ≠ .object o :=
    fun o hmem ht => ne_object_of_conforms (hargs _ _ hmem) ht o
  unfold Scene.apply at he
  split at he
  · cases hresults
  · cases hresults
    obtain ⟨x, w1, hx, he⟩ := bind_ok_iff.mp he
    cases he
    exact conforms_largest hx
  · cases hresults
    obtain ⟨x, w1, hx, he⟩ := bind_ok_iff.mp he
    cases he
    exact conforms_largest hx
  · exact hmade (fun _ _ => by simp) he
  · exact hmade (fun _ _ => by simp) he
  · exact hpure (fun o => hsame o List.mem_cons_self fun sort => by cases sort <;> rfl) he
  iterate 3
    · exact hpure (fun _ => by simp) he
  · refine hpure (fun _ => ?_) he
    split <;> simp
  · exact hpure (fun _ => by simp) he
  · exact hpure (fun _ => by simp) he
  · exact hpure (fun o => hsame o List.mem_cons_self fun sort => by cases sort <;> rfl) he
  · refine hpure (fun _ => ?_) he
    split <;> simp
  · exact hpure (fun _ => by simp) he
  · cases hresults
  · cases hresults
  · cases hresults
    exact conforms_makeWidget he
  · rename_i ccw
    refine hmade (fun _ o => hsame (t := .bool) o ?_ fun sort => by cases sort <;> rfl) he
    exact List.mem_cons_of_mem _ (List.mem_cons_of_mem _ List.mem_cons_self)
  · exact hmade (fun _ _ => by simp) he
  · exact hmade (fun _ _ => by simp) he
  · cases hresults
    unfold Scene.grow at he
    simp only at he
    split at he
    · cases he
      exact conforms_of_ne nofun
    · obtain ⟨_, w1, -, he⟩ := bind_ok_iff.mp he
      obtain ⟨n, -, he⟩ := look_bind_eq_ok he
      cases he
      exact conforms_of_ne nofun
  · cases hresults
  · exact hpure (fun _ => by simp) he
  · cases he

end Conforming

/-! ## Names -/

theorem keeps_withBridge {f : BridgeId → M α} (hf : ∀ b, Keeps ((Usable b).and F) (f b)) :
    Keeps F (currentBridge >>= f) := by
  refine Keeps.bind_fact (keeps_of_reads reads_currentBridge) ?_ hf
  intro b w w' hw hF he _
  obtain rfl := reads_currentBridge.exec he
  obtain ⟨w1, w2, hget, hneed⟩ := bind_ok_iff.mp he
  obtain ⟨rfl, rfl⟩ := Prod.mk.inj hget |>.imp_left Except.ok.inj
  obtain ⟨l1, l2, hl, -⟩ := List.lookup_eq_some_iff.mp (exec_need_eq_ok.mp hneed).1
  refine ⟨R.usable_attached (h := w'.current) hw ?_, hF⟩
  rw [hl]
  exact List.mem_append_right _ List.mem_cons_self

theorem good_keepShare {name : String} {s : ShareId} (hw : R.inv w) (hs : R.loose s w) :
    R.Good w ((silently (keepShare name s)).after w) :=
  R.alter hw (.nameShare hs)

section Upheld

variable (hu : R.Upholds n)
include hu

theorem keeps_dispose (o : NativeId) : Keeps F (Ownership.dispose (hostAt n) o) := fun w hw _ => hu.disposes w o hw

theorem keeps_sceneApply (f : SceneFn) (args : List NativeValue) : Keeps F (Scene.apply (hostAt n) f args) := by
  unfold Scene.apply
  split <;> try exact keeps_pure _
  · exact (keeps_modifyScene _).returns
  · exact keeps_largest.returns
  · exact keeps_largest.returns
  · refine Keeps.bind (keeps_modify fun _ => ?_) fun _ => keeps_pure _
    exact .of_state rfl rfl
  · exact .read (reads_bytesOf _) fun _ => keeps_pure _
  · exact keeps_makeWidget _
  · exact (keeps_turn _ _).returns
  · exact .read (reads_native _) fun _ => keeps_pure _
  · exact .read (reads_native _) fun _ => keeps_pure _
  · exact keeps_grow _ _
  · exact (keeps_dispose hu _).returns
  · exact keeps_crash _

/-! ## Steps -/

omit hu in
theorem keeps_silently {x : M α} (hx : Keeps F x) : Keeps F (silently x) := hx.returns

omit hu in
theorem keeps_changeOn {f : Heap → Except Stop Heap}
    (hf : ∀ {w : World} {s s' : Heap}, f s = .ok s' → s.Amends w s') : Keeps F (changeOn h f) :=
  (keeps_changeHeap hf).returns

omit hu in
theorem keeps_pushOn {v : Value} (hv : v.object? = none) : Keeps F (pushOn h v) := (keeps_push hv).returns

omit hu in
theorem keeps_pushOwn {f : Heap → Value} (hf : ∀ s : Heap, s.Sound → s.HoldsValue (f s)) :
    Keeps F (do pushOn h (f (← heap h))) := by
  refine (keeps_heap h).bind_of fun s w w' hw _ he _ => ?_
  obtain ⟨hs, rfl⟩ := exec_heap_eq_ok.mp he
  refine Good.bind (good_modifyHeap hw hs (amends_push fun hwork => hf s hwork.toSound)) ?_
  exact fun _ w'' _ hg => .refl hg.1

theorem keeps_performStack {step : StackStep} (hi : step.inert ≠ true) :
    Keeps F (performStack (hostAt n) h step) := by
  cases step with
  | pushUndefined | pushNull | pushBoolean | pushNumber | pushString => exact keeps_pushOn rfl
  | pushPointer p => exact .read (reads_payloadOf p) fun _ => keeps_pushOn rfl
  | pushObject => exact (keeps_pushObject hu.collects h).returns
  | pushGlobal => exact keeps_pushOwn fun s hs => holdsValue_object.mpr hs.global
  | pushStash => exact keeps_pushOwn fun s hs => holdsValue_object.mpr hs.stash
  | pushThis =>
    refine keeps_pushOwn fun s hs => ?_
    unfold this
    split
    · rename_i f rest hf
      exact (hs.frames f (by rw [hf]; exact List.mem_cons_self)).2
    · exact holdsValue_of_ne rfl
  | pushCurrent =>
    refine keeps_pushOwn fun s hs => ?_
    unfold current
    split
    · rename_i f rest hf
      exact holdsValue_object.mpr (hs.frames f (by rw [hf]; exact List.mem_cons_self)).1
    · exact holdsValue_of_ne rfl
  | setTop k => exact keeps_changeOn amends_setTop
  | pop | popN => exact keeps_changeOn amends_popN
  | dup | dupTop => exact keeps_changeOn amends_dup
  | swap i j => exact keeps_changeOn amends_swap
  | remove i => exact keeps_changeOn amends_remove
  | insert i => exact keeps_changeOn amends_insert
  | getTop | index | equals | requireStack | inspect | require | dump | reveal => exact absurd rfl hi

omit hu in
theorem good_performProperty {step : PropertyStep} (hi : step.inert ≠ true) (hw : R.inv w)
    (hcurrent : w.current = h) (hpermits : w.orderly = true → w.permits (.property step) = true)
    (htampers : w.breaches.keys = false → w.tampers (.property step) = false) :
    R.Good w ((performProperty h step).after w) := by
  have hreserved : ∀ {sym : SymbolSpec} {k : String}, (symbolOf sym).exec w = (.ok k, w) →
      (w.orderly = true → w.permitsKey sym = true) →
      (w.breaches.keys = false → (!w.permitsKey sym) = false) → w.Guarded → w.reserves k = false := by
    intro sym k hk hp ht hg
    have hsym : w.permitsKey sym = true := hg.elim hp fun hkeys => by simpa using ht hkeys
    cases sym with
    | name s =>
      cases hk
      simpa [World.permitsKey] using hsym
    | ofClass cls => simp [World.permitsKey] at hsym
  cases step with
  | put i k => exact (keeps_changeOn amends_putProp).good hw
  | get i k => exact (keeps_onHeap amends_getProp).returns.good hw
  | del i k => exact (keeps_onHeap amends_delProp).returns.good hw
  | putHidden i sym =>
    refine Good.bind_reads hw (reads_symbolOf sym) fun k hk => (good_changeHeap hw fun s s' hs he => ?_).returns
    exact amends_putHidden (hreserved hk hpermits htampers) he
  | getHidden i sym =>
    exact Good.bind_reads hw (reads_symbolOf sym) fun k _ => (keeps_onHeap amends_getHidden).returns.good hw
  | delHidden i sym =>
    refine Good.bind_reads hw (reads_symbolOf sym) fun k hk => (good_onHeap hw fun s b s' hs he => ?_).returns
    exact amends_delHidden (hreserved hk hpermits htampers) he
  | getPrototype i => exact (keeps_changeOn amends_getPrototype).good hw
  | setPrototype i => exact (keeps_changeOn amends_setPrototype).good hw
  | getFinalizer i => exact (keeps_changeOn amends_getFinalizer).good hw
  | setFinalizer i =>
    refine (good_changeHeap hw fun s s' hs he => amends_setFinalizer (fun ho => ?_) he).returns
    have hp := hpermits ho
    simp only [World.permits, hcurrent, hs, Option.all_some] at hp
    exact hp
  | pushHeapPtr name otherwise =>
    exact Good.bind_reads hw reads_get fun _ _ => (keeps_changeOn amends_pushPointer).good hw
  | has | keys | hasHidden | symbol | heapPtr => exact absurd rfl hi

theorem keeps_performCall {step : CallStep Program} (hi : step.inert ≠ true) :
    Keeps F (performCall (hostAt n) h step) := by
  cases step with
  | pushFunc f =>
    refine (keeps_pushFunc hu.collects h _ _ _ fun b c he => ?_).returns
    split at he <;> simp at he
  | pushError f => exact keeps_silently (keeps_pushError hu.collects h f)
  | call k => exact keeps_silently (keeps_call hu.invokes h k)
  | callMethod k => exact keeps_silently (keeps_callMethod hu.invokes h k)
  | callProp i k nargs => exact keeps_silently (keeps_callProp hu.invokes h i k nargs)
  | pcall k => exact keeps_silently (keeps_pcall hu.collects hu.invokes h k)
  | pcallMethod k => exact keeps_silently (keeps_pcallMethod hu.collects hu.invokes h k)
  | argCount | crash | malformed => exact absurd rfl hi

theorem keeps_openHeap (spec : HeapSpec) : Keeps F (openHeap (hostAt n) spec) := by
  have hmake : ∀ storage : Storage, Keeps F (
      if spec.passStorage then
        make (hostAt n) ⟨spec.stackLimit, spec.depthLimit, spec.gcThreshold⟩ storage false
      else make (hostAt n) ⟨spec.stackLimit, spec.depthLimit, spec.gcThreshold⟩ .blocks true) :=
    fun storage => .ite (fun _ w hw _ => hu.makes w _ _ _ hw) fun _ w hw _ => hu.makes w _ _ _ hw
  unfold openHeap
  cases spec.pages with
  | none => exact (keeps_pure _).bind hmake
  | some pages =>
    refine keeps_get.bind fun w => (keeps_ofExcept _).bind fun r =>
      Keeps.bind (keeps_modify fun _ => ?_) fun _ => keeps_get.bind fun _ =>
      (keeps_log _ _ _ _).bind fun _ => (keeps_pure _).bind hmake
    exact .of_state rfl rfl

theorem keeps_performHeap {step : HeapStep} (hi : step.inert ≠ true)
    (hclose : step = .close → F.Gives Disorderly) : Keeps F (performHeap (hostAt n) h step) := by
  have huse : ∀ k : HeapId, Keeps F (do
      modify fun w => { w with current := k }
      return .nothing : M Reply) := fun k =>
    Keeps.bind (keeps_modify fun _ => .of_state rfl rfl) fun _ => keeps_pure _
  cases step with
  | collect => exact Keeps.bind (fun w hw _ => hu.collects w h hw) fun _ => keeps_pure _
  | stats | config => exact absurd rfl hi
  | close => exact keeps_silently fun w hw hF => hu.closes w h hw (hclose rfl w hF)
  | newHeap spec => exact (keeps_openHeap hu spec).bind huse
  | use k =>
    refine keeps_get.bind fun w => ?_
    simp only [crash_bind]
    exact .ite (fun _ => keeps_crash _) fun _ => huse _

theorem keeps_performBuffer {step : BufferStep} (hi : step.inert ≠ true) :
    Keeps F (performBuffer (hostAt n) h step) := by
  cases step with
  | push size data =>
    exact (keeps_pushBuffer hu.collects h size).bind fun s => (quiet_writeInto _ _ _).keeps.returns
  | pushExternal data =>
    have hpush : ∀ s : Option Slice, Keeps F (silently (pushExternal (hostAt n) h s)) :=
      fun s => keeps_silently (keeps_pushExternal hu.collects h s)
    cases data with
    | none => exact (keeps_pure _).bind hpush
    | data bytes => exact (quiet_newBytes bytes).keeps.bind fun _ => (keeps_pure _).bind hpush
    | kept name => exact .read (reads_bytesNamed name) hpush
  | detach i => exact keeps_silently (keeps_detach h i)
  | get | require | keep | write | newBytes | setByte | bytes => exact absurd rfl hi

theorem good_performObject {step : ObjectStep Program} (hi : step.inert ≠ true) (hw : R.inv w)
    (hpermits : w.orderly = true → w.permits (.objects step) = true)
    (htampers : w.breaches.keys = false → w.tampers (.objects step) = false) :
    R.Good w ((performObject (hostAt n) step).after w) := by
  -- Nobody but the bridge writes tokens: a step that does breaks the rules.
  have hforged : ∀ {o : NativeId} {t : Token}, w.permits (.objects step) = false → w.tampers (.objects step) = true →
      (t = {} ∨ ∃ (a : NativeId) (m : NativeObject), w.natives[a]? = some m ∧ m.token = t) →
      R.Good w ((silently (modifyNative o ({ · with token := t }))).after w) := fun hp ht hsrc =>
    R.alter hw (.tamper (Bool.eq_false_iff.mpr fun ho => by simp [hp] at hpermits; simp [hpermits] at ho)
      ((Bool.not_eq_false _).mp fun hk => by simp [htampers hk] at ht) hsrc)
  cases step with
  | make name sort id label onDestroy =>
    exact Good.bind (good_makeNative hw rfl hpermits) fun _ w' _ hg => .refl hg.1
  | resetToken object =>
    exact Good.bind_reads hw (reads_objectNamed object) fun o _ => hforged rfl rfl (.inl rfl)
  | copyToken object target =>
    refine Good.bind_reads hw (reads_objectNamed object) fun o _ =>
      Good.bind_reads hw (reads_objectNamed target) fun t _ =>
      Good.bind_reads hw (reads_native o) fun x hx => ?_
    exact hforged rfl rfl (.inr ⟨o, x, (exec_look_eq_ok (f := fun w => w.natives[o]?) |>.mp hx).1, rfl⟩)
  | share object name =>
    refine Good.bind_reads hw (reads_objectNamed object) fun o _ =>
      Good.bind (good_take o hw).1 fun s w' he hg => ?_
    exact good_keepShare hg.1 ((good_take o hw).2 s w' he)
  | clone share name =>
    refine Good.bind_reads hw (reads_shareNamed share) fun s _ =>
      Good.bind (good_clone s hw).1 fun s' w' he hg => ?_
    exact good_keepShare hg.1 ((good_clone s hw).2 s' w' he)
  | release share =>
    refine Good.bind_reads hw reads_get fun w' he => ?_
    cases he
    cases hs : w.names.shares.lookup share with
    | none => exact .refl hw
    | some s =>
      obtain ⟨l1, l2, hl, -⟩ := List.lookup_eq_some_iff.mp hs
      have hmem : (share, s) ∈ w.names.shares := by
        rw [hl]
        exact List.mem_append_right _ List.mem_cons_self
      exact Good.bind (hu.releases w s hw (R.loose_named hw hmem)) fun _ w' _ hg => .refl hg.1
  | dispose object =>
    exact Good.bind_reads hw (reads_objectNamed object) fun o _ => (keeps_silently (keeps_dispose hu o)).good hw
  | token | inspectShare => exact absurd rfl hi

theorem keeps_performBridge {step : BridgeStep} (hi : step.inert ≠ true) :
    Keeps F (performBridge (hostAt n) h step) := by
  cases step with
  | make strict noHeap =>
    intro w hw _
    obtain ⟨hattach, hb⟩ := hu.attaches w (if noHeap then none else some h) strict hw
    exact hattach.bind fun b w' he hg => R.alter hg.1 (.attach (hb b w' he))
  | pushNative object =>
    exact keeps_withBridge fun b => keeps_get.bind fun _ =>
      keeps_silently (keeps_pushNative hu Fact.and_left _)
  | wrapShare name =>
    exact .read (reads_shareNamed name) fun s =>
      .read (reads_share s) fun x =>
      keeps_withBridge fun b => keeps_silently (keeps_pushNative hu Fact.and_left _)
  | wrapObject object type =>
    refine .read (reads_objectNamed object) fun o =>
      .read (reads_native o) fun x => ?_
    simp only [crash_bind]
    refine .ite (fun _ => keeps_crash _) fun _ => ?_
    refine Keeps.bind_fact (G := fun s => (Loose s).and F) (keeps_take o) ?_ fun s => ?_
    · intro s w w' hw hF he hg
      exact ⟨(good_take o hw).2 s w' he, F.stable hg.2 hF⟩
    · refine Keeps.bind (Keeps.catchFault (keeps_withBridge fun b =>
        keeps_pushNative hu Fact.and_left _)) fun done => ?_
      exact (keeps_releaseShare hu Fact.and_left).bind fun _ => keeps_silently (keeps_ofExcept done)
  | fromHeap | stats | unwrap | unwrapAs | recordAt => exact absurd rfl hi

theorem keeps_performClass {step : ClassStep Program} (hi : step.inert ≠ true) :
    Keeps F (performClass (hostAt n) step) := by
  have hclass : ∀ {α : Type} cls {f : ClassId → M α}, (∀ c, Keeps F (f c)) →
      Keeps F (classNamed cls >>= f) := fun cls _ hf =>
    .read (reads_classNamed cls) hf
  cases step with
  | declare name type scriptName resource =>
    exact (keeps_declareClass type scriptName _).bind fun c =>
      keeps_silently (Quiet.keeps (quiet_modifyNames fun _ => rfl))
  | setConstructor cls fn sig => exact hclass cls fun c => keeps_silently (keeps_declareConstructor c fn sig)
  | addMethod cls name fn sig => exact hclass cls fun c => keeps_silently (keeps_declareMethod c name fn sig)
  | register cls =>
    have hfind : Keeps F (cls.bindM classNamed?) := by
      cases cls with
      | none => exact keeps_pure _
      | some name => exact keeps_of_reads (reads_classNamed? name)
    refine hfind.bind fun c => ?_
    cases c with
    | none => exact keeps_fail _
    | some c =>
      exact .read (reads_checkDeclared c) fun _ =>
        keeps_withBridge fun b => keeps_silently (keeps_register b c)
  | info | list => exact absurd rfl hi
  | prototype cls =>
    refine .read (reads_classNamed? cls) fun c => ?_
    cases c with
    | none => exact keeps_fail _
    | some c =>
      exact .read (reads_checkDeclared c) fun _ => keeps_withBridge fun b =>
        keeps_silently (keeps_prototype hu Fact.and_left c)

theorem keeps_performModule {step : ModuleStep Program} (hi : step.inert ≠ true) :
    Keeps F (performModule (hostAt n) step) := by
  have hmodule : ∀ {α : Type} owner {f : Nat → M α}, (∀ m, Keeps F (f m)) →
      Keeps F (moduleNamed owner >>= f) := fun owner _ hf =>
    .read (reads_moduleNamed owner) hf
  cases step with
  | declare name scriptName =>
    exact (keeps_declareModule scriptName).bind fun m =>
      keeps_silently (Quiet.keeps (quiet_modifyNames fun _ => rfl))
  | addFunc owner name fn sig =>
    exact hmodule owner fun m => keeps_silently (keeps_declareFunction m name fn sig)
  | addClass owner cls =>
    exact hmodule owner fun m => .read (reads_classNamed cls) fun c =>
      keeps_silently (keeps_addClassTo m c)
  | addEnum owner wit => exact hmodule owner fun m => keeps_silently (keeps_addEnumTo m _)
  | addRecord owner wit type => exact hmodule owner fun m => keeps_silently (keeps_addRecordTo m _ type)
  | push owner =>
    exact hmodule owner fun m => .read (reads_checkModule m) fun _ =>
      keeps_withBridge fun b => keeps_silently (keeps_pushModule hu Fact.and_left m)
  | install owner =>
    exact hmodule owner fun m => keeps_withBridge fun b =>
      keeps_silently (keeps_install hu Fact.and_left m)
  | status | describe => exact absurd rfl hi

theorem keeps_performMarshal {step : MarshalStep} (hi : step.inert ≠ true) :
    Keeps F (performMarshal (hostAt n) step) := by
  cases step with
  | push wit type value must =>
    refine .read (reads_codecFor wit type must) fun codec =>
      (keeps_nativeValue _ value).bind fun v => keeps_withBridge fun b => keeps_silently ?_
    exact keeps_pushValue hu Fact.and_left codec v []
  | require wit type i keep must =>
    refine .read (reads_codecFor wit type must) fun codec =>
      keeps_withBridge fun b => (keeps_requireValue codec i []).bind fun v => ?_
    split
    · exact (quiet_keepBytes _ _).keeps.bind fun _ => keeps_get.returns
    · exact keeps_get.returns
  | codec => exact absurd rfl hi

/-- A step keeps a regime. Where a rule of bridges is broken the step notes so first, and from then
on the regime asks for less. -/
theorem keeps_perform (a : Action Program) : Keeps F (perform (hostAt n) a) := by
  by_cases hi : a.inert = true
  · exact (quiet_perform hi).keeps
  intro w hw hF
  refine Good.bind (keeps_note (F := F) _ w hw hF) fun _ w1 he hg => ?_
  obtain rfl : { w with orderly := w.orderly && w.permits a } = w1 := (Prod.mk.inj he).2
  refine Good.bind ((keeps_breach _).good hg.1) fun _ w2 he hg => ?_
  cases he
  refine Good.bind_reads hg.1 reads_currentHeap fun h hh => ?_
  obtain rfl : w.current = h := Except.ok.inj (Prod.mk.inj hh).1
  have hpermits : (w.orderly && w.permits a) = true → w.permits a = true := fun ho =>
    (Bool.and_eq_true_iff.mp ho).2
  have htampers : (w.breaches.keys || w.tampers a) = false → w.tampers a = false := fun hk =>
    (Bool.or_eq_false_iff.mp hk).2
  cases a with
  | stack step => exact (keeps_performStack hu hi).good hg.1
  | property step => exact good_performProperty hi hg.1 rfl hpermits htampers
  | call step => exact (keeps_performCall hu hi).good hg.1
  | heap step =>
    by_cases hc : step = .close
    · subst hc
      refine keeps_performHeap (F := Disorderly) hu (show HeapStep.close.inert ≠ true from hi) (fun _ => .rfl) _ hg.1 ?_
      exact Bool.and_false _
    · exact (keeps_performHeap hu hi (fun he => absurd he hc)).good hg.1
  | buffer step => exact (keeps_performBuffer hu hi).good hg.1
  | objects step => exact good_performObject hu hi hg.1 hpermits htampers
  | bridge step => exact (keeps_performBridge hu hi).good hg.1
  | classes step => exact (keeps_performClass hu hi).good hg.1
  | modules step => exact (keeps_performModule hu hi).good hg.1
  | marshal step => exact (keeps_performMarshal hu hi).good hg.1

/-! ## Programs -/

omit hu in
theorem keeps_answer {outermost : Bool} {x : M Reply} (hx : Keeps F x) : Keeps F (answer outermost x) := by
  refine keeps_get.bind fun w => Keeps.bind (keeps_modify fun _ => ?_) fun _ =>
    keeps_recallStep.bind fun _ => hx.catchAll.bind fun r => keeps_recallStep.bind fun _ =>
    keeps_get.bind fun w' => Keeps.bind (keeps_modify fun _ => ?_) fun _ =>
    .read reads_currentHeap fun h => (keeps_heap h).bind fun s => ?_
  · exact .of_state rfl rfl
  · exact .of_state rfl rfl
  · cases r with
    | ok reply => exact keeps_pure _
    | error e => exact .ite (fun _ => keeps_throw _) fun _ => keeps_pure _

omit hu in
theorem keeps_rounds {body : M (List Answer)} (hbody : Keeps F body) (k : Nat)
    (last : Option (List Answer)) : Keeps F (rounds body k last) := by
  induction k generalizing last with
  | zero => exact keeps_pure _
  | succ k ih => exact hbody.bind fun answers => ih (some answers)

theorem keeps_run (outermost : Bool) : (p : Program) → Keeps F (p.run (hostAt n) outermost)
  | .done => keeps_pure _
  | .step a rest =>
    (keeps_answer (keeps_perform hu a)).bind fun _ =>
      (keeps_run outermost rest).returns
  | .loop k body rest =>
    (keeps_answer (keeps_rounds (keeps_run false body) k.toNat none)).bind fun _ =>
      (keeps_run outermost rest).returns

/-! ## Native code -/

theorem keeps_runFunction (h : HeapId) (f : FuncSpec Program) : Keeps F (runFunction (hostAt n) h f) := by
  have hcurrent : ∀ k : HeapId, Keeps F (modify fun w => { w with current := k } : M Unit) :=
    fun k => keeps_modify fun _ => .of_state rfl rfl
  refine (keeps_heap h).bind fun s => keeps_get.bind fun w => (keeps_trace _).bind fun event =>
    .read reads_currentHeap fun outer => (hcurrent h).bind fun _ =>
    ((keeps_run hu false f.body).andFinally (hcurrent outer)).bind fun answers =>
    (keeps_amend event _).bind fun _ => ?_
  cases f.throws with
  | none => exact keeps_pure _
  | some f => exact keeps_fail f

theorem good_runCode {code : Code} (hw : R.inv w) (hsane : R.sane h w (some code)) :
    R.Good w ((runCode (hostAt n) h code).after w) := by
  cases code with
  | program f => exact (keeps_runFunction hu h f).good hw
  | finalizer b => exact hu.finalizes w b h hw hsane
  | bound b c => exact keeps_invoke (F := Bound b c) hu .rfl w hw hsane

theorem keeps_destroyNative (o : NativeId) : Keeps F (destroyNative (hostAt n) o) := by
  refine .read (reads_native o) fun x => ?_
  cases x.sort with
  | gadget =>
    refine Keeps.bind (keeps_modifyNative fun _ => ⟨rfl, rfl, rfl⟩) fun _ => ?_
    cases x.onDestroy with
    | none => exact keeps_pure _
    | some body =>
      exact (keeps_run hu false body).bind fun _ => (keeps_trace _).returns
  | widget => exact keeps_modifyScene _
  | spanner | marker => exact keeps_pure _

theorem keeps_act (event : Nat) (args : List NativeValue) (a : FnAct Program) :
    Keeps F (act (hostAt n) event args a) := by
  have hobject : ∀ (i : Nat) {f : NativeId → M Unit}, (∀ o, Keeps F (f o)) →
      Keeps F (do f (← objectOf (← need args[i]?))) := fun i _ hf =>
    (keeps_need _).bind fun v => .read (reads_objectOf v) hf
  cases a with
  | dispose i => exact hobject i fun o => keeps_dispose hu o
  | fill i byte =>
    refine (keeps_need _).bind fun v => ?_
    split
    · exact keeps_modify fun _ => .of_state rfl rfl
    · exact keeps_pure _
  | keep i name =>
    refine (keeps_need _).bind fun v => ?_
    split
    · exact (quiet_keepBytes _ _).keeps
    · exact (quiet_keepBytes _ _).keeps
  | label target source =>
    refine hobject target fun o => (keeps_need _).bind fun v => ?_
    split
    · exact keeps_modifyNative fun _ => ⟨rfl, rfl, rfl⟩
    · exact keeps_crash _
  | steps body => exact (keeps_run hu false body).bind fun _ => keeps_amend event _

theorem keeps_applyNative (fn : NativeFn Program) (args : List NativeValue) :
    Keeps F (applyNative (hostAt n) fn args) := by
  cases fn with
  | notFunction type => exact keeps_crash _
  | scene f => exact keeps_sceneApply hu f args
  | scripted params results fallible acts returns =>
    exact keeps_get.bind fun w => (keeps_trace _).bind fun event =>
      (Keeps.forM fun a _ => keeps_act hu event args a).bind fun _ => keeps_returnValues _ _ _ _

theorem conforms_applyNative {w' : World} {fn : NativeFn Program} {inputs outputs : List NativeType}
    {output : NativeType} {variadic : Bool} (hw : R.inv w)
    (htypes : fn.types? = some (inputs, output :: outputs, variadic))
    (hargs : ∀ type v, (type, v) ∈ inputs.zip args → w.Conforms type v)
    (he : (applyNative (hostAt n) fn args).exec w = (.ok out, w')) :
    w'.Conforms output (out.headD .nil) := by
  cases fn with
  | notFunction type => cases htypes
  | scene f =>
    obtain ⟨rfl, h⟩ := Prod.mk.inj (Option.some.inj htypes)
    exact conforms_sceneApply (Prod.mk.inj h).1 hargs he
  | scripted params results variadic acts returns =>
    obtain ⟨rfl, h⟩ := Prod.mk.inj (Option.some.inj htypes)
    obtain rfl : results = output :: outputs := (Prod.mk.inj h).1
    obtain ⟨w0, -, he⟩ := reads_get.bind_eq_ok he
    obtain ⟨event, w1, htrace, he⟩ := bind_ok_iff.mp he
    obtain ⟨_, w2, hacts, he⟩ := bind_ok_iff.mp he
    have hg1 := (keeps_trace (F := noFact) _).exec hw trivial htrace
    have hg2 := (Keeps.forM (F := noFact) fun a _ => keeps_act hu event args a).exec hg1.1 trivial hacts
    have hlater := R.later (hg1.trans hg2).2
    exact conforms_returnValues hg2.1 (fun type v hmem => hlater.conforms (hargs type v hmem)) he

theorem keeps_work (script : Script) : Keeps F (script.work (hostAt n)) :=
  (keeps_openHeap hu script.heap).bind fun _ =>
    Keeps.bind (keeps_modify fun _ => .of_state rfl rfl) fun _ => keeps_run hu true script.program

end Upheld

theorem keeps_exhaust : Keeps F (exhaust : M α) := (keeps_note _).bind fun _ => keeps_crash _

theorem serves (hupholds : ∀ n, R.Serves n → R.Upholds n) (n : Nat) : R.Serves n := by
  induction n with
  | zero =>
    exact ⟨fun w h code hw _ => keeps_exhaust.good hw, fun w o hw => keeps_exhaust.good hw,
      fun w fn args hw => keeps_exhaust.good hw,
      fun _ _ _ _ _ _ _ _ _ _ _ _ he => absurd (Prod.mk.inj he).1 nofun⟩
  | succ n ih =>
    have hu := hupholds n ih
    exact ⟨fun w h code hw hsane => good_runCode hu hw hsane, fun w o hw => (keeps_destroyNative hu o).good hw,
      fun w fn args hw => (keeps_applyNative hu fn args).good hw,
      fun _ _ _ _ _ _ _ _ _ hw htypes hargs he => conforms_applyNative hu hw htypes hargs he⟩

end Tether.Regime

namespace Tether

/-- The world that a script leaves if native code is run to a nesting of `n`, with its history or
without. -/
def Script.world (script : Script) (n : Nat) (recording : Bool) : World :=
  (script.work (hostAt n)).after { logging := script.logging, recording }

def World.Met (w : World) (x : State) : Prop := w.history (.step x) ∨ x = w.state

theorem World.met_state (w : World) : w.Met w.state := .inr rfl

end Tether
