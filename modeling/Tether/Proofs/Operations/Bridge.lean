import Tether.Proofs.Operations.Heap

/-!
# The operations of a bridge keep every regime

Registration, marshalling, bound functions and modules are followed down to the operations that a
regime upholds: calls, allocations, wrapping, and the elementary changes.
-/

namespace Tether.Regime

open M Bridge

variable {b : BridgeId} {type : NativeType} {c : ClassId} {f : Callable} {α : Type}
  {outputs : List NativeType} {w w' : World} {v : NativeValue} {o : NativeId} {h : HeapId}
  {receiver args : List NativeValue}

/-! ## Operations that only read -/

theorem reads_checkDeclared (c : ClassId) : Reads (checkDeclared c) := by
  refine (reads_classDecl c).bind fun d => ?_
  split
  · exact reads_fail _
  · exact reads_pure _

variable (b)

theorem reads_classForResource (d : WitDef) : Reads (classForResource b d) := by
  refine (reads_bridge b).bind fun x => ?_
  split
  · exact reads_pure _
  · exact reads_fail _

theorem reads_classForType (type : NativeType) : Reads (classForType b type) := by
  refine (reads_bridge b).bind fun x => ?_
  split
  · exact reads_pure _
  · exact reads_fail _

theorem reads_isDisposed (o : NativeId) : Reads (Ownership.isDisposed o) := by
  refine (reads_native o).bind fun n => ?_
  split
  · exact (reads_control _).returns
  · exact reads_pure _

theorem reads_attachedTo (h : Option HeapId) : Reads (attachedTo h) := by
  cases h with
  | none => exact reads_pure _
  | some h =>
    refine (reads_heap h).bind fun s => ?_
    split
    · split
      · exact reads_pure _
      · exact reads_pure _
    · exact reads_pure _

variable (i : Int)

theorem reads_unwrap (c : ClassId) : Reads (unwrap b i c) := by
  refine (reads_classDecl c).bind fun d => (reads_bridge b).bind fun x => (reads_heap _).bind fun s => ?_
  simp only [fail_bind]
  refine .ite ((reads_readHeap _ _).bind fun _ => reads_fail _) ?_
  refine (reads_readHeap _ _).bind fun _ => (reads_readHeap _ _).bind fun r => ?_
  refine .ite ((reads_readHeap _ _).bind fun _ => reads_fail _) ?_
  split
  · refine (reads_record _).bind fun x => .ite (reads_fail _) ((reads_readHeap _ _).bind fun here => ?_)
    split
    · refine .ite (reads_fail _) ((reads_share _).bind fun sh => (reads_native _).bind fun n => ?_)
      exact .ite (reads_fail _) (reads_pure _)
    · exact reads_fail _
  · exact reads_fail _

theorem reads_unwrapType (type : NativeType) : Reads (unwrapType b i type) := by
  refine (reads_classForType b type).bind fun c => (reads_unwrap b i c).bind fun o =>
    (reads_native o).bind fun n => .ite (reads_pure _) ?_
  exact (reads_classDecl c).bind fun _ => reads_fail _

theorem reads_recordAt : Reads (recordAt b i) := by
  refine (reads_bridge b).bind fun x => (reads_heap _).bind fun s => ?_
  split
  · refine (reads_ofStop _).bind fun r => ?_
    simp only
    split
    · exact reads_pure _
    · exact reads_pure _
  · exact reads_pure _

variable {b}

theorem reads_failType (h : HeapId) (type : NativeType) (i : Int) (path : List String) :
    Reads (failType h type i path : M α) :=
  (reads_readHeap h _).bind fun _ => reads_fail _

theorem reads_assign (source target : NativeType) (v : NativeValue) : Reads (assign source target v) := reads_need _

theorem reads_sliceElements (v : NativeValue) : Reads (sliceElements v) := by
  unfold sliceElements
  split
  · exact reads_pure _
  · exact reads_get.returns
  · exact reads_pure _
  · exact reads_crash _

theorem reads_absolute (h : HeapId) (i : Int) : Reads (absolute h i) := (reads_heap h).returns

theorem reads_accepts (type : NativeType) (v : NativeValue) : Reads (accepts type v) := by
  unfold accepts
  split
  · exact (reads_native _).returns
  · exact reads_pure _

theorem reads_checkModule (m : Nat) : Reads (checkModule m) := by
  refine (reads_moduleDecl m).bind fun d => ?_
  split
  · exact reads_fail _
  · exact reads_pure _

theorem reads_describeModule (m : Nat) : Reads (describeModule m) :=
  (reads_moduleDecl m).bind fun _ => (reads_mapM fun c => reads_classDecl c).returns

end Tether.Regime

namespace Tether

open M

/-! ## Declarations -/

namespace Callable

variable {name : String} {fn : NativeFn Program} {sig : Signature}

theorem free_of_compile (h : compile name fn sig .free = .ok f) : f.Free := by
  simp only [compile, bind, Except.bind, pure, Except.pure] at h
  repeat' split at h
  all_goals cases h
  all_goals exact ⟨rfl, rfl⟩

theorem suits_of_method (h : compile name fn sig (.method c type) = .ok f) : f.Suits c type := by
  simp only [compile, bind, Except.bind, pure, Except.pure] at h
  repeat' split at h
  all_goals cases h
  all_goals exact .method rfl rfl ‹fn.types? = _› ‹type.assignableTo _ = true›

theorem head_of_prefix {results : List NativeType} {p : NativeType → Bool} (hpre : results <+: outputs)
    (hone : ¬ 1 < results.length) (hp : results.any p = true) :
    ∃ output rest, outputs = output :: rest ∧ p output = true := by
  obtain ⟨rest, rfl⟩ := hpre
  match results with
  | [] => simp at hp
  | [output] => exact ⟨output, rest, rfl, by simpa using hp⟩
  | _ :: _ :: _ => simp at hone

theorem suits_of_constructor (h : compile name fn sig (.constructor c type) = .ok f) : f.Suits c type := by
  simp only [compile, bind, Except.bind, pure, Except.pure] at h
  repeat' split at h
  all_goals cases h
  · obtain ⟨output, rest, rfl, hout⟩ := head_of_prefix (List.dropLast_prefix _) ‹_› ‹_›
    exact .constructor rfl rfl ‹fn.types? = _› hout
  · obtain ⟨output, rest, rfl, hout⟩ := head_of_prefix (List.prefix_refl _) ‹_› ‹_›
    exact .constructor rfl rfl ‹fn.types? = _› hout

end Callable

theorem ClassDecl.mem_callables_addMethod {d : ClassDecl} {f g : Callable}
    (hg : g ∈ (d.addMethod f).callables) : g ∈ d.callables ∨ g = f := by
  rcases List.mem_append.mp hg with hg | hg
  · unfold ClassDecl.addMethod at hg
    split at hg
    · obtain ⟨old, hold, rfl⟩ := List.mem_map.mp hg
      split
      · exact .inr rfl
      · exact .inl (List.mem_append_left _ hold)
    · rcases List.mem_append.mp hg with hg | hg
      · exact .inl (List.mem_append_left _ hg)
      · exact .inr (List.mem_singleton.mp hg)
  · exact .inl (List.mem_append_right _ hg)

theorem zip_append_drop {β : Type} (l : List α) (r a : List β) :
    l.zip (r ++ a) = l.zip r ++ (l.drop r.length).zip a := by
  induction r generalizing l with
  | nil => simp
  | cons x r ih =>
    cases l with
    | nil => simp
    | cons y l => simp [ih]

namespace Bridge

theorem exec_classForType (h : (classForType b type).exec w = (.ok c, w')) :
    ∃ br, w.bridges[b]? = some br ∧ br.classes.lookup type = some c := by
  obtain ⟨br, hbr, hfound⟩ := look_bind_eq_ok h
  split at hfound
  · cases hfound
    exact ⟨br, hbr, ‹_›⟩
  · cases hfound

theorem exec_accepts (h : (accepts type v).exec w = (.ok true, w')) : w.Conforms type v := by
  rintro o rfl
  obtain ⟨n, hn, hsort⟩ := look_bind_eq_ok h
  exact ⟨n, hn, Except.ok.inj (Prod.mk.inj hsort).1⟩

theorem exec_accepts_false (h : (accepts type v).exec w = (.ok false, w')) : ¬ w.Conforms type v := by
  intro hv
  unfold accepts at h
  split at h
  · rename_i o
    obtain ⟨n, hn, hsort⟩ := look_bind_eq_ok h
    obtain ⟨n', hn', hassignable⟩ := hv o rfl
    cases hn.symm.trans hn'
    cases hassignable.symm.trans (Except.ok.inj (Prod.mk.inj hsort).1)
  · cases h

theorem conforms_of_check {type : NativeType} {v : NativeValue} {x : M PUnit} {w w' : World} {u : PUnit} (h : (do
      if !(← accepts type v) then
        x
        crash .runtime : M PUnit).exec w = (.ok u, w')) : w' = w ∧ w.Conforms type v := by
  obtain ⟨ok, w1, hok, hrest⟩ := bind_ok_iff.mp h
  obtain rfl := (Regime.reads_accepts _ _).exec hok
  cases ok with
  | false =>
    obtain ⟨_, w2, -, hcrash⟩ := bind_ok_iff.mp hrest
    cases hcrash
  | true => exact ⟨(Prod.mk.inj hrest).2.symm, exec_accepts hok⟩

theorem conforms_of_forM {check : NativeType × NativeValue → M PUnit}
    (hcheck : ∀ p w w' u, (check p).exec w = (.ok u, w') → w' = w ∧ w.Conforms p.1 p.2)
    {pairs : List (NativeType × NativeValue)} {u : PUnit} (h : (pairs.forM check).exec w = (.ok u, w')) :
    w' = w ∧ ∀ p ∈ pairs, w.Conforms p.1 p.2 := by
  induction pairs generalizing w with
  | nil => exact ⟨(Prod.mk.inj h).2.symm, nofun⟩
  | cons p rest ih =>
    obtain ⟨_, w1, hp, hrest⟩ := bind_ok_iff.mp h
    obtain ⟨rfl, hconforms⟩ := hcheck p w w1 _ hp
    obtain ⟨rfl, hrest⟩ := ih hrest
    exact ⟨rfl, List.forall_mem_cons.mpr ⟨hconforms, hrest⟩⟩

theorem record_of_unwrap {i : Int} (h : (unwrap b i c).exec w = (.ok o, w')) :
    ∃ (r : RecordId) (x : Record) (j : ShareId) (sh : Share),
      w.records[r]? = some x ∧ x.cls = c ∧ x.share = some j ∧ w.shares[j]? = some sh ∧ sh.object = o := by
  obtain ⟨d, -, h⟩ := look_bind_eq_ok h
  obtain ⟨br, -, h⟩ := look_bind_eq_ok h
  obtain ⟨s, -, h⟩ := look_bind_eq_ok h
  simp only [fail_bind] at h
  split at h
  · obtain ⟨_, -, h⟩ := (reads_readHeap _ _).bind_eq_ok h
    cases h
  obtain ⟨_, -, h⟩ := (reads_readHeap _ _).bind_eq_ok h
  obtain ⟨⟨found, payload⟩, -, h⟩ := (reads_readHeap _ _).bind_eq_ok h
  split at h
  · obtain ⟨_, -, h⟩ := (reads_readHeap _ _).bind_eq_ok h
    cases h
  split at h
  · rename_i r _
    obtain ⟨x, hx, h⟩ := (reads_record r).bind_eq_ok h
    split at h
    · cases h
    obtain ⟨_, -, h⟩ := (reads_readHeap _ _).bind_eq_ok h
    split at h
    · rename_i j hj
      split at h
      · cases h
      rename_i hmatch
      obtain ⟨sh, hsh, h⟩ := (reads_share j).bind_eq_ok h
      obtain ⟨n, -, h⟩ := look_bind_eq_ok h
      split at h
      · cases h
      exact ⟨r, x, j, sh, (exec_look_eq_ok.mp hx).1, Classical.not_not.mp fun hne => hmatch (.inl hne), hj,
        (exec_look_eq_ok.mp hsh).1, Except.ok.inj (Prod.mk.inj h).1⟩
    · cases h
  · cases h

theorem record_of_requireReceiver (he : (requireReceiver b h f).exec w = (.ok receiver, w')) :
    receiver = [] ∨ ∃ (r : RecordId) (x : Record) (j : ShareId) (sh : Share), w'.records[r]? = some x ∧
      f.receiver = some x.cls ∧ x.share = some j ∧ w'.shares[j]? = some sh ∧
      receiver = [.object sh.object] := by
  unfold requireReceiver at he
  split at he
  · exact .inl (Except.ok.inj (Prod.mk.inj he).1).symm
  · rename_i c hc
    obtain ⟨_, w1, hread, he⟩ := bind_ok_iff.mp he
    obtain ⟨_, w2, hpush, he⟩ := bind_ok_iff.mp he
    obtain ⟨found, w3, hunwrap, he⟩ := bind_ok_iff.mp he
    obtain ⟨_, w4, hpop, he⟩ := bind_ok_iff.mp he
    obtain ⟨s, s', hs, -, rfl⟩ := exec_changeHeap_eq_ok.mp hpop
    rcases exec_catchFault_eq_ok hunwrap with ⟨o, rfl, ho⟩ | ⟨f, rfl, -⟩
    · obtain rfl := (Regime.reads_unwrap b _ c).exec ho
      obtain ⟨r, x, j, sh, hx, rfl, hj, hsh, rfl⟩ := record_of_unwrap ho
      obtain rfl := (Prod.mk.inj he).2
      exact .inr ⟨r, x, j, sh, hx, hc, hj, hsh, (Except.ok.inj (Prod.mk.inj he).1).symm⟩
    · cases he

end Bridge

end Tether

namespace Tether.Regime

open M Bridge Heap

variable {R : Regime} {F : R.Fact} {n : Nat}

theorem keeps_declareClass (type : NativeType) (name : String) (resource : Option WitDef) :
    Keeps F (declareClass type name resource) := by
  intro w hw _
  unfold declareClass
  rw [after_bind_ok (exec_get w)]
  exact Good.bind (R.alter hw (.newClass ⟨name, rfl⟩ rfl)) fun _ w' _ hg => .refl hg.1

theorem reads_faultOr (x : Except Stop α) : Reads (faultOr x) := by
  unfold faultOr
  split
  · exact reads_pure _
  · exact reads_pure _
  · exact reads_crash _

theorem faultOr_eq_ok {x : Except Stop α} {a : α} (h : (faultOr x).exec w = (.ok (.ok a), w')) : x = .ok a := by
  unfold faultOr at h
  split at h
  · exact congrArg _ (Except.ok.inj (Except.ok.inj (Prod.mk.inj h).1))
  · simpa using Except.ok.inj (Prod.mk.inj h).1
  · cases h

theorem good_keepInClass {d : ClassDecl} {x : Except Stop Callable}
    {add : ClassDecl → Callable → ClassDecl} (hw : R.inv w) (hd : w.classes[c]? = some d)
    (hsame : ∀ d f, ((add d f).key = d.key ∧ (add d f).type = d.type) ∧ (add d f).resource = d.resource)
    (hadd : ∀ d f g, g ∈ (add d f).callables → g ∈ d.callables ∨ g = f)
    (hx : ∀ f, x = .ok f → f.Suits c d.type) : R.Good w ((keepInClass c x add).after w) := by
  refine Good.bind_reads hw (reads_faultOr x) fun r he => ?_
  cases r with
  | ok f =>
    have hf : x = .ok f := faultOr_eq_ok he
    refine R.alter hw (.editClass (fun d => hsame d f) fun d' g hd' hg => ?_)
    cases hd.symm.trans hd'
    rcases hadd d f g hg with hg | rfl
    · exact .inl hg
    · exact .inr (hx g hf)
  | error f => exact R.alter hw (.editClass (fun _ => ⟨⟨rfl, rfl⟩, rfl⟩) fun _ _ _ hg => .inl hg)

theorem keeps_declareConstructor (c : ClassId) (fn : NativeFn Program) (sig : Signature) :
    Keeps F (declareConstructor c fn sig) := by
  intro w hw _
  refine Good.bind_reads hw (reads_classDecl c) fun d he => ?_
  refine good_keepInClass hw (exec_look_eq_ok.mp he).1 (fun _ _ => ⟨⟨rfl, rfl⟩, rfl⟩) (fun d f g hg => ?_)
    fun f hf => Callable.suits_of_constructor hf
  have hg : g ∈ d.methods ++ [f] := hg
  rcases List.mem_append.mp hg with hg | hg
  · exact .inl (List.mem_append_left _ hg)
  · exact .inr (List.mem_singleton.mp hg)

theorem keeps_declareMethod (c : ClassId) (name : String) (fn : NativeFn Program)
    (sig : Signature) : Keeps F (declareMethod c name fn sig) := by
  intro w hw _
  refine Good.bind_reads hw (reads_classDecl c) fun d he => ?_
  exact good_keepInClass hw (exec_look_eq_ok.mp he).1 (fun _ _ => ⟨⟨rfl, rfl⟩, rfl⟩)
    (fun d f g hg => ClassDecl.mem_callables_addMethod hg) fun f hf => Callable.suits_of_method hf

variable (m : Nat)

theorem keeps_modifyModule {f : ModuleDecl → ModuleDecl}
    (hf : ∀ d g, g ∈ (f d).functions → g ∈ d.functions ∨ g.Free) : Keeps F (modifyModule m f) := by
  refine fun w hw _ => R.alter hw (.declare fun i d g hd hg => ?_)
  rcases modify_cases hd with ⟨-, d', hd', rfl⟩ | ⟨-, hd⟩
  · rcases hf d' g hg with hg | hg
    · exact .inr ⟨i, d', hd', hg⟩
    · exact .inl hg
  · exact .inr ⟨i, d, hd, hg⟩

theorem keeps_declareModule (name : String) : Keeps F (declareModule name) := by
  refine keeps_get.bind fun w => Keeps.bind (fun w' hw _ => ?_) fun _ => keeps_pure _
  refine R.alter hw (.declare fun i d g hd hg => ?_)
  rcases push_cases hd with hd | rfl
  · exact .inr ⟨i, d, hd, hg⟩
  · simp at hg

theorem keeps_declareFunction (name : String) (fn : NativeFn Program) (sig : Signature) :
    Keeps F (declareFunction m name fn sig) := by
  intro w hw hF
  refine Good.bind_reads hw (reads_faultOr _) fun r he => ?_
  cases r with
  | ok f =>
    refine keeps_modifyModule m (fun d g hg => ?_) w hw hF
    rcases List.mem_append.mp hg with hg | hg
    · exact .inl hg
    · obtain rfl := List.mem_singleton.mp hg
      exact .inr (Callable.free_of_compile (faultOr_eq_ok he))
  | error f =>
    refine keeps_modifyModule (f := (·.addFault name f)) m (fun _ _ hg => ?_) w hw hF
    exact .inl hg

theorem keeps_addClassTo (c : ClassId) : Keeps F (addClassTo m c) := by
  refine .read (reads_classDecl c) fun d => ?_
  split <;> exact keeps_modifyModule m fun _ _ hg => .inl hg

variable (d : Option WitDef)

theorem keeps_addEnumTo : Keeps F (addEnumTo m d) := by
  refine (keeps_need d).bind fun d => ?_
  split <;> exact keeps_modifyModule m fun _ _ hg => .inl hg

theorem keeps_addRecordTo (type : Option NativeType) : Keeps F (addRecordTo m d type) := by
  refine (keeps_need d).bind fun d => .read (reads_faultOr _) fun r => ?_
  cases r with
  | error f => exact keeps_modifyModule m fun _ _ hg => .inl hg
  | ok codec =>
    simp only
    split <;> exact keeps_modifyModule m fun _ _ hg => .inl hg

/-! ## Classes of a bridge -/

theorem keeps_register (b : BridgeId) (c : ClassId) : Keeps F (register b c) := by
  intro w hw _
  refine Good.bind_reads hw (reads_checkDeclared c) fun _ _ =>
    Good.bind_reads hw (reads_classDecl c) fun d he =>
    Good.bind_reads hw (reads_bridge b) fun x hx => ?_
  split
  · split
    · exact .refl hw
    · exact Good.bind_reads hw (reads_classDecl _) fun _ _ => .refl hw
  · rename_i hnone
    refine Good.bind (R.alter hw (.enroll (exec_look_eq_ok.mp he).1 (exec_look_eq_ok.mp hx).1 hnone)) fun _ w' _ hg => ?_
    exact (keeps_log _ _ _ _).good hg.1

/-! ## Counters and the log -/

section

variable (b : BridgeId) (d : ClassDecl)

theorem keeps_reportPrototype : Keeps F (reportPrototype b d) := by
  refine Keeps.bind (keeps_modifyBridge ?_) fun _ =>
    .read (reads_bridge b) fun _ => keeps_log _ _ _ _
  exact fun _ => ⟨rfl, rfl, rfl⟩

theorem keeps_reportWrapped (ptr : HeapPtr) : Keeps F (reportWrapped b d ptr) :=
  .read (reads_bridge b) fun _ => keeps_log _ _ _ _

theorem keeps_reportFinalized [Uncounted R] : Keeps F (reportFinalized b d) := by
  refine Keeps.bind (keeps_recount ?_) fun _ =>
    .read (reads_bridge b) fun _ => keeps_log _ _ _ _
  exact fun _ => ⟨rfl, rfl⟩

end

theorem keeps_reportSevered [Uncounted R] (x : Record) : Keeps F (Ownership.reportSevered x) := by
  refine Keeps.bind (keeps_recount ?_) fun _ =>
    .read (reads_bridge x.bridge) fun _ =>
    .read (reads_classDecl x.cls) fun _ => keeps_log _ _ _ _
  exact fun _ => ⟨rfl, rfl⟩

/-! ## From the stack -/

theorem keeps_sliceOf (type : NativeType) (elems : List NativeValue) : Keeps F (sliceOf type elems) := by
  unfold sliceOf
  split
  · refine keeps_get.bind fun w => Keeps.bind (keeps_modify fun _ => ?_) fun _ => keeps_pure _
    exact .of_state rfl rfl
  · exact keeps_pure _

theorem keeps_pointerTo (target : NativeType) (v : NativeValue) : Keeps F (pointerTo target v) := by
  unfold pointerTo
  split
  · refine keeps_get.bind fun w => Keeps.bind (fun w' hw _ => ?_) fun _ => keeps_pure _
    exact R.alter hw (.newNative rfl fun _ => rfl)
  · exact keeps_pure _

theorem keeps_requireProp (h : HeapId) (obj : Int) (key : String) (absent : Fault)
    {read : M NativeValue} (hread : Keeps F read) :
    Keeps F (requireProp h obj key absent read) := by
  refine Keeps.bind (keeps_onHeap amends_getProp) fun found => ?_
  simp only [fail_bind]
  refine .ite (fun _ => (keeps_popN h 1).bind fun _ => keeps_fail _) fun _ => ?_
  exact (hread.onFault (keeps_popN h 1)).bind fun v => (keeps_popN h 1).bind fun _ => keeps_pure v

/-- Rules for a property of computations by which reading values has it. -/
structure ReadingRules (L : ∀ {α : Type}, M α → Prop) : Prop where
  reads : ∀ {α : Type} {x : M α}, Reads x → L x
  bind : ∀ {α β : Type} {x : M α} {f : α → M β}, L x → (∀ a, L (f a)) → L (x >>= f)
  prop : ∀ h obj key absent {read : M NativeValue}, L read → L (requireProp h obj key absent read)
  slice : ∀ type elems, L (sliceOf type elems)
  pointer : ∀ target v, L (pointerTo target v)

namespace ReadingRules

variable {L : ∀ {α : Type}, M α → Prop}

theorem elements (hL : ReadingRules L) {read : Nat → M NativeValue} (hread : ∀ i, L (read i)) (k i : Nat)
    (acc : List NativeValue) : L (requireElements read k i acc) := by
  induction k generalizing i acc with
  | zero => exact hL.reads (reads_pure _)
  | succ k ih => exact hL.bind (hread i) fun v => ih (i + 1) (v :: acc)

mutual

theorem value (hL : ReadingRules L) (codec : Codec) (i : Int) (path : List String) :
    L (requireValue b codec i path) := by
  match codec with
  | .mk type name shape =>
    exact hL.bind (hL.reads (reads_bridge b)) fun x => hL.shape x.heapId type name shape i path

theorem shape (hL : ReadingRules L) (h : HeapId) (type : NativeType) (name : String) (shape : CodecShape)
    (i : Int) (path : List String) : L (requireShape b h type name shape i path) := by
  match shape with
  | .bool | .float _ | .string =>
    rw [requireShape]
    refine hL.reads ((reads_heap h).bind fun s => ?_)
    split
    · exact reads_need _
    · exact reads_failType h type i path
  | .int _ _ | .enum _ =>
    rw [requireShape]
    refine hL.reads ((reads_heap h).bind fun s => ?_)
    split
    · exact (reads_ofExcept _).bind fun _ => reads_need _
    · exact reads_failType h type i path
  | .bytes =>
    rw [requireShape]
    refine hL.reads ((reads_readHeap h _).bind fun isBuffer => .ite ?_ ?_)
    · refine (reads_catchFault (reads_readHeap h _)).bind fun r => ?_
      cases r with
      | ok s => exact reads_need _
      | error f => exact reads_fail _
    · exact (reads_readHeap h _).bind fun _ => reads_fail _
  | .record fields =>
    rw [requireShape]
    refine hL.bind (hL.reads (reads_heap h)) fun s => hL.bind (hL.reads (reads_readHeap h _)) fun _ =>
      hL.bind (hL.reads (reads_readHeap h _)) fun _ => ?_
    split
    · exact hL.reads (reads_failType h type i path)
    refine hL.bind (hL.reads (reads_readHeap h _)) fun _ => hL.bind (hL.reads (reads_absolute h i)) fun obj => ?_
    split
    · exact hL.fields h obj type fields _ path
    · exact hL.reads (reads_crash _)
  | .list elem =>
    rw [requireShape]
    refine hL.bind (hL.reads (reads_heap h)) fun s => hL.bind (hL.reads (reads_readHeap h _)) fun _ => ?_
    split
    · exact hL.reads (reads_failType h type i path)
    refine hL.bind (hL.reads (reads_readHeap h _)) fun _ => hL.bind (hL.reads (reads_absolute h i)) fun obj =>
      hL.bind (hL.reads (reads_readHeap h _)) fun claimed => ?_
    split
    · exact hL.reads ((reads_readHeap h _).bind fun _ => reads_fail _)
    · refine hL.bind (hL.reads (reads_need _)) fun t =>
        hL.bind (hL.elements (fun k => ?_) _ _ _) fun elems => hL.slice type elems
      exact hL.bind (hL.prop h obj _ _ (hL.value elem _ _)) fun v => hL.reads (reads_assign _ _ v)
  | .option elem =>
    rw [requireShape]
    refine hL.bind (hL.reads (reads_heap h)) fun s => ?_
    split
    · exact hL.reads (reads_pure _)
    refine hL.bind (hL.value elem i path) fun v => ?_
    split
    · exact hL.reads (reads_pure _)
    · exact hL.bind (hL.pointer _ _) fun v => hL.reads (reads_assign _ _ v)
  | .own resource =>
    rw [requireShape]
    refine hL.reads ((reads_classForResource b resource).bind fun c =>
      (reads_catchFault (reads_unwrap b i c)).bind fun r => ?_)
    cases r with
    | error f => exact reads_fail _
    | ok o => exact (reads_native o).bind fun x => .ite (reads_pure _) (reads_fail _)

theorem fields (hL : ReadingRules L) (h : HeapId) (obj : Int) (type : NativeType) (fields : CodecFields)
    (values : List NativeValue) (path : List String) : L (requireFields b h obj type fields values path) := by
  match fields with
  | .nil =>
    rw [requireFields]
    exact hL.reads (reads_pure _)
  | .cons name _ index codec rest =>
    rw [requireFields]
    exact hL.bind (hL.prop h obj name _ (hL.value codec _ _)) fun v => hL.bind (hL.reads (reads_need _)) fun t =>
      hL.bind (hL.reads (reads_assign _ t v)) fun _ => hL.fields h obj type rest _ path

end

end ReadingRules

theorem keeps_requireValue (codec : Codec) (i : Int) (path : List String) : Keeps F (requireValue b codec i path) :=
  ReadingRules.value (L := Keeps F) ⟨keeps_of_reads, .bind, keeps_requireProp, keeps_sliceOf, keeps_pointerTo⟩
    codec i path

theorem keeps_requireArguments (fn : String) (i : Nat) (codecs : List Codec)
    (params : List (String × WitType)) : Keeps F (requireArguments b fn i codecs params) := by
  induction codecs generalizing i params with
  | nil =>
    unfold requireArguments
    exact keeps_pure _
  | cons codec codecs ih =>
    cases params with
    | nil => exact keeps_pure _
    | cons param params =>
      exact (keeps_requireValue codec _ _).bind fun v => (ih (i + 1) params).returns

theorem keeps_requireReceiver (h : HeapId) (c : Callable) : Keeps F (requireReceiver b h c) := by
  unfold requireReceiver
  split
  · exact keeps_pure _
  · refine (keeps_readHeap h _).bind fun _ => Keeps.bind (keeps_modifyHeap ?_) fun _ =>
      (keeps_of_reads (reads_unwrap b _ _)).catchFault.bind fun o => (keeps_popN h 1).bind fun _ => ?_
    · intro w s _ _ _
      refine amends_push fun hs => ?_
      unfold this
      split
      · rename_i f rest hf
        exact (hs.frames f (by rw [hf]; exact List.mem_cons_self)).2
      · exact holdsValue_of_ne rfl
    · cases o with
      | ok o => exact keeps_pure _
      | error f => exact keeps_fail _

def Propers (fs : List Callable) : R.Fact :=
  ⟨fun w => ∀ f ∈ fs, R.proper f w, fun hr h f hf => R.proper_stable hr (h f hf)⟩

theorem keeps_withClass {f : ClassDecl → M α} (hf : ∀ d, Keeps ((Propers d.callables).and F) (f d)) :
    Keeps F (classDecl c >>= f) := by
  refine (keeps_of_reads (reads_classDecl c)).bind_fact (fun d w w' hw hF he _ => ?_) hf
  obtain ⟨hd, rfl⟩ := exec_look_eq_ok.mp he
  exact ⟨fun _ hm => R.proper_class hw hd hm, hF⟩

theorem keeps_withModule {m : Nat} {f : ModuleDecl → M α}
    (hf : ∀ d, Keeps ((Propers d.functions).and F) (f d)) : Keeps F (moduleDecl m >>= f) := by
  refine (keeps_of_reads (reads_moduleDecl m)).bind_fact (fun d w w' hw hF he _ => ?_) hf
  obtain ⟨hd, rfl⟩ := exec_look_eq_ok.mp he
  exact ⟨fun _ hm => R.proper_module hw hd hm, hF⟩

theorem keeps_breachTypes {x : M α} (hx : Keeps ((Fits c o).and F) x) :
    Keeps F (breach (fun w => { types := !w.takes c o }) >>= fun _ => x) := by
  refine (keeps_breach _).bind_of fun _ w w' hw hF he hg => ?_
  cases he
  refine hx _ hg.1 ⟨R.fits_admits ?_, F.stable hg.2 hF⟩
  show (w.breaches.types || !w.takes c o) = true ∨ w.takes c o = true
  cases w.takes c o <;> simp

section Upheld

variable (hu : R.Upholds n) (hb : F.Gives (Usable b))
include hu hb

/-! ## To the stack -/

theorem keeps_wrap (hc : F.Gives (Fits c o)) : Keeps F (wrap (hostAt n) b o c) :=
  fun w hw hF => hu.wraps w b o c hw (hb w hF) (hc w hF)

theorem keeps_pushPrototype (c : ClassId) : Keeps F (pushPrototype (hostAt n) b c) :=
  fun w hw hF => hu.prototypes w b c hw (hb w hF)

theorem keeps_prototype (c : ClassId) : Keeps F (prototype (hostAt n) b c) :=
  (keeps_register b c).bind fun _ => keeps_pushPrototype hu hb c

theorem keeps_pushNative (o : Option NativeId) : Keeps F (pushNative (hostAt n) b o) := by
  cases o with
  | none =>
    exact .read (reads_bridge b) fun x =>
      (keeps_readHeap _ _).bind fun _ => keeps_push rfl
  | some o =>
    intro w hw hF
    refine Good.bind_reads hw (reads_native o) fun x hx =>
      Good.bind_reads hw (reads_classForType b _) fun c hc => ?_
    obtain ⟨br, hbr, hc⟩ := exec_classForType hc
    exact hu.wraps w b o c hw (hb w hF) (R.fits_enrolled hw hbr (exec_look_eq_ok.mp hx).1 hc)

omit hu hb in
theorem keeps_pushElements (h : HeapId) (obj : Int) {push : NativeValue → Nat → M Unit}
    (hpush : ∀ v i, Keeps F (push v i)) (i : Nat) (elems : List NativeValue) :
    Keeps F (pushElements h obj push i elems) := by
  induction elems generalizing i with
  | nil => exact keeps_pure _
  | cons v rest ih =>
    exact ((hpush v i).onFault (keeps_popN h 1)).bind fun _ =>
      (keeps_putProp h obj _).ignoreFault.bind fun _ => ih (i + 1)

end Upheld

mutual

theorem keeps_pushValue (hu : R.Upholds n) (hb : F.Gives (Usable b)) (codec : Codec)
    (v : NativeValue) (path : List String) : Keeps F (pushValue (hostAt n) b codec v path) := by
  match codec with
  | .mk type name shape =>
    exact .read (reads_bridge b) fun x => (keeps_readHeap _ _).bind fun _ =>
      keeps_pushShape hu hb x.heapId type name shape v path

theorem keeps_pushShape (hu : R.Upholds n) (hb : F.Gives (Usable b)) (h : HeapId)
    (type : NativeType) (name : String) (shape : CodecShape) (v : NativeValue) (path : List String) :
    Keeps F (pushShape (hostAt n) b h type name shape v path) := by
  have hwrap : ∀ resource o, Keeps F (do
      let c ← classForResource b resource
      breach fun w => { types := !w.takes c o }
      match ← catchFault (wrap (hostAt n) b o c) with
      | .ok () => return ()
      | .error f => fail (f.locate path) : M Unit) := by
    intro resource o
    refine .read (reads_classForResource b resource) fun c => keeps_breachTypes ?_
    have hb' : ((Fits c o).and F).Gives (Usable b) := fun w hF => hb w hF.2
    refine (keeps_wrap hu hb' Fact.and_left).catchFault.bind fun r => ?_
    cases r with
    | ok _ => exact keeps_pure _
    | error f => exact keeps_fail _
  rw [pushShape.eq_def]
  -- One case for each way to cross; a value that does not fit its codec is a crash.
  split
  · exact keeps_push rfl
  · exact keeps_push rfl
  · exact keeps_push rfl
  · refine .ite (fun _ => ?_) fun _ => keeps_crash _
    split
    · exact keeps_push rfl
    · exact keeps_fail _
  · exact .ite (fun _ => keeps_push rfl) fun _ => keeps_fail _
  · exact keeps_pushExternal hu.collects h _
  · exact keeps_pushExternal hu.collects h _
  · exact (keeps_readHeap h _).bind fun _ => (keeps_pushObject hu.collects h).bind fun obj =>
      keeps_pushFields hu hb h obj _ _ _
  · refine (keeps_readHeap h _).bind fun _ => (keeps_pushObject hu.collects h).bind fun obj =>
      .read (reads_sliceElements _) fun elems => ?_
    refine (keeps_pushElements h obj (fun v i => ?_) 0 elems).bind fun _ =>
      (keeps_push rfl).bind fun _ => (keeps_putProp h obj _).ignoreFault
    exact keeps_pushValue hu hb _ v _
  · exact keeps_push rfl
  · refine .ite (fun _ => keeps_pushValue hu hb _ _ _) fun _ => ?_
    split
    · exact keeps_pushValue hu hb _ _ _
    · exact keeps_pushValue hu hb _ _ _
    · exact keeps_crash _
  · exact keeps_fail _
  · exact hwrap _ _
  · exact keeps_crash _

theorem keeps_pushFields (hu : R.Upholds n) (hb : F.Gives (Usable b)) (h : HeapId) (obj : Int)
    (fields : CodecFields) (values : List NativeValue) (path : List String) :
    Keeps F (pushFields (hostAt n) b h obj fields values path) := by
  match fields with
  | .nil =>
    rw [pushFields]
    exact keeps_pure _
  | .cons name _ index codec rest =>
    rw [pushFields]
    refine (keeps_need _).bind fun v =>
      ((keeps_pushValue hu hb codec v _).onFault (keeps_popN h 1)).bind fun _ => ?_
    exact ((keeps_putProp h obj name).onFault (keeps_popN h 1)).bind fun _ =>
      keeps_pushFields hu hb h obj rest values path

end

section Upheld

variable (hu : R.Upholds n) (hb : F.Gives (Usable b))
include hu hb

/-! ## Bound functions -/

omit hu hb in
/-- That the receiver of a method, if it is one, is of a class that the method is of. -/
def Received (f : Callable) (receiver : List NativeValue) : R.Fact :=
  ⟨fun w => receiver = [] ∨ ∃ c o, f.receiver = some c ∧ receiver = [.object o] ∧ R.fits c o w,
    fun hr h => h.imp id fun ⟨c, o, hc, ho, hfits⟩ => ⟨c, o, hc, ho, R.fits_stable hr hfits⟩⟩

omit hu hb in
theorem received_of_requireReceiver (hw : R.inv w') (he : (requireReceiver b h f).exec w = (.ok receiver, w')) :
    (Received (R := R) f receiver).holds w' := by
  rcases record_of_requireReceiver he with rfl | ⟨r, x, j, sh, hx, hf, hj, hsh, rfl⟩
  · exact .inl rfl
  · exact .inr ⟨x.cls, sh.object, hf, rfl, R.fits_held hw hx hj hsh⟩

omit hb in
theorem conforms_apply {c : Callable} {out : List NativeValue} {inputs : List NativeType}
    {output : NativeType} {variadic : Bool} (hw : R.inv w)
    (htypes : c.fn.types? = some (inputs, output :: outputs, variadic))
    (he : (apply (hostAt n) c receiver args).exec w = (.ok out, w')) :
    w'.Conforms output (out.headD .nil) := by
  obtain ⟨_, w2, hgiven, happly⟩ := bind_ok_iff.mp he
  unfold checkGiven at hgiven
  rw [bind_ok (exec_need_eq_ok.mpr ⟨htypes, rfl⟩)] at hgiven
  obtain ⟨_, w1, hreceived, hchecked⟩ := bind_ok_iff.mp hgiven
  obtain ⟨rfl, hreceiver⟩ := conforms_of_forM (fun _ _ _ _ => conforms_of_check) hreceived
  obtain ⟨rfl, hargs⟩ := conforms_of_forM (fun _ _ _ _ => conforms_of_check (x := pure ())) hchecked
  refine hu.serves.conforms w2 w' c.fn _ out inputs output outputs variadic hw htypes (fun type v hmem => ?_) happly
  rw [zip_append_drop] at hmem
  rcases List.mem_append.mp hmem with hmem | hmem
  · exact hreceiver (type, v) hmem
  · exact hargs (type, v) hmem

omit hb in
theorem keeps_apply {c : Callable} (hc : F.Gives (Proper c)) (hr : F.Gives (Received c receiver))
    (args : List NativeValue) : Keeps F (apply (hostAt n) c receiver args) := by
  refine Keeps.bind (fun w hw hF => ?_) fun _ w hw _ => hu.serves.apply w c.fn _ hw
  refine Good.bind_reads hw (reads_need _) fun (types, outputs, variadic) htypes => ?_
  have htypes := (exec_need_eq_ok.mp htypes).1
  have hrest : Keeps F (((types.drop receiver.length).zip args).forM fun p => do
      if !(← accepts p.1 p.2) then crash .runtime : M PUnit) := by
    refine Keeps.forM fun p _ => .read (reads_accepts _ _) fun ok => ?_
    exact .ite (fun _ => keeps_crash _) fun _ => keeps_pure _
  refine Keeps.bind (Keeps.forM fun p hp w hw hF => ?_) (fun _ => hrest) w hw hF
  refine Good.bind_reads hw (reads_accepts _ _) fun ok hok => ?_
  cases ok with
  | true => exact .refl hw
  | false =>
    -- A receiver that is not taken is the object of a record of the class.
    rcases hr w hF with rfl | ⟨cls, o, hreceiver, rfl, hfits⟩
    · simp at hp
    · cases types with
      | nil => simp at hp
      | cons first inputs =>
        obtain rfl : p = (first, .object o) := by simpa using hp
        exact R.misfit hw (hc w hF) hreceiver hfits htypes (exec_accepts_false hok)

omit hb in
theorem keeps_releaseShare {s : ShareId} (hs : F.Gives (Loose s)) : Keeps F (Ownership.release (hostAt n) s) :=
  fun w hw hF => hu.releases w s hw (hs w hF)

variable (c : Callable)

theorem keeps_pushConstructed (cls : ClassId) (v : NativeValue) (hv : ∀ o, v = .object o → F.Gives (Fits cls o)) :
    Keeps F (pushConstructed (hostAt n) b c cls v) := by
  unfold pushConstructed
  split
  · rename_i o
    refine Keeps.bind_fact (G := fun s => (Loose s).and F) (keeps_take o) ?_ fun s => ?_
    · intro s w w' hw hF he hg
      exact ⟨(good_take o hw).2 s w' he, F.stable hg.2 hF⟩
    · have husable : ((Loose s).and F).Gives (Usable b) := fun w h => hb w h.2
      have hfits : ((Loose s).and F).Gives (Fits cls o) := fun w h => hv o rfl w h.2
      exact (keeps_wrap hu husable hfits).catchFault.bind fun done =>
        (keeps_releaseShare hu Fact.and_left).bind fun _ =>
        (keeps_ofExcept done).returns
  · exact keeps_fail _

variable (out : List NativeValue)

omit hu hb in
def Made : R.Fact :=
  ⟨fun w => ∀ cls o, c.makes = some cls → out.headD .nil = .object o → R.fits cls o w,
    fun hr h cls o hmakes ho => R.fits_stable hr (h cls o hmakes ho)⟩

theorem keeps_pushResult (v : NativeValue) (hv : ∀ cls o, c.makes = some cls → v = .object o → F.Gives (Fits cls o)) :
    Keeps F (pushResult (hostAt n) b c v) := by
  unfold pushResult
  cases hmakes : c.makes with
  | some cls => exact keeps_pushConstructed hu hb c cls _ fun o ho => hv cls o hmakes ho
  | none =>
    cases c.result with
    | some codec => exact (keeps_pushValue hu hb _ _ _).returns
    | none => exact keeps_pure _

theorem keeps_deliver (hout : ∀ cls o, c.makes = some cls → out.headD .nil = .object o → F.Gives (Fits cls o)) :
    Keeps F (deliver (hostAt n) b c out) := by
  refine .ite (fun _ => ?_) fun _ => keeps_pushResult hu hb c _ hout
  split
  · exact keeps_fail _
  · exact keeps_pushResult hu hb c _ hout

omit hu hb in
theorem keeps_gather : Keeps F (gather b c) := by
  refine .read (reads_bridge b) fun x => (keeps_heap _).bind fun s => ?_
  simp only [fail_bind]
  exact .ite (fun _ => keeps_fail _) fun _ => (keeps_requireReceiver _ c).bind fun _ =>
    (keeps_requireArguments c.name 0 c.params c.sig.params).returns

omit hu hb in
theorem received_of_gather {c : Callable} (hw : R.inv w) (he : (gather b c).exec w = (.ok (receiver, args), w')) :
    (Received (R := R) c receiver).holds w' := by
  obtain ⟨x, -, he⟩ := look_bind_eq_ok he
  obtain ⟨s, -, he⟩ := look_bind_eq_ok he
  simp only [fail_bind] at he
  split at he
  · cases he
  obtain ⟨_, w1, hr, he⟩ := bind_ok_iff.mp he
  obtain ⟨_, w2, ha, he⟩ := bind_ok_iff.mp he
  obtain ⟨hpair, rfl⟩ := Prod.mk.inj he
  cases hpair
  have hg1 : R.Good w w1 := after_eq hr ▸ (keeps_requireReceiver x.heapId c).good hw
  have hg2 : R.Good w1 w2 := after_eq ha ▸ (keeps_requireArguments c.name 0 c.params c.sig.params).good hg1.1
  exact (Received c _).stable hg2.2 (received_of_requireReceiver hg1.1 hr)

omit hb in
theorem keeps_invoke {c : Callable} (hc : F.Gives (Bound b c)) : Keeps F (invoke (hostAt n) b c) := by
  refine (keeps_gather c).bind_fact (G := fun p => (Received c p.1).and F)
    (fun p w w' hw hF he hg => ⟨received_of_gather hw he, F.stable hg.2 hF⟩) fun (receiver, args) =>
    (keeps_apply hu (fun w hF => (hc w (Fact.and_right w hF)).2) Fact.and_left _).bind_of
    fun out w w' hw hF he hg => ?_
  have hF' := F.stable hg.2 hF.2
  -- An object that a constructor gives is of the type that was declared.
  have hproper : R.proper c w' := (hc w' hF').2
  have hfits : ∀ cls o, c.makes = some cls → out.headD .nil = .object o → R.fits cls o w' := by
    intro cls o hmakes ho
    refine R.fits_made hproper hmakes fun inputs output outputs variadic htypes => ?_
    rw [← ho]
    exact conforms_apply hu hw htypes he
  exact keeps_deliver (F := (Made c out).and F) hu (fun w h => (hc w h.2).1) c out
    (fun cls o hmakes ho w h => h.1 cls o hmakes ho) w' hg.1 ⟨hfits, hF'⟩

/-! ## Modules -/

theorem keeps_pushClass (h : HeapId) (c : ClassId) : Keeps F (pushClass (hostAt n) b h c) := by
  refine keeps_withClass fun d => ?_
  have hb' : ((Propers d.callables).and F).Gives (Usable b) := fun w hF => hb w hF.2
  have hrest : Keeps ((Propers d.callables).and F) (do
      onFault (pushPrototype (hostAt n) b c) (changeHeap h (·.popN 2))
      ignoreFault (changeHeap h (·.putProp (-2) "prototype")) : M Unit) :=
    ((keeps_pushPrototype hu hb' c).onFault (keeps_popN h 2)).bind fun _ =>
      (keeps_putProp h _ _).ignoreFault
  split
  · rename_i f hf
    refine (keeps_pushFunc hu.collects h _ _ _ fun b' c' he => ?_).bind fun _ => hrest
    obtain ⟨rfl, rfl⟩ := Code.bound.inj (Option.some.inj he)
    have hmem : f ∈ d.callables := List.mem_append_right _ (by rw [hf]; exact List.mem_singleton_self f)
    exact fun w hF => ⟨hb w hF.2, hF.1 f hmem⟩
  · exact (keeps_pushObject hu.collects h).bind fun _ => hrest

omit hb in
theorem keeps_pushCases (h : HeapId) (cases : List String) : Keeps F (pushCases (hostAt n) h cases) := by
  refine (keeps_pushObject hu.collects h).bind fun table => Keeps.forM fun p _ => ?_
  exact (keeps_push rfl).bind fun _ => (keeps_putProp h _ _).ignoreFault

theorem keeps_pushNamespace (d : ModuleDecl) :
    Keeps ((Propers d.functions).and F) (pushNamespace (hostAt n) b d) := by
  have hb' : ((Propers d.functions).and F).Gives (Usable b) := fun w hF => hb w hF.2
  refine (Keeps.forM fun c _ => keeps_register b c).bind fun _ =>
    .read (reads_bridge b) fun x => (keeps_readHeap _ _).bind fun _ =>
    (keeps_pushObject hu.collects _).bind fun ns =>
    (Keeps.forM fun f hf => ?_).bind fun _ => (Keeps.forM fun c _ => ?_).returns
  · refine (keeps_pushFunc hu.collects _ _ _ _ fun b' c' he => ?_).bind fun _ =>
      (keeps_putProp _ _ _).ignoreFault
    obtain ⟨rfl, rfl⟩ := Code.bound.inj (Option.some.inj he)
    exact fun w hF => ⟨hb w hF.2, hF.1 f hf⟩
  · exact (keeps_pushClass hu hb' _ c).bind fun _ =>
      .read (reads_classDecl c) fun _ => (keeps_putProp _ _ _).ignoreFault

theorem keeps_pushModule (m : Nat) : Keeps F (pushModule (hostAt n) b m) :=
  .read (reads_checkModule m) fun _ => keeps_withModule fun d => (keeps_pushNamespace hu hb d).bind fun _ =>
    (Keeps.forM fun _ _ => (keeps_pushCases hu _ _).bind fun _ => (keeps_putProp _ _ _).ignoreFault).bind fun _ =>
    .read (reads_bridge b) fun _ => keeps_log _ _ _ _

theorem keeps_install (m : Nat) : Keeps F (install (hostAt n) b m) := by
  refine .read (reads_bridge b) fun x => (keeps_readHeap _ _).bind fun _ =>
    Keeps.bind (keeps_modifyHeap ?_) fun _ =>
    ((keeps_pushModule hu hb m).onFault (keeps_popN _ 1)).bind fun _ =>
    .read (reads_moduleDecl m) fun _ =>
    (keeps_putProp _ _ _).catchFault.bind fun done => (keeps_popN _ 1).bind fun _ =>
    keeps_ofExcept done
  intro w s _ _ _
  exact amends_push fun hs => holdsValue_object.mpr hs.global

end Upheld

end Tether.Regime
