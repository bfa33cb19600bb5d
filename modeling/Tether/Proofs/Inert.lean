import Tether.Proofs.Operations.Bridge

/-!
# Programs that only read

The finalizers and destructors that the rules of bridges permit are inert: whatever they do, heaps,
bridges, classes, native objects, shares and records stay as they are.
-/

namespace Tether

variable {h : HeapId} {a : Action Program}

namespace M

variable {α β : Type}

def Quiet (x : M α) : Prop := ∀ w : World, w.Silent (x.after w)

variable {x : M α}

theorem Reads.quiet (hx : Reads x) : Quiet x := by
  intro w
  rw [hx w]
  exact .refl w

theorem Quiet.bind {f : α → M β} (hx : Quiet x) (hf : ∀ a, Quiet (f a)) : Quiet (x >>= f) := by
  intro w
  rcases he : x.exec w with ⟨e | a, w'⟩
  · rw [after_bind_error he, ← after_eq he]
    exact hx w
  · rw [after_bind_ok he]
    have h := hx w
    rw [after_eq he] at h
    exact h.trans (hf a w')

theorem quiet_pure (a : α) : Quiet (pure a : M α) := (reads_pure a).quiet

theorem Quiet.returns {f : α → β} (hx : Quiet x) : Quiet (x >>= fun a => pure (f a)) :=
  hx.bind fun a => quiet_pure (f a)

theorem quiet_crash (c : Crash) : Quiet (crash c : M α) := (reads_crash c).quiet

theorem quiet_get : Quiet (get : M World) := reads_get.quiet

theorem quiet_heap (h : HeapId) : Quiet (heap h) := (reads_heap h).quiet

theorem quiet_readHeap (h : HeapId) (f : Heap → Except Stop α) : Quiet (readHeap h f) := (reads_readHeap h f).quiet

theorem Quiet.catchAll (hx : Quiet x) : Quiet (catchAll x) := hx

theorem Quiet.andFinally {y : M Unit} (hx : Quiet x) (hy : Quiet y) : Quiet (andFinally x y) := by
  intro w
  rw [after_andFinally]
  exact (hx w).trans (hy _)

theorem Quiet.ite {c : Prop} [Decidable c] {x y : M α} (hx : Quiet x) (hy : Quiet y) :
    Quiet (if c then x else y) := by
  split
  · exact hx
  · exact hy

theorem quiet_modify {f : World → World} (hf : ∀ w : World, w.Silent (f w)) : Quiet (modify f : M Unit) := hf

theorem quiet_modifyNames {f : Names → Names} (hf : ∀ names, (f names).shares = names.shares) :
    Quiet (modifyNames f) :=
  quiet_modify fun w => .of_state (congrArg (fun l => { w.state with named := l }) (hf w.names)) rfl

theorem quiet_recallStep : Quiet (remember fun w => .step w.state) := World.silent_recalling

theorem quiet_trace (e : Event) : Quiet (trace e) := fun _ => .of_state rfl rfl

theorem quiet_amend (i : Nat) (f : Event → Event) : Quiet (amend i f) := quiet_modify fun _ => .of_state rfl rfl

end M

open M Regime Bridge Heap

variable {host : Host}

theorem M.Quiet.keeps {R : Regime} {F : R.Fact} {α : Type} {x : M α} (hx : Quiet x) : Keeps F x :=
  fun w hw _ => R.silent hw (hx w)

/-! ## Names -/

theorem reads_currentHeap : Reads currentHeap := reads_get.returns

theorem reads_currentBridge : Reads currentBridge := reads_get.bind fun _ => reads_need _

variable (name : String)

theorem reads_objectNamed : Reads (objectNamed name) := reads_get.bind fun _ => reads_need _

theorem reads_shareNamed : Reads (shareNamed name) := reads_get.bind fun _ => reads_need _

theorem reads_classNamed? : Reads (classNamed? name) := reads_get.returns

theorem reads_classNamed (name : String) : Reads (classNamed name) :=
  (reads_classNamed? name).bind fun _ => reads_need _

theorem reads_moduleNamed : Reads (moduleNamed name) := reads_get.bind fun _ => reads_need _

theorem reads_bytesNamed : Reads (bytesNamed name) := reads_get.returns

theorem reads_payloadOf (p : PayloadSpec) : Reads (payloadOf p) := by
  cases p with
  | record object =>
    exact (reads_objectNamed object).bind fun o => (reads_native o).returns
  | _ => exact reads_pure _

theorem reads_symbolOf (sym : SymbolSpec) : Reads (symbolOf sym) := by
  cases sym with
  | name s => exact reads_pure _
  | ofClass cls =>
    exact (reads_classNamed cls).bind fun c => (reads_classDecl c).returns

theorem reads_tokenView (o : NativeId) : Reads (tokenView o) := (reads_native o).bind fun _ => reads_get.returns

theorem reads_codecFor (wit : WitType) (type : Option NativeType) (must : Bool) : Reads (codecFor wit type must) := by
  unfold codecFor
  split
  · exact reads_pure _
  · exact .ite (reads_crash _) (reads_fail _)
  · exact reads_throw _

/-! ## Steps -/

theorem quiet_silently {α : Type} {x : M α} (hx : Quiet x) : Quiet (silently x) := hx.returns

theorem quiet_performStack {step : StackStep} (hi : step.inert = true) : Quiet (performStack host h step) := by
  cases step with
  | getTop | index | equals => exact (quiet_heap h).returns
  | requireStack k => exact quiet_silently (quiet_readHeap h _)
  | inspect i => exact quiet_get.bind fun _ => (quiet_readHeap h _).returns
  | require i want =>
    simp only [performStack]
    split
    · exact (quiet_readHeap h _).returns
    · exact (quiet_readHeap h _).returns
    · exact (quiet_readHeap h _).returns
    · exact quiet_get.bind fun _ => (quiet_readHeap h _).returns
    · exact quiet_silently (quiet_readHeap h _)
  | dump => exact quiet_get.bind fun _ => (quiet_heap h).returns
  | reveal i k => exact (quiet_heap h).bind fun _ => quiet_get.returns
  | pushUndefined | pushNull | pushBoolean | pushNumber | pushString | pushPointer | pushObject
  | pushGlobal | pushStash | pushThis | pushCurrent | setTop | pop | popN | dup | dupTop | swap
  | remove | insert => cases hi

theorem quiet_performProperty {step : PropertyStep} (hi : step.inert = true) : Quiet (performProperty h step) := by
  cases step with
  | has i k => exact (quiet_heap h).returns
  | keys i => exact (quiet_readHeap h _).returns
  | hasHidden i sym =>
    exact (reads_symbolOf sym).quiet.bind fun k =>
      (quiet_readHeap h _).returns
  | symbol k => exact quiet_pure _
  | heapPtr i keep =>
    refine (quiet_readHeap h _).bind fun p => ?_
    cases keep with
    | none => exact quiet_pure _
    | some name => exact Quiet.bind (quiet_modifyNames fun _ => rfl) fun _ => quiet_pure _
  | put | get | del | putHidden | getHidden | delHidden | getPrototype | setPrototype | getFinalizer
  | setFinalizer | pushHeapPtr => cases hi

theorem quiet_writeInto (s : Option Slice) (offset : Int) (data : List UInt8) : Quiet (writeInto s offset data) := by
  unfold writeInto
  refine .ite (quiet_crash _) ?_
  split
  · exact quiet_pure _
  · exact Quiet.bind (quiet_modify fun _ => .of_state rfl rfl) fun _ => quiet_pure _

theorem quiet_keepBytes (name : String) (s : Option Slice) : Quiet (keepBytes name s) :=
  quiet_modifyNames fun _ => rfl

theorem quiet_newBytes (data : List UInt8) : Quiet (newBytes data) := by
  refine quiet_get.bind fun w => Quiet.bind (quiet_modify fun _ => ?_) fun _ => quiet_pure _
  exact .of_state rfl rfl

theorem quiet_performBuffer {step : BufferStep} (hi : step.inert = true) : Quiet (performBuffer host h step) := by
  cases step with
  | get i => exact (quiet_readHeap h _).bind fun _ => quiet_get.returns
  | require i => exact quiet_get.bind fun _ => (quiet_readHeap h _).returns
  | keep i name =>
    exact (quiet_readHeap h _).bind fun s => quiet_silently (quiet_keepBytes name s)
  | write i offset data =>
    exact (quiet_readHeap h _).bind fun s =>
      (quiet_writeInto s offset data).returns
  | newBytes name data =>
    exact (quiet_newBytes data).bind fun s => quiet_silently (quiet_keepBytes name (some s))
  | setByte name offset byte =>
    refine (reads_bytesNamed name).quiet.bind fun s => ?_
    cases s with
    | none => exact quiet_crash _
    | some s =>
      refine .ite (quiet_crash _) ?_
      exact Quiet.bind (quiet_modify fun _ => .of_state rfl rfl) fun _ => quiet_pure _
  | bytes name =>
    exact (reads_bytesNamed name).quiet.bind fun _ =>
      quiet_get.returns
  | push | pushExternal | detach => cases hi

theorem quiet_performObject {step : ObjectStep Program} (hi : step.inert = true) :
    Quiet (performObject host step) := by
  cases step with
  | token object =>
    exact (reads_objectNamed object).quiet.bind fun o =>
      (reads_tokenView o).quiet.returns
  | inspectShare name =>
    exact (reads_shareNamed name).quiet.bind fun s => (reads_share s).quiet.bind fun x =>
      (reads_control _).quiet.bind fun _ => quiet_get.returns
  | make | resetToken | copyToken | share | clone | release | dispose =>
    cases hi

theorem quiet_performBridge {step : BridgeStep} (hi : step.inert = true) : Quiet (performBridge host h step) := by
  have hbridge : ∀ {f : BridgeId → M Reply}, (∀ b, Quiet (f b)) → Quiet (currentBridge >>= f) :=
    fun hf => reads_currentBridge.quiet.bind hf
  cases step with
  | fromHeap noHeap =>
    exact (reads_attachedTo _).quiet.bind fun _ => quiet_get.returns
  | stats => exact hbridge fun b => (reads_bridge b).quiet.returns
  | unwrap i type =>
    exact hbridge fun b => (reads_unwrapType b i type).quiet.bind fun _ =>
      quiet_get.returns
  | unwrapAs i cls =>
    exact hbridge fun b => (reads_classNamed cls).quiet.bind fun c =>
      (reads_unwrap b i c).quiet.bind fun _ => quiet_get.returns
  | recordAt i =>
    exact hbridge fun b => (reads_recordAt b i).quiet.bind fun _ =>
      quiet_get.returns
  | make | pushNative | wrapShare | wrapObject => cases hi

theorem quiet_performClass {step : ClassStep Program} (hi : step.inert = true) : Quiet (performClass host step) := by
  cases step with
  | info cls =>
    exact (reads_classNamed cls).quiet.bind fun c =>
      (reads_classDecl c).quiet.returns
  | list =>
    refine reads_currentBridge.quiet.bind fun b => (reads_bridge b).quiet.bind fun x =>
      (reads_mapM fun p => ?_).quiet.returns
    exact (reads_classDecl p.2).returns
  | declare | setConstructor | addMethod | register | prototype => cases hi

theorem quiet_performModule {step : ModuleStep Program} (hi : step.inert = true) :
    Quiet (performModule host step) := by
  cases step with
  | status owner =>
    exact (reads_moduleNamed owner).quiet.bind fun m =>
      (reads_checkModule m).quiet.bind fun _ =>
      (reads_moduleDecl m).quiet.returns
  | describe owner =>
    exact (reads_moduleNamed owner).quiet.bind fun m =>
      (reads_describeModule m).quiet.returns
  | declare | addFunc | addClass | addEnum | addRecord | push | install =>
    cases hi

theorem permits_of_inert (hi : a.inert = true) (w : World) : w.permits a = true := by
  cases a with
  | property step =>
    cases step with
    | putHidden | delHidden | setFinalizer => cases hi
    | _ => rfl
  | heap step =>
    cases step with
    | close => cases hi
    | _ => rfl
  | objects step =>
    cases step with
    | make | resetToken | copyToken => cases hi
    | _ => rfl
  | _ => rfl

theorem tampers_of_permits {w : World} (hp : w.permits a = true) : w.tampers a = false := by
  cases a with
  | property step =>
    cases step with
    | putHidden i sym | delHidden i sym => exact congrArg not hp
    | _ => rfl
  | objects step =>
    cases step with
    | resetToken | copyToken => cases hp
    | _ => rfl
  | _ => rfl

theorem quiet_perform (hi : a.inert = true) : Quiet (perform host a) := by
  have hnote : Quiet (note (·.permits a)) := by
    intro w
    show w.Silent { w with orderly := w.orderly && w.permits a }
    rw [permits_of_inert hi, Bool.and_true]
    exact .refl w
  have hbreach : Quiet (breach fun w => { keys := w.tampers a }) := by
    intro w
    show w.Silent { w with breaches := w.breaches.merge { keys := w.tampers a } }
    rw [tampers_of_permits (permits_of_inert hi w), Breaches.merge_none]
    exact .refl w
  refine hnote.bind fun _ => hbreach.bind fun _ => reads_currentHeap.quiet.bind fun h => ?_
  cases a with
  | stack step => exact quiet_performStack hi
  | property step => exact quiet_performProperty hi
  | call step =>
    cases step with
    | argCount => exact (quiet_heap h).returns
    | crash | malformed => exact quiet_crash _
    | pushFunc | pushError | call | callMethod | callProp | pcall | pcallMethod =>
      cases hi
  | heap step =>
    cases step with
    | stats | config => exact (quiet_heap h).returns
    | collect | close | newHeap | use => cases hi
  | buffer step => exact quiet_performBuffer hi
  | objects step => exact quiet_performObject hi
  | bridge step => exact quiet_performBridge hi
  | classes step => exact quiet_performClass hi
  | modules step => exact quiet_performModule hi
  | marshal step =>
    cases step with
    | codec wit type must => exact (reads_codecFor wit type must).quiet.returns
    | push | require => cases hi

/-! ## Programs -/

theorem quiet_answer {outermost : Bool} {x : M Reply} (hx : Quiet x) : Quiet (answer outermost x) := by
  refine quiet_get.bind fun w => Quiet.bind (quiet_modify fun _ => ?_) fun _ =>
    quiet_recallStep.bind fun _ => hx.catchAll.bind fun r => quiet_recallStep.bind fun _ =>
    quiet_get.bind fun w' => Quiet.bind (quiet_modify fun _ => ?_) fun _ =>
    reads_currentHeap.quiet.bind fun h => (quiet_heap h).bind fun s => ?_
  · exact .of_state rfl rfl
  · exact .of_state rfl rfl
  · cases r with
    | ok reply => exact quiet_pure _
    | error e => exact .ite (reads_throw _).quiet (quiet_pure _)

theorem quiet_rounds {body : M (List Answer)} (hbody : Quiet body) (k : Nat)
    (last : Option (List Answer)) : Quiet (rounds body k last) := by
  induction k generalizing last with
  | zero => exact quiet_pure _
  | succ k ih => exact hbody.bind fun answers => ih (some answers)

theorem quiet_run {outermost : Bool} : {p : Program} → p.inert = true → Quiet (p.run host outermost)
  | .done, _ => quiet_pure _
  | .step _ _, hi =>
    have ⟨ha, hrest⟩ := Bool.and_eq_true_iff.mp hi
    (quiet_answer (quiet_perform ha)).bind fun _ => (quiet_run hrest).returns
  | .loop k _ _, hi =>
    have ⟨hbody, hrest⟩ := Bool.and_eq_true_iff.mp hi
    (quiet_answer (quiet_rounds (quiet_run hbody) k.toNat none)).bind fun _ =>
      (quiet_run hrest).returns

theorem quiet_runFunction {f : FuncSpec Program} (hi : f.body.inert = true) : Quiet (runFunction host h f) := by
  have hcurrent : ∀ k : HeapId, Quiet (modify fun w => { w with current := k } : M Unit) :=
    fun k => quiet_modify fun _ => .of_state rfl rfl
  refine (quiet_heap h).bind fun s => quiet_get.bind fun w => (quiet_trace _).bind fun event =>
    reads_currentHeap.quiet.bind fun outer => (hcurrent h).bind fun _ =>
    ((quiet_run hi).andFinally (hcurrent outer)).bind fun answers =>
    (quiet_amend event _).bind fun _ => ?_
  cases f.throws with
  | none => exact quiet_pure _
  | some f => exact (reads_fail f).quiet

end Tether
