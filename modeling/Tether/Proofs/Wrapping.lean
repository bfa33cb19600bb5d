import Tether.Proofs.Collection
import Tether.Proofs.Following

/-!
# Making wrappers
-/

namespace Tether

open M Bridge Heap

open Bridge (bridgeKey objectKey finalizerKey)

variable {b : BridgeId} {h : HeapId} {s : Heap} {i : Int} {p : HeapPtr} {o : Object} {v : Value}
  {w : World} {d : ClassDecl} {c : ClassId}

/-! ## Operations on an object at an index -/

namespace Heap

variable {q : HeapPtr}

theorem onChain_eq_false (hp : ∀ x o, s.object? x = some o → o.prototype ≠ some p) (hq : q ≠ p)
    (k : Nat) : s.onChain p k q = false := by
  induction k generalizing q with
  | zero => rfl
  | succ k ih =>
    unfold onChain
    cases hx : s.object? q with
    | none => rfl
    | some x =>
      simp only [beq_eq_false_iff_ne.mpr hq, Bool.false_or]
      cases hr : x.prototype with
      | none => rfl
      | some r => exact ih fun he => hp q x hx (he ▸ hr)

theorem setPrototype_push (hs : s.bottom ≤ s.stack.size) (hi : (s.push v).value? i = some (.object p))
    {s' : Heap} (he : (s.push v).setPrototype i = .ok s') :
    ∃ pr, s' = s.modifyObject p (fun o => { o with prototype := pr }) ∧ ∀ q, pr = some q → v = .object q := by
  have hset : ∀ pr, ((s.push v).modifyObject p fun o => { o with prototype := pr }).popN 1 = .ok s' →
      s' = s.modifyObject p fun o => { o with prototype := pr } := fun pr hpop =>
    (Except.ok.inj ((popN_modifyObject hs v p _).symm.trans hpop)).symm
  obtain ⟨p', hp, he⟩ := bind_eq_ok.mp he
  cases (requireObject_eq hi).symm.trans hp
  obtain ⟨v', hv, he⟩ := bind_eq_ok.mp he
  cases (operand_push hs "set prototype" v).symm.trans hv
  cases v with
  | object q =>
    simp only at he
    split at he
    · simp at he
    · obtain ⟨-, -, he⟩ := bind_eq_ok.mp he
      refine ⟨_, hset _ he, fun r hr => ?_⟩
      split at hr
      · rw [Option.some.inj hr]
      · simp at hr
  | null | undefined =>
    obtain ⟨-, -, he⟩ := bind_eq_ok.mp he
    exact ⟨_, hset _ he, nofun⟩
  | boolean b | number x | string t | pointer t => simp at he

section

variable (hs : s.bottom ≤ s.stack.size) (hi : (s.push (.object q)).value? i = some (.object p))
  (ho : s.object? p = some o)
include hs hi ho

theorem setPrototype_object (hp : ∀ x o, s.object? x = some o → o.prototype ≠ some p) (hq : q ≠ p) :
    ∃ s', (s.push (.object q)).setPrototype i = .ok s' := by
  have hchain : (s.push (.object q)).onChain p (s.push (.object q)).table.slots.size q = false :=
    onChain_eq_false (s := s.push (.object q)) hp hq _
  have hderef : (s.push (.object q)).deref p = .ok o := deref_eq ho
  unfold setPrototype
  rw [requireObject_eq hi, operand_push hs]
  simp only [bind, Except.bind, hchain, hderef, Bool.false_eq_true, if_false]
  exact ⟨_, popN_modifyObject hs _ p _⟩

theorem setFinalizer_push {f : Object} (hf : s.object? q = some f) (hfun : f.isFunction = true) :
    (s.push (.object q)).setFinalizer i = .ok (s.modifyObject p fun o => { o with finalizer := some q }) := by
  have hderef : (s.push (.object q)).deref p = .ok o := deref_eq ho
  have hderefq : (s.push (.object q)).deref q = .ok f := deref_eq hf
  unfold setFinalizer
  rw [requireObject_eq hi, operand_push hs]
  simp only [bind, Except.bind, hderef, hderefq, hfun, if_true]
  exact popN_modifyObject hs _ p _

end

def stashed (s : Heap) (k : String) : Value := ((s.object? s.stash).bind (·.hidden.get? k)).getD .undefined

theorem stashed_push (s : Heap) (v : Value) (k : String) : (s.push v).stashed k = s.stashed k := rfl

theorem stashed_pushAll (s : Heap) (vs : List Value) (k : String) : (s.pushAll vs).stashed k = s.stashed k := by
  rw [pushAll_eq]
  rfl

theorem stashed_modifyObject (f : Object → Object) (hp : s.stash ≠ p) (k : String) :
    (s.modifyObject p f).stashed k = s.stashed k := by
  have hobject : (s.modifyObject p f).object? s.stash = s.object? s.stash :=
    (Table.get?_modify _ _ _ _).trans (if_neg hp)
  show (((s.modifyObject p f).object? s.stash).bind _).getD _ = _
  rw [hobject]
  rfl

/-- An index names an object, and on top of the stack is what the stash holds under a hidden key. -/
def Seats (s : Heap) (o : Object) (k : String) (i : Int) : Prop :=
  ∃ p, s.value? i = some (.object p) ∧ s.object? p = some o ∧ s.stack.back? = some (s.stashed k)

theorem Equips.stashed (h : s.Equips b) : ∃ q, s.stashed finalizerKey = .object q ∧ s.Finalizes q b := by
  obtain ⟨st, q, hst, hq, hfin⟩ := h
  refine ⟨q, ?_, hfin⟩
  unfold Heap.stashed
  rw [hst, Option.bind_some, hq]
  rfl

theorem Finalizes.isFunction (h : s.Finalizes q b) : ∃ f, s.object? q = some f ∧ f.isFunction = true := by
  obtain ⟨f, name, hf, hbody⟩ := h
  exact ⟨f, hf, isFunction_of_body hbody⟩

end Heap

theorem Bridge.pushFinalizer_eq_ok {w' : World} {u : Unit} (hs : w.heaps[h]? = some s)
    (hbot : s.bottom ≤ s.stack.size) (he : (pushFinalizer h).exec w = (.ok u, w')) :
    w' = w.setHeap h (s.push (s.stashed finalizerKey)) := by
  have hs1 := World.get_setHeap hs (s.push (.object s.stash))
  have hv := value?_push hbot (.object s.stash)
  unfold pushFinalizer at he
  rw [bind_ok (exec_modifyHeap hs _)] at he
  obtain ⟨found, w2, hget, he⟩ := bind_ok_iff.mp he
  obtain ⟨t, s2, ht, hget, rfl⟩ := exec_onHeap_eq_ok.mp hget
  cases hs1.symm.trans ht
  cases hst : s.object? s.stash with
  | none =>
    rw [getHidden_missing hv hst] at hget
    simp at hget
  | some st =>
    have hkey : s.stashed finalizerKey = (st.hidden.get? finalizerKey).getD .undefined := by
      unfold stashed
      rw [hst]
      rfl
    rw [getHidden_eq hv hst, ← hkey] at hget
    cases hget
    have hs2 := World.get_setHeap hs1 ((s.push (.object s.stash)).push (s.stashed finalizerKey))
    have hs3 := World.get_setHeap hs2 ((s.push (s.stashed finalizerKey)).push (.object s.stash))
    rw [bind_ok (exec_changeHeap_ok hs2 (swap_push hbot _ _)),
      exec_changeHeap_ok hs3 (popN_push (s := s.push (s.stashed finalizerKey))
        (by rw [bottom_push, size_push]; exact Nat.le_succ_of_le hbot) _)] at he
    simp only [World.setHeap_setHeap] at he
    exact (Prod.mk.inj he).2.symm

/-- A blank wrapper at an index: a new object without hidden properties, whose finalizer was not
started. If the stash holds the finalizer of the bridge, the object has it. -/
structure BlankAt (b : BridgeId) (h : HeapId) (off : Prop) (Rest : World → Prop) (F : Footing)
    (i : Int) (p : HeapPtr) (o : Object) (vs : List Value) (w : World) : Prop where
  seat : F.Seat i p
  above : Over b h off Rest (F.add off p o) vs w
  hidden : o.hidden = {}
  finalized : o.finalized = false
  equipped : ∀ s, w.heaps[h]? = some s → s.Equips b → (off → vs = []) ∧ ∃ q, o.finalizer = some q ∧ s.Finalizes q b

namespace Regime

variable {R : Regime} {Fa : R.Fact} {T : R.Test} {n : Nat} {off : Prop} {Rest : World → Prop}
  {F : Footing} {vs : List Value}

def Declared (T : R.Test) (d : ClassDecl) : Prop :=
  ∃ (w : World) (c : ClassId), R.inv w ∧ T.passes w ∧ w.classes[c]? = some d

/-- The prototype of a declared class may be kept in the stash of a heap. -/
def Stashes (T : R.Test) (h : HeapId) : Prop :=
  ∀ d w s, R.inv w → w.heaps[h]? = some s → (T.passes w → Declared T d ∧ s.value? (-3) = some (.object s.stash)) →
    R.Good w ((changeHeap h (·.putHidden (-3) d.key)).after w)

def Arms (A : R.Fact) (T : R.Test) (b : BridgeId) (h : HeapId) (o : Object) : Prop :=
  ∀ i w s, R.inv w → A.holds w → w.heaps[h]? = some s →
    (T.passes w → w.Based b h ∧ s.Seats o finalizerKey i) → R.Good w ((changeHeap h (·.setFinalizer i)).after w)

namespace Crafts

variable (C : Crafts T n b h off Rest)
include C

/-! ## Prototypes -/

theorem meets_addMethods (hFa : A.Gives (Usable b)) (i : Int) (p : HeapPtr) (ms : List Callable) :
    Meets A T (fun w => F.Names l i p ∧ Over b h off Rest F l w) (addMethods (hostAt n) b h i ms)
      fun _ w => F.Names l i p ∧ Over b h off Rest F l w := by
  refine Meets.forM fun m _ => ?_
  have hfunc := C.meets_pushNew (A := A) (F := F) (l := l)
    (o := { body := .function m.name allArguments (some (.bound b m))
            props := ({} : Properties Value).put "name" (.string m.name) })
    (.named ..) fun name arity b' c hb => by
      obtain ⟨-, -, hb⟩ := Body.function.inj hb
      obtain ⟨rfl, rfl⟩ := Code.bound.inj (Option.some.inj hb)
      exact fun w hw => ⟨hFa w hw, C.proper m w⟩
  refine Meets.bind_exists ((hfunc.frame (φ := F.Names l i p)).post
    (S := fun _ w => ∃ q, F.Names l i p ∧ Over b h off Rest F (l ++ [.object q]) w) ?_) fun _ q =>
    (C.meets_putProp i m.name (.object q) p).onFault (keeps_popN h 3)
  rintro _ w ⟨hnames, q, -, hplaced⟩
  exact ⟨q, hnames, hplaced.over.2⟩

theorem meets_keepPrototype {q : HeapPtr} (hstash : Stashes T h) : Meets A T (fun w => (Declared T d ∧ ¬ F.kept q) ∧
        Over b h off Rest F [.object F.stash, .object q, .object q] w)
      (changeHeap h (·.putHidden (-3) d.key))
      fun _ => Over b h off Rest F [.object F.stash, .object q] := by
  have hthird : ∀ {s : Heap}, s.On F →
      (s.pushAll [.object F.stash, .object q, .object q]).value? (-3) = some (.object F.stash) :=
    fun hon => value?_push_push_push hon.bottom_le _ _ _
  refine .of_good (fun w hw _ hP => ?_) fun _ w w' _ _ ⟨⟨_, hkept⟩, hover⟩ he _ _ => ?_
  · cases hs : w.heaps[h]? with
    | none =>
      rw [after_changeHeap_none hs]
      exact .refl hw
    | some s =>
      refine hstash d w s hw hs fun hT => ⟨(hP hT).1.1, ?_⟩
      obtain ⟨t, hon, ht⟩ := (hP hT).2.heap
      cases hs.symm.trans ht
      rw [hthird hon, stash_pushAll, hon.stash]
  · obtain ⟨s, hon, hs⟩ := hover.heap
    obtain ⟨t, s', ht, hput, rfl⟩ := exec_changeHeap_eq_ok.mp he
    cases hs.symm.trans ht
    obtain ⟨p, hp, hput⟩ := bind_eq_ok.mp hput
    obtain rfl : p = F.stash := by simpa using (value?_of_requireObject hp).symm.trans (hthird hon)
    obtain ⟨v, hv, hput⟩ := bind_eq_ok.mp hput
    obtain rfl : .object q = v := by
      have htop := operand_push (hon.pushAll_bottom_le [.object F.stash, .object q]) "put hidden property" (.object q)
      exact Except.ok.inj (htop.symm.trans hv)
    obtain ⟨-, -, hput⟩ := bind_eq_ok.mp hput
    have hpop := popN_modifyObject (hon.pushAll_bottom_le [.object F.stash, .object q])
      (.object q) F.stash fun o => { o with hidden := o.hidden.put d.key (.object q) }
    cases hpop.symm.trans hput
    rw [modifyObject_pushAll]
    refine C.over_setHeap hs hover hover.firm
      (hon.modifyObject hover.firm.stash (fun o k v hv => ?_) fun _ _ hr => .inl hr)
    rw [KeyMap.get?_put] at hv
    split at hv
    · cases hv
      exact .inr ⟨q, rfl, fun hbar => hkept (hover.firm.barred q hbar).1⟩
    · exact .inl hv

theorem meets_reportPrototype (d : ClassDecl) : Meets A T (Over b h off Rest F l)
    (reportPrototype b d) fun _ => Over b h off Rest F l := by
  have hread : Meets A T (Over b h off Rest F l) (bridge b) fun _ => Over b h off Rest F l :=
    (Meets.of_reads (reads_bridge b)).post fun _ _ hw => hw.1
  refine (C.meets_modifyBridge ?_).bind fun _ => hread.bind fun br => C.meets_log br.logs _ _ _
  exact fun _ => ⟨rfl, rfl, rfl⟩

theorem meets_buildPrototype (hFa : A.Gives (Usable b)) (hstash : Stashes T h) :
    Meets A T (fun w => Declared T d ∧ Over b h off Rest F [.object F.stash] w) (buildPrototype (hostAt n) b h d)
      fun _ w => ∃ q, ¬ F.kept q ∧ Over b h off Rest F [.object q] w := by
  have hobject := C.meets_pushNew (A := A) (F := F) (l := [.object F.stash]) (.of_body .plain) (by simp)
  refine Meets.bind_exists ((hobject.frame (φ := Declared T d)).post (S := fun i w => ∃ q,
    (Declared T d ∧ ¬ F.kept q) ∧ F.Names [.object F.stash, .object q] i q ∧
      Over b h off Rest F [.object F.stash, .object q] w) ?_) fun i q => ?_
  · rintro i w ⟨hd, q, rfl, hplaced⟩
    obtain ⟨hfresh, hover⟩ := hplaced.over
    exact ⟨q, ⟨hd, hfresh.1⟩, ⟨hfresh, 1, rfl, rfl⟩, hover⟩
  have hmethods := (C.meets_addMethods (F := F) (l := [.object F.stash, .object q]) hFa i q
    d.methods).frame (φ := Declared T d ∧ ¬ F.kept q)
  have hdup := (C.meets_dup (A := A) (F := F) (l := [.object F.stash]) (.object q)).frame
    (φ := Declared T d ∧ ¬ F.kept q)
  have hkeep := ((C.meets_keepPrototype (A := A) (F := F) (q := q) hstash).frame (φ := ¬ F.kept q)).pre
    fun w (hw : (Declared T d ∧ ¬ F.kept q) ∧ _) => ⟨hw.1.2, hw⟩
  have hswap := (C.meets_swap (A := A) (F := F) (l := []) (.object F.stash) (.object q)).frame (φ := ¬ F.kept q)
  have hpop := (C.meets_popN (A := A) (F := F) (l := [.object q]) (.object F.stash)).frame (φ := ¬ F.kept q)
  have hreport := (C.meets_reportPrototype (A := A) (F := F) (l := [.object q]) d).frame (φ := ¬ F.kept q)
  refine (hmethods.post fun _ _ hw => ⟨hw.1, hw.2.2⟩).bind fun _ => hdup.bind fun _ =>
    (hkeep.onFault (keeps_popN h 3)).bind fun _ => hswap.bind fun _ => hpop.bind fun _ =>
    hreport.post fun _ w hw => ⟨q, hw⟩

theorem meets_pushPrototype (hFa : A.Gives (Usable b)) (hstash : Stashes T h)
    (hcls : ∀ w, Rest w → w.classes[c]? = some d) :
    Meets A T (Over b h off Rest F []) (pushPrototype (hostAt n) b c)
      fun _ w => ∃ v, (F.keys d.key → F.Proto v) ∧ Over b h off Rest F [v] w := by
  refine Meets.of_passes (fun w hw hT =>
    C.lax hw hT ((plain_pushPrototype (plain_serves n) b c).good (R.sound hw)))
    fun w hw _ hT hover => ?_
  have hd := hcls w hover.rest
  obtain ⟨br, hbr, hid⟩ := hover.based
  have hdeclared : Declared T d := ⟨w, c, hw, hT, hd⟩
  have hexec : ∀ {x : ClassDecl → Bridge → M Unit}, (do
      let d ← classDecl c
      let br ← bridge b
      x d br : M Unit).exec w = (x d br).exec w := fun {x} =>
    (bind_ok (exec_look_eq_ok.mpr ⟨hd, rfl⟩)).trans (bind_ok (exec_look_eq_ok.mpr ⟨hbr, rfl⟩))
  refine ⟨_, hexec, ?_⟩
  simp only [hid]
  have hroom : Meets A T (fun w' => w' = w) (readHeap h (·.requireStack 4)) fun _ => Over b h off Rest F [] :=
    (meets_requireStack (l := []) 4).pre fun _ hw' => hw' ▸ hover
  have hfound := C.meets_getHidden (A := A) (F := F) (l := []) d.key
  refine hroom.bind fun _ => C.meets_pushStash.bind fun _ => hfound.bind_exists fun found v => ?_
  cases found with
  | true =>
    have hswap := (C.meets_swap (A := A) (F := F) (l := []) (.object F.stash) v).frame (φ := F.keys d.key → F.Proto v)
    have hpop := (C.meets_popN (A := A) (F := F) (l := [v]) (.object F.stash)).frame (φ := F.keys d.key → F.Proto v)
    exact (hswap.pre fun _ hw' => ⟨hw'.1 rfl, hw'.2⟩).bind fun _ => hpop.post fun _ _ hw' => ⟨v, hw'⟩
  | false =>
    have hpop := (C.meets_popN (A := A) (F := F) (l := [.object F.stash]) v).frame (φ := Declared T d)
    have hbuild := C.meets_buildPrototype (d := d) (F := F) hFa hstash
    refine (hpop.pre fun _ hw' => ⟨hdeclared, hw'.2⟩).bind fun _ => hbuild.post ?_
    rintro _ w' ⟨q, hkept, hover'⟩
    exact ⟨.object q, fun _ => ⟨q, rfl, fun hbar => hkept (hover'.firm.barred q hbar).1⟩, hover'⟩

/-! ## Blank wrappers -/

theorem meets_setPrototype : Meets A T (fun w => (F.Seat i p ∧ (off → (F.add off p o).Proto v)) ∧
        Over b h off Rest (F.add off p o) [v] w)
      (equipWrapper h (·.setPrototype i))
      fun _ w => ∃ pr, ∃ l : List Value, (F.Seat i p ∧ (off → l = [])) ∧
        Over b h off Rest (F.add off p { o with prototype := pr }) l w := by
  refine .of_keeps (keeps_equipWrapper (keeps_changeHeap amends_setPrototype))
    fun _ w w' _ _ ⟨⟨hseat, hproto⟩, hover⟩ he _ _ => ?_
  obtain ⟨s, hon, hs⟩ := hover.heap
  have hbot := hon.bottom_le
  have hi := hon.value?_seat hseat [v]
  rcases equipWrapper_eq_ok hs he with ⟨s', hset, rfl⟩ | ⟨e, hset, rfl⟩
  · obtain ⟨pr, rfl, hpr⟩ := setPrototype_push hbot hi hset
    have hon' := hon.update (f := fun o => { o with prototype := pr }) hseat ?_
    · exact ⟨pr, [], ⟨hseat, fun _ => rfl⟩, C.over_setHeap hs hover (hover.firm.change _) hon'⟩
    intro r hr hbar
    obtain ⟨q, hv, hq⟩ := hproto (hover.firm.barred r hbar).2
    obtain rfl := Value.object.inj ((hpr r hr).symm.trans hv)
    exact hq hbar
  · refine ⟨o.prototype, [v], ⟨hseat, fun hoff => ?_⟩, C.over_setBreaches _ hover⟩
    obtain ⟨q, rfl, hq⟩ := hproto hoff
    obtain ⟨s', hs'⟩ := setPrototype_object hbot hi hon.object?_seat
      (fun x o' ho' hr => hon.apart x o' p ho' hr (.inr ⟨rfl, hoff⟩))
      fun he => hq (.inr ⟨he, hoff⟩)
    cases hs'.symm.trans hset

theorem meets_pushFinalizer : Meets A T (Over b h off Rest F l) (pushFinalizer h)
    fun _ w => ∃ v, Over b h off Rest F (l ++ [v]) w ∧ ∀ s, w.heaps[h]? = some s → v = s.stashed finalizerKey := by
  refine .of_keeps (plain_pushFinalizer h) fun _ w w' _ _ hover he _ _ => ?_
  obtain ⟨s, hon, hs⟩ := hover.heap
  obtain rfl := pushFinalizer_eq_ok hs (hon.pushAll_bottom_le l) he
  refine ⟨(s.pushAll l).stashed finalizerKey, ?_, fun t ht => ?_⟩
  · rw [push_pushAll]
    exact C.over_setHeap hs hover hover.firm hon
  · rw [World.get_setHeap hs] at ht
    cases ht
    rfl

theorem meets_setFinalizer (hfinalizer : Arms A T b h o) :
    Meets A T (fun w => F.Seat i p ∧ Over b h off Rest (F.add off p o) (l ++ [v]) w ∧
        ∀ s, w.heaps[h]? = some s → v = s.stashed finalizerKey)
      (equipWrapper h (·.setFinalizer i))
      fun _ w => ∃ fin, ∃ us : List Value, F.Seat i p ∧
        Over b h off Rest (F.add off p { o with finalizer := fin }) us w ∧
        ∀ s, w.heaps[h]? = some s → s.Equips b → us = l ∧ ∃ q, fin = some q ∧ s.Finalizes q b := by
  have hsplit := fun s : Heap => (push_pushAll s l v).symm
  refine .of_good (fun w hw hFa hP => ?_) fun _ w w' _ _ ⟨hseat, hover, hkey⟩ he _ _ => ?_
  · have hgood : R.Good w ((changeHeap h (·.setFinalizer i)).after w) := by
      cases hs : w.heaps[h]? with
      | none =>
        rw [after_changeHeap_none hs]
        exact .refl hw
      | some s =>
        refine hfinalizer i w s hw hFa hs fun hT => ?_
        obtain ⟨hseat, hover, hkey⟩ := hP hT
        obtain ⟨t, hon, ht⟩ := hover.heap
        cases hs.symm.trans ht
        refine ⟨hover.based, p, hon.value?_seat hseat _, ?_, ?_⟩
        · exact (object?_pushAll t _ p).trans hon.object?_seat
        · rw [← hkey _ hs, hsplit]
          exact Array.back?_push
    refine Good.bind (x := catchFault _) (by rw [after_catchFault]; exact hgood) fun r w1 _ hg => ?_
    cases r with
    | ok _ => exact .refl hg.1
    | error f => exact (keeps_breach _).good hg.1
  · obtain ⟨s, hon, hs⟩ := hover.heap
    have hbot := hon.pushAll_bottom_le l
    have hi := hon.value?_seat hseat (l ++ [v])
    have hvalue := hkey _ hs
    rw [hsplit] at hs hi hvalue
    rcases equipWrapper_eq_ok hs he with ⟨s', hset, rfl⟩ | ⟨e, hset, rfl⟩
    · obtain ⟨p', v', hp', hv', hcases⟩ := setFinalizer_cases hset
      obtain rfl := Value.object.inj (Option.mem_unique hi hp')
      cases (operand_push hbot "set finalizer" v).symm.trans hv'
      have hset : ∀ fin, (((s.pushAll l).push v).modifyObject p fun o => { o with finalizer := fin }).popN 1 =
          .ok s' → s' = (s.modifyObject p fun o => { o with finalizer := fin }).pushAll l := by
        intro fin hpop
        rw [popN_modifyObject hbot, modifyObject_pushAll] at hpop
        exact (Except.ok.inj hpop).symm
      have hproto : ∀ r, o.prototype = some r → ¬ (F.add off p o).barred r :=
        fun r hr => hon.apart p o r hon.object?_seat hr
      have hequips : ∀ fin : Option HeapPtr, ∀ t, t = (s.modifyObject p fun o =>
          { o with finalizer := fin }).pushAll l → t.Equips b → ∃ q, v = .object q ∧ t.Finalizes q b := by
        rintro fin t rfl hequips
        obtain ⟨q, hq, hfin⟩ := hequips.stashed
        refine ⟨q, ?_, hfin⟩
        rw [hvalue, ← hq, stashed_pushAll, stashed_modifyObject, stashed_push, stashed_pushAll]
        rw [hon.stash]
        exact fun he => hseat.stash he.symm
      rcases hcases with ⟨rfl, hpop⟩ | ⟨q, f, rfl, -, -, hpop⟩
      · obtain rfl := hset none hpop
        refine ⟨none, l, hseat, C.over_setHeap hs hover (hover.firm.change _)
          (hon.update (f := fun o => { o with finalizer := none }) hseat hproto), fun t ht heq => ?_⟩
        rw [World.get_setHeap hs] at ht
        obtain ⟨q, hq, -⟩ := hequips none t (Option.some.inj ht).symm heq
        simp at hq
      · obtain rfl := hset (some q) hpop
        refine ⟨some q, l, hseat, C.over_setHeap hs hover (hover.firm.change _)
          (hon.update (f := fun o => { o with finalizer := some q }) hseat hproto), fun t ht heq => ?_⟩
        rw [World.get_setHeap hs] at ht
        obtain ⟨q', hq', hfin⟩ := hequips (some q) t (Option.some.inj ht).symm heq
        exact ⟨rfl, q', congrArg some (Value.object.inj hq'), hfin⟩
    · refine ⟨o.finalizer, l ++ [v], hseat, C.over_setBreaches _ hover, fun t ht hequips => ?_⟩
      cases hs.symm.trans ht
      obtain ⟨q, hq, hfin⟩ := hequips.stashed
      obtain rfl := hvalue.trans hq
      obtain ⟨f, hf, hfun⟩ := hfin.isFunction
      have hok := setFinalizer_push hbot hi ((object?_pushAll s l p).trans hon.object?_seat) hf hfun
      cases hok.symm.trans hset

theorem meets_blankWrapper (hFa : A.Gives (Usable b)) (hstash : Stashes T h)
    (hfinalizer : ∀ pr, Arms A T b h { prototype := pr })
    (hcls : ∀ w, Rest w → w.classes[c]? = some d) (hkeys : off → F.keys d.key) :
    Meets A T (Over b h off Rest F []) (blankWrapper (hostAt n) b h c) fun i w =>
      ∃ p o l, BlankAt b h off Rest F i p o l w := by
  have hobject := C.meets_pushNew (A := A) (F := F) (l := []) (.of_body .plain) (by simp)
  have hfresh := hobject.post (S := fun i w => ∃ p, F.Seat i p ∧ Over b h off Rest (F.add off p {}) [] w) (by
    rintro i w ⟨p, rfl, hplaced⟩
    exact ⟨p, hplaced.seat⟩)
  refine (meets_requireStack (l := []) 3).bind fun _ => hfresh.bind_exists fun i p => ?_
  have hproto := ((C.meets_pushPrototype (F := F.add off p {}) hFa hstash hcls).frame
    (φ := F.Seat i p)).onFault (keeps_popN h 1)
  have hready := hproto.post (S := fun _ w => ∃ v, (F.Seat i p ∧
      (off → (F.add off p {}).Proto v)) ∧ Over b h off Rest (F.add off p {}) [v] w) (by
    rintro _ w ⟨hseat, v, hv, hover⟩
    exact ⟨v, ⟨hseat, fun hoff => hv (hkeys hoff)⟩, hover⟩)
  refine hready.bind_exists fun _ v => C.meets_setPrototype.bind_exists fun _ pr =>
    Meets.exists_pre fun l => ?_
  have hpush := (C.meets_pushFinalizer (A := A) (F := F.add off p { prototype := pr })
    (l := l)).frame (φ := F.Seat i p ∧ (off → l = []))
  have hfin := hpush.post (S := fun _ w => ∃ v, (off → l = []) ∧ F.Seat i p ∧
      Over b h off Rest (F.add off p { prototype := pr }) (l ++ [v]) w ∧
      ∀ s, w.heaps[h]? = some s → v = s.stashed finalizerKey) (by
    rintro _ w ⟨hseat, v, hover⟩
    exact ⟨v, hseat.2, hseat.1, hover⟩)
  refine hfin.bind_exists fun _ v => ?_
  have hset := (C.meets_setFinalizer (F := F) (i := i) (p := p) (o := { prototype := pr }) (v := v)
    (l := l) (hfinalizer pr)).frame (φ := off → l = [])
  have hdone := hset.post (S := fun _ w => ∃ o us, BlankAt b h off Rest F i p o us w) (by
    rintro _ w ⟨hvs, fin, us, hseat, hover, hequips⟩
    refine ⟨{ prototype := pr, finalizer := fin }, us, hseat, hover, rfl, rfl, fun s hs heq => ?_⟩
    obtain ⟨rfl, hq⟩ := hequips s hs heq
    exact ⟨hvs, hq⟩)
  exact hdone.bind fun _ => ((Meets.of_reads (reads_pure i)).post fun j w hw => by
    cases hw.2
    obtain ⟨o, us, hblank⟩ := hw.1
    exact ⟨p, o, us, hblank⟩)

end Crafts

/-! ## Heaps that do not collect -/

end Regime

/-- A heap that is open and does not collect of its own accord. -/
structure Heap.Quiet (s : Heap) : Prop where
  isOpen : s.closed = false
  addressable : s.table.Addressable
  off : s.limits.gc ≤ 0

theorem Heap.exec_maybeCollect_quiet (host : Host) (hs : w.heaps[h]? = some s) (hq : s.limits.gc ≤ 0) :
    (Heap.maybeCollect host h).exec w = (.ok (), w) := by
  unfold maybeCollect
  rw [bind_ok (exec_heap hs), if_neg]
  · rfl
  · exact fun hdue => absurd hdue.1 (by omega)

namespace Regime

def quiet (h : HeapId) : plain.Test where
  passes w := ∀ s, w.heaps[h]? = some s → s.Quiet
  back {w w'} hl hw' s hs := by
    obtain ⟨s', hs', hls⟩ := World.Later.heaps hl h s hs
    obtain ⟨hopen, haddr, hoff⟩ := hw' s' hs'
    exact ⟨hls.isOpen hopen, hls.addressable hopen haddr, hls.limits ▸ hoff⟩

theorem quiet_crafts (n : Nat) (b : BridgeId) (h : HeapId) (off : Prop) {Rest : World → Prop}
    (hrest : Indifferent b h Rest) : Crafts (quiet h) n b h off Rest where
  toIndifferent := hrest
  collects := plain_collects (plain_serves n)
  proper _ _ := trivial
  lax _ _ hg := hg
  working hw hT hs := World.Sound.working hw hs (hT _ hs).isOpen (hT _ hs).addressable
  spares {w w' s} hw hs he hT hbased hrest := by
    have hg : plain.Good w w' := by
      rw [← after_eq he]
      exact (keeps_maybeCollect (plain_collects (plain_serves n)) h).good hw
    have hquiet := (quiet h).back hg.2 hT s hs
    cases (exec_maybeCollect_quiet _ hs hquiet.off).symm.trans he
    exact ⟨hbased, hrest, s, hs, .refl _ s, fun _ => rfl⟩

end Regime

end Tether
