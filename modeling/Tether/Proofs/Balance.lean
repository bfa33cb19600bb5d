import Tether.Proofs.Ending
import Tether.Proofs.Atomicity
import Tether.Proofs.Resolution

/-!
# The balance of bridges

What bridges leave on the stack of their heap.
-/

namespace Tether

open World (Above)

variable {n : Nat} {b : BridgeId} {h : HeapId} {E : World → Prop} {α : Type} {p q : HeapPtr} {obj : Int}

namespace Codec

/-- Nothing is there: an option is empty, or it holds one in which nothing is there. -/
def absent : Codec → NativeValue → Bool
  | .mk _ _ (.option _), .nil => true
  | .mk type _ (.option elem), v =>
    if elem.type = type then elem.absent v
    else
      match v with
      | .some v => elem.absent v
      | .object _ => elem.absent elem.type.zero
      | _ => false
  | _, _ => false

/-- How a native value shows in scripts: as null exactly if nothing is there. -/
def Shows (codec : Codec) (v : NativeValue) (u : Value) : Prop := (u = .null ↔ codec.absent v = true) ∧ u ≠ .undefined

variable {v : NativeValue}

theorem absent_option {type : NativeType} {name : String} {elem : Codec} (hv : v ≠ .nil) :
    (mk type name (.option elem)).absent v = if elem.type = type then elem.absent v
      else match v with
        | .some v => elem.absent v
        | .object _ => elem.absent elem.type.zero
        | _ => false := by
  cases v <;> first | exact absurd rfl hv | rfl

theorem shows_of_ne {codec : Codec} {u : Value} (hpresent : codec.absent v = false)
    (hnull : u ≠ .null) (hundefined : u ≠ .undefined) : codec.Shows v u :=
  ⟨iff_of_false hnull (by simp [hpresent]), hundefined⟩

theorem absent_eq_false : ∀ {codec : Codec}, (∀ elem, codec.shape ≠ .option elem) → ∀ v, codec.absent v = false
  | .mk _ _ shape, h, v => by
    cases shape <;> first | exact absurd rfl (h _) | rfl

end Codec

namespace Regime

open Bridge M Heap

variable {j k : Nat} {s0 : Heap} {vs us : List Value} {v : Value} {F : chronicle.Fact} {T : chronicle.Test} {φ : Prop}

/-- A bridge stands on a heap, and at least some number of wrappers refused what they were given. -/
def standing (b : BridgeId) (h : HeapId) (k : Nat) : chronicle.Fact where
  holds w := w.Based b h ∧ k ≤ w.breaches.refusals
  stable {w w'} hg := by
    rintro ⟨⟨br, hbr, hid⟩, hk⟩
    obtain ⟨br', hbr', hid'⟩ := hg.bridges b br hbr
    exact ⟨⟨br', hbr', hid'.trans hid⟩, Nat.le_trans hk hg.breaches.refusals⟩

theorem ends_bridge {P : World → Prop} {f : Bridge → M α} {S : α → World → Prop}
    (hF : F.Gives (standing b h k)) (hf : ∀ br, br.heapId = h → Ends F T P (f br) S E) :
    Ends F T P (bridge b >>= f) S E := by
  have hid : ∀ {w br}, F.holds w → w.bridges[b]? = some br → br.heapId = h := by
    intro w br hw hbr
    obtain ⟨⟨br', hbr', hid⟩, -⟩ := hF w hw
    exact Option.mem_unique hbr' hbr ▸ hid
  refine ⟨fun w hw hFw => ?_, fun hw hFw hP he hT => ?_, fun hw hFw hP he hT => ?_⟩
  · refine Good.bind_reads hw (reads_bridge b) fun br hbr => ?_
    exact (hf br (hid hFw (exec_bridge_eq_ok.mp hbr).1)).keeps w hw hFw
  · obtain ⟨br, hbr, he⟩ := (reads_bridge b).bind_eq_ok he
    exact (hf br (hid hFw (exec_bridge_eq_ok.mp hbr).1)).ok hw hFw hP he hT
  · rcases exec_bind_eq_fault he with hread | ⟨br, w1, hbr, hrest⟩
    · exact absurd hread (sure_look _ _ _ _)
    · obtain ⟨hbr, rfl⟩ := exec_bridge_eq_ok.mp hbr
      exact (hf br (hid hFw hbr)).fault hw hFw hP hrest hT

theorem ends_never {x : M α} {Q : α → World → Prop} (hx : Keeps F x) : Ends F T (fun _ => False) x Q E :=
  ⟨hx, fun _ _ hP => hP.elim, fun _ _ hP => hP.elim⟩

theorem fixes_register {β : Type} {f : World → β} (hf : ∀ w bridges log, f { w with bridges, log } = f w)
    (c : ClassId) : Fixes f (register b c) := by
  refine ((reads_checkDeclared c).fixes _).bind fun _ => ((reads_classDecl c).fixes _).bind fun d =>
    ((reads_bridge b).fixes _).bind fun br => ?_
  split
  · split
    · exact (reads_pure _).fixes _
    · exact ((reads_classDecl _).fixes _).bind fun _ => (reads_fail _).fixes _
  · exact Fixes.bind (fixes_modify fun w => hf w _ _) fun _ => fixes_log (fun w => hf w _) _ _ _ _

theorem fixes_reportPrototype (d : ClassDecl) : Fixes World.heaps (reportPrototype b d) :=
  Fixes.bind (fixes_modify fun _ => rfl) fun _ => ((reads_bridge b).fixes _).bind fun _ =>
    fixes_log (fun _ _ => rfl) _ _ _ _

theorem sure_reportPrototype (d : ClassDecl) : Sure (reportPrototype b d) :=
  (sure_modify _).bind fun _ => (sure_look _).bind fun _ => sure_log _ _ _ _

theorem sure_sliceElements (v : NativeValue) : Sure (sliceElements v) := by
  unfold sliceElements
  split
  · exact sure_pure _
  · exact Sure.bind (fun _ _ _ he => by simp at he) fun _ => sure_pure _
  · exact sure_pure _
  · exact fun _ _ _ he => absurd (congrArg Prod.fst he) nofun

theorem sure_bindWrapper (o : NativeId) (c : ClassId) (i : Int) : Sure (bindWrapper b h o c i) := by
  have hcontrol : Sure (Ownership.controlOf o) := by
    refine (sure_look _).bind fun x => ?_
    split
    · exact sure_pure _
    · exact Sure.bind (fun _ _ _ he => by simp at he) fun _ => (sure_modify _).bind fun _ =>
        (sure_modify _).bind fun _ => sure_pure _
  have htake : Sure (Ownership.take o) := hcontrol.bind fun _ => (sure_modify _).bind fun _ =>
    Sure.bind (fun _ _ _ he => by simp at he) fun _ => (sure_modify _).bind fun _ => sure_pure _
  have hptr : Sure (readHeap h (·.pointerAt i)) := sure_readHeap fun s e => by
    unfold pointerAt deref
    split
    · split <;> simp [Except.map]
    · simp
  have hput : ∀ key r, Sure (putRecord h i key r) := fun _ _ =>
    (sure_modify _).bind fun _ => (sure_catchFault _).bind fun _ => sure_pure _
  refine (sure_look _).bind fun d => (sure_modify _).bind fun _ => htake.bind fun _ => hptr.bind fun _ => ?_
  refine Sure.bind (fun _ _ _ he => by simp at he) fun _ => (sure_modify _).bind fun _ =>
    (hput _ _).bind fun _ => (hput _ _).bind fun _ => ?_
  exact (sure_look _).bind fun _ => sure_log _ _ _ _

section Frame

variable (hbot : s0.bottom ≤ s0.stack.size)
include hbot

/-! ## Prototypes and wrappers -/

theorem ends_pushFinalizer : Ends F T (Above φ h s0 vs) (pushFinalizer h)
    (fun _ w => ∃ v, Above φ h s0 (vs ++ [v]) w) E := by
  refine (ends_modifyHeap (plain_pushStash h) fun s hv => ⟨s.stash, hv.push _⟩).bind_exists fun _ p => ?_
  refine (ends_getHidden hbot).bind_exists fun found v => (ends_swap hbot).bind fun _ => ?_
  have hpop : Ends F T (Above φ h s0 ((vs ++ [v]) ++ [.object p])) (changeHeap h (·.popN 1))
      (fun _ => Above φ h s0 (vs ++ [v])) E := ends_popN rfl
  exact hpop.mono (fun w hw => by simpa using hw) (fun _ _ hw => ⟨v, hw⟩) fun _ => id

theorem ends_addMethods {proto : Int} (hφ : φ → proto = ((s0.height + us.length : Nat) : Int))
    (methods : List Callable) :
    Ends F (calm h k) (Above φ h s0 (us ++ [.object p])) (addMethods (hostAt n) b h proto methods)
      (fun _ => Above φ h s0 (us ++ [.object p])) E := by
  refine .forM fun m _ => (ends_pushNew hbot (.named ..)).bind_exists fun _ q => ?_
  refine Ends.onFault (E := fun _ => False) ?_ (ends_never (keeps_popN h 3))
  refine (ends_putProp hbot (p := p) fun hknown s hv => ?_).post fun _ _ hw => hw.imp And.left
  rw [hφ hknown.1]
  exact hv.value? hbot (by simp)

theorem ends_buildPrototype (d : ClassDecl) :
    Ends F (calm h k) (Above φ h s0 (vs ++ [.object q])) (buildPrototype (hostAt n) b h d)
      (fun _ w => ∃ v, Above φ h s0 (vs ++ [v]) w) E := by
  refine (ends_pushNew hbot (.of_body _)).bind_exists fun proto p => ?_
  refine (ends_addMethods hbot And.right d.methods).bind fun _ => (ends_dup hbot).bind fun _ => ?_
  have hput : Ends F (calm h k) (Above φ h s0 ((vs ++ [.object q, .object p]) ++ [.object p]))
      (onFault (changeHeap h (·.putHidden (-3) d.key)) (changeHeap h (·.popN 3)))
      (fun _ => Above φ h s0 (vs ++ [.object q, .object p])) E := by
    refine Ends.onFault (E := fun _ => False) ?_ (ends_never (keeps_popN h 3))
    refine ends_putHidden hbot (plain_putHidden (-3) d.key) (p := q) fun _ s hv => ?_
    rw [List.append_assoc] at hv
    exact hv.value?_neg hbot (k := 3) rfl
  have hpop : Ends F (calm h k) (Above φ h s0 ((vs ++ [.object p]) ++ [.object q]))
      (changeHeap h (·.popN 1)) (fun _ => Above φ h s0 (vs ++ [.object p])) E := ends_popN rfl
  refine (hput.pre fun w hw => by simpa using hw.imp And.left).bind fun _ => (ends_swap hbot).bind fun _ => ?_
  refine (hpop.pre fun w hw => by simpa using hw).bind fun _ => ?_
  exact (ends_fixes_sure (keeps_reportPrototype b d) (fixes_reportPrototype d)
    (sure_reportPrototype d)).post fun _ _ hw => ⟨_, hw⟩

theorem ends_pushPrototype (hF : F.Gives (standing b h j)) (c : ClassId) :
    Ends F (calm h k) (Above φ h s0 vs) (pushPrototype (hostAt n) b c)
      (fun _ w => ∃ v, Above φ h s0 (vs ++ [v]) w) (Above φ h s0 vs) := by
  refine .read (reads_classDecl c) fun d => ends_bridge hF fun br hbr => ?_
  subst hbr
  refine .read (reads_readHeap _ _) fun _ =>
    (ends_modifyHeap (plain_pushStash _) fun s hv => ⟨s.stash, hv.push _⟩).bind_exists fun _ q =>
    (ends_getHidden hbot).bind_exists fun found v => .ite (fun _ => ?_) fun _ => ?_
  · refine (ends_swap hbot).bind fun _ => ?_
    have hpop : Ends F (calm br.heapId k) (Above φ br.heapId s0 ((vs ++ [v]) ++ [.object q]))
        (changeHeap br.heapId (·.popN 1)) (fun _ => Above φ br.heapId s0 (vs ++ [v]))
        (Above φ br.heapId s0 vs) := ends_popN rfl
    exact hpop.mono (fun w hw => by simpa using hw) (fun _ _ hw => ⟨v, hw⟩) fun _ => id
  · have hpop : Ends F (calm br.heapId k) (Above φ br.heapId s0 ((vs ++ [.object q]) ++ [v]))
        (changeHeap br.heapId (·.popN 1)) (fun _ => Above φ br.heapId s0 (vs ++ [.object q]))
        (Above φ br.heapId s0 vs) := ends_popN rfl
    exact (hpop.pre fun w hw => by simpa using hw).bind fun _ => ends_buildPrototype hbot d

theorem ends_blankWrapper (hF : F.Gives (standing b h k)) (c : ClassId) :
    Ends F (calm h k) (Above φ h s0 vs) (blankWrapper (hostAt n) b h c)
      (fun i w => ∃ p, Above (φ ∧ i = ((s0.height + vs.length : Nat) : Int)) h s0
        (vs ++ [.object p]) w) (Above φ h s0 vs) := by
  have hrefusals : ∀ w, F.holds w → k ≤ w.breaches.refusals := fun w hw => (hF w hw).2
  refine .read (reads_readHeap _ _) fun _ =>
    (ends_pushNew hbot (.of_body _)).bind_exists fun i p => ?_
  refine (Ends.onFault (ends_pushPrototype hbot hF c)
    ((ends_popN rfl).post fun _ _ hw => hw.imp And.left)).bind_exists fun _ v => ?_
  refine (ends_equipWrapper (keeps_changeHeap amends_setPrototype) takes_setPrototype
    hrefusals).bind fun _ => (ends_pushFinalizer hbot).bind_exists fun _ v => ?_
  refine (ends_equipWrapper (plain_setFinalizer i) takes_setFinalizer hrefusals).bind fun _ => ?_
  exact .pure fun _ hw => ⟨p, hw⟩

theorem ends_bindWrapper (hF : F.Gives (standing b h k)) {i : Int}
    (hφ : φ → i = ((s0.height + vs.length : Nat) : Int)) (o : NativeId) (c : ClassId) :
    Ends F T (Above φ h s0 (vs ++ [.object p])) (bindWrapper b h o c i)
      (fun _ => Above φ h s0 (vs ++ [.object p])) E where
  keeps := plain_bindWrapper (R := chronicle) b h (fun w hw => (hF w hw).1) (fun _ _ => trivial) i
  ok {w u w'} _ hFw := fun ⟨hknown, s, hs, hv⟩ he _ => by
    have hvalue : s.value? i = some (.object p) := hφ hknown ▸ hv.value? hbot (by simp)
    have hi : 0 ≤ i := hφ hknown ▸ Int.natCast_nonneg _
    obtain ⟨d, hd, hrest⟩ := (reads_classDecl c).bind_eq_ok he
    obtain ⟨_, w0, hnote, hrest⟩ := bind_ok_iff.mp hrest
    obtain rfl : w.noteRace o = w0 := (Prod.mk.inj hnote).2
    obtain ⟨share, w1, htake, hrest⟩ := bind_ok_iff.mp hrest
    obtain ⟨ptr, hptr, -⟩ := (reads_readHeap h _).bind_eq_ok hrest
    obtain ⟨x, hx⟩ : ∃ x, s.object? p = some x := by
      obtain ⟨t, ht, hat, -⟩ := exec_readHeap_eq_ok.mp hptr
      rw [(parts_of_take htake).1] at ht
      cases hs.symm.trans ht
      cases hx : s.object? p with
      | some x => exact ⟨x, rfl⟩
      | none => simp [pointerAt, hvalue, deref, hx, Except.map] at hat
    obtain ⟨⟨br, hbr, -⟩, -⟩ := hF w hFw
    obtain ⟨log, hexec⟩ := exec_bindWrapper hs (hv.bottom_le hbot) hi hvalue hx
      (exec_classDecl_eq_ok.mp hd).1 hbr htake
    cases hexec.symm.trans he
    refine ⟨hknown, s.mark p d.key w.records.size, ?_, hv.of_eq rfl rfl⟩
    exact (World.heaps_bindOn (w := w.noteRace o) htake hs rfl h).trans (if_pos rfl)
  fault _ _ _ he _ := absurd he (sure_bindWrapper o c i _ _ _)

omit hbot in
theorem ends_pushWrapper (cls : String) (r : RecordId) : Ends F T (Above φ h s0 vs) (pushWrapper b h cls r)
      (fun _ w => ∃ p, Above φ h s0 (vs ++ [.object p]) w) (Above φ h s0 vs) := by
  refine .read (reads_record r) fun x => ?_
  simp only [fail_bind]
  refine .ite (fun _ => .fail fun _ => id) fun _ => .read (reads_readHeap _ _) fun _ => ?_
  have hpush : Ends F T (Above φ h s0 vs) (changeHeap h (·.pushPointer x.ptr))
      (fun _ => Above φ h s0 (vs ++ [.object x.ptr])) (Above φ h s0 vs) := by
    refine ends_changeHeap (keeps_changeHeap amends_pushPointer) fun s s' hv he => ?_
    obtain ⟨-, rfl⟩ := pushPointer_eq_ok.mp he
    exact hv.push _
  refine hpush.catchFault.bind fun done => ?_
  cases done with
  | ok _ =>
    refine (ends_fixes_sure (keeps_modifyBridge ?_) (fixes_modify fun _ => rfl)
      (sure_modify _)).post fun _ _ hw => ⟨_, hw⟩
    exact fun _ => ⟨rfl, rfl, rfl⟩
  | error f => exact .fail fun _ => id

theorem ends_wrap (hF : F.Gives (standing b h k)) (o : NativeId) (c : ClassId) :
    Ends F (calm h k) (Above φ h s0 vs) (wrap (hostAt n) b o c)
      (fun _ w => ∃ p, Above φ h s0 (vs ++ [.object p]) w) (Above φ h s0 vs) := by
  refine .read (reads_classDecl c) fun d => ends_bridge hF fun br hbr => ?_
  subst hbr
  refine .read (reads_isDisposed o) fun disposed => ?_
  simp only [fail_bind]
  refine .ite (fun _ => .fail fun _ => id) fun _ => .read (reads_native o) fun x => ?_
  split
  · exact ends_pushWrapper d.name _
  · refine (ends_fixes (keeps_register b c) (fixes_register (fun _ _ _ => rfl) c)).bind fun _ =>
      (ends_blankWrapper hbot hF c).bind_exists fun i p => ?_
    exact (ends_bindWrapper hbot hF And.right o c).post fun _ _ hw => ⟨_, hw.imp And.left⟩

theorem ends_pushNative (hF : F.Gives (standing b h k)) (o : Option NativeId) :
    Ends F (calm h k) (Above φ h s0 vs) (pushNative (hostAt n) b o)
      (fun _ w => ∃ v, Above φ h s0 (vs ++ [v]) w) (Above φ h s0 vs) := by
  cases o with
  | none =>
    refine ends_bridge hF fun br hbr => ?_
    subst hbr
    exact .read (reads_readHeap _ _) fun _ => (ends_push rfl).post fun _ _ hw => ⟨_, hw⟩
  | some o =>
    exact .read (reads_native o) fun x =>
      .read (reads_classForType b _) fun c => (ends_wrap hbot hF o c).post fun _ _ ⟨p, hw⟩ => ⟨.object p, hw⟩

/-! ## Values -/

theorem ends_pushElements {push : NativeValue → Nat → M Unit} (hφ : φ → obj = ((s0.height + vs.length : Nat) : Int))
    (hpush : ∀ v i, Ends F T (Above φ h s0 (vs ++ [.object p])) (push v i)
      (fun _ w => ∃ u, Above φ h s0 (vs ++ [.object p] ++ [u]) w) (Above φ h s0 (vs ++ [.object p])))
    (i : Nat) (elems : List NativeValue) :
    Ends F T (Above φ h s0 (vs ++ [.object p])) (pushElements h obj push i elems)
      (fun _ => Above φ h s0 (vs ++ [.object p])) (Above φ h s0 vs) := by
  induction elems generalizing i with
  | nil => exact .pure fun _ => id
  | cons v rest ih =>
    refine (Ends.onFault (hpush v i) (ends_popN rfl)).bind_exists fun _ u => ?_
    have hput : Ends F T (Above φ h s0 (vs ++ [.object p] ++ [u]))
        (changeHeap h (·.putProp obj (toString i))) (fun _ => Above φ h s0 (vs ++ [.object p]))
        fun _ => False :=
      ends_putProp hbot (p := p) fun hknown s hv => hφ hknown ▸ hv.value? hbot (by simp)
    exact hput.ignoreFault.bind_exists fun _ _ => ih (i + 1)

end Frame

mutual

theorem ends_pushValue (hbot : s0.bottom ≤ s0.stack.size) (hF : F.Gives (standing b h k)) (codec : Codec)
    (v : NativeValue) (path : List String) (φ : Prop) (vs : List Value) :
    Ends F (calm h k) (Above φ h s0 vs) (pushValue (hostAt n) b codec v path)
      (fun _ w => ∃ u, codec.Shows v u ∧ Above φ h s0 (vs ++ [u]) w) (Above φ h s0 vs) := by
  match codec with
  | .mk type name shape =>
    refine ends_bridge hF fun br hbr => ?_
    rw [hbr]
    exact .read (reads_readHeap _ _) fun _ =>
      ends_pushShape hbot hF type name shape v path φ vs
termination_by sizeOf codec

theorem ends_pushShape (hbot : s0.bottom ≤ s0.stack.size) (hF : F.Gives (standing b h k))
    (type : NativeType) (name : String) (shape : CodecShape) (v : NativeValue) (path : List String)
    (φ : Prop) (vs : List Value) :
    Ends F (calm h k) (Above φ h s0 vs) (pushShape (hostAt n) b h type name shape v path)
      (fun _ w => ∃ u, (Codec.mk type name shape).Shows v u ∧ Above φ h s0 (vs ++ [u]) w)
      (Above φ h s0 vs) := by
  have hplain : ∀ u : Value, u.object? = none → (Codec.mk type name shape).Shows v u →
      Ends F (calm h k) (Above φ h s0 vs) (modifyHeap h (·.push u))
        (fun _ w => ∃ u, (Codec.mk type name shape).Shows v u ∧ Above φ h s0 (vs ++ [u]) w)
        (Above φ h s0 vs) := fun u hu hshows => (ends_push hu).post fun _ _ hw => ⟨u, hshows, hw⟩
  have hobject : (Codec.mk type name shape).absent v = false →
      ∀ p, (Codec.mk type name shape).Shows v (.object p) := fun h _ => Codec.shows_of_ne h nofun nofun
  have hexternal : (Codec.mk type name shape).absent v = false → ∀ data,
      Ends F (calm h k) (Above φ h s0 vs) (pushExternal (hostAt n) h data)
        (fun _ w => ∃ u, (Codec.mk type name shape).Shows v u ∧ Above φ h s0 (vs ++ [u]) w)
        (Above φ h s0 vs) := fun hpresent data =>
    (ends_pushNew hbot (.of_body _)).bind_exists fun _ p =>
      .pure fun _ hw => ⟨.object p, hobject hpresent p, hw.imp And.left⟩
  rw [pushShape.eq_def]
  split
  · exact hplain _ rfl (Codec.shows_of_ne rfl nofun nofun)
  · exact hplain _ rfl (Codec.shows_of_ne rfl nofun nofun)
  · exact hplain _ rfl (Codec.shows_of_ne rfl nofun nofun)
  · refine .ite (fun _ => ?_) fun _ => .crash
    split
    · exact hplain _ rfl (Codec.shows_of_ne rfl nofun nofun)
    · exact .fail fun _ => id
  · exact .ite (fun _ => hplain _ rfl (Codec.shows_of_ne rfl nofun nofun)) fun _ => .fail fun _ => id
  · exact hexternal rfl _
  · exact hexternal rfl _
  · refine .read (reads_readHeap _ _) fun _ =>
      (ends_pushNew hbot (.of_body _)).bind_exists fun obj p => ?_
    exact (ends_pushFields hbot hF And.right _ _ _).mono (fun _ => id)
      (fun _ _ hw => ⟨.object p, hobject rfl p, hw.imp And.left⟩) fun _ hw => hw.imp And.left
  · refine .read (reads_readHeap _ _) fun _ =>
      (ends_pushNew hbot (.of_body _)).bind_exists fun obj p => ?_
    refine ((Ends.of_reads (reads_sliceElements _)).sure fun w e w' _ =>
      sure_sliceElements _ w e w').bind fun elems => ?_
    refine ((ends_pushElements hbot And.right (fun v i => ?_) 0 elems).mono (fun _ => id) (fun _ _ => id)
      fun _ hw => hw.imp And.left).bind fun _ => (ends_push rfl).bind fun _ => ?_
    · exact (ends_pushValue hbot hF _ v _ _ _).post fun _ _ ⟨u, _, hw⟩ => ⟨u, hw⟩
    · refine (Ends.ignoreFault (ends_putProp hbot (p := p) fun hknown s hv => ?_)).post
        fun _ _ ⟨_, hw⟩ => ⟨.object p, hobject rfl p, hw.imp And.left⟩
      rw [hknown.2]
      exact hv.value? hbot (by simp)
  · exact hplain _ rfl ⟨iff_of_true rfl rfl, nofun⟩
  · rename_i v _ _ _ _ _ elem hpresent
    unfold Codec.Shows
    rw [Codec.absent_option hpresent]
    split
    · exact ends_pushValue hbot hF elem v _ φ vs
    split
    · exact ends_pushValue hbot hF elem _ _ φ vs
    · exact ends_pushValue hbot hF elem _ _ φ vs
    · exact .crash
  · exact .fail fun _ => id
  · refine .read (reads_classForResource b _) fun c =>
      (ends_fixes_sure (keeps_breach _) (fixes_modify fun _ => rfl) (sure_modify _)).bind fun _ =>
      (ends_wrap hbot hF _ c).catchFault.bind fun r => ?_
    cases r with
    | ok _ => exact .pure fun _ ⟨p, hw⟩ => ⟨.object p, hobject rfl p, hw⟩
    | error f => exact .fail fun _ => id
  · exact .crash
termination_by sizeOf shape

theorem ends_pushFields (hbot : s0.bottom ≤ s0.stack.size) (hF : F.Gives (standing b h k)) {obj : Int}
    {p : HeapPtr} {φ : Prop} {vs : List Value} (hφ : φ → obj = ((s0.height + vs.length : Nat) : Int))
    (fields : CodecFields) (values : List NativeValue) (path : List String) :
    Ends F (calm h k) (Above φ h s0 (vs ++ [.object p])) (pushFields (hostAt n) b h obj fields values path)
      (fun _ => Above φ h s0 (vs ++ [.object p])) (Above φ h s0 vs) := by
  match fields with
  | .nil =>
    rw [pushFields]
    exact .pure fun _ => id
  | .cons name _ index codec rest =>
    rw [pushFields]
    refine ((Ends.of_reads (reads_need _)).sure fun w e w' _ => sure_need _ w e w').bind fun v => ?_
    refine (Ends.onFault ((ends_pushValue hbot hF codec v _ _ _).post fun _ _ ⟨u, _, hw⟩ => ⟨u, hw⟩)
      (ends_popN rfl)).bind_exists fun _ u => ?_
    refine (Ends.onFault (E := fun _ => False) (ends_putProp hbot (p := p) fun hknown s hv => ?_)
      (ends_never (keeps_popN h 1))).bind fun _ => ends_pushFields hbot hF hφ rest values path
    rw [hφ hknown]
    exact hv.value? hbot (by simp)
termination_by sizeOf fields

end

/-! ## Modules -/

section Frame

variable (hbot : s0.bottom ≤ s0.stack.size)
include hbot

theorem ends_prototype (hF : F.Gives (standing b h j)) (c : ClassId) :
    Ends F (calm h k) (Above φ h s0 vs) (prototype (hostAt n) b c)
      (fun _ w => ∃ v, Above φ h s0 (vs ++ [v]) w) (Above φ h s0 vs) :=
  (ends_fixes (keeps_register b c) (fixes_register (fun _ _ _ => rfl) c)).bind fun _ => ends_pushPrototype hbot hF c

theorem ends_pushClass (hF : F.Gives (standing b h j)) (c : ClassId) :
    Ends F (calm h k) (Above φ h s0 (vs ++ [v])) (pushClass (hostAt n) b h c)
      (fun _ w => ∃ u, Above φ h s0 (vs ++ [v] ++ [u]) w) (Above φ h s0 vs) := by
  have hrest : ∀ p, Ends F (calm h k) (Above φ h s0 (vs ++ [v] ++ [.object p])) (do
      onFault (pushPrototype (hostAt n) b c) (changeHeap h (·.popN 2))
      ignoreFault (changeHeap h (·.putProp (-2) "prototype")))
      (fun _ w => ∃ u, Above φ h s0 (vs ++ [v] ++ [u]) w) (Above φ h s0 vs) := by
    intro p
    have hpop : Ends F (calm h k) (Above φ h s0 (vs ++ [v, .object p])) (changeHeap h (·.popN 2))
        (fun _ => Above φ h s0 vs) (Above φ h s0 vs) := ends_popN rfl
    refine (Ends.onFault (ends_pushPrototype hbot hF c) (hpop.pre fun w hw => by
      simpa using hw)).bind_exists fun _ u => ?_
    refine (Ends.ignoreFault (ends_putProp hbot (p := p) fun _ s hv => ?_)).post fun _ _ ⟨_, hw⟩ => ⟨.object p, hw⟩
    rw [List.append_assoc] at hv
    exact hv.value?_neg hbot (k := 2) rfl
  refine ((Ends.of_reads (reads_classDecl c)).sure fun w e w' _ => sure_look _ w e w').bind fun d => ?_
  cases hd : d.constructor with
  | some f =>
    exact (ends_pushNew hbot (by exact .named ..)).bind_exists fun _ p =>
      (hrest p).pre fun _ hw => hw.imp And.left
  | none =>
    exact (ends_pushNew hbot (by exact .of_body _)).bind_exists fun _ p =>
      (hrest p).pre fun _ hw => hw.imp And.left

theorem ends_pushCases (cases : List String) : Ends F (calm h k) (Above φ h s0 vs)
    (pushCases (hostAt n) h cases) (fun _ w => ∃ u, Above φ h s0 (vs ++ [u]) w) E := by
  refine (ends_pushNew hbot (.of_body _)).bind_exists fun table p => ?_
  refine (Ends.forM fun e _ => (ends_push rfl).bind fun _ => ?_).post fun _ _ hw => ⟨.object p, hw.imp And.left⟩
  refine (Ends.ignoreFault (ends_putProp hbot (p := p) fun hknown s hv => ?_)).post fun _ _ ⟨_, hw⟩ => hw
  rw [hknown.2]
  exact hv.value? hbot (by simp)

theorem ends_pushModule (hF : F.Gives (standing b h j)) (m : Nat) :
    Ends F (calm h k) (Above φ h s0 vs) (pushModule (hostAt n) b m)
      (fun _ w => ∃ u, Above φ h s0 (vs ++ [u]) w) (Above φ h s0 vs) := by
  refine .read (reads_checkModule m) fun _ => (Ends.of_reads (reads_moduleDecl m)).bind fun d => ?_
  unfold pushNamespace
  simp only [bind_assoc, pure_bind]
  refine (Ends.forM fun c _ => ends_fixes (keeps_register b c) (fixes_register (fun _ _ _ => rfl) c)).bind fun _ =>
    ends_bridge hF fun br hbr => ?_
  subst hbr
  refine .read (reads_readHeap _ _) fun _ =>
    (ends_pushNew hbot (.of_body _)).bind_exists fun ns p => ?_
  -- Whatever is on top of the object becomes a property of it.
  have hput : ∀ u key, Ends F (calm br.heapId k)
      (Above (φ ∧ ns = ((s0.height + vs.length : Nat) : Int)) br.heapId s0 (vs ++ [.object p] ++ [u]))
      (ignoreFault (changeHeap br.heapId (·.putProp ns key)))
      (fun _ => Above (φ ∧ ns = ((s0.height + vs.length : Nat) : Int)) br.heapId s0
        (vs ++ [.object p])) (Above φ br.heapId s0 vs) := by
    intro u key
    refine (Ends.ignoreFault (ends_putProp hbot (p := p) fun hknown s hv => ?_)).post fun _ _ ⟨_, hw⟩ => hw
    rw [hknown.2]
    exact hv.value? hbot (by simp)
  refine (Ends.forM fun f _ => (ends_pushNew hbot (.named ..)).bind_exists fun _ q =>
    (hput _ f.name).pre fun _ hw => hw.imp And.left).bind fun _ => ?_
  refine (Ends.forM fun c _ => ?_).bind fun _ =>
    (Ends.forM fun e _ => (ends_pushCases hbot _).bind_exists fun _ u => hput u _).bind fun _ => ?_
  · refine ((ends_pushClass hbot hF c).mono (fun _ => id) (fun _ _ => id) fun _ hw =>
      hw.imp And.left).bind_exists fun _ u => ?_
    exact ((Ends.of_reads (reads_classDecl c)).sure fun w e w' _ => sure_look _ w e w').bind fun d => hput u _
  · refine ((Ends.of_reads (reads_bridge b)).sure fun w e w' _ => sure_look _ w e w').bind fun _ => ?_
    exact (ends_fixes_sure (keeps_log _ _ _ _) (fixes_log (fun _ _ => rfl) _ _ _ _)
      (sure_log _ _ _ _)).post fun _ _ hw => ⟨.object p, hw.imp And.left⟩

theorem ends_install (hF : F.Gives (standing b h j)) (m : Nat) :
    Ends F (calm h k) (Above φ h s0 vs) (install (hostAt n) b m) (fun _ => Above φ h s0 vs) (Above φ h s0 vs) := by
  refine ends_bridge hF fun br hbr => ?_
  subst hbr
  have hglobal : Keeps F (modifyHeap br.heapId fun s => s.push (.object s.global)) :=
    keeps_modifyHeap fun _ _ _ _ _ => amends_push fun hs => holdsValue_object.mpr hs.global
  refine .read (reads_readHeap _ _) fun _ =>
    (ends_modifyHeap hglobal fun s hv => ⟨s.global, hv.push _⟩).bind_exists fun _ g => ?_
  refine (Ends.onFault (ends_pushModule hbot hF m) (ends_popN rfl)).bind_exists fun _ u => ?_
  refine ((Ends.of_reads (reads_moduleDecl m)).sure fun w e w' _ => sure_look _ w e w').bind fun d => ?_
  refine (Ends.catchFault (E := fun _ => False) (ends_putProp hbot (p := g) fun _ s hv => ?_)).bind fun done => ?_
  · rw [List.append_assoc] at hv
    exact hv.value?_neg hbot (k := 2) rfl
  · cases done with
    | ok _ => exact (ends_popN rfl).bind fun _ => .of_reads (reads_ofExcept _)
    | error f => exact ends_never ((keeps_popN _ 1).bind fun _ => keeps_ofExcept _)

theorem ends_equip (strict : Bool) : Ends F (calm h k) (Above φ h s0 (vs ++ [.object q])) (equip (hostAt n) h strict)
      (fun _ => Above φ h s0 vs) (Above φ h s0 vs) := by
  have hput : ∀ u key, Ends F (calm h k)
      (Above φ h s0 (vs ++ [.object q] ++ [u])) (ignoreFault (changeHeap h (·.putHidden (-2) key)))
      (fun _ => Above φ h s0 (vs ++ [.object q])) (Above φ h s0 vs) := by
    intro u key
    refine (Ends.ignoreFault (ends_putHidden hbot (plain_putHidden (-2) key) (p := q)
      fun _ s hv => ?_)).post fun _ _ ⟨_, hw⟩ => hw
    rw [List.append_assoc] at hv
    exact hv.value?_neg hbot (k := 2) rfl
  have hrest : ∀ b' : BridgeId, Ends F (calm h k) (Above φ h s0 (vs ++ [.object q])) (do
      modifyHeap h (·.push (.pointer (.bridge b')))
      ignoreFault (changeHeap h (·.putHidden (-2) bridgeKey))
      let _ ← pushFunc (hostAt n) h "heapbridge.finalize" 1 (some (.finalizer b'))
      ignoreFault (changeHeap h (·.putHidden (-2) finalizerKey))
      changeHeap h (·.popN 1)
      return b') (fun _ => Above φ h s0 vs) (Above φ h s0 vs) := fun b' =>
    (ends_push rfl).bind fun _ => (hput _ _).bind fun _ =>
      (ends_pushNew hbot (.named ..)).bind_exists fun _ p =>
      ((hput _ _).pre fun _ hw => hw.imp And.left).bind fun _ => (ends_popN rfl).bind fun _ =>
      .pure fun _ => id
  have hnew : ∀ w : World, w.Chronicled → chronicle.Good w
      { w with bridges := w.bridges.push { heapId := h, strict, logs := w.logging } } := fun w hw =>
    IsPlain.books (R := chronicle) hw (w.books_newBridge _ rfl)
  refine ⟨fun w hw hFw => (hnew w hw).trans
      ((hrest w.bridges.size).keeps _ (hnew w hw).1 (F.stable (hnew w hw).2 hFw)),
    fun {w _ _} hw hFw hP he hT => ?_,
    fun {w _ _} hw hFw hP he hT => ?_⟩
  · exact (hrest w.bridges.size).ok (hnew w hw).1 (F.stable (hnew w hw).2 hFw) ⟨hP.known, hP.heap⟩ he hT
  · exact (hrest w.bridges.size).fault (hnew w hw).1 (F.stable (hnew w hw).2 hFw) ⟨hP.known, hP.heap⟩ he hT

theorem ends_attach (strict : Bool) : Ends F (calm h k) (Above φ h s0 vs)
    (Bridge.attach (hostAt n) (some h) strict) (fun _ => Above φ h s0 vs) (Above φ h s0 vs) := by
  refine .read (reads_heap h) fun s => ?_
  simp only [fail_bind]
  refine .ite (fun _ => .fail fun _ => id) fun _ => .read (reads_readHeap _ _) fun _ =>
    (ends_modifyHeap (plain_pushStash _) fun s hv => ⟨s.stash, hv.push _⟩).bind_exists fun _ q => ?_
  have hread : Sure (readHeap h (·.hasHidden (-1) bridgeKey)) := sure_readHeap fun s e => by
    unfold hasHidden deref
    split
    · split <;> simp [Except.map]
    · simp
  refine ((Ends.of_reads (reads_readHeap _ _)).sure fun w e w' _ => hread w e w').bind fun found =>
    .ite (fun _ => (ends_popN rfl).bind fun _ => .fail fun _ => id) fun _ => ends_equip hbot strict

end Frame

end Regime

/-! ## Reading values back -/

namespace Regime

open Bridge M

variable {R : Regime} {F : R.Fact} {T : R.Test} {H : Array Heap}

theorem ends_heaps {x : M α} (hk : Keeps F x) (hx : Fixes World.heaps x) :
    Ends F T (·.heaps = H) x (fun _ => (·.heaps = H)) (·.heaps = H) :=
  ⟨hk, fun _ _ hP he _ => (hx.exec he).trans hP, fun _ _ hP he _ => (hx.exec he).trans hP⟩

theorem fixes_sliceOf (type : NativeType) (elems : List NativeValue) : Fixes World.heaps (sliceOf type elems) := by
  unfold sliceOf
  split
  · exact (reads_get.fixes _).bind fun _ => Fixes.bind (fixes_modify fun _ => rfl) fun _ =>
      (reads_pure _).fixes _
  · exact (reads_pure _).fixes _

theorem fixes_pointerTo (target : NativeType) (v : NativeValue) : Fixes World.heaps (pointerTo target v) := by
  unfold pointerTo
  split
  · exact (reads_get.fixes _).bind fun _ => Fixes.bind (fixes_modify fun _ => rfl) fun _ =>
      (reads_pure _).fixes _
  · exact (reads_pure _).fixes _

def Pushed (H : Array Heap) (h : HeapId) (v : Value) (w : World) : Prop :=
  ∃ s, H[h]? = some s ∧ w.heaps = H.modify h fun _ => s.push v

theorem ends_getProp (obj : Int) (key : String) :
    Ends F T (·.heaps = H) (onHeap h (·.getProp obj key)) (fun _ w => ∃ v, Pushed H h v w) (·.heaps = H) where
  keeps := keeps_onHeap Heap.amends_getProp
  ok _ _ hP he _ := by
    subst hP
    obtain ⟨s, s', hs, hget, rfl⟩ := exec_onHeap_eq_ok.mp he
    obtain ⟨v, rfl⟩ := Heap.getProp_eq_ok hget
    exact ⟨v, s, hs, rfl⟩
  fault {w f w'} _ _ hP he _ := by
    rcases exec_bind_eq_fault he with hread | ⟨s, w1, hread, hrest⟩
    · exact absurd hread (sure_look _ _ _ _)
    · obtain ⟨hs, rfl⟩ := exec_heap_eq_ok.mp hread
      cases hget : s.getProp obj key with
      | error e => exact (Prod.mk.inj ((exec_onHeap_error hs hget).symm.trans he)).2 ▸ hP
      | ok out => simpa using (exec_onHeap_ok hs hget).symm.trans he

theorem ends_unpush {v : Value} : Ends F T (Pushed H h v) (changeHeap h (·.popN 1)) (fun _ => (·.heaps = H)) E := by
  refine Ends.sure (E := fun _ => True) ⟨keeps_popN h 1, fun {w _ _} _ _ hP he _ => ?_,
    fun _ _ _ _ _ => trivial⟩ fun w e w' hP => changeHeap_ne_fault fun _ _ _ => Heap.popN_ne_fault
  obtain ⟨s, hs, hw⟩ := hP
  have hs1 : w.heaps[h]? = some (s.push v) := by
    rw [hw, Array.getElem?_modify, if_pos rfl, hs]
    rfl
  obtain ⟨t, s', ht, hpop, rfl⟩ := exec_changeHeap_eq_ok.mp he
  cases hs1.symm.trans ht
  obtain ⟨rfl, -⟩ := Heap.popN_eq hpop
  have hback : (s.push v).truncate ((s.push v).stack.size - (1 : Int).toNat) = s := by
    simp [Heap.truncate, Heap.push]
  rw [hback]
  show w.heaps.modify h (fun _ => s) = H
  rw [hw]
  have hself := World.setHeap_setHeap { w with heaps := H } h (s.push v) s
  rw [World.setHeap_self (w := { w with heaps := H }) hs] at hself
  exact congrArg World.heaps hself

theorem ends_requireProp (h : HeapId) (obj : Int) (key : String) (absent : Fault) {read : M NativeValue}
    (hread : ∀ H, Ends F T (·.heaps = H) read (fun _ => (·.heaps = H)) (·.heaps = H)) (H : Array Heap) :
    Ends F T (·.heaps = H) (requireProp h obj key absent read) (fun _ => (·.heaps = H)) (·.heaps = H) := by
  refine (ends_getProp obj key).bind_exists fun found v => ?_
  have hinside : Ends F T (Pushed H h v) read (fun _ => Pushed H h v) (Pushed H h v) :=
    ⟨(hread H).keeps, fun hw hF ⟨s, hs, hP⟩ he hT => ⟨s, hs, (hread _).ok hw hF hP he hT⟩,
      fun hw hF ⟨s, hs, hP⟩ he hT => ⟨s, hs, (hread _).fault hw hF hP he hT⟩⟩
  have hrest : Ends F T (Pushed H h v) (do
      let v ← onFault read (changeHeap h (·.popN 1))
      changeHeap h (·.popN 1)
      return v) (fun _ => (·.heaps = H)) (·.heaps = H) :=
    (Ends.onFault hinside ends_unpush).bind fun v => ends_unpush.bind fun _ => .pure fun _ => id
  exact .ite (fun _ => ends_unpush.bind fun _ => .fail fun _ => id) fun _ => hrest

theorem ends_requireValue (codec : Codec) (i : Int) (path : List String) (H : Array Heap) :
    Ends F T (·.heaps = H) (requireValue b codec i path) (fun _ => (·.heaps = H)) (·.heaps = H) := by
  refine ReadingRules.value (L := fun x => ∀ H, Ends F T (·.heaps = H) x (fun _ => (·.heaps = H)) (·.heaps = H))
    ⟨fun hx H => .of_reads hx, fun hx hf H => (hx H).bind fun a => hf a H, ends_requireProp, ?_, ?_⟩ codec i path H
  · exact fun type elems H => ends_heaps (keeps_sliceOf type elems) (fixes_sliceOf type elems)
  · exact fun target v H => ends_heaps (keeps_pointerTo target v) (fixes_pointerTo target v)

end Regime

/-! ## The balance -/

namespace Bridge

inductive Pushing where
  /-- A native value, by a codec. -/
  | value (codec : Codec) (v : NativeValue) (path : List String)
  /-- The wrapper of an object by its native type, or null. -/
  | native (o : Option NativeId)
  /-- The wrapper of an object as an instance of a class. -/
  | wrapper (o : NativeId) (c : ClassId)
  | prototype (c : ClassId)
  | module (m : Nat)

def Pushing.run (host : Host) (b : BridgeId) : Pushing → M Unit
  | .value codec v path => pushValue host b codec v path
  | .native o => pushNative host b o
  | .wrapper o c => wrap host b o c
  | .prototype c => Bridge.prototype host b c
  | .module m => pushModule host b m

def Pushing.wraps : Pushing → Bool
  | .value _ _ _ | .native _ | .wrapper _ _ => true
  | .prototype _ | .module _ => false

inductive Reading where
  /-- A native value, by a codec. -/
  | value (codec : Codec) (i : Int) (path : List String)
  /-- The object of a wrapper of a class. -/
  | object (i : Int) (c : ClassId)
  /-- The object of a wrapper, as a value of a native type. -/
  | typed (i : Int) (type : NativeType)
  /-- The record of a wrapper. -/
  | record (i : Int)
  /-- The bridge of a heap. -/
  | attached (h : Option HeapId)

def Reading.run (b : BridgeId) : Reading → M Unit
  | .value codec i path => do let _ ← requireValue b codec i path
  | .object i c => do let _ ← unwrap b i c
  | .typed i type => do let _ ← unwrapType b i type
  | .record i => do let _ ← recordAt b i
  | .attached h => do let _ ← attachedTo h

/-- The operations that work on the stack and leave it as it was. -/
inductive Setting where
  /-- A module is put on the global object. -/
  | install (m : Nat)
  /-- A new bridge is attached. -/
  | attach (strict : Bool)

def Setting.run (host : Host) (b : BridgeId) (h : HeapId) : Setting → M Unit
  | .install m => Bridge.install host b m
  | .attach strict => do let _ ← Bridge.attach host (some h) strict

end Bridge

namespace Regime

open Bridge M

def always : chronicle.Test := ⟨fun _ => True, fun _ => id⟩

theorem ends_pushing {s0 : Heap} (hbot : s0.bottom ≤ s0.stack.size) {F : chronicle.Fact} {j k : Nat}
    (hF : F.Gives (standing b h j)) (op : Pushing) (hk : op.wraps = true → j = k) :
    Ends F (calm h k) (Above True h s0 []) (op.run (hostAt n) b)
      (fun _ w => ∃ v, Above True h s0 [v] w) (Above True h s0 []) := by
  cases op with
  | value codec v path =>
    obtain rfl := hk rfl
    exact (ends_pushValue hbot hF codec v path True []).post fun _ _ ⟨u, _, hw⟩ => ⟨u, hw⟩
  | native o =>
    obtain rfl := hk rfl
    exact ends_pushNative hbot hF o
  | wrapper o c =>
    obtain rfl := hk rfl
    exact (ends_wrap hbot hF o c).post fun _ _ ⟨p, hw⟩ => ⟨.object p, hw⟩
  | prototype c => exact ends_prototype hbot hF c
  | module m => exact ends_pushModule hbot hF m

theorem ends_reading {F : chronicle.Fact} (op : Reading) (H : Array Heap) :
    Ends F always (·.heaps = H) (op.run b) (fun _ => (·.heaps = H)) (·.heaps = H) := by
  cases op with
  | value codec i path => exact (ends_requireValue codec i path H).bind fun _ => .pure fun _ => id
  | object i c => exact .read (reads_unwrap b i c) fun _ => .pure fun _ => id
  | typed i type => exact .read (reads_unwrapType b i type) fun _ => .pure fun _ => id
  | record i => exact .read (reads_recordAt b i) fun _ => .pure fun _ => id
  | attached h => exact .read (reads_attachedTo h) fun _ => .pure fun _ => id

end Regime

open Bridge Regime in
/-- **Balance of bridges.** Take any world that native code can reach and a heap of it. Operations run
whatever finalizers their allocations start; let them neither crash nor close the heap. Pushing a native
value, a wrapper, a prototype or a module leaves exactly one value more if it succeeds, and the stack as
it was if it stops with a fault, provided that no new wrapper refused its prototype or finalizer on the
way. Installing a module and attaching a bridge leave the stack as it was in both cases. Reading values,
wrappers and records leaves all heaps as they were. -/
theorem bridges_balance {n : Nat} {w : World} {b : BridgeId} {h : HeapId} {s : Heap} (hw : w.Chronicled)
    (hs : w.heaps[h]? = some s) (r : Except Stop Unit) (hr : ∀ c, r ≠ .error (.crash c)) (w' : World) :
    (∀ op : Pushing, w.Based b h → (op.run (hostAt n) b).exec w = (r, w') →
      (∀ s', w'.heaps[h]? = some s' → s'.closed = false) → w'.breaches.counts = false →
      (op.wraps = true → w'.breaches.refusals = w.breaches.refusals) →
      ∃ s', w'.heaps[h]? = some s' ∧ s'.frames = s.frames ∧ (r = .ok () → ∃ v, s'.stack = s.stack.push v) ∧
        ∀ f, r = .error (.fault f) → s'.stack = s.stack) ∧
    (∀ op : Setting, w.Based b h ∨ (∃ strict, op = .attach strict) → (op.run (hostAt n) b h).exec w = (r, w') →
      (∀ s', w'.heaps[h]? = some s' → s'.closed = false) → w'.breaches.counts = false →
      ∃ s', w'.heaps[h]? = some s' ∧ s'.frames = s.frames ∧ s'.stack = s.stack) ∧
    ∀ op : Reading, (op.run b).exec w = (r, w') → w'.heaps = w.heaps := by
  have hbot : s.bottom ≤ s.stack.size := (hw.heaps h s hs).bottom_le
  have hstart : World.Above True h s [] w := ⟨trivial, s, hs, Heap.tops_self s⟩
  have hsame : World.Above True h s [] w' →
      ∃ s', w'.heaps[h]? = some s' ∧ s'.frames = s.frames ∧ s'.stack = s.stack := by
    rintro ⟨-, s', hs', htop⟩
    exact ⟨s', hs', htop.frames, by simpa using htop.stack⟩
  refine ⟨fun op hb he hopen hcounts hrefusals => ?_, fun op hb he hopen hcounts => ?_, fun op he => ?_⟩
  · let j := if op.wraps then w.breaches.refusals else 0
    have hF : (standing b h j).holds w := ⟨hb, by simp only [j]; split <;> omega⟩
    have hT : (calm h w'.breaches.refusals).passes w' := ⟨hcounts, Nat.le_refl _, hopen⟩
    have hends := ends_pushing (n := n) hbot (F := standing b h j) .rfl op (k := w'.breaches.refusals)
      fun hwraps => by simp only [j, hwraps, if_true]; exact (hrefusals hwraps).symm
    rcases r with (f | c) | ⟨⟩
    · obtain ⟨s', hs', hframes, hstack⟩ := hsame (hends.fault hw hF hstart he hT)
      exact ⟨s', hs', hframes, by simp, fun _ _ => hstack⟩
    · exact absurd rfl (hr c)
    · obtain ⟨v, -, s', hs', htop⟩ := hends.ok hw hF hstart he hT
      exact ⟨s', hs', htop.frames, fun _ => ⟨v, by simpa using htop.stack⟩, by simp⟩
  · have hT : (calm h w'.breaches.refusals).passes w' := ⟨hcounts, Nat.le_refl _, hopen⟩
    have hends : ∃ F : chronicle.Fact, F.holds w ∧
        Ends F (calm h w'.breaches.refusals) (World.Above True h s []) (op.run (hostAt n) b h)
          (fun _ => World.Above True h s []) (World.Above True h s []) := by
      cases op with
      | install m =>
        have hb : w.Based b h := hb.resolve_right (by simp)
        exact ⟨standing b h 0, ⟨hb, Nat.zero_le _⟩, ends_install hbot .rfl m⟩
      | attach strict =>
        exact ⟨noFact, trivial, (ends_attach hbot strict).bind fun _ => .pure fun _ => id⟩
    obtain ⟨F, hF, hends⟩ := hends
    rcases r with (f | c) | ⟨⟩
    · exact hsame (hends.fault hw hF hstart he hT)
    · exact absurd rfl (hr c)
    · exact hsame (hends.ok hw hF hstart he hT)
  · have hends := ends_reading (b := b) (F := noFact) op w.heaps
    rcases r with (f | c) | ⟨⟩
    · exact hends.fault hw trivial rfl he trivial
    · exact absurd rfl (hr c)
    · exact hends.ok hw trivial rfl he trivial

theorem aboutToWrap_parts : ∃ br, (aboutToWrap.world 2 false).bridges[0]? = some br ∧ br.heapId = 0 ∧
    ∃ s, (aboutToWrap.world 2 false).heaps[0]? = some s ∧ s.counters.finalizers = 0 ∧
      (aboutToWrap.world 2 false).breaches.refusals = 0 := by decide +kernel

/-- The gadget is wrapped, after a collection that runs a finalizer, which wraps the gadget as well. -/
theorem bridges_balance_aboutToWrap : ∃ (w' : World) (s s' : Heap) (v : Value),
    (Bridge.pushNative (hostAt 2) 0 (some 0)).exec (aboutToWrap.world 2 false) = (.ok (), w') ∧
    (aboutToWrap.world 2 false).heaps[0]? = some s ∧ w'.heaps[0]? = some s' ∧
    s'.counters.finalizers = s.counters.finalizers + 1 ∧ s'.stack = s.stack.push v := by
  obtain ⟨br, hbr, hid, s, hs, hbefore, hrefusals⟩ := aboutToWrap_parts
  have hend : (fun r : Except Stop Unit × World => r.1 = .ok () ∧ (∃ s, r.2.heaps[0]? = some s ∧ s.closed = false ∧
    s.counters.finalizers = 1) ∧ r.2.breaches.counts = false ∧ r.2.breaches.refusals = 0)
    ((Bridge.pushNative (hostAt 2) 0 (some 0)).exec (aboutToWrap.world 2 false)) := by decide +kernel
  have hw := Regime.chronicled_world aboutToWrap 2 false
  generalize aboutToWrap.world 2 false = w at *
  generalize hexec : (Bridge.pushNative (hostAt 2) 0 (some 0)).exec w = res at *
  obtain ⟨_, w'⟩ := res
  obtain ⟨rfl, ⟨s', hs', hclosed, hafter⟩, hcounts, hrefusals'⟩ := hend
  obtain ⟨hpush, -⟩ := bridges_balance (n := 2) (b := 0) hw hs (.ok ()) (by simp) w'
  obtain ⟨t, ht, -, hok, -⟩ := hpush (.native (some 0)) ⟨br, hbr, hid⟩ hexec
    (fun t ht => Option.some.inj (hs'.symm.trans ht) ▸ hclosed) hcounts
    fun _ => hrefusals'.trans hrefusals.symm
  obtain rfl := Option.some.inj (hs'.symm.trans ht)
  obtain ⟨v, hv⟩ := hok rfl
  exact ⟨w', s, s', v, rfl, hs, hs', by rw [hbefore, hafter], hv⟩

end Tether
