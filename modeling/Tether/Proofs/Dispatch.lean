import Mathlib
import Tether.Proofs.Balance
import Tether.Proofs.Conformance
import Tether.Proofs.Conservation

/-!
# Calls of bound functions

A bound function is called in stages: its arguments are counted, its receiver is unwrapped, and its
arguments are read, in this order. Only then is native code entered, once, and what it gives is pushed.
-/

namespace Tether

open Bridge Ownership Heap

variable {cls : ClassId} {w w' : World} {h : HeapId} {b : BridgeId} {s : Heap} {c : Callable}
  {name : String} {receiver args out : List NativeValue} {e : Fault} {n : Nat} {w2 : World}

/-! ## Verdicts on calls -/

namespace Callable

/-- The verdict on the arguments of a frame, from a number on, by their codecs. -/
def argumentsVerdict (w : World) (b : BridgeId) (s : Heap) : Nat → List Codec → List (String × WitType) → Verdict
  | i, codec :: codecs, (name, _) :: params =>
    (Verdict.part name (codec.verdict w b s) (s.value? i)).andThen
      (argumentsVerdict w b s (i + 1) codecs params)
  | _, _, _ => .fits

variable (w b s c)

def receiverVerdict : Verdict :=
  match c.receiver with
  | none => .fits
  | some cls =>
    match w.unwrapped b s cls s.this with
    | .ok _ => .fits
    | .error u => u.under "this"

/-- The verdict on a call: that on the receiver, then that on the first argument that does not conform. -/
def verdict : Verdict :=
  (c.receiverVerdict w b s).andThen (argumentsVerdict w b s 0 c.params c.sig.params)

/-- Native code takes the object that the receiver of a frame wraps. -/
def Welcomes : Prop :=
  ∀ cls n first inputs outputs variadic, c.receiver = some cls → w.unwrapped b s cls s.this = .ok n →
    c.fn.types? = some (first :: inputs, outputs, variadic) → (NativeType.object n.sort).assignableTo first = true

/-- What native code gets for the receiver of a frame: the object that it wraps, if there is to be one. -/
def Receives (receiver : List NativeValue) : Prop :=
  c.receiver = none ∧ receiver = [] ∨ ∃ cls o n, c.receiver = some cls ∧ receiver = [.object o] ∧
    w.natives[o]? = some n ∧ w.unwrapped b s cls s.this = .ok n

variable {w b s c}

/-- The stack has the slots that unwrapping the receiver and reading the arguments need. -/
def HasRoom (c : Callable) (s : Heap) : Prop :=
  (c.receiver.isSome → (s.stack.size : Int) + 2 ≤ s.limits.stack) ∧
    ∀ codec ∈ c.params, (s.stack.size : Int) + codec.slots ≤ s.limits.stack

/-- A bound function as declarations check it: there is a codec for each parameter that native code
declares after the receiver. -/
structure Checked (c : Callable) : Prop where
  length : c.params.length = c.sig.params.length
  codecs : ∀ codec ∈ c.params, codec.Regular
  types : ∃ inputs outputs variadic, c.fn.types? = some (inputs, outputs, variadic) ∧
    inputs.drop c.receiver.toList.length = c.params.map Codec.type

theorem paramCodecs_eq_ok {fn : String} : ∀ {params : List (String × WitType)} {types : List NativeType}
    {codecs : List Codec}, types.length = params.length → paramCodecs fn params types = .ok codecs →
      codecs.length = params.length ∧ (∀ codec ∈ codecs, codec.Regular) ∧ types = codecs.map Codec.type
  | [], [], codecs, _, h => by
    cases h
    exact ⟨rfl, by simp, rfl⟩
  | [], _ :: _, _, hlength, _ | _ :: _, [], _, hlength, _ => nomatch hlength
  | (name, wit) :: params, type :: types, codecs, hlength, h => by
    obtain ⟨codec, hcodec, h⟩ := bind_eq_ok.mp h
    obtain ⟨rest, hrest, h⟩ := bind_eq_ok.mp h
    cases h
    obtain ⟨hsame, hcodecs, rfl⟩ := paramCodecs_eq_ok (Nat.succ.inj hlength) hrest
    have hcompiled : Codec.compileAt wit type [] = .ok codec := by
      unfold Codec.compile at hcodec
      simp only at hcodec
      split at hcodec
      · exact nomatch hcodec
      · cases hc : Codec.compileAt wit type [] with
        | error e => rw [hc] at hcodec; exact nomatch hcodec
        | ok x => rw [hc] at hcodec; exact hcodec
    have htyped := Codec.typed_compileAt hcompiled
    obtain rfl := htyped.type_eq
    exact ⟨congrArg (· + 1) hsame, List.forall_mem_cons.mpr ⟨htyped.regular, hcodecs⟩, rfl⟩

theorem checked_of_compile {fn : NativeFn Program} {sig : Signature} {role : Role} {c : Callable}
    (h : compile name fn sig role = .ok c) : c.Checked := by
  cases role <;> simp only [compile, bind, Except.bind, pure, Except.pure] at h <;> repeat' split at h
  all_goals cases h
  all_goals
    obtain ⟨hlength, hcodecs, htypes⟩ := paramCodecs_eq_ok (Classical.not_not.mp ‹_›) ‹paramCodecs _ _ _ = _›
    refine ⟨hlength, hcodecs, _, _, _, ‹fn.types? = _›, ?_⟩
    exact htypes

end Callable

namespace Bridge

open M Regime

variable {α : Type} {w1 : World} {br : Bridge} {type : NativeType} {v : NativeValue}

def Bare (x : M NativeValue) : Prop := ∀ w v w', x.exec w = (.ok v, w') → v ≠ .nil ∧ ∀ o, v ≠ .object o

theorem bare_pure {x : NativeValue} (hx : x ≠ .nil ∧ ∀ o, x ≠ .object o) : Bare (pure x) := fun _ _ _ he =>
  Except.ok.inj (Prod.mk.inj he).1 ▸ hx

theorem bare_fail (f : Fault) : Bare (fail f) := fun _ _ _ he => absurd (Prod.mk.inj he).1 nofun

theorem Bare.bind {x : M α} {f : α → M NativeValue} (hf : ∀ a, Bare (f a)) : Bare (x >>= f) :=
  fun _ _ _ he => by
    obtain ⟨a, w1, -, he⟩ := bind_ok_iff.mp he
    exact hf a w1 _ _ he

theorem bare_failType (i : Int) (path : List String) : Bare (failType h type i path) := .bind fun _ => bare_fail _

theorem bare_stored (type : NativeType) (v : NativeValue) : Bare (need (type.stored? v)) := by
  intro w x w' he
  obtain ⟨hx, -⟩ := exec_need_eq_ok.mp he
  unfold NativeType.stored? at hx
  split at hx <;> try split at hx
  all_goals
    cases hx
    try simp

theorem bare_requireFields (h : HeapId) (obj : Int) (type : NativeType) : ∀ fields values
    path, Bare (requireFields b h obj type fields values path)
  | .nil, _, _ => bare_pure (by simp)
  | .cons _ _ _ _ rest, _, path => by
    rw [requireFields]
    exact .bind fun _ => .bind fun _ => .bind fun _ => bare_requireFields h obj type rest _ path

theorem bare_requireShape {shape : CodecShape} (hoption : ∀ elem, shape ≠ .option elem)
    (hown : ∀ resource, shape ≠ .own resource) (i : Int) (path : List String) :
    Bare (requireShape b h type name shape i path) := by
  cases shape with
  | option elem => exact absurd rfl (hoption elem)
  | own resource => exact absurd rfl (hown resource)
  | bool | float | string | enum =>
    rw [requireShape]
    refine .bind fun s => ?_
    split
    · first | exact bare_stored type _ | exact .bind fun _ => bare_stored type _
    · exact bare_failType i path
  | int =>
    rw [requireShape]
    refine .bind fun s => ?_
    split
    · refine .bind fun _ => ?_
      split
      · exact bare_stored type _
      · exact fun _ _ _ he => absurd (Prod.mk.inj he).1 (by simp)
    · exact bare_failType i path
  | bytes =>
    rw [requireShape]
    refine .bind fun buffer => ?_
    split
    · refine .bind fun data => ?_
      split
      · exact bare_stored type _
      · exact bare_fail _
    · exact .bind fun _ => bare_fail _
  | record fields =>
    rw [requireShape]
    refine .bind fun s => .bind fun _ => .bind fun _ => ?_
    split
    · exact bare_failType i path
    · refine .bind fun _ => .bind fun obj => ?_
      split
      · exact bare_requireFields h obj type fields _ path
      · exact fun _ _ _ he => absurd (Prod.mk.inj he).1 (by simp)
  | list elem =>
    rw [requireShape]
    refine .bind fun s => .bind fun _ => ?_
    split
    · exact bare_failType i path
    · refine .bind fun _ => .bind fun obj => .bind fun claimed => ?_
      split
      · exact .bind fun _ => bare_fail _
      · refine .bind fun _ => .bind fun elems => ?_
        unfold sliceOf
        split
        · exact .bind fun _ => .bind fun _ => bare_pure (by simp)
        · exact bare_pure (by simp)

theorem conforms_requireValue : ∀ codec, codec.Regular → ∀ {i path w w' v},
    (requireValue b codec i path).exec w = (.ok v, w') → w'.Conforms codec.type v
  | .mk type name shape, hregular, i, path, w, w', v, he => by
    rw [requireValue] at he
    obtain ⟨br, w1, -, he⟩ := bind_ok_iff.mp he
    cases shape with
    | option elem =>
      rw [requireShape] at he
      obtain ⟨s, w2, -, he⟩ := bind_ok_iff.mp he
      split at he
      · cases he
        exact conforms_of_ne nofun
      obtain ⟨x, w3, hx, he⟩ := bind_ok_iff.mp he
      split at he
      · rename_i htype
        cases he
        exact htype ▸ conforms_requireValue elem hregular.2 hx
      rename_i hne
      obtain ⟨x', w4, hpointer, he⟩ := bind_ok_iff.mp he
      rw [assign_eq (NativeType.assignableTo_of_target? (hregular.1.resolve_left hne))] at he
      cases he
      replace he := hpointer
      unfold pointerTo at he
      split at he
      · rename_i sort hsort
        cases he
        refine conforms_push rfl (NativeType.assignableTo_object.mpr (.inl ?_))
        exact (type.target?_eq_some.mp (hregular.1.resolve_left hne)).trans (by rw [hsort]; rfl)
      · cases he
        exact conforms_of_ne nofun
    | own resource =>
      rw [requireShape] at he
      obtain ⟨c, w2, -, he⟩ := bind_ok_iff.mp he
      obtain ⟨r, w3, -, he⟩ := bind_ok_iff.mp he
      cases r with
      | error f => cases he
      | ok o =>
        obtain ⟨n, hn, he⟩ := (reads_native o).bind_eq_ok he
        simp only at he
        split at he
        · rename_i hassignable
          cases he
          rintro o' ho
          obtain rfl := NativeValue.object.inj ho
          exact ⟨n, (exec_look_eq_ok.mp hn).1, hassignable⟩
        · cases he
    | _ => exact conforms_of_ne (bare_requireShape (by simp) (by simp) i path _ _ _ he).2

/-! ## The receiver and the arguments -/

section

variable {s1 : Heap} {path : List String} {step : String} {u : Verdict}

theorem readsAs_under {r : Except Stop α × World} (hr : ReadsAs w h s s1 (path ++ [step]) r u) :
    ReadsAs w h s s1 path r (u.under step) := by
  cases u with
  | refused misfit route =>
    obtain ⟨f, hf, hat, hw⟩ := hr
    exact ⟨f, hf, by rw [hat, List.append_assoc, List.singleton_append], hw⟩
  | _ => exact hr

theorem fits_of_readsAs {a : α} (hr : ReadsAs w h s s1 path (.ok a, w1) u) : u = .fits ∧ w.Displays h s w1 s1 := by
  cases u with
  | fits => exact ⟨rfl, hr.choose_spec.2⟩
  | refused | unregistered => exact nomatch hr.choose_spec.1
  | dangling => exact nomatch hr.choose_spec

end

theorem readsAs_requireReceiver (hb : w.bridges[b]? = some br) (hw : w.Displays br.heapId s w s)
    (hbottom : s.bottom ≤ s.stack.size) (hroom : c.receiver.isSome → (s.stack.size : Int) + 2 ≤ s.limits.stack)
    (hlimit : s.limits.stack < 2 ^ 63) :
    ReadsAs w br.heapId s s [c.name] ((requireReceiver b br.heapId c).exec w) (c.receiverVerdict w b s) ∧
      ∀ receiver w2, (requireReceiver b br.heapId c).exec w = (.ok receiver, w2) → c.Receives w b s receiver := by
  unfold requireReceiver Callable.receiverVerdict
  cases hc : c.receiver with
  | none =>
    refine ⟨⟨_, rfl, hw⟩, fun receiver w2 he => ?_⟩
    exact .inl ⟨hc, (Except.ok.inj (Prod.mk.inj he).1).symm⟩
  | some cls =>
    have hroom := hroom (by rw [hc]; rfl)
    have hfree : (readHeap br.heapId (·.requireStack 1)).exec w = (.ok (), w) :=
      (exec_readHeap hw.heap _).trans (by rw [requireStack_one (by omega) hlimit])
    have hpushed : w.Displays br.heapId s (w.setHeap br.heapId (s.push s.this)) (s.push s.this) :=
      displays_setHeap hw rfl rfl
    have hpop : (changeHeap br.heapId (·.popN 1)).exec (w.setHeap br.heapId (s.push s.this)) =
        (.ok (), w.setHeap br.heapId s) := by
      rw [exec_changeHeap_ok hpushed.heap (popN_push hbottom s.this), World.setHeap_setHeap]
    have hpopped : w.Displays br.heapId s (w.setHeap br.heapId s) s := displays_setHeap hw rfl rfl
    obtain ⟨r, hr, hends⟩ := unwrapsTo_unwrap (c := cls) hpushed hb (value?_push hbottom s.this)
      (requireStack_one (by
        show (_ : Int) ≤ s.limits.stack
        rw [size_push]
        omega) hlimit)
    have hcaught : (catchFault (unwrap b (-1) cls)).exec (w.setHeap br.heapId (s.push s.this)) =
        (caught r, w.setHeap br.heapId (s.push s.this)) := by rw [exec_catchFault, hr]
    simp only
    rw [bind_ok hfree, bind_ok (exec_modifyHeap hw.heap _)]
    cases hun : w.unwrapped b s cls s.this with
    | ok n =>
      rw [hun] at hends
      obtain ⟨o, rfl, ho⟩ := hends
      rw [bind_ok hcaught, bind_ok hpop]
      refine ⟨⟨_, rfl, hpopped⟩, fun receiver w2 he => ?_⟩
      obtain ⟨hreceiver, rfl⟩ := Prod.mk.inj he
      exact .inr ⟨cls, o, n, hc, (Except.ok.inj hreceiver).symm, ho, hun⟩
    | error u =>
      rw [hun] at hends
      rcases u with _ | ⟨m, _ | ⟨step, route⟩⟩ | _ | _
      case refused.nil =>
        obtain ⟨x, rfl, hm, hx⟩ := hends
        rw [bind_ok hcaught, bind_ok hpop]
        exact ⟨⟨_, rfl, hm ▸ at?_locate hx [c.name, "this"], hpopped⟩, fun _ _ he => nomatch (Prod.mk.inj he).1⟩
      case dangling =>
        obtain ⟨e, rfl⟩ := hends
        rcases e with f | e
        · rw [bind_ok hcaught, bind_ok hpop]
          exact ⟨⟨_, rfl⟩, fun _ _ he => nomatch (Prod.mk.inj he).1⟩
        · rw [bind_error hcaught]
          exact ⟨⟨_, rfl⟩, fun _ _ he => nomatch (Prod.mk.inj he).1⟩
      all_goals exact hends.elim

/-- What the arguments of a frame, from a number on, were read as. -/
inductive Converts (w : World) (b : BridgeId) (h : HeapId) (s : Heap) : Nat → List Codec → List NativeValue → Prop
  | nil {i : Nat} : Converts w b h s i [] []
  | cons {i : Nat} {codec : Codec} {codecs : List Codec} {v : NativeValue} {vs : List NativeValue}
      {path : List String} {w1 w2 : World} : w.Displays h s w1 s →
      (requireValue b codec i path).exec w1 = (.ok v, w2) → Converts w b h s (i + 1) codecs vs →
      Converts w b h s i (codec :: codecs) (v :: vs)

theorem readsAs_requireArguments (hb : w.bridges[b]? = some br) (hlimit : s.limits.stack < 2 ^ 63) (fn : String) :
    ∀ codecs params, codecs.length = params.length →
      (∀ codec ∈ codecs, codec.Regular ∧ (s.stack.size : Int) + codec.slots ≤ s.limits.stack) →
      ∀ {w1 : World} i, w.Displays br.heapId s w1 s →
      (∀ k < codecs.length, (s.value? (i + k : Nat)).isSome) →
      ReadsAs w br.heapId s s [fn] ((requireArguments b fn i codecs params).exec w1)
        (Callable.argumentsVerdict w b s i codecs params) ∧
      ∀ args w2, (requireArguments b fn i codecs params).exec w1 = (.ok args, w2) →
        Converts w b br.heapId s i codecs args
  | [], params, _, _, w1, i, hw, _ => by
    unfold requireArguments Callable.argumentsVerdict
    refine ⟨⟨_, rfl, hw⟩, fun args w2 he => ?_⟩
    cases he
    exact .nil
  | _ :: _, [], hlength, _, _, _, _, _ => nomatch hlength
  | codec :: codecs, (name, wit) :: params, hlength, hcodecs, w1, i, hw, hgiven => by
    rw [requireArguments, Callable.argumentsVerdict]
    obtain ⟨hcodec, hcodecs⟩ := List.forall_mem_cons.mp hcodecs
    obtain ⟨v, hv⟩ := Option.isSome_iff_exists.mp (hgiven 0 (Nat.zero_lt_succ _))
    rw [Nat.add_zero] at hv
    have hread := readsAs_requireValue hb hlimit codec hcodec.1 ([fn] ++ [name]) hw hv hcodec.2
    have hhead : ReadsAs w br.heapId s s [fn] ((requireValue b codec i [fn, name]).exec w1)
        (Verdict.part name (codec.verdict w b s) (s.value? i)) := by
      rw [hv]
      exact readsAs_under hread
    have htail : ∀ {w2 : World}, w.Displays br.heapId s w2 s → _ := fun hw2 =>
      readsAs_requireArguments hb hlimit fn codecs params (Nat.succ.inj hlength) hcodecs (i + 1) hw2
        fun k hk => by
          rw [show i + 1 + k = i + (k + 1) by omega]
          exact hgiven (k + 1) (Nat.succ_lt_succ hk)
    refine ⟨readsAs_bind hhead fun x w2 _ hw2 => ?_, fun args w3 he => ?_⟩
    · exact readsAs_map (htail hw2).1 fun _ w3 hw3 => ⟨_, w3, rfl, hw3⟩
    · obtain ⟨x, w2, hx, he⟩ := bind_ok_iff.mp he
      obtain ⟨xs, w4, hxs, he⟩ := bind_ok_iff.mp he
      obtain rfl := Except.ok.inj (Prod.mk.inj he).1
      have hw2 : w.Displays br.heapId s w2 s := (fits_of_readsAs (hx ▸ hhead)).2
      exact .cons hw hx ((htail hw2).2 xs w4 hxs)

theorem conforms_requireArguments {fn : String} : ∀ codecs params,
    (∀ codec ∈ codecs, codec.Regular) → ∀ {i w w' args}, w.Sound →
    (requireArguments b fn i codecs params).exec w = (.ok args, w') →
    ∀ p ∈ (codecs.map Codec.type).zip args, w'.Conforms p.1 p.2
  | [], _, _, _, _, _, _, _, _ => by simp
  | _ :: _, [], _, _, _, _, _, _, he => by
    cases he
    simp
  | codec :: codecs, (name, wit) :: params, hregular, i, w, w', args, hw, he => by
    rw [requireArguments] at he
    obtain ⟨v, w1, hv, he⟩ := bind_ok_iff.mp he
    obtain ⟨vs, w2, hvs, he⟩ := bind_ok_iff.mp he
    obtain ⟨hargs, rfl⟩ := Prod.mk.inj he
    cases hargs
    obtain ⟨hhead, htail⟩ := List.forall_mem_cons.mp hregular
    have hg1 : plain.Good w w1 := after_eq hv ▸ (keeps_requireValue codec _ _).good hw
    have hg2 : plain.Good w1 w2 := after_eq hvs ▸ (keeps_requireArguments fn _ codecs params).good hg1.1
    refine List.forall_mem_cons.mpr ⟨?_, conforms_requireArguments codecs params htail hg1.1 hvs⟩
    exact World.Later.conforms (plain.later hg2.2) (conforms_requireValue codec hhead hv)

/-! ## Native code is entered -/

/-- What native code is given: the receiver, and what the declared arguments were read as. -/
structure Gathered (w : World) (b : BridgeId) (h : HeapId) (s : Heap) (c : Callable)
    (receiver args : List NativeValue) : Prop where
  receiver : c.Receives w b s receiver
  args : Converts w b h s 0 c.params args

theorem readsAs_gather (hc : c.Checked) (hb : w.bridges[b]? = some br) (hs : w.heaps[br.heapId]? = some s)
    (hbottom : s.bottom ≤ s.stack.size) (hroom : c.HasRoom s)
    (hlimit : s.limits.stack < 2 ^ 63) (hcount : (c.params.length : Int) ≤ s.argCount)
    (hgiven : ∀ k < c.params.length, (s.value? k).isSome) (hsound : w.Sound) :
    ReadsAs w br.heapId s s [c.name] ((gather b c).exec w) (c.verdict w b s) ∧
      ∀ receiver args w2, (gather b c).exec w = (.ok (receiver, args), w2) →
        Gathered w b br.heapId s c receiver args ∧ ∀ p ∈ (c.params.map Codec.type).zip args, w2.Conforms p.1 p.2 := by
  have hw := displays_self hs
  obtain ⟨hreceiver, hobject⟩ := readsAs_requireReceiver (c := c) hb hw hbottom hroom.1 hlimit
  have hargs : ∀ {w1}, w.Displays br.heapId s w1 s → _ := fun hw1 =>
    readsAs_requireArguments hb hlimit c.name c.params c.sig.params hc.length
      (fun codec hcodec => ⟨hc.codecs codec hcodec, hroom.2 codec hcodec⟩) 0 hw1
      fun k hk => by rw [Nat.zero_add]; exact hgiven k hk
  have hexec : (gather b c).exec w = (do
      let receiver ← requireReceiver b br.heapId c
      let args ← requireArguments b c.name 0 c.params c.sig.params
      return (receiver, args)).exec w := by
    unfold gather
    rw [bind_ok (exec_bridge_eq_ok.mpr ⟨hb, rfl⟩), bind_ok (exec_heap hs)]
    simp only [fail_bind]
    rw [if_neg (by omega)]
  rw [hexec]
  refine ⟨readsAs_bind hreceiver fun receiver w1 _ hw1 => ?_, fun receiver args w2 he => ?_⟩
  · exact readsAs_map (hargs hw1).1 fun _ w2 hw2 => ⟨_, w2, rfl, hw2⟩
  · obtain ⟨_, w1, hr, he⟩ := bind_ok_iff.mp he
    obtain ⟨_, w3, ha, he⟩ := bind_ok_iff.mp he
    obtain ⟨hpair, rfl⟩ := Prod.mk.inj he
    cases hpair
    have hg : plain.Good w w1 := after_eq hr ▸ (keeps_requireReceiver br.heapId c).good hsound
    exact ⟨⟨hobject _ w1 hr, (hargs (fits_of_readsAs (hr ▸ hreceiver)).2).2 _ w3 ha⟩,
      conforms_requireArguments c.params c.sig.params hc.codecs hg.1 ha⟩

theorem exec_accepts_of_conforms (hv : w.Conforms type v) : (accepts type v).exec w = (.ok true, w) := by
  unfold accepts
  split
  · obtain ⟨n, hn, hsort⟩ := hv _ rfl
    rw [bind_ok (exec_native hn), hsort]
    rfl
  · rfl

theorem exec_forM_of_conforms {x : NativeType × NativeValue → M PUnit} :
    ∀ {pairs : List (NativeType × NativeValue)}, (∀ p ∈ pairs, w.Conforms p.1 p.2) → (pairs.forM fun p => do
        if !(← accepts p.1 p.2) then
          x p
          crash .runtime : M PUnit).exec w = (.ok (), w)
  | [], _ => rfl
  | p :: pairs, hpairs => by
    obtain ⟨hp, hpairs⟩ := List.forall_mem_cons.mp hpairs
    refine (bind_ok (a := ⟨⟩) ?_).trans (exec_forM_of_conforms hpairs)
    rw [bind_ok (exec_accepts_of_conforms hp)]
    rfl

theorem exec_checkGiven (hc : c.Checked) (hgathered : Gathered w b h s c receiver args)
    (hw : w.Displays h s w1 s) (hargs : ∀ p ∈ (c.params.map Codec.type).zip args, w1.Conforms p.1 p.2) :
    (c.Welcomes w b s → (checkGiven c receiver args).exec w1 = (.ok (), w1)) ∧
    (¬ c.Welcomes w b s → ∃ w2, (checkGiven c receiver args).exec w1 = (.error (.crash .runtime), w2)) := by
  obtain ⟨inputs, outputs, variadic, htypes, hdrop⟩ := hc.types
  have hlength : receiver.length = c.receiver.toList.length := by
    rcases hgathered.receiver with ⟨hr, rfl⟩ | ⟨cls, o, n, hr, rfl, -⟩ <;> rw [hr] <;> rfl
  have hrest : (((inputs.drop receiver.length).zip args).forM fun p => do
      if !(← accepts p.1 p.2) then crash .runtime : M PUnit).exec w1 = (.ok (), w1) := by
    rw [hlength, hdrop]
    exact exec_forM_of_conforms (x := fun _ => pure ()) hargs
  unfold checkGiven
  rw [bind_ok (exec_need_eq_ok.mpr ⟨htypes, rfl⟩)]
  refine ⟨fun hwelcome => ?_, fun hnot => ?_⟩
  · refine (bind_ok (exec_forM_of_conforms fun p hp => ?_)).trans hrest
    rcases hgathered.receiver with ⟨-, rfl⟩ | ⟨cls, o, n, hr, rfl, hn, hun⟩
    · simp at hp
    cases inputs with
    | nil => simp at hp
    | cons first inputs =>
      obtain rfl : p = (first, .object o) := by simpa using hp
      rintro _ ho
      obtain rfl := NativeValue.object.inj ho
      exact ⟨n, hw.natives _ n hn, hwelcome cls n first inputs outputs variadic hr hun htypes⟩
  · unfold Callable.Welcomes at hnot
    push Not at hnot
    obtain ⟨cls, n, first, inputs', outputs', variadic', hr, hun, htypes', hassignable⟩ := hnot
    cases htypes.symm.trans htypes'
    rcases hgathered.receiver with ⟨hnone, -⟩ | ⟨cls', o, n', hr', rfl, hn, hun'⟩
    · cases hr.symm.trans hnone
    cases hr.symm.trans hr'
    cases hun.symm.trans hun'
    have hfalse : (accepts first (.object o)).exec w1 = (.ok false, w1) := by
      unfold accepts
      rw [bind_ok (exec_native (hw.natives o n hn)), Bool.eq_false_iff.mpr hassignable]
      rfl
    have hcheck : (checkReceiver first (.object o)).exec w1 =
        (.error (.crash .runtime), w1.recalling (.misfit w1.state)) := by
      unfold checkReceiver
      rw [bind_ok hfalse]
      rfl
    exact ⟨_, bind_error (bind_error hcheck)⟩

/-! ## How calls go on -/

/-- Native code is entered: the call goes on as native code does with what it is given, and then delivers
what that gives. -/
def Enters (b : BridgeId) (c : Callable) (w : World) (given : List NativeValue) (w1 : World) : Prop :=
  ∀ host : Host, (invoke host b c).exec w = (host.apply c.fn given >>= deliver host b c).exec w1

theorem not_enters {r : Except Stop Int × World} (hr : ∀ host : Host, (invoke host b c).exec w = r)
    (given : List NativeValue) (w1 : World) : ¬ Enters b c w given w1 := by
  intro he
  have hcrash : ∀ x : Crash, r = (.error (.crash x), w1) := fun x =>
    (hr ⟨fun _ _ => crash x, fun _ => crash x, fun _ _ => crash x⟩).symm.trans
      (he ⟨fun _ _ => crash x, fun _ => crash x, fun _ _ => crash x⟩)
  simpa using (hcrash .runtime).symm.trans (hcrash .exhausted)

theorem exec_invoke_error {e : Stop} (he : (gather b c).exec w = (.error e, w1)) (host : Host) :
    (invoke host b c).exec w = (.error e, w1) :=
  bind_error he

theorem exec_invoke_short (hb : w.bridges[b]? = some br) (hs : w.heaps[br.heapId]? = some s)
    (hcount : s.argCount < (c.params.length : Int)) (host : Host) : (invoke host b c).exec w =
      (.error (.fault (.arityMismatch c.name c.params.length s.argCount)), w) := by
  refine exec_invoke_error ?_ host
  unfold gather
  rw [bind_ok (exec_bridge_eq_ok.mpr ⟨hb, rfl⟩), bind_ok (exec_heap hs)]
  simp only [fail_bind]
  rw [if_pos hcount]
  rfl

theorem invoke_of_gathered (hc : c.Checked) (he : (gather b c).exec w = (.ok (receiver, args), w1))
    (hgathered : Gathered w b h s c receiver args) (hw : w.Displays h s w1 s)
    (hargs : ∀ p ∈ (c.params.map Codec.type).zip args, w1.Conforms p.1 p.2) :
    (c.Welcomes w b s → Enters b c w (receiver ++ args) w1) ∧
    (¬ c.Welcomes w b s → ∃ w2, ∀ host, (invoke host b c).exec w = (.error (.crash .runtime), w2)) := by
  obtain ⟨hwelcome, hnot⟩ := exec_checkGiven hc hgathered hw hargs
  refine ⟨fun hw host => ?_, fun hw => ?_⟩
  · refine (bind_ok he).trans ?_
    show (apply host c receiver args >>= deliver host b c).exec w1 = _
    rw [apply, bind_assoc]
    exact bind_ok (hwelcome hw)
  · obtain ⟨w2, hcrash⟩ := hnot hw
    exact ⟨w2, fun host => (bind_ok he).trans (bind_error (bind_error hcrash))⟩

/-! ## What native code gives -/

theorem deliver_of_fault (hfail : c.canFail = true) (hlast : out.getLast? = some (.fault e))
    (host : Host) : deliver host b c out = fail (.wrap .call .nativeFailure (some e) c.name) := by
  unfold deliver
  rw [if_pos hfail, hlast]
  rfl

theorem deliver_of_made (hmakes : c.makes = some cls)
    (hfine : c.canFail = true → ∀ e, out.getLast? ≠ some (.fault e)) (host : Host) :
    deliver host b c out = pushConstructed host b c cls (out.headD .nil) := by
  unfold deliver pushResult
  simp only [hmakes]
  split
  · rename_i hfail
    split
    · rename_i e hlast
      exact absurd hlast (hfine hfail e)
    · rfl
  · rfl

/-- A fault of a computation comes before it takes shares: while a blank wrapper is made, or elsewhere
with all shares as they were. -/
def FailsEarly (host : Host) (b : BridgeId) (cls : ClassId) (x : M Unit) : Prop :=
  ∀ w e w', x.exec w = (.error (.fault e), w') → ∃ w0 : World, w0.shares = w.shares ∧
    (w' = w0 ∨ ∃ h, (blankWrapper host b h cls).exec w0 = (.error (.fault e), w'))

section

variable {host : Host}

theorem failsEarly_of_fixes {x : M Unit} (hx : Fixes World.shares x) : FailsEarly host b cls x :=
  fun _ _ w' he => ⟨w', hx.exec he, .inl rfl⟩

theorem FailsEarly.bind {x : M α} {f : α → M Unit} (hx : Fixes World.shares x)
    (hf : ∀ a, FailsEarly host b cls (f a)) : FailsEarly host b cls (x >>= f) := by
  intro w e w' he
  rcases hr : x.exec w with ⟨e' | a, w1⟩
  · rw [bind_error hr] at he
    exact ⟨w', by rw [← (Prod.mk.inj he).2]; exact hx.exec hr, .inl rfl⟩
  · rw [bind_ok hr] at he
    obtain ⟨w0, hshares, hrest⟩ := hf a w1 e w' he
    exact ⟨w0, hshares.trans (hx.exec hr), hrest⟩

theorem fixes_pushWrapper (h : HeapId) (name : String) (r : RecordId) :
    Fixes World.shares (pushWrapper b h name r) := by
  have hpush : ∀ p : HeapPtr, Fixes World.shares (changeHeap h (·.pushPointer p)) := fun p =>
    ((reads_heap h).fixes _).bind fun s => by
      split
      · exact Fixes.bind (fixes_modify fun _ => rfl) fun _ => (reads_pure _).fixes _
      · exact (reads_throw _).fixes _
  refine ((reads_record r).fixes _).bind fun x => ?_
  simp only [fail_bind]
  split
  · exact (reads_fail _).fixes _
  refine ((reads_readHeap h _).fixes _).bind fun _ => Fixes.bind (fun w => ?_) fun done => ?_
  · rw [after, exec_catchFault]
    exact hpush x.ptr w
  · cases done with
    | ok _ => exact fixes_modify fun _ => rfl
    | error f => exact (reads_fail _).fixes _

theorem failsEarly_wrap (o : NativeId) : FailsEarly host b cls (wrap host b o cls) := by
  refine .bind ((reads_classDecl cls).fixes _) fun d => .bind ((reads_bridge b).fixes _) fun br =>
    .bind ((reads_isDisposed o).fixes _) fun disposed => ?_
  simp only [fail_bind]
  split
  · exact failsEarly_of_fixes ((reads_fail _).fixes _)
  refine .bind ((reads_native o).fixes _) fun n => ?_
  split
  · exact failsEarly_of_fixes (fixes_pushWrapper _ _ _)
  refine .bind (fixes_register (fun _ _ _ => rfl) cls) fun _ w e w' he => ⟨w, rfl, .inr ⟨br.heapId, ?_⟩⟩
  unfold makeWrapper at he
  rcases hr : (blankWrapper host b br.heapId cls).exec w with ⟨e' | i, w1⟩
  · rw [bind_error hr] at he
    obtain ⟨hstop, rfl⟩ := Prod.mk.inj he
    rw [Except.error.inj hstop]
  · rw [bind_ok hr] at he
    exact absurd he (sure_bindWrapper o cls i _ _ _)

end

/-- The share that keeps the object of a constructor alive is given up when the object cannot be wrapped;
if it was the last one, the object goes. -/
theorem exec_deliver_unwrapped {o : NativeId} {i : ShareId} (hw : w.Booked)
    (hmakes : c.makes = some cls) (hobject : out.headD .nil = .object o)
    (hfine : c.canFail = true → ∀ e, out.getLast? ≠ some (.fault e))
    (htake : (take o).exec w = (.ok i, w1))
    (hwrap : (wrap (hostAt n) b o cls).exec w1 = (.error (.fault e), w2)) :
    ∃ w3 sh last, w3.shares[i]? = some sh ∧ sh.released = true ∧
      (∀ j ≠ i, w3.shares[j]? = w2.shares[j]?) ∧ (last = pure () ∨ last = destroy (hostAt n) sh.control) ∧
      (deliver (hostAt n) b c out).exec w = (do last; fail e : M Int).exec w3 := by
  have hdeliver : (deliver (hostAt n) b c out).exec w = (do release (hostAt n) i; fail e : M Int).exec w2 := by
    rw [deliver_of_made hmakes hfine, hobject]
    unfold pushConstructed
    rw [bind_ok htake, bind_ok (a := .error e) (by rw [exec_catchFault, hwrap]; rfl)]
    rfl
  obtain ⟨hi, hissues⟩ := issues_take htake
  obtain ⟨⟨hw1, -⟩, hspare⟩ := booked_issue hw hissues
  rw [← hi] at hspare
  have hg : booked.Good w1 w2 := after_eq hwrap ▸
    (plain_upholds (R := booked) (plain_serves n)).wraps w1 b o cls hw1 trivial trivial
  have hw2 : w2.Booked := hg.1
  obtain ⟨sh, hsh⟩ : ∃ sh, w2.shares[i]? = some sh := ⟨_, Array.getElem?_eq_getElem (hg.2.2.spare hspare).1⟩
  rw [hdeliver]
  cases hr : sh.released with
  | true =>
    have hrelease : (release (hostAt n) i).exec w2 = (.ok (), w2) := by
      unfold Ownership.release
      rw [bind_ok (exec_share_eq_ok.mpr ⟨hsh, rfl⟩), hr]
      rfl
    exact ⟨w2, sh, pure (), hsh, hr, fun _ _ => rfl, .inl rfl, bind_ok hrelease⟩
  | false =>
    obtain ⟨k, hk⟩ : ∃ k, w2.controls[sh.control]? = some k :=
      ⟨_, Array.getElem?_eq_getElem (hw2.holdings.controls i sh hsh)⟩
    refine ⟨w2.giveUp i sh.control, { sh with released := true }, _, ?_, rfl, fun j hj => ?_, ?_,
      exec_bind_congr (exec_release hsh hr hk)⟩
    · exact modify_self hsh
    · exact (Array.getElem?_modify ..).trans (if_neg (Ne.symm hj))
    · split
      · exact .inr rfl
      · exact .inl rfl

/-- How a call ends after native code gave its results. A fault is returned as the cause of a failure of
native code. A constructor takes a share of the object that it made; if the object cannot be wrapped, the
fault comes before the wrapper takes a share, and that of the constructor is given up. -/
structure Concludes (n : Nat) (b : BridgeId) (c : Callable) (w : World) (out : List NativeValue) (w1 : World) :
    Prop where
  fault : ∀ e, c.canFail = true → out.getLast? = some (.fault e) →
    (invoke (hostAt n) b c).exec w = (.error (.fault (.wrap .call .nativeFailure (some e) c.name)), w1)
  unwrapped : (c.canFail = true → ∀ e, out.getLast? ≠ some (.fault e)) → ∀ cls o i w2 e w3,
    c.makes = some cls → out.headD .nil = .object o → (take o).exec w1 = (.ok i, w2) →
    (wrap (hostAt n) b o cls).exec w2 = (.error (.fault e), w3) →
    (∃ w0 : World, w0.shares = w2.shares ∧
      (w3 = w0 ∨ ∃ h, (blankWrapper (hostAt n) b h cls).exec w0 = (.error (.fault e), w3))) ∧
    ∃ w4 sh last, w4.shares[i]? = some sh ∧ sh.released = true ∧
      (∀ j ≠ i, w4.shares[j]? = w3.shares[j]?) ∧ (last = pure () ∨ last = destroy (hostAt n) sh.control) ∧
      (invoke (hostAt n) b c).exec w = (do last; fail e : M Int).exec w4

theorem Enters.concludes {given : List NativeValue} (he : Enters b c w given w1) (hw1 : w1.Booked)
    (ha : ((hostAt n).apply c.fn given).exec w1 = (.ok out, w2)) : Concludes n b c w out w2 where
  fault e hfail hlast := by
    rw [he, bind_ok ha, deliver_of_fault hfail hlast]
    rfl
  unwrapped hfine cls o i w3 e w4 hmakes hobject htake hwrap := by
    have hg : booked.Good w1 w2 := after_eq ha ▸ (plain_serves (R := booked) n).apply w1 c.fn given hw1
    refine ⟨failsEarly_wrap o w3 e w4 hwrap, ?_⟩
    rw [he, bind_ok ha]
    exact exec_deliver_unwrapped hg.1 hmakes hobject hfine htake hwrap

end Bridge

/-! ## Calls -/

namespace Heap.Site

open M Regime

variable {t : Site} {fn : HeapPtr} {label : String}

/-- The call of a bound function is refused and removed, whatever native code does. -/
def Refused (t : Site) (w : World) (h : HeapId) (s : Heap) (b : BridgeId) (c : Callable) (e : Fault) : Prop :=
  ∃ w', w'.heaps[h]? = some (s.truncate t.pos) ∧ ∀ host native : Host,
    host.run h (.bound b c) = Bridge.invoke native b c → (t.call host h).exec w = (.error (.fault e), w')

theorem refused_of_invoke (hs : w.heaps[h]? = some s) (hopen : s.closed = false) (ht : t.Inside s)
    (hruns : t.Runs s fn label allArguments (some (.bound b c)))
    (he : ∀ host, (Bridge.invoke host b c).exec (w.setHeap h (t.enter s fn Bridge.allArguments)) =
      (.error (.fault e), w'))
    (hs' : w'.heaps[h]? = some (t.enter s fn allArguments)) : t.Refused w h s b c e := by
  refine ⟨w'.setHeap h (s.truncate t.pos), World.get_setHeap hs' _, fun host native hrun => ?_⟩
  have hbody : (runBody host h (some (.bound b c))).exec (w.setHeap h (t.enter s fn allArguments)) =
      (.error (.fault e), w') := by
    show (host.run h (.bound b c)).exec _ = _
    rw [hrun, he]
  have hafter := after_eq hbody
  have hleft : ((runBody host h (some (.bound b c))).after
      (w.setHeap h (t.enter s fn allArguments))).heaps[h]? = some (t.enter s fn allArguments) := by
    rw [hafter]
    exact hs'
  have hcall := (exec_call_run hs hopen hruns.1 hruns.2 hleft).2 _ rfl
    (Nat.le_trans (Nat.le_of_lt ht.above) ht.size)
  rw [hafter, hbody] at hcall
  exact hcall

theorem exec_call_fault (hw : w.Chronicled) (hs : w.heaps[h]? = some s) (hopen : s.closed = false)
    (ht : t.Inside s) (hruns : t.Runs s fn label allArguments (some (.bound b c)))
    (he : (Bridge.invoke (hostAt n) b c).exec (w.setHeap h (t.enter s fn Bridge.allArguments)) =
      (.error (.fault e), w')) :
    ((t.call (hostAt (n + 1)) h).exec w).1 = .error (.fault e) ∨ ∃ s', w'.heaps[h]? = some s' ∧ s'.frames = [] := by
  have hbody : (runBody (hostAt (n + 1)) h (some (.bound b c))).exec
      (w.setHeap h (t.enter s fn allArguments)) = (.error (.fault e), w') := he
  obtain ⟨s', hs', hrest⟩ := body (n := n + 1) hw hs hopen ht hruns
  have hcall := (exec_call_run hs hopen hruns.1 hruns.2 hs').2
  rw [hbody] at hcall
  by_cases hne : s'.frames = []
  · exact .inr ⟨s', by rw [← after_eq hbody]; exact hs', hne⟩
  · obtain ⟨hframes, -, hsize, -⟩ := hrest hne
    exact .inl (congrArg Prod.fst (hcall _ hframes (Nat.le_trans (Nat.le_of_lt ht.above) hsize)))

end Heap.Site

open Bridge Regime in
/-- **Calls of bound functions.** Take a function, method or constructor that was declared, a call of it,
whatever its arguments and its receiver are, and as many free slots as reading them needs.

Native code is entered exactly if there are as many arguments as parameters, the receiver unwraps to the
class, every declared argument converts, and native code takes the receiver. It is then given the receiver
and what the declared arguments convert to, in this order, and entered once. A wrapper of the class whose
object native code does not take is the exception: the receiver unwraps, and the call crashes.

Otherwise native code does not run, and the call is removed with a fault: of too few arguments, of the
receiver, or of the first argument that does not convert. -/
theorem calls_all_or_nothing {n : Nat} {w w1 : World} {b : BridgeId} {br : Bridge} {s s1 : Heap} {t : Heap.Site}
    {fn : HeapPtr} {label name : String} {native : NativeFn Program} {sig : Signature} {role : Callable.Role}
    {c : Callable} (hc : Callable.compile name native sig role = .ok c) (hw : w.Booked)
    (hb : w.bridges[b]? = some br) (hs : w.heaps[br.heapId]? = some s) (hopen : s.closed = false)
    (ht : t.Inside s) (hsupplied : t.start + t.nargs = s.stack.size)
    (hruns : t.Runs s fn label allArguments (some (.bound b c)))
    (hroom : c.HasRoom s) (hlimit : s.limits.stack < 2 ^ 63)
    (hs1 : s1 = t.enter s fn allArguments) (hw1 : w1 = w.setHeap br.heapId s1) :
    ((∃ given w2, Enters b c w1 given w2) ↔
      c.params.length ≤ t.nargs ∧ c.verdict w1 b s1 = .fits ∧ c.Welcomes w1 b s1) ∧
    (c.params.length ≤ t.nargs → c.verdict w1 b s1 = .fits → ∃ receiver args w2,
      Gathered w1 b br.heapId s1 c receiver args ∧ w1.Displays br.heapId s1 w2 s1 ∧
      (c.Welcomes w1 b s1 → Enters b c w1 (receiver ++ args) w2 ∧ ∀ out w3,
        ((hostAt n).apply c.fn (receiver ++ args)).exec w2 = (.ok out, w3) → Concludes n b c w1 out w3) ∧
      (¬ c.Welcomes w1 b s1 → ∃ w3, ∀ host, (invoke host b c).exec w1 = (.error (.crash .runtime), w3))) ∧
    (t.nargs < c.params.length → t.Refused w br.heapId s b c (.arityMismatch c.name c.params.length t.nargs)) ∧
    (c.params.length ≤ t.nargs → (∀ misfit route, c.verdict w1 b s1 = .refused misfit route →
        ∃ e, e.at? = some (misfit.kind, c.name :: route) ∧ t.Refused w br.heapId s b c e) ∧
      (c.verdict w1 b s1 = .unregistered → ∃ e, e.at? = some (.notFound, []) ∧ t.Refused w br.heapId s b c e) ∧
      (c.verdict w1 b s1 = .dangling → ∃ e w2, ∀ host, (invoke host b c).exec w1 = (.error e, w2))) ∧
    (∀ e w2, (invoke (hostAt n) b c).exec w1 = (.error (.fault e), w2) →
      ((t.call (hostAt (n + 1)) br.heapId).exec w).1 = .error (.fault e) ∨
        ∃ s2, w2.heaps[br.heapId]? = some s2 ∧ s2.frames = []) ∧
    ((∀ x, ((t.call (hostAt (n + 1)) br.heapId).exec w).1 ≠ .error (.crash x)) → ∃ s',
      ((t.call (hostAt (n + 1)) br.heapId).after w).heaps[br.heapId]? = some s' ∧
        s.Leaves t.pos ((t.call (hostAt (n + 1)) br.heapId).exec w).1 s') := by
  have hchecked := Callable.checked_of_compile hc
  have hheap : w1.heaps[br.heapId]? = some s1 := hw1 ▸ World.get_setHeap hs s1
  have hbridge : w1.bridges[b]? = some br := hw1 ▸ hb
  have hbooked : w1.Booked := by
    rw [hw1, hs1]
    exact Heap.Site.entered (R := booked) hw hs hopen ht hruns
  have hframe : s1.argCount = t.nargs ∧ s1.bottom = t.start ∧ s1.stack = s.stack ∧ s1.limits = s.limits := by
    rw [hs1]
    exact ⟨rfl, rfl, rfl, rfl⟩
  obtain ⟨hcount, hbottom, hstack, hlimits⟩ := hframe
  -- The first stages, on a frame with enough arguments.
  have hgather := fun hgiven : c.params.length ≤ t.nargs =>
    readsAs_gather hchecked hbridge hheap (by rw [hbottom, hstack]; exact ht.size)
      (by rw [Callable.HasRoom, hstack, hlimits]; exact hroom)
      (by rw [hlimits]; exact hlimit) (by rw [hcount]; exact_mod_cast hgiven) (fun k hk => by
        have hpos : s1.position? (k : Int) = some (s1.bottom + k) :=
          Heap.position?_nat (by rw [hbottom, hstack]; omega)
        rw [Heap.value?, hpos, Option.bind_some, hbottom, hstack]
        rw [Array.getElem?_eq_getElem (by omega)]
        rfl) hbooked.sound
  have hshort := fun hfew : t.nargs < c.params.length =>
    exec_invoke_short (c := c) hbridge hheap (by rw [hcount]; exact_mod_cast hfew)
  have hrefused : ∀ {e w2}, (∀ host, (invoke host b c).exec w1 = (.error (.fault e), w2)) →
      w2.heaps[br.heapId]? = some s1 → t.Refused w br.heapId s b c e := fun he hs2 =>
    Heap.Site.refused_of_invoke hs hopen ht hruns (hs1 ▸ hw1 ▸ he) (hs1 ▸ hs2)
  have hfits : c.params.length ≤ t.nargs → c.verdict w1 b s1 = .fits → ∃ receiver args w2,
      Gathered w1 b br.heapId s1 c receiver args ∧ w1.Displays br.heapId s1 w2 s1 ∧ w2.Booked ∧
      (c.Welcomes w1 b s1 → Enters b c w1 (receiver ++ args) w2) ∧
      (¬ c.Welcomes w1 b s1 → ∃ w3, ∀ host, (invoke host b c).exec w1 = (.error (.crash .runtime), w3)) := by
    intro hgiven hverdict
    obtain ⟨hreads, hgathered⟩ := hgather hgiven
    rw [hverdict] at hreads
    obtain ⟨⟨receiver, args⟩, hr, hdisplays⟩ := hreads
    have he := M.exec_eq_ok hr
    obtain ⟨hg, hconforms⟩ := hgathered receiver args _ he
    obtain ⟨henters, hcrash⟩ := invoke_of_gathered hchecked he hg hdisplays hconforms
    exact ⟨receiver, args, _, hg, hdisplays, (keeps_gather (R := booked) (F := noFact) c w1 hbooked trivial).1,
      henters, hcrash⟩
  refine ⟨⟨?_, ?_⟩, fun hgiven hverdict => ?_, fun hfew => hrefused (hcount ▸ hshort hfew) hheap, fun hgiven => ?_,
    fun e w2 he => Heap.Site.exec_call_fault hw.toChronicled hs hopen ht hruns (hs1 ▸ hw1 ▸ he),
    Heap.Site.leaves hw.toChronicled hs hopen ht⟩
  · rintro ⟨given, w2, he⟩
    have hgiven : c.params.length ≤ t.nargs := by
      by_contra hfew
      exact not_enters (hshort (by omega)) given w2 he
    have hverdict : c.verdict w1 b s1 = .fits := by
      rcases hr : (gather b c).exec w1 with ⟨e | a, w3⟩
      · exact absurd he (not_enters (exec_invoke_error hr) given w2)
      · exact (fits_of_readsAs (hr ▸ (hgather hgiven).1)).1
    refine ⟨hgiven, hverdict, ?_⟩
    by_contra hnot
    obtain ⟨-, -, -, -, -, -, -, hcrash⟩ := hfits hgiven hverdict
    obtain ⟨w3, hcrash⟩ := hcrash hnot
    exact not_enters hcrash given w2 he
  · rintro ⟨hgiven, hverdict, hwelcome⟩
    obtain ⟨receiver, args, w2, -, -, -, henters, -⟩ := hfits hgiven hverdict
    exact ⟨_, w2, henters hwelcome⟩
  · obtain ⟨receiver, args, w2, hg, hdisplays, hw2, henters, hcrash⟩ := hfits hgiven hverdict
    exact ⟨receiver, args, w2, hg, hdisplays,
      fun hwelcome => ⟨henters hwelcome, fun out w3 ha => (henters hwelcome).concludes hw2 ha⟩, hcrash⟩
  · have hreads := (hgather hgiven).1
    rcases hr : (gather b c).exec w1 with ⟨r, w2⟩
    rw [hr] at hreads
    refine ⟨fun misfit route hverdict => ?_, fun hverdict => ?_, fun hverdict => ?_⟩ <;> rw [hverdict] at hreads
    · obtain ⟨e, rfl, hat, hdisplays⟩ := hreads
      exact ⟨e, hat, hrefused (exec_invoke_error hr) hdisplays.heap⟩
    · obtain ⟨e, rfl, hat, hdisplays⟩ := hreads
      exact ⟨e, hat, hrefused (exec_invoke_error hr) hdisplays.heap⟩
    · obtain ⟨e, rfl⟩ := hreads
      exact ⟨e, w2, exec_invoke_error hr⟩

def takesNumber : Callable :=
  { fn := .scripted [.int .int32] [] false [] [], name := "take", sig := { params := [("x", .prim .s32)] }
    params := [.mk (.int .int32) "s32" (.int 32 true)], result := none, receiver := none, makes := none
    canFail := false }

def aboutToTake : Script :=
  .ofSteps [.bridge (.make false false), .modules (.declare "M" "m"),
        .modules (.addFunc "M" "take" takesNumber.fn takesNumber.sig), .modules (.push "M"),
        .property (.get (-1) "take"), .stack (.pushString "text")]

open Bridge Regime in
/-- Called with the text, the function is not entered, and the argument is named. -/
theorem calls_all_or_nothing_aboutToTake : ∃ e w',
    (Heap.Site.call ⟨1, .undefined, 2, 1⟩ (hostAt 3) 0).exec (aboutToTake.world 2 true) =
      (.error (.fault e), w') ∧ e.at? = some (.typeMismatch, ["take", "x"]) := by
  have hw := booked_world aboutToTake 2 true
  have hcode : (aboutToTake.world 2 true).heaps[0]?.map (fun s => (s.functionAt 1).toOption) =
      some (some (⟨5, 1⟩, "take", -1, some (.bound 0 takesNumber))) := by cbv
  obtain ⟨br, hb, hid⟩ : ∃ br, (aboutToTake.world 2 true).bridges[0]? = some br ∧ br.heapId = 0 := by decide +kernel
  obtain ⟨s, hs, hopen, hsize, hbottom, hframes, hdepth, hlimit, hverdict⟩ :
    ∃ s, (aboutToTake.world 2 true).heaps[0]? = some s ∧ s.closed = false ∧ s.stack.size = 3 ∧ s.bottom = 0 ∧
    s.frames.length = 0 ∧ s.limits.depth = 200 ∧ s.limits.stack = 10000 ∧
    takesNumber.verdict ((aboutToTake.world 2 true).setHeap 0 (Heap.Site.enter ⟨1, .undefined, 2, 1⟩ s ⟨5, 1⟩ (-1)))
      0 (Heap.Site.enter ⟨1, .undefined, 2, 1⟩ s ⟨5, 1⟩ (-1)) = .refused .type ["x"] := by decide +kernel
  generalize aboutToTake.world 2 true = w at *
  rw [hs] at hcode
  have hfunction := toOption_eq_some.mp (Option.some.inj hcode)
  obtain ⟨-, -, -, hrefused, -⟩ := calls_all_or_nothing (n := 2) (t := ⟨1, .undefined, 2, 1⟩)
    (show Callable.compile "take" takesNumber.fn takesNumber.sig .free = .ok takesNumber from rfl) hw hb
    (hid.symm ▸ hs) hopen
    ⟨by rw [hbottom]; decide, by decide, by rw [hsize]; decide, fun _ => Heap.holdsValue_of_ne rfl⟩
    hsize.symm ⟨hfunction, by rw [hframes, hdepth]; decide⟩ (by rw [Callable.HasRoom, hsize, hlimit]; decide)
    (by rw [hlimit]; decide) rfl (by rw [hid])
  obtain ⟨e, hat, w', -, hcall⟩ := (hrefused (Nat.le_refl _)).1 .type ["x"] hverdict
  exact ⟨e, w', hid ▸ hcall (hostAt 3) (hostAt 2) rfl, hat⟩

end Tether
