import Tether.Proofs.Calls
import Tether.Proofs.Crossing

/-!
# The values that a codec takes

Reading a value goes down the codec and the object graph together. It takes exactly the values that
conform to the codec, whatever else the graph holds, and stops at the first place that does not conform,
fields in the order of their declaration and elements in the order of their numbers.
-/

namespace Tether

open Heap

variable {s s1 : Heap} {v : Value} {i : Int} {p : HeapPtr}

inductive Misfit where
  | type
  | range
  | case
  /-- A wrapper whose record does not match it. -/
  | identity
deriving DecidableEq

def Misfit.kind : Misfit → Kind
  | type => .typeMismatch
  | range => .overflow
  | case => .invalidEnum
  | identity => .identityCorruption

/-- What reading a value comes to. -/
inductive Verdict where
  | fits
  /-- Refused, at a place inside the value. -/
  | refused (misfit : Misfit) (route : List String)
  /-- A handle of a resource for which no class is registered. -/
  | unregistered
  /-- The value names something that is not there. -/
  | dangling
deriving DecidableEq

namespace Verdict

def mismatch : Verdict := refused .type []

/-- The verdict on a value that is found at a step inside another. -/
def under (step : String) : Verdict → Verdict
  | refused misfit route => refused misfit (step :: route)
  | v => v

def andThen : Verdict → Verdict → Verdict
  | fits, v => v
  | v, _ => v

def each (f : Nat → Verdict) : Nat → Nat → Verdict
  | 0, _ => fits
  | n + 1, i => (f i).andThen (each f n (i + 1))

def part (step : String) (f : Value → Verdict) : Option Value → Verdict
  | some v => (f v).under step
  | none => refused .type [step]

theorem andThen_fits (v : Verdict) : v.andThen fits = v := by cases v <;> rfl

end Verdict

/-! ## The first place that does not conform -/

variable (w : World) (b : BridgeId)

def World.classOf? (resource : WitDef) : Option ClassId :=
  (w.bridges[b]?).bind (·.resources.lookup resource.id)

/-- The verdict on a value that has to be an object, by a rule for objects. -/
def Heap.judge (s : Heap) (f : HeapPtr → Object → Verdict) : Value → Verdict
  | .object p => ((s.object? p).map (f p)).getD .dangling
  | _ => .mismatch

/-- The length that an object claims, if it is one a list can have. -/
def Heap.lengthAt? (s : Heap) (p : HeapPtr) : Option Nat :=
  match s.lookup p "length" with
  | some (.number x) => Bridge.lengthOf? x
  | _ => none

/-- The object that a record links to a wrapper as a class, or what is wrong with the record. -/
def World.linked (c : ClassId) (p : HeapPtr) (r : RecordId) : Except Verdict NativeObject :=
  match w.records[r]? with
  | none => .error .dangling
  | some x =>
    if x.severed then .error .mismatch
    else
      match x.share with
      | none => .error (.refused .identity [])
      | some i =>
        if x.cls ≠ c ∨ x.bridge ≠ b ∨ x.ptr ≠ p then .error (.refused .identity [])
        else
          match (w.shares[i]?).bind (w.natives[·.object]?) with
          | none => .error .dangling
          | some n => if n.token.record = some r then .ok n else .error (.refused .identity [])

/-- The object whose wrapper a value is as a class, or what is wrong with the value. -/
def World.unwrapped (s : Heap) (c : ClassId) (v : Value) : Except Verdict NativeObject :=
  match w.classes[c]?, v with
  | none, _ => .error .dangling
  | some d, .object p =>
    match s.object? p with
    | none => .error .dangling
    | some o =>
      match o.hidden.get? d.key with
      | none => .error .mismatch
      | some (.pointer (.record (some r))) => w.linked b c p r
      | some _ => .error (.refused .identity [])
  | some _, _ => .error .mismatch

def World.verdictOn (s : Heap) (type : NativeType) (c : ClassId) (v : Value) : Verdict :=
  match w.unwrapped b s c v with
  | .error u => u
  | .ok n => if (NativeType.object n.sort).assignableTo type then .fits else .mismatch

mutual

def Codec.verdict (w : World) (b : BridgeId) (s : Heap) : Codec → Value → Verdict
  | .mk type _ shape, v => shape.verdict w b s type v

def CodecShape.verdict (w : World) (b : BridgeId) (s : Heap) (type : NativeType) : CodecShape → Value → Verdict
  | .bool, .boolean _ => .fits
  | .float _, .number _ => .fits
  | .string, .string _ => .fits
  | .int bits signed, .number x =>
    if x.truncate?.any fun i => InWidth bits signed i then .fits else .refused .range []
  | .enum cases, .number x =>
    if x.toInt?.any fun i => 0 ≤ i ∧ i < (cases.length : Int) then .fits else .refused .case []
  | .bytes, v => s.judge (fun _ o => if o.buffer?.any (!·.detached) then .fits else .mismatch) v
  | .record fields, v => s.judge (fun p o =>
    if o.buffer?.isSome || o.isFunction then .mismatch else fields.verdict w b s p) v
  | .list elem, v => s.judge (fun p o =>
    if o.isFunction then .mismatch
    else match s.lengthAt? p with
      | none => .mismatch
      | some n => .each (fun k => .part s!"[{k}]" (elem.verdict w b s) (s.lookup p (toString k))) n 0) v
  | .option elem, v => if v = .null ∨ v = .undefined then .fits else elem.verdict w b s v
  | .own resource, v =>
    match w.classOf? b resource with
    | none => .unregistered
    | some c => w.verdictOn b s type c v
  | .bool, v | .float _, v | .string, v | .int .., v | .enum _, v => s.judge (fun _ _ => .mismatch) v

def CodecFields.verdict (w : World) (b : BridgeId) (s : Heap) (p : HeapPtr) : CodecFields → Verdict
  | .nil => .fits
  | .cons name _ _ codec rest =>
    (Verdict.part name (codec.verdict w b s) (s.lookup p name)).andThen (rest.verdict w b s p)

end

/-- A value conforms to a codec if there is nothing to say against it. -/
def Codec.Conforms (w : World) (b : BridgeId) (s : Heap) (c : Codec) (v : Value) : Prop := c.verdict w b s v = .fits

/-! ## Reading -/

def Fault.at? (f : Fault) : Option (Kind × List String) := f.firstIssue?.map fun i => (i.kind, i.path)

/-- While the values of a world are read, values are pushed onto the stack and native objects without a
wrapper are made. -/
structure World.Displays (w : World) (h : HeapId) (s : Heap) (w1 : World) (s1 : Heap) : Prop where
  heap : w1.heaps[h]? = some s1
  table : s1.table = s.table
  limits : s1.limits = s.limits
  bridges : w1.bridges = w.bridges
  classes : w1.classes = w.classes
  records : w1.records = w.records
  shares : w1.shares = w.shares
  natives : ∀ (o : NativeId) n, w.natives[o]? = some n → w1.natives[o]? = some n
  unbound : ∀ (o : NativeId) n, w.natives[o]? = none → w1.natives[o]? = some n → n.token.record = none

/-- How reading a value ends with a verdict: the stack is as before, unless the value names something that
is not there. -/
def ReadsAs {α : Type} (w : World) (h : HeapId) (s s1 : Heap) (path : List String)
    (r : Except Stop α × World) : Verdict → Prop
  | .fits => ∃ a, r.1 = .ok a ∧ w.Displays h s r.2 s1
  | .refused misfit route => ∃ f, r.1 = .error (.fault f) ∧ f.at? = some (misfit.kind, path ++ route) ∧
      w.Displays h s r.2 s1
  | .unregistered => ∃ f, r.1 = .error (.fault f) ∧ f.at? = some (.notFound, []) ∧ w.Displays h s r.2 s1
  | .dangling => ∃ e, r.1 = .error e

mutual

def Codec.slots : Codec → Nat
  | .mk _ _ shape => shape.slots

def CodecShape.slots : CodecShape → Nat
  | .record fields => fields.slots + 1
  | .list elem => elem.slots + 1
  | .option elem => elem.slots
  | .own _ => 1
  | .bool | .int .. | .float _ | .string | .enum _ | .bytes => 0

def CodecFields.slots : CodecFields → Nat
  | .nil => 0
  | .cons _ _ _ codec rest => max codec.slots rest.slots

end

namespace Heap

theorem lookupFrom_congr (ht : s1.table = s.table) (k : String) (n : Nat) (p : HeapPtr) :
    s1.lookupFrom k n p = s.lookupFrom k n p := by
  have hobject : ∀ q, s1.object? q = s.object? q := fun q => by unfold object?; rw [ht]
  induction n generalizing p with
  | zero => rfl
  | succ n ih =>
    simp only [lookupFrom, hobject]
    split
    · rfl
    · split
      · rfl
      · split
        · exact ih _
        · rfl

theorem getProp_eq (ht : s1.table = s.table) (hv : s1.value? i = some (.object p)) (k : String) :
    s1.getProp i k = .ok ((s.lookup p k).isSome, s1.push ((s.lookup p k).getD .undefined)) := by
  have hlookup : s1.lookup p k = s.lookup p k := lookupFrom_congr ht k _ p
  unfold getProp
  rw [requireObject_eq hv]
  simp only [bind, Except.bind, hlookup]
  cases s.lookup p k <;> rfl

theorem value?_normalize (hv : s.value? i = some v) :
    ∃ k : Nat, s.normalize? i = some k ∧ s.value? (k : Int) = some v ∧ s.bottom ≤ s.stack.size := by
  obtain ⟨a, ha, hat⟩ := Option.bind_eq_some_iff.mp hv
  obtain ⟨hlt, -⟩ := Array.getElem?_eq_some_iff.mp hat
  have hle : s.bottom ≤ a := by
    unfold position? at ha
    generalize (if i < 0 then (s.stack.size : Int) + i else (s.bottom : Int) + i) = j at ha
    simp only [Option.ite_none_left_eq_some, Option.some.injEq] at ha
    omega
  refine ⟨a - s.bottom, by rw [normalize?, ha]; rfl, ?_, by omega⟩
  rw [value?, position?_nat (by omega), Option.bind_some]
  rwa [show s.bottom + (a - s.bottom) = a by omega]

theorem requireStack_one (hroom : (s.stack.size : Int) + 1 ≤ s.limits.stack)
    (hlimit : s.limits.stack < 2 ^ 63) : s.requireStack 1 = .ok () := by
  have hcount : wrapCount ((s.stack.size : Int) + 1) = (s.stack.size : Int) + 1 := by
    have := wrapCount_of_lt (k := s.stack.size + 1) (by omega)
    simpa using this
  unfold requireStack
  rw [if_neg (by omega), hcount, if_neg (by omega)]

end Heap

namespace Bridge

open M

variable {α β : Type} {w w1 : World} {h : HeapId} {b : BridgeId} {br : Bridge} {path : List String} {u u' : Verdict}

theorem displays_self (hs : w.heaps[h]? = some s) : w.Displays h s w s :=
  ⟨hs, rfl, rfl, rfl, rfl, rfl, rfl, fun _ _ hn => hn, fun _ _ hnone hn => absurd (hnone.symm.trans hn) nofun⟩

theorem displays_setHeap (hw : w.Displays h s w1 s1) {s2 : Heap} (ht : s2.table = s1.table)
    (hl : s2.limits = s1.limits) : w.Displays h s (w1.setHeap h s2) s2 :=
  ⟨World.get_setHeap hw.heap s2, ht.trans hw.table, hl.trans hw.limits, hw.bridges, hw.classes,
    hw.records, hw.shares, hw.natives, hw.unbound⟩

theorem object?_of_displays (hw : w.Displays h s w1 s1) (q : HeapPtr) : s1.object? q = s.object? q := by
  unfold object?
  rw [hw.table]

theorem readsAs_fail (hw : w.Displays h s w1 s1) {x : Issue} {m : Misfit} (hkind : x.kind = m.kind)
    (hpath : x.path = path) : ReadsAs w h s s1 path ((M.fail (.issue x) : M α).exec w1) (.refused m []) :=
  ⟨_, rfl, by rw [List.append_nil, ← hkind, ← hpath]; rfl, hw⟩

variable {x : M α} {f : α → M β}

theorem readsAs_bind (hx : ReadsAs w h s s1 path (x.exec w1) u)
    (hf : ∀ a w2, x.exec w1 = (.ok a, w2) → w.Displays h s w2 s1 → ReadsAs w h s s1 path ((f a).exec w2) u') :
    ReadsAs w h s s1 path ((x >>= f).exec w1) (u.andThen u') := by
  rcases hr : x.exec w1 with ⟨r, w2⟩
  rw [hr] at hx
  cases u with
  | fits =>
    obtain ⟨a, rfl, hw2⟩ := hx
    rw [bind_ok hr]
    exact hf a w2 hr hw2
  | refused _ _ | unregistered =>
    obtain ⟨e, rfl, he⟩ := hx
    rw [bind_error hr]
    exact ⟨e, rfl, he⟩
  | dangling =>
    obtain ⟨e, rfl⟩ := hx
    rw [bind_error hr]
    exact ⟨e, rfl⟩

theorem readsAs_map (hx : ReadsAs w h s s1 path (x.exec w1) u)
    (hf : ∀ a w2, w.Displays h s w2 s1 → ∃ c w3, (f a).exec w2 = (.ok c, w3) ∧ w.Displays h s w3 s1) :
    ReadsAs w h s s1 path ((x >>= f).exec w1) u := by
  rw [← u.andThen_fits]
  refine readsAs_bind hx fun a w2 _ hw2 => ?_
  obtain ⟨c, w3, he, hw3⟩ := hf a w2 hw2
  rw [he]
  exact ⟨c, rfl, hw3⟩

theorem readsAs_step {a : α} (hx : x.exec w1 = (.ok a, w1))
    (hf : ReadsAs w h s s1 path ((f a).exec w1) u) : ReadsAs w h s s1 path ((x >>= f).exec w1) u := by
  rwa [bind_ok hx]

variable {g : α → M β}

theorem readsAs_read {f : Heap → Except Stop α} {a : α} (hw : w.Displays h s w1 s1)
    (hf : f s1 = .ok a) (hg : ReadsAs w h s s1 path ((g a).exec w1) u) :
    ReadsAs w h s s1 path ((readHeap h f >>= g).exec w1) u :=
  readsAs_step ((exec_readHeap hw.heap f).trans (by rw [hf])) hg

theorem readsAs_crash {f : Heap → Except Stop α} {e : Stop} (hw : w.Displays h s w1 s1)
    (hf : f s1 = .error e) : ReadsAs w h s s1 path ((readHeap h f >>= g).exec w1) .dangling := by
  rw [bind_error ((exec_readHeap hw.heap f).trans (by rw [hf]))]
  exact ⟨e, rfl⟩

theorem readsAs_onFault {top : Value} (hbottom : s1.bottom ≤ s1.stack.size) {step : String}
    (hx : ReadsAs w h s (s1.push top) (path ++ [step]) (x.exec w1) u) :
    ReadsAs w h s s1 path ((do
      let a ← onFault x (changeHeap h (·.popN 1))
      changeHeap h (·.popN 1)
      return a : M α).exec w1) (u.under step) := by
  have hpop : ∀ {w2}, w.Displays h s w2 (s1.push top) →
      (changeHeap h (·.popN 1)).exec w2 = (.ok (), w2.setHeap h s1) ∧
        w.Displays h s (w2.setHeap h s1) s1 := fun hw2 =>
    ⟨exec_changeHeap_ok hw2.heap (popN_push hbottom top), displays_setHeap hw2 rfl rfl⟩
  rcases hr : x.exec w1 with ⟨r, w2⟩
  rw [hr] at hx
  have hcaught : (catchFault x).exec w1 = (caught r, w2) := by rw [exec_catchFault, hr]
  -- A fault takes the value off and goes on; the others pass.
  have hfault : ∀ {f}, r = .error (.fault f) → w.Displays h s w2 (s1.push top) →
      (onFault x (changeHeap h (·.popN 1))).exec w1 = (.error (.fault f), w2.setHeap h s1) := by
    rintro f rfl hw2
    unfold onFault
    rw [bind_ok hcaught, bind_ok (hpop hw2).1]
    rfl
  cases u with
  | fits =>
    obtain ⟨a, rfl, hw2⟩ := hx
    rw [bind_ok (exec_onFault_eq_ok.mpr hr), bind_ok (hpop hw2).1]
    exact ⟨a, rfl, (hpop hw2).2⟩
  | refused misfit route =>
    obtain ⟨f, hf, he, hw2⟩ := hx
    rw [bind_error (hfault hf hw2)]
    exact ⟨f, rfl, by rw [he]; simp, (hpop hw2).2⟩
  | unregistered =>
    obtain ⟨f, hf, he, hw2⟩ := hx
    rw [bind_error (hfault hf hw2)]
    exact ⟨f, rfl, he, (hpop hw2).2⟩
  | dangling =>
    obtain ⟨e, rfl⟩ := hx
    obtain ⟨e', w3, he⟩ : ∃ e' w3, (onFault x (changeHeap h (·.popN 1))).exec w1 = (.error e', w3) := by
      rcases ho : (onFault x (changeHeap h (·.popN 1))).exec w1 with ⟨e' | a, w3⟩
      · exact ⟨e', w3, rfl⟩
      · cases hr.symm.trans (exec_onFault_eq_ok.mp ho)
    rw [bind_error he]
    exact ⟨e', rfl⟩

theorem readsAs_requireProp {obj : Int} {key step : String} {absent : Fault} {read : M NativeValue}
    {f : Value → Verdict} (hw : w.Displays h s w1 s1) (hbottom : s1.bottom ≤ s1.stack.size)
    (hv : s1.value? obj = some (.object p)) (habsent : absent.at? = some (.typeMismatch, path ++ [step]))
    (hread : ∀ w2 top, w.Displays h s w2 (s1.push top) →
      ReadsAs w h s (s1.push top) (path ++ [step]) (read.exec w2) (f top)) :
    ReadsAs w h s s1 path ((requireProp h obj key absent read).exec w1) (Verdict.part step f (s.lookup p key)) := by
  unfold requireProp
  rw [bind_ok (exec_onHeap_ok hw.heap (getProp_eq hw.table hv key))]
  cases s.lookup p key with
  | none =>
    have hw2 : w.Displays h s (w1.setHeap h (s1.push .undefined)) (s1.push .undefined) := displays_setHeap hw rfl rfl
    have hpop : (changeHeap h (·.popN 1)).exec (w1.setHeap h (s1.push .undefined)) =
        (.ok (), (w1.setHeap h (s1.push .undefined)).setHeap h s1) :=
      exec_changeHeap_ok hw2.heap (popN_push hbottom .undefined)
    refine (congrArg (ReadsAs w h s s1 path · _) (bind_ok hpop)).mpr ?_
    exact ⟨absent, rfl, habsent, displays_setHeap hw2 rfl rfl⟩
  | some top => exact readsAs_onFault hbottom (hread _ top (displays_setHeap hw rfl rfl))

/-- Reading that ends with an object, or with what is wrong with a value, and changes nothing. -/
def UnwrapsTo (w1 : World) (x : M NativeId) (y : Except Verdict NativeObject) : Prop :=
  ∃ r, x.exec w1 = (r, w1) ∧
    match y with
    | .ok n => ∃ o, r = .ok o ∧ w1.natives[o]? = some n
    | .error (.refused m []) => ∃ y : Issue, r = .error (.fault (.issue y)) ∧ y.kind = m.kind ∧ y.path = []
    | .error .dangling => ∃ e, r = .error e
    | .error _ => False

variable {y : Except Verdict NativeObject}

theorem UnwrapsTo.bind {f : α → M NativeId} {a : α} (hx : x.exec w1 = (.ok a, w1))
    (hf : UnwrapsTo w1 (f a) y) : UnwrapsTo w1 (x >>= f) y := by
  obtain ⟨r, hr, hy⟩ := hf
  exact ⟨r, (bind_ok hx).trans hr, hy⟩

theorem UnwrapsTo.look {f : World → Option α} {g : α → M NativeId}
    (hnone : f w1 = none → y = .error .dangling) (hsome : ∀ a, f w1 = some a → UnwrapsTo w1 (g a) y) :
    UnwrapsTo w1 ((do need (f (← get))) >>= g) y := by
  cases ha : f w1 with
  | none =>
    rw [hnone ha]
    exact ⟨_, bind_error (exec_look_none ha), _, rfl⟩
  | some a => exact (hsome a ha).bind (exec_look_eq_ok.mpr ⟨ha, rfl⟩)

theorem unwrapsTo_unwrap {c : ClassId} (hw : w.Displays br.heapId s w1 s1) (hb : w.bridges[b]? = some br)
    (hv : s1.value? i = some v) (hroom : s1.requireStack 1 = .ok ()) :
    UnwrapsTo w1 (unwrap b i c) (w.unwrapped b s c v) := by
  have hbridge : (bridge b).exec w1 = (.ok br, w1) := exec_bridge_eq_ok.mpr ⟨by rw [hw.bridges]; exact hb, rfl⟩
  have hbottom : s1.bottom ≤ s1.stack.size := (value?_normalize hv).choose_spec.2.2
  unfold unwrap World.unwrapped
  refine .look (fun hd => ?_) fun d hd => .bind hbridge (.bind (exec_heap hw.heap) ?_)
  · rw [hw.classes] at hd
    rw [hd]
  rw [hw.classes] at hd
  simp only [fail_bind, hd]
  by_cases hobject : ∃ p, v = .object p
  case neg =>
    -- The type of the value is not that of an object, which may not be there.
    have hname : s1.typeName i = .ok (Value.kindName (some v)) := by
      unfold typeName typeOf
      rw [hv]
      split
      case h_1 p hp => exact absurd ⟨p, Option.some.inj hp⟩ hobject
      case h_2 => rfl
    have hnot : s1.isObject i = false := by
      unfold isObject
      rw [hv]
      split
      case h_1 p hp => exact absurd ⟨p, Option.some.inj hp⟩ hobject
      case h_2 => rfl
    rw [if_pos (by simp [hnot])]
    refine .bind ((exec_readHeap hw.heap _).trans (by rw [hname])) ?_
    cases v with
    | object p => exact absurd ⟨p, rfl⟩ hobject
    | _ => exact ⟨_, rfl, _, rfl, rfl, rfl⟩
  case pos =>
    obtain ⟨p, rfl⟩ := hobject
    rw [if_neg (by simp [isObject, hv])]
    refine .bind ((exec_readHeap hw.heap _).trans (by rw [hroom])) ?_
    simp only
    cases ho : s.object? p with
    | none =>
      have hmissing := getHidden_missing hv ((object?_of_displays hw p).trans ho) d.key
      refine ⟨_, bind_error (e := .crash .runtime) ((exec_readHeap hw.heap _).trans ?_), _, rfl⟩
      rw [hmissing]
      rfl
    | some o =>
    have ho1 : s1.object? p = some o := (object?_of_displays hw p).trans ho
    refine .bind ((exec_readHeap hw.heap _).trans (by rw [getHidden_eq hv ho1]; rfl)) ?_
    simp only [getPointer, value?_push hbottom]
    cases hk : o.hidden.get? d.key with
    | none =>
      simp only [Option.isSome_none, Bool.not_false, if_true]
      refine .bind (a := o.body.typeName) ((exec_readHeap hw.heap _).trans ?_) ⟨_, rfl, _, rfl, rfl, rfl⟩
      simp only [typeName, typeOf, hv, ho1]
    | some x =>
    simp only [Option.isSome_some, Bool.not_true, Bool.false_eq_true, if_false, Option.getD_some]
    by_cases hrecord : ∃ r, x = .pointer (.record (some r))
    case neg =>
      rcases x with _ | _ | _ | _ | _ | (_ | _ | _ | _ | _ | _ | (_ | r) | _ | _) | _
      case pointer.record.some => exact absurd ⟨r, rfl⟩ hrecord
      all_goals exact ⟨_, rfl, _, rfl, rfl, rfl⟩
    case pos =>
    obtain ⟨r, rfl⟩ := hrecord
    have hhere : (readHeap br.heapId (·.pointerAt i)).exec w1 = (.ok p, w1) := by
      rw [exec_readHeap hw.heap]
      simp only [pointerAt, hv, deref_eq ho1, Except.map]
    simp only [World.linked]
    refine .look (fun hx => ?_) fun x hx => ?_
    · rw [hw.records] at hx
      rw [hx]
    rw [hw.records] at hx
    simp only [hx]
    split
    case isTrue => exact ⟨_, rfl, _, rfl, rfl, rfl⟩
    case isFalse =>
    refine .bind hhere ?_
    cases hi : x.share with
    | none => exact ⟨_, rfl, _, rfl, rfl, rfl⟩
    | some j =>
    simp only
    split
    case isTrue => exact ⟨_, rfl, _, rfl, rfl, rfl⟩
    case isFalse =>
    refine .look (fun hsh => ?_) fun sh hsh => ?_
    · rw [hw.shares] at hsh
      rw [hsh]
      rfl
    rw [hw.shares] at hsh
    simp only [hsh, Option.bind_some]
    cases hn : w.natives[sh.object]? with
    | some n =>
      refine .bind (exec_native (hw.natives _ n hn)) ?_
      simp only
      by_cases htoken : n.token.record = some r
      · rw [if_neg (by simp [htoken]), if_pos htoken]
        exact ⟨_, rfl, _, rfl, hw.natives _ n hn⟩
      · rw [if_pos htoken, if_neg htoken]
        exact ⟨_, rfl, _, rfl, rfl, rfl⟩
    | none =>
      refine .look (fun _ => rfl) fun n hn1 => ?_
      rw [if_pos (by rw [hw.unbound _ n hn hn1]; simp)]
      exact ⟨_, rfl, _, rfl⟩

theorem object_cases (hw : w.Displays h s w1 s1) (hv : s1.value? i = some v) :
    (s1.objectAt? i = .ok none ∧ s1.isObject i = false ∧ (∃ t, s1.typeName i = .ok t) ∧
      ∀ f, s.judge f v = .mismatch) ∨
    (s1.objectAt? i = .error (.crash .runtime) ∧ s1.typeName i = .error (.crash .runtime) ∧
      ∀ f, s.judge f v = .dangling) ∨
    ∃ p o, s1.value? i = some (.object p) ∧ s1.objectAt? i = .ok (some o) ∧ s1.isObject i = true ∧
      (∃ t, s1.typeName i = .ok t) ∧ ∀ f, s.judge f v = f p o := by
  simp only [objectAt?, isObject, typeName, typeOf, deref, hv]
  cases v with
  | object p =>
    simp only [object?_of_displays hw]
    cases ho : s.object? p with
    | none => exact .inr (.inl ⟨rfl, rfl, fun f => by rw [judge, ho]; rfl⟩)
    | some o => exact .inr (.inr ⟨p, o, rfl, rfl, trivial, ⟨_, rfl⟩, fun f => by rw [judge, ho]; rfl⟩)
  | _ => exact .inl ⟨rfl, rfl, ⟨_, rfl⟩, fun f => rfl⟩

theorem readsAs_failType (hw : w.Displays h s w1 s1) (hv : s1.value? i = some v) (type : NativeType)
    (path : List String) :
    ReadsAs w h s s1 path ((failType h type i path : M α).exec w1) (s.judge (fun _ _ => .mismatch) v) := by
  unfold failType
  rcases object_cases hw hv with ⟨-, -, ⟨t, ht⟩, hj⟩ | ⟨-, ht, hj⟩ | ⟨p, o, -, -, -, ⟨t, ht⟩, hj⟩
  · rw [hj]
    exact readsAs_read hw ht (readsAs_fail hw rfl rfl)
  · rw [hj]
    exact readsAs_crash hw ht
  · rw [hj]
    exact readsAs_read hw ht (readsAs_fail hw rfl rfl)

theorem at?_locate {x : Issue} (hx : x.path = []) (path : List String) :
    ((Fault.issue x).locate path).at? = some (x.kind, path ++ []) := by
  simp [Fault.locate, Fault.asIssue?, hx, Fault.withPath, Fault.at?, Fault.firstIssue?]

theorem readsAs_bytes (hw : w.Displays h s w1 s1) (hv : s1.value? i = some v) {type : NativeType}
    (hreg : CodecShape.bytes.Regular type) (name : String) (path : List String) :
    ReadsAs w h s s1 path ((requireShape b h type name .bytes i path).exec w1)
      (CodecShape.bytes.verdict w b s type v) := by
  rw [requireShape, CodecShape.verdict]
  rcases object_cases hw hv with ⟨hat, -, ⟨t, ht⟩, hj⟩ | ⟨hat, -, hj⟩ | ⟨p, o, -, hat, -, ⟨t, ht⟩, hj⟩
  · rw [hj]
    refine readsAs_read (a := false) hw (by rw [isBuffer, hat]; rfl) ?_
    exact readsAs_read hw ht (readsAs_fail hw rfl rfl)
  · rw [hj]
    exact readsAs_crash (e := .crash .runtime) hw (by rw [isBuffer, hat]; rfl)
  rw [hj]
  refine readsAs_read (a := o.buffer?.isSome) hw (by rw [isBuffer, hat]; rfl) ?_
  cases hu : o.buffer? with
  | none => exact readsAs_read hw ht (readsAs_fail hw rfl rfl)
  | some u =>
    have hbytes : s1.requireBuffer i = if u.detached then .error (.fault (.issue
        ⟨.heap, .typeMismatch, [], "", "buffer", s!"stack index {i}: buffer is detached"⟩))
        else .ok u.data := by
      simp [requireBuffer, hat, hu, bind, Except.bind]
      rfl
    have hcaught : (catchFault (readHeap h (·.requireBuffer i))).exec w1 =
        (caught (s1.requireBuffer i), w1) := by rw [exec_catchFault, exec_readHeap hw.heap]
    rw [hbytes] at hcaught
    rw [Option.any_some]
    cases hdetached : u.detached <;> rw [hdetached] at hcaught
    · obtain ⟨elem, hs, hbyte⟩ := hreg
      refine readsAs_step hcaught ?_
      simp only [NativeType.stored?_bytes hs hbyte]
      exact ⟨_, rfl, hw⟩
    · exact readsAs_step hcaught ⟨_, rfl, at?_locate rfl path, hw⟩

theorem readsAs_own (hw : w.Displays br.heapId s w1 s1) (hb : w.bridges[b]? = some br)
    (hv : s1.value? i = some v) (hroom : s1.requireStack 1 = .ok ()) (type : NativeType) (name : String)
    (resource : WitDef) (path : List String) :
    ReadsAs w br.heapId s s1 path ((requireShape b br.heapId type name (.own resource) i path).exec w1)
      ((CodecShape.own resource).verdict w b s type v) := by
  have hfind : (classForResource b resource).exec w1 = ((w.classOf? b resource).elim
      (.error (.fault (.notFound .bind "class for resource" (WitType.textOfDef resource)))) .ok, w1) := by
    unfold classForResource World.classOf?
    rw [bind_ok (exec_bridge_eq_ok.mpr ⟨by rw [hw.bridges]; exact hb, rfl⟩), hb, Option.bind_some]
    cases br.resources.lookup resource.id <;> rfl
  rw [requireShape, CodecShape.verdict]
  cases hc : w.classOf? b resource with
  | none =>
    rw [hc] at hfind
    rw [bind_error hfind]
    exact ⟨_, rfl, rfl, hw⟩
  | some c =>
  rw [hc] at hfind
  refine readsAs_step hfind ?_
  simp only [World.verdictOn]
  obtain ⟨r, hr, hends⟩ := unwrapsTo_unwrap (c := c) hw hb hv hroom
  have hcaught : (catchFault (unwrap b i c)).exec w1 = (caught r, w1) := by rw [exec_catchFault, hr]
  cases hun : w.unwrapped b s c v with
  | ok n =>
    rw [hun] at hends
    obtain ⟨o, rfl, ho⟩ := hends
    refine readsAs_step hcaught (readsAs_step (exec_native ho) ?_)
    simp only
    split
    case isTrue => exact ⟨_, rfl, hw⟩
    case isFalse => exact readsAs_fail hw rfl rfl
  | error u =>
    rw [hun] at hends
    rcases u with _ | ⟨m, _ | ⟨step, route⟩⟩ | _ | _
    case refused.nil =>
      obtain ⟨x, rfl, hm, hx⟩ := hends
      exact readsAs_step hcaught ⟨_, rfl, hm ▸ at?_locate hx path, hw⟩
    case dangling =>
      obtain ⟨e, rfl⟩ := hends
      rcases e with f | e
      · exact readsAs_step hcaught ⟨_, rfl⟩
      · rw [bind_error hcaught]
        exact ⟨_, rfl⟩
    all_goals exact hends.elim

section

variable (hw : w.Displays h s w1 s1)
include hw

theorem exec_absolute {k : Nat} (hk : s1.normalize? i = some k) : (absolute h i).exec w1 = (.ok (k : Int), w1) := by
  unfold absolute
  rw [bind_ok (exec_heap hw.heap), hk]
  rfl

theorem readLength (hbottom : s1.bottom ≤ s1.stack.size) {obj : Int}
    (hv : s1.value? obj = some (.object p)) : ∃ x, ((s1.getProp obj "length").map fun (_, s) =>
      s.getNumber (-1)) = .ok x ∧ lengthOf? x = s.lengthAt? p := by
  refine ⟨_, by rw [getProp_eq hw.table hv]; rfl, ?_⟩
  show lengthOf? ((s1.push ((s.lookup p "length").getD .undefined)).getNumber (-1)) = _
  unfold getNumber lengthAt?
  rw [value?_push hbottom]
  have hnan : lengthOf? .nan = none := by decide +kernel
  cases s.lookup p "length" with
  | none => exact hnan
  | some x => cases x <;> first | rfl | exact hnan

theorem displays_pointerTo (target : NativeType) (a : NativeValue) :
    ∃ c w2, (pointerTo target a).exec w1 = (.ok c, w2) ∧ w.Displays h s w2 s1 := by
  unfold pointerTo
  split
  case h_2 => exact ⟨_, w1, rfl, hw⟩
  case h_1 sort =>
    refine ⟨_, _, rfl, hw.heap, hw.table, hw.limits, hw.bridges, hw.classes, hw.records, hw.shares,
      fun o n hn => push_of_some (hw.natives o n hn), fun o n hnone hn => ?_⟩
    rcases push_cases hn with hn | rfl
    · exact hw.unbound o n hnone hn
    · rfl

theorem displays_sliceOf (type : NativeType) (elems : List NativeValue) :
    ∃ c w2, (sliceOf type elems).exec w1 = (.ok c, w2) ∧ w.Displays h s w2 s1 := by
  unfold sliceOf
  split
  · exact ⟨_, _, rfl, hw.heap, hw.table, hw.limits, hw.bridges, hw.classes, hw.records, hw.shares,
      hw.natives, hw.unbound⟩
  · exact ⟨_, w1, rfl, hw⟩

end

theorem readsAs_requireElements {read : Nat → M NativeValue} {f : Nat → Verdict}
    (hread : ∀ k w2, w.Displays h s w2 s1 → ReadsAs w h s s1 path ((read k).exec w2) (f k)) :
    ∀ n k acc {w1 : World}, w.Displays h s w1 s1 →
      ReadsAs w h s s1 path ((requireElements read n k acc).exec w1) (Verdict.each f n k)
  | 0, _, _, _, hw => ⟨_, rfl, hw⟩
  | n + 1, k, _, w1, hw =>
    readsAs_bind (hread k w1 hw) fun _ _ _ hw2 => readsAs_requireElements hread n (k + 1) _ hw2

mutual

theorem readsAs_requireValue (hb : w.bridges[b]? = some br) (hlimit : s.limits.stack < 2 ^ 63) :
    ∀ codec, codec.Regular → ∀ {w1 s1 i v} (path), w.Displays br.heapId s w1 s1 →
      s1.value? i = some v → (s1.stack.size : Int) + codec.slots ≤ s.limits.stack →
      ReadsAs w br.heapId s s1 path ((requireValue b codec i path).exec w1) (codec.verdict w b s v)
  | .mk type name shape, hreg, w1, s1, i, v, path, hw, hv, hroom => by
    rw [exec_requireValue i path (by rw [hw.bridges]; exact hb), Codec.verdict]
    exact readsAs_requireShape hb hlimit shape type name hreg path hw hv hroom

theorem readsAs_requireShape (hb : w.bridges[b]? = some br) (hlimit : s.limits.stack < 2 ^ 63) :
    ∀ shape type name, shape.Regular type →
      ∀ {w1 s1 i v} (path), w.Displays br.heapId s w1 s1 → s1.value? i = some v →
      (s1.stack.size : Int) + shape.slots ≤ s.limits.stack →
      ReadsAs w br.heapId s s1 path ((requireShape b br.heapId type name shape i path).exec w1)
        (shape.verdict w b s type v)
  | .bool, type, _, hreg, _, _, _, v, path, hw, hv, _ | .string, type, _, hreg, _, _, _, v, path, hw, hv, _ => by
    have hu : type.underlying = _ := hreg
    rw [requireShape, bind_ok (exec_heap hw.heap), hv]
    simp only [NativeType.stored?, hu]
    cases v <;> rw [CodecShape.verdict] <;>
      first | exact ⟨_, rfl, hw⟩ | exact readsAs_failType hw hv type path | simp
  | .float _, type, _, hreg, _, _, _, v, path, hw, hv, _ => by
    rw [requireShape, bind_ok (exec_heap hw.heap), hv]
    rcases hreg with hu | hu <;> simp only [NativeType.stored?, hu] <;> cases v <;> rw [CodecShape.verdict] <;>
      first | exact ⟨_, rfl, hw⟩ | exact readsAs_failType hw hv type path | simp
  | .int bits signed, type, name, hreg, w1, s1, i, v, path, hw, hv, _ => by
    cases v with
    | number x =>
      obtain ⟨k, hk, htype⟩ := hreg
      rw [exec_requireInt htype hk hw.heap hv, CodecShape.verdict, integerOf_eq (IntType.bits_le_of_allowed hk)]
      cases x.truncate? with
      | none => exact readsAs_fail (m := .range) hw rfl rfl
      | some j =>
        simp only [Option.any_some, decide_eq_true_eq]
        by_cases hj : InWidth bits signed j
        · rw [if_pos hj, if_pos hj]
          exact ⟨_, rfl, hw⟩
        · rw [if_neg hj, if_neg hj]
          exact readsAs_fail (m := .range) hw rfl rfl
    | _ =>
      rw [requireShape, bind_ok (exec_heap hw.heap), hv, CodecShape.verdict]
      · exact readsAs_failType hw hv type path
      · simp
  | .enum cases, type, name, hreg, w1, s1, i, v, path, hw, hv, _ => by
    cases v with
    | number x =>
      obtain ⟨-, k, hk⟩ := hreg
      rw [exec_requireCase hk hw.heap hv, CodecShape.verdict]
      rcases caseOf_eq cases name x path with ⟨j, hj, hlow, hhigh, he⟩ | ⟨hnone, he⟩
      · rw [he, if_pos (by simp [hj, hlow, hhigh])]
        exact ⟨_, rfl, hw⟩
      · rw [he, if_neg (by simpa [Option.any_eq_true] using hnone)]
        exact readsAs_fail (m := .case) hw rfl rfl
    | _ =>
      rw [requireShape, bind_ok (exec_heap hw.heap), hv, CodecShape.verdict]
      · exact readsAs_failType hw hv type path
      · simp
  | .bytes, type, name, hreg, w1, s1, i, v, path, hw, hv, _ => readsAs_bytes hw hv hreg name path
  | .record fields, type, name, hreg, w1, s1, i, v, path, hw, hv, hroom => by
    have hfree : s1.requireStack 1 = .ok () := by
      simp only [CodecShape.slots] at hroom
      exact requireStack_one (by rw [hw.limits]; omega) (by rw [hw.limits]; exact hlimit)
    have htype := readsAs_failType (α := NativeValue) hw hv type path
    rw [requireShape, CodecShape.verdict]
    refine readsAs_step (exec_heap hw.heap) ?_
    rcases object_cases hw hv with ⟨hat, hnot, -, hj⟩ | ⟨hat, -, hj⟩ | ⟨p, o, hp, hat, his, -, hj⟩
    · rw [hj] at htype ⊢
      refine readsAs_read (a := false) hw (by rw [isBuffer, hat]; rfl) ?_
      refine readsAs_read (a := false) hw (by rw [isFunction, hat]; rfl) ?_
      rwa [if_pos (by simp [hnot])]
    · rw [hj]
      exact readsAs_crash (e := .crash .runtime) hw (by rw [isBuffer, hat]; rfl)
    · rw [hj] at htype ⊢
      refine readsAs_read (a := o.buffer?.isSome) hw (by rw [isBuffer, hat]; rfl) ?_
      refine readsAs_read (a := o.isFunction) hw (by rw [isFunction, hat]; rfl) ?_
      rw [his]
      simp only [Bool.not_true, Bool.false_or]
      split
      case isTrue => exact htype
      case isFalse =>
        obtain ⟨k, hk, hat, -⟩ := value?_normalize hp
        obtain ⟨values, hzero⟩ := zero_of_fields? hreg.1
        refine readsAs_read hw hfree (readsAs_step (exec_absolute hw hk) ?_)
        rw [hzero]
        exact readsAs_requireFields hb hlimit type fields hreg.2 values path hw hat hroom
  | .list elem, type, name, hreg, w1, s1, i, v, path, hw, hv, hroom => by
    simp only [CodecShape.slots] at hroom
    have hfree : s1.requireStack 1 = .ok () :=
      requireStack_one (by rw [hw.limits]; omega) (by rw [hw.limits]; exact hlimit)
    have htype := readsAs_failType (α := NativeValue) hw hv type path
    rw [requireShape, CodecShape.verdict]
    refine readsAs_step (exec_heap hw.heap) ?_
    rcases object_cases hw hv with ⟨hat, hnot, -, hj⟩ | ⟨hat, -, hj⟩ | ⟨p, o, hp, hat, his, ⟨t, ht⟩, hj⟩
    · rw [hj] at htype ⊢
      refine readsAs_read (a := false) hw (by rw [isFunction, hat]; rfl) ?_
      rwa [if_pos (by simp [hnot])]
    · rw [hj]
      exact readsAs_crash (e := .crash .runtime) hw (by rw [isFunction, hat]; rfl)
    · rw [hj] at htype ⊢
      refine readsAs_read (a := o.isFunction) hw (by rw [isFunction, hat]; rfl) ?_
      rw [his]
      simp only [Bool.not_true, Bool.false_or]
      split
      case isTrue => exact htype
      case isFalse =>
        obtain ⟨k, hk, hat, hbottom⟩ := value?_normalize hp
        obtain ⟨x, hx, hlength⟩ := readLength hw hbottom hat
        refine readsAs_read hw hfree (readsAs_step (exec_absolute hw hk) (readsAs_read hw hx ?_))
        rw [hlength]
        cases s.lengthAt? p with
        | none => exact readsAs_read hw ht (readsAs_fail hw rfl rfl)
        | some n =>
          simp only [hreg.1, M.need, pure_bind, assign_eq (NativeType.assignableTo_self _), bind_pure]
          refine readsAs_map (readsAs_requireElements (fun j w2 hw2 => ?_) n 0 [] hw)
            fun elems w2 hw2 => displays_sliceOf hw2 type elems
          refine readsAs_requireProp hw2 hbottom hat
            rfl fun w3 top hw3 => ?_
          refine readsAs_requireValue hb hlimit elem hreg.2 _ hw3 (value?_push hbottom top) ?_
          rw [size_push]
          omega
  | .option elem, type, name, hreg, w1, s1, i, v, path, hw, hv, hroom => by
    rw [requireShape, bind_ok (exec_heap hw.heap), CodecShape.verdict]
    have hnullish : s1.isNullish i = decide (v = .null ∨ v = .undefined) := by
      unfold isNullish
      rw [hv]
      cases v <;> rfl
    by_cases hnull : v = .null ∨ v = .undefined
    · rw [if_pos (by simp [hnullish, hnull]), if_pos hnull]
      exact ⟨_, rfl, hw⟩
    · rw [if_neg (by simp [hnullish, hnull]), if_neg hnull]
      refine readsAs_map (readsAs_requireValue hb hlimit elem hreg.2 path hw hv hroom) fun a w2 hw2 => ?_
      split
      · exact ⟨_, w2, rfl, hw2⟩
      · rename_i hne
        simp only [assign_eq (NativeType.assignableTo_of_target? (hreg.1.resolve_left hne)), bind_pure]
        exact displays_pointerTo hw2 _ a
  | .own resource, type, name, _, w1, s1, i, v, path, hw, hv, hroom =>
    readsAs_own hw hb hv (requireStack_one (by rw [hw.limits]; exact hroom)
      (by rw [hw.limits]; exact hlimit)) type name resource path

theorem readsAs_requireFields (hb : w.bridges[b]? = some br) (hlimit : s.limits.stack < 2 ^ 63) :
    ∀ type fields, fields.Regular type → ∀ {w1 s1 p} {obj : Nat} (values) (path),
      w.Displays br.heapId s w1 s1 → s1.value? obj = some (.object p) →
      (s1.stack.size : Int) + (fields.slots + 1 : Nat) ≤ s.limits.stack →
      ReadsAs w br.heapId s s1 path ((requireFields b br.heapId obj type fields values path).exec w1)
        (fields.verdict w b s p)
  | _, .nil, _, _, _, _, _, _, _, hw, _, _ => ⟨_, rfl, hw⟩
  | type, .cons name _ index codec rest, hreg, w1, s1, p, obj, values, path, hw, hv, hroom => by
    have hbottom : s1.bottom ≤ s1.stack.size := (value?_normalize hv).choose_spec.2.2
    simp only [CodecFields.slots] at hroom
    rw [requireFields, CodecFields.verdict]
    simp only [hreg.1, M.need, pure_bind, assign_eq (NativeType.assignableTo_self _)]
    refine readsAs_bind (readsAs_requireProp hw hbottom hv rfl fun w2 top hw2 => ?_) fun a w2 _ hw2 => ?_
    · refine readsAs_requireValue hb hlimit codec hreg.2.1 _ hw2 (value?_push hbottom top) ?_
      rw [size_push]
      omega
    · exact readsAs_requireFields hb hlimit type rest hreg.2.2 _ path hw2 hv (by omega)

end

end Bridge

open Bridge in
/-- **What reading accepts.** Take a codec that was compiled, a value on the stack, whatever graph of
objects it leads to, and as many free slots as the codec needs.

Reading the value succeeds exactly if it conforms to the codec. If not, it fails with a fault that tells
what is wrong and names the first place that does not conform, below the place of the value itself. There
is one exception: a handle of a resource for which no class is registered is refused with another fault,
which names no place. In all these cases the heap is as before. A value that names an object or a record
that is not there is refused in some way. -/
theorem require_accepts_conforming {w : World} {b : BridgeId} {br : Bridge} {s : Heap} {wit : WitType}
    {expected : NativeType} {place : List String} {codec : Codec} {i : Int} {v : Value}
    (hc : Codec.compileAt wit expected place = .ok codec) (hb : w.bridges[b]? = some br)
    (hs : w.heaps[br.heapId]? = some s) (hv : s.value? i = some v)
    (hroom : (s.stack.size : Int) + codec.slots ≤ s.limits.stack) (hlimit : s.limits.stack < 2 ^ 63)
    (path : List String) :
    (codec.Conforms w b s v ↔ ∃ a w', (requireValue b codec i path).exec w = (.ok a, w')) ∧
    (∀ a w', (requireValue b codec i path).exec w = (.ok a, w') → w'.heaps[br.heapId]? = some s) ∧
    (∀ misfit route, codec.verdict w b s v = .refused misfit route → ∃ f w',
      (requireValue b codec i path).exec w = (.error (.fault f), w') ∧
        f.at? = some (misfit.kind, path ++ route) ∧ w'.heaps[br.heapId]? = some s) ∧
    (codec.verdict w b s v = .unregistered → ∃ f w', (requireValue b codec i path).exec w = (.error (.fault f), w') ∧
        f.at? = some (.notFound, []) ∧ w'.heaps[br.heapId]? = some s) ∧
    (codec.verdict w b s v = .dangling → ∃ e w', (requireValue b codec i path).exec w = (.error e, w')) := by
  have hreads := readsAs_requireValue hb hlimit codec (Codec.regular_compileAt wit expected place hc) path
    (displays_self hs) hv hroom
  unfold Codec.Conforms
  generalize (requireValue b codec i path).exec w = res at hreads ⊢
  obtain ⟨r, w'⟩ := res
  cases hverdict : codec.verdict w b s v with
  | fits =>
    rw [hverdict] at hreads
    obtain ⟨a, rfl, hw'⟩ := hreads
    refine ⟨⟨fun _ => ⟨a, w', rfl⟩, fun _ => rfl⟩, fun a' w2 he => ?_, ?_⟩
    · obtain ⟨-, rfl⟩ := Prod.mk.inj he
      exact hw'.heap
    · exact ⟨fun _ _ h => absurd h (by simp), fun h => absurd h (by simp), fun h => absurd h (by simp)⟩
  | refused misfit route =>
    rw [hverdict] at hreads
    obtain ⟨f, rfl, hf, hw'⟩ := hreads
    refine ⟨by simp, by simp, fun m r h => ?_, by simp, by simp⟩
    obtain ⟨rfl, rfl⟩ := Verdict.refused.inj h
    exact ⟨f, w', rfl, hf, hw'.heap⟩
  | unregistered =>
    rw [hverdict] at hreads
    obtain ⟨f, rfl, hf, hw'⟩ := hreads
    exact ⟨by simp, by simp, by simp, fun _ => ⟨f, w', rfl, hf, hw'.heap⟩, by simp⟩
  | dangling =>
    rw [hverdict] at hreads
    obtain ⟨e, rfl⟩ := hreads
    exact ⟨by simp, by simp, by simp, by simp, fun _ => ⟨e, w', rfl⟩⟩

/-- A heap with a bridge and an object that claims two elements and has the first. -/
def holdsElement : Script :=
  .ofSteps [.bridge (.make false false), .stack .pushObject,
      .stack (.pushNumber (Double.ofInt 2)), .property (.put (-2) "length"),
      .stack (.pushNumber (Double.ofInt 7)), .property (.put (-2) "0")]

def integerList : Codec := .mk (.slice (.int .int32)) "list<s32>" (.list (.mk (.int .int32) "s32" (.int 32 true)))

def gadgetList : Codec :=
  .mk (.slice (.object .gadget)) "list<own<gadget>>"
    (.list (.mk (.object .gadget) "own<gadget>" (.own (.mk 2 (some "gadget") (.other .resource)))))

open Bridge in
/-- Read as a list of integers, the object is refused at its second element. -/
theorem require_accepts_conforming_holdsElement : ∃ f w',
    (requireValue 0 integerList (-1) ["items"]).exec (holdsElement.world 2 false) =
      (.error (.fault f), w') ∧ f.at? = some (.typeMismatch, ["items", "[1]"]) := by
  have hc : Codec.compileAt (.defined (.mk 0 none (.list (.prim .s32)))) (.slice (.int .int32)) [] =
      .ok integerList := rfl
  obtain ⟨br, hb, hid⟩ : ∃ br, (holdsElement.world 2 false).bridges[0]? = some br ∧ br.heapId = 0 := by decide +kernel
  obtain ⟨s, hs, hv, hsize, hlimit, hverdict⟩ : ∃ s, (holdsElement.world 2 false).heaps[0]? = some s ∧
    s.value? (-1) = some (.object ⟨4, 1⟩) ∧ s.stack.size = 1 ∧ s.limits.stack = 10000 ∧
    integerList.verdict (holdsElement.world 2 false) 0 s (.object ⟨4, 1⟩) = .refused .type ["[1]"] := by decide +kernel
  have hslots : integerList.slots = 1 := rfl
  obtain ⟨-, -, hrefused, -⟩ := require_accepts_conforming hc hb (hid.symm ▸ hs) hv
    (by rw [hsize, hlimit, hslots]; decide) (by rw [hlimit]; decide) ["items"]
  obtain ⟨f, w', he, hf, -⟩ := hrefused .type ["[1]"] hverdict
  exact ⟨f, w', he, hf⟩

open Bridge in
/-- Read as a list of handles of a resource without a class, the object is refused without a place. -/
theorem require_forgets_place : Codec.compileAt (.defined (.mk 1 none (.list (.defined (.mk 0 none (.own
      (.mk 2 (some "gadget") (.other .resource)))))))) (.slice (.object .gadget)) [] = .ok gadgetList ∧
    (match ((requireValue 0 gadgetList (-1) ["items"]).exec (holdsElement.world 2 false)).1 with
      | .error (.fault f) => f.at?
      | _ => none) = some (.notFound, []) :=
  ⟨rfl, by decide +kernel⟩

end Tether
