import Mathlib.Data.List.Perm.Subperm
import Mathlib.Logic.Relation
import Tether.Proofs.Abiding
import Tether.Proofs.Calls

/-!
# Prototypes

An object may have another as its prototype, and that another. Setting a prototype walks the chain from the
new prototype and refuses if it comes to the object itself; looking up a property walks the chain from the
object, for a bounded number of objects.
-/

namespace Tether

open Relation M

namespace Heap

variable {s s' : Heap} {p q : HeapPtr} {o : Object} {n m : Nat} {k : String} {v : Value} {i : Int}

def Inherits (s : Heap) (p q : HeapPtr) : Prop := ∃ o, s.object? p = some o ∧ o.prototype = some q

def Acyclic (s : Heap) : Prop := ∀ p, ¬ TransGen s.Inherits p p

/-- The first objects on the way from a pointer along prototypes, as many as asked for if there are. -/
def chain (s : Heap) : Nat → HeapPtr → List HeapPtr
  | 0, _ => []
  | n + 1, p =>
    match s.object? p with
    | none => []
    | some o =>
      p :: match o.prototype with
        | none => []
        | some q => s.chain n q

def own (s : Heap) (k : String) (p : HeapPtr) : Option Value := (s.object? p).bind (·.props.get? k)

/-! ## Walks -/

theorem take_chain (h : n ≤ m) : (s.chain m p).take n = s.chain n p := by
  induction n generalizing m p with
  | zero => rfl
  | succ n ih =>
    obtain ⟨m, rfl⟩ : ∃ m', m = m' + 1 := ⟨m - 1, by omega⟩
    unfold chain
    cases s.object? p with
    | none => rfl
    | some o =>
      cases hq : o.prototype with
      | none => simp [hq]
      | some q => simpa [hq] using ih (Nat.le_of_succ_le_succ h)

theorem lookupFrom_eq : s.lookupFrom k n p = (s.chain n p).findSome? (s.own k) := by
  induction n generalizing p with
  | zero => rfl
  | succ n ih =>
    unfold lookupFrom chain
    cases ho : s.object? p with
    | none => rfl
    | some o =>
      simp only [List.findSome?_cons, own, ho, Option.bind_some]
      cases o.props.get? k with
      | some v => rfl
      | none =>
        cases o.prototype with
        | none => rfl
        | some q => exact ih

theorem onChain_iff : s.onChain p n q = true ↔ p ∈ s.chain n q := by
  induction n generalizing q with
  | zero => simp [onChain, chain]
  | succ n ih =>
    unfold onChain chain
    cases s.object? q with
    | none => simp
    | some o =>
      cases hr : o.prototype with
      | none => simpa [hr] using eq_comm
      | some r => simpa [hr, ih] using or_congr_left eq_comm

theorem of_mem_chain (h : q ∈ s.chain n p) : ReflTransGen s.Inherits p q ∧ (s.object? q).isSome = true := by
  induction n generalizing p with
  | zero => simp [chain] at h
  | succ n ih =>
    unfold chain at h
    split at h
    case h_1 => simp at h
    case h_2 o ho =>
      rcases List.mem_cons.mp h with rfl | h
      · exact ⟨.refl, by rw [ho]; rfl⟩
      · split at h
        case h_1 => simp at h
        case h_2 r hr =>
          obtain ⟨hreach, hlive⟩ := ih h
          exact ⟨.head ⟨o, ho, hr⟩ hreach, hlive⟩

theorem exists_mem_chain (h : ReflTransGen s.Inherits p q) (hlive : (s.object? q).isSome = true) :
    ∃ n, q ∈ s.chain n p := by
  induction h using ReflTransGen.head_induction_on with
  | refl =>
    obtain ⟨o, ho⟩ := Option.isSome_iff_exists.mp hlive
    exact ⟨1, by simp [chain, ho]⟩
  | head hstep _ ih =>
    obtain ⟨o, ho, hr⟩ := hstep
    obtain ⟨n, hn⟩ := ih
    exact ⟨n + 1, by simp [chain, ho, hr, hn]⟩

theorem length_le_slots {ps : List HeapPtr} (hnodup : ps.Nodup) (hlive : ∀ p ∈ ps, (s.object? p).isSome = true) :
    ps.length ≤ s.table.slots.size := by
  have hslot : ∀ p ∈ ps, ∃ o, 0 < p.slot.toNat ∧ s.table.slots[p.slot.toNat - 1]? = some ⟨p.gen, some o⟩ := by
    intro p hp
    obtain ⟨o, ho⟩ := Option.isSome_iff_exists.mp (hlive p hp)
    exact ⟨o, Table.get?_eq_some.mp ho⟩
  have hmap : (ps.map fun p => p.slot.toNat - 1).Nodup := by
    refine hnodup.map_on fun p hp q hq heq => ?_
    obtain ⟨o, hp0, hpo⟩ := hslot p hp
    obtain ⟨o', hq0, hqo⟩ := hslot q hq
    rw [heq, hqo] at hpo
    exact Table.ptr_eq hp0 hq0 heq (Slot.mk.inj (Option.some.inj hpo)).1.symm
  have hsub : (ps.map fun p => p.slot.toNat - 1) ⊆ List.range s.table.slots.size := by
    intro a ha
    obtain ⟨p, hp, rfl⟩ := List.mem_map.mp ha
    obtain ⟨o, -, ho⟩ := hslot p hp
    exact List.mem_range.mpr (Array.getElem?_eq_some_iff.mp ho).1
  simpa using (List.subperm_of_subset hmap hsub).length_le

namespace Acyclic

theorem nodup_chain (hs : s.Acyclic) : (s.chain n p).Nodup := by
  induction n generalizing p with
  | zero => exact List.nodup_nil
  | succ n ih =>
    unfold chain
    split
    case h_1 => exact List.nodup_nil
    case h_2 o ho =>
      split
      case h_1 => exact List.nodup_singleton p
      case h_2 q hq =>
        refine List.nodup_cons.mpr ⟨fun hp => ?_, ih⟩
        exact hs p (.head' ⟨o, ho, hq⟩ (of_mem_chain hp).1)

theorem chain_eq (hs : s.Acyclic) (hn : s.table.slots.size ≤ n) : s.chain n p = s.chain s.table.slots.size p := by
  rw [← take_chain hn]
  exact (List.take_of_length_le (length_le_slots hs.nodup_chain fun q hq => (of_mem_chain hq).2)).symm

theorem mem_chain_iff (hs : s.Acyclic) (hn : s.table.slots.size ≤ n) :
    q ∈ s.chain n p ↔ ReflTransGen s.Inherits p q ∧ (s.object? q).isSome = true := by
  refine ⟨of_mem_chain, fun ⟨hreach, hlive⟩ => ?_⟩
  obtain ⟨m, hm⟩ := exists_mem_chain hreach hlive
  rw [← take_chain (Nat.le_max_left m n)] at hm
  have hall := List.mem_of_mem_take hm
  rwa [hs.chain_eq (Nat.le_trans hn (Nat.le_max_right m n)), ← hs.chain_eq hn] at hall

end Acyclic

/-! ## Changes -/

theorem Acyclic.mono (hs : s.Acyclic) (h : ∀ a b, s'.Inherits a b → s.Inherits a b) : s'.Acyclic :=
  fun a ha => hs a (TransGen.mono h a a ha)

theorem Acyclic.link (hs : s.Acyclic) (p : HeapPtr)
    (h : ∀ a b, s'.Inherits a b → s.Inherits a b ∨ a = p ∧ ¬ ReflTransGen s.Inherits b p) : s'.Acyclic := by
  -- A way that uses a new link comes to `p` without one, and uses it only once.
  have hway : ∀ {a c}, TransGen s'.Inherits a c → TransGen s.Inherits a c ∨
      ReflTransGen s.Inherits a p ∧ ∃ b, ¬ ReflTransGen s.Inherits b p ∧ ReflTransGen s.Inherits b c := by
    intro a c hac
    induction hac with
    | single hstep =>
      rcases h _ _ hstep with hold | ⟨rfl, hnew⟩
      · exact .inl (.single hold)
      · exact .inr ⟨.refl, _, hnew, .refl⟩
    | tail _ hstep ih =>
      rcases h _ _ hstep, ih with ⟨hold | ⟨rfl, hnew⟩, hac | ⟨hap, b, hb, hbc⟩⟩
      · exact .inl (hac.tail hold)
      · exact .inr ⟨hap, b, hb, hbc.tail hold⟩
      · exact .inr ⟨hac.to_reflTransGen, _, hnew, .refl⟩
      · exact absurd hbc hb
  intro a ha
  rcases hway ha with hold | ⟨hap, b, hb, hba⟩
  · exact hs a hold
  · exact hb (hba.trans hap)

theorem acyclic_modify {f : Object → Object} (hs : s.Acyclic)
    (hf : ∀ o q, s.object? p = some o → (f o).prototype = some q →
      o.prototype = some q ∨ s.onChain p s.table.slots.size q = false) :
    (s.modifyObject p f).Acyclic := by
  refine hs.link p fun a b ⟨o', ho', hb⟩ => ?_
  rw [object?_modifyObject] at ho'
  split at ho'
  case isFalse => exact .inl ⟨o', ho', hb⟩
  case isTrue ha =>
    obtain ⟨o, ho, rfl⟩ := Option.map_eq_some_iff.mp ho'
    have hlive : s.object? p = some o := ha ▸ ho
    refine (hf o b hlive hb).imp (fun hold => ⟨o, ho, hold⟩) fun hfree => ⟨ha, fun hreach => ?_⟩
    have hmem := (hs.mem_chain_iff (Nat.le_refl _)).mpr ⟨hreach, by rw [hlive]; rfl⟩
    simp [onChain_iff.mpr hmem] at hfree

theorem Acyclic.congr (hs : s.Acyclic) (htable : s'.table = s.table) : s'.Acyclic :=
  hs.mono fun a b ⟨o, ho, hb⟩ => ⟨o, by rw [← ho]; exact congrArg (·.get? a) htable.symm, hb⟩

theorem acyclic_empty (h : s.table = {}) : s.Acyclic := by
  have hnone : ∀ p q, ¬ s.Inherits p q := by
    rintro p q ⟨o, ho, -⟩
    unfold object? at ho
    rw [h] at ho
    exact absurd (Table.get?_eq_some.mp ho).2 nofun
  intro p hp
  obtain ⟨q, hq, -⟩ := TransGen.head'_iff.mp hp
  exact hnone p q hq

theorem Acyclic.amend {w : World} (hs : s.Acyclic) (ha : s.Amends w s') : s'.Acyclic := by
  cases ha with
  | restack | restore => exact hs.congr rfl
  | @edit p f _ _ _ _ _ hprototype => exact (acyclic_modify hs hprototype).congr rfl

theorem acyclic_of_shift (hshift : s.Shifts s') (hs : s.Acyclic) : s'.Acyclic := by
  cases hshift with
  | turn ht =>
    cases ht with
    | amend ha => exact hs.amend ha
    | start p => exact acyclic_modify hs fun _ _ _ => .inl
    | root | clear => exact hs.congr rfl
    | shut _ _ _ _ _ _ htable => exact acyclic_empty htable
  | amend ha => exact hs.amend ha
  | rest htable _ _ => exact hs.congr htable
  | alloc hblank _ =>
    -- A new object has no prototype.
    refine hs.mono fun a b ⟨x, hx, hb⟩ => ?_
    rcases Table.get?_insert_cases hx with rfl | hx
    · have hmem : b ∈ x.references := Object.mem_references.mpr (.inl hb)
      simp [hblank.references] at hmem
    · exact ⟨x, hx, hb⟩
  | sweep hswept _ _ =>
    refine hs.mono fun a b ⟨x, hx, hb⟩ => ?_
    have hx' := (hswept.objects a).symm.trans hx
    split at hx'
    · simp at hx'
    · exact ⟨x, hx', hb⟩

/-! ## Setting prototypes -/

/-- The value cannot become the prototype of the object: it would close a cycle, or it is neither an object
nor null or undefined. -/
def Refuses (s : Heap) (p : HeapPtr) : Value → Prop
  | .object q => ¬ (s.modifyObject p ({ · with prototype := some q })).Acyclic
  | .null | .undefined => False
  | _ => True

theorem Acyclic.closes_iff (hs : s.Acyclic) (ho : s.object? p = some o) :
    ¬ (s.modifyObject p ({ · with prototype := some q })).Acyclic ↔ s.onChain p s.table.slots.size q = true := by
  constructor
  · intro hcycle
    by_contra hfree
    exact hcycle (acyclic_modify hs fun _ _ _ hr => .inr (by cases hr; exact Bool.eq_false_iff.mpr hfree))
  · intro hfound hacyclic
    -- The way back to `p` does not use the link that is replaced.
    have hway : ∀ {a}, ReflTransGen s.Inherits a p →
        ReflTransGen (s.modifyObject p ({ · with prototype := some q })).Inherits a p := by
      intro a hreach
      induction hreach using ReflTransGen.head_induction_on with
      | refl => exact .refl
      | @head a c hstep _ ih =>
        by_cases ha : a = p
        · rw [ha]
        · obtain ⟨x, hx, hc⟩ := hstep
          exact .head ⟨x, by rw [object?_modifyObject, if_neg ha]; exact hx, hc⟩ ih
    refine hacyclic p (.head' ⟨{ o with prototype := some q }, ?_, rfl⟩ (hway (of_mem_chain (onChain_iff.mp hfound)).1))
    rw [object?_modifyObject, if_pos rfl]
    exact congrArg (Option.map _) ho

theorem operand_of_back? (hp : s.value? i = some (.object p)) (hv : s.stack.back? = some v) (what : String) :
    s.operand what = .ok v ∧ 1 ≤ s.top := by
  obtain ⟨a, ha, -⟩ := Option.bind_eq_some_iff.mp hp
  have htop : 1 ≤ s.top := by
    have := bottom_le_of_position? ha
    unfold top
    omega
  refine ⟨?_, htop⟩
  rw [operand, if_neg (by omega), hv]
  rfl

theorem value?_top (hv : s.stack.back? = some v) (htop : 1 ≤ s.top) : s.value? (-1) = some v := by
  unfold top at htop
  rw [value?, position?, if_neg (by simp; omega)]
  rw [Array.back?] at hv
  simpa [show ((s.stack.size : Int) + -1).toNat = s.stack.size - 1 by omega] using hv

theorem Acyclic.setPrototype (hs : s.Acyclic) (hp : s.value? i = some (.object p)) (ho : s.object? p = some o)
    (hv : s.stack.back? = some v) :
    (s.Refuses p v → ∃ f, s.setPrototype i = .error (.fault f)) ∧
    (¬ s.Refuses p v → s.setPrototype i = .ok ((s.modifyObject p ({ · with
      prototype := v.object?.filter fun q => (s.object? q).isSome })).truncate (s.stack.size - 1))) := by
  obtain ⟨hoperand, htop⟩ := operand_of_back? hp hv "set prototype"
  have hrequire : s.requireObject i = .ok p := by rw [requireObject, hp]
  have hderef : s.deref p = .ok o := by rw [deref, ho]
  have hpop : ∀ f, (s.modifyObject p f).popN 1 = .ok ((s.modifyObject p f).truncate (s.stack.size - 1)) := by
    intro f
    rw [popN, if_neg (by show ¬ ((1 : Int) < 0 ∨ s.top < 1); omega)]
    rfl
  unfold Heap.setPrototype
  simp only [hrequire, hoperand, hderef, hpop, bind, Except.bind]
  cases v with
  | object q =>
    simp only [Refuses, hs.closes_iff ho]
    constructor
    · intro hfound
      exact ⟨_, by rw [if_pos hfound]⟩
    · intro hfree
      rw [if_neg hfree]
      simp [Value.object?, Option.filter]
  | null | undefined => exact ⟨False.elim, fun _ => rfl⟩
  | _ =>
    refine ⟨fun _ => ?_, fun h => absurd trivial h⟩
    simp only [mismatch, typeName, value?_top hv htop, typeOf]
    exact ⟨_, rfl⟩

theorem head?_chain (n : Nat) : (s.chain (n + 1) p).head? = (s.object? p).map fun _ => p := by
  unfold chain
  cases s.object? p <;> rfl

theorem isChain_chain : (s.chain n p).IsChain s.Inherits := by
  induction n generalizing p with
  | zero => exact .nil
  | succ n ih =>
    unfold chain
    split
    case h_1 => exact .nil
    case h_2 o ho =>
      split
      case h_1 => exact .singleton p
      case h_2 q hq =>
        refine List.isChain_cons.mpr ⟨fun r hr => ⟨o, ho, ?_⟩, ih⟩
        cases n with
        | zero => simp [chain] at hr
        | succ n =>
          obtain ⟨_, -, rfl⟩ := Option.map_eq_some_iff.mp ((head?_chain n).symm.trans hr)
          exact hq

end Heap

open Heap

/-- An object without a prototype that has a property, and so many that have the one before as prototype. -/
def inheriting (n : Int) : Script :=
  { heap := { gcThreshold := 0 }, logging := false
    program := .step (.stack .pushObject) <| .step (.stack .pushNull) <| .step (.property (.put (-2) "k")) <|
      .loop n (.ofList [.stack .pushObject, .stack (.swap (-1) (-2)), .property (.setPrototype (-2))]) .done }

/-- **Prototypes have no cycle.** In every state that a run meets, at its steps or between the steps of native
code, and in every heap, no object is met again along its prototypes. Hence the walk along the prototypes of an
object finds another exactly if it can be reached, however much longer the walk goes on. Setting the prototype of
an object fails exactly if it would close a cycle or if the value is neither an object nor null or undefined;
then it fails with a fault, and nothing has changed. -/
theorem prototypes_acyclic (script : Script) (n : Nat) (recording : Bool) (x : State) (h : HeapId) (s : Heap)
    (hx : (script.world n recording).Met x) (hs : x.heaps[h]? = some s) :
    s.Acyclic ∧
    (∀ p q m, (s.object? p).isSome = true → s.table.slots.size ≤ m →
      (s.onChain p m q = true ↔ ReflTransGen s.Inherits q p)) ∧
    ∀ i p o v, s.value? i = some (.object p) → s.object? p = some o → s.stack.back? = some v →
      ((∃ e, s.setPrototype i = .error e) ↔ s.Refuses p v) ∧
      (¬ s.Refuses p v → s.setPrototype i = .ok ((s.modifyObject p ({ · with
        prototype := v.object?.filter fun q => (s.object? q).isSome })).truncate (s.stack.size - 1))) ∧
      ∀ w e, w.heaps[h]? = some s → s.setPrototype i = .error e →
        (∃ f, e = .fault f) ∧ (performProperty h (.setPrototype i)).exec w = (.error e, w) := by
  have hacyclic : s.Acyclic := holds_when_met (fun _ _ _ _ => acyclic_empty rfl) acyclic_of_shift hx hs
  refine ⟨hacyclic, fun p q m hlive hm => ?_, fun i p o v hp ho hv => ?_⟩
  · rw [onChain_iff, hacyclic.mem_chain_iff hm]
    exact and_iff_left hlive
  · obtain ⟨hrefused, haccepted⟩ := hacyclic.setPrototype hp ho hv
    refine ⟨⟨fun ⟨e, he⟩ => ?_, fun hr => ?_⟩, haccepted, fun w e hw he => ⟨?_, ?_⟩⟩
    · by_contra hr
      cases he.symm.trans (haccepted hr)
    · obtain ⟨f, hf⟩ := hrefused hr
      exact ⟨_, hf⟩
    · by_cases hr : s.Refuses p v
      · obtain ⟨f, hf⟩ := hrefused hr
        cases he.symm.trans hf
        exact ⟨f, rfl⟩
      · cases he.symm.trans (haccepted hr)
    · exact bind_error (exec_changeHeap_error hw he)

/-- The last of three objects, which inherits from the first, cannot become its own prototype. -/
theorem prototypes_acyclic_inheriting : ∃ s ∈ ((inheriting 2).world 0 false).heaps[0]?, s.Acyclic ∧
    ReflTransGen s.Inherits ⟨5, 1⟩ ⟨3, 1⟩ ∧ s.Refuses ⟨5, 1⟩ (.object ⟨5, 1⟩) := by
  obtain ⟨s, hs, hvalue, hback, hlive, hfirst, hfound, herror⟩ : ∃ s ∈ ((inheriting 2).world 0 false).heaps[0]?,
      s.value? (-1) = some (.object ⟨5, 1⟩) ∧ s.stack.back? = some (.object ⟨5, 1⟩) ∧
      (s.object? ⟨5, 1⟩).isSome = true ∧ (s.object? ⟨3, 1⟩).isSome = true ∧
      s.onChain ⟨3, 1⟩ s.table.slots.size ⟨5, 1⟩ = true ∧ (s.setPrototype (-1)).toOption.isNone = true := by
    decide +kernel
  obtain ⟨hacyclic, hwalk, hset⟩ := prototypes_acyclic (inheriting 2) 0 false _ 0 s (World.met_state _) (World.heap_state hs)
  obtain ⟨o, ho⟩ := Option.isSome_iff_exists.mp hlive
  refine ⟨s, hs, hacyclic, (hwalk _ _ _ hfirst (Nat.le_refl _)).mp hfound, ?_⟩
  refine (hset _ _ o _ hvalue ho hback).1.mp ?_
  cases h : s.setPrototype (-1) with
  | error e => exact ⟨e, rfl⟩
  | ok s' => simp [h, Except.toOption] at herror

/-- **Looking up is bounded.** In every state that a run meets, take an object on the stack of a heap and the
chain of it and its prototypes, each followed by its own, to the end. What reading a property gives, whether there
is one, and what is called as a method is the property of the first object on the chain that has it itself, if it
is among the first 64. If none of these has it, it is missing. -/
theorem lookups_are_bounded (script : Script) (n : Nat) (recording : Bool) (x : State) (h : HeapId) (s : Heap)
    (hx : (script.world n recording).Met x) (hs : x.heaps[h]? = some s) (i : Int) (k : String) (p : HeapPtr)
    (hp : s.value? i = some (.object p)) :
    let whole := s.chain s.table.slots.size p
    let found := (whole.take 64).findSome? (s.own k)
    whole.IsChain s.Inherits ∧ whole.head? = (s.object? p).map (fun _ => p) ∧
    (∀ q, q ∈ whole ↔ ReflTransGen s.Inherits p q ∧ (s.object? q).isSome = true) ∧
    s.getProp i k = .ok (found.isSome, s.push (found.getD .undefined)) ∧ s.hasProp i k = found.isSome ∧
    ∀ host w (nargs : Nat), w.heaps[h]? = some s → s.bottom + nargs ≤ s.stack.size →
      (callProp host h i k nargs).exec w = (callMethod host h nargs).exec (w.setHeap h
        (s.beneath (s.stack.size - nargs) (found.getD .undefined) (.object p))) := by
  have hacyclic : s.Acyclic := holds_when_met (fun _ _ _ _ => acyclic_empty rfl) acyclic_of_shift hx hs
  intro whole found
  have hfound : s.lookup p k = found := by
    rw [lookup, lookupFrom_eq]
    show _ = ((s.chain _ p).take maxPrototypes).findSome? _
    rcases Nat.le_total maxPrototypes s.table.slots.size with hle | hle
    · rw [take_chain hle]
    · rw [← hacyclic.chain_eq hle, take_chain (Nat.le_refl _)]
  refine ⟨isChain_chain, ?_, fun q => hacyclic.mem_chain_iff (Nat.le_refl _), ?_, ?_, ?_⟩
  · show (s.chain _ p).head? = _
    cases hsize : s.table.slots.size with
    | succ m => exact head?_chain m
    | zero =>
      cases ho : s.object? p with
      | none => rfl
      | some o =>
        have hle : 1 ≤ s.table.slots.size := length_le_slots (List.nodup_singleton p) (by simp [ho])
        rw [hsize] at hle
        cases hle
  · rw [getProp, requireObject, hp]
    simp only [bind, Except.bind, hfound]
    cases found <;> rfl
  · rw [hasProp, hp]
    simp only [hfound]
  · intro host w nargs hw hnargs
    rw [exec_callProp_object host hw nargs hnargs k hp, hfound]

/-- The property of the first of three objects is found on the third. -/
theorem lookups_are_bounded_inheriting : ∃ s ∈ ((inheriting 2).world 0 false).heaps[0]?,
    s.getProp (-1) "k" = .ok (true, s.push .null) := by
  obtain ⟨s, hs, hvalue, hfound⟩ : ∃ s ∈ ((inheriting 2).world 0 false).heaps[0]?,
      s.value? (-1) = some (.object ⟨5, 1⟩) ∧
      ((s.chain s.table.slots.size ⟨5, 1⟩).take 64).findSome? (s.own "k") = some .null := by decide +kernel
  obtain ⟨-, -, -, hget, -⟩ := lookups_are_bounded (inheriting 2) 0 false _ 0 s (World.met_state _)
    (World.heap_state hs) (-1) "k" _ hvalue
  rw [hfound] at hget
  exact ⟨s, hs, hget⟩

/-- Of 65 objects, each the prototype of the next, the last does not have the property of the first. -/
theorem lookup_misses_inherited : ∃ s ∈ ((inheriting 64).world 0 false).heaps[0]?,
    s.value? (-1) = some (.object ⟨67, 1⟩) ∧ ⟨3, 1⟩ ∈ s.chain s.table.slots.size ⟨67, 1⟩ ∧
    s.own "k" ⟨3, 1⟩ = some .null ∧ s.hasProp (-1) "k" = false ∧
    (s.getProp (-1) "k").toOption.map (·.1) = some false := by decide +kernel

end Tether
