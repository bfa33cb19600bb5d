import Mathlib.Data.List.Induction
import Tether.Proofs.Abiding

/-!
# The order of own keys

An object has a map of its properties and a list of its keys, and each write and each deletion updates the
one and then the other. Over any history the list has exactly the keys of the map, each once, in the order
in which they came in: writing to a key that is there keeps its place, and a key that was deleted and
written again comes last.
-/

namespace Tether

/-! ## Histories of a property table -/

namespace Properties

variable {α : Type} {changes : List (String × Option α)} {c : String × Option α} {k : String} {i : Nat}

/-- The table that a new object has after some changes. -/
def after (changes : List (String × Option α)) : Properties α := changes.foldl change {}

section

variable (changes k)

/-- The change at a place puts a key that is not deleted later. -/
def Lasting (i : Nat) : Prop :=
  (∃ v, changes[i]? = some (k, some v)) ∧ ∀ j, i < j → changes[j]? ≠ some (k, none)

/-- A key comes in at a place: that is the first time it is put after it was deleted last. -/
def Inserted (i : Nat) : Prop :=
  Lasting changes k i ∧ ∀ j, Lasting changes k j → i ≤ j

/-- A value is put under a key, and no later change is to that key. -/
def LastPut (v : α) : Prop :=
  ∃ i, changes[i]? = some (k, some v) ∧ ∀ (j : Nat) x, i < j → changes[j]? ≠ some (k, x)

end

theorem after_snoc (changes : List (String × Option α)) (c : String × Option α) :
    after (changes ++ [c]) = (after changes).change c := by
  simp [after]

theorem getElem?_snoc (changes : List (String × Option α)) (c : String × Option α) (i : Nat) :
    (changes ++ [c])[i]? =
      if i < changes.length then changes[i]? else if i = changes.length then some c else none := by
  grind

theorem Lasting.lt (h : Lasting changes k i) : i < changes.length := by
  obtain ⟨⟨v, hv⟩, -⟩ := h
  exact (List.getElem?_eq_some_iff.mp hv).1

theorem lasting_snoc : Lasting (changes ++ [c]) k i ↔
    (Lasting changes k i ∧ c ≠ (k, none)) ∨ (i = changes.length ∧ ∃ v, c = (k, some v)) := by
  simp only [Lasting, getElem?_snoc]
  grind

theorem inserted_of_snoc (h : Inserted (changes ++ [c]) k i) (hk : ∃ j, Lasting changes k j) :
    Inserted changes k i := by
  obtain ⟨j, hj⟩ := hk
  -- The change at the end comes after the place where the key came in.
  have hkept : c ≠ (k, none) := by
    rcases lasting_snoc.mp h.1 with h | ⟨-, v, rfl⟩
    · exact h.2
    · simp
  have hle := h.2 j (lasting_snoc.mpr (.inl ⟨hj, hkept⟩))
  refine ⟨(lasting_snoc.mp h.1).elim And.left fun he => ?_, fun m hm => ?_⟩
  · exact absurd hj.lt (by omega)
  · exact h.2 m (lasting_snoc.mpr (.inl ⟨hm, hkept⟩))

theorem inserted_of_lasting (h : Lasting changes k i) : ∃ j, Inserted changes k j := by
  induction i using Nat.strongRecOn with
  | ind i ih =>
    by_cases hfirst : ∀ j, Lasting changes k j → i ≤ j
    · exact ⟨i, h, hfirst⟩
    · obtain ⟨j, hj, hlt⟩ : ∃ j, Lasting changes k j ∧ j < i := by
        simpa only [not_forall, Nat.not_le, exists_prop] using hfirst
      exact ih j hlt hj

/-! ### The map and the list of keys -/

/-- The list of keys and the map agree: no key is listed twice, and the keys that are listed are those that
the map has. -/
structure Coherent (t : Properties α) : Prop where
  nodup : t.keys.Nodup
  mem_keys (k : String) : k ∈ t.keys ↔ t.map.has k = true

theorem coherent_empty : Coherent ({} : Properties α) := ⟨List.nodup_nil, fun _ => by simp [KeyMap.has, KeyMap.get?]⟩

section

variable {t : Properties α} (ht : t.Coherent) (k : String)
include ht

theorem Coherent.keys_put (v : α) : (t.put k v).keys = if k ∈ t.keys then t.keys else t.keys ++ [k] :=
  if_congr (ht.mem_keys k).symm rfl rfl

/-- Taking out the first place of a key takes out every place of it. -/
theorem Coherent.keys_erase : (t.erase k).keys = t.keys.filter (· != k) := by
  unfold erase
  split
  case isTrue => exact ht.nodup.erase_eq_filter k
  case isFalse hk =>
    refine (List.filter_eq_self.mpr fun j hj => ?_).symm
    rw [bne_iff_ne]
    rintro rfl
    exact hk ((ht.mem_keys j).mp hj)

theorem Coherent.put (v : α) : (t.put k v).Coherent := by
  refine ⟨?_, fun j => ?_⟩
  · rw [ht.keys_put]
    split
    case isTrue => exact ht.nodup
    case isFalse hk => exact List.nodup_append.mpr ⟨ht.nodup, List.nodup_cons.mpr ⟨List.not_mem_nil, List.nodup_nil⟩, by grind⟩
  · have hj := ht.mem_keys j
    have hget := t.map.get?_put k j v
    unfold KeyMap.has at hj ⊢
    rw [ht.keys_put, show (t.put k v).map.get? j = _ from hget]
    grind

theorem Coherent.erase : (t.erase k).Coherent := by
  refine ⟨?_, fun j => ?_⟩
  · rw [ht.keys_erase]
    exact ht.nodup.filter _
  · have hj := ht.mem_keys j
    unfold KeyMap.has at hj ⊢
    rw [ht.keys_erase, map_erase, KeyMap.get?_erase]
    grind

end

theorem coherent_after (changes : List (String × Option α)) : (after changes).Coherent := by
  induction changes using List.reverseRecOn with
  | nil => exact coherent_empty
  | append_singleton changes c ih =>
    rw [after_snoc]
    obtain ⟨k, _ | v⟩ := c
    · exact ih.erase k
    · exact ih.put k v

/-! ### Keys and values after a history -/

section

variable (changes)

theorem mem_keys_after (k : String) : k ∈ (after changes).keys ↔ ∃ i, Lasting changes k i := by
  induction changes using List.reverseRecOn with
  | nil => simp [after, Lasting]
  | append_singleton changes c ih =>
    rw [after_snoc]
    obtain ⟨k', _ | v⟩ := c
    · simp only [change, (coherent_after changes).keys_erase, List.mem_filter, ih, lasting_snoc]
      grind
    · simp only [change, (coherent_after changes).keys_put, lasting_snoc]
      grind

theorem pairwise_keys_after : (after changes).keys.Pairwise fun a b =>
    ∀ i j, Inserted changes a i → Inserted changes b j → i < j := by
  induction changes using List.reverseRecOn with
  | nil => exact List.Pairwise.nil
  | append_singleton changes c ih =>
    have hold : (after changes).keys.Pairwise fun a b =>
        ∀ i j, Inserted (changes ++ [c]) a i → Inserted (changes ++ [c]) b j → i < j :=
      ih.imp_of_mem fun {a b} ha hb h i j hi hj =>
        h i j (inserted_of_snoc hi ((mem_keys_after _ a).mp ha))
          (inserted_of_snoc hj ((mem_keys_after _ b).mp hb))
    rw [after_snoc]
    obtain ⟨k, _ | v⟩ := c
    · rw [change, (coherent_after changes).keys_erase]
      exact hold.filter _
    · rw [change, (coherent_after changes).keys_put]
      split
      case isTrue => exact hold
      case isFalse hk =>
        refine List.pairwise_append.mpr ⟨hold, List.pairwise_singleton .., fun a ha b hb i j hi hj => ?_⟩
        cases List.mem_singleton.mp hb
        have hlt := (inserted_of_snoc hi ((mem_keys_after _ a).mp ha)).1.lt
        rcases lasting_snoc.mp hj.1 with h | h
        · exact absurd ((mem_keys_after _ _).mpr ⟨j, h.1⟩) hk
        · omega

end

theorem lastPut_snoc {v : α} :
    LastPut (changes ++ [c]) k v ↔ if c.1 = k then c.2 = some v else LastPut changes k v := by
  obtain ⟨k', x⟩ := c
  simp only [LastPut, getElem?_snoc]
  split
  case isTrue hk =>
    constructor
    · rintro ⟨i, hi, hlast⟩
      grind
    · rintro rfl
      exact ⟨changes.length, by simp [hk], fun j y hj => by grind⟩
  case isFalse hk =>
    constructor
    · rintro ⟨i, hi, hlast⟩
      exact ⟨i, by grind, fun j y hj => by have := hlast j y hj; grind⟩
    · rintro ⟨i, hi, hlast⟩
      exact ⟨i, by grind, fun j y hj => by have := hlast j y hj; grind⟩

theorem get?_after (changes : List (String × Option α)) (k : String) (v : α) :
    (after changes).get? k = some v ↔ LastPut changes k v := by
  induction changes using List.reverseRecOn with
  | nil => simp [after, get?, KeyMap.get?, LastPut]
  | append_singleton changes c ih =>
    rw [after_snoc, lastPut_snoc]
    obtain ⟨k', _ | v'⟩ := c
    · rw [change, get?_erase]
      grind
    · rw [change, get?_put]
      grind

end Properties

/-! ## Objects on a heap -/

namespace Heap

variable {s s' : Heap} {p : HeapPtr} {o : Object} {i : Int} {k : String} {v : Value}

theorem one_le_top (hv : s.value? i = some v) : 1 ≤ s.top := by
  obtain ⟨a, ha, -⟩ := Option.bind_eq_some_iff.mp hv
  have := bottom_le_of_position? ha
  unfold top
  omega

theorem putProp_push (hi : (s.push v).value? i = some (.object p)) (ho : s.object? p = some o) (k : String) :
    (s.push v).putProp i k = .ok (s.modifyObject p fun o => { o with props := o.props.put k v }) := by
  have htop := one_le_top hi
  have hobject : (s.push v).requireObject i = .ok p := by
    unfold requireObject
    rw [hi]
  have hderef : (s.push v).deref p = .ok o := by
    unfold deref
    rw [show (s.push v).object? p = some o from ho]
  have hoperand : (s.push v).operand "put property" = .ok v := by
    unfold operand
    rw [if_neg (by omega)]
    simp [push]
  unfold putProp
  simp only [hobject, hoperand, hderef, bind, Except.bind]
  have hpop : ¬ ((1 : Int) < 0 ∨ (s.push v).top < 1) := by omega
  refine (if_neg hpop).trans ?_
  simp [truncate, modifyObject, push]

theorem delProp_eq (hi : s.value? i = some (.object p)) (ho : s.object? p = some o) (k : String) : s.delProp i k =
      .ok (o.props.has k, s.modifyObject p fun o => { o with props := o.props.erase k }) := by
  have hderef : s.deref p = .ok o := by
    unfold deref
    rw [ho]
  unfold delProp
  simp only [hi, hderef, bind, Except.bind, pure, Except.pure]
  cases hk : o.props.has k with
  | true => rfl
  | false =>
    have hsame : s.table.modify p (fun o => { o with props := o.props.erase k }) = s.table :=
      Table.modify_of_get? ho (by simp [Properties.erase, hk])
    simp [modifyObject, hsame]

/-- Each object of a heap has the properties that some changes gave it. -/
def Written (s : Heap) : Prop := ∀ p o, s.object? p = some o → Properties.Becomes {} o.props

theorem Written.edit (hs : s.Written) {p : HeapPtr} {f : Object → Object} {stack : Array Value}
    {storage : Storage} (hf : ∀ o, s.object? p = some o → o.props.Becomes (f o).props) :
    ({ s with table := s.table.modify p f, stack, storage } : Heap).Written := by
  intro q o ho
  replace ho := (Table.get?_modify ..).symm.trans ho
  split at ho
  case isFalse => exact hs q o ho
  case isTrue hq =>
    obtain ⟨o', ho', rfl⟩ := Option.map_eq_some_iff.mp ho
    obtain ⟨before, hbefore⟩ := hs q o' ho'
    obtain ⟨changes, hchanges⟩ := hf o' (hq ▸ ho')
    exact ⟨before ++ changes, by rw [hchanges, hbefore, List.foldl_append]⟩

theorem Written.amend {w : World} (hs : s.Written) (ha : s.Amends w s') : s'.Written := by
  cases ha with
  | restack | restore => exact hs
  | edit _ _ hakin _ => exact hs.edit fun o ho => (hakin o ho).props

theorem written_of_shift (hshift : s.Shifts s') (hs : s.Written) : s'.Written := by
  cases hshift with
  | turn ht =>
    cases ht with
    | amend ha => exact hs.amend ha
    | start p => exact hs.edit fun _ _ => .refl _
    | root | clear => exact hs
    | shut _ _ _ _ _ _ htable =>
      intro p o ho
      rw [object?, htable] at ho
      exact absurd (Table.get?_eq_some.mp ho).2 (by simp)
  | amend ha => exact hs.amend ha
  | rest htable =>
    unfold Written object?
    rw [htable]
    exact hs
  | alloc hblank =>
    intro p x hx
    rcases Table.get?_insert_cases hx with rfl | hx
    · exact hblank.props
    · exact hs p x hx
  | sweep hswept =>
    intro p o ho
    replace ho := (hswept.objects p).symm.trans ho
    split at ho
    · simp at ho
    · exact hs p o ho

end Heap

/-- A write or a deletion of a property of the object at an index; a value that is written was pushed before. -/
inductive PropEdit where
  | put (i : Int) (k : String) (v : Value)
  | del (i : Int) (k : String)

namespace PropEdit

variable {s : Heap} {p : HeapPtr} {o : Object}

def run (s : Heap) : PropEdit → Except Stop Heap
  | put i k v => (s.push v).putProp i k
  | del i k => (s.delProp i k).map (·.2)

def On (s : Heap) (p : HeapPtr) : PropEdit → Prop
  | put i _ v => (s.push v).value? i = some (.object p)
  | del i _ => s.value? i = some (.object p)

instance (s : Heap) (p : HeapPtr) (e : PropEdit) : Decidable (e.On s p) := by
  cases e <;> unfold On <;> infer_instance

def change : PropEdit → String × Option Value
  | put _ k v => (k, some v)
  | del _ k => (k, none)

theorem run_eq {e : PropEdit} (he : e.On s p) (ho : s.object? p = some o) :
    e.run s = .ok (s.modifyObject p fun o => { o with props := o.props.change e.change }) := by
  cases e with
  | put i k v => exact Heap.putProp_push he ho k
  | del i k => exact congrArg (Except.map (·.2)) (Heap.delProp_eq he ho k)

theorem run_all (edits : List PropEdit) (hon : ∀ e ∈ edits, e.On s p) (ho : s.object? p = some o) :
    ∃ table, edits.foldlM run s = .ok { s with table } ∧
      table.get? p = some { o with props := (edits.map change).foldl Properties.change o.props } ∧
      ∀ q, q ≠ p → table.get? q = s.table.get? q := by
  induction edits generalizing s o with
  | nil => exact ⟨s.table, rfl, ho, fun _ _ => rfl⟩
  | cons e rest ih =>
    have hstep := run_eq (hon e List.mem_cons_self) ho
    -- The stack is as before, so the indices name the object as before.
    obtain ⟨table, hrun, hp, hq⟩ := ih (o := { o with props := o.props.change e.change })
      (s := s.modifyObject p fun o => { o with props := o.props.change e.change }) (fun e' he' => by
        have := hon e' (List.mem_cons_of_mem _ he')
        cases e' <;> exact this)
      ((Table.get?_modify ..).trans ((if_pos rfl).trans (congrArg (Option.map _) ho)))
    refine ⟨table, ?_, hp, fun q hne => (hq q hne).trans ((Table.get?_modify ..).trans (if_neg hne))⟩
    rw [List.foldlM_cons, hstep]
    exact hrun

end PropEdit

/-- **Own keys stand in the order of their insertion.** Take any object of a heap at any moment of a run.
Its properties come from some writes and deletions. Take any such history of it and any further writes and
deletions, through whatever indices name the object. All are done. Afterwards the list of keys has no key
twice, and has those that the map has a value for; it is what asking for the keys gives. Over the whole
history, a key is there if it came in and was not deleted since, keys stand in the order in which they came
in, and each has the value that was put last. Nothing else of the object changes, and no other object. -/
theorem own_keys_in_order {script : Script} {n : Nat} {recording : Bool} {x : State}
    (hx : (script.world n recording).Met x) {h : HeapId} {s : Heap} (hs : x.heaps[h]? = some s)
    {p : HeapPtr} {o : Object} (ho : s.object? p = some o) :
    (∃ before, o.props = Properties.after before) ∧
    ∀ before (edits : List PropEdit), o.props = Properties.after before → (∀ e ∈ edits, e.On s p) →
    ∃ s' props history, history = before ++ edits.map PropEdit.change ∧
      edits.foldlM PropEdit.run s = .ok s' ∧ s'.object? p = some { o with props } ∧
      props.keys.Nodup ∧ (∀ k, k ∈ props.keys ↔ props.map.has k = true) ∧
      (∀ i, s'.value? i = some (.object p) → s'.keys i = .ok props.keys) ∧
      (∀ k, k ∈ props.keys ↔ ∃ i, Properties.Inserted history k i) ∧
      (props.keys.Pairwise fun a b =>
        ∀ i j, Properties.Inserted history a i → Properties.Inserted history b j → i < j) ∧
      (∀ k v, props.map.get? k = some v ↔ Properties.LastPut history k v) ∧
      ∀ q, q ≠ p → s'.object? q = s.object? q := by
  have hwritten : s.Written := holds_when_met (P := Heap.Written)
    (fun _ _ _ _ p o ho => absurd (Table.get?_eq_some.mp ho).2 nofun) Heap.written_of_shift hx hs
  refine ⟨hwritten p o ho, fun before edits hbefore hon => ?_⟩
  obtain ⟨table, hrun, hp, hq⟩ := PropEdit.run_all edits hon ho
  have hafter : (edits.map PropEdit.change).foldl Properties.change o.props =
      Properties.after (before ++ edits.map PropEdit.change) := by
    rw [hbefore, Properties.after, Properties.after, List.foldl_append]
  rw [hafter] at hp
  have hcoherent := Properties.coherent_after (before ++ edits.map PropEdit.change)
  refine ⟨{ s with table }, _, _, rfl, hrun, hp, hcoherent.nodup, hcoherent.mem_keys, fun i hi => ?_,
    fun k => ?_, Properties.pairwise_keys_after _, Properties.get?_after _, hq⟩
  · unfold Heap.keys Heap.deref Heap.object?
    simp only [hi, hp]
    rfl
  · rw [Properties.mem_keys_after]
    exact ⟨fun ⟨i, hi⟩ => Properties.inserted_of_lasting hi, fun ⟨i, hi⟩ => ⟨i, hi.1⟩⟩

/-- An object gets two keys. -/
def twoKeys : Script :=
  .ofSteps [.stack .pushObject, .stack .pushNull, .property (.put (-2) "a"), .stack .pushNull,
      .property (.put (-2) "b")]

/-- One key is overwritten; the other is deleted and put again. -/
def rewritesKeys : List PropEdit := [.put 0 "b" .undefined, .del (-1) "a", .put (-2) "a" .undefined]

theorem own_keys_in_order_twoKeys : ∃ s s', (twoKeys.world 0 false).heaps[0]? = some s ∧
    s.keys 0 = .ok ["a", "b"] ∧ rewritesKeys.foldlM PropEdit.run s = .ok s' ∧ s'.keys 0 = .ok ["b", "a"] := by
  obtain ⟨s, hs, o, ho, hkeys, hname, hon, hend⟩ : ∃ s, (twoKeys.world 0 false).heaps[0]? = some s ∧
      ∃ o, s.object? ⟨3, 1⟩ = some o ∧ o.props.keys = ["a", "b"] ∧ s.value? 0 = some (.object ⟨3, 1⟩) ∧
        (∀ e ∈ rewritesKeys, e.On s ⟨3, 1⟩) ∧
        (rewritesKeys.foldlM PropEdit.run s).toOption.map (fun s' =>
          (s'.value? 0, (s'.object? ⟨3, 1⟩).map (·.props.keys))) =
          some (some (.object ⟨3, 1⟩), some ["b", "a"]) := by decide +kernel
  obtain ⟨⟨before, hbefore⟩, hedits⟩ :=
    own_keys_in_order (World.met_state (twoKeys.world 0 false)) (World.heap_state hs) ho
  obtain ⟨s0, props0, _, -, hrun0, hp0, -, -, hkeys0, -⟩ := hedits before [] hbefore nofun
  obtain ⟨s', props, _, -, hrun, hp, -, -, hkeys', -⟩ := hedits before rewritesKeys hbefore hon
  obtain rfl : s = s0 := Except.ok.inj hrun0
  rw [hrun] at hend
  obtain ⟨hvalue, hprops⟩ := Prod.mk.inj (Option.some.inj hend)
  rw [hp] at hprops
  refine ⟨s, s', hs, (hkeys0 0 hname).trans ?_, hrun, ?_⟩
  · have hprops0 : props0 = o.props := congrArg Object.props (Option.some.inj (hp0.symm.trans ho))
    rw [hprops0, hkeys]
  · exact (hkeys' 0 hvalue).trans (congrArg Except.ok (Option.some.inj hprops))

end Tether
