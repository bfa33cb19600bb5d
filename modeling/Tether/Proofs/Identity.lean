import Tether.Proofs.Posting

/-!
# The identity of native objects

A live record links a native object to its wrapper. The invariant says so for all records at once,
and it says what the operations that write links rely on.
-/

namespace Tether

open Bridge (bridgeKey objectKey finalizerKey)

variable {w : World} {s s' : Heap} {e : Excuse} {h : HeapId} {c : ClassId} {d : ClassDecl} {o o' : Object}

namespace Heap

variable (s)

/-- The function that a pointer names finalizes the wrappers of a bridge. -/
def Finalizes (q : HeapPtr) (b : BridgeId) : Prop :=
  ∃ f name, s.object? q = some f ∧ f.body = .function name 1 (some (.finalizer b))

def Equips (b : BridgeId) : Prop :=
  ∃ st q, s.object? s.stash = some st ∧ st.hidden.get? finalizerKey = some (.object q) ∧ s.Finalizes q b

/-- The object that a pointer names carries a record under the key of all wrappers and under the key
of a class, and has the finalizer of a bridge. -/
def Wraps (p : HeapPtr) (r : RecordId) (key : String) (b : BridgeId) : Prop :=
  ∃ o q, s.object? p = some o ∧ o.hidden.get? objectKey = some (.pointer (.record (some r))) ∧
    o.hidden.get? key = some (.pointer (.record (some r))) ∧ o.finalizer = some q ∧ s.Finalizes q b

/-- The finalizer of the object that a pointer names was not started. -/
def Unstarted (p : HeapPtr) : Prop := ∀ o, s.object? p = some o → o.finalized = false

variable {s}

/-- A heap as bridges leave it: the stash is no wrapper, it holds the finalizer of wrappers only with
its bridge, and all finalizers may run inside a collection. -/
structure Tidy (s : Heap) : Prop where
  stash : ∀ st, s.object? s.stash = some st → st.hidden.get? objectKey = none
  keyed : ∀ st, s.object? s.stash = some st → st.hidden.get? bridgeKey = none → st.hidden.get? finalizerKey = none
  tame : ∀ p o q f, s.object? p = some o → o.finalizer = some q → s.object? q = some f → f.tame = true

end Heap

/-! ## Keys -/

theorem take_classKey (name : String) (n : Nat) : (classKey name n).toList.take 12 = "heapbridge.c".toList := by
  unfold classKey
  simp only [toString, String.toList_append]
  rfl

theorem classKey_ne (name : String) (n : Nat) :
    classKey name n ≠ bridgeKey ∧ classKey name n ≠ objectKey ∧ classKey name n ≠ finalizerKey := by
  have hne : ∀ k : String, k.toList.take 12 ≠ "heapbridge.c".toList → classKey name n ≠ k := by
    rintro k hk rfl
    exact hk (take_classKey name n)
  exact ⟨hne _ (by decide), hne _ (by decide), hne _ (by decide)⟩

/-! ## The invariant -/

namespace World

variable (w)

/-- A bridge that can make wrappers: its heap holds its finalizer. -/
def Serviceable (b : BridgeId) : Prop :=
  ∃ br s, w.bridges[b]? = some br ∧ w.heaps[br.heapId]? = some s ∧ s.Equips b

/-- The wrapper that may be finalized although its record is live. -/
abbrev Excuse := Option (HeapId × HeapPtr)

def Linked (e : Excuse) (r : RecordId) (x : Record) : Prop :=
  ∃ br d s, w.bridges[x.bridge]? = some br ∧
    w.classes[x.cls]? = some d ∧ w.heaps[br.heapId]? = some s ∧ s.Wraps x.ptr r d.key x.bridge ∧
    (s.Unstarted x.ptr ∨ e = some (br.heapId, x.ptr))

/-- An object carries a record under the key of all wrappers: the record is there, and if it is live, the
object is its wrapper. -/
def Carried (h : HeapId) (p : HeapPtr) (r : RecordId) : Prop :=
  r < w.records.size ∧ ∀ x i, w.Live r x i → x.ptr = p ∧ ∃ br : Bridge, w.bridges[x.bridge]? = some br ∧ br.heapId = h

/-- Live records and wrappers name each other. -/
structure Identity (w : World) (e : Excuse) : Prop where
  ledger : w.Ledger
  linked : ∀ r x i, w.Live r x i → w.Linked e r x
  tidy : ∀ (h : HeapId) s, w.heaps[h]? = some s → s.Tidy
  keys : ∀ (c : ClassId) d, w.classes[c]? = some d → ∃ name, d.key = classKey name (c + 1)
  attached : ∀ h b, (h, b) ∈ w.attached → w.Serviceable b
  bound : ∀ (h : HeapId) s p o name arity b (c : Callable), w.heaps[h]? = some s → s.object? p = some o →
    o.body = .function name arity (some (.bound b c)) → w.Serviceable b
  carried : ∀ (h : HeapId) s p o r, w.heaps[h]? = some s → s.object? p = some o →
    o.hidden.get? objectKey = some (.pointer (.record (some r))) → w.Carried h p r

/-- What later worlds keep for the operations of bridges: bridges stay on their heaps, and heaps keep
the finalizers of their bridges. -/
structure Carries (w w' : World) : Prop where
  bridges : Retains Bridge.heapId w.bridges w'.bridges
  heaps : ∀ (h : HeapId) s, w.heaps[h]? = some s → ∃ s', w'.heaps[h]? = some s' ∧ ∀ b, s.Equips b → s'.Equips b

theorem Carries.refl : w.Carries w := ⟨.refl _ _, fun _ s hs => ⟨s, hs, fun _ h => h⟩⟩

variable {w}

theorem Carries.trans {w1 w2 w3 : World} (h : w1.Carries w2) (h' : w2.Carries w3) : w1.Carries w3 := by
  refine ⟨fun b br hb => ?_, fun k s hs => ?_⟩
  · obtain ⟨br2, hb2, he2⟩ := h.bridges b br hb
    obtain ⟨br3, hb3, he3⟩ := h'.bridges b br2 hb2
    exact ⟨br3, hb3, he3.trans he2⟩
  · obtain ⟨s2, hs2, he2⟩ := h.heaps k s hs
    obtain ⟨s3, hs3, he3⟩ := h'.heaps k s2 hs2
    exact ⟨s3, hs3, fun b hb => he3 b (he2 b hb)⟩

theorem Carries.serviceable {w' : World} (h : w.Carries w') {b : BridgeId} (hb : w.Serviceable b) :
    w'.Serviceable b := by
  obtain ⟨br, s, hbr, hs, he⟩ := hb
  obtain ⟨br', hbr', hid⟩ := h.bridges b br hbr
  obtain ⟨s', hs', hkeeps⟩ := h.heaps br.heapId s hs
  exact ⟨br', s', hbr', by rw [hid]; exact hs', hkeeps b he⟩

variable {w' : World} {e' : Excuse}

theorem Identity.key_ne (hi : w.Identity e) (hd : w.classes[c]? = some d) :
    d.key ≠ bridgeKey ∧ d.key ≠ objectKey ∧ d.key ≠ finalizerKey := by
  obtain ⟨name, hkey⟩ := hi.keys c d hd
  rw [hkey]
  exact classKey_ne name _

/-! ## Changes beside the heaps -/

section

variable (hi : w.Identity e) (hledger : w'.Ledger) (hheaps : w'.heaps = w.heaps)
include hi hledger hheaps

theorem Identity.recast (hbridges : Retains Bridge.heapId w.bridges w'.bridges)
    (hclasses : Retains ClassDecl.key w.classes w'.classes)
    (hkeys : ∀ (c : ClassId) d, w'.classes[c]? = some d → ∃ name, d.key = classKey name (c + 1))
    (hattached : ∀ h b, (h, b) ∈ w'.attached → (h, b) ∈ w.attached ∨ w.Serviceable b)
    (hlive : ∀ r x i, w'.Live r x i → w.Live r x i) (hsize : w.records.size ≤ w'.records.size) :
    w'.Identity e ∧ w.Carries w' := by
  have hcarries : w.Carries w' := ⟨hbridges, fun h s hs => ⟨s, by rw [hheaps]; exact hs, fun _ h => h⟩⟩
  refine ⟨⟨hledger, fun r x i hx => ?_, ?_, hkeys, fun h b hm => ?_, ?_, ?_⟩, hcarries⟩
  · obtain ⟨br, d, s, hbr, hd, hs, hwraps, hexcuse⟩ := hi.linked r x i (hlive r x i hx)
    obtain ⟨br', hbr', hid⟩ := hbridges x.bridge br hbr
    obtain ⟨d', hd', hkey⟩ := hclasses x.cls d hd
    refine ⟨br', d', s, hbr', hd', ?_, ?_, ?_⟩
    · rw [hheaps, hid]
      exact hs
    · rw [hkey]
      exact hwraps
    · rw [hid]
      exact hexcuse
  · rw [hheaps]
    exact hi.tidy
  · rcases hattached h b hm with hm | hb
    · exact hcarries.serviceable (hi.attached h b hm)
    · exact hcarries.serviceable hb
  · intro h s p o name arity b c hs ho hbody
    rw [hheaps] at hs
    exact hcarries.serviceable (hi.bound h s p o name arity b c hs ho hbody)
  · intro h s p o r hs ho hkey
    obtain ⟨hlt, hlinks⟩ := hi.carried h s p o r (hheaps ▸ hs) ho hkey
    refine ⟨Nat.lt_of_lt_of_le hlt hsize, fun x i hx => ?_⟩
    obtain ⟨hp, br, hbr, hid⟩ := hlinks x i (hlive r x i hx)
    obtain ⟨br', hbr', hid'⟩ := hbridges x.bridge br hbr
    exact ⟨hp, br', hbr', hid'.trans hid⟩

theorem Identity.rebook (hbridges : w'.bridges = w.bridges) (hclasses : w'.classes = w.classes)
    (hattached : w'.attached = w.attached) (hlive : ∀ r x i, w'.Live r x i → w.Live r x i)
    (hsize : w.records.size ≤ w'.records.size) : w'.Identity e ∧ w.Carries w' := by
  refine hi.recast hledger hheaps (hbridges ▸ .refl _ _) (hclasses ▸ .refl _ _) ?_
    (fun h b hm => .inl (hattached ▸ hm)) hlive hsize
  rw [hclasses]
  exact hi.keys

end

/-! ## Changes of one heap -/

/-- What a change of a heap has to keep: the finalizers of bridges and the wrappers of live
records. -/
structure Preserves (w : World) (e e' : Excuse) (h : HeapId) (s s' : Heap) : Prop where
  equips : ∀ b, s.Equips b → s'.Equips b
  wraps : ∀ r x i br d, w.Live r x i → w.bridges[x.bridge]? = some br →
    br.heapId = h → w.classes[x.cls]? = some d → s.Wraps x.ptr r d.key x.bridge →
    (s.Unstarted x.ptr ∨ e = some (h, x.ptr)) →
    s'.Wraps x.ptr r d.key x.bridge ∧ (s'.Unstarted x.ptr ∨ e' = some (h, x.ptr))
  tidy : s'.Tidy
  bound : ∀ p o name arity b c, s'.object? p = some o →
    o.body = .function name arity (some (.bound b c)) → w.Serviceable b
  carried : ∀ p o r, s'.object? p = some o →
    o.hidden.get? objectKey = some (.pointer (.record (some r))) → w.Carried h p r

section

variable (hi : w.Identity e) (hs : w.heaps[h]? = some s)
include hi hs

theorem Identity.setHeap (hr : w.Preserves e e' h s s')
    (hexcuse : ∀ k p, k ≠ h → e = some (k, p) → e' = some (k, p)) :
    (w.setHeap h s').Identity e' ∧ w.Carries (w.setHeap h s') := by
  have hcarries : w.Carries (w.setHeap h s') :=
    ⟨fun b br hb => ⟨br, hb, rfl⟩, fun _ _ hx => heaps_setHeap_rel
      (P := fun s s' => ∀ b, s.Equips b → s'.Equips b) (fun _ _ => id) hs hr.equips hx⟩
  refine ⟨⟨hi.ledger.congr rfl rfl rfl rfl rfl, fun r x i hx => ?_, fun k x hx => ?_, hi.keys,
    fun k b hm => hcarries.serviceable (hi.attached k b hm), ?_, ?_⟩, hcarries⟩
  · obtain ⟨br, d, t, hbr, hd, ht, hwraps, hunstarted⟩ := hi.linked r x i hx
    by_cases hk : br.heapId = h
    · rw [hk, hs] at ht
      cases ht
      obtain ⟨hwraps', hunstarted'⟩ := hr.wraps r x i br d hx hbr hk hd hwraps (hk ▸ hunstarted)
      refine ⟨br, d, s', hbr, hd, ?_, hwraps', by rw [hk]; exact hunstarted'⟩
      rw [hk]
      exact get_setHeap hs s'
    · refine ⟨br, d, t, hbr, hd, ?_, hwraps, hunstarted.imp_right (hexcuse _ _ hk)⟩
      rw [heaps_setHeap hs, if_neg hk]
      exact ht
  · rcases heaps_setHeap_cases hs hx with ⟨-, rfl⟩ | hx
    · exact hr.tidy
    · exact hi.tidy k x hx
  · intro k x p o name arity b c hx ho hbody
    rcases heaps_setHeap_cases hs hx with ⟨-, rfl⟩ | hx
    · exact hcarries.serviceable (hr.bound p o name arity b c ho hbody)
    · exact hcarries.serviceable (hi.bound k x p o name arity b c hx ho hbody)
  · intro k x p o r hx ho hkey
    rcases heaps_setHeap_cases hs hx with ⟨rfl, rfl⟩ | hx
    · exact hr.carried p o r ho hkey
    · exact hi.carried k x p o r hx ho hkey

theorem Identity.preserves_of_back (hback : ∀ q x, s'.object? q = some x → s.object? q = some x)
    (hstash : ∀ st, s'.object? s'.stash = some st → st.hidden = {} ∨ s.object? s.stash = some st)
    (hequips : ∀ b, s.Equips b → s'.Equips b)
    (hwraps : ∀ r x i br d, w.Live r x i → w.bridges[x.bridge]? = some br → br.heapId = h →
      w.classes[x.cls]? = some d → s.Wraps x.ptr r d.key x.bridge →
      (s.Unstarted x.ptr ∨ e = some (h, x.ptr)) →
      s'.Wraps x.ptr r d.key x.bridge ∧ (s'.Unstarted x.ptr ∨ e = some (h, x.ptr))) :
    w.Preserves e e h s s' := by
  have htidy := hi.tidy h s hs
  refine ⟨hequips, hwraps, ⟨fun st hst => ?_, fun st hst hnone => ?_, ?_⟩, ?_, ?_⟩
  · rcases hstash st hst with he | hst
    · rw [he]
      rfl
    · exact htidy.stash st hst
  · rcases hstash st hst with he | hst
    · rw [he]
      rfl
    · exact htidy.keyed st hst hnone
  · exact fun p o q f ho hq hf => htidy.tame p o q f (hback p o ho) hq (hback q f hf)
  · exact fun p o name arity b c ho hbody => hi.bound h s p o name arity b c hs (hback p o ho) hbody
  · exact fun p o r ho hkey => hi.carried h s p o r hs (hback p o ho) hkey

theorem Identity.retains_of_objects
    (hstash : s'.stash = s.stash ∨ s.stash = .null ∧ ∀ st, s'.object? s'.stash = some st → st.hidden = {})
    (hobjects : ∀ q, s'.object? q = s.object? q) : w.Preserves e e h s s' := by
  have hfinalizes : ∀ q b, s.Finalizes q b → s'.Finalizes q b := by
    rintro q b ⟨f, name, hf, hbody⟩
    exact ⟨f, name, (hobjects q).trans hf, hbody⟩
  refine hi.preserves_of_back hs (fun q x hx => (hobjects q).symm.trans hx) (fun st hst => ?_) ?_ ?_
  · rcases hstash with he | ⟨-, hblank⟩
    · exact .inr (by rw [← hobjects, ← he]; exact hst)
    · exact .inl (hblank st hst)
  · rintro b ⟨st, q, hst, hq, hf⟩
    rcases hstash with he | ⟨hnull, -⟩
    · exact ⟨st, q, by rw [he, hobjects]; exact hst, hq, hfinalizes q b hf⟩
    · rw [hnull] at hst
      cases hst.symm.trans (Table.get?_null _)
  · rintro r x i br d - - - - ⟨o, q, ho, hkey, hcls, hfin, hf⟩ hunstarted
    exact ⟨⟨o, q, (hobjects _).trans ho, hkey, hcls, hfin, hfinalizes q _ hf⟩,
      hunstarted.imp_left fun hu o' ho' => hu o' ((hobjects _).symm.trans ho')⟩

end

end World

/-! ## Ordinary changes of a heap -/

theorem World.reserves_key (hd : w.classes[c]? = some d) : w.reserves d.key = true := by
  refine Bool.or_eq_true_iff.mpr (.inr (Array.any_eq_true'.mpr ⟨d, ?_, beq_self_eq_true _⟩))
  exact Array.mem_of_getElem? hd

variable (w)

theorem World.reserves_objectKey : w.reserves objectKey = true := by
  simp [reserves]

theorem World.reserves_bridgeKey : w.reserves bridgeKey = true := by
  simp [reserves]

theorem World.reserves_finalizerKey : w.reserves finalizerKey = true := by
  simp [reserves]

variable {w}

theorem World.Akin.tame (h : w.Akin s o o') : o'.tame = o.tame := by
  have hiff := h.function
  unfold Object.tame
  split
  · rename_i name arity code hbody
    rw [(hiff name arity (some code)).mp hbody]
  · rename_i hne
    split
    · rename_i name arity code hbody
      exact absurd ((hiff name arity (some code)).mpr hbody) (hne name arity code)
    · rfl

/-- A change in which all objects stay, each as steps may leave it, and new ones are blank. -/
structure Heap.Follows (w : World) (s s' : Heap) : Prop where
  stash : s'.stash = s.stash
  forth : ∀ q o, s.object? q = some o → ∃ o', s'.object? q = some o' ∧ w.Akin s o o'
  fresh : ∀ q o', s'.object? q = some o' → s.object? q = none → o'.hidden = {} ∧ o'.finalizer = none
  finalizers : ∀ p o q f, s'.object? p = some o → o.finalizer = some q → s'.object? q = some f →
    (s.object? q).isSome = true

theorem Heap.Follows.back (hf : s.Follows w s') {q : HeapPtr} (ho' : s'.object? q = some o') :
    (∃ o, s.object? q = some o ∧ w.Akin s o o') ∨ s.object? q = none ∧ o'.hidden = {} ∧ o'.finalizer = none := by
  cases ho : s.object? q with
  | none => exact .inr ⟨rfl, hf.fresh q o' ho' ho⟩
  | some o =>
    obtain ⟨o'', ho'', hakin⟩ := hf.forth q o ho
    cases ho'.symm.trans ho''
    exact .inl ⟨o, rfl, hakin⟩

namespace World

theorem Identity.retains_of_follows (hi : w.Identity e) (horderly : w.orderly = true)
    (hs : w.heaps[h]? = some s) (hf : s.Follows w s')
    (hbound : ∀ p o name arity b c, s'.object? p = some o → s.object? p = none →
      o.body = .function name arity (some (.bound b c)) → w.Serviceable b) :
    w.Preserves e e h s s' := by
  have htidy := hi.tidy h s hs
  have hfinalizes : ∀ q b, s.Finalizes q b → s'.Finalizes q b := by
    rintro q b ⟨f, name, hq, hbody⟩
    obtain ⟨f', hq', hakin⟩ := hf.forth q f hq
    exact ⟨f', name, hq', (hakin.function _ _ _).mpr hbody⟩
  refine ⟨?_, ?_, ⟨?_, ?_, ?_⟩, ?_, ?_⟩
  · rintro b ⟨st, q, hst, hq, hfin⟩
    obtain ⟨st', hst', hakin⟩ := hf.forth _ st hst
    refine ⟨st', q, by rw [hf.stash]; exact hst', ?_, hfinalizes q b hfin⟩
    rw [hakin.hidden (.inl horderly) _ w.reserves_finalizerKey]
    exact hq
  · rintro r x i br d - - - hd ⟨o, q, ho, hkey, hcls, hfin, hfq⟩ hunstarted
    obtain ⟨o', ho', hakin⟩ := hf.forth _ o ho
    have hwrapper : o.isWrapper = true := by
      unfold Object.isWrapper KeyMap.has
      rw [hkey]
      rfl
    have hfin' : o'.finalizer = some q := by
      rcases hakin.finalizer horderly with he | ⟨hne, -⟩
      · exact he.trans hfin
      · simp [hne] at hwrapper
    refine ⟨⟨o', q, ho', ?_, ?_, hfin', hfinalizes q _ hfq⟩, hunstarted.imp_left fun hu o'' ho'' => ?_⟩
    · rw [hakin.hidden (.inl horderly) _ w.reserves_objectKey]
      exact hkey
    · rw [hakin.hidden (.inl horderly) _ (reserves_key hd)]
      exact hcls
    · cases ho'.symm.trans ho''
      rw [hakin.finalized]
      exact hu o ho
  · intro st' hst'
    rw [hf.stash] at hst'
    rcases hf.back hst' with ⟨st, hst, hakin⟩ | ⟨-, hempty, -⟩
    · rw [hakin.hidden (.inl horderly) _ w.reserves_objectKey]
      exact htidy.stash st hst
    · rw [hempty]
      rfl
  · intro st' hst' hnone
    rw [hf.stash] at hst'
    rcases hf.back hst' with ⟨st, hst, hakin⟩ | ⟨-, hempty, -⟩
    · rw [hakin.hidden (.inl horderly) _ w.reserves_bridgeKey] at hnone
      rw [hakin.hidden (.inl horderly) _ w.reserves_finalizerKey]
      exact htidy.keyed st hst hnone
    · rw [hempty]
      rfl
  · intro p o' q f' ho' hq hf'
    rcases hf.back ho' with ⟨o, ho, hakin⟩ | ⟨-, -, hnone⟩
    · rcases hf.back hf' with ⟨f, hfq, hakinf⟩ | ⟨hnew, -, -⟩
      · rw [hakinf.tame]
        rcases hakin.finalizer horderly with he | ⟨-, htame⟩
        · exact htidy.tame p o q f ho (he ▸ hq) hfq
        · exact htame q f hq hfq
      · have hold := hf.finalizers p o' q f' ho' hq hf'
        simp [hnew] at hold
    · cases hnone.symm.trans hq
  · intro p o' name arity b c ho' hbody
    rcases hf.back ho' with ⟨o, ho, hakin⟩ | ⟨hnew, -, -⟩
    · exact hi.bound h s p o name arity b c hs ho ((hakin.function _ _ _).mp hbody)
    · exact hbound p o' name arity b c ho' hnew hbody
  · intro p o' r ho' hkey
    rcases hf.back ho' with ⟨o, ho, hakin⟩ | ⟨-, hempty, -⟩
    · rw [hakin.hidden (.inl horderly) _ w.reserves_objectKey] at hkey
      exact hi.carried h s p o r hs ho hkey
    · rw [hempty] at hkey
      simp [KeyMap.get?] at hkey

theorem Akin.refl (w : World) (s : Heap) (o : Object) : w.Akin s o o :=
  ⟨rfl, fun _ _ _ => Iff.rfl, fun _ _ _ => rfl, fun _ => .inl rfl, fun _ hq => .inl hq, .refl _⟩

end World

theorem Heap.Amends.follows (ha : s.Amends w s') : s.Follows w s' := by
  have hold : ∀ q o', s'.object? q = some o' → (s.object? q).isSome = true := fun q o' ho' => by
    rw [← ha.isSome_object? q, ho']
    rfl
  refine ⟨?_, fun q o ho => ?_, fun q o' ho' hnone => ?_, fun _ _ q f _ _ hf => hold q f hf⟩
  · cases ha <;> rfl
  · cases ha with
    | restack _ => exact ⟨o, ho, .refl w s o⟩
    | @edit p f stack storage _ _ hakin _ =>
      show ∃ o', (s.table.modify p f).get? q = some o' ∧ _
      rw [Table.get?_modify]
      have hq : s.table.get? q = some o := ho
      rw [hq]
      split
      case isTrue hp => exact ⟨f o, rfl, hakin o (hp ▸ ho)⟩
      case isFalse => exact ⟨o, rfl, .refl w s o⟩
    | restore _ => exact ⟨o, ho, .refl w s o⟩
  · exact absurd (hold q o' ho') (by simp [hnone])

theorem Heap.follows_withObject (hs : s.Sound) (ha : (s.withObject o).table.Addressable) (ho : o.Blank) :
    s.Follows w (s.withObject o) := by
  have hfresh : s.object? (s.table.insert o).1 = none := Table.get?_insert_fresh hs.table ha
  refine ⟨rfl, fun q x hx => ⟨x, ?_, .refl w s x⟩, fun q x hx hnone => ?_, fun p x q f hx hq hf => ?_⟩
  · rw [object?_withObject hs ha, if_neg]
    · exact hx
    · rintro rfl
      cases hfresh.symm.trans hx
  · rcases Table.get?_insert_cases hx with rfl | hx
    · exact ⟨ho.hidden, ho.finalizer⟩
    · cases hnone.symm.trans hx
  · rcases Table.get?_insert_cases hx with rfl | hx
    · cases ho.finalizer.symm.trans hq
    · have hmem : q ∈ x.references := Object.mem_references.mpr (.inr (.inl hq))
      rcases hs.references p x hx q hmem with rfl | hlive
      · cases hf.symm.trans (Table.get?_null _)
      · exact hlive

end Tether
