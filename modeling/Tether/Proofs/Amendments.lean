import Tether.Proofs.Soundness

/-!
# What the operations on one heap do

Each operation on the values and objects of a heap is one of the ordinary changes of `Heap.Amends`.
Operations that read leave the heap alone; those that stop leave it as it was, by the way in which
they are run.
-/

namespace Tether.Heap

variable {i : Int} {a n start : Nat} {v : Value} {p q : HeapPtr} {o : Object} {what k : String}
  {stack : Array Value} {b : Bool}

variable {w : World} {s s' : Heap}

/-! ## Positions and values -/

theorem bottom_le_of_position? (h : s.position? i = some a) : s.bottom ≤ a ∧ a < s.stack.size := by
  unfold position? at h
  simp only at h
  generalize (if i < 0 then (s.stack.size : Int) + i else (s.bottom : Int) + i) = x at h
  split at h
  · simp at h
  · cases h
    omega

theorem position?_of_position (h : s.position i = .ok a) : s.position? i = some a := by
  unfold position at h
  split at h
  · rename_i b hb
    rw [hb, Except.ok.inj h]
  · simp at h

theorem mem_stack_of_value? (h : s.value? i = some v) : v ∈ s.stack := by
  obtain ⟨a, -, ha⟩ := Option.bind_eq_some_iff.mp h
  exact Array.mem_of_getElem? ha

theorem value?_of_requireObject (h : s.requireObject i = .ok p) : s.value? i = some (.object p) := by
  unfold requireObject at h
  split at h
  · rename_i q hq
    rw [hq, Except.ok.inj h]
  · simp at h

theorem object?_of_deref (h : s.deref p = .ok o) : s.object? p = some o := by
  unfold deref at h
  split at h
  · rename_i x hx
    rw [hx, Except.ok.inj h]
  · simp at h

theorem back?_of_operand (h : s.operand what = .ok v) : s.stack.back? = some v := by
  unfold operand at h
  split at h
  · simp at h
  · rename_i ht
    have hpos : 0 < s.stack.size := by
      unfold top at ht
      omega
    rw [← Except.ok.inj h]
    cases hb : s.stack.back? with
    | none =>
      rw [Array.back?_eq_none_iff] at hb
      rw [hb] at hpos
      simp at hpos
    | some v => rfl

theorem holds_operand (hs : s.Sound) (h : s.operand what = .ok v) : s.HoldsValue v :=
  hs.stack v (Array.mem_of_back? (back?_of_operand h))

/-! ## The stack -/

theorem fits_of_mem (hbelow : s.bottom ≤ s.stack.size → ∀ i < s.bottom, stack[i]? = s.stack[i]?)
    (hmem : ∀ v ∈ stack, v ∈ s.stack ∨ v.object? = none) : s.Fits stack := by
  refine ⟨fun hs v hv => ?_, hbelow⟩
  rcases hmem v hv with h | h
  · exact hs.stack v h
  · exact holdsValue_of_ne h

theorem fits_append {vs : Array Value} (hvs : s.Working → ∀ v ∈ vs, s.HoldsValue v) : s.Fits (s.stack ++ vs) := by
  refine ⟨fun hs v hv => ?_, fun hb i hi => Array.getElem?_append_left (by omega)⟩
  rcases Array.mem_append.mp hv with h | h
  · exact hs.stack v h
  · exact hvs hs v h

theorem fits_push (hv : s.Working → s.HoldsValue v) : s.Fits (s.stack.push v) := by
  rw [Array.push_eq_append]
  refine fits_append fun hs x hx => ?_
  rw [List.mem_toArray.mp hx |> List.mem_singleton.mp]
  exact hv hs

theorem getElem?_take {i : Nat} (hi : i < n) : (stack.take n)[i]? = stack[i]? := by
  rw [Array.take_eq_extract, Array.getElem?_extract, Nat.zero_add]
  split
  · rfl
  · rw [Array.getElem?_eq_none (by omega)]

theorem fits_take (hn : s.bottom ≤ n) : s.Fits (s.stack.take n) := by
  refine fits_of_mem (fun _ i hi => getElem?_take (by omega)) fun v hv => .inl ?_
  obtain ⟨i, hi, rfl⟩ := Array.mem_extract_iff_getElem.mp hv
  exact Array.getElem_mem _

theorem amends_push (hv : s.Working → s.HoldsValue v) : s.Amends w (s.push v) := .restack (fits_push hv)

theorem amends_pushPlain (hv : v.object? = none) : s.Amends w (s.push v) := amends_push fun _ => holdsValue_of_ne hv

theorem amends_truncate (hn : s.bottom ≤ n) : s.Amends w (s.truncate n) := .restack (fits_take hn)

theorem popN_eq {n : Int} (h : s.popN n = .ok s') :
    s' = s.truncate (s.stack.size - n.toNat) ∧ (n.toNat : Int) ≤ s.top := by
  unfold popN at h
  split at h
  · simp at h
  · refine ⟨(Except.ok.inj h).symm, by omega⟩

theorem bottom_le_popN {n : Int} (h : s.popN n = .ok s') : s.bottom ≤ s.stack.size - n.toNat := by
  have := (popN_eq h).2
  unfold top at this
  omega

theorem amends_popN {n : Int} (h : s.popN n = .ok s') : s.Amends w s' := by
  rw [(popN_eq h).1]
  exact amends_truncate (bottom_le_popN h)

theorem amends_setTop {n : Int} (h : s.setTop n = .ok s') : s.Amends w s' := by
  unfold setTop at h
  simp only at h
  split at h
  · simp at h
  · split at h
    · simp at h
    · split at h
      · cases h
        exact amends_truncate (by omega)
      · cases h
        exact .restack (fits_append fun _ v hv =>
          Array.eq_of_mem_replicate hv ▸ holdsValue_of_ne rfl)

theorem amends_dup (h : s.dup i = .ok s') : s.Amends w s' := by
  obtain ⟨a, hp, h⟩ := bind_eq_ok.mp h
  cases h
  have ha := (bottom_le_of_position? (position?_of_position hp)).2
  refine amends_push fun hs => ?_
  rw [Array.getElem?_eq_getElem ha]
  exact hs.stack _ (Array.getElem_mem ha)

theorem amends_swap {j : Int} (h : s.swap i j = .ok s') : s.Amends w s' := by
  obtain ⟨a, hp, h⟩ := bind_eq_ok.mp h
  obtain ⟨b, hq, h⟩ := bind_eq_ok.mp h
  cases h
  have ha := bottom_le_of_position? (position?_of_position hp)
  have hb := bottom_le_of_position? (position?_of_position hq)
  refine .restack (fits_of_mem (fun _ i hi => ?_) fun v hv => .inl ?_)
  · rw [Array.swapIfInBounds_def, dif_pos ha.2, dif_pos hb.2, Array.getElem?_swap,
      if_neg (by omega), if_neg (by omega)]
  · rw [Array.swapIfInBounds_def] at hv
    split at hv
    · split at hv
      · exact (Array.swap_perm _ _).mem_iff.mp hv
      · exact hv
    · exact hv

theorem amends_remove (h : s.remove i = .ok s') : s.Amends w s' := by
  obtain ⟨a, hp, h⟩ := bind_eq_ok.mp h
  cases h
  obtain ⟨hb, ha⟩ := bottom_le_of_position? (position?_of_position hp)
  refine .restack (fits_of_mem (fun _ i hi => ?_) fun v hv => .inl ?_)
  · rw [Array.eraseIdxIfInBounds_eq, dif_pos ha, Array.getElem?_eraseIdx, if_pos (by omega)]
  · rw [Array.eraseIdxIfInBounds_eq, dif_pos ha] at hv
    exact Array.mem_of_mem_eraseIdx hv

theorem amends_insert (h : s.insert i = .ok s') : s.Amends w s' := by
  obtain ⟨a, hp, h⟩ := bind_eq_ok.mp h
  obtain ⟨hb, ha⟩ := bottom_le_of_position? (position?_of_position hp)
  cases hv : s.stack.back? with
  | none =>
    rw [hv] at h
    cases h
    exact .restack (fits_stack s)
  | some v =>
    rw [hv] at h
    cases h
    have hin : a ≤ s.stack.pop.size := by
      rw [Array.size_pop]
      omega
    have hmem : v ∈ s.stack := Array.mem_of_back? hv
    refine .restack (fits_of_mem (fun _ i hi => ?_) fun x hx => .inl ?_)
    · rw [Array.insertIdxIfInBounds, dif_pos hin, Array.getElem?_insertIdx, if_pos (by omega),
        Array.getElem?_pop, if_pos (by omega)]
    · rw [Array.insertIdxIfInBounds, dif_pos hin, Array.mem_insertIdx] at hx
      rcases hx with rfl | hx
      · exact hmem
      · obtain ⟨k, hk, rfl⟩ := Array.mem_iff_getElem.mp hx
        rw [Array.getElem_pop]
        exact Array.getElem_mem _

theorem amends_fitArguments {nargs : Nat} {arity : Int} (hstart : s.bottom ≤ start) :
    s.Amends w (s.fitArguments start nargs arity) := by
  unfold fitArguments
  split
  · exact .restack (fits_stack s)
  · split
    · exact amends_truncate (by omega)
    · exact .restack (fits_append fun _ v hv =>
        Array.eq_of_mem_replicate hv ▸ holdsValue_of_ne rfl)

/-! ## Properties -/

theorem holds_lookupFrom (hs : s.Sound) (h : s.lookupFrom k n p = some v) : s.HoldsValue v := by
  induction n generalizing p with
  | zero => simp [lookupFrom] at h
  | succ n ih =>
    unfold lookupFrom at h
    cases ho : s.object? p with
    | none =>
      rw [ho] at h
      simp at h
    | some o =>
      simp only [ho] at h
      cases hk : o.props.get? k with
      | some x =>
        simp only [hk] at h
        cases h
        intro q hq
        refine hs.references p o ho q (Object.mem_references.mpr (.inr (.inr (.inl ?_))))
        exact hq ▸ KeyMap.mem_values_of_get? hk
      | none =>
        simp only [hk] at h
        cases hq : o.prototype with
        | none =>
          rw [hq] at h
          simp at h
        | some q =>
          simp only [hq] at h
          exact ih h

theorem amends_getProp (h : s.getProp i k = .ok (b, s')) : s.Amends w s' := by
  obtain ⟨p, -, h⟩ := bind_eq_ok.mp h
  cases hl : s.lookup p k with
  | none =>
    simp only [hl] at h
    cases h
    exact amends_pushPlain rfl
  | some v =>
    simp only [hl] at h
    cases h
    exact amends_push fun hs => holds_lookupFrom hs.toSound hl

theorem amends_modifyObject_popN {f : Object → Object} (h : (s.modifyObject p f).popN 1 = .ok s')
    (hrefs : s.Working → ∀ o, s.object? p = some o → ∀ q ∈ (f o).references, s.Holds q)
    (hakin : ∀ o, s.object? p = some o → w.Akin s o (f o))
    (hprototype : ∀ o q, s.object? p = some o → (f o).prototype = some q →
      o.prototype = some q ∨ s.onChain p s.table.slots.size q = false := by exact fun _ _ _ => .inl) :
    s.Amends w s' := by
  have hb : s.bottom ≤ s.stack.size - Int.toNat 1 := bottom_le_popN (s := s.modifyObject p f) h
  rw [(popN_eq h).1]
  exact .edit (fits_take hb) hrefs hakin hprototype

theorem akin_of_eq {o' : Object} (hbody : o'.body = o.body) (hhidden : o'.hidden = o.hidden)
    (hfinalizer : o'.finalizer = o.finalizer) (hfinalized : o'.finalized = o.finalized)
    (hprops : o.props.Becomes o'.props) : w.Akin s o o' := by
  refine ⟨hfinalized, fun name arity code => ?_, fun _ k _ => ?_, fun _ => .inl hfinalizer,
    fun q hq => .inl (hfinalizer ▸ hq), hprops⟩
  · rw [hbody]
  · rw [hhidden]

theorem references_edit {o' : Object} {φ : Prop} (hq : q ∈ o'.references)
    (hprototype : o'.prototype = some q → φ ∨ o.prototype = some q)
    (hfinalizer : o'.finalizer = some q → φ ∨ o.finalizer = some q)
    (hprops : .object q ∈ o'.props.values → φ ∨ .object q ∈ o.props.values)
    (hhidden : .object q ∈ o'.hidden.values → φ ∨ .object q ∈ o.hidden.values) : φ ∨ q ∈ o.references := by
  rw [Object.mem_references] at hq ⊢
  rcases hq with h | h | h | h
  · exact (hprototype h).imp_right .inl
  · exact (hfinalizer h).imp_right fun h => .inr (.inl h)
  · exact (hprops h).imp_right fun h => .inr (.inr (.inl h))
  · exact (hhidden h).imp_right fun h => .inr (.inr (.inr h))

theorem amends_putProp (h : s.putProp i k = .ok s') : s.Amends w s' := by
  obtain ⟨p, -, h⟩ := bind_eq_ok.mp h
  obtain ⟨v, hv, h⟩ := bind_eq_ok.mp h
  obtain ⟨-, -, h⟩ := bind_eq_ok.mp h
  refine amends_modifyObject_popN h (fun hs o ho q hq => ?_) fun o _ =>
    akin_of_eq rfl rfl rfl rfl ⟨[(k, some v)], rfl⟩
  rcases references_edit (o := o) hq .inr .inr KeyMap.mem_values_put .inr with hq | hq
  · exact holds_operand hs.toSound hv q hq.symm
  · exact hs.references p o ho q hq

theorem amends_delProp (h : s.delProp i k = .ok (b, s')) : s.Amends w s' := by
  unfold delProp at h
  split at h
  · rename_i p hp
    obtain ⟨o, -, h⟩ := bind_eq_ok.mp h
    split at h
    · cases h
      refine .edit (fits_stack s) (fun hs o ho q hq => ?_) fun o _ =>
        akin_of_eq rfl rfl rfl rfl ⟨[(k, none)], rfl⟩
      have hold := references_edit (o := o) (φ := False) hq .inr .inr
        (fun h => .inr (Properties.mem_values_erase h)) .inr
      exact hs.references p o ho q (hold.resolve_left id)
    · cases h
      exact .restack (fits_stack s)
  · cases h
    exact .restack (fits_stack s)

theorem amends_pushPointer (h : s.pushPointer p = .ok s') : s.Amends w s' := by
  unfold pushPointer at h
  split at h
  · rename_i o ho
    cases h
    exact amends_push fun _ => holdsValue_object.mpr (holds_of_object? ho)
  · simp at h

/-- The heap in which a function and its receiver were put below the values from a position on. -/
def beneath (s : Heap) (start : Nat) (fn this : Value) : Heap :=
  { s with stack := s.stack.take start ++ #[fn, this] ++ s.stack.drop start }

theorem getElem?_beneath {i : Nat} {fn this : Value} (hi : i < start) (hstart : start ≤ s.stack.size) :
    (s.beneath start fn this).stack[i]? = s.stack[i]? := by
  show (s.stack.take start ++ #[fn, this] ++ s.stack.drop start)[i]? = _
  have hlen : (s.stack.take start).size = start := by
    rw [Array.take_eq_extract, Array.size_extract]
    omega
  rw [Array.append_assoc, Array.getElem?_append_left (by omega), getElem?_take hi]

variable (fn this : Value)

theorem size_beneath (hstart : start ≤ s.stack.size) : (s.beneath start fn this).stack.size = s.stack.size + 2 := by
  show (s.stack.take start ++ #[fn, this] ++ s.stack.drop start).size = _
  simp only [Array.take_eq_extract, Array.drop_eq_extract, Array.size_append, Array.size_extract]
  simp only [List.size_toArray, List.length_cons, List.length_nil]
  omega

theorem callee_beneath (hstart : start ≤ s.stack.size) :
    (s.beneath start fn this).stack[start]? = some fn ∧ (s.beneath start fn this).stack[start + 1]? = some this := by
  show (s.stack.take start ++ #[fn, this] ++ s.stack.drop start)[start]? = _ ∧
    (s.stack.take start ++ #[fn, this] ++ s.stack.drop start)[start + 1]? = _
  have hlen : (s.stack.take start).size = start := by
    rw [Array.take_eq_extract, Array.size_extract]
    omega
  constructor
  · rw [Array.append_assoc, Array.getElem?_append_right (by omega), hlen, Nat.sub_self]
    exact Array.getElem?_append_left (by simp)
  · rw [Array.append_assoc, Array.getElem?_append_right (by omega), hlen, Nat.add_sub_cancel_left]
    exact Array.getElem?_append_left (by simp)

theorem amends_beneath (k : String) (hbottom : s.bottom ≤ start) (hstart : start ≤ s.stack.size)
    (hv : s.value? i = some (.object p)) :
    s.Amends w (s.beneath start ((s.lookup p k).getD .undefined) (.object p)) := by
  refine .restack ⟨fun hwork v hv' => ?_, fun _ j hj => getElem?_beneath (by omega) hstart⟩
  have hmem : ∀ {a b : Nat} {x : Value}, x ∈ s.stack.extract a b → s.HoldsValue x := by
    intro a b x hx
    obtain ⟨j, hj, rfl⟩ := Array.mem_extract_iff_getElem.mp hx
    exact hwork.stack _ (Array.getElem_mem _)
  simp only [Array.take_eq_extract, Array.drop_eq_extract, Array.mem_append] at hv'
  rcases hv' with (hv' | hv') | hv'
  · exact hmem hv'
  · simp only [List.mem_toArray, List.mem_cons, List.not_mem_nil, or_false] at hv'
    rcases hv' with rfl | rfl
    · cases hl : s.lookup p k with
      | none => exact holdsValue_of_ne rfl
      | some x => exact holds_lookupFrom hwork.toSound hl
    · exact hwork.stack _ (mem_stack_of_value? hv)
  · exact hmem hv'

/-! ## Prototypes -/

theorem amends_getPrototype (h : s.getPrototype i = .ok s') : s.Amends w s' := by
  obtain ⟨p, -, h⟩ := bind_eq_ok.mp h
  obtain ⟨o, ho, h⟩ := bind_eq_ok.mp h
  cases h
  refine amends_push fun hs => ?_
  cases hq : o.prototype with
  | none => exact holdsValue_of_ne rfl
  | some q =>
    refine holdsValue_object.mpr (hs.references p o (object?_of_deref ho) q ?_)
    exact Object.mem_references.mpr (.inl hq)

theorem amends_setPrototype (h : s.setPrototype i = .ok s') : s.Amends w s' := by
  have hset : ∀ {p : HeapPtr} {prototype : Option HeapPtr},
      (∀ q, prototype = some q → s.Holds q ∧ s.onChain p s.table.slots.size q = false) →
      (s.modifyObject p fun o => { o with prototype }).popN 1 = .ok s' → s.Amends w s' := by
    intro p prototype hq h
    refine amends_modifyObject_popN h (fun hs o ho q hr => ?_) (fun o _ => akin_of_eq rfl rfl rfl rfl (.refl _))
      fun o q _ hr => .inr (hq q hr).2
    rcases references_edit (o := o) hr .inl .inr .inr .inr with hr | hr
    · exact (hq q hr).1
    · exact hs.references p o ho q hr
  obtain ⟨p, -, h⟩ := bind_eq_ok.mp h
  obtain ⟨v, -, h⟩ := bind_eq_ok.mp h
  have hclear : ∀ {x : Except Stop Object}, (x >>= fun _ =>
      (s.modifyObject p fun o => { o with prototype := none }).popN 1) = .ok s' →
      s.Amends w s' := by
    intro x h
    obtain ⟨-, -, h⟩ := bind_eq_ok.mp h
    exact hset (fun q hq => absurd hq (by simp)) h
  cases v with
  | object q =>
    simp only at h
    split at h
    · simp at h
    · rename_i hchain
      obtain ⟨-, -, h⟩ := bind_eq_ok.mp h
      refine hset (fun r hr => ?_) h
      split at hr
      · rename_i hlive
        cases hr
        exact ⟨.inr hlive, Bool.eq_false_iff.mpr hchain⟩
      · simp at hr
  | null | undefined => exact hclear h
  | boolean b | number x | string t | pointer t => simp at h

/-! ## Hidden properties and finalizers -/

theorem amends_getHidden (h : s.getHidden i k = .ok (b, s')) : s.Amends w s' := by
  obtain ⟨p, -, h⟩ := bind_eq_ok.mp h
  obtain ⟨o, ho, h⟩ := bind_eq_ok.mp h
  cases hk : o.hidden.get? k with
  | none =>
    simp only [hk] at h
    cases h
    exact amends_pushPlain rfl
  | some v =>
    simp only [hk] at h
    cases h
    refine amends_push fun hs q hq => hs.references p o (object?_of_deref ho) q ?_
    refine Object.mem_references.mpr (.inr (.inr (.inr ?_)))
    exact hq ▸ KeyMap.mem_values_of_get? hk

theorem amends_putHidden (hk : w.Guarded → w.reserves k = false) (h : s.putHidden i k = .ok s') : s.Amends w s' := by
  obtain ⟨p, -, h⟩ := bind_eq_ok.mp h
  obtain ⟨v, hv, h⟩ := bind_eq_ok.mp h
  obtain ⟨-, -, h⟩ := bind_eq_ok.mp h
  refine amends_modifyObject_popN h (fun hs o ho q hq => ?_) fun o _ =>
    ⟨rfl, fun _ _ _ => Iff.rfl, fun hw j hj => ?_, fun _ => .inl rfl, fun _ hr => .inl hr, .refl _⟩
  · rcases references_edit (o := o) hq .inr .inr .inr KeyMap.mem_values_put with hq | hq
    · exact holds_operand hs.toSound hv q hq.symm
    · exact hs.references p o ho q hq
  · rw [KeyMap.get?_put, if_neg]
    rintro rfl
    simp [hk hw] at hj

theorem amends_delHidden (hk : w.Guarded → w.reserves k = false) (h : s.delHidden i k = .ok (b, s')) :
    s.Amends w s' := by
  unfold delHidden at h
  split at h
  · rename_i p hp
    obtain ⟨o, -, h⟩ := bind_eq_ok.mp h
    split at h
    · cases h
      refine .edit (fits_stack s) (fun hs o ho q hq => hs.references p o ho q ?_) fun o _ =>
        ⟨rfl, fun _ _ _ => Iff.rfl, fun hw j hj => ?_, fun _ => .inl rfl, fun _ hr => .inl hr, .refl _⟩
      · have hold := references_edit (o := o) (φ := False) hq .inr .inr .inr fun h =>
          .inr (KeyMap.mem_values_erase h)
        exact hold.resolve_left id
      · rw [KeyMap.get?_erase, if_neg]
        rintro rfl
        simp [hk hw] at hj
    · cases h
      exact .restack (fits_stack s)
  · cases h
    exact .restack (fits_stack s)

theorem amends_getFinalizer (h : s.getFinalizer i = .ok s') : s.Amends w s' := by
  obtain ⟨p, -, h⟩ := bind_eq_ok.mp h
  obtain ⟨o, ho, h⟩ := bind_eq_ok.mp h
  cases h
  refine amends_push fun hs => ?_
  cases hq : o.finalizer with
  | none => exact holdsValue_of_ne rfl
  | some q =>
    refine holdsValue_object.mpr (hs.references p o (object?_of_deref ho) q ?_)
    exact Object.mem_references.mpr (.inr (.inl hq))

theorem setFinalizer_cases (h : s.setFinalizer i = .ok s') :
    ∃ p v, s.value? i = some (.object p) ∧ s.operand "set finalizer" = .ok v ∧
      ((v = .undefined ∧ (s.modifyObject p fun o => { o with finalizer := none }).popN 1 = .ok s') ∨
        ∃ q f, v = .object q ∧ s.object? q = some f ∧ f.isFunction = true ∧
          (s.modifyObject p fun o => { o with finalizer := some q }).popN 1 = .ok s') := by
  obtain ⟨p, hp, h⟩ := bind_eq_ok.mp h
  obtain ⟨v, hv, h⟩ := bind_eq_ok.mp h
  refine ⟨p, v, value?_of_requireObject hp, hv, ?_⟩
  cases v with
  | undefined =>
    obtain ⟨-, -, h⟩ := bind_eq_ok.mp h
    exact .inl ⟨rfl, h⟩
  | object q =>
    obtain ⟨f, hf, h⟩ := bind_eq_ok.mp h
    split at h
    · rename_i hfun
      obtain ⟨-, -, h⟩ := bind_eq_ok.mp h
      exact .inr ⟨q, f, rfl, object?_of_deref hf, hfun, h⟩
    · simp at h
  | null | boolean b | number x | string t | pointer t => simp at h

theorem amends_setFinalizer (hpermits : w.orderly = true → s.permitsFinalizer i = true)
    (h : s.setFinalizer i = .ok s') : s.Amends w s' := by
  obtain ⟨p, v, hp, hv, hcases⟩ := setFinalizer_cases h
  have hback := back?_of_operand hv
  have hwrapper : w.orderly = true → ∀ o, s.object? p = some o → o.isWrapper = false := by
    intro hw o ho
    have := hpermits hw
    unfold permitsFinalizer at this
    rw [hp] at this
    simp only [ho, Option.all_some, Bool.and_eq_true, Bool.not_eq_true'] at this
    exact this.1
  rcases hcases with ⟨rfl, h⟩ | ⟨q, f, rfl, hf, hfun, h⟩
  · refine amends_modifyObject_popN h (fun hs o ho q hq => ?_) fun o ho =>
      ⟨rfl, fun _ _ _ => Iff.rfl, fun _ _ _ => rfl, fun hw => .inr ⟨hwrapper hw o ho, ?_⟩, nofun, .refl _⟩
    · rcases references_edit (o := o) hq .inr .inl .inr .inr with hq | hq
      · simp at hq
      · exact hs.references p o ho q hq
    · intro r x hr
      simp at hr
  · refine amends_modifyObject_popN h (fun hs o ho r hr => ?_) fun o ho =>
      ⟨rfl, fun _ _ _ => Iff.rfl, fun _ _ _ => rfl, fun hw => .inr ⟨hwrapper hw o ho, ?_⟩,
        fun r hr => .inr ⟨f, Option.some.inj hr ▸ hf, hfun⟩, .refl _⟩
    · rcases references_edit (o := o) hr .inr .inl .inr .inr with hr | hr
      · cases hr
        exact holds_of_object? hf
      · exact hs.references p o ho r hr
    · intro r x hr hx
      cases hr
      have := hpermits hw
      unfold permitsFinalizer at this
      rw [hp] at this
      simp only [hback, Option.bind_some, Value.object?, Option.all_some, hx, Bool.and_eq_true] at this
      exact this.2

/-! ## Buffers -/

theorem amends_releaseBuffer (p : HeapPtr) : s.Amends w (s.releaseBuffer p).2 := by
  unfold releaseBuffer
  cases hb : (s.object? p).bind (·.buffer?) with
  | none => exact .restack (fits_stack s)
  | some b =>
    simp only
    split
    · exact .restack (fits_stack s)
    · obtain ⟨o, ho, hob⟩ := Option.bind_eq_some_iff.mp hb
      have hrefs : s.Working → ∀ x, s.object? p = some x → ∀ q ∈
          ({ x with body := .buffer { b with detached := true } } : Object).references,
          s.Holds q := fun hs x hx q hq => hs.references p x hx q hq
      have hakin : ∀ x, s.object? p = some x → w.Akin s x { x with body := .buffer { b with detached := true } } := by
        intro x hx
        rw [ho] at hx
        cases hx
        refine ⟨rfl, fun name arity code => ?_, fun _ _ _ => rfl, fun _ => .inl rfl, fun _ hr => .inl hr, .refl _⟩
        unfold Object.buffer? at hob
        split at hob
        · rename_i b' hbody
          rw [hbody]
          simp
        · simp at hob
      split
      · exact .edit (fits_stack s) hrefs hakin
      · exact .edit (fits_stack s) hrefs hakin

/-! ## New objects -/

def withObject (s : Heap) (o : Object) : Heap :=
  { s with
    table := (s.table.insert o).2
    allocs := s.allocs + 1
    issued := (s.table.insert o).1 :: s.issued
    counters := { s.counters with allocated := s.counters.allocated + 1 } }

section

variable (hs : s.Sound) (ha : (s.withObject o).table.Addressable)
include hs ha

theorem object?_withObject (q : HeapPtr) :
    (s.withObject o).object? q = if q = (s.table.insert o).1 then some o else s.object? q :=
  Table.get?_insert hs.table ha q

theorem holds_withObject (hq : s.Holds q) : (s.withObject o).Holds q := by
  rcases hq with h | h
  · exact .inl h
  · refine .inr ?_
    rw [object?_withObject hs ha]
    split
    · rfl
    · exact h

theorem Sound.withObject (ho : ∀ q ∈ o.references, s.Holds q) : (s.withObject o).Sound := by
  refine hs.transfer (hs.table.insert o) rfl rfl rfl (fun _ => holds_withObject hs ha)
    hs.bottom_le (fun v hv p hp => holds_withObject hs ha (hs.stack v hv p hp)) ?_
  intro p x hx q hq
  refine holds_withObject hs ha ?_
  rw [object?_withObject hs ha] at hx
  split at hx
  · cases hx
    exact ho q hq
  · exact hs.references p x hx q hq

end

theorem later_withObject (hs : s.closed = false → s.table.Addressable → s.Sound) (o : Object) :
    s.Later (s.withObject o) := by
  have hslots := Table.slots_size_le_insert s.table o
  refine ⟨rfl, id, fun _ => hslots, .inl rfl, fun hopen ha hc => ?_⟩
  have hsound := hs hopen (Nat.lt_of_le_of_lt hslots ha)
  refine ⟨hc, rfl, ?_, fun p x hx => ⟨x, ?_, id⟩⟩
  · show (s.table.insert o).2.size + s.counters.allocated = s.table.size + (s.counters.allocated + 1)
    rw [Table.size_insert]
    omega
  · rw [object?_withObject hsound ha, if_neg]
    · exact hx
    · rintro rfl
      have hfresh := Table.get?_insert_fresh hsound.table ha
      simpa using hfresh.symm.trans hx

end Tether.Heap
