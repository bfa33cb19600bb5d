import Tether.Heap.Invoke

/-!
# What a computation does to a world

A computation gives an outcome and leaves a world, also when it stops.
-/

namespace Tether

instance decidableExistsSome {α : Type} {o : Option α} {p : α → Prop} [DecidablePred p] :
    Decidable (∃ a, o = some a ∧ p a) :=
  match o with
  | none => .isFalse (by simp)
  | some a => decidable_of_iff (p a) (by simp)

theorem toOption_eq_some {ε α : Type} {x : Except ε α} {a : α} : x.toOption = some a ↔ x = .ok a := by
  cases x <;> simp [Except.toOption]

variable {α β : Type} {w w' : World} {i : Nat} {s' s : Heap} {h : HeapId} {γ : Type} {e : Stop}
  {y : M Unit} {f : Heap → Except Stop Heap}

theorem bind_eq_ok {β : Type} {x : Except Stop α} {f : α → Except Stop β} {b : β} :
    x >>= f = .ok b ↔ ∃ a, x = .ok a ∧ f a = .ok b := by
  cases x with
  | error e | ok a => simp [bind, Except.bind]

/-- Whether a result is a value can be decided if values can be told apart. -/
instance decidableEqOk {ε α : Type} [DecidableEq α] (x : Except ε α) (a : α) : Decidable (x = .ok a) :=
  match x with
  | .ok b => decidable_of_iff (b = a) (by simp)
  | .error _ => isFalse nofun

namespace M

def exec (x : M α) (w : World) : Except Stop α × World := x.run w

def after (x : M α) (w : World) : World := (x.exec w).2

variable {x : M α}

theorem after_eq {r : Except Stop α} (h : x.exec w = (r, w')) : x.after w = w' := by
  unfold after
  rw [h]

variable {a : α}

theorem exec_eq_ok (h : (x.exec w).1 = .ok a) : x.exec w = (.ok a, x.after w) := Prod.ext h rfl

/-! ## Sequences -/

theorem exec_bind_congr {x y : M α} {f : α → M β} (h : x.exec w = y.exec w') :
    (x >>= f).exec w = (y >>= f).exec w' := by
  show (match x.exec w with
    | (r, w1) => (ExceptT.bindCont f r : StateM World (Except Stop β)) w1) = _
  rw [h]
  rfl

theorem bind_ok {f : α → M β} (h : x.exec w = (.ok a, w')) : (x >>= f).exec w = (f a).exec w' :=
  exec_bind_congr (y := pure a) h

theorem bind_error {f : α → M β} (h : x.exec w = (.error e, w')) : (x >>= f).exec w = (.error e, w') :=
  exec_bind_congr (y := throw e) h

theorem after_bind_ok {f : α → M β} (h : x.exec w = (.ok a, w')) : (x >>= f).after w = (f a).after w' := by
  unfold after
  rw [bind_ok h]

theorem after_bind_error {f : α → M β} (h : x.exec w = (.error e, w')) : (x >>= f).after w = w' :=
  after_eq (bind_error h)

theorem fail_bind (e : Fault) (f : α → M β) : (fail e : M α) >>= f = fail e := rfl

theorem crash_bind (c : Crash) (f : α → M β) : (crash c : M α) >>= f = crash c := rfl

theorem bind_ok_iff {f : α → M β} {b : β} : (x >>= f).exec w = (.ok b, w') ↔
      ∃ a w1, x.exec w = (.ok a, w1) ∧ (f a).exec w1 = (.ok b, w') := by
  rcases h : x.exec w with ⟨r | a, w1⟩
  · rw [bind_error h]
    constructor
    · intro he
      simpa using congrArg Prod.fst he
    · rintro ⟨a, w2, he, -⟩
      simpa using congrArg Prod.fst he
  · rw [bind_ok h]
    constructor
    · intro he
      exact ⟨a, w1, rfl, he⟩
    · rintro ⟨a', w2, he, hf⟩
      obtain ⟨ha, rfl⟩ := Prod.mk.inj he
      cases ha
      exact hf

@[simp] theorem exec_pure (a : α) (w : World) : (pure a : M α).exec w = (.ok a, w) := rfl

@[simp] theorem exec_throw (e : Stop) (w : World) : (throw e : M α).exec w = (.error e, w) := rfl

@[simp] theorem exec_fail (f : Fault) (w : World) : (fail f : M α).exec w = (.error (.fault f), w) := rfl

@[simp] theorem exec_crash (c : Crash) (w : World) : (crash c : M α).exec w = (.error (.crash c), w) := rfl

/-! ## Handlers -/

def caught : Except Stop α → Except Stop (Except Fault α)
  | .ok a => .ok (.ok a)
  | .error (.fault f) => .ok (.error f)
  | .error (.crash c) => .error (.crash c)

section

variable (x : M α) (w : World)

theorem exec_catchFault : (catchFault x).exec w = (caught (x.exec w).1, (x.exec w).2) := by
  show (match x.exec w with
    | (r, w') => (match r with
      | .ok a => (return .ok a : M (Except Fault α))
      | .error (.fault f) => return .error f
      | .error (.crash c) => crash c).exec w') = _
  rcases x.exec w with ⟨(f | c) | a, w'⟩ <;> rfl

@[simp] theorem after_catchFault : (catchFault x).after w = x.after w := by
  unfold after
  rw [exec_catchFault]

@[simp] theorem after_ignoreFault : (ignoreFault x).after w = x.after w := by
  rw [← after_catchFault x w]
  unfold ignoreFault
  rcases he : (catchFault x).exec w with ⟨e | r, w'⟩
  · rw [after_bind_error he, after_eq he]
  · rw [after_bind_ok he, after_eq he]
    rfl

end

variable {x : M α}

theorem exec_catchFault_eq_ok {r : Except Fault α} (h : (catchFault x).exec w = (.ok r, w')) :
    (∃ a, r = .ok a ∧ x.exec w = (.ok a, w')) ∨ ∃ f, r = .error f ∧ x.exec w = (.error (.fault f), w') := by
  rw [exec_catchFault] at h
  rcases hx : x.exec w with ⟨(f | c) | a, w1⟩ <;> rw [hx] at h <;> obtain ⟨hr, rfl⟩ := Prod.mk.inj h
  · exact .inr ⟨f, (Except.ok.inj hr).symm, rfl⟩
  · simp [caught] at hr
  · exact .inl ⟨a, (Except.ok.inj hr).symm, rfl⟩

theorem exec_onFault_eq_ok {a : α} : (onFault x y).exec w = (.ok a, w') ↔ x.exec w = (.ok a, w') := by
  unfold onFault
  constructor
  · intro h
    obtain ⟨r, w1, hr, h⟩ := bind_ok_iff.mp h
    rcases exec_catchFault_eq_ok hr with ⟨b, rfl, hx⟩ | ⟨f, rfl, -⟩
    · obtain ⟨hb, rfl⟩ := Prod.mk.inj h
      rw [hx, hb]
    · obtain ⟨-, w2, -, h⟩ := bind_ok_iff.mp h
      simpa using congrArg Prod.fst h
  · intro h
    have hc : (catchFault x).exec w = (.ok (.ok a), w') := by
      rw [exec_catchFault, h]
      rfl
    rw [bind_ok hc]
    rfl

theorem exec_andFinally : (andFinally x y).exec w = (do
    y
    match (x.exec w).1 with
    | .ok a => return a
    | .error s => throw s : M α).exec (x.after w) := rfl

theorem exec_andFinally_ok (h : y.exec (x.after w) = (.ok (), w')) :
    (andFinally x y).exec w = ((x.exec w).1, w') := by
  rw [exec_andFinally, bind_ok h]
  cases (x.exec w).1 <;> rfl

theorem exec_andFinally_error (h : y.exec (x.after w) = (.error e, w')) :
    (andFinally x y).exec w = (.error e, w') := by
  rw [exec_andFinally, bind_error h]

variable {a : α}

theorem exec_andFinally_eq_ok (h : (andFinally x y).exec w = (.ok a, w')) :
    ∃ w1, x.exec w = (.ok a, w1) ∧ y.exec w1 = (.ok (), w') := by
  rcases hy : y.exec (x.after w) with ⟨e | ⟨⟩, w2⟩
  · rw [exec_andFinally_error hy] at h
    cases h
  · rw [exec_andFinally_ok hy] at h
    obtain ⟨hx, rfl⟩ := Prod.mk.inj h
    exact ⟨x.after w, Prod.ext hx rfl, hy⟩

theorem after_andFinally (x : M α) (y : M Unit) (w : World) : (andFinally x y).after w = y.after (x.after w) := by
  rcases h : y.exec (x.after w) with ⟨e | ⟨⟩, w'⟩
  · rw [after_eq (exec_andFinally_error h), after_eq h]
  · rw [after_eq (exec_andFinally_ok h), after_eq h]

/-! ## Primitive computations -/

@[simp] theorem exec_get (w : World) : (get : M World).exec w = (.ok w, w) := rfl

@[simp] theorem exec_set (w' w : World) : (set w' : M Unit).exec w = (.ok (), w') := rfl

@[simp] theorem exec_modify (f : World → World) (w : World) : (modify f : M Unit).exec w = (.ok (), f w) := rfl

@[simp] theorem exec_trace (e : Event) (w : World) :
    (trace e).exec w = (.ok w.trace.size, { w with trace := w.trace.push e }) := rfl

theorem exec_need_some (a : α) (w : World) : (need (some a)).exec w = (.ok a, w) := rfl

theorem exec_need_none (w : World) : (need (none : Option α)).exec w = (.error (.crash .runtime), w) := rfl

theorem exec_need_eq_ok {x : Option α} : (need x).exec w = (.ok a, w') ↔ x = some a ∧ w' = w := by
  cases x with
  | none =>
    rw [exec_need_none]
    simp
  | some b =>
    rw [exec_need_some]
    simp [eq_comm]

theorem exec_ofExcept_eq_ok {x : Except Fault α} : (ofExcept x).exec w = (.ok a, w') ↔ x = .ok a ∧ w' = w := by
  cases x with
  | error f =>
    show ((.error (.fault f) : Except Stop α), w) = (.ok a, w') ↔ _
    simp
  | ok b =>
    show ((.ok b : Except Stop α), w) = (.ok a, w') ↔ _
    simp [eq_comm]

theorem exec_look_eq_ok {f : World → Option α} :
    (do need (f (← get)) : M α).exec w = (.ok a, w') ↔ f w = some a ∧ w' = w :=
  exec_need_eq_ok

variable {g : α → M β}

theorem look_bind_eq_ok {f : World → Option α} {b : β}
    (h : ((do need (f (← get)) : M α) >>= g).exec w = (.ok b, w')) :
    ∃ a, f w = some a ∧ (g a).exec w = (.ok b, w') := by
  obtain ⟨a, w1, ha, hg⟩ := bind_ok_iff.mp h
  obtain ⟨ha, rfl⟩ := exec_look_eq_ok.mp ha
  exact ⟨a, ha, hg⟩

theorem exec_look_none {f : World → Option α} (hf : f w = none) :
    (do need (f (← get)) : M α).exec w = (.error (.crash .runtime), w) := by
  show (need (f w)).exec w = _
  rw [hf]
  rfl

theorem after_look_none {f : World → Option α} (hf : f w = none) : ((do need (f (← get)) : M α) >>= g).after w = w :=
  after_bind_error (exec_look_none hf)

/-! ## Computations that only read -/

def Reads (x : M α) : Prop := ∀ w, x.after w = w

theorem Reads.exec (hx : Reads x) {r : Except Stop α} (h : x.exec w = (r, w')) : w' = w := by
  rw [← hx w, after_eq h]

theorem Reads.bind_eq_ok {f : α → M β} (hx : Reads x) {b : β} (h : (x >>= f).exec w = (.ok b, w')) :
    ∃ a, x.exec w = (.ok a, w) ∧ (f a).exec w = (.ok b, w') := by
  obtain ⟨a, w1, ha, hf⟩ := bind_ok_iff.mp h
  obtain rfl := hx.exec ha
  exact ⟨a, ha, hf⟩

theorem reads_pure (a : α) : Reads (pure a : M α) := fun _ => rfl

theorem reads_throw (e : Stop) : Reads (throw e : M α) := fun _ => rfl

theorem reads_get : Reads (get : M World) := fun _ => rfl

theorem reads_need (x : Option α) : Reads (need x) := by
  cases x <;> exact fun _ => rfl

theorem Reads.bind {f : α → M β} (hx : Reads x) (hf : ∀ a, Reads (f a)) : Reads (x >>= f) := by
  intro w
  rcases h : x.exec w with ⟨e | a, w'⟩
  · rw [after_eq (bind_error h)]
    exact hx.exec h
  · obtain rfl := hx.exec h
    unfold after
    rw [bind_ok h]
    exact hf a w'

theorem Reads.returns {f : α → β} (hx : Reads x) : Reads (x >>= fun a => pure (f a)) :=
  hx.bind fun a => reads_pure (f a)

theorem reads_catchFault (hx : Reads x) : Reads (catchFault x) := by
  intro w
  rw [after_catchFault]
  exact hx w

theorem reads_look (f : World → Option α) : Reads (do need (f (← get)) : M α) :=
  Reads.bind reads_get fun w => reads_need (f w)

theorem Reads.ite {c : Prop} [Decidable c] {x y : M α} (hx : Reads x) (hy : Reads y) :
    Reads (if c then x else y) := by
  split
  · exact hx
  · exact hy

theorem reads_fail (f : Fault) : Reads (fail f : M α) := fun _ => rfl

theorem reads_crash (c : Crash) : Reads (crash c : M α) := fun _ => rfl

theorem reads_native (o : NativeId) : Reads (native o) := reads_look fun w => w.natives[o]?

theorem reads_control (c : ControlId) : Reads (control c) := reads_look fun w => w.controls[c]?

theorem reads_share (s : ShareId) : Reads (share s) := reads_look fun w => w.shares[s]?

theorem reads_record (r : RecordId) : Reads (record r) := reads_look fun w => w.records[r]?

theorem reads_bridge (b : BridgeId) : Reads (bridge b) := reads_look fun w => w.bridges[b]?

theorem reads_classDecl (c : ClassId) : Reads (classDecl c) := reads_look fun w => w.classes[c]?

theorem reads_moduleDecl (m : Nat) : Reads (moduleDecl m) := reads_look fun w => w.modules[m]?

theorem reads_ofExcept (x : Except Fault α) : Reads (ofExcept x) := by
  cases x <;> exact fun _ => rfl

theorem reads_ofStop (x : Except Stop α) : Reads (ofStop x) := by
  cases x <;> exact fun _ => rfl

theorem reads_mapM {l : List α} {f : α → M β} (hf : ∀ a, Reads (f a)) : Reads (l.mapM f) := by
  induction l with
  | nil => exact fun _ => rfl
  | cons a rest ih =>
    rw [List.mapM_cons]
    exact Reads.bind (hf a) fun b => Reads.bind ih fun bs => reads_pure _

/-! ## Parts of the world that stay -/

/-- A computation leaves a part of the world as it is, however it ends. -/
def Fixes (f : World → β) (x : M α) : Prop := ∀ w, f (x.after w) = f w

theorem Reads.fixes (hx : Reads x) (f : World → β) : Fixes f x := fun w => by rw [hx w]

theorem Fixes.bind {f : World → γ} (hx : Fixes f x) (hg : ∀ a, Fixes f (g a)) : Fixes f (x >>= g) := by
  intro w
  rcases he : x.exec w with ⟨e | a, w'⟩
  · rw [after_bind_error he, ← after_eq he]
    exact hx w
  · rw [after_bind_ok he, hg a w', ← after_eq he]
    exact hx w

theorem Fixes.exec {f : World → β} (hx : Fixes f x) {r : Except Stop α} (he : x.exec w = (r, w')) : f w' = f w := by
  rw [← hx w, after_eq he]

theorem Fixes.map {f : World → β} (hx : Fixes f x) (g : β → γ) :
    Fixes (fun w => g (f w)) x := fun w => congrArg g (hx w)

theorem fixes_modify {f : World → β} {g : World → World} (hg : ∀ w, f (g w) = f w) : Fixes f (modify g : M Unit) := hg

theorem exec_log (enabled : Bool) (level : LogLevel) (message : String)
    (fields : List (String × LogValue)) (w : World) :
    ∃ log, (M.log enabled level message fields).exec w = (.ok (), { w with log }) := by
  unfold log
  split
  · exact ⟨_, rfl⟩
  · exact ⟨w.log, rfl⟩

theorem fixes_log {f : World → β} (hf : ∀ w log, f { w with log } = f w) (enabled : Bool)
    (level : LogLevel) (message : String) (fields : List (String × LogValue)) :
    Fixes f (log enabled level message fields) := by
  unfold log
  split
  · exact fixes_modify fun w => hf w _
  · exact (reads_pure _).fixes f

end M

/-! ## One entry of an array -/

section Arrays

variable {xs : Array α} {j : Nat} {a b : α} {f : α → α} {g : α → β}

theorem push_of_some (h : xs[i]? = some a) : (xs.push b)[i]? = some a := by
  obtain ⟨hlt, -⟩ := Array.getElem?_eq_some_iff.mp h
  rw [Array.getElem?_push, if_neg (Nat.ne_of_lt hlt)]
  exact h

theorem push_cases (h : (xs.push b)[i]? = some a) : xs[i]? = some a ∨ b = a := by
  rw [Array.getElem?_push] at h
  split at h
  · exact .inr (Option.some.inj h)
  · exact .inl h

theorem modify_self (h : xs[i]? = some a) : (xs.modify i f)[i]? = some (f a) :=
  (Array.getElem?_modify ..).trans ((if_pos rfl).trans (congrArg _ h))

theorem getElem?_modify_ne (h : i ≠ j) : (xs.modify j f)[i]? = xs[i]? :=
  (Array.getElem?_modify ..).trans (if_neg h.symm)

theorem modify_cases (h : (xs.modify j f)[i]? = some b) :
    (i = j ∧ ∃ a, xs[i]? = some a ∧ b = f a) ∨ i ≠ j ∧ xs[i]? = some b := by
  rw [Array.getElem?_modify] at h
  split at h
  case isTrue hj =>
    obtain ⟨a, ha, he⟩ := Option.map_eq_some_iff.mp h
    exact .inl ⟨hj.symm, a, ha, he.symm⟩
  case isFalse hj => exact .inr ⟨fun he => hj he.symm, h⟩

theorem modify_forth (hf : ∀ a, g (f a) = g a) (h : xs[i]? = some a) :
    ∃ a', (xs.modify j f)[i]? = some a' ∧ g a' = g a := by
  rw [Array.getElem?_modify, h]
  split
  · exact ⟨f a, rfl, hf a⟩
  · exact ⟨a, rfl, rfl⟩

theorem getElem?_modify_back (hf : ∀ a, g (f a) = g a) (h : (xs.modify j f)[i]? = some a) :
    ∃ a', xs[i]? = some a' ∧ g a = g a' := by
  rcases modify_cases h with ⟨-, a', ha', rfl⟩ | ⟨-, h⟩
  · exact ⟨a', ha', hf a'⟩
  · exact ⟨a, h, rfl⟩

/-- Every entry of an array is still there, and a part of it is as it was. -/
def Retains (g : α → β) (xs ys : Array α) : Prop :=
  ∀ (i : Nat) a, xs[i]? = some a → ∃ a', ys[i]? = some a' ∧ g a' = g a

theorem Retains.refl (g : α → β) (xs : Array α) : Retains g xs xs := fun _ a ha => ⟨a, ha, rfl⟩

theorem Retains.trans {ys zs : Array α} (h : Retains g xs ys) (h' : Retains g ys zs) : Retains g xs zs := by
  intro i a ha
  obtain ⟨a', ha', he⟩ := h i a ha
  obtain ⟨a'', ha'', he'⟩ := h' i a' ha'
  exact ⟨a'', ha'', he'.trans he⟩

theorem retains_push (g : α → β) (xs : Array α) (b : α) : Retains g xs (xs.push b) :=
  fun _ a ha => ⟨a, push_of_some ha, rfl⟩

theorem retains_modify (xs : Array α) (j : Nat) (hf : ∀ a, g (f a) = g a) : Retains g xs (xs.modify j f) :=
  fun _ _ ha => modify_forth hf ha

end Arrays

/-! ## One heap -/

def World.setHeap (w : World) (h : HeapId) (s : Heap) : World := { w with heaps := w.heaps.modify h fun _ => s }

namespace World

variable {k : HeapId} {xs : Array α}

theorem modify_eq_of_getElem? {a : α} (h : xs[i]? = some a) (f : α → α) :
    xs.modify i f = xs.modify i fun _ => f a := by
  refine Array.ext (by simp) fun j hj _ => ?_
  simp only [Array.getElem_modify]
  split
  · rename_i hij
    subst hij
    rw [(Array.getElem?_eq_some_iff.mp h).2]
  · rfl

theorem modify_eq_self_of_none (h : xs[i]? = none) (f : α → α) : xs.modify i f = xs := by
  refine Array.ext (by simp) fun j hj hj' => ?_
  have hi := Array.getElem?_eq_none_iff.mp h
  rw [Array.getElem_modify, if_neg (by omega)]

theorem modify_eq_self {a : α} {f : α → α} (ha : xs[i]? = some a) (he : f a = a) : xs.modify i f = xs := by
  refine Array.ext_getElem? fun j => ?_
  rw [Array.getElem?_modify]
  split
  case isTrue hj => rw [← hj, ha, Option.map_some, he]
  case isFalse => rfl

theorem books_setHeap (w : World) (h : HeapId) (s : Heap) :
    (w.setHeap h s).natives = w.natives ∧ (w.setHeap h s).shares = w.shares ∧
      (w.setHeap h s).records = w.records ∧ (w.setHeap h s).classes = w.classes ∧
      (w.setHeap h s).bridges = w.bridges := ⟨rfl, rfl, rfl, rfl, rfl⟩

theorem heaps_setHeap (hs : w.heaps[h]? = some s) (s' : Heap) (k : HeapId) :
    (w.setHeap h s').heaps[k]? = if k = h then some s' else w.heaps[k]? := by
  unfold setHeap
  rw [Array.getElem?_modify]
  by_cases hk : h = k
  · subst hk
    rw [if_pos rfl, if_pos rfl, hs, Option.map_some]
  · rw [if_neg hk, if_neg (Ne.symm hk)]

theorem get_setHeap (hs : w.heaps[h]? = some s) (s' : Heap) : (w.setHeap h s').heaps[h]? = some s' := by
  rw [heaps_setHeap hs, if_pos rfl]

theorem heaps_setHeap_cases {k : HeapId} {x : Heap} (hs : w.heaps[h]? = some s)
    (hx : (w.setHeap h s').heaps[k]? = some x) : k = h ∧ x = s' ∨ w.heaps[k]? = some x := by
  rw [heaps_setHeap hs] at hx
  split at hx
  case isTrue hk => exact .inl ⟨hk, (Option.some.inj hx).symm⟩
  case isFalse => exact .inr hx

theorem heaps_setHeap_rel {P : Heap → Heap → Prop} {k : HeapId} {x : Heap} (hrefl : ∀ x, P x x)
    (hs : w.heaps[h]? = some s) (hP : P s s') (hx : w.heaps[k]? = some x) :
    ∃ x', (w.setHeap h s').heaps[k]? = some x' ∧ P x x' := by
  by_cases hk : k = h
  · subst hk
    cases hs.symm.trans hx
    exact ⟨s', get_setHeap hs s', hP⟩
  · exact ⟨x, by rw [heaps_setHeap hs, if_neg hk]; exact hx, hrefl x⟩

theorem setHeap_self (hs : w.heaps[h]? = some s) : w.setHeap h s = w := by
  have he : (w.heaps.modify h fun _ => s) = w.heaps := by
    refine Array.ext (by simp) fun j hj hj' => ?_
    rw [Array.getElem_modify]
    split
    case isTrue hk =>
      subst hk
      exact (Option.mem_unique (Array.getElem?_eq_getElem hj') hs).symm
    case isFalse => rfl
  unfold setHeap
  rw [he]

theorem setHeap_setHeap (w : World) (h : HeapId) (s s' : Heap) : (w.setHeap h s).setHeap h s' = w.setHeap h s' := by
  unfold setHeap
  have he : (w.heaps.modify h fun _ => s).modify h (fun _ => s') = w.heaps.modify h fun _ => s' := by
    refine Array.ext (by simp) fun j hj _ => ?_
    simp only [Array.getElem_modify]
    split <;> rfl
  simp only [he]

theorem setHeap_logged (w : World) (h : HeapId) (s s' : Heap) (log : Array LogEntry) :
    ({ w.setHeap h s with log } : World).setHeap h s' = { w.setHeap h s' with log } :=
  congrArg (fun x => ({ x with log } : World)) (setHeap_setHeap w h s s')

end World

namespace M

theorem reads_heap (h : HeapId) : Reads (heap h) := reads_look fun w => w.heaps[h]?

theorem exec_heap (hs : w.heaps[h]? = some s) : (heap h).exec w = (.ok s, w) :=
  (exec_look_eq_ok (f := fun w => w.heaps[h]?)).mpr ⟨hs, rfl⟩

theorem exec_heap_none (hs : w.heaps[h]? = none) : (heap h).exec w = (.error (.crash .runtime), w) :=
  exec_look_none (f := fun w => w.heaps[h]?) hs

theorem exec_heap_eq_ok : (heap h).exec w = (.ok s, w') ↔ w.heaps[h]? = some s ∧ w' = w :=
  exec_look_eq_ok (f := fun w => w.heaps[h]?)

theorem exec_modifyHeap (hs : w.heaps[h]? = some s) (f : Heap → Heap) :
    (modifyHeap h f).exec w = (.ok (), w.setHeap h (f s)) := by
  show (_, ({ w with heaps := w.heaps.modify h f } : World)) = _
  rw [World.modify_eq_of_getElem? hs]
  rfl

theorem after_modifyHeap_none (hs : w.heaps[h]? = none) (f : Heap → Heap) : (modifyHeap h f).after w = w := by
  show ({ w with heaps := w.heaps.modify h f } : World) = w
  rw [World.modify_eq_self_of_none hs]

section

variable (hs : w.heaps[h]? = some s)
include hs

theorem exec_onHeap_ok {f : Heap → Except Stop (α × Heap)} {a : α} (hf : f s = .ok (a, s')) :
    (onHeap h f).exec w = (.ok a, w.setHeap h s') := by
  unfold onHeap
  rw [bind_ok (exec_heap hs)]
  simp only [hf]
  rfl

theorem exec_onHeap_error {f : Heap → Except Stop (α × Heap)} (hf : f s = .error e) :
    (onHeap h f).exec w = (.error e, w) := by
  unfold onHeap
  rw [bind_ok (exec_heap hs)]
  simp only [hf]
  rfl

theorem exec_changeHeap_ok (hf : f s = .ok s') : (changeHeap h f).exec w = (.ok (), w.setHeap h s') := by
  refine exec_onHeap_ok hs ?_
  rw [hf]
  rfl

theorem exec_changeHeap_error (hf : f s = .error e) : (changeHeap h f).exec w = (.error e, w) := by
  refine exec_onHeap_error hs ?_
  rw [hf]
  rfl

end

theorem after_changeHeap_none (hs : w.heaps[h]? = none) (f : Heap → Except Stop Heap) :
    (changeHeap h f).after w = w :=
  after_look_none (f := fun w => w.heaps[h]?) hs

theorem after_onHeap_cases (h : HeapId) (f : Heap → Except Stop (α × Heap)) (w : World) :
    (onHeap h f).after w = w ∨ ∃ s a s', w.heaps[h]? = some s ∧ f s = .ok (a, s') ∧
      (onHeap h f).after w = w.setHeap h s' := by
  cases hs : w.heaps[h]? with
  | none => exact .inl (after_look_none (f := fun w => w.heaps[h]?) hs)
  | some s =>
    cases hf : f s with
    | error e => exact .inl (after_eq (exec_onHeap_error hs hf))
    | ok r => exact .inr ⟨s, r.1, r.2, rfl, hf, after_eq (exec_onHeap_ok hs hf)⟩

theorem exec_onHeap_eq_ok {f : Heap → Except Stop (α × Heap)} {a : α} : (onHeap h f).exec w = (.ok a, w') ↔
      ∃ s s', w.heaps[h]? = some s ∧ f s = .ok (a, s') ∧ w' = w.setHeap h s' := by
  constructor
  · intro he
    obtain ⟨s, hs, -⟩ := look_bind_eq_ok he
    cases hf : f s with
    | error e =>
      rw [exec_onHeap_error hs hf] at he
      simpa using congrArg Prod.fst he
    | ok r =>
      obtain ⟨a', s'⟩ := r
      rw [exec_onHeap_ok hs hf] at he
      obtain ⟨ha, rfl⟩ := Prod.mk.inj he
      cases ha
      exact ⟨s, s', hs, hf, rfl⟩
  · rintro ⟨s, s', hs, hf, rfl⟩
    exact exec_onHeap_ok hs hf

theorem map_unit_eq_ok {x : Except Stop Heap} {u : Unit} : (x.map fun s => ((), s)) = .ok (u, s') ↔ x = .ok s' := by
  cases x <;> simp [Except.map]

theorem exec_changeHeap_eq_ok {u : Unit} : (changeHeap h f).exec w = (.ok u, w') ↔
      ∃ s s', w.heaps[h]? = some s ∧ f s = .ok s' ∧ w' = w.setHeap h s' := by
  unfold changeHeap
  simp only [exec_onHeap_eq_ok, map_unit_eq_ok]

theorem exec_readHeap (hs : w.heaps[h]? = some s) (f : Heap → Except Stop α) : (readHeap h f).exec w = (f s, w) := by
  unfold readHeap
  rw [bind_ok (exec_heap hs)]
  cases f s <;> rfl

theorem reads_readHeap (h : HeapId) (f : Heap → Except Stop α) : Reads (readHeap h f) := by
  refine Reads.bind (reads_heap h) fun s => ?_
  cases f s <;> exact fun _ => rfl

theorem exec_readHeap_eq_ok {f : Heap → Except Stop α} {a : α} :
    (readHeap h f).exec w = (.ok a, w') ↔ ∃ s, w.heaps[h]? = some s ∧ f s = .ok a ∧ w' = w := by
  constructor
  · intro he
    obtain ⟨s, hs, -⟩ := look_bind_eq_ok he
    rw [exec_readHeap hs] at he
    obtain ⟨hf, rfl⟩ := Prod.mk.inj he
    exact ⟨s, hs, hf, rfl⟩
  · rintro ⟨s, hs, hf, rfl⟩
    rw [exec_readHeap hs, hf]

end M

end Tether
