import Tether.Proofs.Dispatch
import Tether.Proofs.Reflection

/-!
# What options tell apart

An option of an option has an empty pointer at each level, and scripts have one null for all of them.
-/

namespace Tether

open M Bridge Regime

variable {type t : NativeType} {wit : WitType} {c elem e : Codec} {name : String} {b : BridgeId} {w w' : World}
  {s : Heap} {i : Int} {path : List String} {x : NativeValue} {br : Bridge}

/-! ## Values of nested options -/

theorem NativeType.sizeOf_underlying_le : ∀ type : NativeType, sizeOf type.underlying ≤ sizeOf type
  | .named _ t => (sizeOf_underlying_le t).trans (by simp)
  | .bool | .string | .int _ | .float32 | .float64 | .complex128 | .interface _ | .body _ | .slice _ | .pointer _
  | .array _ _ | .map _ _ | .func _ _ _ | .struct _ => Nat.le_refl _

theorem NativeType.target?_ne (h : type.target? = some t) : t ≠ type := by
  rintro rfl
  have hle := sizeOf_underlying_le t
  rw [(target?_eq_some _).mp h] at hle
  simp at hle

namespace Codec

/-- An option either points to what it may hold, or is that of a handle, which holds no option. -/
theorem Typed.option_cases (h : Typed wit type c) : ∀ {elem}, c.shape = .option elem →
    (∃ wit' target, type.target? = some target ∧ Typed wit' target elem) ∨
      type.Has .nil ∧ ∀ e, elem.shape ≠ .option e := by
  induction h using Typed.rec (motive_2 := fun _ _ _ _ => True) with
  | @prim p type shape hcrosses =>
    generalize type.underlying = t at hcrosses
    cases hcrosses <;> exact nofun
  | option htarget hc _ =>
    rintro _ ⟨⟩
    exact .inl ⟨_, _, htarget, hc⟩
  | @handle _ _ wit type c hown hc _ =>
    unfold WitType.isOwn at hown
    split at hown <;> cases hown <;> cases hc
    rename_i hobject _
    rintro _ ⟨⟩
    refine .inr ⟨?_, nofun⟩
    unfold NativeType.satisfies at hobject
    simp only at hobject
    split at hobject <;> first | exact .inl rfl | cases hobject
  | renamed _ ih => exact ih
  | _ => first | trivial | exact nofun

theorem Typed.has_nil (h : Typed wit type c) {elem} (helem : c.shape = .option elem) : type.Has .nil := by
  rcases h.option_cases helem with ⟨_, target, htarget, -⟩ | ⟨hnil, -⟩
  · rw [← NativeType.has_underlying, (NativeType.target?_eq_some _).mp htarget]
    cases target <;> exact .inl rfl
  · exact hnil

theorem Typed.has_some_nil (h : Typed wit type c) {elem e} (helem : c.shape = .option elem)
    (he : elem.shape = .option e) : type.Has (.some .nil) ∧ c.absent (.some .nil) = true := by
  obtain ⟨_, target, htarget, hc⟩ := (h.option_cases helem).resolve_right fun hnot => hnot.2 e he
  constructor
  · have hnil := hc.has_nil he
    rw [← NativeType.has_underlying, (NativeType.target?_eq_some _).mp htarget]
    cases target <;> first | exact .inr ⟨_, rfl, hnil⟩ | cases hnil
  · have htype := h.type_eq
    obtain ⟨type', name, shape⟩ := c
    cases helem
    cases htype
    rw [absent_option (by simp), if_neg (hc.type_eq ▸ NativeType.target?_ne htarget)]
    obtain ⟨type', name', shape'⟩ := elem
    cases he
    rfl

end Codec

/-! ## Reading -/

namespace Bridge

theorem requireValue_ne_nil (hb : w.bridges[b]? = some br) (hs : w.heaps[br.heapId]? = some s)
    (hpresent : s.isNullish i = false) : ∀ codec {path x w'},
    (requireValue b codec i path).exec w = (.ok x, w') → x ≠ .nil
  | .mk type name shape, path, x, w', he => by
    rw [requireValue] at he
    obtain ⟨br', hbr', he⟩ := (reads_bridge b).bind_eq_ok he
    cases hb.symm.trans (exec_bridge_eq_ok.mp hbr').1
    cases shape with
    | option elem =>
      rw [requireShape] at he
      obtain ⟨s', hs', he⟩ := (reads_heap _).bind_eq_ok he
      cases hs.symm.trans (exec_heap_eq_ok.mp hs').1
      simp only [hpresent, Bool.false_eq_true, if_false] at he
      obtain ⟨v, w1, hv, he⟩ := bind_ok_iff.mp he
      split at he
      · cases he
        exact requireValue_ne_nil hb hs hpresent elem hv
      · obtain ⟨v', w2, hpointer, he⟩ := bind_ok_iff.mp he
        have hv' : v' ≠ .nil := by
          unfold pointerTo at hpointer
          split at hpointer <;> cases hpointer <;> simp
        obtain ⟨hx, -⟩ := exec_need_eq_ok.mp he
        split at hx
        · exact Option.some.inj hx ▸ hv'
        · cases hx
    | own resource =>
      rw [requireShape] at he
      obtain ⟨c, w1, -, he⟩ := bind_ok_iff.mp he
      obtain ⟨r, w2, -, he⟩ := bind_ok_iff.mp he
      cases r with
      | error f => cases he
      | ok o =>
        obtain ⟨n, -, he⟩ := look_bind_eq_ok he
        simp only at he
        split at he <;> cases he
        simp
    | _ => exact (bare_requireShape (by simp) (by simp) i path _ _ _ he).1

theorem exec_requireValue_null (hb : w.bridges[b]? = some br) (hs : w.heaps[br.heapId]? = some s)
    (hnull : s.isNullish i = true) (path : List String) :
    (requireValue b (.mk type name (.option elem)) i path).exec w = (.ok .nil, w) := by
  rw [exec_requireValue i path hb, requireShape, bind_ok (exec_heap hs), if_pos hnull]
  rfl

end Bridge

/-- **What options lose.** Take any option that compiling accepts. If it is not an option of an option, nothing is
there exactly in the empty pointer; otherwise nothing is there in a pointer to an empty one either, which is a
value of the type. A pointer to a value is pushed as that value is. Wherever the option is pushed in a run, by an
operation that leaves the heap open and whose new wrappers refuse nothing, it is pushed as null exactly if nothing
is there; null is read back as the empty pointer, and nothing else is. -/
theorem options_collapse {wit : WitType} {type : NativeType} {name : String} {elem : Codec}
    (hc : Codec.compile wit (some type) = .ok (.mk type name (.option elem))) :
    ((∀ e, elem.shape ≠ .option e) → ∀ v, (Codec.mk type name (.option elem)).absent v = true ↔ v = .nil) ∧
    (∀ e, elem.shape = .option e →
      type.Has (.some .nil) ∧ (Codec.mk type name (.option elem)).absent (.some .nil) = true) ∧
    (∀ host b h path v, elem.type ≠ type →
      pushShape host b h type name (.option elem) (.some v) path = pushValue host b elem v path) ∧
    ∀ (n : Nat) (w w' : World) (b : BridgeId) (h : HeapId) (s : Heap) (v : NativeValue) (path : List String),
      w.Chronicled → w.Based b h → w.heaps[h]? = some s →
      (pushValue (hostAt n) b (.mk type name (.option elem)) v path).exec w = (.ok (), w') →
      (∀ s', w'.heaps[h]? = some s' → s'.closed = false) → w'.breaches.counts = false →
      w'.breaches.refusals = w.breaches.refusals →
      ∃ u s', w'.heaps[h]? = some s' ∧ s'.stack = s.stack.push u ∧
        (u = .null ↔ (Codec.mk type name (.option elem)).absent v = true) ∧
        (u = .null → ∀ path, (requireValue b (.mk type name (.option elem)) (-1) path).exec w' = (.ok .nil, w')) ∧
        (u ≠ .null → ∀ path x w'',
          (requireValue b (.mk type name (.option elem)) (-1) path).exec w' = (.ok x, w'') → x ≠ .nil) := by
  have htyped : Codec.Typed wit type (.mk type name (.option elem)) := by
    unfold Codec.compile at hc
    simp only at hc
    split at hc
    · cases hc
    · exact Codec.typed_compileAt hc
  refine ⟨fun helem v => ?_, fun e he => htyped.has_some_nil rfl he, fun host b h path v hne => ?_, ?_⟩
  · refine ⟨fun habsent => Classical.byContradiction fun hv => ?_, fun hv => hv ▸ rfl⟩
    rw [Codec.absent_option hv] at habsent
    have hpresent := Codec.absent_eq_false helem
    split at habsent
    · simp [hpresent] at habsent
    · split at habsent <;> simp [hpresent] at habsent
  · rw [pushShape_option (by simp), if_neg hne]
  · intro n w w' b h s v path hw hb hs he hopen hcounts hrefusals
    have hbot : s.bottom ≤ s.stack.size := (hw.heaps h s hs).bottom_le
    have hF : (standing b h w.breaches.refusals).holds w := ⟨hb, Nat.le_refl _⟩
    have hends := ends_pushValue (n := n) hbot (F := standing b h w.breaches.refusals) .rfl
      (.mk type name (.option elem)) v path True []
    obtain ⟨u, hshows, -, s', hs', htop⟩ := hends.ok hw hF ⟨trivial, s, hs, Heap.tops_self s⟩ he
      ⟨hcounts, Nat.le_of_eq hrefusals, hopen⟩
    have hgood := hends.keeps w hw hF
    rw [after_eq he] at hgood
    obtain ⟨⟨br, hbr, rfl⟩, -⟩ := (standing b h w.breaches.refusals).stable hgood.2 hF
    have hvalue : s'.value? (-1) = some u := htop.value?_neg hbot (k := 1) rfl
    refine ⟨u, s', hs', by simpa using htop.stack, hshows.1, fun hu path => ?_, fun hu path x w'' => ?_⟩
    · exact exec_requireValue_null hbr hs' (by simp [Heap.isNullish, hvalue, hu]) path
    · refine requireValue_ne_nil hbr hs' ?_ _
      have hundefined := hshows.2
      unfold Heap.isNullish
      rw [hvalue]
      cases u <;> simp_all

def nestedOption : Codec :=
  .mk (.pointer (.pointer .string)) "option<option<string>>"
    (.option (.mk (.pointer .string) "option<string>" (.option (.mk .string "string" .string))))

/-- A pointer to an empty pointer is pushed as null, and comes back empty. -/
theorem options_collapse_nested : ∃ (wit : WitType) (w' : World) (s s' : Heap),
    Codec.compile wit (some (.pointer (.pointer .string))) = .ok nestedOption ∧
    (NativeType.pointer (.pointer .string)).Has (.some .nil) ∧
    (pushValue (hostAt 2) 0 nestedOption (.some .nil) []).exec (aboutToWrap.world 2 false) = (.ok (), w') ∧
    (aboutToWrap.world 2 false).heaps[0]? = some s ∧ w'.heaps[0]? = some s' ∧
    s'.stack = s.stack.push .null ∧ (requireValue 0 nestedOption (-1) []).exec w' = (.ok .nil, w') := by
  obtain ⟨br, hbr, hid, s, hs, -, hrefusals⟩ := aboutToWrap_parts
  have hend : (fun r : Except Stop Unit × World => r.1 = .ok () ∧ (∃ s, r.2.heaps[0]? = some s ∧ s.closed = false) ∧
    r.2.breaches.counts = false ∧ r.2.breaches.refusals = 0)
    ((pushValue (hostAt 2) 0 nestedOption (.some .nil) []).exec (aboutToWrap.world 2 false)) := by decide +kernel
  have hw := chronicled_world aboutToWrap 2 false
  generalize aboutToWrap.world 2 false = w at *
  generalize hexec : (pushValue (hostAt 2) 0 nestedOption (.some .nil) []).exec w = res at *
  obtain ⟨_, w'⟩ := res
  obtain ⟨rfl, ⟨s', hs', hopen⟩, hcounts, hrefusals'⟩ := hend
  have hc : Codec.compile (.defined (.mk 1 none (.option (.defined (.mk 0 none (.option (.prim .string)))))))
      (some (.pointer (.pointer .string))) = .ok nestedOption := rfl
  obtain ⟨-, hempty, -, hrun⟩ := options_collapse hc
  obtain ⟨hhas, habsent⟩ := hempty _ rfl
  obtain ⟨u, t, ht, hstack, hnull, hback, -⟩ := hrun 2 w w' 0 0 s (.some .nil) [] hw ⟨br, hbr, hid⟩ hs hexec
    (fun t ht => Option.some.inj (hs'.symm.trans ht) ▸ hopen) hcounts (hrefusals'.trans hrefusals.symm)
  obtain rfl := hnull.mpr habsent
  exact ⟨_, w', s, t, hc, hhas, rfl, hs, ht, hstack, hback rfl []⟩

end Tether
