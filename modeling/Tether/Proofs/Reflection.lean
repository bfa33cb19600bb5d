import Tether.Bridge.Marshal
import Tether.Native.Form
import Tether.Proofs.Codecs

/-!
# Codecs and the values of their types

Moving a value looks at how the value is made and takes it apart as the codec says. A value that is made in
another way than its codec expects is a crash.
-/

namespace Tether

variable {host : Host} {b : BridgeId}

mutual

/-- A value is made as those of a native type are. A handle is a native object or nothing. -/
def NativeType.Has : NativeType → NativeValue → Prop
  | .bool, v => ∃ x, v = .bool x
  | .string, v => ∃ s, v = .text s
  | .int _, v => ∃ i, v = .int i
  | .float32, v | .float64, v | .complex128, v => ∃ x, v = .float x
  | .interface .any, _ => True
  | .interface .error, v => v = .nil ∨ ∃ f, v = .fault f
  | .interface _, v | .pointer (.body _), v => v = .nil ∨ ∃ o, v = .object o
  | .body _, v => v = .struct [.struct []]
  | .named _ type, v => type.Has v
  | .slice elem, v => v = .nil ∨
    if elem.intType? = some .uint8 then ∃ s, v = .bytes s else ∃ vs, v = .list vs ∧ ∀ x ∈ vs, elem.Has x
  | .pointer target, v => v = .nil ∨ ∃ x, v = .some x ∧ target.Has x
  | .array size elem, v => ∃ vs, v = .list vs ∧ vs.length = size ∧ ∀ x ∈ vs, elem.Has x
  | .map _ _, v | .func _ _ _, v => v = .nil
  | .struct fields, v => ∃ vs, v = .struct vs ∧ fields.Have vs

def NativeFields.Have : NativeFields → List NativeValue → Prop
  | .nil, vs => vs = []
  | .cons _ type _ _ rest, vs => ∃ v us, vs = v :: us ∧ type.Has v ∧ rest.Have us

end

variable {type elem : NativeType} {v : NativeValue} {c : Codec} {wit : WitType} {path : List String} {k : Crash}

theorem NativeType.has_underlying : ∀ {type : NativeType}, type.underlying.Has v ↔ type.Has v
  | .named _ t => (show t.underlying.Has v ↔ t.Has v from has_underlying).trans (by simp only [NativeType.Has])
  | .bool | .string | .int _ | .float32 | .float64 | .complex128 | .interface _ | .body _ | .slice _ | .pointer _
  | .array _ _ | .map _ _ | .func _ _ _ | .struct _ => .rfl

theorem NativeFields.Have.get : ∀ {fields : NativeFields} {vs : List NativeValue}, fields.Have vs →
    ∀ {i : Nat} {f : NativeField}, fields.toList[i]? = some f → ∃ x, vs[i]? = some x ∧ f.type.Has x
  | .nil, _, _, _, _, hf => nomatch hf
  | .cons .., _, ⟨v, us, rfl, hv, hus⟩, 0, f, hf => ⟨v, rfl, Option.some.inj hf ▸ hv⟩
  | .cons .., _, ⟨v, us, rfl, hv, hus⟩, i + 1, f, hf => hus.get (i := i) (by simpa [NativeFields.toList] using hf)

theorem NativeType.Has.fields {natives : List NativeField} (hv : type.Has v) (hf : type.fields? = some natives) :
    ∃ vs, v = .struct vs ∧ ∀ {i : Nat} {f : NativeField}, natives[i]? = some f → ∃ x, vs[i]? = some x ∧ f.type.Has x := by
  have hu := NativeType.has_underlying.mpr hv
  unfold NativeType.fields? at hf
  split at hf
  · rename_i fields heq
    rw [heq] at hu
    obtain ⟨vs, rfl, hvs⟩ := hu
    cases hf
    exact ⟨vs, rfl, hvs.get⟩
  · rename_i sort heq
    rw [heq] at hu
    cases hu
    cases hf
    refine ⟨_, rfl, fun {i f} hi => ?_⟩
    cases i with
    | zero =>
      cases hi
      exact ⟨_, rfl, _, rfl, rfl⟩
    | succ i => simp at hi
  · cases hf

theorem NativeType.Has.slice (hv : type.Has v) (hs : type.sliceElem? = some elem) : (NativeType.slice elem).Has v := by
  rwa [← NativeType.has_underlying, type.sliceElem?_eq_some.mp hs] at hv

theorem NativeType.Has.target {t : NativeType} (hv : type.Has v) (ht : type.target? = some t) :
    v = .nil ∨ (∃ x, v = .some x ∧ t.Has x) ∨ ∃ sort o, t = .body sort ∧ v = .object o := by
  rw [← NativeType.has_underlying, type.target?_eq_some.mp ht] at hv
  cases t with
  | body sort => exact hv.imp_right fun ⟨o, ho⟩ => .inr ⟨sort, o, rfl, ho⟩
  | _ => exact hv.imp_right fun hx => .inl hx

theorem NativeType.has_of_intType? {i : IntType} (hk : type.intType? = some i) : type.Has v ↔ ∃ i, v = .int i := by
  rw [← NativeType.has_underlying, type.intType?_eq_some.mp hk, NativeType.Has]

namespace Bridge

open M

variable {h : HeapId} {obj : Int}

/-! ## Pushing -/

theorem pushElements_congr {f g : NativeValue → Nat → M Unit} {vs : List NativeValue}
    (hfg : ∀ v ∈ vs, ∀ i, f v i = g v i) (i : Nat) : pushElements h obj f i vs = pushElements h obj g i vs := by
  induction vs generalizing i with
  | nil => rfl
  | cons v rest ih =>
    simp only [pushElements, hfg v List.mem_cons_self]
    rw [ih fun x hx => hfg x (List.mem_cons_of_mem v hx)]

theorem sliceElements_bind_congr {α : Type} {f g : List NativeValue → M α} (hv : (NativeType.slice elem).Has v)
    (hfg : ∀ vs, (∀ x ∈ vs, elem.Has x) → f vs = g vs) : sliceElements v k >>= f = sliceElements v >>= g := by
  rcases hv with rfl | hv
  · exact hfg [] (by simp)
  split at hv
  · rename_i hbyte
    obtain ⟨s, rfl⟩ := hv
    simp only [sliceElements, bind_assoc, pure_bind]
    refine bind_congr fun w => hfg _ fun x hx => ?_
    obtain ⟨byte, -, rfl⟩ := List.mem_map.mp hx
    exact (NativeType.has_of_intType? hbyte).mpr ⟨_, rfl⟩
  · obtain ⟨vs, rfl, hvs⟩ := hv
    exact hfg vs hvs

theorem pushValue_congr {name : String} {shape : CodecShape}
    (hshape : ∀ h, pushShape host b h type name shape v path k = pushShape host b h type name shape v path) :
    pushValue host b (.mk type name shape) v path k = pushValue host b (.mk type name shape) v path := by
  simp only [pushValue, hshape]

theorem pushShape_option {name : String} (hv : v ≠ .nil) : pushShape host b h type name (.option c) v path k =
      if c.type = type then pushValue host b c v path k
      else match v with
        | .some v => pushValue host b c v path k
        | .object _ => pushValue host b c c.type.zero path k
        | _ => crash k := by
  cases v <;> first | exact absurd rfl hv | rfl

end Bridge

namespace Codec

open Bridge

/-- **Pushing takes values as they are.** A value that is made as those of the native type are meets what its
codec expects, at every place. -/
theorem Typed.pushValue_eq (hc : Typed wit type c) : ∀ {v}, type.Has v → ∀ path,
    pushValue host b c v path k = pushValue host b c v path := by
  -- Over the derivation: an alias has the codec of the type that it names.
  induction hc using Typed.rec (motive_2 := fun natives _ cs _ => ∀ {vs : List NativeValue},
    (∀ {i : Nat} {f : NativeField}, natives[i]? = some f → ∃ x, vs[i]? = some x ∧ f.type.Has x) →
    ∀ h obj path, pushFields host b h obj cs vs path k = pushFields host b h obj cs vs path) with
  | @prim p type shape hcrosses =>
    intro v hv path
    refine pushValue_congr fun h => ?_
    have hregular := (Typed.prim hcrosses).regular
    have hu := NativeType.has_underlying.mpr hv
    generalize type.underlying = t at hcrosses hu
    cases hcrosses with
    | bool | string | f32 | f64 =>
      obtain ⟨x, rfl⟩ := hu
      rfl
    | u8 | s8 | u16 | s16 | u32 | s32 | u64 | s64 =>
      obtain ⟨x, rfl⟩ := hu
      -- The sign of the native type is the one that the codec reads by.
      obtain ⟨k, hallowed, hk⟩ := hregular
      rw [pushShape, pushShape, if_pos (NativeType.hasSign_of_allowed hk hallowed),
        if_pos (NativeType.hasSign_of_allowed hk hallowed)]
  | record hnatives _ ih =>
    intro v hv path
    obtain ⟨vs, rfl, hvs⟩ := hv.fields hnatives
    exact pushValue_congr fun h => by simp only [pushShape, ih hvs]
  | enum hk _ _ =>
    intro v hv path
    obtain ⟨i, rfl⟩ := (NativeType.has_of_intType? hk).mp hv
    rfl
  | bytes hs hbyte =>
    intro v hv path
    rcases hv.slice hs with rfl | hv
    · rfl
    · rw [if_pos hbyte] at hv
      obtain ⟨s, rfl⟩ := hv
      rfl
  | list hs _ ih =>
    intro v hv path
    refine pushValue_congr fun h => ?_
    rw [pushShape, pushShape]
    refine bind_congr fun _ => bind_congr fun obj => sliceElements_bind_congr (hv.slice hs) fun vs hvs => ?_
    rw [pushElements_congr fun x hx i => ih (hvs x hx) (elementPath path i)]
  | @option id name wit type target c htarget hc ih =>
    intro v hv path
    refine pushValue_congr fun h => ?_
    by_cases hnil : v = .nil
    · subst hnil
      rfl
    rw [pushShape_option hnil, pushShape_option hnil]
    split
    · rename_i heq
      exact ih (hc.type_eq.symm.trans heq ▸ hv) path
    · rcases hv.target htarget with rfl | ⟨x, rfl, hx⟩ | ⟨sort, o, rfl, rfl⟩
      · exact absurd rfl hnil
      · exact ih hx path
      · rw [hc.type_eq]
        exact ih rfl path
  | handle _ hc ih =>
    intro v hv path
    refine pushValue_congr fun h => ?_
    by_cases hnil : v = .nil
    · subst hnil
      rfl
    · rw [pushShape_option hnil, pushShape_option hnil, if_pos hc.type_eq, if_pos hc.type_eq, ih hv]
  | own hobject =>
    intro v hv path
    unfold NativeType.satisfies at hobject
    simp only at hobject
    split at hobject
    · rcases hv with rfl | ⟨o, rfl⟩ <;> rfl
    · rcases hv with rfl | ⟨o, rfl⟩ <;> rfl
    · rcases hv with rfl | ⟨o, rfl⟩ <;> rfl
    · cases hobject
  | renamed _ ih => exact ih
  | nil => rfl
  | cons hat _ _ _ ihc ihcs =>
    rename_i vs hvs h obj path
    obtain ⟨x, hx, hhas⟩ := hvs hat
    simp only [pushFields, M.need, hx, pure_bind, ihc hhas, ihcs hvs]

/-! ## Reading -/

mutual

theorem Regular.requireValue_eq : ∀ {c : Codec}, c.Regular → ∀ i path,
    requireValue b c i path k = requireValue b c i path
  | .mk type name shape, hc, i, path => by
    rw [requireValue, requireValue]
    exact bind_congr fun br => requireShape_eq br.heapId type name hc i path

theorem requireShape_eq (h : HeapId) (type : NativeType) (name : String) : ∀ {shape : CodecShape},
    shape.Regular type → ∀ i path,
    requireShape b h type name shape i path k = requireShape b h type name shape i path
  | .bool, hc, i, path | .string, hc, i, path => by
    have hu : type.underlying = _ := hc
    simp only [requireShape, NativeType.stored?, hu, M.need]
  | .float _, hc, i, path => by
    rcases hc with hu | hu <;> simp only [requireShape, NativeType.stored?, hu, M.need]
  | .int _ _, hc, i, path => by
    obtain ⟨k, hallowed, hk⟩ := hc
    simp only [requireShape, NativeType.hasSign_of_allowed hk hallowed, if_true, NativeType.stored?_int hk, M.need]
  | .enum _, hc, i, path => by
    obtain ⟨-, k, hk⟩ := hc
    simp only [requireShape, NativeType.stored?_int hk, M.need]
  | .bytes, hc, i, path => by
    obtain ⟨elem, hs, hbyte⟩ := hc
    simp only [requireShape, NativeType.stored?_bytes hs hbyte, M.need]
  | .own _, _, _, _ => by rw [requireShape, requireShape]
  | .record fields, hc, i, path => by
    obtain ⟨vs, hvs⟩ := zero_of_fields? hc.1
    simp only [requireShape, hvs, requireFields_eq h _ type hc.2]
  | .list elem, hc, i, path => by
    simp only [requireShape, hc.1, M.need, pure_bind, assign_eq (NativeType.assignableTo_self _),
      Regular.requireValue_eq hc.2]
  | .option elem, hc, i, path => by
    simp only [requireShape, Regular.requireValue_eq hc.2]
    refine bind_congr fun s => ?_
    split
    · rfl
    refine bind_congr fun v => ?_
    split
    · rfl
    · rename_i hne
      simp only [assign_eq (NativeType.assignableTo_of_target? (hc.1.resolve_left hne))]

theorem requireFields_eq (h : HeapId) (obj : Int) (type : NativeType) : ∀ {fields : CodecFields},
    fields.Regular type → ∀ vs path,
    requireFields b h obj type fields vs path k = requireFields b h obj type fields vs path
  | .nil, _, _, _ => by rw [requireFields, requireFields]
  | .cons _ _ _ codec rest, hc, vs, path => by
    simp only [requireFields, hc.1, M.need, pure_bind, assign_eq (NativeType.assignableTo_self _),
      Regular.requireValue_eq hc.2.1, requireFields_eq h obj type hc.2.2]

end

/-- An integer without sign is not what a codec of signed ones reads. -/
example (h : HeapId) : pushShape host b h (.int .uint8) "s8" (.int 8 true) (.int 0) path k = M.crash k := rfl

end Codec

open Bridge in
/-- **Compiled codecs are typed.** Take any interface type and any native type, and let no option meet an
interface in them. Compiling them does not crash, and what it gives is typed at every place. Pushing a value of
the native type then does the same whatever a value of another kind would crash with, and so does reading any
script value: neither comes to a place where a value or a type is not of the kind that the codec expects. -/
theorem compiled_codecs_typed (wit : WitType) (type : NativeType) (hclear : wit.blocked type = false) :
    (∃ f, Codec.compile wit (some type) = .error (.fault f)) ∨
    ∃ codec, Codec.compile wit (some type) = .ok codec ∧ codec.Typed wit type ∧
      ∀ (host : Host) (b : BridgeId) (path : List String) (mistyped : Crash),
        (∀ v, type.Has v → pushValue host b codec v path mistyped = pushValue host b codec v path) ∧
        ∀ i, requireValue b codec i path mistyped = requireValue b codec i path := by
  have hcompiles := Codec.compiles_compileAt wit type []
  unfold Codec.compile
  simp only
  split
  · exact .inl ⟨_, rfl⟩
  generalize Codec.compileAt wit type [] = r at hcompiles
  cases hcompiles with
  | fault f => exact .inl ⟨f, rfl⟩
  | crash c hblocked => exact absurd hblocked (by simp [hclear])
  | ok htyped =>
    exact .inr ⟨_, rfl, htyped, fun host b path k => ⟨fun v hv => htyped.pushValue_eq hv path, fun i =>
      htyped.regular.requireValue_eq i path⟩⟩

/-- A structure with a list of structures, an option, bytes and a case. -/
theorem compiled_codecs_typed_shape :
    let vec : WitType := .defined (.mk 0 none (.record (.ofList [("z", .prim .f64), ("x", .prim .f64)])))
    let wit : WitType := .defined (.mk 1 (some "shape") (.record (.ofList
      [("tag", .defined (.mk 2 none (.option (.prim .string)))), ("points", .defined (.mk 3 none (.list vec))),
        ("data", .defined (.mk 4 none (.list (.prim .u8)))), ("mode", .defined (.mk 5 none (.enum ["on"])))])))
    let v : NativeValue := .struct [.nil, .some (.text "tag"), .nil, .int 0]
    ∃ codec, Codec.compile wit (some .shape) = .ok codec ∧ codec.Typed wit .shape ∧ NativeType.shape.Has v ∧
      ∀ host b path mistyped,
        Bridge.pushValue host b codec v path mistyped = Bridge.pushValue host b codec v path := by
  intro vec wit v
  have hok : (Codec.compile wit (some .shape)).isOk = true := by decide +kernel
  rcases compiled_codecs_typed wit .shape (by decide +kernel) with ⟨f, hf⟩ | ⟨codec, hc, htyped, hmoves⟩
  · rw [hf] at hok
    cases hok
  · have hv : NativeType.shape.Has v := ⟨_, rfl, _, _, rfl, .inl rfl, _, _, rfl, .inr ⟨_, rfl, _, rfl⟩, _, _, rfl,
      .inl rfl, _, _, rfl, ⟨_, rfl⟩, rfl⟩
    exact ⟨codec, hc, htyped, hv, fun host b path k => (hmoves host b path k).1 v hv⟩

end Tether
