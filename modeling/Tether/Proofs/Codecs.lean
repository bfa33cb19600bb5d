import Tether.Bridge.Marshal
import Tether.Proofs.Computation
import Tether.Proofs.Fields

/-!
# What compiling promises

Codecs are compiled from an interface type and a native type. However the types are nested, a codec follows
them both at every place.
-/

namespace Tether

/-- The kinds of native types that a primitive type crosses to, with the width and the sign of its numbers.
A machine integer may stand for one of 32 or of 64 bits. -/
inductive WitPrim.Crosses : WitPrim → NativeType → CodecShape → Prop
  | bool : Crosses .bool .bool .bool
  | string : Crosses .string .string .string
  | f32 : Crosses .f32 .float32 (.float 32)
  | f64 : Crosses .f64 .float64 (.float 64)
  | u8 : Crosses .u8 (.int .uint8) (.int 8 false)
  | s8 : Crosses .s8 (.int .int8) (.int 8 true)
  | u16 : Crosses .u16 (.int .uint16) (.int 16 false)
  | s16 : Crosses .s16 (.int .int16) (.int 16 true)
  | u32 {k} : k = .uint32 ∨ k = .uint → Crosses .u32 (.int k) (.int 32 false)
  | s32 {k} : k = .int32 ∨ k = .int → Crosses .s32 (.int k) (.int 32 true)
  | u64 {k} : k = .uint64 ∨ k = .uint → Crosses .u64 (.int k) (.int 64 false)
  | s64 {k} : k = .int64 ∨ k = .int → Crosses .s64 (.int k) (.int 64 true)

mutual

/-- A codec between an interface type and a native type: at every place the kind, the width and the sign are
those of the interface type, and the native type is the one at that place. -/
inductive Codec.Typed : WitType → NativeType → Codec → Prop
  | prim {p type shape} : p.Crosses type.underlying shape → Codec.Typed (.prim p) type (.mk type p.text shape)
  | record {id name fields type natives cs} : type.fields? = some natives → cs.Typed natives fields →
      Codec.Typed (.defined (.mk id name (.record fields))) type (.mk type (name.getD "typedef") (.record cs))
  | enum {id name cases type k} : type.intType? = some k → k ≠ .uintptr → cases ≠ [] →
      Codec.Typed (.defined (.mk id name (.enum cases))) type (.mk type (name.getD "typedef") (.enum cases))
  | bytes {id name type elem} : type.sliceElem? = some elem → elem.intType? = some .uint8 →
      Codec.Typed (.defined (.mk id name (.list (.prim .u8)))) type (.mk type "list<u8>" .bytes)
  | list {id name wit type elem c} : type.sliceElem? = some elem → Codec.Typed wit elem c →
      Codec.Typed (.defined (.mk id name (.list wit))) type (.mk type ("list<" ++ c.name ++ ">") (.list c))
  | option {id name wit type target c} : type.target? = some target → Codec.Typed wit target c →
      Codec.Typed (.defined (.mk id name (.option wit))) type (.mk type ("option<" ++ c.name ++ ">") (.option c))
  /-- An option of a handle is the handle or nothing. -/
  | handle {id name wit type c} : wit.isOwn = true → Codec.Typed wit type c →
      Codec.Typed (.defined (.mk id name (.option wit))) type (.mk type ("option<" ++ c.name ++ ">") (.option c))
  | own {id name resource type} : type.satisfies .object = true →
      Codec.Typed (.defined (.mk id name (.own resource))) type
        (.mk type ("own<" ++ WitType.textOfDef resource ++ ">") (.own resource))
  | renamed {id name wit type c} : Codec.Typed wit type c → Codec.Typed (.defined (.mk id name (.alias wit))) type c

/-- The fields of a record, in the order of their declaration, each with an exported field of a structure. -/
inductive CodecFields.Typed : List NativeField → WitFields → CodecFields → Prop
  | nil {natives} : CodecFields.Typed natives .nil .nil
  | cons {natives name wit rest index field c cs} : natives[index]? = some field → field.exported = true →
      Codec.Typed wit field.type c → CodecFields.Typed natives rest cs →
      CodecFields.Typed natives (.cons name wit rest) (.cons name field.name index c cs)

end

mutual

def WitType.blocked : WitType → NativeType → Bool
  | .defined d, type => d.blocked type
  | _, _ => false

def WitDef.blocked : WitDef → NativeType → Bool
  | .mk _ _ kind, type => kind.blocked type

def WitKind.blocked : WitKind → NativeType → Bool
  | .record fields, type => type.fields?.any fun natives => fields.blocked natives
  | .list elem, type => type.sliceElem?.any fun t => elem.blocked t
  | .option elem, type => type.isInterface || type.target?.any fun t => elem.blocked t
  | .alias inner, type => inner.blocked type
  | _, _ => false

def WitFields.blocked : WitFields → List NativeField → Bool
  | .nil, _ => false
  | .cons name wit rest, natives =>
    ((findField? natives name).any fun f => wit.blocked f.2.type) || rest.blocked natives

end

mutual

/-- A codec whose native types are of the kinds that it reads and stores, at every place. -/
def Codec.Regular : Codec → Prop
  | .mk type _ shape => shape.Regular type

/-- The same of the way in which values of a native type cross. -/
def CodecShape.Regular (type : NativeType) : CodecShape → Prop
  | .bool => type.underlying = .bool
  | .string => type.underlying = .string
  | .float _ => type.underlying = .float32 ∨ type.underlying = .float64
  | .int bits signed => ∃ k ∈ Codec.allowedInts bits signed, type.intType? = some k
  | .enum cases => cases ≠ [] ∧ ∃ k, type.intType? = some k
  | .bytes => ∃ elem, type.sliceElem? = some elem ∧ elem.intType? = some .uint8
  | .record fields => type.fields?.isSome = true ∧ fields.Regular type
  | .list elem => type.sliceElem? = some elem.type ∧ elem.Regular
  | .option elem => (elem.type = type ∨ type.target? = some elem.type) ∧ elem.Regular
  | .own _ => True

/-- Each field of a record stores to a field of the structure that has the type of its codec. -/
def CodecFields.Regular (type : NativeType) : CodecFields → Prop
  | .nil => True
  | .cons _ _ index codec rest => type.field? index = some codec.type ∧ codec.Regular ∧ rest.Regular type

end

theorem field_of_findField? {natives : List NativeField} {name : String} {index : Nat} {field : NativeField}
    (h : findField? natives name = some (index, field)) : natives[index]? = some field ∧ field.exported = true := by
  rw [findField?_eq, firstField?_eq_some_iff] at h
  obtain ⟨hfield, hstands, -⟩ := h
  exact ⟨hfield, by simp_all [NativeField.standsFor]⟩

theorem zero_of_fields? : ∀ {type : NativeType}, type.fields?.isSome = true → ∃ values, type.zero = .struct values
  | .named _ type, h => by
    rw [NativeType.zero]
    exact zero_of_fields? (by simpa [NativeType.fields?, NativeType.underlying] using h)
  | .struct _, _ => ⟨_, by rw [NativeType.zero]⟩
  | .body _, _ => ⟨_, by rw [NativeType.zero]⟩
  | .bool, h | .string, h | .int _, h | .float32, h | .float64, h | .complex128, h | .array _ _, h
  | .interface _, h | .slice _, h | .pointer _, h | .map _ _, h | .func _ _ _, h => by
    simp [NativeType.fields?, NativeType.underlying] at h

namespace Codec

/-- An interface type and a native type do not fit at the place to which the route leads, and what kind of
fault that is. -/
inductive Misfit : WitType → NativeType → List String → Kind → Prop
  /-- Where a type is declared and none is there, the input is invalid. -/
  | absent {type kind} : kind = .unsupported ∨ kind = .invalidInput → Misfit .absent type [] kind
  | noShape {p type} : primShape? p = none → Misfit (.prim p) type [] .unsupported
  | prim {p type shape} : primShape? p = some shape → fitsPrim shape type = false →
      Misfit (.prim p) type [] .typeMismatch
  | record {id name fields type} : type.fields? = none →
      Misfit (.defined (.mk id name (.record fields))) type [] .typeMismatch
  | missing {id name fields type natives field wit} : type.fields? = some natives →
      (field, wit) ∈ fields.toList → findField? natives field = none →
      Misfit (.defined (.mk id name (.record fields))) type [] .fieldMissing
  | field {id name fields type natives field wit index native route kind} : type.fields? = some natives →
      (field, wit) ∈ fields.toList → findField? natives field = some (index, native) →
      Misfit wit native.type route kind →
      Misfit (.defined (.mk id name (.record fields))) type (field :: route) kind
  | enum {id name cases type} : type.intType? = none ∨ type.intType? = some .uintptr →
      Misfit (.defined (.mk id name (.enum cases))) type [] .typeMismatch
  | noCases {id name type} : Misfit (.defined (.mk id name (.enum []))) type [] .invalidInput
  | list {id name wit type} : type.sliceElem? = none →
      Misfit (.defined (.mk id name (.list wit))) type [] .typeMismatch
  | elem {id name wit type elem route kind} : type.sliceElem? = some elem → Misfit wit elem route kind →
      Misfit (.defined (.mk id name (.list wit))) type ("[elem]" :: route) kind
  | option {id name wit type} : type.target? = none →
      Misfit (.defined (.mk id name (.option wit))) type [] .typeMismatch
  | payload {id name wit type target route kind} : type.target? = some target →
      Misfit wit (if wit.isOwn && type.satisfies .object then type else target) route kind →
      Misfit (.defined (.mk id name (.option wit))) type ("[some]" :: route) kind
  | own {id name resource type} : type.satisfies .object = false →
      Misfit (.defined (.mk id name (.own resource))) type [] .typeMismatch
  | ownNothing {id name type} : Misfit (.defined (.mk id name .ownNothing)) type [] .invalidInput
  | renamed {id name wit type route kind} : Misfit wit type route kind →
      Misfit (.defined (.mk id name (.alias wit))) type route kind
  | borrow {id name type} : Misfit (.defined (.mk id name .borrow)) type [] .unsupported
  | other {id name k type} : Misfit (.defined (.mk id name (.other k))) type [] .unsupported
  | none {id name type} : Misfit (.defined (.mk id name .none)) type [] .unsupported

/-- The fault of a misfit inside the types at a path, located at the misfit. -/
def Located (wit : WitType) (type : NativeType) (path : List String) (f : Fault) : Prop :=
  ∃ i route, f = .issue i ∧ i.path = path ++ route ∧ Misfit wit type route i.kind

theorem Located.here {wit : WitType} {type : NativeType} {i : Issue} (h : Misfit wit type [] i.kind) :
    Located wit type i.path (.issue i) :=
  ⟨i, [], rfl, by simp, h⟩

theorem Located.within {wit wit' : WitType} {type type' : NativeType} {path step : List String} {f : Fault}
    (h : Located wit type (path ++ step) f)
    (hpart : ∀ route kind, Misfit wit type route kind → Misfit wit' type' (step ++ route) kind) :
    Located wit' type' path f := by
  obtain ⟨i, route, rfl, hpath, hmisfit⟩ := h
  exact ⟨i, step ++ route, rfl, by rw [hpath, List.append_assoc], hpart route i.kind hmisfit⟩

/-- Compiling ended with something good, with a fault of some sort, or with a crash that has a reason. -/
inductive Compiles {α : Type} (P : α → Prop) (reason : Prop) (sort : Fault → Prop) : Except Stop α → Prop
  | ok {a : α} : P a → Compiles P reason sort (.ok a)
  | fault (f : Fault) : sort f → Compiles P reason sort (.error (.fault f))
  | crash (c : Crash) : reason → Compiles P reason sort (.error (.crash c))

theorem Compiles.bind {α β : Type} {P : α → Prop} {Q : β → Prop} {r r' : Prop} {F F' : Fault → Prop}
    {x : Except Stop α} {f : α → Except Stop β} (hx : Compiles P r F x) (hr : r → r') (hF : ∀ f, F f → F' f)
    (hf : ∀ a, P a → Compiles Q r' F' (f a)) : Compiles Q r' F' (x >>= f) := by
  cases hx with
  | ok ha => exact hf _ ha
  | fault f h => exact .fault f (hF f h)
  | crash c hc => exact .crash c (hr hc)

variable {type : NativeType} {path : List String}

theorem Typed.type_eq {wit : WitType} {c : Codec} (h : Typed wit type c) : c.type = type := by
  induction h using Typed.rec (motive_2 := fun _ _ _ _ => True) <;> first | rfl | trivial

theorem crosses_int {p : WitPrim} {bits : Nat} {signed : Bool} {k : IntType}
    (hshape : primShape? p = some (.int bits signed)) (hk : k ∈ allowedInts bits signed) :
    p.Crosses (.int k) (.int bits signed) := by
  cases p <;> cases hshape
  all_goals
    simp only [allowedInts, List.mem_cons, List.not_mem_nil, or_false] at hk
    first | exact .u32 hk | exact .s32 hk | exact .u64 hk | exact .s64 hk | (subst hk; constructor)

theorem crosses_of_fitsPrim {p : WitPrim} {shape : CodecShape} (hshape : primShape? p = some shape)
    (hfits : fitsPrim shape type = true) : p.Crosses type.underlying shape := by
  unfold fitsPrim at hfits
  split at hfits
  case h_5 hu => exact hu ▸ crosses_int hshape (List.contains_iff_mem.mp hfits)
  case h_6 => cases hfits
  all_goals
    rename_i hu
    rw [hu]
    cases p <;> cases hshape
    constructor

theorem isOwn_blocked {wit : WitType} (h : wit.isOwn = true) (type : NativeType) : wit.blocked type = false := by
  unfold WitType.isOwn at h
  split at h <;> first | rfl | cases h

mutual

theorem compiles_compileAt : ∀ wit type path,
    Compiles (Typed wit type) (wit.blocked type = true) (Located wit type path) (compileAt wit type path)
  | .absent, _, _ => by
    rw [compileAt]
    exact .fault _ (.here (.absent (.inl rfl)))
  | .prim p, type, path => by
    rw [compileAt, compilePrim]
    split
    · exact .fault _ (.here (.noShape ‹_›))
    · split
      · exact .ok (.prim (crosses_of_fitsPrim ‹_› ‹_›))
      · exact .fault _ (.here (.prim ‹_› (Bool.eq_false_iff.mpr ‹_›)))
  | .defined (.mk id name kind), type, path => by
    rw [compileAt, compileDef]
    exact compiles_compileKind id name kind type path

theorem compiles_compileKind (id : Nat) (name : Option String) : ∀ kind type
    path, Compiles (Typed (.defined (.mk id name kind)) type) (kind.blocked type = true)
      (Located (.defined (.mk id name kind)) type path) (compileKind name kind type path)
  | .record fields, type, path => by
    rw [compileKind]
    split
    · exact .fault _ (.here (.record ‹_›))
    · rename_i natives hnatives
      refine (compiles_compileFields fields natives path id name fields hnatives fun _ h => h).bind (fun h => ?_)
        (fun _ h => h) fun cs hcs => .ok (.record hnatives hcs)
      simp [WitKind.blocked, hnatives, h]
  | .enum cases, type, path => by
    rw [compileKind, compileEnum]
    split
    · exact .fault _ (.here (.enum (.inl ‹_›)))
    · exact .fault _ (.here (.enum (.inr ‹_›)))
    · split
      · rename_i hcases
        obtain rfl := List.isEmpty_iff.mp hcases
        exact .fault _ (.here .noCases)
      · rename_i hcases
        exact .ok (.enum ‹type.intType? = some _› ‹_› (by simpa using hcases))
  | .list elem, type, path => by
    rw [compileKind]
    split
    · exact .fault _ (.here (.list ‹_›))
    · rename_i t ht
      split
      · rename_i hbytes
        simp only [Bool.and_eq_true, beq_iff_eq] at hbytes
        obtain ⟨rfl, hbyte⟩ := hbytes
        exact .ok (.bytes ht hbyte)
      · refine (compiles_compileAt elem t _).bind (fun h => ?_) (fun _ h => h.within fun _ _ => .elem ht)
          fun c hc => .ok (.list ht hc)
        simp [WitKind.blocked, ht, h]
  | .option elem, type, path => by
    rw [compileKind]
    split
    · rename_i hinterface
      exact .crash _ (by simp [WitKind.blocked, hinterface])
    · split
      · exact .fault _ (.here (.option ‹_›))
      · rename_i target htarget
        refine (compiles_compileAt elem _ _).bind (fun h => ?_) (fun _ h => h.within fun _ _ => .payload htarget)
          fun c hc => .ok ?_
        all_goals by_cases hhandle : elem.isOwn && type.satisfies .object
        · exact absurd h (by simp [isOwn_blocked (Bool.and_eq_true_iff.mp hhandle).1])
        · rw [if_neg hhandle] at h
          simp [WitKind.blocked, htarget, h]
        · rw [if_pos hhandle] at hc
          exact .handle (Bool.and_eq_true_iff.mp hhandle).1 hc
        · rw [if_neg hhandle] at hc
          exact .option htarget hc
  | .own resource, type, path => by
    rw [compileKind, compileOwn]
    split
    · exact .ok (.own ‹_›)
    · exact .fault _ (.here (.own (Bool.eq_false_iff.mpr ‹_›)))
  | .alias inner, type, path => by
    rw [compileKind, ← bind_pure (compileAt inner type path)]
    exact (compiles_compileAt inner type path).bind (fun h => h)
      (fun _ ⟨i, route, hi, hpath, h⟩ => ⟨i, route, hi, hpath, .renamed h⟩) fun c hc => .ok (.renamed hc)
  | .ownNothing, _, _ => by
    rw [compileKind]
    exact .fault _ (.here .ownNothing)
  | .borrow, _, _ => by
    simp only [compileKind]
    exact .fault _ (.here .borrow)
  | .other _, _, _ => by
    simp only [compileKind]
    exact .fault _ (.here .other)
  | .none, _, _ => by
    simp only [compileKind]
    exact .fault _ (.here .none)

theorem compiles_compileFields : ∀ fields natives path id name all {type : NativeType}, type.fields? = some natives →
    (∀ f ∈ fields.toList, f ∈ all.toList) →
    Compiles (CodecFields.Typed natives fields) (fields.blocked natives = true)
      (Located (.defined (.mk id name (.record all))) type path) (compileFields fields natives path)
  | .nil, _, _, _, _, _, _, _, _ => by
    rw [compileFields]
    exact .ok .nil
  | .cons field wit rest, natives, path, id, name, all, type, hnatives, hall => by
    obtain ⟨hmem, hall⟩ := List.forall_mem_cons.mp hall
    rw [compileFields]
    split
    · exact .fault _ (.here (.missing hnatives hmem ‹_›))
    · rename_i index native hfield
      obtain ⟨hat, hexported⟩ := field_of_findField? hfield
      refine (compiles_compileAt wit native.type _).bind (fun h => by simp [WitFields.blocked, hfield, h])
        (fun _ h => h.within fun _ _ => .field hnatives hmem hfield) fun c hc =>
        (compiles_compileFields rest natives path id name all hnatives hall).bind
          (fun h => by simp [WitFields.blocked, h]) (fun _ h => h) fun cs hcs => ?_
      exact .ok (.cons hat hexported hc hcs)

end

theorem Typed.regular {wit : WitType} {c : Codec} (h : Typed wit type c) : c.Regular := by
  induction h using Typed.rec (motive_2 := fun natives _ cs _ =>
    ∀ {type : NativeType}, type.fields? = some natives → cs.Regular type) with
  | @prim p type shape hcrosses =>
    generalize hu : type.underlying = t at hcrosses
    have hint : ∀ {k}, t = .int k → type.intType? = some k := fun he => type.intType?_eq_some.mpr (hu.trans he)
    cases hcrosses with
    | bool | string => exact hu
    | f32 => exact .inl hu
    | f64 => exact .inr hu
    | u8 | s8 | u16 | s16 => exact ⟨_, List.mem_cons_self, hint rfl⟩
    | u32 hk | s32 hk | u64 hk | s64 hk => exact ⟨_, by simpa [allowedInts] using hk, hint rfl⟩
  | record hnatives _ ih => exact ⟨by rw [hnatives]; rfl, ih hnatives⟩
  | enum hk _ hcases => exact ⟨hcases, _, hk⟩
  | bytes hs hbyte => exact ⟨_, hs, hbyte⟩
  | own | nil => trivial
  | list hs hc ih => exact ⟨hc.type_eq ▸ hs, ih⟩
  | option htarget hc ih => exact ⟨.inr (hc.type_eq ▸ htarget), ih⟩
  | handle _ hc ih => exact ⟨.inl hc.type_eq, ih⟩
  | renamed _ ih => exact ih
  | cons hat hexported hc _ ihc ihcs =>
    rename_i type hnatives
    refine ⟨?_, ihc, ihcs hnatives⟩
    rw [NativeType.field?, hnatives, Option.bind_some, hat, Option.filter_some, if_pos hexported, Option.map_some,
      hc.type_eq]

theorem typed_compileAt {wit : WitType} {c : Codec} (h : compileAt wit type path = .ok c) : Typed wit type c := by
  have hcompiles := compiles_compileAt wit type path
  rw [h] at hcompiles
  cases hcompiles with
  | ok htyped => exact htyped

theorem regular_compileAt (wit : WitType) (type : NativeType) (path : List String) {c : Codec}
    (h : compileAt wit type path = .ok c) : c.Regular :=
  (typed_compileAt h).regular

end Codec

/-! ## Storing values -/

/-- An integer type that is allowed for a width has its sign, and the width itself unless it is that of
machine integers. -/
theorem IntType.allowed_cases {k : IntType} {bits : Nat} {signed : Bool} (hk : k ∈ Codec.allowedInts bits signed) :
    k.signed = signed ∧ (k.bits = bits ∨ k.bits = 64 ∧ bits = 32 ∧ (k = .int ∨ k = .uint)) ∧
      (bits = 8 ∨ bits = 16 ∨ bits = 32 ∨ bits = 64) := by
  unfold Codec.allowedInts at hk
  split at hk
  case h_9 => exact absurd hk List.not_mem_nil
  all_goals
    simp only [List.mem_cons, List.not_mem_nil, or_false] at hk
    rcases hk with rfl | rfl
  all_goals decide

namespace NativeType

variable {type : NativeType} {k : IntType}

theorem hasSign_of_allowed {bits : Nat} {signed : Bool} (hk : type.intType? = some k)
    (hallowed : k ∈ Codec.allowedInts bits signed) : type.hasSign signed = true := by
  rw [hasSign, hk, Option.any_some, (IntType.allowed_cases hallowed).1, beq_self_eq_true]

theorem stored?_int (hk : type.intType? = some k) (i : Int) :
    type.stored? (.int i) = some (.int (k.wrap i)) := by
  simp only [stored?, type.intType?_eq_some.mp hk]

theorem stored?_bytes {elem : NativeType} (hs : type.sliceElem? = some elem) (hbyte : elem.intType? = some .uint8)
    (s : Slice) : type.stored? (.bytes s) = some (.bytes s) := by
  simp only [stored?, type.sliceElem?_eq_some.mp hs, hbyte, if_true]

theorem assignableTo_self (type : NativeType) : type.assignableTo type = true := by
  simp [assignableTo]

theorem assignableTo_of_target? {target : NativeType} (ht : type.target? = some target) :
    (pointer target).assignableTo type = true := by
  simp [assignableTo, type.target?_eq_some.mp ht, underlying, isNamed]

end NativeType

theorem Bridge.assign_eq {source target : NativeType} (h : source.assignableTo target = true) (v : NativeValue)
    (c : Crash) : assign source target v c = pure v := by
  rw [assign, if_pos h]
  rfl

end Tether
