import Tether.Proofs.Codecs

/-!
# Aliases

An alias is another name for a type. Compiling looks through it, but two constructors look at the bare
form of the type inside them before they compile it: a list, for bytes, and an option, for handles. There
an alias hides the form, and only there.
-/

namespace Tether

/-- A type with a hole: one field of a record, the elements of a list, the payload of an option, or
nestings of these. -/
inductive TypeContext where
  | hole
  | record (id : Nat) (name : Option String) (before : List (String × WitType)) (field : String)
      (inner : TypeContext) (after : WitFields)
  | list (id : Nat) (name : Option String) (inner : TypeContext)
  | option (id : Nat) (name : Option String) (inner : TypeContext)
  | renamed (id : Nat) (name : Option String) (inner : TypeContext)

def WitFields.around (before : List (String × WitType)) (field : String) (type : WitType)
    (after : WitFields) : WitFields :=
  before.foldr (fun f rest => .cons f.1 f.2 rest) (.cons field type after)

namespace TypeContext

def fill (type : WitType) : TypeContext → WitType
  | hole => type
  | record id name before field inner after =>
    .defined (.mk id name (.record (.around before field (inner.fill type) after)))
  | list id name inner => .defined (.mk id name (.list (inner.fill type)))
  | option id name inner => .defined (.mk id name (.option (inner.fill type)))
  | renamed id name inner => .defined (.mk id name (.alias (inner.fill type)))

def isHole : TypeContext → Bool
  | hole => true
  | _ => false

/-- Whether compiling against a native type looks at the bare form of the type in the hole: for the bytes
of a byte slice, or for the handle of a native object. -/
def inspects (type : WitType) : TypeContext → NativeType → Bool
  | hole, _ => false
  | record _ _ _ field inner _, native =>
    ((native.fields?.bind (findField? · field)).map fun f => inner.inspects type f.2.type).getD false
  | list _ _ inner, native =>
    (native.sliceElem?.map fun elem =>
      inner.isHole && type == .prim .u8 && elem.intType? == some .uint8 || inner.inspects type elem).getD false
  | option _ _ inner, native =>
    (native.target?.map fun target =>
      inner.isHole && type.isOwn && native.satisfies .object || inner.inspects type target).getD false
  | renamed _ _ inner, native => inner.inspects type native

variable {type : WitType} (Γ : TypeContext)

theorem fill_beq_prim (p : WitPrim) : (Γ.fill type == .prim p) = (Γ.isHole && type == .prim p) := by
  cases Γ <;> simp [fill, isHole]

theorem isOwn_fill : (Γ.fill type).isOwn = (Γ.isHole && type.isOwn) := by
  cases Γ <;> simp [fill, isHole, WitType.isOwn]

end TypeContext

/-- How the result `y` with an alias compares with the result `x` without: they are the same unless the
form was looked at; if it was, they are not the same success; and `y` succeeds only where `x` does. -/
structure Agrees {α : Type} (inspected : Bool) (x y : Except Stop α) : Prop where
  same : inspected = false → y = x
  differ : inspected = true → ∀ a, x = .ok a → y ≠ .ok a
  succeeds : ∀ a, y = .ok a → ∃ a', x = .ok a'

namespace Agrees

variable {α β : Type} {inspected : Bool} {x y : Except Stop α}

theorem of_error {e : Stop} (h : inspected = true ∨ x = .error e) : Agrees inspected x (.error e) where
  same hi := (h.resolve_left (by simp [hi])).symm
  differ _ _ _ := by simp
  succeeds _ h := nomatch h

theorem bind (h : Agrees inspected x y) {f : α → Except Stop β}
    (hinj : ∀ a a' b, f a = .ok b → f a' = .ok b → a = a') (htotal : ∀ a a' b, f a = .ok b → ∃ b', f a' = .ok b') :
    Agrees inspected (x >>= f) (y >>= f) where
  same hi := by rw [h.same hi]
  differ hi b hx hy := by
    obtain ⟨a, ha, hb⟩ := bind_eq_ok.mp hx
    obtain ⟨a', ha', hb'⟩ := bind_eq_ok.mp hy
    exact h.differ hi a ha (hinj a a' b hb hb' ▸ ha')
  succeeds b hy := by
    obtain ⟨a, ha, hb⟩ := bind_eq_ok.mp hy
    obtain ⟨a', ha'⟩ := h.succeeds a ha
    obtain ⟨b', hb'⟩ := htotal a a' b hb
    exact ⟨b', bind_eq_ok.mpr ⟨a', ha', hb'⟩⟩

end Agrees

namespace Codec

theorem beq_defined_prim (d : WitDef) (p : WitPrim) : (WitType.defined d == .prim p) = false := by simp

theorem isOwn_alias (id : Nat) (name : Option String) (type : WitType) :
    WitType.isOwn (.defined (.mk id name (.alias type))) = false := rfl

variable {id : Nat} {name : Option String} {type : WitType}

theorem compileAt_alias (native : NativeType) (path : List String) :
    compileAt (.defined (.mk id name (.alias type))) native path = compileAt type native path := by
  simp only [compileAt, compileDef, compileKind]

theorem compileAt_own_of_target {native target : NativeType} (hown : type.isOwn = true)
    (hobject : native.satisfies .object = true) (ht : native.target? = some target) (path : List String) :
    ∃ e, compileAt type target path = .error e := by
  obtain ⟨sort, rfl⟩ : ∃ sort, target = .body sort := by
    unfold NativeType.satisfies at hobject
    simp only at hobject
    split at hobject
    case h_1 sort => exact ⟨sort, (Option.some.inj ht).symm⟩
    case h_4 => exact nomatch hobject
    all_goals exact absurd ht (by simp [NativeType.target?, NativeType.underlying])
  unfold WitType.isOwn at hown
  split at hown
  case h_3 => exact nomatch hown
  all_goals exact ⟨_, rfl⟩

theorem agrees_fields {inspected : Bool} {field : String} {x y : WitType} {natives : List NativeField}
    (h : ∀ i f, findField? natives field = some (i, f) → ∀ path,
      Agrees inspected (compileAt x f.type path) (compileAt y f.type path))
    (before : List (String × WitType)) (after : WitFields) (path : List String) :
    Agrees inspected (compileFields (.around before field x after) natives path)
      (compileFields (.around before field y after) natives path) := by
  induction before with
  | nil =>
    show Agrees inspected (compileFields (.cons field x after) natives path)
      (compileFields (.cons field y after) natives path)
    simp only [compileFields]
    cases hf : findField? natives field with
    | none => exact .of_error (.inr rfl)
    | some f =>
      refine (h f.1 f.2 hf _).bind (fun a a' b hb hb' => ?_) fun a a' b hb => ?_
      · obtain ⟨rest, hrest, hb⟩ := bind_eq_ok.mp hb
        obtain ⟨rest', hrest', hb'⟩ := bind_eq_ok.mp hb'
        exact (CodecFields.cons.inj (Except.ok.inj (hb.trans hb'.symm))).2.2.2.1
      · obtain ⟨rest, hrest, -⟩ := bind_eq_ok.mp hb
        exact ⟨_, bind_eq_ok.mpr ⟨rest, hrest, rfl⟩⟩
  | cons f before ih =>
    show Agrees inspected (compileFields (.cons f.1 f.2 (.around before field x after)) natives path)
      (compileFields (.cons f.1 f.2 (.around before field y after)) natives path)
    simp only [compileFields]
    cases hf : findField? natives f.1 with
    | none => exact .of_error (.inr rfl)
    | some g =>
      cases hc : compileAt f.2 g.2.type (path ++ [f.1]) with
      | error e =>
        simp only [hc]
        exact .of_error (.inr rfl)
      | ok c =>
        simp only [hc]
        refine ih.bind (fun a a' b hb hb' => ?_) fun a a' b hb => ⟨_, rfl⟩
        exact (CodecFields.cons.inj (Except.ok.inj (hb.trans hb'.symm))).2.2.2.2

theorem agrees_fill (Γ : TypeContext) (native : NativeType) (path : List String) :
    Agrees (Γ.inspects type native) (compileAt (Γ.fill type) native path)
      (compileAt (Γ.fill (.defined (.mk id name (.alias type)))) native path) := by
  induction Γ generalizing native path with
  | hole =>
    simp only [TypeContext.fill, compileAt_alias]
    exact ⟨fun _ => rfl, fun h => absurd h Bool.false_ne_true, fun a h => ⟨a, h⟩⟩
  | record _ _ before field inner after ih =>
    simp only [TypeContext.fill, TypeContext.inspects, compileAt, compileDef, compileKind]
    cases native.fields? with
    | none => exact .of_error (.inr rfl)
    | some natives =>
      refine (agrees_fields (fun i f hf path => ?_) before after path).bind
        (fun a a' b hb hb' => ?_) fun a a' b hb => ⟨_, rfl⟩
      · simp only [Option.bind_some, hf, Option.map_some, Option.getD_some]
        exact ih f.type path
      · exact CodecShape.record.inj (mk.inj (Except.ok.inj (hb.trans hb'.symm))).2.2
  | list _ _ inner ih =>
    simp only [TypeContext.fill, TypeContext.inspects, compileAt, compileDef, compileKind]
    cases native.sliceElem? with
    | none => exact .of_error (.inr rfl)
    | some elem =>
      simp only [TypeContext.fill_beq_prim, beq_defined_prim, Bool.and_false, Bool.false_and, Option.map_some,
        Option.getD_some, Bool.false_eq_true, if_false]
      cases hbytes : inner.isHole && type == .prim .u8 && elem.intType? == some .uint8
      · simp only [Bool.false_or, Bool.false_eq_true, if_false]
        exact (ih elem _).bind (fun a a' b hb hb' =>
          CodecShape.list.inj (mk.inj (Except.ok.inj (hb.trans hb'.symm))).2.2) fun a a' b hb => ⟨_, rfl⟩
      · -- With the bare form the list is one of bytes; with the alias it is a list, if anything.
        simp only [Bool.true_or, if_true]
        refine ⟨fun h => absurd h.symm Bool.false_ne_true, fun _ a ha hb => ?_, fun a _ => ⟨_, rfl⟩⟩
        obtain ⟨c, -, hc⟩ := bind_eq_ok.mp hb
        cases (mk.inj (Except.ok.inj (ha.trans hc.symm))).2.2
  | option _ _ inner ih =>
    simp only [TypeContext.fill, TypeContext.inspects, compileAt, compileDef, compileKind]
    cases native.isInterface with
    | true => exact .of_error (.inr rfl)
    | false =>
      cases ht : native.target? with
      | none => exact .of_error (.inr rfl)
      | some target =>
        simp only [TypeContext.isOwn_fill, isOwn_alias, Bool.and_false, Bool.false_and, Option.map_some,
          Option.getD_some, Bool.false_eq_true, if_false]
        cases hown : inner.isHole && type.isOwn && native.satisfies .object
        · simp only [Bool.false_or, Bool.false_eq_true, if_false]
          exact (ih target _).bind (fun a a' b hb hb' =>
            CodecShape.option.inj (mk.inj (Except.ok.inj (hb.trans hb'.symm))).2.2) fun a a' b hb => ⟨_, rfl⟩
        · simp only [Bool.and_eq_true] at hown
          obtain rfl : inner = .hole := by cases inner <;> first | rfl | cases hown.1.1
          obtain ⟨e, he⟩ := compileAt_own_of_target hown.1.2 hown.2 ht (path ++ ["[some]"])
          simp only [TypeContext.fill, compileAt_alias, he]
          exact .of_error (.inl rfl)
  | renamed _ _ inner ih =>
    simp only [TypeContext.fill, TypeContext.inspects, compileAt_alias]
    exact ih native path

end Codec

open Codec in
/-- **Aliases are transparent, except to bytes and handles.** Put an alias of a type, or the type itself,
into a context. Both compile to the same codec, or fail alike, unless the context looks at the bare form
of the type: then the alias never compiles to the codec of the type. And the alias compiles only where the
type does.

A list of an alias of bytes compiles to a list where a list of bytes compiles to a buffer. An option of an
alias of a handle does not compile against a native object, where an option of the handle does. -/
theorem aliases_transparent_iff (id : Nat) (name : Option String) (type : WitType) (Γ : TypeContext)
    (native : NativeType) (path : List String) :
    (Γ.inspects type native = false →
      compileAt (Γ.fill (.defined (.mk id name (.alias type)))) native path = compileAt (Γ.fill type) native path) ∧
    (∀ c, compileAt (Γ.fill type) native path = .ok c →
      (compileAt (Γ.fill (.defined (.mk id name (.alias type)))) native path = .ok c ↔
        Γ.inspects type native = false)) ∧
    (∀ c, compileAt (Γ.fill (.defined (.mk id name (.alias type)))) native path = .ok c →
      ∃ c', compileAt (Γ.fill type) native path = .ok c') ∧
    (∀ i n elem, native.sliceElem? = some elem → elem.intType? = some .uint8 →
      compileAt ((TypeContext.list i n .hole).fill (.prim .u8)) native path = .ok (.mk native "list<u8>" .bytes) ∧
      compileAt ((TypeContext.list i n .hole).fill (.defined (.mk id name (.alias (.prim .u8))))) native path =
        .ok (.mk native "list<u8>" (.list (.mk elem "u8" (.int 8 false))))) ∧
    (∀ i n j m resource sort, native = .object sort →
      let own : WitType := .defined (.mk j m (.own resource))
      (∃ c, compileAt ((TypeContext.option i n .hole).fill own) native path = .ok (.mk native c
        (.option (.mk native ("own<" ++ WitType.textOfDef resource ++ ">") (.own resource))))) ∧
      compileAt ((TypeContext.option i n .hole).fill (.defined (.mk id name (.alias own)))) native path =
        .error (.fault (.typeMismatch .bind (path ++ ["[some]"]) (NativeType.body sort).text "bridge.Object"))) := by
  have h := @agrees_fill id name type Γ native path
  refine ⟨h.same, fun c hc => ⟨fun hc' => ?_, fun hi => (h.same hi).trans hc⟩, h.succeeds,
    fun i n elem hslice hbyte => ?_, ?_⟩
  · exact Bool.eq_false_iff.mpr fun hi => h.differ hi c hc hc'
  · have hfits : fitsPrim (.int 8 false) elem = true := by
      simp [fitsPrim, allowedInts, elem.intType?_eq_some.mp hbyte]
    have helem : ∀ path, compilePrim .u8 elem path = .ok (.mk elem "u8" (.int 8 false)) := fun path => by
      simp [compilePrim, primShape?, hfits, WitPrim.text]
    simp only [TypeContext.fill, compileAt, compileDef, compileKind, hslice, hbyte, helem, beq_defined_prim]
    exact ⟨rfl, rfl⟩
  · rintro i n j m resource sort rfl
    exact ⟨⟨_, rfl⟩, rfl⟩

open Codec in
/-- Under another name, a list of 16-bit numbers in a field compiles as it does without, and a list of bytes
does not. -/
theorem aliases_transparent_iff_field :
    let Γ : TypeContext := .record 2 none [] "data" (.list 1 none .hole) .nil
    let native (k : IntType) : NativeType := .struct (.cons "Data" (.slice (.int k)) "" true .nil)
    compileAt (Γ.fill (.defined (.mk 0 none (.alias (.prim .u16))))) (native .uint16) [] =
      compileAt (Γ.fill (.prim .u16)) (native .uint16) [] ∧
    ∃ c, compileAt (Γ.fill (.prim .u8)) (native .uint8) [] = .ok c ∧
      compileAt (Γ.fill (.defined (.mk 0 none (.alias (.prim .u8))))) (native .uint8) [] ≠ .ok c := by
  intro Γ native
  obtain ⟨hsame, -⟩ := aliases_transparent_iff 0 none (.prim .u16) Γ (native .uint16) []
  obtain ⟨-, hiff, -⟩ := aliases_transparent_iff 0 none (.prim .u8) Γ (native .uint8) []
  have hc : compileAt (Γ.fill (.prim .u8)) (native .uint8) [] = .ok (.mk (native .uint8) "typedef"
      (.record (.cons "data" "Data" 0 (.mk (.slice (.int .uint8)) "list<u8>" .bytes) .nil))) := rfl
  refine ⟨hsame (by decide +kernel), _, hc, fun h => absurd ((hiff _ hc).mp h) (by decide +kernel)⟩

end Tether
