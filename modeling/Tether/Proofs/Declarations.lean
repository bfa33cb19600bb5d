import Tether.Bridge.Declare
import Tether.Proofs.Codecs

/-!
# Where declarations report faults

A declaration compiles the codecs of its parameters and its result, and reports the fault of the first
that cannot be compiled. A fault deep inside a type comes with the route to the misfit, and the name of
the declaration and of the parameter is put before it only if that route is empty.
-/

namespace Tether

open Codec

namespace Callable

/-- What is left of the parameters of a native function for the parameters of the signature. -/
def Role.Leaves (inputs args : List NativeType) : Role → Prop
  | .method _ type => ∃ first, inputs = first :: args ∧ type.assignableTo first = true
  | _ => inputs = args

/-- A declaration whose native function fits it but for the types of its parameters and results. -/
structure Heads (name : String) (fn : NativeFn Program) (sig : Signature) (role : Role)
    (args results : List NativeType) : Prop where
  named : name ≠ ""
  types : ∃ inputs outputs, fn.types? = some (inputs, outputs, false) ∧ role.Leaves inputs args ∧
    (outputs = results ++ [.interface .error] ∨ outputs = results ∧ results.getLast? ≠ some (.interface .error))
  length : args.length = sig.params.length

def CompileBefore (params : List (String × WitType)) (args : List NativeType) (k : Nat) : Prop :=
  ∀ m < k, ∀ p t, params[m]? = some p → args[m]? = some t → ∃ c, Codec.compile p.2 (some t) = .ok c

/-- The declaration fails with a fault of an interface type against a native type that stand at a place:
with the fault of a misfit in them, at the path of the place if the misfit is at its top, but else at the
route inside alone. -/
def Blames (place : List String) (wit : WitType) (type : NativeType) (f : Fault)
    (declared : Except Stop Callable) : Prop :=
  ∃ i j : Issue, f = .issue i ∧ Misfit wit type i.path i.kind ∧ declared = .error (.fault (.issue j)) ∧
    j = { i with path := if i.path = [] then place else i.path } ∧
    (j.path = place ++ i.path ↔ i.path = [])

variable {name text : String} {fn : NativeFn Program} {sig : Signature} {role : Role}
  {args results : List NativeType} {params : List (String × WitType)} {p : String} {wit : WitType}
  {type : NativeType} {f : Fault} {k : Nat}

theorem located_compile (h : Codec.compile wit (some type) = .error (.fault f)) :
    ∃ i, f = .issue i ∧ Misfit wit type i.path i.kind := by
  unfold Codec.compile at h
  simp only at h
  split at h
  case isTrue habsent =>
    cases h
    exact ⟨_, rfl, habsent ▸ .absent (.inr rfl)⟩
  case isFalse =>
    have hcompiles := compiles_compileAt wit type []
    rw [h] at hcompiles
    cases hcompiles with
    | fault _ hlocated =>
      obtain ⟨i, route, rfl, hpath, hmisfit⟩ := hlocated
      exact ⟨i, rfl, hpath ▸ hmisfit⟩

theorem locate_issue (place : List String) (i : Issue) :
    (Fault.issue i).locate place = .issue { i with path := if i.path = [] then place else i.path } := by
  simp only [Fault.locate, Fault.asIssue?]
  split
  case isTrue h => simp [Fault.withPath, h]
  case isFalse => rfl

theorem blames_of_locate {place : List String} {declared : Except Stop Callable} (hplace : place ≠ [])
    (hfault : Codec.compile wit (some type) = .error (.fault f))
    (hdeclared : declared = .error (.fault (f.locate place))) : Blames place wit type f declared := by
  obtain ⟨i, rfl, hmisfit⟩ := located_compile hfault
  refine ⟨i, _, rfl, hmisfit, by rw [hdeclared, locate_issue], rfl, ?_⟩
  by_cases hpath : i.path = []
  · simp [hpath]
  · simp [hpath, hplace]

theorem paramCodecs_drop (name : String) (hbefore : CompileBefore params args k) :
    ∃ codecs, paramCodecs name params args = (paramCodecs name (params.drop k) (args.drop k)).map (codecs ++ ·) := by
  induction k generalizing params args with
  | zero =>
    cases h : paramCodecs name params args <;> simp [h, Except.map]
  | succ k ih =>
    match params, args with
    | [], _ => exact ⟨[], by simp [paramCodecs, Except.map]⟩
    | _ :: _, [] => exact ⟨[], by simp [paramCodecs, Except.map]⟩
    | p :: params, t :: args =>
      obtain ⟨c, hc⟩ := hbefore 0 (by omega) p t rfl rfl
      have hafter : CompileBefore params args k := fun m hm q u hq hu => hbefore (m + 1) (by omega) q u hq hu
      obtain ⟨codecs, hrest⟩ := ih hafter
      refine ⟨c :: codecs, ?_⟩
      rw [paramCodecs, hc, hrest]
      cases h : paramCodecs name (params.drop k) (args.drop k) <;> simp [h] <;> rfl

theorem paramCodecs_eq_error (hbefore : CompileBefore params args k) (hp : params[k]? = some (p, wit))
    (hargs : args[k]? = some type) (hfault : Codec.compile wit (some type) = .error (.fault f)) :
    paramCodecs name params args = .error (.fault (f.locate [name, p])) := by
  obtain ⟨codecs, hdrop⟩ := paramCodecs_drop name hbefore
  obtain ⟨hlt, hat⟩ := List.getElem?_eq_some_iff.mp hp
  obtain ⟨hlt', hat'⟩ := List.getElem?_eq_some_iff.mp hargs
  rw [hdrop, List.drop_eq_getElem_cons hlt, List.drop_eq_getElem_cons hlt', hat, hat', paramCodecs, hfault]
  rfl

theorem results_eq {outputs : List NativeType} (h : outputs = results ++ [.interface .error] ∨
      outputs = results ∧ results.getLast? ≠ some (.interface .error)) :
    (if outputs.getLast? = some (.interface .error) then outputs.dropLast else outputs) = results := by
  rcases h with rfl | ⟨rfl, h⟩
  · simp
  · simp [h]

theorem Heads.compile_eq_error {e : Stop} (h : Heads name fn sig role args results)
    (he : paramCodecs name sig.params args = .error e) : compile name fn sig role = .error e := by
  obtain ⟨hnamed, ⟨inputs, outputs, htypes, hleaves, -⟩, hlength⟩ := h
  cases role with
  | method cls type =>
    obtain ⟨first, rfl, hfirst⟩ := hleaves
    simp [compile, hnamed, htypes, hfirst, hlength, he, bind, Except.bind, pure, Except.pure]
  | free | constructor =>
    obtain rfl : inputs = args := hleaves
    simp [compile, hnamed, htypes, hlength, he, bind, Except.bind, pure, Except.pure]

theorem Heads.compile_eq_resultCodec {codecs : List Codec} {e : Stop}
    (h : Heads name fn sig role args [type]) (hrole : ∀ cls t, role ≠ .constructor cls t)
    (hparams : paramCodecs name sig.params args = .ok codecs)
    (he : ∀ text, resultCodec name text sig.result [type] = .error e) :
    compile name fn sig role = .error e := by
  obtain ⟨hnamed, ⟨inputs, outputs, htypes, hleaves, houtputs⟩, hlength⟩ := h
  have hresults := results_eq houtputs
  cases role with
  | method cls t =>
    obtain ⟨first, rfl, hfirst⟩ := hleaves
    simp [compile, hnamed, htypes, hfirst, hlength, hparams, hresults, he, bind, Except.bind, pure, Except.pure]
  | free =>
    obtain rfl : inputs = args := hleaves
    simp [compile, hnamed, htypes, hlength, hparams, hresults, he, bind, Except.bind, pure, Except.pure]
  | constructor cls t => exact absurd rfl (hrole cls t)

end Callable

open Callable

/-- **Declarations lose the place of nested faults.** Take a declaration of a function, a method or a
constructor whose native function fits it but for the types of its parameters and results. If its
parameters before one can be compiled and that one has a fault, the declaration fails with this fault; if
all can be and a result is declared that has a fault, it fails with that one. The path of the fault is the
names of the declaration and of the parameter, or of the declaration and `result`, if the misfit is the type
itself. If it is inside the type, the path is the route to it without these names. -/
theorem declaration_fault_paths (name : String) (fn : NativeFn Program) (sig : Signature) (role : Role)
    (args results : List NativeType) (hheads : Heads name fn sig role args results) :
    (∀ k p wit type f, sig.params[k]? = some (p, wit) → args[k]? = some type →
      CompileBefore sig.params args k → Codec.compile wit (some type) = .error (.fault f) →
      Blames [name, p] wit type f (compile name fn sig role)) ∧
    ∀ type f, CompileBefore sig.params args sig.params.length → results = [type] → sig.result ≠ .absent →
      (∀ cls t, role ≠ .constructor cls t) → Codec.compile sig.result (some type) = .error (.fault f) →
      Blames [name, "result"] sig.result type f (compile name fn sig role) := by
  constructor
  · intro k p wit type f hp hargs hbefore hfault
    refine blames_of_locate (by simp) hfault ?_
    exact hheads.compile_eq_error (paramCodecs_eq_error hbefore hp hargs hfault)
  · rintro type f hall rfl hdeclared hrole hfault
    refine blames_of_locate (by simp) hfault ?_
    obtain ⟨codecs, hparams⟩ := paramCodecs_drop name hall
    rw [List.drop_length] at hparams
    refine hheads.compile_eq_resultCodec hrole hparams fun text => ?_
    unfold resultCodec
    split
    · contradiction
    · contradiction
    · contradiction
    · rename_i heq _
      cases heq
      rw [hfault]
      rfl

/-- The second parameter is a list of records, and one of their fields does not fit: the path is the route
to the field, and names neither the function nor the parameter. -/
theorem declaration_fault_paths_nested :
    let vec : WitType := .defined (.mk 0 (some "vec") (.record (.cons "x" (.prim .s32) .nil)))
    let wit : WitType := .defined (.mk 1 none (.list vec))
    let type : NativeType := .slice (.struct (.cons "X" .string "" true .nil))
    let fn : NativeFn Program := .scripted [.int .uint32, type] [] false [] []
    ∃ i : Issue, compile "place" fn ⟨.absent, [("id", .prim .u32), ("pos", wit)]⟩ .free =
      .error (.fault (.issue i)) ∧ Misfit wit type ["[elem]", "x"] i.kind ∧ i.path = ["[elem]", "x"] := by
  intro vec wit type fn
  obtain ⟨hparams, -⟩ := declaration_fault_paths "place" fn ⟨.absent, [("id", .prim .u32), ("pos", wit)]⟩ .free
    [.int .uint32, type] [] ⟨by decide, ⟨_, _, rfl, rfl, .inr ⟨rfl, by simp⟩⟩, rfl⟩
  have hbefore : CompileBefore [("id", .prim .u32), ("pos", wit)] [.int .uint32, type] 1 := by
    intro m hm p t hp ht
    obtain rfl : m = 0 := by omega
    cases hp
    cases ht
    exact ⟨_, rfl⟩
  obtain ⟨i, j, hi, hmisfit, hdeclared, rfl, -⟩ := hparams 1 "pos" wit type
    (.typeMismatch .bind ["[elem]", "x"] "string" "s32") rfl rfl hbefore rfl
  cases hi
  exact ⟨_, hdeclared, hmisfit, rfl⟩

end Tether
