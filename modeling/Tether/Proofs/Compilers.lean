import Tether.Proofs.Computation
import Tether.Codec.Compile

/-!
# What compilers remember

A compiler keeps the codecs that it has compiled, each under the identity of its interface type and under its
native type. Nobody sees this but by the identity of codecs.
-/

namespace Tether

abbrev Query := WitType × Option NativeType

namespace Compiler

def after (c : Compiler) (rs : List Query) : Compiler := rs.foldl (fun c r => (c.compile r.1 r.2).2) c

/-- A compiler holds codecs that were compiled for some of the types in question, no pair of types twice. -/
structure Holds (types : WitType → Prop) (c : Compiler) : Prop where
  compiled : ∀ e ∈ c.known, ∃ wit, types wit ∧ wit.key? = some e.1 ∧ Codec.compile wit (some e.2.1) = .ok e.2.2
  distinct : (c.known.map fun e => (e.1, e.2.1)).Nodup

/-- Types that are told apart by what compilers tell types apart by. -/
def Apart (types : WitType → Prop) : Prop := ∀ x y, types x → types y → x.key? = y.key? → x = y

/-- Types that are one definition if they are definitions of one identity. -/
def Consistent : WitType → WitType → Prop
  | .defined d, .defined d' => d.id = d'.id → d = d'
  | _, _ => True

instance (x y : WitType) : Decidable (Consistent x y) := by
  unfold Consistent
  split <;> infer_instance

theorem Consistent.eq_of_key? {x y : WitType} (h : Consistent x y) (hkey : x.key? = y.key?) : x = y := by
  cases x <;> cases y <;> simp_all [WitType.key?, Consistent]

variable {types : WitType → Prop} {c : Compiler} {wit : WitType} {type : Option NativeType} {t : NativeType}

theorem find?_eq_some {key : WitKey} {n : Nat} {codec : Codec}
    (h : c.find? key t = some (n, codec)) : c.known[n]? = some (key, t, codec) := by
  obtain ⟨i, hi, h⟩ := Option.bind_eq_some_iff.mp h
  obtain ⟨⟨k, t', d⟩, he, h⟩ := Option.map_eq_some_iff.mp h
  obtain ⟨rfl, rfl⟩ := Prod.mk.inj h
  obtain ⟨hlt, hp, -⟩ := List.findIdx?_eq_some_iff_getElem.mp hi
  have hget : c.known[i] = (k, t', d) := Option.some.inj ((List.getElem?_eq_getElem hlt).symm.trans he)
  simp only [hget, Bool.and_eq_true, beq_iff_eq] at hp
  rw [he, hp.1, hp.2]

theorem find?_eq_none {key : WitKey} (h : c.find? key t = none) : ∀ e ∈ c.known, (e.1, e.2.1) ≠ (key, t) := by
  unfold find? at h
  cases hi : c.known.findIdx? fun e => e.1 == key && e.2.1 == t with
  | none =>
    intro e he heq
    obtain ⟨rfl, rfl⟩ := Prod.mk.inj heq
    simpa using List.findIdx?_eq_none_iff.mp hi e he
  | some i =>
    obtain ⟨hlt, -⟩ := List.findIdx?_eq_some_iff_getElem.mp hi
    simp [hi, hlt] at h

theorem Holds.add (hc : c.Holds types) {key : WitKey} {t : NativeType} {codec : Codec} (hwit : types wit)
    (hkey : wit.key? = some key) (hnew : c.find? key t = none) (hcodec : Codec.compile wit (some t) = .ok codec) :
    Holds types ⟨c.known ++ [(key, t, codec)]⟩ where
  compiled e he := by
    rcases List.mem_append.mp he with he | he
    · exact hc.compiled e he
    · obtain rfl := List.mem_singleton.mp he
      exact ⟨wit, hwit, hkey, hcodec⟩
  distinct := by
    rw [List.map_append, List.nodup_append]
    refine ⟨hc.distinct, by simp, fun x hx y hy => ?_⟩
    obtain ⟨e, he, rfl⟩ := List.mem_map.mp hx
    obtain rfl := List.mem_singleton.mp hy
    exact find?_eq_none hnew e he

structure Answers (types : WitType → Prop) (c : Compiler) (wit : WitType) (type : Option NativeType)
    (a : Except Stop (Nat × Codec) × Compiler) : Prop where
  holds : a.2.Holds types
  keeps : ∀ (n : Nat) e, c.known[n]? = some e → a.2.known[n]? = some e
  answer : a.1.map Prod.snd = Codec.compile wit type
  held : ∀ n codec, a.1 = .ok (n, codec) → ∃ key t, wit.key? = some key ∧ type = some t ∧
    a.2.known[n]? = some (key, t, codec)

theorem Answers.of_error {e : Stop} (hc : c.Holds types) (he : Codec.compile wit type = .error e) :
    Answers types c wit type (.error e, c) :=
  ⟨hc, fun _ _ => id, he.symm, nofun⟩

theorem answers_compile (hapart : Apart types) (hc : c.Holds types) (hwit : types wit) :
    Answers types c wit type (c.compile wit type) := by
  cases type with
  | none => exact .of_error hc rfl
  | some t =>
    cases hkey : wit.key? with
    | none =>
      cases wit with
      | absent => exact .of_error hc rfl
      | prim | defined => exact nomatch hkey
    | some key =>
      unfold compile
      simp only [hkey]
      cases hfind : c.find? key t with
      | some hit =>
        -- What is found was compiled for the type itself, for no other type has its identity.
        have hhit := find?_eq_some hfind
        obtain ⟨wit', hwit', hkey', hcodec⟩ := hc.compiled _ (List.mem_of_getElem? hhit)
        obtain rfl := hapart wit' wit hwit' hwit (hkey'.trans hkey.symm)
        refine ⟨hc, fun _ _ => id, hcodec.symm, fun n codec he => ⟨key, t, hkey, rfl, ?_⟩⟩
        obtain rfl := Except.ok.inj he
        exact hhit
      | none =>
        cases hcodec : Codec.compile wit (some t) with
        | error e => exact .of_error hc hcodec
        | ok codec =>
          refine ⟨hc.add hwit hkey hfind hcodec, fun n e he => ?_, hcodec.symm, fun n codec he =>
            ⟨key, t, hkey, rfl, ?_⟩⟩
          · obtain ⟨hlt, -⟩ := List.getElem?_eq_some_iff.mp he
            exact (List.getElem?_append_left hlt).trans he
          · obtain ⟨rfl, rfl⟩ := Prod.mk.inj (Except.ok.inj he)
            simp

theorem holds_after (hapart : Apart types) (rs : List Query) (hrs : ∀ r ∈ rs, types r.1) (hc : c.Holds types) :
    (c.after rs).Holds types ∧ (∀ (n : Nat) e, c.known[n]? = some e → (c.after rs).known[n]? = some e) ∧
      (c.compileAll (rs.map some)).map (Except.map Prod.snd) = rs.map (fun r => Codec.compile r.1 r.2) ∧
      ∀ (i n : Nat) codec, (c.compileAll (rs.map some))[i]? = some (.ok (n, codec)) →
        ∃ r key t, rs[i]? = some r ∧ r.1.key? = some key ∧ r.2 = some t ∧
          (c.after rs).known[n]? = some (key, t, codec) := by
  induction rs generalizing c with
  | nil => exact ⟨hc, fun _ _ => id, rfl, fun i n codec h => by simp [compileAll] at h⟩
  | cons r rest ih =>
    have hfirst : Answers types c r.1 r.2 _ := answers_compile hapart hc (hrs r List.mem_cons_self)
    obtain ⟨hc', hkeeps, hanswers, hrest⟩ := ih (fun x hx => hrs x (List.mem_cons_of_mem r hx)) hfirst.holds
    refine ⟨hc', fun n e he => hkeeps n e (hfirst.keeps n e he), ?_, fun i n codec h => ?_⟩
    · simp only [List.map_cons, compileAll, hfirst.answer, hanswers]
    · cases i with
      | zero =>
        obtain ⟨key, t, hkey, ht, hknown⟩ := hfirst.held n codec (by simpa [compileAll] using h)
        exact ⟨r, key, t, rfl, hkey, ht, hkeeps _ _ hknown⟩
      | succ i => exact hrest i n codec (by simpa [compileAll] using h)

end Compiler

open Compiler in
/-- **Compilers remember without a trace.** Call a new compiler any number of times, with primitive types, with
definitions that are the same if their identities are, or with no type, and with any native types. Every call
answers with the codec, or the fault, that a new compiler answers with. Calls that are answered with codecs are
answered with the very same codec exactly if they are for the same types. -/
theorem compiling_remembers (rs : List Query) (hids : ∀ r ∈ rs, ∀ r' ∈ rs, Consistent r.1 r'.1) :
    (compileAll {} (rs.map some)).map (Except.map Prod.snd) = rs.map (fun r => (compile {} r.1 r.2).1.map Prod.snd) ∧
    ∀ (i j n m : Nat) (x y : Codec) (r r' : Query), rs[i]? = some r → rs[j]? = some r' →
      (compileAll {} (rs.map some))[i]? = some (.ok (n, x)) →
      (compileAll {} (rs.map some))[j]? = some (.ok (m, y)) → ((n, x) = (m, y) ↔ r = r') := by
  have hapart : Apart fun wit => ∃ r ∈ rs, r.1 = wit := by
    rintro _ _ ⟨r, hr, rfl⟩ ⟨r', hr', rfl⟩ hkey
    exact (hids r hr r' hr').eq_of_key? hkey
  have hfresh : ∀ types, Holds types {} := fun _ => ⟨fun e he => by simp at he, List.nodup_nil⟩
  obtain ⟨hholds, -, hanswers, hheld⟩ := holds_after hapart rs (fun r hr => ⟨r, hr, rfl⟩) (hfresh _)
  refine ⟨hanswers.trans (List.map_congr_left fun r hr => ?_), fun i j n m x y r r' hi hj hx hy => ?_⟩
  · exact (answers_compile hapart (hfresh _) ⟨r, hr, rfl⟩).answer.symm
  · obtain ⟨_, key, t, hr, hkey, ht, hx⟩ := hheld i n x hx
    obtain ⟨_, key', t', hr', hkey', ht', hy⟩ := hheld j m y hy
    obtain rfl := Option.mem_unique hi hr
    obtain rfl := Option.mem_unique hj hr'
    constructor
    · intro he
      obtain ⟨rfl, -⟩ := Prod.mk.inj he
      obtain ⟨rfl, rfl, -⟩ : key = key' ∧ t = t' ∧ x = y := by simpa using Option.mem_unique hx hy
      have hids := hids r (List.mem_of_getElem? hi) r' (List.mem_of_getElem? hj)
      have hwit := hids.eq_of_key? (hkey.trans hkey'.symm)
      exact Prod.ext hwit (ht.trans ht'.symm)
    · -- One pair of types is held in one place.
      rintro rfl
      obtain rfl := Option.mem_unique hkey hkey'
      obtain rfl := Option.mem_unique ht ht'
      have hplace : n = m := by
        obtain ⟨hn, -⟩ := List.getElem?_eq_some_iff.mp hx
        exact (List.getElem?_inj (by simpa using hn) hholds.distinct).mp (by simp [hx, hy])
      subst hplace
      exact Prod.ext rfl (Prod.mk.inj (Prod.mk.inj (Option.mem_unique hx hy)).2).2

open Compiler in
/-- Two definitions of one content, the first asked for again after a failure. -/
theorem compiling_remembers_again :
    let bytes (id : Nat) : WitType := .defined (.mk id none (.list (.prim .u8)))
    let slice : Option NativeType := some (.slice (.int .uint8))
    let rs : List Query := [(bytes 1, slice), (bytes 2, slice), (.prim .s8, slice), (bytes 1, slice)]
    ∃ n m x y, (compileAll {} (rs.map some))[0]? = some (.ok (n, x)) ∧
      (compileAll {} (rs.map some))[1]? = some (.ok (m, y)) ∧ (n, x) ≠ (m, y) ∧
      (compileAll {} (rs.map some))[3]? = some (.ok (n, x)) := by
  intro bytes slice rs
  obtain ⟨-, hsame⟩ := compiling_remembers rs (by decide +kernel)
  obtain ⟨n, x, hfirst⟩ : ∃ n x, (compileAll {} (rs.map some))[0]? = some (.ok (n, x)) := ⟨_, _, rfl⟩
  obtain ⟨m, y, hsecond⟩ : ∃ m y, (compileAll {} (rs.map some))[1]? = some (.ok (m, y)) := ⟨_, _, rfl⟩
  obtain ⟨k, z, hagain⟩ : ∃ k z, (compileAll {} (rs.map some))[3]? = some (.ok (k, z)) := ⟨_, _, rfl⟩
  refine ⟨n, m, x, y, hfirst, hsecond, fun he => ?_, ?_⟩
  · exact absurd ((hsame 0 1 n m x y _ _ rfl rfl hfirst hsecond).mp he) (by decide)
  · rw [hagain, (hsame 0 3 n k x z _ _ rfl rfl hfirst hagain).mpr rfl]

end Tether
