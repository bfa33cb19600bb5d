import Tether.Codec.Compile

/-!
# Which field stands for a name

A field of a structure may stand for a field of a record by its tag, by its spelling up to case, or by its
spelling in lower case with hyphens. The rules have an order, and so have the fields of a structure. The
search goes through the fields and asks of each whether any rule selects it, so the fields come first and
the rules second.
-/

namespace Tether

/-- The rules by which a field may stand for a name, the strongest first. -/
inductive FieldRule where
  | tag | spelling | kebab
deriving DecidableEq

namespace FieldRule

def all : List FieldRule := [tag, spelling, kebab]

def rank : FieldRule → Nat
  | tag => 0
  | spelling => 1
  | kebab => 2

/-- A field that is exported and not tagged with a hyphen carries a name, in the way that a rule says. -/
def selects (name : String) (f : NativeField) (r : FieldRule) : Bool :=
  f.exported && f.witTag != Text.bytes "-" &&
    match r with
    | tag => !f.witTag.isEmpty && f.witTag == Text.bytes name
    | spelling => Text.equalFold f.name name
    | kebab => Text.toKebab f.name == name

variable {P : FieldRule → Prop}

theorem exists_iff : (∃ r, P r) ↔ P tag ∨ P spelling ∨ P kebab :=
  ⟨fun ⟨r, hr⟩ => by cases r <;> simp [hr], by rintro (h | h | h) <;> exact ⟨_, h⟩⟩

theorem forall_iff : (∀ r, P r) ↔ P tag ∧ P spelling ∧ P kebab :=
  ⟨fun h => ⟨h _, h _, h _⟩, fun h r => by cases r <;> simp [h]⟩

end FieldRule

def firstField? (p : NativeField → Bool) (fields : List NativeField) : Option (Nat × NativeField) :=
  (fields.findIdx? p).bind fun i => (fields[i]?).map fun f => (i, f)

/-- The first field that is selected by the strongest rule that selects any. -/
def preferredField? (fields : List NativeField) (name : String) : Option (Nat × NativeField) :=
  FieldRule.all.findSome? fun r => firstField? (r.selects name) fields

variable {p : NativeField → Bool} {fields : List NativeField} {name : String} {i : Nat} {f : NativeField}

theorem firstField?_eq_some_iff : firstField? p fields = some (i, f) ↔ fields[i]? = some f ∧ p f = true ∧
    ∀ j < i, ∀ g, fields[j]? = some g → p g = false := by
  unfold firstField?
  simp only [Option.bind_eq_some_iff, Option.map_eq_some_iff, Prod.mk.injEq, List.findIdx?_eq_some_iff_getElem]
  constructor
  · rintro ⟨k, ⟨hk, hp, hbefore⟩, g, hg, rfl, rfl⟩
    obtain rfl : fields[k] = g := Option.some.inj ((List.getElem?_eq_getElem hk).symm.trans hg)
    refine ⟨hg, hp, fun j hj g hg => ?_⟩
    obtain ⟨hlt, rfl⟩ := List.getElem?_eq_some_iff.mp hg
    simpa using hbefore j hj
  · rintro ⟨hf, hp, hbefore⟩
    obtain ⟨hi, rfl⟩ := List.getElem?_eq_some_iff.mp hf
    refine ⟨i, ⟨hi, hp, fun j hj => ?_⟩, _, hf, rfl, rfl⟩
    simpa using hbefore j hj _ (List.getElem?_eq_getElem (by omega))

theorem firstField?_eq_none_iff : firstField? p fields = none ↔ ∀ f ∈ fields, p f = false := by
  constructor
  · intro h
    unfold firstField? at h
    cases hi : fields.findIdx? p with
    | none => simpa [List.findIdx?_eq_none_iff] using hi
    | some i =>
      obtain ⟨hlt, -⟩ := List.findIdx?_eq_some_iff_getElem.mp hi
      simp [hi, hlt] at h
  · intro h
    simp [firstField?, List.findIdx?_eq_none_iff.mpr h]

theorem standsFor_iff (f : NativeField) (name : String) :
    f.standsFor name = true ↔ ∃ r : FieldRule, r.selects name f = true := by
  rw [FieldRule.exists_iff]
  unfold NativeField.standsFor FieldRule.selects
  by_cases hhidden : f.witTag = Text.bytes "-" <;> cases f.exported <;> simp [hhidden, or_assoc]

theorem findField?_eq (fields : List NativeField) (name : String) :
    findField? fields name = firstField? (·.standsFor name) fields := by
  suffices h : ∀ l i, findFieldFrom? name i l = (firstField? (·.standsFor name) l).map fun e => (i + e.1, e.2) by
    simpa [findField?] using h fields 0
  intro l
  induction l with
  | nil => exact fun i => rfl
  | cons f rest ih =>
    intro i
    simp only [findFieldFrom?, firstField?, List.findIdx?_cons, ih]
    cases f.standsFor name with
    | true => rfl
    | false =>
      cases rest.findIdx? (·.standsFor name) with
      | none => rfl
      | some k => cases hk : rest[k]? <;> simp [hk]; omega

theorem preferredField?_eq_some_iff {e : Nat × NativeField} : preferredField? fields name = some e ↔
    ∃ r : FieldRule, firstField? (r.selects name) fields = some e ∧
      ∀ r' : FieldRule, r'.rank < r.rank → firstField? (r'.selects name) fields = none := by
  simp only [preferredField?, FieldRule.all, List.findSome?_cons, List.findSome?_nil, FieldRule.exists_iff,
    FieldRule.forall_iff, FieldRule.rank]
  cases firstField? (FieldRule.tag.selects name) fields <;>
    cases firstField? (FieldRule.spelling.selects name) fields <;>
    cases firstField? (FieldRule.kebab.selects name) fields <;> simp

theorem standsFor_eq_false_iff (f : NativeField) (name : String) :
    f.standsFor name = false ↔ ∀ r : FieldRule, r.selects name f = false := by
  rw [← Bool.not_eq_true, standsFor_iff]
  simp

theorem preferredField?_eq_none_iff : preferredField? fields name = none ↔
    ∀ r : FieldRule, firstField? (r.selects name) fields = none := by
  simp [preferredField?, FieldRule.all, FieldRule.forall_iff]

theorem preferredField?_of_find (hfound : findField? fields name = some (i, f)) {r : FieldRule}
    (hr : r.selects name f = true)
    (hleast : ∀ r' : FieldRule, r'.rank < r.rank → ∀ g ∈ fields, r'.selects name g = false) :
    preferredField? fields name = some (i, f) := by
  rw [findField?_eq, firstField?_eq_some_iff] at hfound
  obtain ⟨hf, -, hbefore⟩ := hfound
  refine preferredField?_eq_some_iff.mpr ⟨r, firstField?_eq_some_iff.mpr ⟨hf, hr, fun j hj g hg => ?_⟩,
    fun r' hr' => firstField?_eq_none_iff.mpr (hleast r' hr')⟩
  exact (standsFor_eq_false_iff g name).mp (hbefore j hj g hg) r

theorem exists_strongest (h : ∃ r : FieldRule, r.selects name f = true) :
    ∃ r : FieldRule, r.selects name f = true ∧ ∀ r' : FieldRule, r'.selects name f = true → r.rank ≤ r'.rank := by
  simp only [FieldRule.exists_iff, FieldRule.forall_iff, FieldRule.rank] at h ⊢
  rcases ht : FieldRule.tag.selects name f <;> rcases hs : FieldRule.spelling.selects name f <;> simp_all

/-- **Which field is found.** The search finds the first field that any rule selects, and so it finds one
exactly if a rule selects one. That field is the preferred one exactly if no field is selected by a rule
stronger than the rules that select it; otherwise it is found in place of the preferred one. -/
theorem field_preferred_iff (fields : List NativeField) (name : String) :
    (∀ i f, findField? fields name = some (i, f) ↔ fields[i]? = some f ∧ (∃ r : FieldRule, r.selects name f = true) ∧
      ∀ j < i, ∀ g, fields[j]? = some g → ∀ r : FieldRule, r.selects name g = false) ∧
    (findField? fields name = none ↔ preferredField? fields name = none) ∧
    (findField? fields name = preferredField? fields name ↔
      ∀ i f, findField? fields name = some (i, f) → ∀ g ∈ fields, ∀ r : FieldRule, r.selects name g = true →
        ∃ r' : FieldRule, r'.rank ≤ r.rank ∧ r'.selects name f = true) := by
  have hnone : findField? fields name = none ↔ preferredField? fields name = none := by
    simp only [findField?_eq, preferredField?_eq_none_iff, firstField?_eq_none_iff, standsFor_eq_false_iff]
    exact ⟨fun h r g hg => h g hg r, fun h g hg r => h r g hg⟩
  refine ⟨fun i f => ?_, hnone, fun he i f hf g hg r hr => ?_, fun h => ?_⟩
  · simp only [findField?_eq, firstField?_eq_some_iff, standsFor_iff, standsFor_eq_false_iff]
  · -- The preferred field is selected by the strongest rule that selects any.
    obtain ⟨r', hr', hstronger⟩ := preferredField?_eq_some_iff.mp (he.symm.trans hf)
    refine ⟨r', Nat.not_lt.mp fun hlt => ?_, (firstField?_eq_some_iff.mp hr').2.1⟩
    exact absurd hr (by simp [firstField?_eq_none_iff.mp (hstronger r hlt) g hg])
  · cases hf : findField? fields name with
    | none => exact (hnone.mp hf).symm
    | some e =>
      obtain ⟨i, f⟩ := e
      have hstands := (firstField?_eq_some_iff.mp ((findField?_eq fields name).symm.trans hf)).2.1
      obtain ⟨r, hr, hleast⟩ := exists_strongest ((standsFor_iff f name).mp hstands)
      refine (preferredField?_of_find hf hr fun r' hr' g hg => ?_).symm
      refine Bool.eq_false_iff.mpr fun hselected => ?_
      obtain ⟨r1, hle, hr1⟩ := h i f hf g hg r' hselected
      have := hleast r1 hr1
      omega

/-- A field that only looks like the name is found before a later field that is tagged with it. -/
example : let fields : List NativeField :=
      [⟨"Name", .string, "", true⟩, ⟨"Label", .string, "wit:\"name\"", true⟩]
    (findField? fields "name").map (·.1) = some 0 ∧ (preferredField? fields "name").map (·.1) = some 1 := by
  decide +kernel

end Tether
