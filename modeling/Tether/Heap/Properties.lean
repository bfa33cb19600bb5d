/-!
# Property tables

Hidden properties are a map from keys to values. Ordinary properties are such a map and, beside it, the
keys in the order in which they came in: writing to a key that is there keeps its place, and a key that
was erased and written again comes last. The map and the keys are updated one after the other; that they
agree is a fact about histories of a table, not part of what a table is.
-/

namespace Tether

/-- A map from keys to values, as a list of its entries in no particular order. -/
structure KeyMap (α : Type) where
  entries : List (String × α) := []

namespace KeyMap

variable {α : Type} (m : KeyMap α) (k : String) {v x : α}

def get? : Option α := m.entries.lookup k

def has : Bool := (m.get? k).isSome

def values : List α := m.entries.map (·.2)

def erase : KeyMap α := ⟨m.entries.filter (·.1 != k)⟩

def put (v : α) : KeyMap α := ⟨(k, v) :: (m.erase k).entries⟩

/-- Looking a key up compares it with the first key, then with the others. -/
theorem lookup_entry (k j : String) (w : α) (rest : List (String × α)) :
    List.lookup k ((j, w) :: rest) = if k = j then some w else List.lookup k rest := by
  by_cases h : k = j
  · simp [h]
  · have h' : (k == j) = false := by simpa using h
    simp [List.lookup_cons, h, h']

theorem get?_erase (k k' : String) : (m.erase k).get? k' = if k' = k then none else m.get? k' := by
  simp only [erase, get?]
  induction m.entries with
  | nil => simp
  | cons e rest ih =>
    obtain ⟨j, w⟩ := e
    by_cases hj : j = k <;> simp only [List.filter_cons, bne_iff_ne, ne_eq, hj, lookup_entry, ih,
      not_true, not_false_eq_true, if_true, if_false] <;> grind

/-- The last write to a key wins, and no other key sees it. -/
theorem get?_put (k k' : String) (v : α) : (m.put k v).get? k' = if k' = k then some v else m.get? k' := by
  rw [show (m.put k v).get? k' = _ from lookup_entry k' k v _]
  split
  case isTrue => rfl
  case isFalse hk => exact (m.get?_erase k k').trans (if_neg hk)

variable {m k}

theorem erase_of_not_has (hk : m.has k = false) : m.erase k = m := by
  have hnone : m.entries.lookup k = none := by simpa [has, get?] using hk
  have he : m.entries.filter (·.1 != k) = m.entries := List.filter_eq_self.mpr fun e he => by
    simpa using Ne.symm (by simpa using List.lookup_eq_none_iff.mp hnone e he)
  simp only [erase, he]

theorem mem_values_of_get? (h : m.get? k = some v) : v ∈ m.values := by
  unfold get? at h
  unfold values
  generalize m.entries = es at h ⊢
  induction es with
  | nil => simp at h
  | cons e rest ih =>
    obtain ⟨j, y⟩ := e
    rw [lookup_entry] at h
    split at h
    · exact List.mem_map.mpr ⟨(j, y), List.mem_cons_self, Option.some.inj h⟩
    · exact List.mem_cons_of_mem _ (ih h)

theorem mem_values_erase (h : x ∈ (m.erase k).values) : x ∈ m.values := by
  obtain ⟨e, he, hx⟩ := List.mem_map.mp h
  exact List.mem_map.mpr ⟨e, (List.mem_filter.mp he).1, hx⟩

theorem mem_values_put (h : x ∈ (m.put k v).values) : x = v ∨ x ∈ m.values :=
  (List.mem_cons.mp h).imp_right mem_values_erase

end KeyMap

/-- The own properties of an object: a map, and the keys in the order in which they came in. -/
structure Properties (α : Type) where
  map : KeyMap α := {}
  keys : List String := []

namespace Properties

variable {α : Type} (t : Properties α) (k : String)

def get? : Option α := t.map.get? k

def has : Bool := t.map.has k

def values : List α := t.map.values

/-- What is listed: each key with the value that the map has for it. -/
def entries : List (String × α) := t.keys.filterMap fun k => (t.get? k).map (k, ·)

def put (v : α) : Properties α where
  keys := if t.has k then t.keys else t.keys ++ [k]
  map := t.map.put k v

/-- The first place where the key stands is taken out of the keys, and what follows it moves up. -/
def erase : Properties α :=
  if t.has k then { map := t.map.erase k, keys := t.keys.erase k } else t

theorem get?_put (k k' : String) (v : α) : (t.put k v).get? k' = if k' = k then some v else t.get? k' :=
  t.map.get?_put k k' v

theorem map_erase : (t.erase k).map = t.map.erase k := by
  unfold erase
  split
  case isTrue => rfl
  case isFalse hk => exact (KeyMap.erase_of_not_has (Bool.eq_false_iff.mpr hk)).symm

theorem get?_erase (k k' : String) : (t.erase k).get? k' = if k' = k then none else t.get? k' := by
  unfold get?
  rw [map_erase, KeyMap.get?_erase]

theorem mem_values_erase {t : Properties α} {k : String} {x : α} (h : x ∈ (t.erase k).values) :
    x ∈ t.values := by
  unfold values at h
  rw [map_erase] at h
  exact KeyMap.mem_values_erase h

end Properties

end Tether
