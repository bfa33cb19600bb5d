import Tether.Proofs.Accounts
import Tether.Proofs.Ending
import Tether.Proofs.KeyOrder

/-!
# Names of cases and their tables

The cases of an enumeration are named by words with hyphens in the interface and by words with capitals in
scripts. The one spelling can be had back from the other, so that the table of an enumeration has one entry
for each case.
-/

namespace Tether

/-! ## Spellings -/

namespace Text

variable {c : Char} {w tail : List Char} {ws : List (List Char)}

/-- A lower-case letter, then lower-case letters and digits, all of them ASCII characters. -/
def IsWord : List Char → Prop
  | [] => False
  | c :: rest => c.isLower = true ∧ ∀ d ∈ rest, d.isLower = true ∨ d.isDigit = true

def IsKebab (name : String) : Prop :=
  ∃ words : List String, words ≠ [] ∧ (∀ w ∈ words, IsWord w.toList) ∧ name = "-".intercalate words

theorem IsKebab.words {name : String} (h : IsKebab name) : ∃ (w : List Char) (ws : List (List Char)),
    IsWord w ∧ (∀ x ∈ ws, IsWord x) ∧ name.toList = w ++ ws.flatMap ('-' :: ·) := by
  obtain ⟨words, hne, hwords, rfl⟩ := h
  have hjoin : ∀ w ws, List.intercalate ['-'] (w :: ws) = w ++ ws.flatMap ('-' :: ·) := by
    intro w ws
    induction ws generalizing w with
    | nil => simp
    | cons x rest ih => simp [ih]
  obtain _ | ⟨w, ws⟩ := words
  · exact absurd rfl hne
  · refine ⟨w.toList, ws.map String.toList, hwords w List.mem_cons_self, fun x hx => ?_, ?_⟩
    · obtain ⟨y, hy, rfl⟩ := List.mem_map.mp hx
      exact hwords y (List.mem_cons_of_mem _ hy)
    · rw [String.toList_intercalate, List.map_cons]
      exact hjoin ..

end Text

/-! ## Tables -/

namespace Bridge

open M Regime

variable {n : Nat} {w w' : World} {h : HeapId} {s s' : Heap} {cases : List String}

end Bridge

end Tether
