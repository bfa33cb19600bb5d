import Tether.Fault.Basic

/-!
# Kinds in a tree of faults

A fault is a tree: an issue or a heading stands above its cause, a join above its members. Asking a fault
for a kind searches the tree along one path. At a join the search enters the first member with an issue
in it, and it never comes back to the members after that one.
-/

namespace Tether

namespace Fault

mutual

/-- The issues anywhere in the tree, outside in, members of a join in order. -/
def issues : Fault → List Issue
  | plain _ => []
  | issue i => [i]
  | caused i cause => i :: issues cause
  | headed _ cause => issues cause
  | joined members => issuesOf members

def issuesOf : List Fault → List Issue
  | [] => []
  | f :: rest => issues f ++ issuesOf rest

end

mutual

/-- The issues on the path of the search: below a join it goes on in the first member with an issue. -/
def searched : Fault → List Issue
  | plain _ => []
  | issue i => [i]
  | caused i cause => i :: searched cause
  | headed _ cause => searched cause
  | joined members => searchedOf members

def searchedOf : List Fault → List Issue
  | [] => []
  | f :: rest => if issues f = [] then searchedOf rest else searched f

end

mutual

theorem firstIssue?_eq_head? : ∀ f : Fault, f.firstIssue? = f.issues.head?
  | plain _ | issue _ | caused _ _ => rfl
  | headed _ cause => firstIssue?_eq_head? cause
  | joined members => firstIssueOf?_eq_head? members

theorem firstIssueOf?_eq_head? : ∀ members : List Fault, firstIssueOf? members = (issuesOf members).head?
  | [] => rfl
  | f :: rest => by
    rw [firstIssueOf?, issuesOf, List.head?_append, firstIssue?_eq_head? f, firstIssueOf?_eq_head? rest]

end

theorem isSome_firstIssue? (f : Fault) : f.firstIssue?.isSome ↔ f.issues ≠ [] := by
  rw [firstIssue?_eq_head?]
  cases f.issues <;> simp

mutual

theorem sublist_searched : ∀ f : Fault, f.searched.Sublist f.issues
  | plain _ | issue _ => .refl _
  | caused _ cause => (sublist_searched cause).cons_cons _
  | headed _ cause => sublist_searched cause
  | joined members => sublist_searchedOf members

theorem sublist_searchedOf : ∀ members : List Fault, (searchedOf members).Sublist (issuesOf members)
  | [] => .refl _
  | f :: rest => by
    rw [searchedOf, issuesOf]
    split
    · exact (sublist_searchedOf rest).trans (List.sublist_append_right _ _)
    · exact (sublist_searched f).trans (List.sublist_append_left _ _)

end

mutual

theorem hasKind_iff (k : Kind) : ∀ f : Fault, f.hasKind k = true ↔ ∃ i ∈ f.searched, i.kind = k
  | plain _ | issue i => by simp [hasKind, searched]
  | caused i cause => by simp [hasKind, searched, hasKind_iff k cause]
  | headed _ cause => hasKind_iff k cause
  | joined members => hasKindFirst_iff k members

theorem hasKindFirst_iff (k : Kind) : ∀ members : List Fault,
    hasKindFirst k members = true ↔ ∃ i ∈ searchedOf members, i.kind = k
  | [] => by simp [hasKindFirst, searchedOf]
  | f :: rest => by
    rw [hasKindFirst, searchedOf]
    by_cases h : f.issues = []
    · rw [if_neg (by rw [isSome_firstIssue?]; exact fun hne => hne h), if_pos h]
      exact hasKindFirst_iff k rest
    · rw [if_pos ((isSome_firstIssue? f).mpr h), if_neg h]
      exact hasKind_iff k f

end

end Fault

open Fault

/-- **One path is searched.** A fault has a kind exactly if an issue on the path of the search has it. That
is the kind of some issue anywhere in the tree, for every kind, exactly if each issue of the tree shares its
kind with one on the path. A join answers as its first member, if that has an issue in it, whatever the
members after it hold. -/
theorem kinds_seen_iff (f : Fault) :
    (∀ k, f.hasKind k = true ↔ ∃ i ∈ f.searched, i.kind = k) ∧ f.searched.Sublist f.issues ∧
    ((∀ k, f.hasKind k = true ↔ ∃ i ∈ f.issues, i.kind = k) ↔ ∀ i ∈ f.issues, ∃ j ∈ f.searched, j.kind = i.kind) ∧
    (f.issues ≠ [] → ∀ k rest, (joined (f :: rest)).hasKind k = f.hasKind k) := by
  refine ⟨fun k => hasKind_iff k f, sublist_searched f, ⟨?_, ?_⟩, ?_⟩
  · intro hwhole i hi
    exact (hasKind_iff i.kind f).mp ((hwhole i.kind).mpr ⟨i, hi, rfl⟩)
  · intro hshared k
    rw [hasKind_iff]
    constructor
    · rintro ⟨i, hi, hk⟩
      exact ⟨i, (sublist_searched f).subset hi, hk⟩
    · rintro ⟨i, hi, rfl⟩
      exact hshared i hi
  · intro hsome k rest
    show hasKindFirst k (f :: rest) = _
    rw [hasKindFirst, if_pos ((isSome_firstIssue? f).mpr hsome)]

end Tether
