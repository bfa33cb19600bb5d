import Mathlib.Data.UInt
import Tether.Settings.Reader

/-!
# Page counts

Flags count the pages of linear memory in 64 bits, settings in 32. The count of a flag is cut to 32 bits
before the settings are checked, so the check sees its remainder.
-/

namespace Tether.Settings

variable {f : Flags} {contents : Option String} {base s : Settings}

/-- The settings that flags are laid over: those of a file if one is named, or else the defaults. -/
def Flags.source (f : Flags) (contents : Option String) : Except SettingsFailure Settings :=
  if f.path = "" then .ok {} else load f.path contents

/-! ## Checks -/

theorem check_eq_ok_iff : s.check = .ok () ↔
    s.heap.check = .ok () ∧ s.buffers.check = .ok () ∧ s.log.check = .ok () := by
  unfold check
  cases s.heap.check <;> cases s.buffers.check <;> simp [bind, Except.bind]

theorem check_log_eq_ok_iff {l : LogSettings} : l.check = .ok () ↔ l.isKnown = true := by
  unfold LogSettings.check
  split <;> simp [*]

/-- A backend is accepted with every count of pages if it has none of its own, and else with one that it can have. -/
theorem check_buffers_eq_ok_iff {b : BufferSettings} : b.check = .ok () ↔ b.backend = blockBackend ∨
    b.backend = linearBackend ∧ 1 ≤ b.memoryPages ∧ b.memoryPages ≤ Storage.maxPages := by
  unfold BufferSettings.check
  by_cases hblock : b.backend = blockBackend
  · simp [hblock]
  · by_cases hlinear : b.backend = linearBackend
    · rw [if_neg hblock, if_pos hlinear]
      split
      case isTrue hpages =>
        simp only [hblock, reduceCtorEq, false_or, false_iff]
        omega
      case isFalse hpages =>
        simp only [true_iff]
        exact .inr ⟨hlinear, by omega⟩
    · simp [hblock, hlinear]

/-! ## Sources -/

theorem check_of_parse {text : String} (h : parse text = .ok s) : s.check = .ok () := by
  unfold parse at h
  split at h
  · cases h
  · split at h
    · cases h
    · rename_i r _
      split at h
      · cases hc : r.settings.check with
        | error e =>
          rw [hc] at h
          cases h
        | ok u =>
          rw [hc] at h
          cases h
          exact hc
      · cases h

theorem check_of_source (h : f.source contents = .ok base) : base.check = .ok () := by
  unfold Flags.source at h
  split at h
  · cases h
    exact check_eq_ok_iff.mpr ⟨rfl, rfl, check_log_eq_ok_iff.mpr (by decide +kernel)⟩
  · unfold load at h
    split at h
    · cases h
    · rename_i text
      cases hp : parse text with
      | error e =>
        rw [hp] at h
        cases h
      | ok t =>
        rw [hp] at h
        cases h
        exact check_of_parse hp

/-- The settings that flags resolve to: those of the source with the flags over them, if they pass the checks. -/
theorem resolve_eq_ok_iff : resolve f contents = .ok s ↔
    ∃ base, f.source contents = .ok base ∧ s = base.withFlags f ∧ s.check = .ok () := by
  have hresolve : resolve f contents = f.source contents >>= fun base =>
      ((base.withFlags f).check.map fun _ => base.withFlags f).mapError SettingsFailure.fault := by
    unfold resolve Flags.source
    split <;> rfl
  rw [hresolve]
  cases f.source contents with
  | error e => simp [bind, Except.bind]
  | ok base =>
    simp only [bind, Except.bind, Except.ok.injEq, exists_eq_left']
    cases hc : (base.withFlags f).check with
    | error e =>
      constructor
      · intro h
        cases h
      · rintro ⟨hs, hok⟩
        cases hc.symm.trans (hs ▸ hok)
    | ok u =>
      refine ⟨fun h => ?_, fun h => congrArg Except.ok h.1.symm⟩
      cases h
      exact ⟨rfl, hc⟩

theorem memoryPages_withFlags (hp : f.pages ≠ 0) (base : Settings) :
    (base.withFlags f).buffers.memoryPages = f.pages.toNat % 2 ^ 32 := by
  simp [withFlags, hp]

/-- **Page counts are cut.** Take flags with a count of pages, over any source. If they resolve to settings,
these pass the checks and have the count's remainder by 2 ^ 32, which is the count exactly if 32 bits hold it.
Let the source be read, and let linear memory and a known level come of it. Then the flags resolve exactly if the
remainder is a number of pages that a memory can have. This is right for the count itself unless the count
has more than 32 bits and such a remainder. -/
theorem page_counts_cut (f : Flags) (contents : Option String) (hp : f.pages ≠ 0) :
    (∀ s, resolve f contents = .ok s → s.check = .ok () ∧ s.buffers.memoryPages = f.pages.toNat % 2 ^ 32 ∧
      (s.buffers.memoryPages = f.pages.toNat ↔ f.pages.toNat < 2 ^ 32)) ∧
    ∀ base, f.source contents = .ok base → (base.withFlags f).buffers.backend = linearBackend →
      (base.withFlags f).log.isKnown = true →
      ((∃ s, resolve f contents = .ok s) ↔ 1 ≤ f.pages.toNat % 2 ^ 32 ∧ f.pages.toNat % 2 ^ 32 ≤ Storage.maxPages) ∧
      (((∃ s, resolve f contents = .ok s) ↔ 1 ≤ f.pages.toNat ∧ f.pages.toNat ≤ Storage.maxPages) ↔
        ¬ (2 ^ 32 ≤ f.pages.toNat ∧ 1 ≤ f.pages.toNat % 2 ^ 32 ∧ f.pages.toNat % 2 ^ 32 ≤ Storage.maxPages)) := by
  refine ⟨fun s hs => ?_, fun base hbase hlinear hlevel => ?_⟩
  · obtain ⟨base, -, rfl, hcheck⟩ := resolve_eq_ok_iff.mp hs
    rw [memoryPages_withFlags hp]
    exact ⟨hcheck, rfl, by omega⟩
  · have hresolves : (∃ s, resolve f contents = .ok s) ↔
        1 ≤ f.pages.toNat % 2 ^ 32 ∧ f.pages.toNat % 2 ^ 32 ≤ Storage.maxPages := by
      have hheap : (base.withFlags f).heap.check = .ok () := (check_eq_ok_iff.mp (check_of_source hbase)).1
      have hblock : linearBackend ≠ blockBackend := by decide
      simp only [resolve_eq_ok_iff, hbase, Except.ok.injEq, exists_eq_left', exists_eq_left, check_eq_ok_iff,
        check_log_eq_ok_iff, check_buffers_eq_ok_iff, memoryPages_withFlags hp]
      simp [hheap, hlinear, hlevel, hblock]
    have hmax : Storage.maxPages < 2 ^ 32 := by decide
    exact ⟨hresolves, by rw [hresolves]; omega⟩

/-- One page more than 32 bits can count is taken for one page. -/
theorem page_counts_cut_wide : ∃ s, resolve { backend := "wasm", pages := 2 ^ 32 + 1 } none = .ok s ∧
    s.buffers.memoryPages = 1 := by
  obtain ⟨hkept, haccepted⟩ := page_counts_cut { backend := "wasm", pages := 2 ^ 32 + 1 } none (by decide)
  obtain ⟨s, hs⟩ := (haccepted {} rfl rfl (by decide +kernel)).1.mpr (by decide)
  exact ⟨s, hs, (hkept s hs).2.1⟩

end Tether.Settings
