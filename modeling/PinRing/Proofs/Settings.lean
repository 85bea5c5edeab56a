import PinRing.Proofs.Except
import PinRing.Proofs.Placement.Stages
import PinRing.Settings.Run

/-! Settings that are accepted, and what a run makes of them. -/

namespace PinRing

theorem Boundary.sections_of_size {b : Boundary} (h : b.size = 0) (size : Nat) :
    b.sections size = [] := by
  have hslots : b.slots = #[] := Array.eq_empty_of_size_eq_zero h
  have hruns : b.edgeRuns = [] := by rw [edgeRuns, hslots]; rfl
  rw [sections, hruns]
  rfl

namespace Settings

variable {s : Settings}

/-- Settings that are accepted make a configuration, unless the size of sections is a double. -/
theorem config_of_validate (h : s.validate = .ok s) :
    (∃ config, s.config = .ok config) ∨
      ∃ x, s.sectionSize = .float x ∧ s.config = .error .wrongType := by
  obtain ⟨tooSmall, hsmall, h⟩ := exists_of_bind_eq_ok h
  split at h
  · obtain ⟨_, -, h⟩ := exists_of_bind_eq_ok h
    cases h
  rename_i hlarge
  obtain ⟨share, hshare, -⟩ := exists_of_bind_eq_ok h
  rw [Bool.not_eq_true] at hlarge
  subst hlarge
  unfold config
  cases hsize : s.sectionSize with
  | int n =>
    rw [hsize] at hsmall
    have hpos : 0 < n.toNat := by
      have hn : ¬n < 1 := by simpa [belowOne] using hsmall
      omega
    refine .inl ⟨⟨n.toNat, hpos, share, s.strictMirroring.truthy, s.assignGroups.truthy⟩, ?_⟩
    simp only [hshare, Bind.bind, Except.bind, pure, Except.pure, dif_pos hpos]
  | bool on =>
    rw [hsize] at hsmall
    obtain rfl : on = true := by simpa [belowOne] using hsmall
    refine .inl ⟨⟨1, Nat.one_pos, share, s.strictMirroring.truthy, s.assignGroups.truthy⟩, ?_⟩
    simp only [hshare]
    rfl
  | float x => exact .inr ⟨x, rfl, rfl⟩
  | _ =>
    rw [hsize] at hsmall
    cases hsmall

/-- Runs under accepted settings are runs under a configuration.  Only where the size of sections is
a double and there are slots to divide, there is no run. -/
theorem run_of_validate (h : s.validate = .ok s) :
    (∃ config, ∀ board model reflection,
      s.run board model reflection = .ok (PinRing.run board model reflection config)) ∨
    ∃ x, s.sectionSize = .float x ∧ ∀ board model reflection,
      (board.boundary.size ≠ 0 → s.run board model reflection = .error .wrongType) ∧
      (board.boundary.size = 0 → ∀ config,
        s.run board model reflection = .ok (PinRing.run board model reflection config)) := by
  rcases config_of_validate h with ⟨config, hconfig⟩ | ⟨x, hsize, hconfig⟩
  · refine .inl ⟨config, fun board model reflection => ?_⟩
    simp only [run, hconfig]
  · refine .inr ⟨x, hsize, fun board model reflection => ⟨fun hne => ?_, fun hnil config => ?_⟩⟩
    · simp only [run, hconfig, if_neg hne]
    · rw [run_of_nil reflection (Boundary.sections_of_size hnil _)]
      simp only [run, hconfig, if_pos hnil]

theorem run_or_wrongType (h : s.validate = .ok s) (board : Board) (model : CostModel)
    (reflection : Option Reflection) :
    (∃ config, s.run board model reflection = .ok (PinRing.run board model reflection config)) ∨
      ∃ x, s.sectionSize = .float x ∧ board.boundary.size ≠ 0 ∧
        s.run board model reflection = .error .wrongType := by
  rcases run_of_validate h with ⟨config, hrun⟩ | ⟨x, hsize, hrun⟩
  · exact .inl ⟨config, hrun board model reflection⟩
  · obtain ⟨hslots, hnone⟩ := hrun board model reflection
    by_cases hnil : board.boundary.size = 0
    · exact .inl ⟨{ usageFactor := ⟨1, 0, by decide, by decide⟩ }, hnone hnil _⟩
    · exact .inr ⟨x, hsize, hnil, hslots hnil⟩

end Settings

end PinRing
