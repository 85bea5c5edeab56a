import PinRing.Proofs.Except
import PinRing.Proofs.Placement.Seating

/-! Two reviews of one placement.  A review reads where the pins sit, and of the slots under them
whether they are marked as used.  So on a board where all these are marked it has the issues that it
has on any other board with the same slots and pins, less those about marks. -/

namespace PinRing

namespace Review

open Board

variable {b other : Board} {blocked : List Nat} {issues : List Issue}

theorem slotIssues_sublist {slot : Nat} (hused : b.boundary.isUsed slot) (blocked : List Nat)
    (name : String) (owner : Option String) :
    (slotIssues b blocked name slot owner).Sublist (slotIssues other blocked name slot owner) := by
  have hmarked : (b.boundary.slots[slot]?).any (·.used) = true := hused
  simp only [slotIssues, hmarked, if_true]
  exact ((List.Sublist.refl _).append (List.nil_sublist _)).append (List.Sublist.refl _)

theorem checkSlots_sublist
    (hat : ∀ pos layer, b.boundary.slotAt? pos layer = other.boundary.slotAt? pos layer)
    {owners : List (Nat × String)} {ps : List Pin}
    (hused : ∀ p ∈ ps, ∀ s slot, p.spot = some s →
      b.boundary.slotAt? s.pos s.layer = some slot → b.boundary.isUsed slot)
    (h : checkSlots other blocked owners ps = .ok issues) :
    ∃ found, checkSlots b blocked owners ps = .ok found ∧ found.Sublist issues := by
  induction ps generalizing owners issues with
  | nil => exact ⟨issues, h, List.Sublist.refl _⟩
  | cons p ps ih =>
    obtain ⟨hp, hps⟩ := List.forall_mem_cons.mp hused
    rw [checkSlots] at h ⊢
    cases hspot : p.spot with
    | none =>
      rw [hspot] at h
      exact ih hps h
    | some s =>
      simp only [hspot, hat] at h ⊢
      cases hslot : other.boundary.slotAt? s.pos s.layer with
      | none =>
        simp only [hslot] at h ⊢
        obtain ⟨position, hposition, h⟩ := exists_of_bind_eq_ok h
        obtain ⟨layer, hlayer, h⟩ := exists_of_bind_eq_ok h
        obtain ⟨rest, hrest, h⟩ := exists_of_bind_eq_ok h
        obtain ⟨found, hfound, hsub⟩ := ih hps hrest
        cases h
        rw [hposition, hlayer, hfound]
        exact ⟨_, rfl, hsub.cons_cons _⟩
      | some slot =>
        simp only [hslot] at h ⊢
        obtain ⟨rest, hrest, h⟩ := exists_of_bind_eq_ok h
        obtain ⟨found, hfound, hsub⟩ := ih hps hrest
        cases h
        rw [hfound]
        have hmarked := hp s slot hspot ((hat _ _).trans hslot)
        exact ⟨_, rfl, (slotIssues_sublist hmarked blocked p.name _).append hsub⟩

theorem checkMirrors_congr (hpins : b.pins = other.pins) (reflection : Option Reflection) :
    checkMirrors b reflection = checkMirrors other reflection := by
  have hpair : ∀ reflect, checkPair b reflect = checkPair other reflect := by
    intro reflect
    funext e
    rw [checkPair, checkPair, hpins]
  cases reflection with
  | none => rfl
  | some reflect => rw [checkMirrors, checkMirrors, hpins, hpair]

theorem checkGroups_congr (hpins : b.pins = other.pins) (hslot : ∀ i, slotOf b i = slotOf other i) :
    checkGroups b = checkGroups other := by
  have hgroup : checkGroup b = checkGroup other := by
    funext g
    rw [checkGroup, checkGroup, funext hslot]
  rw [checkGroups, checkGroups, hpins, hgroup]

end Review

open Board Review

/-- Where all slots under pins are marked as used, a review finds nothing that it does not find on
another board with the same slots and pins. -/
theorem review_sublist {b other : Board} {reflection : Option Reflection} {blocked : List Nat}
    {issues : List Issue} (hframe : Frame other b) (hpins : b.pins = other.pins)
    (hused : ∀ i slot, slotOf b i = some slot → b.boundary.isUsed slot)
    (h : review other reflection blocked = .ok issues) :
    ∃ found, review b reflection blocked = .ok found ∧ found.Sublist issues := by
  obtain ⟨slots, hslots, h⟩ := exists_of_bind_eq_ok h
  obtain ⟨mirrors, hmirrors, h⟩ := exists_of_bind_eq_ok h
  obtain ⟨groups, hgroups, h⟩ := exists_of_bind_eq_ok h
  cases h
  have hmarked : ∀ p ∈ b.pins.pins.toList, ∀ s slot, p.spot = some s →
      b.boundary.slotAt? s.pos s.layer = some slot → b.boundary.isUsed slot := by
    intro p hp s slot hspot hat
    obtain ⟨i, hi⟩ := List.mem_iff_getElem?.mp hp
    rw [Array.getElem?_toList] at hi
    refine hused i slot ?_
    rw [slotOf, hi, Option.bind_some, hspot, Option.bind_some, hat]
  have hslotOf : ∀ i, slotOf b i = slotOf other i := by
    intro i
    simp only [slotOf, hpins, hframe.slotAt?]
  obtain ⟨found, hfound, hsub⟩ := checkSlots_sublist hframe.slotAt? hmarked (hpins ▸ hslots)
  refine ⟨found ++ mirrors ++ groups ++ checkCoverage b, ?_, ?_⟩
  · rw [review, hfound, checkMirrors_congr hpins, hmirrors, checkGroups_congr hpins hslotOf,
      hgroups]
    rfl
  · rw [checkCoverage, hpins]
    exact ((hsub.append (List.Sublist.refl _)).append (List.Sublist.refl _)).append
      (List.Sublist.refl _)

end PinRing
