import Mathlib.Tactic.Common
import PinRing.Proofs.File.Problem
import PinRing.Proofs.Placement.Arrangement

/-! The review of an arranged board finds no error, so what runs make of a loaded problem passes. -/

namespace PinRing

namespace Review

open Board

variable {reflect : Reflection} {start b : Board} {g : PinGroup}

/-- A check of every item that always passes passes as a whole. -/
theorem flatten_passes {α : Type} (check : α → Except Fault (List Issue)) (l : List α)
    (h : ∀ a ∈ l, ∃ issues, check a = .ok issues ∧ passes issues = true) :
    ∃ issues, (l.mapM check).map List.flatten = .ok issues ∧ passes issues = true := by
  induction l with
  | nil => exact ⟨[], rfl, rfl⟩
  | cons a l ih =>
    obtain ⟨⟨first, hfirst, hpass⟩, hrest⟩ := List.forall_mem_cons.mp h
    obtain ⟨others, hothers, hpass'⟩ := ih hrest
    cases hl : l.mapM check with
    | error f => rw [hl] at hothers; cases hothers
    | ok lists =>
      rw [hl] at hothers
      cases hothers
      refine ⟨first ++ lists.flatten, ?_, ?_⟩
      · rw [List.mapM_cons, hfirst, hl]
        rfl
      · rw [passes, List.all_append, Bool.and_eq_true]
        exact ⟨hpass, hpass'⟩

/-! ### Slots -/

/-- Seated pins raise no issue, from any pin on. -/
theorem checkSlots_seated (h : Seated start b) {owners : List (Nat × String)} {ps : List Pin}
    {n : Nat} (hps : ∀ (k : Nat) (p : Pin), ps[k]? = some p → b.pins.pins[n + k]? = some p)
    (howners : ∀ slot name, owners.lookup slot = some name → ∃ i < n, slotOf b i = some slot) :
    checkSlots b (start.boundary.indicesOf (·.blocked)) owners ps = .ok [] := by
  -- The owners met so far are the slots of the pins before the `n`-th, which it cannot share.
  induction ps generalizing n owners with
  | nil => rfl
  | cons p ps ih =>
    have hp : b.pins.pins[n]? = some p := hps 0 p rfl
    have hps' : ∀ (k : Nat) (q : Pin), ps[k]? = some q → b.pins.pins[n + 1 + k]? = some q := by
      intro k q hq
      rw [show n + 1 + k = n + (k + 1) by omega]
      exact hps (k + 1) q hq
    rw [checkSlots]
    cases hspot : p.spot with
    | none =>
      refine ih hps' fun slot name hlookup => ?_
      obtain ⟨i, hi, hslot⟩ := howners slot name hlookup
      exact ⟨i, Nat.lt_succ_of_lt hi, hslot⟩
    | some s =>
      have hplaced : b.pins.isPlaced n := by simp [PinTable.isPlaced, hp, Pin.placed, hspot]
      obtain ⟨slot, hslot⟩ := h.on_slot n hplaced
      have hat : b.boundary.slotAt? s.pos s.layer = some slot := by
        simpa [slotOf, hp, hspot] using hslot
      have hfresh : owners.lookup slot = none := by
        cases hlookup : owners.lookup slot with
        | none => rfl
        | some name =>
          obtain ⟨i, hi, hslot'⟩ := howners slot name hlookup
          have := h.slot_inj i n slot hslot' hslot
          omega
      have hused : (b.boundary.slots[slot]?).any (·.used) = true := h.used n slot hslot
      have hblocked : (start.boundary.indicesOf (·.blocked)).contains slot = false := by
        rw [List.contains_eq_any_beq, Bool.eq_false_iff, Ne, ← List.contains_eq_any_beq,
          List.contains_iff_mem, Boundary.indicesOf, List.mem_filter]
        exact fun hmem => h.unblocked n slot hslot hmem.2
      have howners' : ∀ slot' name, ((slot, p.name) :: owners).lookup slot' = some name →
          ∃ i < n + 1, slotOf b i = some slot' := by
        intro slot' name hlookup
        rw [List.lookup_cons] at hlookup
        cases heq : slot' == slot with
        | true =>
          rw [beq_iff_eq.mp heq]
          exact ⟨n, Nat.lt_succ_self n, hslot⟩
        | false =>
          rw [heq] at hlookup
          obtain ⟨i, hi, hslot'⟩ := howners slot' name hlookup
          exact ⟨i, Nat.lt_succ_of_lt hi, hslot'⟩
      simp only [hat, ih hps' howners', slotIssues, hfresh, hused, hblocked]
      rfl

/-! ### Mirror pairs -/

theorem mem_of_mem_mirrorPairs {seen entries : List (String × String)} {e : String × String}
    (h : e ∈ mirrorPairs seen entries) : e ∈ entries := by
  induction entries generalizing seen with
  | nil => cases h
  | cons entry rest ih =>
    obtain ⟨x, y⟩ := entry
    rw [mirrorPairs] at h
    split at h
    · exact List.mem_cons_of_mem _ (ih h)
    · rcases List.mem_cons.mp h with rfl | h
      · exact List.mem_cons_self
      · exact List.mem_cons_of_mem _ (ih h)

theorem checkPair_arranged (hd : start.pins.Declared) (h : Arranged reflect start b)
    {e : String × String} (he : e ∈ b.pins.mirrors) : checkPair b reflect e = .ok [] := by
  have hframe := h.seated.frame
  rw [hframe.mirrors] at he
  obtain ⟨hfst, hsnd, -, -⟩ := hd.mirrored e he
  obtain ⟨i, hi⟩ := PinTable.exists_indexOf? hfst
  obtain ⟨j, hj⟩ := PinTable.exists_indexOf? hsnd
  obtain ⟨p, hp, hname⟩ := PinTable.pin_of_indexOf? hi
  have hpartner : start.pins.partner i = .ok (some j) :=
    PinTable.partner_eq_ok.mpr ⟨p, e.2, hp, hname ▸ hd.lookup_eq he, hj⟩
  obtain ⟨p', hp', -⟩ := hframe.pin hp
  obtain ⟨q, hq, -⟩ := PinTable.pin_of_indexOf? hj
  obtain ⟨q', hq', -⟩ := hframe.pin hq
  have hi' : b.pins.indexOf e.1 = .ok i :=
    PinTable.indexOf_eq_ok.mpr ((hframe.indexOf? e.1).trans hi)
  have hj' : b.pins.indexOf e.2 = .ok j :=
    PinTable.indexOf_eq_ok.mpr ((hframe.indexOf? e.2).trans hj)
  unfold checkPair
  simp only [hi', hj', PinTable.pin_eq_ok.mpr hp', PinTable.pin_eq_ok.mpr hq', Bind.bind,
    Except.bind]
  rcases h.pairs i j hpartner with ⟨hnone, hnone'⟩ | ⟨s, t, hs, ht, hreflect, hlayer⟩
  · have hspot : p'.spot = none := by simpa [spotOf, hp'] using hnone
    have hspot' : q'.spot = none := by simpa [spotOf, hq'] using hnone'
    simp only [hspot, hspot']
    rfl
  · have hspot : p'.spot = some s := by simpa [spotOf, hp'] using hs
    have hspot' : q'.spot = some t := by simpa [spotOf, hq'] using ht
    obtain ⟨image, himage, hpoint⟩ := hreflect
    simp only [hspot, hspot', himage, hpoint, hlayer, ne_eq, not_true_eq_false, or_self, if_false]
    rfl

/-! ### Groups -/

theorem ascends_zipIdx (first n : Nat) (l : List Nat) :
    ascends ((l.zipIdx n).map fun x => first + x.2) = true := by
  induction l generalizing n with
  | nil => rfl
  | cons i l ih =>
    cases l with
    | nil => rfl
    | cons j l =>
      have hrest := ih (n + 1)
      rw [List.zipIdx_cons, List.map_cons] at hrest
      rw [List.zipIdx_cons, List.zipIdx_cons, List.map_cons, List.map_cons, ascends, hrest,
        Bool.and_true, beq_iff_eq]
      rfl

theorem descends_zipIdx (first : Nat) {n size : Nat} {l : List Nat} (h : n + l.length ≤ size) :
    descends ((l.zipIdx n).map fun x => first + (size - 1 - x.2)) = true := by
  induction l generalizing n with
  | nil => rfl
  | cons i l ih =>
    cases l with
    | nil => rfl
    | cons j l =>
      simp only [List.length_cons] at h
      have hrest := ih (n := n + 1) (by simp only [List.length_cons]; omega)
      rw [List.zipIdx_cons, List.map_cons] at hrest
      rw [List.zipIdx_cons, List.zipIdx_cons, List.map_cons, List.map_cons, descends, hrest,
        Bool.and_true, beq_iff_eq]
      omega

/-- The slots of a group laid out on a block go up or down by one. -/
theorem layout_consecutive (g : PinGroup) (edge : Edge) (first : Nat) :
    (ascends ((GroupPass.layout g edge first).map (·.slot)) ||
      descends ((GroupPass.layout g edge first).map (·.slot))) = true := by
  rw [GroupPass.layout, List.map_map, Bool.or_eq_true]
  cases hback : (g.ordered && GroupPass.runsBackward edge) with
  | false => exact .inl (ascends_zipIdx first 0 g.members)
  | true =>
    have hsize : 0 + g.members.length ≤ g.size := Nat.le_of_eq (Nat.zero_add _)
    exact .inr (descends_zipIdx first hsize)

theorem mapM_slotOf {cs : List Commit} (h : ∀ c ∈ cs, slotOf b c.pin = some c.slot) :
    (cs.map (·.pin)).mapM (slotOf b) = some (cs.map (·.slot)) := by
  induction cs with
  | nil => rfl
  | cons c cs ih =>
    obtain ⟨hc, hcs⟩ := List.forall_mem_cons.mp h
    rw [List.map_cons, List.mapM_cons, hc, ih hcs]
    rfl

theorem checkGroup_laid (hne : g.members ≠ []) (h : Laid b g) :
    ∃ issues, checkGroup b g = .ok issues ∧ passes issues = true := by
  obtain ⟨i, rest, hmembers⟩ := List.exists_cons_of_ne_nil hne
  unfold checkGroup
  rcases h with hnone | ⟨edge, first, hslots⟩
  · have hmapM : g.members.mapM (slotOf b) = none := by
      rw [hmembers, List.mapM_cons, hnone i (hmembers ▸ List.mem_cons_self)]
      rfl
    rw [hmapM]
    exact ⟨_, rfl, rfl⟩
  · have hmapM := mapM_slotOf hslots
    rw [map_pin_layout] at hmapM
    have hconsecutive := layout_consecutive g edge first
    rw [hmapM]
    cases hlayout : (GroupPass.layout g edge first).map (·.slot) with
    | nil =>
      have hlength := congrArg List.length hlayout
      simp [GroupPass.layout, hmembers] at hlength
    | cons slot slots =>
      rw [hlayout] at hconsecutive
      simp only [hconsecutive, if_true]
      exact ⟨[], rfl, rfl⟩

end Review

open Board Review

/-- The review of an arranged board passes. -/
theorem review_arranged {reflect : Reflection} {start b : Board} (hd : start.pins.Declared)
    (ho : start.Orderly) (h : Arranged reflect start b) :
    ∃ issues, review b (some reflect) (start.boundary.indicesOf (·.blocked)) = .ok issues ∧
      passes issues = true := by
  have hframe := h.seated.frame
  have hslots : checkSlots b (start.boundary.indicesOf (·.blocked)) [] b.pins.pins.toList =
      .ok [] := by
    refine checkSlots_seated h.seated (n := 0) (fun k p hp => ?_) fun _ _ hlookup => nomatch hlookup
    rwa [Nat.zero_add, ← Array.getElem?_toList]
  obtain ⟨mirrors, hmirrors, hpass⟩ := flatten_passes (checkPair b reflect)
    (mirrorPairs [] b.pins.mirrors) fun e he =>
      ⟨[], checkPair_arranged hd h (mem_of_mem_mirrorPairs he), rfl⟩
  obtain ⟨groups, hgroups, hpass'⟩ := flatten_passes (checkGroup b) b.pins.groups
    fun g hg => checkGroup_laid (ho.nonempty g (hframe.groups ▸ hg))
      (h.groups g (hframe.groups ▸ hg))
  have hcoverage : passes (checkCoverage b) = true := by
    simp [passes, checkCoverage]
  refine ⟨[] ++ mirrors ++ groups ++ checkCoverage b, ?_, ?_⟩
  · simp only [review, hslots, checkMirrors, hmirrors, checkGroups, hgroups, Bind.bind,
      Except.bind]
    rfl
  · rw [passes, List.all_append, List.all_append, List.nil_append, Bool.and_eq_true,
      Bool.and_eq_true]
    exact ⟨⟨hpass, hpass'⟩, hcoverage⟩

/-- Whatever runs make of a loaded problem, its review is carried out and finds no error, provided
that slots can be told apart, mirror pairs and groups do not overlap, and no group is empty. -/
theorem review_runAll {v : Value} {p : Problem} (hload : Problem.ofValue v = .ok p)
    (horderly : p.board.Orderly) (calls : List (CostModel × Config)) :
    ∃ issues, review (runAll p.board (some p.core.reflection) calls) (some p.core.reflection)
      (p.board.boundary.indicesOf (·.blocked)) = .ok issues ∧ passes issues = true := by
  have hd := Problem.ofValue_declared hload
  have harranged : Arranged p.core.reflection p.board p.board := .refl hd
  exact review_arranged hd horderly
    (harranged.runAll hd horderly (fun _ _ => Outline.sends_symm) calls)

/-- Three slots each on the bottom and the top, with a mirror pair and a group of two. -/
def smallRing : Value :=
  let slot (x y : Int) : Value := .mapping [(.text "x", .int x), (.text "y", .int y)]
  .mapping
    [(.text "core", .mapping
        [(.text "xmin", .int 0), (.text "ymin", .int 0), (.text "xmax", .int 30),
          (.text "ymax", .int 20)]),
      (.text "slots", .list
        [slot 10 0, slot 20 0, slot 25 0, slot 20 20, slot 10 20, slot 5 20]),
      (.text "pins", .list
        [.mapping [(.text "name", .text "tx"), (.text "mirror", .text "rx")],
          .mapping [(.text "name", .text "rx")], .mapping [(.text "name", .text "d0")],
          .mapping [(.text "name", .text "d1")]]),
      (.text "groups", .list
        [.mapping [(.text "name", .text "bus"), (.text "pins", .list [.text "d0", .text "d1"])]])]

/-- What is read from `smallRing`. -/
def smallRingProblem : Problem where
  core := Core.outline { xmin := 0, ymin := 0, xmax := 30, ymax := 20 }
  board :=
    { boundary :=
        { slots := #[⟨⟨10, 0⟩, 0, .bottom, false, false⟩, ⟨⟨20, 0⟩, 0, .bottom, false, false⟩,
            ⟨⟨25, 0⟩, 0, .bottom, false, false⟩, ⟨⟨20, 20⟩, 0, .top, false, false⟩,
            ⟨⟨10, 20⟩, 0, .top, false, false⟩, ⟨⟨5, 20⟩, 0, .top, false, false⟩] }
      pins :=
        { pins := #[⟨"tx", none, false⟩, ⟨"rx", none, false⟩, ⟨"d0", none, true⟩,
            ⟨"d1", none, true⟩]
          groups := [⟨[2, 3], false, "bus"⟩]
          mirrors := [("tx", "rx"), ("rx", "tx")] } }
  targets := {}

theorem review_runAll_smallRing :
    let config : Config := { usageFactor := { mantissa := 1, scale := 0 } }
    let calls := [(smallRingProblem.model, config), (CostModel.linear 1 2 3, config)]
    Problem.ofValue smallRing = .ok smallRingProblem ∧ smallRingProblem.board.Orderly ∧
      ∃ issues, review
        (runAll smallRingProblem.board (some smallRingProblem.core.reflection) calls)
        (some smallRingProblem.core.reflection)
        (smallRingProblem.board.boundary.indicesOf (·.blocked)) = .ok issues ∧
        passes issues = true := by
  intro config calls
  have hload : Problem.ofValue smallRing = .ok smallRingProblem := by with_unfolding_all rfl
  have horderly : smallRingProblem.board.Orderly := by constructor <;> decide
  exact ⟨hload, horderly, review_runAll hload horderly calls⟩

end PinRing
