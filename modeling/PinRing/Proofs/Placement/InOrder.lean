import Mathlib.Tactic.Common
import PinRing.Proofs.Placement.Pairs

/-! What a review finds out.  A placement is in order if its pins sit on used slots of their own,
mirror pairs face each other, and groups run along neighbouring slots.  A review that is carried out
passes exactly then, and it warns of what is left to place. -/

namespace PinRing

namespace Board

/-- The slot is the first one at the position and on the layer of the pin, which is placed. -/
def SitsOn (b : Board) (pin slot : Nat) : Prop :=
  ∃ p spot s, b.pins.pins[pin]? = some p ∧ p.spot = some spot ∧ b.boundary.slots[slot]? = some s ∧
    (s.pos = spot.pos ∧ s.layer = spot.layer) ∧
    ∀ k < slot, ∀ t, b.boundary.slots[k]? = some t → ¬(t.pos = spot.pos ∧ t.layer = spot.layer)

/-- The slots go up by one from each to the next, or go down by one. -/
def Consecutive (slots : List Nat) : Prop :=
  (∃ first, ∀ (k slot : Nat), slots[k]? = some slot → slot = first + k) ∨
    ∃ first, ∀ (k slot : Nat), slots[k]? = some slot → slot + k = first

/-- The mirror map lists the pair in this direction, and has not listed it before. -/
def FirstMet (entries : List (String × String)) (pair : String × String) : Prop :=
  ∃ before after, entries = before ++ pair :: after ∧ pair ∉ before ∧ pair.swap ∉ before

/-- Every placed pin has a used slot of its own that is not among the blocked ones; the pins of each
mirror pair face each other, if a reflection is given; and each group whose members all sit on slots
runs up or down along neighbouring ones. -/
structure InOrder (b : Board) (reflection : Option Reflection) (blocked : List Nat) : Prop where
  seated : ∀ pin, b.pins.isPlaced pin →
    ∃ slot, b.SitsOn pin slot ∧ b.boundary.isUsed slot ∧ slot ∉ blocked
  apart : ∀ pin other slot, b.SitsOn pin slot → b.SitsOn other slot → pin = other
  mirrored : ∀ reflect, reflection = some reflect → ∀ pair, FirstMet b.pins.mirrors pair →
    ∃ i j, b.pins.indexOf? pair.1 = some i ∧ b.pins.indexOf? pair.2 = some j ∧
      Faces reflect b i j
  grouped : ∀ g ∈ b.pins.groups, ∀ slots, List.Forall₂ b.SitsOn g.members slots →
    Consecutive slots

/-- What is left to place: groups with a member that sits on no slot, and pins without a place. -/
def shortfalls (b : Board) : List Issue :=
  (b.pins.groups.filter fun g => g.members.any fun i => (Review.slotOf b i).isNone).map
      (fun g => ⟨.warning, .group, s!"Pin group {g.name} is not fully placed", g.name⟩) ++
    b.pins.unplaced.map fun name => ⟨.warning, .coverage, s!"Pin {name} is not placed", name⟩

end Board

namespace Review

open Board

variable {b : Board} {blocked : List Nat} {issues : List Issue} {reflect : Reflection}

/-- The warnings among some issues. -/
def warnings (issues : List Issue) : List Issue := issues.filter (·.severity = .warning)

theorem passes_append (l m : List Issue) :
    passes (l ++ m) = true ↔ passes l = true ∧ passes m = true := by
  rw [passes, List.all_append, Bool.and_eq_true]
  rfl

theorem warnings_append (l m : List Issue) : warnings (l ++ m) = warnings l ++ warnings m :=
  List.filter_append l m

/-- The slot at which a pin sits, by what is known of the pin. -/
def seatOf (b : Board) (p : Pin) : Option Nat :=
  p.spot.bind fun s => b.boundary.slotAt? s.pos s.layer

theorem slotOf_eq_some {pin slot : Nat} : slotOf b pin = some slot ↔ b.SitsOn pin slot := by
  unfold slotOf SitsOn Boundary.slotAt?
  constructor
  · intro h
    obtain ⟨p, hp, h⟩ := Option.bind_eq_some_iff.mp h
    obtain ⟨spot, hspot, h⟩ := Option.bind_eq_some_iff.mp h
    obtain ⟨hlt, hat, hfirst⟩ := Array.findIdx?_eq_some_iff_getElem.mp h
    refine ⟨p, spot, _, hp, hspot, Array.getElem?_eq_getElem hlt, by simpa using hat, ?_⟩
    intro k hk t ht
    obtain ⟨_, rfl⟩ := Array.getElem?_eq_some_iff.mp ht
    simpa using hfirst k hk
  · rintro ⟨p, spot, s, hp, hspot, hs, hat, hfirst⟩
    obtain ⟨hlt, rfl⟩ := Array.getElem?_eq_some_iff.mp hs
    rw [hp, Option.bind_some, hspot, Option.bind_some]
    refine Array.findIdx?_eq_some_iff_getElem.mpr ⟨hlt, by simpa using hat, fun k hk => ?_⟩
    simpa using hfirst k hk _ (Array.getElem?_eq_getElem (Nat.lt_trans hk hlt))

/-! ### Checks of a list of items -/

section Items

variable {α : Type} {check : α → Except Fault (List Issue)} {found : α → List Issue} {l : List α}

/-- Checks that are all carried out find what each of them finds, in order. -/
theorem exists_found (h : (l.mapM check).map List.flatten = .ok issues) :
    ∃ found, (∀ a ∈ l, check a = .ok (found a)) ∧ issues = l.flatMap found := by
  cases hl : l.mapM check with
  | error f => rw [hl] at h; cases h
  | ok lists =>
    have hcheck : ∀ a ∈ l, check a = .ok ((check a).toOption.getD []) := by
      intro a ha
      obtain ⟨found, hfound⟩ := forall_of_mapM_eq_ok hl a ha
      rw [hfound]
      rfl
    refine ⟨fun a => (check a).toOption.getD [], hcheck, ?_⟩
    rw [mapM_eq_ok hcheck] at h
    exact (Except.ok.inj h).symm

theorem passes_flatMap : passes (l.flatMap found) = true ↔ ∀ a ∈ l, passes (found a) = true := by
  simp [passes, List.all_flatMap]

theorem warnings_flatMap : warnings (l.flatMap found) = l.flatMap fun a => warnings (found a) := by
  simp [warnings, List.filter_flatMap]

/-- Items of which some give one warning each. -/
theorem warnings_flatMap_filter {p : α → Bool} {issue : α → Issue}
    (h : ∀ a ∈ l, warnings (found a) = if p a then [issue a] else []) :
    warnings (l.flatMap found) = (l.filter p).map issue := by
  rw [warnings_flatMap]
  induction l with
  | nil => rfl
  | cons a l ih =>
    obtain ⟨ha, hl⟩ := List.forall_mem_cons.mp h
    rw [List.flatMap_cons, ha, ih hl, List.filter_cons]
    split <;> rfl

end Items

/-! ### Slots -/

theorem passes_slotIssues {name : String} {slot : Nat} {owner : Option String} :
    passes (slotIssues b blocked name slot owner) = true ↔
      owner = none ∧ b.boundary.isUsed slot ∧ slot ∉ blocked := by
  unfold slotIssues Boundary.isUsed
  cases owner <;> cases (b.boundary.slots[slot]?).any (·.used) <;> by_cases h : slot ∈ blocked <;>
    simp [passes, h]

theorem warnings_slotIssues (name : String) (slot : Nat) (owner : Option String) :
    warnings (slotIssues b blocked name slot owner) = [] := by
  unfold slotIssues
  cases owner <;> cases (b.boundary.slots[slot]?).any (·.used) <;> by_cases h : slot ∈ blocked <;>
    simp [warnings, h]

/-- The pins from some pin on pass if each that is placed sits on a fit slot that neither an owner
nor another of them has. -/
theorem passes_checkSlots {owners : List (Nat × String)} {ps : List Pin}
    (h : checkSlots b blocked owners ps = .ok issues) :
    (passes issues = true ↔
      (∀ p ∈ ps, p.placed → ∃ slot, seatOf b p = some slot ∧ b.boundary.isUsed slot ∧
        slot ∉ blocked ∧ owners.lookup slot = none) ∧ (ps.filterMap (seatOf b)).Nodup) ∧
    warnings issues = [] := by
  induction ps generalizing owners issues with
  | nil =>
    cases h
    simp [passes, warnings]
  | cons p ps ih =>
    rw [checkSlots] at h
    cases hspot : p.spot with
    | none =>
      have hseat : seatOf b p = none := by rw [seatOf, hspot]; rfl
      rw [hspot] at h
      rw [List.forall_mem_cons, List.filterMap_cons_none hseat]
      simpa [Pin.placed, hspot] using ih h
    | some s =>
      have hplaced : p.placed = true := by rw [Pin.placed, hspot]; rfl
      have hseat : seatOf b p = b.boundary.slotAt? s.pos s.layer := by rw [seatOf, hspot]; rfl
      simp only [hspot] at h
      cases hat : b.boundary.slotAt? s.pos s.layer with
      | none =>
        simp only [hat] at h
        obtain ⟨position, -, h⟩ := exists_of_bind_eq_ok h
        obtain ⟨layer, -, h⟩ := exists_of_bind_eq_ok h
        obtain ⟨others, hothers, h⟩ := exists_of_bind_eq_ok h
        cases h
        have hwarn := (ih hothers).2
        refine ⟨⟨fun hpass => by simp [passes] at hpass, fun hall => ?_⟩, by
          simpa [warnings] using hwarn⟩
        obtain ⟨slot, hslot, -⟩ := hall.1 p List.mem_cons_self hplaced
        rw [hseat, hat] at hslot
        cases hslot
      | some slot =>
        simp only [hat] at h
        obtain ⟨others, hothers, h⟩ := exists_of_bind_eq_ok h
        cases h
        obtain ⟨hpass, hwarn⟩ := ih hothers
        rw [hat] at hseat
        -- The slot of `p` is taken by its new owner, so the pins after it have to avoid it.
        have howner : ∀ other, ((slot, p.name) :: owners).lookup other = none ↔
            other ≠ slot ∧ owners.lookup other = none := by
          intro other
          rw [List.lookup_cons]
          cases heq : other == slot with
          | true => simp [beq_iff_eq.mp heq]
          | false => simp [ne_of_beq_false heq]
        rw [passes_append, warnings_append, passes_slotIssues, warnings_slotIssues, hpass, hwarn,
          List.forall_mem_cons, List.filterMap_cons_some hseat, List.nodup_cons,
          List.mem_filterMap]
        simp only [howner, hseat, hplaced, forall_const, Option.some.injEq, exists_eq_left']
        refine ⟨⟨?_, ?_⟩, rfl⟩
        · rintro ⟨⟨hfree, hused, hfit⟩, hrest, hnodup⟩
          refine ⟨⟨⟨hused, hfit, hfree⟩, fun q hq hqplaced => ?_⟩, ?_, hnodup⟩
          · obtain ⟨other, hother, hused', hfit', -, hfree'⟩ := hrest q hq hqplaced
            exact ⟨other, hother, hused', hfit', hfree'⟩
          · rintro ⟨q, hq, hqseat⟩
            have hqplaced : q.placed = true := by
              cases hqspot : q.spot with
              | none => rw [seatOf, hqspot] at hqseat; cases hqseat
              | some _ => rw [Pin.placed, hqspot]; rfl
            obtain ⟨other, hother, -, -, hne, -⟩ := hrest q hq hqplaced
            exact hne (Option.some.inj (hother.symm.trans hqseat))
        · rintro ⟨⟨⟨hused, hfit, hfree⟩, hrest⟩, hout, hnodup⟩
          refine ⟨⟨hfree, hused, hfit⟩, fun q hq hqplaced => ?_, hnodup⟩
          obtain ⟨other, hother, hused', hfit', hfree'⟩ := hrest q hq hqplaced
          refine ⟨other, hother, hused', hfit', ?_, hfree'⟩
          rintro rfl
          exact hout ⟨q, hq, hother⟩

theorem slotOf_eq_seatOf {pin : Nat} {p : Pin} (hp : b.pins.pins[pin]? = some p) :
    slotOf b pin = seatOf b p := by
  rw [slotOf, hp]
  rfl

theorem nodup_seats_iff : (b.pins.pins.toList.filterMap (seatOf b)).Nodup ↔
    ∀ pin other slot, b.SitsOn pin slot → b.SitsOn other slot → pin = other := by
  have hseat : ∀ {pin slot : Nat}, b.SitsOn pin slot ↔
      ∃ h : pin < b.pins.pins.toList.length, seatOf b b.pins.pins.toList[pin] = some slot := by
    intro pin slot
    rw [← slotOf_eq_some]
    constructor
    · intro hslot
      obtain ⟨p, hp, -⟩ := Option.bind_eq_some_iff.mp hslot
      obtain ⟨hlt, rfl⟩ := Array.getElem?_eq_some_iff.mp hp
      exact ⟨hlt, (slotOf_eq_seatOf hp).symm.trans hslot⟩
    · rintro ⟨hlt, hslot⟩
      exact (slotOf_eq_seatOf (Array.getElem?_eq_getElem hlt)).trans hslot
  simp only [hseat]
  rw [List.Nodup, List.pairwise_filterMap, List.pairwise_iff_getElem]
  constructor
  · rintro h i j slot ⟨hi, hislot⟩ ⟨hj, hjslot⟩
    rcases Nat.lt_trichotomy i j with hlt | heq | hlt
    · exact absurd rfl (h i j hi hj hlt slot hislot slot hjslot)
    · exact heq
    · exact absurd rfl (h j i hj hi hlt slot hjslot slot hislot)
  · intro h i j hi hj hlt slot hislot other hjslot heq
    subst heq
    exact absurd (h i j slot ⟨hi, hislot⟩ ⟨hj, hjslot⟩) (Nat.ne_of_lt hlt)

/-- The slots pass if every placed pin has a fit slot of its own. -/
theorem passes_slots (h : checkSlots b blocked [] b.pins.pins.toList = .ok issues) :
    (passes issues = true ↔
      (∀ pin, b.pins.isPlaced pin →
        ∃ slot, b.SitsOn pin slot ∧ b.boundary.isUsed slot ∧ slot ∉ blocked) ∧
      ∀ pin other slot, b.SitsOn pin slot → b.SitsOn other slot → pin = other) ∧
    warnings issues = [] := by
  obtain ⟨hpass, hwarn⟩ := passes_checkSlots h
  refine ⟨?_, hwarn⟩
  rw [hpass, nodup_seats_iff]
  refine and_congr_left fun _ => ⟨fun hall pin hplaced => ?_, fun hall p hp hplaced => ?_⟩
  · cases hp : b.pins.pins[pin]? with
    | none => simp [PinTable.isPlaced, hp] at hplaced
    | some p =>
      obtain ⟨slot, hslot, hused, hfit, -⟩ := hall p
        (Array.mem_toList_iff.mpr (Array.mem_of_getElem? hp))
        (by simpa [PinTable.isPlaced, hp] using hplaced)
      exact ⟨slot, slotOf_eq_some.mp ((slotOf_eq_seatOf hp).trans hslot), hused, hfit⟩
  · obtain ⟨pin, hpin⟩ := List.mem_iff_getElem?.mp hp
    rw [Array.getElem?_toList] at hpin
    obtain ⟨slot, hslot, hused, hfit⟩ := hall pin (by simpa [PinTable.isPlaced, hpin] using hplaced)
    exact ⟨slot, (slotOf_eq_seatOf hpin).symm.trans (slotOf_eq_some.mpr hslot), hused, hfit, rfl⟩

/-! ### Mirror pairs -/

theorem firstMet_cons {entries : List (String × String)} {d e : String × String} :
    FirstMet (d :: entries) e ↔ e = d ∨ e ≠ d ∧ e.swap ≠ d ∧ FirstMet entries e := by
  constructor
  · rintro ⟨before, after, hentries, hout, hswap⟩
    cases before with
    | nil => exact .inl (List.cons.inj hentries).1.symm
    | cons c before =>
      obtain ⟨rfl, rfl⟩ := List.cons.inj hentries
      rw [List.mem_cons, not_or] at hout hswap
      exact .inr ⟨hout.1, hswap.1, before, after, rfl, hout.2, hswap.2⟩
  · rintro (rfl | ⟨hne, hswap, before, after, rfl, hout, hout'⟩)
    · exact ⟨[], entries, rfl, List.not_mem_nil, List.not_mem_nil⟩
    · exact ⟨d :: before, after, rfl, by simp [hne, hout], by simp [hswap, hout']⟩

/-- The pairs that are checked are those that come up first in their direction. -/
theorem mem_mirrorPairs {seen entries : List (String × String)} {e : String × String} :
    e ∈ mirrorPairs seen entries ↔ e ∉ seen ∧ e.swap ∉ seen ∧ FirstMet entries e := by
  induction entries generalizing seen with
  | nil =>
    refine ⟨nofun, ?_⟩
    rintro ⟨-, -, before, after, hentries, -⟩
    cases before <;> cases hentries
  | cons d entries ih =>
    obtain ⟨x, y⟩ := d
    rw [mirrorPairs, firstMet_cons]
    split
    · rename_i hseen
      rw [Bool.or_eq_true, List.contains_iff_mem, List.contains_iff_mem] at hseen
      rw [ih]
      refine ⟨fun ⟨hout, hswap, hmet⟩ => ⟨hout, hswap, .inr ⟨?_, ?_, hmet⟩⟩, ?_⟩
      · rintro rfl
        exact hseen.elim hout hswap
      · intro heq
        obtain rfl : e = (y, x) := by rw [← Prod.swap_swap e, heq]; rfl
        exact hseen.elim hswap hout
      · rintro ⟨hout, hswap, rfl | ⟨-, -, hmet⟩⟩
        · exact (hseen.elim hout hswap).elim
        · exact ⟨hout, hswap, hmet⟩
    · rename_i hseen
      rw [Bool.or_eq_true, List.contains_iff_mem, List.contains_iff_mem, not_or] at hseen
      rw [List.mem_cons, ih, List.mem_cons, List.mem_cons, not_or, not_or]
      constructor
      · rintro (rfl | ⟨⟨hne, hout⟩, ⟨hne', hswap⟩, hmet⟩)
        · exact ⟨hseen.1, hseen.2, .inl rfl⟩
        · exact ⟨hout, hswap, .inr ⟨hne, hne', hmet⟩⟩
      · rintro ⟨hout, hswap, rfl | ⟨hne, hne', hmet⟩⟩
        · exact .inl rfl
        · exact .inr ⟨⟨hne, hout⟩, ⟨hne', hswap⟩, hmet⟩

/-- A pair passes if its pins face each other. -/
theorem passes_checkPair {pair : String × String} (h : checkPair b reflect pair = .ok issues) :
    (passes issues = true ↔ ∃ i j, b.pins.indexOf? pair.1 = some i ∧
      b.pins.indexOf? pair.2 = some j ∧ Faces reflect b i j) ∧ warnings issues = [] := by
  unfold checkPair at h
  obtain ⟨i, hi, h⟩ := exists_of_bind_eq_ok h
  obtain ⟨p, hp, h⟩ := exists_of_bind_eq_ok h
  obtain ⟨j, hj, h⟩ := exists_of_bind_eq_ok h
  obtain ⟨q, hq, h⟩ := exists_of_bind_eq_ok h
  have hpspot : b.spotOf i = p.spot := by rw [spotOf, PinTable.pin_eq_ok.mp hp]; rfl
  have hqspot : b.spotOf j = q.spot := by rw [spotOf, PinTable.pin_eq_ok.mp hq]; rfl
  have hfaces : (∃ i j, b.pins.indexOf? pair.1 = some i ∧ b.pins.indexOf? pair.2 = some j ∧
      Faces reflect b i j) ↔ (p.spot = none ∧ q.spot = none) ∨ ∃ s t, p.spot = some s ∧
        q.spot = some t ∧ reflect.Sends s.pos t.pos ∧ t.layer = s.layer := by
    simp [PinTable.indexOf_eq_ok.mp hi, PinTable.indexOf_eq_ok.mp hj, Faces, hpspot, hqspot]
  rw [hfaces]
  cases hs : p.spot with
  | none =>
    cases ht : q.spot <;>
      · simp only [hs, ht] at h
        cases h
        simp [passes, warnings]
  | some s =>
    cases ht : q.spot with
    | none =>
      simp only [hs, ht] at h
      cases h
      simp [passes, warnings]
    | some t =>
      simp only [hs, ht] at h
      obtain ⟨image, himage, h⟩ := exists_of_bind_eq_ok h
      by_cases hface : image.point? ≠ some t.pos ∨ t.layer ≠ s.layer
      · rw [if_pos hface] at h
        obtain ⟨found, -, h⟩ := exists_of_bind_eq_ok h
        obtain ⟨origin, -, h⟩ := exists_of_bind_eq_ok h
        cases h
        have hne : image.point? = some t.pos → ¬t.layer = s.layer := fun heq =>
          hface.resolve_left fun hne => hne heq
        simpa [passes, warnings, Reflection.sends_iff himage] using hne
      · rw [if_neg hface] at h
        cases h
        rw [not_or, not_not, not_not] at hface
        simp [passes, warnings, Reflection.sends_iff himage, hface.1, hface.2]

/-- The mirror pairs pass if, with a reflection, each in its direction faces each other. -/
theorem passes_mirrors {reflection : Option Reflection}
    (h : checkMirrors b reflection = .ok issues) :
    (passes issues = true ↔ ∀ reflect, reflection = some reflect → ∀ pair,
      FirstMet b.pins.mirrors pair → ∃ i j, b.pins.indexOf? pair.1 = some i ∧
        b.pins.indexOf? pair.2 = some j ∧ Faces reflect b i j) ∧ warnings issues = [] := by
  cases reflection with
  | none =>
    cases h
    simp [passes, warnings]
  | some reflect =>
    obtain ⟨found, hfound, rfl⟩ := exists_found h
    constructor
    · rw [passes_flatMap]
      constructor
      · rintro hpass _ ⟨⟩ pair hmet
        have hmem := mem_mirrorPairs.mpr ⟨List.not_mem_nil, List.not_mem_nil, hmet⟩
        exact (passes_checkPair (hfound pair hmem)).1.mp (hpass pair hmem)
      · intro hface pair hmem
        exact (passes_checkPair (hfound pair hmem)).1.mpr
          (hface reflect rfl pair (mem_mirrorPairs.mp hmem).2.2)
    · rw [warnings_flatMap, List.flatMap_eq_nil_iff]
      exact fun pair hmem => (passes_checkPair (hfound pair hmem)).2

/-! ### Groups -/

theorem ascends_iff {slots : List Nat} : ascends slots = true ↔
    ∃ first, ∀ (k slot : Nat), slots[k]? = some slot → slot = first + k := by
  induction slots with
  | nil => simp [ascends]
  | cons s rest ih =>
    cases rest with
    | nil =>
      refine iff_of_true rfl ⟨s, fun k slot h => ?_⟩
      obtain ⟨rfl, rfl⟩ : k = 0 ∧ s = slot := by simpa [List.getElem?_cons] using h
      rfl
    | cons t rest =>
      rw [ascends, Bool.and_eq_true, beq_iff_eq, ih]
      constructor
      · rintro ⟨rfl, first, hrest⟩
        have hfirst := hrest 0 (s + 1) rfl
        refine ⟨s, fun k slot h => ?_⟩
        cases k with
        | zero => exact (Option.some.inj h).symm
        | succ k =>
          have := hrest k slot h
          omega
      · rintro ⟨first, hall⟩
        have hs := hall 0 s rfl
        have ht := hall 1 t rfl
        refine ⟨by omega, first + 1, fun k slot h => ?_⟩
        have := hall (k + 1) slot h
        omega

theorem descends_iff {slots : List Nat} : descends slots = true ↔
    ∃ first, ∀ (k slot : Nat), slots[k]? = some slot → slot + k = first := by
  induction slots with
  | nil => simp [descends]
  | cons s rest ih =>
    cases rest with
    | nil =>
      refine iff_of_true rfl ⟨s, fun k slot h => ?_⟩
      obtain ⟨rfl, rfl⟩ : k = 0 ∧ s = slot := by simpa [List.getElem?_cons] using h
      rfl
    | cons t rest =>
      rw [descends, Bool.and_eq_true, beq_iff_eq, ih]
      constructor
      · rintro ⟨rfl, first, hrest⟩
        have hfirst := hrest 0 t rfl
        refine ⟨t + 1, fun k slot h => ?_⟩
        cases k with
        | zero => exact (Option.some.inj h).symm
        | succ k =>
          have := hrest k slot h
          omega
      · rintro ⟨first, hall⟩
        have hs := hall 0 s rfl
        have ht := hall 1 t rfl
        refine ⟨by omega, t, fun k slot h => ?_⟩
        have := hall (k + 1) slot h
        omega

theorem mapM_slotOf_eq_some {members slots : List Nat} :
    members.mapM (slotOf b) = some slots ↔ List.Forall₂ b.SitsOn members slots := by
  induction members generalizing slots with
  | nil => cases slots <;> simp
  | cons i members ih =>
    rw [List.mapM_cons, List.forall₂_cons_left_iff]
    simp only [Option.bind_eq_bind, Option.bind_eq_some_iff, slotOf_eq_some, ih, Option.pure_def,
      Option.some.injEq]
    constructor
    · rintro ⟨slot, hslot, rest, hrest, rfl⟩
      exact ⟨slot, rest, hslot, hrest, rfl⟩
    · rintro ⟨slot, rest, hslot, hrest, rfl⟩
      exact ⟨slot, hslot, rest, hrest, rfl⟩

theorem mapM_slotOf_eq_none {members : List Nat} :
    members.mapM (slotOf b) = none ↔ (members.any fun i => (slotOf b i).isNone) = true := by
  induction members with
  | nil => simp
  | cons i members ih =>
    rw [List.mapM_cons, List.any_cons, Bool.or_eq_true, ← ih]
    cases slotOf b i <;> cases members.mapM (slotOf b) <;> simp

/-- A group passes unless its members all sit on slots that are not neighbours in a row. -/
theorem passes_checkGroup {g : PinGroup} (h : checkGroup b g = .ok issues) :
    (passes issues = true ↔ ∀ slots, List.Forall₂ b.SitsOn g.members slots → Consecutive slots) ∧
    warnings issues = if g.members.any fun i => (slotOf b i).isNone then
      [⟨.warning, .group, s!"Pin group {g.name} is not fully placed", g.name⟩] else [] := by
  unfold checkGroup at h
  simp only [← mapM_slotOf_eq_some, ← mapM_slotOf_eq_none]
  cases hslots : g.members.mapM (slotOf b) with
  | none =>
    simp only [hslots] at h
    cases h
    simp [passes, warnings]
  | some slots =>
    cases slots with
    | nil => simp [hslots] at h
    | cons first rest =>
      simp only [hslots] at h
      simp only [Option.some.injEq, forall_eq', Consecutive, ← ascends_iff, ← descends_iff,
        ← Bool.or_eq_true]
      split at h <;>
        · rename_i hrow
          cases h
          simp [passes, warnings, hrow]

theorem passes_groups (h : checkGroups b = .ok issues) :
    (passes issues = true ↔ ∀ g ∈ b.pins.groups, ∀ slots, List.Forall₂ b.SitsOn g.members slots →
      Consecutive slots) ∧
    warnings issues ++ checkCoverage b = b.shortfalls := by
  obtain ⟨found, hfound, rfl⟩ := exists_found h
  constructor
  · rw [passes_flatMap]
    exact forall₂_congr fun g hg => (passes_checkGroup (hfound g hg)).1
  · rw [warnings_flatMap_filter fun g hg => (passes_checkGroup (hfound g hg)).2]
    rfl

theorem checkCoverage_warns (b : Board) :
    passes (checkCoverage b) = true ∧ warnings (checkCoverage b) = checkCoverage b := by
  simp [passes, warnings, checkCoverage]

end Review

open Board Review

/-- A review that is carried out passes exactly if the placement is in order, whatever the board,
the reflection and the blocked slots are.  Pins that are not placed and groups that are not placed
in full only give warnings, and there are no other warnings. -/
theorem review_passes_iff {b : Board} {reflection : Option Reflection} {blocked : List Nat}
    {issues : List Issue} (h : review b reflection blocked = .ok issues) :
    (passes issues = true ↔ b.InOrder reflection blocked) ∧ warnings issues = b.shortfalls := by
  obtain ⟨slots, hslots, h⟩ := exists_of_bind_eq_ok h
  obtain ⟨mirrors, hmirrors, h⟩ := exists_of_bind_eq_ok h
  obtain ⟨groups, hgroups, h⟩ := exists_of_bind_eq_ok h
  cases h
  obtain ⟨hseated, hslotsWarn⟩ := passes_slots hslots
  obtain ⟨hfaces, hmirrorsWarn⟩ := passes_mirrors hmirrors
  obtain ⟨hrows, hgroupsWarn⟩ := passes_groups hgroups
  obtain ⟨hcoverage, hcoverageWarn⟩ := checkCoverage_warns b
  constructor
  · rw [passes_append, passes_append, passes_append, hseated, hfaces, hrows]
    constructor
    · rintro ⟨⟨⟨⟨hseat, hapart⟩, hface⟩, hrow⟩, -⟩
      exact ⟨hseat, hapart, hface, hrow⟩
    · rintro ⟨hseat, hapart, hface, hrow⟩
      exact ⟨⟨⟨⟨hseat, hapart⟩, hface⟩, hrow⟩, hcoverage⟩
  · rw [warnings_append, warnings_append, warnings_append, hslotsWarn, hmirrorsWarn, hcoverageWarn,
      List.nil_append, List.nil_append, hgroupsWarn]

/-- Four used slots, two below and two above, with a mirror pair and a group of two whose pins sit
where the arguments say. -/
def benchBoard (tx rx d0 d1 : Option Spot) : Board where
  boundary :=
    { slots := #[⟨⟨10, 0⟩, 0, .bottom, false, true⟩, ⟨⟨20, 0⟩, 0, .bottom, false, true⟩,
        ⟨⟨20, 20⟩, 0, .top, false, true⟩, ⟨⟨10, 20⟩, 0, .top, false, true⟩] }
  pins :=
    { pins := #[⟨"tx", tx, false⟩, ⟨"rx", rx, false⟩, ⟨"d0", d0, true⟩, ⟨"d1", d1, true⟩]
      groups := [⟨[2, 3], false, "bus"⟩]
      mirrors := [("tx", "rx"), ("rx", "tx")] }

/-- Three pins on one slot are reported as two, a pair that does not face each other once, and a
group of which a pin has no place is left out of account. -/
theorem review_passes_iff_benchBoard :
    let core : Outline := Core.outline (.mk 0 0 30 20 (by decide) (by decide))
    let neat := benchBoard (some ⟨⟨10, 0⟩, 0⟩) (some ⟨⟨10, 20⟩, 0⟩) (some ⟨⟨20, 0⟩, 0⟩)
      (some ⟨⟨20, 20⟩, 0⟩)
    let crowded := benchBoard (some ⟨⟨10, 0⟩, 0⟩) (some ⟨⟨10, 0⟩, 0⟩) (some ⟨⟨10, 0⟩, 0⟩) none
    let issues : List Issue :=
      [⟨.error, .slot, "Pins tx and rx share slot 0", "rx"⟩,
        ⟨.error, .slot, "Pins rx and d0 share slot 0", "d0"⟩,
        ⟨.error, .mirror, "Pin rx at (10, 0) is not the mirror of tx at (10, 0)", "rx"⟩,
        ⟨.warning, .group, "Pin group bus is not fully placed", "bus"⟩,
        ⟨.warning, .coverage, "Pin d1 is not placed", "d1"⟩]
    (review neat (some core.reflection) [] = .ok [] ∧ neat.InOrder (some core.reflection) [] ∧
      neat.shortfalls = []) ∧
    (review crowded (some core.reflection) [] = .ok issues ∧
      ¬crowded.InOrder (some core.reflection) [] ∧ crowded.shortfalls = issues.drop 3) := by
  intro core neat crowded issues
  have hneat : review neat (some core.reflection) [] = .ok [] := by decide +kernel
  have hcrowded : review crowded (some core.reflection) [] = .ok issues := by decide +kernel
  obtain ⟨hpass, hwarn⟩ := review_passes_iff hneat
  obtain ⟨hpass', hwarn'⟩ := review_passes_iff hcrowded
  have hfails : passes issues = false := by decide
  refine ⟨⟨hneat, hpass.mp rfl, hwarn.symm⟩, hcrowded, fun horder => ?_, hwarn'.symm⟩
  rw [← hpass', hfails] at horder
  cases horder

end PinRing
