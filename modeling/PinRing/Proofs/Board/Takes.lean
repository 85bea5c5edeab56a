import PinRing.Proofs.Board.Commits

/-! What is left behind by commits that put different pins on different slots, one after the other:
each pin has the spot of its slot, each slot is taken, and nothing else has changed. -/

namespace PinRing

/-- The slot with a pin on it.  The pin of a group takes its slot out of use as well. -/
def Slot.taken (s : Slot) (o : Origin) : Slot :=
  { s with used := true, blocked := s.blocked || decide (o = .group) }

namespace Board

/-- `after` is `before` with the pins of some commits, all of one origin, on their slots. -/
structure Takes (o : Origin) (before after : Board) (cs : List Commit) : Prop where
  origin : ∀ c ∈ cs, c.origin = o
  seated : ∀ c ∈ cs, ∃ p s, before.pins.pins[c.pin]? = some p ∧
    before.boundary.slots[c.slot]? = some s ∧
    after.pins.pins[c.pin]? = some { p with spot := some ⟨s.pos, s.layer⟩ }
  others : ∀ i : Nat, i ∉ cs.map (·.pin) → after.pins.pins[i]? = before.pins.pins[i]?
  slots : ∀ i : Nat, after.boundary.slots[i]? = (before.boundary.slots[i]?).map fun s =>
    if i ∈ cs.map (·.slot) then s.taken o else s
  groups : after.pins.groups = before.pins.groups
  mirrors : after.pins.mirrors = before.pins.mirrors
  journal : after.journal = before.journal ++ cs

variable {o : Origin} {b after : Board} {c : Commit} {cs : List Commit}

theorem Takes.nil (o : Origin) (b : Board) : Takes o b b [] where
  origin := nofun
  seated := nofun
  others := fun _ _ => rfl
  slots := fun i => by simp
  groups := rfl
  mirrors := rfl
  journal := (List.append_nil _).symm

/-- One more pin, placed before the others. -/
theorem Takes.cons (hc : b.Admits c) (ho : c.origin = o) (h : Takes o (b.take c) after cs)
    (hpinOut : c.pin ∉ cs.map (·.pin)) (hslotOut : c.slot ∉ cs.map (·.slot)) :
    Takes o b after (c :: cs) := by
  obtain ⟨s, hs⟩ := hc.exists_slot
  have hpin := hc.pin_take hs
  constructor
  · exact List.forall_mem_cons.mpr ⟨ho, h.origin⟩
  · intro d hd
    rcases List.mem_cons.mp hd with rfl | hd
    · obtain ⟨p, hat⟩ : ∃ p, b.pins.pins[d.pin]? = some p :=
        ⟨_, Array.getElem?_eq_getElem hc.pin_lt⟩
      refine ⟨p, s, hat, hs, (h.others d.pin hpinOut).trans ?_⟩
      rw [hpin, hat, Option.map_some, if_pos rfl]
    · obtain ⟨p, t, hat, ht, hafter⟩ := h.seated d hd
      have hpinNe : c.pin ≠ d.pin := fun heq => hpinOut (heq ▸ List.mem_map_of_mem hd)
      have hslotNe : c.slot ≠ d.slot := fun heq => hslotOut (heq ▸ List.mem_map_of_mem hd)
      rw [hpin, Option.map_eq_some_iff] at hat
      rw [hc.slot_take, Option.map_eq_some_iff] at ht
      obtain ⟨p', hp', heq⟩ := hat
      obtain ⟨t', ht', heq'⟩ := ht
      rw [if_neg hpinNe] at heq
      rw [if_neg hslotNe] at heq'
      exact ⟨p, t, heq ▸ hp', heq' ▸ ht', hafter⟩
  · intro i hi
    rw [List.map_cons, List.mem_cons, not_or] at hi
    rw [h.others i hi.2, hpin]
    simp [Ne.symm hi.1]
  · intro i
    rw [h.slots, hc.slot_take, Option.map_map]
    congr 1
    funext t
    by_cases hi : c.slot = i
    · subst hi
      simp [hslotOut, Slot.taken, ho]
    · have hmem : i ∈ (c :: cs).map (·.slot) ↔ i ∈ cs.map (·.slot) := by
        rw [List.map_cons, List.mem_cons, or_iff_right (Ne.symm hi)]
      simp only [Function.comp_apply, if_neg hi, hmem]
  · exact h.groups.trans hc.frame.groups
  · exact h.mirrors.trans hc.frame.mirrors
  · rw [h.journal, hc.journal_take, List.append_assoc]
    rfl

theorem Open.takes (h : b.Open cs) (ho : ∀ c ∈ cs, c.origin = o) (hpins : (cs.map (·.pin)).Nodup) :
    Takes o b (b.takeAll cs) cs := by
  induction cs generalizing b with
  | nil => exact .nil o b
  | cons c cs ih =>
    obtain ⟨hc, hcs⟩ := Open.cons_iff.mp h
    obtain ⟨hpinOut, hnodup⟩ := List.nodup_cons.mp hpins
    obtain ⟨hfirst, hrest⟩ := List.forall_mem_cons.mp ho
    exact .cons hc hfirst (ih hcs hrest hnodup) hpinOut (List.nodup_cons.mp h.slots_nodup).1

end Board

end PinRing
