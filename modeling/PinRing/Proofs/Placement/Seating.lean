import PinRing.Placement.Review
import PinRing.Proofs.Board.Moves

/-! Where pins sit.  On a boundary whose slots are told apart by position and layer, every commit
seats its pin on its slot, and pins that were seated by commits sit on used slots of their own. -/

namespace PinRing

/-- No two slots have the same position and layer. -/
def Boundary.Apart (b : Boundary) : Prop :=
  (b.slots.toList.map fun s => (s.pos, s.layer)).Nodup

instance (b : Boundary) : Decidable b.Apart :=
  inferInstanceAs (Decidable (List.Nodup _))

theorem Boundary.slot_of_slotAt? {b : Boundary} {pos : Point} {layer : Int} {i : Nat}
    (h : b.slotAt? pos layer = some i) :
    ∃ s, b.slots[i]? = some s ∧ s.pos = pos ∧ s.layer = layer := by
  obtain ⟨hi, hat, -⟩ := Array.findIdx?_eq_some_iff_getElem.mp h
  simp only [Bool.and_eq_true, beq_iff_eq] at hat
  exact ⟨b.slots[i], Array.getElem?_eq_getElem hi, hat⟩

/-- A slot is found at its own position. -/
theorem Boundary.Apart.slotAt?_eq {b : Boundary} (h : b.Apart) {i : Nat} {s : Slot}
    (hs : b.slots[i]? = some s) : b.slotAt? s.pos s.layer = some i := by
  have hat : ∀ (j : Nat) (t : Slot), b.slots[j]? = some t →
      (b.slots.toList.map fun s => (s.pos, s.layer))[j]? = some (t.pos, t.layer) := by
    intro j t ht
    rw [List.getElem?_map, Array.getElem?_toList, ht]
    rfl
  cases hfind : b.slotAt? s.pos s.layer with
  | none =>
    have hnone := Array.findIdx?_eq_none_iff.mp hfind s (Array.mem_of_getElem? hs)
    simp at hnone
  | some j =>
    obtain ⟨t, ht, hpos, hlayer⟩ := slot_of_slotAt? hfind
    have hlt := (List.getElem?_eq_some_iff.mp (hat i s hs)).1
    have heq := (hat i s hs).trans (hpos ▸ hlayer ▸ hat j t ht).symm
    rw [(List.getElem?_inj hlt h).mp heq]

namespace Board

/-- Where a pin sits, if it is placed. -/
def spotOf (b : Board) (pin : Nat) : Option Spot := (b.pins.pins[pin]?).bind (·.spot)

variable {start b after : Board} {c : Commit} {cs : List Commit} {i j k : Nat}

theorem slotOf_eq (b : Board) (i : Nat) :
    Review.slotOf b i = (b.spotOf i).bind fun s => b.boundary.slotAt? s.pos s.layer := by
  unfold Review.slotOf spotOf
  cases b.pins.pins[i]? <;> rfl

theorem isPlaced_iff_spotOf (b : Board) (i : Nat) :
    b.pins.isPlaced i ↔ (b.spotOf i).isSome := by
  unfold PinTable.isPlaced spotOf Pin.placed
  cases b.pins.pins[i]? <;> simp

theorem Admits.spotOf_take (h : b.Admits c) {s : Slot} (hs : b.boundary.slots[c.slot]? = some s)
    (i : Nat) :
    (b.take c).spotOf i = if c.pin = i then some ⟨s.pos, s.layer⟩ else b.spotOf i := by
  rw [spotOf, h.pin_take hs, spotOf]
  by_cases hi : c.pin = i
  · subst hi
    obtain ⟨p, hp⟩ : ∃ p, b.pins.pins[c.pin]? = some p := ⟨_, Array.getElem?_eq_getElem h.pin_lt⟩
    simp [hp]
  · simp [hi]

theorem Admits.slotOf_take (hapart : b.boundary.Apart) (h : b.Admits c) (i : Nat) :
    Review.slotOf (b.take c) i = if c.pin = i then some c.slot else Review.slotOf b i := by
  obtain ⟨s, hs⟩ := h.exists_slot
  rw [slotOf_eq, slotOf_eq, h.spotOf_take hs]
  by_cases hi : c.pin = i
  · rw [if_pos hi, if_pos hi, Option.bind_some, h.frame.slotAt?, hapart.slotAt?_eq hs]
  · rw [if_neg hi, if_neg hi]
    simp only [h.frame.slotAt?]

theorem Frame.apart (h : Frame b after) (hapart : b.boundary.Apart) : after.boundary.Apart := by
  have hkeys : ∀ b : Board, (b.boundary.slots.toList.map fun s => (s.pos, s.layer)) =
      (b.boundary.slots.map fun s => (s.pos, s.layer, s.edge)).toList.map
        fun t => (t.1, t.2.1) := by
    intro b
    rw [Array.toList_map, List.map_map]
    rfl
  rw [Boundary.Apart, hkeys, h.slots, ← hkeys]
  exact hapart

/-- Pins that no commit is about stay where they are. -/
theorem Open.spotOf_of_notMem (h : b.Open cs) (hi : i ∉ cs.map (·.pin)) :
    (b.takeAll cs).spotOf i = b.spotOf i := by
  induction cs generalizing b with
  | nil => rfl
  | cons c cs ih =>
    obtain ⟨hc, hcs⟩ := Open.cons_iff.mp h
    obtain ⟨s, hs⟩ := hc.exists_slot
    rw [List.map_cons, List.mem_cons, not_or] at hi
    rw [takeAll_cons, ih hcs hi.2, hc.spotOf_take hs, if_neg (Ne.symm hi.1)]

theorem Open.slotOf_of_notMem (h : b.Open cs) (hi : i ∉ cs.map (·.pin)) :
    Review.slotOf (b.takeAll cs) i = Review.slotOf b i := by
  rw [slotOf_eq, slotOf_eq, h.spotOf_of_notMem hi]
  simp only [h.frame.slotAt?]

/-- Commits of different pins put each on the spot of its slot. -/
theorem Open.spotOf_of_mem (h : b.Open cs) (hpins : (cs.map (·.pin)).Nodup) (hc : c ∈ cs) :
    (b.takeAll cs).spotOf c.pin = (b.boundary.slots[c.slot]?).map fun s => ⟨s.pos, s.layer⟩ := by
  induction cs generalizing b with
  | nil => cases hc
  | cons d cs ih =>
    obtain ⟨hd, hcs⟩ := Open.cons_iff.mp h
    obtain ⟨hout, hnodup⟩ := List.nodup_cons.mp hpins
    rw [takeAll_cons]
    rcases List.mem_cons.mp hc with rfl | hc
    · obtain ⟨s, hs⟩ := hd.exists_slot
      rw [hcs.spotOf_of_notMem hout, hd.spotOf_take hs, if_pos rfl, hs, Option.map_some]
    · rw [ih hcs hnodup hc]
      have hslots := congrArg (fun slots => (slots[c.slot]?).map fun t => (⟨t.1, t.2.1⟩ : Spot))
        hd.frame.slots
      simpa only [Array.getElem?_map, Option.map_map, Function.comp_def] using hslots

/-- Commits of different pins seat each on its slot. -/
theorem Open.slotOf_of_mem (hapart : b.boundary.Apart) (h : b.Open cs)
    (hpins : (cs.map (·.pin)).Nodup) (hc : c ∈ cs) :
    Review.slotOf (b.takeAll cs) c.pin = some c.slot := by
  obtain ⟨s, hs⟩ := (h.admits c hc).exists_slot
  rw [slotOf_eq, h.spotOf_of_mem hpins hc, hs, Option.map_some, Option.bind_some,
    h.frame.slotAt?, hapart.slotAt?_eq hs]

/-! ### Seated pins -/

/-- On the way from `start` to `b` every placed pin has got a used slot of its own that was not out
of use at the start. -/
structure Seated (start b : Board) : Prop where
  frame : Frame start b
  keeps_blocked : ∀ k, start.boundary.isBlocked k → b.boundary.isBlocked k
  on_slot : ∀ i, b.pins.isPlaced i → ∃ k, Review.slotOf b i = some k
  used : ∀ i k, Review.slotOf b i = some k → b.boundary.isUsed k
  unblocked : ∀ i k, Review.slotOf b i = some k → ¬start.boundary.isBlocked k
  slot_inj : ∀ i j k, Review.slotOf b i = some k → Review.slotOf b j = some k → i = j

/-- Before any pin is placed. -/
theorem Seated.refl (h : ∀ i, start.spotOf i = none) : Seated start start := by
  have hslot : ∀ i k, Review.slotOf start i ≠ some k := by
    intro i k
    rw [slotOf_eq, h i]
    exact nofun
  refine ⟨Frame.refl start, fun k hk => hk, fun i hi => ?_, fun i k hk => absurd hk (hslot i k),
    fun i k hk => absurd hk (hslot i k), fun i j k hk => absurd hk (hslot i k)⟩
  rw [isPlaced_iff_spotOf, h i] at hi
  cases hi

theorem Seated.take (hapart : start.boundary.Apart) (h : Seated start b) (hc : b.Admits c) :
    Seated start (b.take c) := by
  have hslot := hc.slotOf_take (h.frame.apart hapart)
  have hfree : ∀ i, Review.slotOf b i ≠ some c.slot := by
    intro i hi
    have hunused := Boundary.not_isUsed_of_isAvailable hc.free
    rw [h.used i c.slot hi] at hunused
    cases hunused
  constructor
  · exact h.frame.trans hc.frame
  · exact fun k hk => (hc.isBlocked_take k).mpr (.inl (h.keeps_blocked k hk))
  · intro i hi
    rw [hslot]
    rcases (hc.isPlaced_take i).mp hi with hi | rfl
    · obtain ⟨k, hk⟩ := h.on_slot i hi
      split
      · exact ⟨_, rfl⟩
      · exact ⟨k, hk⟩
    · exact ⟨c.slot, if_pos rfl⟩
  · intro i k hk
    rw [hslot] at hk
    refine (hc.isUsed_take k).mpr ?_
    split at hk
    · exact .inr (Option.some.inj hk).symm
    · exact .inl (h.used i k hk)
  · intro i k hk hblocked
    rw [hslot] at hk
    split at hk
    · have hfree := Boundary.not_isBlocked_of_isAvailable hc.free
      rw [Option.some.inj hk, h.keeps_blocked k hblocked] at hfree
      cases hfree
    · exact h.unblocked i k hk hblocked
  · intro i j k hi hj
    rw [hslot] at hi hj
    split at hi <;> split at hj
    · rename_i hi' hj'
      exact hi'.symm.trans hj'
    · exact absurd (Option.some.inj hi ▸ hj) (hfree j)
    · exact absurd (Option.some.inj hj ▸ hi) (hfree i)
    · exact h.slot_inj i j k hi hj

theorem Seated.takeAll (hapart : start.boundary.Apart) (h : Seated start b) (hcs : b.Open cs) :
    Seated start (b.takeAll cs) := by
  induction cs generalizing b with
  | nil => exact h
  | cons c cs ih =>
    obtain ⟨hc, hcs⟩ := Open.cons_iff.mp hcs
    exact ih (h.take hapart hc) hcs

end Board

end PinRing
