import PinRing.Proofs.Board.Commits

/-! Boards that look the same in a part.  Commits that stay within the part do the same on both, and
commits that stay out of it do not show there. -/

namespace PinRing

/-- Some of the slots and pins of a board. -/
structure Footprint where
  slots : Nat → Prop
  pins : Nat → Prop

namespace Footprint

/-- The two parts share no slot and no pin. -/
structure Apart (f g : Footprint) : Prop where
  slots : ∀ i, f.slots i → ¬g.slots i
  pins : ∀ i, f.pins i → ¬g.pins i

theorem Apart.symm {f g : Footprint} (h : f.Apart g) : g.Apart f :=
  ⟨fun i hg hf => h.slots i hf hg, fun i hg hf => h.pins i hf hg⟩

/-- The commits put pins of the part on slots of the part. -/
def Covers (f : Footprint) (cs : List Commit) : Prop := ∀ c ∈ cs, f.slots c.slot ∧ f.pins c.pin

end Footprint

namespace Board

/-- The boards have one frame, and in a part they have the same slots and pins. -/
structure Agree (f : Footprint) (b b' : Board) : Prop where
  frame : Frame b b'
  slots : ∀ i, f.slots i → b'.boundary.slots[i]? = b.boundary.slots[i]?
  pins : ∀ i, f.pins i → b'.pins.pins[i]? = b.pins.pins[i]?

variable {f g : Footprint} {b b' b'' : Board} {c : Commit} {cs : List Commit}

theorem Agree.refl (f : Footprint) (b : Board) : Agree f b b :=
  ⟨.refl b, fun _ _ => rfl, fun _ _ => rfl⟩

theorem Agree.trans (h : Agree f b b') (h' : Agree f b' b'') : Agree f b b'' :=
  ⟨h.frame.trans h'.frame, fun i hi => (h'.slots i hi).trans (h.slots i hi),
    fun i hi => (h'.pins i hi).trans (h.pins i hi)⟩

theorem Agree.isAvailable (h : Agree f b b') {i : Nat} (hi : f.slots i) :
    b'.boundary.isAvailable i = b.boundary.isAvailable i := by
  rw [Boundary.isAvailable, Boundary.isAvailable, h.slots i hi]

theorem Agree.admits (h : Agree f b b') (hslot : f.slots c.slot) (hc : b.Admits c) :
    b'.Admits c where
  pin_lt := h.frame.size_pins ▸ hc.pin_lt
  free := (h.isAvailable hslot).trans hc.free

theorem Agree.take (h : Agree f b b') (hslot : f.slots c.slot) (hc : b.Admits c) :
    Agree f (b.take c) (b'.take c) := by
  have hc' := h.admits hslot hc
  obtain ⟨s, hs⟩ := hc.exists_slot
  have hs' : b'.boundary.slots[c.slot]? = some s := (h.slots c.slot hslot).trans hs
  constructor
  · exact hc.frame.symm.trans (h.frame.trans hc'.frame)
  · intro i hi
    rw [hc.slot_take, hc'.slot_take, h.slots i hi]
  · intro i hi
    rw [hc.pin_take hs, hc'.pin_take hs', h.pins i hi]

theorem Agree.takeAll (h : Agree f b b') (hcovers : f.Covers cs) (hcs : b.Open cs) :
    b'.Open cs ∧ Agree f (b.takeAll cs) (b'.takeAll cs) := by
  induction cs generalizing b b' with
  | nil => exact ⟨.nil b', h⟩
  | cons c cs ih =>
    obtain ⟨⟨hslot, -⟩, hrest⟩ := List.forall_mem_cons.mp hcovers
    obtain ⟨hc, hcs⟩ := Open.cons_iff.mp hcs
    obtain ⟨hopen, hagree⟩ := ih (h.take hslot hc) hrest hcs
    exact ⟨Open.cons_iff.mpr ⟨h.admits hslot hc, hopen⟩, hagree⟩

/-- Slots and pins that commits do not name stay as they are. -/
theorem Open.untouched (h : b.Open cs) :
    (∀ i, (∀ c ∈ cs, c.slot ≠ i) → (b.takeAll cs).boundary.slots[i]? = b.boundary.slots[i]?) ∧
      ∀ i, (∀ c ∈ cs, c.pin ≠ i) → (b.takeAll cs).pins.pins[i]? = b.pins.pins[i]? := by
  induction cs generalizing b with
  | nil => exact ⟨fun _ _ => rfl, fun _ _ => rfl⟩
  | cons c cs ih =>
    obtain ⟨hc, hcs⟩ := Open.cons_iff.mp h
    obtain ⟨hslots, hpins⟩ := ih hcs
    obtain ⟨s, hs⟩ := hc.exists_slot
    constructor
    · intro i hi
      obtain ⟨hne, hi⟩ := List.forall_mem_cons.mp hi
      rw [takeAll_cons, hslots i hi, hc.slot_take]
      simp [hne]
    · intro i hi
      obtain ⟨hne, hi⟩ := List.forall_mem_cons.mp hi
      rw [takeAll_cons, hpins i hi, hc.pin_take hs]
      simp [hne]

/-- Commits in one part do not show in another. -/
theorem Open.agree_of_apart (h : b.Open cs) (hcovers : f.Covers cs) (hapart : f.Apart g) :
    Agree g b (b.takeAll cs) where
  frame := h.frame
  slots := fun i hi => h.untouched.1 i fun c hc heq =>
    hapart.slots i (heq ▸ (hcovers c hc).1) hi
  pins := fun i hi => h.untouched.2 i fun c hc heq =>
    hapart.pins i (heq ▸ (hcovers c hc).2) hi

end Board

end PinRing
