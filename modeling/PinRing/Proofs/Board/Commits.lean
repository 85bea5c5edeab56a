import Mathlib.Data.List.Nodup
import Mathlib.Tactic.Common
import PinRing.Board.Basic

/-! What commits do to a board.  `Board.take` is one commit, with the slot of a group's pin taken
out of use as well; a list of commits is `Open` when each goes to an available slot of its own, and
then `takeAll` changes the slots and pins it names and nothing else.  A commit as such does not ask
whether its slot is available. -/

namespace PinRing

namespace Boundary

/-- The slot at an index carries a pin. -/
def isUsed (b : Boundary) (i : Nat) : Bool := (b.slots[i]?).any (·.used)

/-- The slot at an index is out of use. -/
def isBlocked (b : Boundary) (i : Nat) : Bool := (b.slots[i]?).any (·.blocked)

theorem isAvailable_iff {b : Boundary} {i : Nat} :
    b.isAvailable i ↔ ∃ s, b.slots[i]? = some s ∧ s.used = false ∧ s.blocked = false := by
  cases h : b.slots[i]? with
  | none => simp [isAvailable, h]
  | some s => simp [isAvailable, h, Slot.available, and_comm]

theorem not_isUsed_of_isAvailable {b : Boundary} {i : Nat} (h : b.isAvailable i) :
    b.isUsed i = false := by
  obtain ⟨s, hs, hused, -⟩ := isAvailable_iff.mp h
  simp [isUsed, hs, hused]

theorem not_isBlocked_of_isAvailable {b : Boundary} {i : Nat} (h : b.isAvailable i) :
    b.isBlocked i = false := by
  obtain ⟨s, hs, -, hblocked⟩ := isAvailable_iff.mp h
  simp [isBlocked, hs, hblocked]

end Boundary

namespace Board

/-- The board after a commit, where the slot of a group's pin goes out of use. -/
def take (b : Board) (c : Commit) : Board :=
  let after := (b.commit c).state
  if c.origin = .group then after.block c.slot else after

/-- The board after some commits. -/
def takeAll (b : Board) (cs : List Commit) : Board := cs.foldl take b

/-- The pin of the commit exists and its slot is available. -/
structure Admits (b : Board) (c : Commit) : Prop where
  pin_lt : c.pin < b.pins.size
  free : b.boundary.isAvailable c.slot

/-- Every commit goes to an available slot of its own. -/
structure Open (b : Board) (cs : List Commit) : Prop where
  slots_nodup : (cs.map (·.slot)).Nodup
  admits : ∀ c ∈ cs, b.Admits c

/-- `after` has the slots, pins, groups and mirror pairs of `before`; only flags and spots may
differ. -/
structure Frame (before after : Board) : Prop where
  slots : after.boundary.slots.map (fun s => (s.pos, s.layer, s.edge)) =
    before.boundary.slots.map (fun s => (s.pos, s.layer, s.edge))
  pins : after.pins.pins.map (fun p => (p.name, p.grouped)) =
    before.pins.pins.map (fun p => (p.name, p.grouped))
  groups : after.pins.groups = before.pins.groups
  mirrors : after.pins.mirrors = before.pins.mirrors

variable {b before mid after : Board} {c : Commit} {cs ds : List Commit}

/-! ### Commits on slots that may be taken -/

/-- The pin and the slot of the commit exist. -/
def knows (b : Board) (c : Commit) : Bool :=
  decide (c.pin < b.pins.size) && decide (c.slot < b.boundary.size)

theorem commit_eq (hpin : c.pin < b.pins.size) {s : Slot}
    (hs : b.boundary.slots[c.slot]? = some s) :
    b.commit c = .done
      { boundary := b.boundary.use c.slot
        pins := b.pins.place c.pin ⟨s.pos, s.layer⟩
        journal := b.journal ++ [c] } () := by
  obtain ⟨p, hp⟩ : ∃ p, b.pins.pins[c.pin]? = some p := ⟨_, Array.getElem?_eq_getElem hpin⟩
  simp only [commit, hs, hp]

/-- A commit of a pin that exists on a slot that exists goes through, taken or not. -/
theorem exists_commit_eq (h : b.knows c) : ∃ spot, b.commit c = .done
    { boundary := b.boundary.use c.slot
      pins := b.pins.place c.pin spot
      journal := b.journal ++ [c] } () := by
  simp only [knows, Bool.and_eq_true, decide_eq_true_eq] at h
  exact ⟨_, commit_eq h.1 (Array.getElem?_eq_getElem h.2)⟩

theorem commit_of_not_knows (h : b.knows c = false) : b.commit c = .stop b .outOfRange := by
  simp only [knows, Bool.and_eq_false_iff, decide_eq_false_iff_not, Nat.not_lt] at h
  rw [commit]
  rcases h with hpin | hslot
  · rw [show b.pins.pins[c.pin]? = none from Array.getElem?_eq_none hpin]
    split
    · rename_i h
      cases h
    · rfl
  · rw [show b.boundary.slots[c.slot]? = none from Array.getElem?_eq_none hslot]

/-- A commit adds no pin and no slot, and leaves the other slots as they are. -/
theorem take_keeps (b : Board) (c : Commit) :
    (b.take c).pins.size = b.pins.size ∧ (b.take c).boundary.size = b.boundary.size ∧
      ∀ i, i ≠ c.slot → (b.take c).boundary.isAvailable i = b.boundary.isAvailable i := by
  have hcommit : (b.commit c).state.pins.size = b.pins.size ∧
      (b.commit c).state.boundary.size = b.boundary.size ∧
      ∀ i, i ≠ c.slot →
        (b.commit c).state.boundary.isAvailable i = b.boundary.isAvailable i := by
    cases hknows : b.knows c with
    | false =>
      rw [commit_of_not_knows hknows]
      exact ⟨rfl, rfl, fun _ _ => rfl⟩
    | true =>
      obtain ⟨spot, hcommit⟩ := exists_commit_eq hknows
      rw [hcommit]
      refine ⟨by simp [Outcome.done, PinTable.size, PinTable.place], Boundary.size_use _ _,
        fun i hi => ?_⟩
      simp [Outcome.done, Boundary.isAvailable_use, Ne.symm hi]
  obtain ⟨hpins, hsize, hfree⟩ := hcommit
  rw [take]
  split
  · refine ⟨hpins, (Boundary.size_block _ _).trans hsize, fun i hi => ?_⟩
    rw [block, Boundary.isAvailable_block, decide_eq_true (Ne.symm hi), Bool.and_true, hfree i hi]
  · exact ⟨hpins, hsize, hfree⟩

theorem knows_take (b : Board) (c : Commit) : (b.take c).knows = b.knows := by
  funext d
  rw [knows, (b.take_keeps c).1, (b.take_keeps c).2.1, knows]

theorem journal_take (h : b.knows c) : (b.take c).journal = b.journal ++ [c] := by
  obtain ⟨spot, hcommit⟩ := exists_commit_eq h
  rw [take, hcommit]
  split <;> rfl

/-! ### One commit -/

theorem Admits.exists_slot (h : b.Admits c) : ∃ s, b.boundary.slots[c.slot]? = some s := by
  obtain ⟨s, hs, -⟩ := Boundary.isAvailable_iff.mp h.free
  exact ⟨s, hs⟩

theorem Admits.knows (h : b.Admits c) : b.knows c := by
  obtain ⟨s, hs⟩ := h.exists_slot
  rw [Board.knows, decide_eq_true h.pin_lt, Bool.true_and]
  exact decide_eq_true (Array.getElem?_eq_some_iff.mp hs).1

theorem Admits.commit_eq (h : b.Admits c) {s : Slot} (hs : b.boundary.slots[c.slot]? = some s) :
    b.commit c = .done
      { boundary := b.boundary.use c.slot
        pins := b.pins.place c.pin ⟨s.pos, s.layer⟩
        journal := b.journal ++ [c] } () :=
  Board.commit_eq h.pin_lt hs

theorem Admits.take_eq (h : b.Admits c) {s : Slot} (hs : b.boundary.slots[c.slot]? = some s) :
    b.take c =
      { boundary :=
          if c.origin = .group then (b.boundary.use c.slot).block c.slot
          else b.boundary.use c.slot
        pins := b.pins.place c.pin ⟨s.pos, s.layer⟩
        journal := b.journal ++ [c] } := by
  simp only [take, h.commit_eq hs, Outcome.done, block]
  split <;> rfl

theorem Admits.slot_take (h : b.Admits c) (i : Nat) :
    (b.take c).boundary.slots[i]? = (b.boundary.slots[i]?).map fun s =>
      if c.slot = i then
        { s with used := true, blocked := s.blocked || decide (c.origin = .group) }
      else s := by
  obtain ⟨s, hs⟩ := h.exists_slot
  rw [h.take_eq hs]
  by_cases hgroup : c.origin = .group
  · by_cases hi : c.slot = i
    · subst hi
      simp [hgroup, Boundary.use, Boundary.block, Array.getElem?_modify, hs]
    · simp [hgroup, Boundary.use, Boundary.block, Array.getElem?_modify, hi]
  · by_cases hi : c.slot = i
    · subst hi
      simp [hgroup, Boundary.use, Array.getElem?_modify, hs]
    · simp [hgroup, Boundary.use, Array.getElem?_modify, hi]

theorem Admits.pin_take (h : b.Admits c) {s : Slot} (hs : b.boundary.slots[c.slot]? = some s)
    (i : Nat) : (b.take c).pins.pins[i]? = (b.pins.pins[i]?).map fun p =>
      if c.pin = i then { p with spot := some ⟨s.pos, s.layer⟩ } else p := by
  rw [h.take_eq hs]
  by_cases hi : c.pin = i
  · subst hi
    simp [PinTable.place, Array.getElem?_modify]
  · simp [PinTable.place, Array.getElem?_modify, hi]

theorem Admits.journal_take (h : b.Admits c) : (b.take c).journal = b.journal ++ [c] := by
  obtain ⟨s, hs⟩ := h.exists_slot
  rw [h.take_eq hs]

theorem Admits.isAvailable_take (h : b.Admits c) (i : Nat) :
    (b.take c).boundary.isAvailable i ↔ b.boundary.isAvailable i ∧ i ≠ c.slot := by
  rw [Boundary.isAvailable, h.slot_take, Boundary.isAvailable]
  cases b.boundary.slots[i]? with
  | none => simp
  | some s =>
    by_cases hi : i = c.slot
    · simp [hi, Slot.available]
    · simp [hi, Ne.symm hi]

theorem Admits.isUsed_take (h : b.Admits c) (i : Nat) :
    (b.take c).boundary.isUsed i ↔ b.boundary.isUsed i ∨ i = c.slot := by
  obtain ⟨s, hs⟩ := h.exists_slot
  rw [Boundary.isUsed, h.slot_take, Boundary.isUsed]
  by_cases hi : i = c.slot
  · simp [hi, hs]
  · simp [hi, Ne.symm hi]

theorem Admits.isBlocked_take (h : b.Admits c) (i : Nat) :
    (b.take c).boundary.isBlocked i ↔
      b.boundary.isBlocked i ∨ i = c.slot ∧ c.origin = .group := by
  obtain ⟨s, hs⟩ := h.exists_slot
  rw [Boundary.isBlocked, h.slot_take, Boundary.isBlocked]
  by_cases hi : i = c.slot
  · simp [hi, hs]
  · simp [hi, Ne.symm hi]

theorem Admits.isPlaced_take (h : b.Admits c) (i : Nat) :
    (b.take c).pins.isPlaced i ↔ b.pins.isPlaced i ∨ i = c.pin := by
  obtain ⟨s, hs⟩ := h.exists_slot
  have := h.pin_lt
  rw [h.take_eq hs, PinTable.isPlaced_place]
  by_cases hi : i = c.pin
  · simp [hi, this]
  · simp [hi, Ne.symm hi]

/-! ### Frames -/

theorem Frame.refl (b : Board) : Frame b b := ⟨rfl, rfl, rfl, rfl⟩

theorem Frame.trans (h1 : Frame before mid) (h2 : Frame mid after) : Frame before after :=
  ⟨h2.slots.trans h1.slots, h2.pins.trans h1.pins, h2.groups.trans h1.groups,
    h2.mirrors.trans h1.mirrors⟩

/-- A change of one entry that `g` does not see. -/
theorem map_modify_eq {α β : Type} {g : α → β} {f : α → α} (as : Array α) (i : Nat)
    (h : ∀ a, g (f a) = g a) : (as.modify i f).map g = as.map g := by
  refine Array.ext_getElem? fun j => ?_
  rw [Array.getElem?_map, Array.getElem?_map, Array.getElem?_modify]
  split
  · rw [Option.map_map]
    exact congrArg (Option.map · _) (funext h)
  · rfl

theorem frame_placeAt (b : Board) (i : Nat) (s : Spot) : Frame b (b.placeAt i s) := by
  refine ⟨rfl, ?_, rfl, rfl⟩
  simp only [placeAt, PinTable.place]
  exact map_modify_eq b.pins.pins i fun _ => rfl

theorem frame_use (b : Board) (i : Nat) : Frame b { b with boundary := b.boundary.use i } := by
  refine ⟨?_, rfl, rfl, rfl⟩
  simp only [Boundary.use]
  exact map_modify_eq b.boundary.slots i fun _ => rfl

theorem frame_block (b : Board) (i : Nat) : Frame b (b.block i) := by
  refine ⟨?_, rfl, rfl, rfl⟩
  simp only [block, Boundary.block]
  exact map_modify_eq b.boundary.slots i fun _ => rfl

/-- A commit changes a flag and a spot, whether its slot is available or not. -/
theorem frame_take (b : Board) (c : Commit) : Frame b (b.take c) := by
  have hcommit : Frame b (b.commit c).state := by
    cases hknows : b.knows c with
    | false =>
      rw [commit_of_not_knows hknows]
      exact .refl b
    | true =>
      obtain ⟨spot, hcommit⟩ := exists_commit_eq hknows
      rw [hcommit]
      exact ⟨(b.frame_use c.slot).slots, (b.frame_placeAt c.pin spot).pins, rfl, rfl⟩
  rw [take]
  split
  · exact hcommit.trans (frame_block _ c.slot)
  · exact hcommit

theorem frame_takeAll (b : Board) (cs : List Commit) : Frame b (b.takeAll cs) := by
  induction cs generalizing b with
  | nil => exact .refl b
  | cons c cs ih => exact (b.frame_take c).trans (ih _)

theorem Admits.frame (_ : b.Admits c) : Frame b (b.take c) := b.frame_take c

theorem Frame.size_pins (h : Frame before after) : after.pins.size = before.pins.size := by
  have := congrArg Array.size h.pins
  rwa [Array.size_map, Array.size_map] at this

theorem Frame.size_boundary (h : Frame before after) :
    after.boundary.size = before.boundary.size := by
  have := congrArg Array.size h.slots
  rwa [Array.size_map, Array.size_map] at this

/-- A slot keeps its position and layer. -/
theorem Frame.slot (h : Frame before after) {i : Nat} {s : Slot}
    (hs : before.boundary.slots[i]? = some s) :
    ∃ t, after.boundary.slots[i]? = some t ∧ t.pos = s.pos ∧ t.layer = s.layer := by
  have := congrArg (·[i]?) h.slots
  simp only [Array.getElem?_map, hs, Option.map_some, Option.map_eq_some_iff, Prod.mk.injEq] at this
  obtain ⟨t, ht, hpos, hlayer, -⟩ := this
  exact ⟨t, ht, hpos, hlayer⟩

/-- A pin keeps its name and whether it is grouped. -/
theorem Frame.pin (h : Frame before after) {i : Nat} {p : Pin}
    (hp : before.pins.pins[i]? = some p) :
    ∃ q, after.pins.pins[i]? = some q ∧ q.name = p.name ∧ q.grouped = p.grouped := by
  have := congrArg (·[i]?) h.pins
  simp only [Array.getElem?_map, hp, Option.map_some, Option.map_eq_some_iff, Prod.mk.injEq] at this
  obtain ⟨q, hq, hname, hgrouped⟩ := this
  exact ⟨q, hq, hname, hgrouped⟩

theorem Frame.symm (h : Frame before after) : Frame after before :=
  ⟨h.slots.symm, h.pins.symm, h.groups.symm, h.mirrors.symm⟩

theorem Frame.slotAt? (h : Frame before after) (pos : Point) (layer : Int) :
    after.boundary.slotAt? pos layer = before.boundary.slotAt? pos layer := by
  have hmap : ∀ b : Board, b.boundary.slotAt? pos layer =
      (b.boundary.slots.map (fun s => (s.pos, s.layer, s.edge))).findIdx?
        fun t => t.1 == pos && t.2.1 == layer := by
    intro b
    rw [Array.findIdx?_map]
    rfl
  rw [hmap, hmap, h.slots]

theorem Frame.indexOf? (h : Frame before after) (name : String) :
    after.pins.indexOf? name = before.pins.indexOf? name := by
  have hmap : ∀ b : Board, b.pins.indexOf? name =
      (b.pins.pins.map (fun p => (p.name, p.grouped))).findIdx? fun t => t.1 == name := by
    intro b
    rw [Array.findIdx?_map]
    rfl
  rw [hmap, hmap, h.pins]

theorem Frame.partner (h : Frame before after) (i : Nat) :
    after.pins.partner i = before.pins.partner i := by
  have hindex : ∀ name, after.pins.indexOf name = before.pins.indexOf name := fun name => by
    rw [PinTable.indexOf, PinTable.indexOf, h.indexOf?]
  cases hp : before.pins.pins[i]? with
  | none =>
    have : after.pins.pins[i]? = none := by
      have := h.size_pins
      simp only [PinTable.size] at this
      simp only [Array.getElem?_eq_none_iff] at hp ⊢
      omega
    rw [PinTable.partner, PinTable.partner, PinTable.pin, PinTable.pin, hp, this]
    rfl
  | some p =>
    obtain ⟨q, hq, hname, -⟩ := h.pin hp
    simp only [PinTable.partner, PinTable.pin, hp, hq, h.mirrors, hindex, Bind.bind, Except.bind,
      hname]

/-! ### Lists of commits -/

@[simp] theorem takeAll_nil (b : Board) : b.takeAll [] = b := rfl

@[simp] theorem takeAll_cons (b : Board) (c : Commit) (cs : List Commit) :
    b.takeAll (c :: cs) = (b.take c).takeAll cs := rfl

theorem takeAll_append (b : Board) (cs ds : List Commit) :
    b.takeAll (cs ++ ds) = (b.takeAll cs).takeAll ds := List.foldl_append

theorem journal_takeAll (h : ∀ c ∈ cs, b.knows c) :
    (b.takeAll cs).journal = b.journal ++ cs := by
  induction cs generalizing b with
  | nil => exact (List.append_nil _).symm
  | cons c cs ih =>
    obtain ⟨hc, hcs⟩ := List.forall_mem_cons.mp h
    rw [takeAll_cons, ih (knows_take b c ▸ hcs), journal_take hc, List.append_assoc]
    rfl

theorem isAvailable_takeAll_of_notMem {i : Nat} (h : i ∉ cs.map (·.slot)) :
    (b.takeAll cs).boundary.isAvailable i = b.boundary.isAvailable i := by
  induction cs generalizing b with
  | nil => rfl
  | cons c cs ih =>
    rw [List.map_cons, List.mem_cons, not_or] at h
    rw [takeAll_cons, ih h.2, (b.take_keeps c).2.2 i h.1]

/-- On available slots only the pins matter. -/
theorem takeWhile_knows (h : ∀ c ∈ cs, b.boundary.isAvailable c.slot) :
    cs.takeWhile b.knows = cs.takeWhile (·.pin < b.pins.size) := by
  induction cs with
  | nil => rfl
  | cons c cs ih =>
    obtain ⟨hc, hcs⟩ := List.forall_mem_cons.mp h
    obtain ⟨s, hs, -⟩ := Boundary.isAvailable_iff.mp hc
    have hslot : c.slot < b.boundary.size := (Array.getElem?_eq_some_iff.mp hs).1
    have hknows : b.knows c = decide (c.pin < b.pins.size) := by
      rw [knows, decide_eq_true hslot, Bool.and_true]
    rw [List.takeWhile_cons, List.takeWhile_cons, hknows, ih hcs]

theorem Open.nil (b : Board) : b.Open [] := ⟨List.nodup_nil, fun _ hc => nomatch hc⟩

theorem Open.cons_iff : b.Open (c :: cs) ↔ b.Admits c ∧ (b.take c).Open cs := by
  constructor
  · intro h
    have hc := h.admits c List.mem_cons_self
    obtain ⟨hout, hnodup⟩ := List.nodup_cons.mp h.slots_nodup
    refine ⟨hc, hnodup, fun d hd => ?_⟩
    have hadmits := h.admits d (List.mem_cons_of_mem _ hd)
    refine ⟨by rw [hc.frame.size_pins]; exact hadmits.pin_lt, ?_⟩
    refine (hc.isAvailable_take _).mpr ⟨hadmits.free, fun heq => hout ?_⟩
    exact List.mem_map.mpr ⟨d, hd, heq⟩
  · rintro ⟨hc, h⟩
    have hfree : ∀ d ∈ cs, b.boundary.isAvailable d.slot ∧ d.slot ≠ c.slot := fun d hd =>
      (hc.isAvailable_take _).mp (h.admits d hd).free
    constructor
    · refine List.nodup_cons.mpr ⟨fun hmem => ?_, h.slots_nodup⟩
      obtain ⟨d, hd, heq⟩ := List.mem_map.mp hmem
      exact (hfree d hd).2 heq
    · intro d hd
      rcases List.mem_cons.mp hd with rfl | hd
      · exact hc
      · exact ⟨hc.frame.size_pins ▸ (h.admits d hd).pin_lt, (hfree d hd).1⟩

/-- Commits that are open before, followed by commits that are open after them. -/
theorem Open.append_iff : b.Open (cs ++ ds) ↔ b.Open cs ∧ (b.takeAll cs).Open ds := by
  induction cs generalizing b with
  | nil => simp [Open.nil]
  | cons c cs ih => rw [List.cons_append, Open.cons_iff, ih, takeAll_cons, Open.cons_iff, and_assoc]

theorem Open.frame (_ : b.Open cs) : Frame b (b.takeAll cs) := b.frame_takeAll cs

theorem Open.journal (h : b.Open cs) : (b.takeAll cs).journal = b.journal ++ cs := by
  induction cs generalizing b with
  | nil => simp
  | cons c cs ih =>
    obtain ⟨hc, hcs⟩ := Open.cons_iff.mp h
    rw [takeAll_cons, ih hcs, hc.journal_take, List.append_assoc]
    rfl

theorem Open.isAvailable (h : b.Open cs) (i : Nat) :
    (b.takeAll cs).boundary.isAvailable i ↔
      b.boundary.isAvailable i ∧ i ∉ cs.map (·.slot) := by
  induction cs generalizing b with
  | nil => simp
  | cons c cs ih =>
    obtain ⟨hc, hcs⟩ := Open.cons_iff.mp h
    rw [takeAll_cons, ih hcs, hc.isAvailable_take, List.map_cons, List.mem_cons, not_or, and_assoc]

theorem Open.isUsed (h : b.Open cs) (i : Nat) :
    (b.takeAll cs).boundary.isUsed i ↔ b.boundary.isUsed i ∨ i ∈ cs.map (·.slot) := by
  induction cs generalizing b with
  | nil => simp
  | cons c cs ih =>
    obtain ⟨hc, hcs⟩ := Open.cons_iff.mp h
    rw [takeAll_cons, ih hcs, hc.isUsed_take, List.map_cons, List.mem_cons, or_assoc]

theorem Open.isBlocked (h : b.Open cs) (i : Nat) :
    (b.takeAll cs).boundary.isBlocked i ↔
      b.boundary.isBlocked i ∨ ∃ c ∈ cs, i = c.slot ∧ c.origin = .group := by
  induction cs generalizing b with
  | nil => simp
  | cons c cs ih =>
    obtain ⟨hc, hcs⟩ := Open.cons_iff.mp h
    rw [takeAll_cons, ih hcs, hc.isBlocked_take, List.exists_mem_cons_iff, or_assoc]

theorem Open.isPlaced (h : b.Open cs) (i : Nat) :
    (b.takeAll cs).pins.isPlaced i ↔ b.pins.isPlaced i ∨ i ∈ cs.map (·.pin) := by
  induction cs generalizing b with
  | nil => simp
  | cons c cs ih =>
    obtain ⟨hc, hcs⟩ := Open.cons_iff.mp h
    rw [takeAll_cons, ih hcs, hc.isPlaced_take, List.map_cons, List.mem_cons, or_assoc]

/-- Open commits are all carried out, one after the other. -/
theorem Open.forEach_commit (h : b.Open cs) (hsingle : ∀ c ∈ cs, c.origin ≠ .group) :
    Outcome.forEach commit b cs = .done (b.takeAll cs) () := by
  induction cs generalizing b with
  | nil => rfl
  | cons c cs ih =>
    obtain ⟨hc, hcs⟩ := Open.cons_iff.mp h
    obtain ⟨s, hs⟩ := hc.exists_slot
    have htake : b.take c = (b.commit c).state := by
      simp [take, hsingle c List.mem_cons_self]
    have hrest := ih hcs fun d hd => hsingle d (List.mem_cons_of_mem _ hd)
    rw [htake, hc.commit_eq hs] at hrest
    rw [Outcome.forEach_cons, hc.commit_eq hs, Outcome.done_andThen, takeAll_cons, htake,
      hc.commit_eq hs]
    exact hrest

end Board

end PinRing
