import Mathlib.Data.List.TakeWhile
import PinRing.Placement.GroupPass
import PinRing.Placement.PinPass
import PinRing.Proofs.Board.Commits
import PinRing.Proofs.Geometry.Outline

/-! The moves that a placement is made of: a pin by itself, a mirror pair on two slots that reflect
each other, or a group along a block of slots.  Everything that a run does to a board is a list of
moves, and every list of moves is open. -/

namespace PinRing.Board

/-- What may be placed: which pins in which kind of move, and which groups. -/
structure Scope where
  pins : Origin → Nat → Prop
  groups : PinGroup → Prop

/-- Everything may be placed. -/
def Scope.all : Scope := ⟨fun _ _ => True, fun _ => True⟩

/-- What the first scope allows the second allows as well. -/
structure Scope.Le (s t : Scope) : Prop where
  pins : ∀ o i, s.pins o i → t.pins o i
  groups : ∀ g, s.groups g → t.groups g

/-- The commits of one move on a board, for a pin or group that the scope allows. -/
inductive Move (reflection : Option Reflection) (scope : Scope) (b : Board) : List Commit → Prop
  | single {pin slot : Nat} (elig : scope.pins .single pin)
      (admits : b.Admits ⟨pin, slot, .single⟩) (unplaced : ¬b.pins.isPlaced pin) :
      Move reflection scope b [⟨pin, slot, .single⟩]
  | pair {pin partner slot other : Nat} {s : Slot} {reflect : Reflection} {image : Point}
      (elig : scope.pins .pair pin) (given : reflection = some reflect)
      (partnered : b.pins.partner pin = .ok (some partner))
      (admits : b.Admits ⟨pin, slot, .pair⟩) (unplaced : ¬b.pins.isPlaced pin)
      (partner_admits : b.Admits ⟨partner, other, .pair⟩)
      (partner_unplaced : ¬b.pins.isPlaced partner) (slot_ne : slot ≠ other)
      (at_slot : b.boundary.slots[slot]? = some s) (reflected : reflect.Sends s.pos image)
      (at_image : b.boundary.slotAt? image s.layer = some other) :
      Move reflection scope b [⟨pin, slot, .pair⟩, ⟨partner, other, .pair⟩]
  | group {g : PinGroup} {edge : Edge} {start : Nat} (entitled : scope.groups g)
      (free : ∀ c ∈ GroupPass.layout g edge start, b.boundary.isAvailable c.slot) :
      Move reflection scope b
        ((GroupPass.layout g edge start).takeWhile (·.pin < b.pins.size))

/-- Moves one after the other, each on the board that those before it leave. -/
inductive Moves (reflection : Option Reflection) (scope : Scope) : Board → List Commit → Prop
  | nil (b : Board) : Moves reflection scope b []
  | cons {b : Board} {cs ds : List Commit} (head : Move reflection scope b cs)
      (tail : Moves reflection scope (b.takeAll cs) ds) : Moves reflection scope b (cs ++ ds)

/-- A pin that the sections may be given: it is in no group, and it is placed by itself only if it
has no mirror partner. -/
def Eligible (b : Board) (o : Origin) (pin : Nat) : Prop :=
  ∃ p, b.pins.pins[pin]? = some p ∧ p.grouped = false ∧
    (o = .single → b.pins.isMirrored p.name = false)

theorem Frame.eligible {before after : Board} (h : Frame before after) {o : Origin} {pin : Nat}
    (helig : after.Eligible o pin) : before.Eligible o pin := by
  obtain ⟨p, hp, hgrouped, hmirrored⟩ := helig
  obtain ⟨q, hq, hname, hgrouped'⟩ := h.symm.pin hp
  refine ⟨q, hq, hgrouped'.trans hgrouped, fun ho => ?_⟩
  rw [PinTable.isMirrored, ← h.mirrors, hname]
  exact hmirrored ho

/-- The eligible pins and the registered groups of a board. -/
def scope (b : Board) : Scope := ⟨b.Eligible, (· ∈ b.pins.groups)⟩

theorem Frame.scope_le {before after : Board} (h : Frame before after) :
    after.scope.Le before.scope where
  pins _ _ := h.eligible
  groups g hg := by
    have hmem : g ∈ after.pins.groups := hg
    rwa [h.groups] at hmem

/-- The scope allows the groups of a section, and its eligible pins in moves of some kinds. -/
structure Scope.Covers (scope : Scope) (start : Board) (kinds : Origin → Prop) (s : Section) :
    Prop where
  pins : ∀ i ∈ s.pins, ∀ o, kinds o → start.Eligible o i → scope.pins o i
  groups : ∀ g ∈ s.groups, scope.groups g

variable {reflection : Option Reflection} {scope other : Scope} {b : Board} {cs ds : List Commit}

theorem map_pin_layout (g : PinGroup) (edge : Edge) (first : Nat) :
    (GroupPass.layout g edge first).map (·.pin) = g.members := by
  rw [GroupPass.layout, List.map_map]
  exact List.zipIdx_map_fst 0 g.members

/-- Where only some members are put on their slots, only members are. -/
theorem mem_members_of_takeWhile {g : PinGroup} {edge : Edge} {start i : Nat} {p : Commit → Bool}
    (h : i ∈ ((GroupPass.layout g edge start).takeWhile p).map (·.pin)) : i ∈ g.members := by
  have hsub := (List.takeWhile_sublist p (l := GroupPass.layout g edge start)).map (·.pin)
  exact map_pin_layout g edge start ▸ hsub.subset h

/-- The members of a group go to different slots. -/
theorem layout_slots_nodup (g : PinGroup) (edge : Edge) (start : Nat) :
    ((GroupPass.layout g edge start).map (·.slot)).Nodup := by
  have hslots : (GroupPass.layout g edge start).map (·.slot) =
      (g.members.zipIdx.map Prod.snd).map fun k =>
        start + if g.ordered && GroupPass.runsBackward edge then g.size - 1 - k else k := by
    rw [GroupPass.layout, List.map_map, List.map_map]
    rfl
  rw [hslots, List.zipIdx_map_snd]
  have hnodup : (List.range' 0 g.members.length).Nodup := List.nodup_range'
  refine hnodup.map_on fun j hj k hk heq => ?_
  rw [List.mem_range'_1] at hj hk
  have hsize : g.size = g.members.length := rfl
  split at heq <;> omega

theorem Move.isOpen (h : Move reflection scope b cs) : b.Open cs := by
  cases h with
  | single _ admits _ =>
    exact Open.cons_iff.mpr ⟨admits, Open.nil _⟩
  | pair _ _ _ admits _ partner_admits _ slot_ne _ _ _ =>
    refine ⟨by simpa using slot_ne, fun c hc => ?_⟩
    rcases List.mem_cons.mp hc with rfl | hc
    · exact admits
    · rw [List.mem_singleton.mp hc]
      exact partner_admits
  | @group g edge start _ free =>
    have hsub := List.takeWhile_sublist (fun c : Commit => decide (c.pin < b.pins.size))
      (l := GroupPass.layout g edge start)
    refine ⟨(layout_slots_nodup g edge start).sublist (hsub.map _), fun c hc => ⟨?_, ?_⟩⟩
    · simpa using List.mem_takeWhile_imp hc
    · exact free c (hsub.subset hc)

/-- How a pin comes to be placed by a move. -/
theorem Move.cases_of_mem (h : Move reflection scope b cs) {i : Nat} (hi : i ∈ cs.map (·.pin)) :
    (scope.pins .single i ∧ ¬b.pins.isPlaced i) ∨
      (∃ k j, scope.pins .pair k ∧ b.pins.partner k = .ok (some j) ∧ (i = k ∨ i = j) ∧
        ¬b.pins.isPlaced i) ∨
      ∃ g, scope.groups g ∧ i ∈ g.members := by
  cases h with
  | single elig _ unplaced =>
    obtain rfl : i = _ := by simpa using hi
    exact .inl ⟨elig, unplaced⟩
  | pair elig _ partnered _ unplaced _ partner_unplaced _ _ _ _ =>
    refine .inr (.inl ⟨_, _, elig, partnered, ?_⟩)
    simp only [List.map_cons, List.map_nil, List.mem_cons, List.not_mem_nil, or_false] at hi
    rcases hi with rfl | rfl
    · exact ⟨.inl rfl, unplaced⟩
    · exact ⟨.inr rfl, partner_unplaced⟩
  | group entitled _ => exact .inr (.inr ⟨_, entitled, mem_members_of_takeWhile hi⟩)

theorem Move.mono (hle : scope.Le other) (h : Move reflection scope b cs) :
    Move reflection other b cs := by
  cases h with
  | single elig admits unplaced => exact .single (hle.pins _ _ elig) admits unplaced
  | pair elig given partnered admits unplaced partner_admits partner_unplaced slot_ne at_slot
      reflected at_image =>
    exact .pair (hle.pins _ _ elig) given partnered admits unplaced partner_admits partner_unplaced
      slot_ne at_slot reflected at_image
  | group entitled free => exact .group (hle.groups _ entitled) free

namespace Moves

theorem isOpen (h : Moves reflection scope b cs) : b.Open cs := by
  induction h with
  | nil b => exact Open.nil b
  | cons head _ ih => exact Open.append_iff.mpr ⟨head.isOpen, ih⟩

theorem one (h : Move reflection scope b cs) : Moves reflection scope b cs := by
  have := Moves.cons h (.nil _)
  rwa [List.append_nil] at this

theorem append (h : Moves reflection scope b cs)
    (h' : Moves reflection scope (b.takeAll cs) ds) :
    Moves reflection scope b (cs ++ ds) := by
  induction h with
  | nil b => exact h'
  | cons head _ ih =>
    rw [List.append_assoc]
    exact .cons head (ih (takeAll_append _ _ _ ▸ h'))

/-- A pin in no group is left alone where no pair is placed and it may not be placed by itself. -/
theorem notMem {i : Nat} (hsingle : ¬scope.pins .single i) (hpair : ∀ k, ¬scope.pins .pair k)
    (hgroup : ∀ g, scope.groups g → i ∉ g.members) (h : Moves reflection scope b cs) :
    i ∉ cs.map (·.pin) := by
  induction h with
  | nil b => exact List.not_mem_nil
  | cons head _ ih =>
    rw [List.map_append, List.mem_append, not_or]
    refine ⟨fun hmem => ?_, ih⟩
    rcases head.cases_of_mem hmem with ⟨h, -⟩ | ⟨k, _, h, -⟩ | ⟨g, hg, hi⟩
    · exact hsingle h
    · exact hpair k h
    · exact hgroup g hg hi

theorem mono (hle : scope.Le other) (h : Moves reflection scope b cs) :
    Moves reflection other b cs := by
  induction h with
  | nil b => exact .nil b
  | cons head _ ih => exact .cons (head.mono hle) ih

end Moves

end PinRing.Board
