import PinRing.Proofs.Board.PinTable
import PinRing.Proofs.Placement.Seating

/-! Mirror pairs: the two pins of a pair sit on spots that reflect each other, or neither is placed.
Every move keeps this of a pair that only moves of pairs may place. -/

namespace PinRing.Board

/-- Two pins sit on spots that reflect each other, unless neither is placed. -/
def Faces (reflect : Reflection) (b : Board) (i j : Nat) : Prop :=
  (b.spotOf i = none ∧ b.spotOf j = none) ∨
    ∃ s t, b.spotOf i = some s ∧ b.spotOf j = some t ∧ reflect.Sends s.pos t.pos ∧
      t.layer = s.layer

variable {reflect : Reflection} {start b after : Board} {scope : Scope} {i j : Nat}
variable {cs : List Commit}

theorem Faces.congr (h : Faces reflect b i j) (hi : after.spotOf i = b.spotOf i)
    (hj : after.spotOf j = b.spotOf j) : Faces reflect after i j := by
  rwa [Faces, hi, hj]

theorem Faces.symm (hsymm : ∀ p q, reflect.Sends p q → reflect.Sends q p)
    (h : Faces reflect b i j) : Faces reflect b j i := by
  rcases h with ⟨hi, hj⟩ | ⟨s, t, hs, ht, hreflect, hlayer⟩
  · exact .inl ⟨hj, hi⟩
  · exact .inr ⟨t, s, ht, hs, hsymm _ _ hreflect, hlayer.symm⟩

/-- The pins of a pair are placed together. -/
theorem Faces.isPlaced_iff (h : Faces reflect b i j) : b.pins.isPlaced i ↔ b.pins.isPlaced j := by
  rw [isPlaced_iff_spotOf, isPlaced_iff_spotOf]
  rcases h with ⟨hi, hj⟩ | ⟨s, t, hs, ht, -⟩
  · simp [hi, hj]
  · simp [hs, ht]

theorem Open.faces (hopen : b.Open cs) (h : Faces reflect b i j) (hi : i ∉ cs.map (·.pin))
    (hj : j ∉ cs.map (·.pin)) : Faces reflect (b.takeAll cs) i j :=
  h.congr (hopen.spotOf_of_notMem hi) (hopen.spotOf_of_notMem hj)

/-- A pair that has just been placed faces each other. -/
theorem Admits.faces {slot other k l : Nat} {s : Slot} {image : Point} {o : Origin}
    (hk : b.Admits ⟨k, slot, o⟩) (hl : b.Admits ⟨l, other, o⟩) (hne : slot ≠ other) (hkl : k ≠ l)
    (hs : b.boundary.slots[slot]? = some s) (hreflect : reflect.Sends s.pos image)
    (hat : b.boundary.slotAt? image s.layer = some other) :
    Faces reflect (b.takeAll [⟨k, slot, o⟩, ⟨l, other, o⟩]) k l := by
  obtain ⟨t, ht, hpos, hlayer⟩ := Boundary.slot_of_slotAt? hat
  obtain ⟨t', ht', hpos', hlayer'⟩ := hk.frame.slot ht
  have hl' : (b.take ⟨k, slot, o⟩).Admits ⟨l, other, o⟩ :=
    ⟨hk.frame.size_pins ▸ hl.pin_lt, (hk.isAvailable_take other).mpr ⟨hl.free, Ne.symm hne⟩⟩
  have hspotL : (b.takeAll [⟨k, slot, o⟩, ⟨l, other, o⟩]).spotOf l = some ⟨image, s.layer⟩ := by
    rw [takeAll_cons, takeAll_cons, takeAll_nil, hl'.spotOf_take ht', if_pos rfl, hpos', hlayer',
      hpos, hlayer]
  have hspotK : (b.takeAll [⟨k, slot, o⟩, ⟨l, other, o⟩]).spotOf k = some ⟨s.pos, s.layer⟩ := by
    rw [takeAll_cons, takeAll_cons, takeAll_nil, hl'.spotOf_take ht', if_neg (Ne.symm hkl),
      hk.spotOf_take hs, if_pos rfl]
  exact .inr ⟨_, _, hspotK, hspotL, hreflect, rfl⟩

/-- The pins `i` and `j` are a pair of `start`, whose pairs are mutual, and the scope leaves them to
the moves of pairs.  If such a move may begin with the second pin, reflections can be undone. -/
structure Scope.Pairs (scope : Scope) (reflect : Reflection) (start : Board) (i j : Nat) :
    Prop where
  partner : start.pins.partner i = .ok (some j)
  back : ∀ k l, start.pins.partner k = .ok (some l) → start.pins.partner l = .ok (some k)
  ne : i ≠ j
  single : ∀ k, scope.pins .single k → k ≠ i ∧ k ≠ j
  group : ∀ g, scope.groups g → i ∉ g.members ∧ j ∉ g.members
  undone : scope.pins .pair j → ∀ p q, reflect.Sends p q → reflect.Sends q p

/-- A pin that is placed by itself has no partner. -/
theorem Eligible.partner_ne {pin : Nat} (h : start.Eligible .single pin) :
    start.pins.partner pin ≠ .ok (some j) := by
  intro hpartner
  obtain ⟨p, hp, -, hsingle⟩ := h
  obtain ⟨q, name, hq, hname, -⟩ := PinTable.partner_eq_ok.mp hpartner
  rw [hp] at hq
  obtain rfl := Option.some.inj hq
  have hmirrored := hsingle rfl
  rw [PinTable.isMirrored, hname] at hmirrored
  cases hmirrored

/-- The mirror map pairs up pins of distinct names, none of which is placed or in a group. -/
structure Paired (b : Board) : Prop where
  names_nodup : b.pins.names.Nodup
  back : ∀ x y, b.pins.mirrors.lookup x = some y → b.pins.mirrors.lookup y = some x
  ne : ∀ x y, b.pins.mirrors.lookup x = some y → x ≠ y
  unplaced : ∀ p ∈ b.pins.pins, b.pins.isMirrored p.name → p.spot = none
  ungrouped : ∀ p ∈ b.pins.pins, b.pins.isMirrored p.name → p.grouped = false
  unlisted : ∀ g ∈ b.pins.groups, ∀ i ∈ g.members, ∀ p, b.pins.pins[i]? = some p →
    b.pins.isMirrored p.name = false

/-- A board with distinct pairs and no mirrored pin in a group. -/
theorem Paired.of_declared (hd : b.pins.Declared)
    (hpair : ∀ e ∈ b.pins.mirrors, ∀ f ∈ b.pins.mirrors,
      e.1 = f.1 ∨ e.1 = f.2 ∨ e.2 = f.1 ∨ e.2 = f.2 → f = e ∨ f = e.swap)
    (hgrouped : ∀ p ∈ b.pins.pins, p.grouped = true → b.pins.isMirrored p.name = false) :
    b.Paired where
  names_nodup := hd.names_nodup
  back := hd.lookup_symm hpair
  ne := hd.lookup_ne
  unplaced := fun p hp _ => by
    obtain ⟨i, hi⟩ := Array.getElem?_of_mem hp
    exact hd.unplaced i p hi
  ungrouped := fun p hp hmirrored => by
    by_contra hg
    rw [hgrouped p hp (by simpa using hg)] at hmirrored
    cases hmirrored
  unlisted := fun g hg i hi p hp => by
    obtain ⟨q, hq, hgq⟩ := hd.members_grouped g hg i hi
    obtain rfl := Option.some.inj (hp.symm.trans hq)
    exact hgrouped p (Array.mem_of_getElem? hp) hgq

theorem Paired.partner_symm (h : start.Paired) {k l : Nat}
    (hkl : start.pins.partner k = .ok (some l)) : start.pins.partner l = .ok (some k) :=
  PinTable.partner_symm h.names_nodup h.back hkl

/-- A pin with a partner is mirrored. -/
theorem exists_of_partner {k l : Nat} (h : start.pins.partner k = .ok (some l)) :
    ∃ p, start.pins.pins[k]? = some p ∧ start.pins.isMirrored p.name := by
  obtain ⟨p, name, hp, hname, -⟩ := PinTable.partner_eq_ok.mp h
  exact ⟨p, hp, by rw [PinTable.isMirrored, hname]; rfl⟩

theorem Paired.spotOf_eq_none (h : start.Paired) (hij : start.pins.partner i = .ok (some j)) :
    start.spotOf i = none := by
  obtain ⟨p, hp, hmirrored⟩ := exists_of_partner hij
  rw [spotOf, hp]
  exact h.unplaced p (Array.mem_of_getElem? hp) hmirrored

theorem Paired.notMem (h : start.Paired) (hij : start.pins.partner i = .ok (some j))
    {g : PinGroup} (hg : g ∈ start.pins.groups) : i ∉ g.members := by
  intro hi
  obtain ⟨p, hp, hmirrored⟩ := exists_of_partner hij
  rw [h.unlisted g hg i hi p hp] at hmirrored
  cases hmirrored

theorem partner_unique {k l m : Nat} (hl : start.pins.partner k = .ok (some l))
    (hm : start.pins.partner k = .ok (some m)) : l = m := by
  rw [hl] at hm
  exact Option.some.inj (Except.ok.inj hm)

theorem Move.faces (hp : scope.Pairs reflect start i j) (hframe : Frame start b)
    (h : Faces reflect b i j) (hm : Move (some reflect) scope b cs) :
    Faces reflect (b.takeAll cs) i j := by
  have hopen := hm.isOpen
  by_cases hmem : i ∈ cs.map (·.pin) ∨ j ∈ cs.map (·.pin)
  · cases hm with
    | @single pin slot elig _ _ =>
      obtain ⟨hi, hj⟩ := hp.single pin elig
      simp [hi.symm, hj.symm] at hmem
    | @pair pin partner slot other s reflect' image elig given partnered admits _ partner_admits _
        slot_ne at_slot reflected at_image =>
      obtain rfl := Option.some.inj given
      rw [hframe.partner] at partnered
      have hback := hp.back i j hp.partner
      -- Pairs are mutual, so the move is about both pins, in one of two orders.
      rcases (by simpa [or_or_or_comm] using hmem : (i = pin ∨ j = pin) ∨ i = partner ∨ j = partner)
        with (rfl | rfl) | rfl | rfl
      · obtain rfl := partner_unique hp.partner partnered
        exact admits.faces partner_admits slot_ne hp.ne at_slot reflected at_image
      · obtain rfl := partner_unique hback partnered
        exact (admits.faces partner_admits slot_ne hp.ne.symm at_slot reflected at_image).symm
          (hp.undone elig)
      · obtain rfl := partner_unique hp.partner (hp.back _ _ partnered)
        exact (admits.faces partner_admits slot_ne hp.ne.symm at_slot reflected at_image).symm
          (hp.undone elig)
      · obtain rfl := partner_unique hback (hp.back _ _ partnered)
        exact admits.faces partner_admits slot_ne hp.ne at_slot reflected at_image
    | group entitled _ =>
      obtain ⟨hi, hj⟩ := hp.group _ entitled
      rcases hmem with hmem | hmem
      · exact absurd (mem_members_of_takeWhile hmem) hi
      · exact absurd (mem_members_of_takeWhile hmem) hj
  · obtain ⟨hi, hj⟩ := not_or.mp hmem
    exact hopen.faces h hi hj

theorem Moves.faces (hp : scope.Pairs reflect start i j) (hframe : Frame start b)
    (h : Faces reflect b i j) (hm : Moves (some reflect) scope b cs) :
    Faces reflect (b.takeAll cs) i j := by
  induction hm with
  | nil b => exact h
  | cons head _ ih =>
    rw [takeAll_append]
    exact ih (hframe.trans head.isOpen.frame) (head.faces hp hframe h)

end PinRing.Board
