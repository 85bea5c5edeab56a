import PinRing.Proofs.Placement.Accounts
import PinRing.Proofs.Placement.GroupBlocks

/-! The bill of a run.  The total cost and the warnings of a report are put together from many
matrices, built while the board was not yet as it is in the end.  They are nevertheless what the
final board is charged: once for each pin by itself, once for each mirror pair and once for each
group. -/

namespace PinRing

open Board

namespace Board

/-- What a pin is charged where it sits. -/
def pinCharge? (b : Board) (model : CostModel) (i : Nat) : Option Charge :=
  (b.spotOf i).bind fun s => b.chargeAt? model i s.pos

/-- The placed pins that are in no group and do not follow a partner. -/
def counted (b : Board) : List Nat :=
  (b.pins.indicesOf fun p => p.placed && !p.grouped).filter (!b.pins.follows ·)

/-- The group has members, and all of them have a place. -/
def isWhole (b : Board) (g : PinGroup) : Bool :=
  !g.members.isEmpty && g.members.all b.pins.isPlaced

def wholeGroups (b : Board) : List PinGroup := b.pins.groups.filter b.isWhole

/-- The lowest slot to which a member of the group was committed. -/
def blockStart? (b : Board) (g : PinGroup) : Option Nat :=
  ((b.journal.filter (·.pin ∈ g.members)).map (·.slot)).min?

/-- What a group is charged where it stands. -/
def groupCharge? (b : Board) (model : CostModel) (g : PinGroup) : Option Charge :=
  (b.blockStart? g).bind fun start => (b.boundary.posOf? start).bind (g.chargeAt? model)

/-- The charges for all that has a place. -/
def bill (b : Board) (model : CostModel) : List (Option Charge) :=
  b.counted.map (b.pinCharge? model) ++ b.wholeGroups.map (b.groupCharge? model)

/-- The groups without a place of the sections that still had a block to offer. -/
def unserved (b : Board) (seen : List (Section × Board)) : List PinGroup :=
  seen.flatMap fun v =>
    if v.1.hasCandidate v.2.boundary then v.1.groups.filter (!b.isWhole ·) else []

variable {b : Board} {i : Nat}

theorem isWhole_iff {g : PinGroup} :
    b.isWhole g ↔ g.members ≠ [] ∧ ∀ i ∈ g.members, b.pins.isPlaced i := by
  simp [isWhole]

theorem mem_counted : i ∈ b.counted ↔ b.pins.isPlaced i ∧
    (∃ p, b.pins.pins[i]? = some p ∧ p.grouped = false) ∧ b.pins.follows i = false := by
  rw [counted, List.mem_filter, PinTable.indicesOf, List.mem_filter, List.mem_range,
    PinTable.isPlaced]
  cases hp : b.pins.pins[i]? with
  | none => simp
  | some p =>
    have hlt : i < b.pins.size := (Array.getElem?_eq_some_iff.mp hp).1
    simp [hlt, and_assoc]

theorem counted_nodup (b : Board) : b.counted.Nodup :=
  (List.nodup_range.filter _).filter _

end Board

namespace Run.Settlement

variable {start after : Board} {model : CostModel} {cs : List Commit} {charges : List Charge}
variable {vs : List Visit} {i : Nat} {g : PinGroup} {s : GroupPass.Seat} {c : Commit}

/-- The groups on blocks, over all visits. -/
def seated (vs : List Visit) : List GroupPass.Seat := vs.flatMap (·.seats)

theorem commits_eq (vs : List Visit) :
    vs.flatMap Visit.commits = (seated vs).flatMap GroupPass.Seat.commits :=
  List.flatMap_assoc.symm

theorem charges_seated (vs : List Visit) :
    vs.flatMap Visit.charges = (seated vs).map GroupPass.Seat.charge :=
  List.map_flatMap.symm

theorem pins_seated (vs : List Visit) : (vs.flatMap Visit.commits).map (·.pin) =
    ((seated vs).map (·.group)).flatMap (·.members) := by
  rw [commits_eq, List.map_flatMap, List.flatMap_map]
  exact List.flatMap_congr fun s _ => map_pin_layout s.group s.edge s.start

section

variable (h : Settlement start model after cs charges vs)

include h

/-- The groups that were served are groups of the table. -/
theorem groups_perm : ((seated vs).map (·.group) ++ vs.flatMap (·.left)).Perm
    (vs.flatMap (·.sec.groups)) := by
  rw [seated, List.map_flatMap]
  refine (List.flatMap_append_perm ..).trans ?_
  exact List.Perm.flatMap_left vs fun v hv => (h.sound v hv).groups_perm

theorem mem_groups (hg : g ∈ (seated vs).map (·.group) ++ vs.flatMap (·.left)) :
    g ∈ start.pins.groups ∧ g.members ≠ [] := by
  have hmem := h.groups_perm.subset hg
  refine ⟨h.groups_subperm.subset hmem, ?_⟩
  obtain ⟨v, hv, hgv⟩ := List.mem_flatMap.mp hmem
  exact h.members_ne v hv g hgv

theorem mem_groups_of_seated (hs : s ∈ seated vs) :
    s.group ∈ start.pins.groups ∧ s.group.members ≠ [] :=
  h.mem_groups (List.mem_append_left _ (List.mem_map_of_mem hs))

theorem frame : Frame start after := by
  rw [h.after_eq]
  exact h.firsts.isOpen.frame.trans h.isOpen.frame

theorem isOpen_all : start.Open (cs ++ vs.flatMap Visit.commits) :=
  Open.append_iff.mpr ⟨h.firsts.isOpen, h.isOpen⟩

theorem after_eq_all : after = start.takeAll (cs ++ vs.flatMap Visit.commits) := by
  rw [takeAll_append, h.after_eq]

end

section

variable (h : Settlement start model after cs charges vs) (hd : start.pins.Declared)

include h hd

theorem groups_nodup : ((seated vs).map (·.group) ++ vs.flatMap (·.left)).Nodup := by
  refine nodup_of_members (fun g hg => (h.mem_groups hg).2) ?_
  obtain ⟨gs, hperm, hsub⟩ := h.groups_subperm
  have hmembers : (gs.flatMap (·.members)).Nodup := hd.members_nodup.sublist (hsub.flatMap _)
  exact ((hperm.trans h.groups_perm.symm).flatMap_right _).nodup_iff.mp hmembers

/-- A pin has a place in the end if a pass over pins or a group gave it one. -/
theorem isPlaced_iff : after.pins.isPlaced i ↔
    i ∈ cs.map (·.pin) ∨ ∃ s ∈ seated vs, i ∈ s.group.members := by
  rw [h.after_eq_all, h.isOpen_all.isPlaced, or_iff_right (hd.not_isPlaced i), List.map_append,
    List.mem_append, pins_seated, List.flatMap_map, List.mem_flatMap]

/-- A pin is in the block of one group at most. -/
theorem seat_eq {s' : GroupPass.Seat} (hs : s ∈ seated vs) (hs' : s' ∈ seated vs)
    (hi : i ∈ s.group.members) (hi' : i ∈ s'.group.members) : s = s' := by
  have hgroups : ((seated vs).map (·.group)).Nodup := (h.groups_nodup hd).of_append_left
  refine List.inj_on_of_nodup_map hgroups hs hs' ?_
  by_contra hne
  exact disjoint_members hd (h.mem_groups_of_seated hs).1 (h.mem_groups_of_seated hs').1 hne hi hi'

end

section

variable (h : Settlement start model after cs charges vs) (hd : start.pins.Declared)
  (hb : start.Paired)

include h hd hb

/-- Members of groups are grouped, so no pass over pins places them. -/
theorem notMem_members (hi : i ∈ cs.map (·.pin)) (hg : g ∈ start.pins.groups) :
    i ∉ g.members := by
  intro hmem
  obtain ⟨p, hp, hfree⟩ := (h.firsts.reached i hi).ungrouped hb
  obtain ⟨q, hq, hgrouped⟩ := hd.members_grouped g hg i hmem
  obtain rfl := Option.some.inj (hp.symm.trans hq)
  rw [hfree] at hgrouped
  cases hgrouped

/-! ### Pins -/

theorem counted_perm : after.counted.Perm ((start.led cs).map (·.pin)) := by
  have hnodup : ((start.led cs).map (·.pin)).Nodup :=
    h.firsts.pins_nodup.sublist (List.filter_sublist.map _)
  refine (List.perm_ext_iff_of_nodup after.counted_nodup hnodup).mpr fun i => ?_
  rw [mem_counted, mem_pins_led, h.isPlaced_iff hd, h.frame.follows]
  constructor
  · rintro ⟨hi | ⟨s, hs, hi⟩, ⟨p, hp, hfree⟩, hfirst⟩
    · exact ⟨hi, hfirst⟩
    · -- A member of a group is grouped, so it is not counted.
      obtain ⟨q, hq, hgrouped⟩ := hd.members_grouped _ (h.mem_groups_of_seated hs).1 i hi
      obtain ⟨p', hp', -, hsame⟩ := h.frame.pin hq
      obtain rfl := Option.some.inj (hp.symm.trans hp')
      rw [hsame, hgrouped] at hfree
      cases hfree
  · rintro ⟨hi, hfirst⟩
    obtain ⟨p, hp, hfree⟩ := (h.firsts.reached i hi).ungrouped hb
    obtain ⟨q, hq, -, hsame⟩ := h.frame.pin hp
    exact ⟨.inl hi, ⟨q, hq, hsame.trans hfree⟩, hfirst⟩

theorem pinCharge?_eq (hc : c ∈ cs) :
    after.pinCharge? model c.pin = start.commitCharge? model c := by
  -- The pass over groups does not move the pin any more.
  have hout : c.pin ∉ (vs.flatMap Visit.commits).map (·.pin) := by
    rw [pins_seated, List.flatMap_map, List.mem_flatMap]
    rintro ⟨s, hs, hi⟩
    exact h.notMem_members hd hb (List.mem_map_of_mem hc) (h.mem_groups_of_seated hs).1 hi
  rw [pinCharge?, h.frame.chargeAt?, h.after_eq, h.isOpen.spotOf_of_notMem hout,
    h.firsts.isOpen.spotOf_of_mem h.firsts.pins_nodup hc, commitCharge?, Boundary.posOf?,
    Option.bind_map, Option.bind_map]
  rfl

theorem pinCharges_perm : (after.counted.map (after.pinCharge? model)).Perm (charges.map some) := by
  refine ((h.counted_perm hd hb).map _).trans (.of_eq ?_)
  rw [h.charges_eq, List.map_map]
  refine List.map_congr_left fun c hc => ?_
  exact h.pinCharge?_eq hd hb (List.mem_of_mem_filter hc)

/-! ### Groups -/

theorem isWhole_iff (hg : g ∈ start.pins.groups) :
    after.isWhole g ↔ g ∈ (seated vs).map (·.group) := by
  rw [Board.isWhole_iff, List.mem_map]
  constructor
  · rintro ⟨hne, hplaced⟩
    obtain ⟨i, hi⟩ := List.exists_mem_of_ne_nil _ hne
    rcases (h.isPlaced_iff hd).mp (hplaced i hi) with hcs | ⟨s, hs, his⟩
    · exact absurd hi (h.notMem_members hd hb hcs hg)
    · refine ⟨s, hs, ?_⟩
      by_contra hother
      exact disjoint_members hd (h.mem_groups_of_seated hs).1 hg hother his hi
  · rintro ⟨s, hs, rfl⟩
    refine ⟨(h.mem_groups_of_seated hs).2, fun i hi => ?_⟩
    exact (h.isPlaced_iff hd).mpr (.inr ⟨s, hs, hi⟩)

theorem wholeGroups_perm : after.wholeGroups.Perm ((seated vs).map (·.group)) := by
  have hnodup : after.wholeGroups.Nodup := by
    refine nodup_of_members (fun g hg => (Board.isWhole_iff.mp (List.mem_filter.mp hg).2).1) ?_
    rw [wholeGroups, h.frame.groups]
    exact hd.members_nodup.sublist (List.filter_sublist.flatMap _)
  refine (List.perm_ext_iff_of_nodup hnodup (h.groups_nodup hd).of_append_left).mpr fun g => ?_
  rw [wholeGroups, List.mem_filter, h.frame.groups]
  constructor
  · rintro ⟨hg, hwhole⟩
    exact (h.isWhole_iff hd hb hg).mp hwhole
  · intro hg
    have hmem := (h.mem_groups (List.mem_append_left _ hg)).1
    exact ⟨hmem, (h.isWhole_iff hd hb hmem).mpr hg⟩

/-- The lowest slot of a group is the one its block starts at. -/
theorem blockStart?_eq (hempty : start.journal = []) (hs : s ∈ seated vs) :
    after.blockStart? s.group = some s.start := by
  obtain ⟨hmem, hne⟩ := h.mem_groups_of_seated hs
  have hjournal : after.journal = cs ++ (seated vs).flatMap GroupPass.Seat.commits := by
    rw [h.after_eq_all, h.isOpen_all.journal, hempty, List.nil_append, commits_eq]
  have hpin : ∀ t : GroupPass.Seat, ∀ c ∈ t.commits, c.pin ∈ t.group.members := fun t c hc =>
    map_pin_layout t.group t.edge t.start ▸ List.mem_map_of_mem hc
  rw [blockStart?, List.min?_eq_some_iff, hjournal]
  constructor
  · have hsize : 0 < s.group.size := List.length_pos_iff.mpr hne
    have hfirst : s.start ∈ s.commits.map (·.slot) :=
      (GroupPass.mem_slots_layout s.edge).mpr ⟨Nat.le_refl _, Nat.lt_add_of_pos_right hsize⟩
    obtain ⟨c, hc, hslot⟩ := List.mem_map.mp hfirst
    refine List.mem_map.mpr ⟨c, List.mem_filter.mpr ⟨?_, decide_eq_true (hpin s c hc)⟩, hslot⟩
    exact List.mem_append_right _ (List.mem_flatMap.mpr ⟨s, hs, hc⟩)
  · intro slot hslot
    obtain ⟨c, hc, rfl⟩ := List.mem_map.mp hslot
    obtain ⟨hc, hmember⟩ := List.mem_filter.mp hc
    rw [decide_eq_true_eq] at hmember
    rcases List.mem_append.mp hc with hc | hc
    · exact absurd hmember (h.notMem_members hd hb (List.mem_map_of_mem hc) hmem)
    · -- Its members have no commits but those of its own block.
      obtain ⟨t, ht, hct⟩ := List.mem_flatMap.mp hc
      obtain rfl := h.seat_eq hd hs ht hmember (hpin t c hct)
      exact ((GroupPass.mem_slots_layout s.edge).mp (List.mem_map_of_mem hct)).1

theorem groupCharge?_eq (hempty : start.journal = []) (hs : s ∈ seated vs) :
    after.groupCharge? model s.group = some s.charge := by
  obtain ⟨v, hv, hsv⟩ := List.mem_flatMap.mp hs
  obtain ⟨pos, hpos, hprice⟩ := (h.sound v hv).priced s hsv
  rw [groupCharge?, h.blockStart?_eq hd hb hempty hs, Option.bind_some, h.frame.posOf?, hpos,
    Option.bind_some, PinGroup.chargeAt?, hprice]
  rfl

theorem groupCharges_perm (hempty : start.journal = []) :
    (after.wholeGroups.map (after.groupCharge? model)).Perm
      ((vs.flatMap Visit.charges).map some) := by
  refine ((h.wholeGroups_perm hd hb).map _).trans (.of_eq ?_)
  rw [charges_seated, List.map_map, List.map_map]
  exact List.map_congr_left fun s hs => h.groupCharge?_eq hd hb hempty hs

/-- The groups that visits have left out are those without a place. -/
theorem unserved_perm : (vs.flatMap Visit.unserved).Perm
    (after.unserved (vs.map fun v => (v.sec, v.board))) := by
  rw [unserved, List.flatMap_map]
  refine List.Perm.flatMap_left vs fun v hv => ?_
  rw [Visit.unserved]
  split
  · have hseated : ∀ s ∈ v.seats, s ∈ seated vs := fun s hs => List.mem_flatMap.mpr ⟨v, hv, hs⟩
    have hserved : (v.seats.map (·.group)).filter (!after.isWhole ·) = [] := by
      refine List.filter_eq_nil_iff.mpr fun g hg => ?_
      obtain ⟨s, hs, rfl⟩ := List.mem_map.mp hg
      have hs := hseated s hs
      simp [(h.isWhole_iff hd hb (h.mem_groups_of_seated hs).1).mpr (List.mem_map_of_mem hs)]
    have hleft : v.left.filter (!after.isWhole ·) = v.left := by
      refine List.filter_eq_self.mpr fun g hg => ?_
      have hg : g ∈ vs.flatMap (·.left) := List.mem_flatMap.mpr ⟨v, hv, hg⟩
      have hmem := (h.mem_groups (List.mem_append_right _ hg)).1
      rw [Bool.not_eq_true', Bool.eq_false_iff, Ne, h.isWhole_iff hd hb hmem]
      exact fun hg' => (h.groups_nodup hd).disjoint hg' hg
    have hperm := (h.sound v hv).groups_perm.filter (!after.isWhole ·)
    rwa [List.filter_append, hserved, hleft, List.nil_append] at hperm
  · exact .refl _

/-! ### The bill -/

/-- The final board is charged what the passes have charged. -/
theorem exists_bill_eq (hempty : start.journal = []) :
    ∃ due : List Charge, after.bill model = due.map some ∧
      due.Perm (charges ++ vs.flatMap Visit.charges) := by
  have hperm : (after.bill model).Perm ((charges ++ vs.flatMap Visit.charges).map some) := by
    rw [bill, List.map_append]
    exact (h.pinCharges_perm hd hb).append (h.groupCharges_perm hd hb hempty)
  obtain ⟨due, hdue⟩ : after.bill model ∈ Set.range (List.map some) := by
    rw [Set.range_list_map]
    intro c hc
    obtain ⟨d, -, hd⟩ := List.mem_map.mp (hperm.subset hc)
    exact ⟨d, hd⟩
  refine ⟨due, hdue.symm, ?_⟩
  rwa [← hdue, List.map_perm_map_iff (Option.some_injective _)] at hperm

end

end Run.Settlement

/-- The accounts of a run.  If no pin of the loaded problem is in two mirror pairs and no grouped
pin is mirrored, then in a report that the run ends in

- the total cost is the sum of the feasible charges for the pins that are in no group, of mirrored
  pins those that come first, and for the groups, all at their places on the final board;
- there is one warning for each of these charges that is infeasible, one for each group without a
  place of a section that still had a block to offer, and no other;
- the unplaced pins are named in the order of the table. -/
theorem run_accounts {v : Value} {p : Problem} (hload : Problem.ofValue v = .ok p)
    (hpair : ∀ e ∈ p.board.pins.mirrors, ∀ f ∈ p.board.pins.mirrors,
      e.1 = f.1 ∨ e.1 = f.2 ∨ e.2 = f.1 ∨ e.2 = f.2 → f = e ∨ f = e.swap)
    (hgrouped : ∀ q ∈ p.board.pins.pins, q.grouped = true →
      p.board.pins.isMirrored q.name = false)
    (model : CostModel) (reflection : Option Reflection) (config : Config) {verdict : Verdict}
    (hverdict : (run p.board model reflection config).answer = .ok verdict) :
    let after := (run p.board model reflection config).state.1
    let seen := Run.groupVisits p.board model reflection config
    ∃ charges : List Charge, after.bill model = charges.map some ∧
      verdict.report.totalCost = Charge.total charges ∧
      verdict.report.warnings.Perm
        (Charge.warnings charges ++ (after.unserved seen).map GroupPass.leftOut) ∧
      verdict.report.unplaced = after.pins.unplaced := by
  intro after seen
  obtain ⟨hd, hempty⟩ := Problem.ofValue_board hload
  have hb := Paired.of_declared hd hpair hgrouped
  obtain ⟨cs, charges, vs, hsettled, hvisits, hreckoned⟩ := Run.run_settles hb hverdict
  obtain ⟨due, hbill, hdue⟩ := hsettled.exists_bill_eq hd hb hempty
  refine ⟨due, hbill, ?_, ?_, run_unplaced hverdict⟩
  · rw [hreckoned.totalCost_eq, Charge.total_perm hdue]
  · simp only [seen, hvisits]
    exact hreckoned.warnings_perm.trans ((Charge.warnings_perm hdue.symm).append
      ((hsettled.unserved_perm hd hb).map _))

/-- Five slots on the bottom and two on the top, with a mirror pair, a pin whose region holds no
slot, and two groups of two, for which one block is left. -/
def crowdedRing : Value :=
  let slot (x y : Int) : Value := .mapping [(.text "x", .int x), (.text "y", .int y)]
  let pin (name : String) : Value := .mapping [(.text "name", .text name)]
  .mapping
    [(.text "core", .mapping
        [(.text "xmin", .int 0), (.text "ymin", .int 0), (.text "xmax", .int 62),
          (.text "ymax", .int 24)]),
      (.text "slots", .list
        [slot 10 0, slot 20 0, slot 30 0, slot 40 0, slot 50 0, slot 30 24, slot 20 24]),
      (.text "pins", .list
        [.mapping [(.text "name", .text "tx"), (.text "mirror", .text "rx"),
            (.text "target", .list [.int 22, .int 3])],
          pin "rx",
          .mapping [(.text "name", .text "clk"),
            (.text "region", .list [.int 1, .int 1, .int 2, .int 2])],
          pin "d0", pin "d1", pin "e0", pin "e1"]),
      (.text "groups", .list
        [.mapping [(.text "name", .text "data"), (.text "pins", .list [.text "d0", .text "d1"])],
          .mapping
            [(.text "name", .text "extra"), (.text "pins", .list [.text "e0", .text "e1"])]])]

/-- What is read from `crowdedRing`. -/
def crowdedRingProblem : Problem where
  core := Core.outline { xmin := 0, ymin := 0, xmax := 62, ymax := 24 }
  board :=
    { boundary :=
        { slots := #[⟨⟨10, 0⟩, 0, .bottom, false, false⟩, ⟨⟨20, 0⟩, 0, .bottom, false, false⟩,
            ⟨⟨30, 0⟩, 0, .bottom, false, false⟩, ⟨⟨40, 0⟩, 0, .bottom, false, false⟩,
            ⟨⟨50, 0⟩, 0, .bottom, false, false⟩, ⟨⟨30, 24⟩, 0, .top, false, false⟩,
            ⟨⟨20, 24⟩, 0, .top, false, false⟩] }
      pins :=
        { pins := #[⟨"tx", none, false⟩, ⟨"rx", none, false⟩, ⟨"clk", none, false⟩,
            ⟨"d0", none, true⟩, ⟨"d1", none, true⟩, ⟨"e0", none, true⟩, ⟨"e1", none, true⟩]
          groups := [⟨[3, 4], false, "data"⟩, ⟨[5, 6], false, "extra"⟩]
          mirrors := [("tx", "rx"), ("rx", "tx")] } }
  targets := { targets := [(0, ⟨22, 3⟩)], regions := [(2, ⟨1, 1, 2, 2⟩)] }

/-- The mirror pair is charged once, for its first pin, the pin without a slot in its region is
warned about, and so is the group that finds the one block taken. -/
theorem run_accounts_crowdedRing :
    let p := crowdedRingProblem
    let config : Config := { usageFactor := { mantissa := 1, scale := 0 } }
    let ended := run p.board p.model (some p.core.reflection) config
    Problem.ofValue crowdedRing = .ok p ∧
      ended.state.1.bill p.model =
        [some ⟨"tx", .finite 5⟩, some ⟨"clk", .infeasible⟩, some ⟨"data", .finite 0⟩] ∧
      ∃ verdict, ended.answer = .ok verdict ∧ verdict.report.totalCost = 5 ∧
        verdict.report.warnings.Perm [⟨.warning, insufficientSpace "clk", "clk"⟩,
          GroupPass.leftOut ⟨[5, 6], false, "extra"⟩] ∧
        verdict.report.unplaced = ["e0", "e1"] := by
  intro p config ended
  have hload : Problem.ofValue crowdedRing = .ok p := by with_unfolding_all rfl
  have hbill : ended.state.1.bill p.model =
      [some ⟨"tx", .finite 5⟩, some ⟨"clk", .infeasible⟩, some ⟨"data", .finite 0⟩] := by
    decide +kernel
  have hunserved : ended.state.1.unserved
      (Run.groupVisits p.board p.model (some p.core.reflection) config) =
        [⟨[5, 6], false, "extra"⟩] := by decide +kernel
  have hok : ended.answer.toOption.isSome := by decide +kernel
  cases hended : ended.answer with
  | error f => rw [hended] at hok; cases hok
  | ok verdict =>
    obtain ⟨charges, hcharges, hcost, hwarnings, hunplaced⟩ :=
      run_accounts hload (by decide) (by decide) p.model (some p.core.reflection) config hended
    obtain rfl : charges = [⟨"tx", .finite 5⟩, ⟨"clk", .infeasible⟩, ⟨"data", .finite 0⟩] :=
      (Option.some_injective _).list_map (hcharges.symm.trans hbill)
    rw [hunserved] at hwarnings
    exact ⟨hload, hbill, verdict, rfl, hcost, hwarnings, hunplaced.trans (by decide +kernel)⟩

end PinRing
