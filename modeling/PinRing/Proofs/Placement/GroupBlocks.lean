import PinRing.Proofs.Board.Takes
import PinRing.Proofs.Placement.Completion
import PinRing.Proofs.Placement.WithinCapacity

/-! Groups that are matched and committed at once: which blocks they get, where their members sit,
and what is left of the section. -/

namespace PinRing

open Board

/-! ### Room -/

namespace Board

variable {b : Board} {c : Commit} {cs : List Commit} {first stop : Nat}

theorem Admits.free_take (h : b.Admits c) :
    (b.take c).boundary.free first stop = (b.boundary.free first stop).erase c.slot := by
  have hrange : (List.range' first (min stop b.boundary.size - first)).Nodup := List.nodup_range'
  rw [Boundary.free, h.frame.size_boundary, Boundary.free, (hrange.filter _).erase_eq_filter,
    List.filter_filter]
  refine List.filter_congr fun i _ => Bool.eq_iff_iff.mpr ?_
  rw [h.isAvailable_take, Bool.and_eq_true, bne_iff_ne, and_comm]

/-- Every commit inside a stretch of slots takes one away. -/
theorem Open.countFree (h : b.Open cs) (hin : ∀ c ∈ cs, first ≤ c.slot ∧ c.slot < stop) :
    (b.takeAll cs).boundary.countFree first stop + cs.length =
      b.boundary.countFree first stop := by
  induction cs generalizing b with
  | nil => rfl
  | cons c cs ih =>
    obtain ⟨hc, hcs⟩ := Open.cons_iff.mp h
    obtain ⟨⟨hfirst, hstop⟩, hrest⟩ := List.forall_mem_cons.mp hin
    have hmem : c.slot ∈ b.boundary.free first stop :=
      Boundary.mem_free.mpr ⟨hfirst, hstop, hc.free⟩
    have hone : (b.take c).boundary.countFree first stop =
        b.boundary.countFree first stop - 1 := by
      rw [Boundary.countFree, hc.free_take, List.length_erase_of_mem hmem, Boundary.countFree]
    have hpos : 0 < b.boundary.countFree first stop := List.length_pos_of_mem hmem
    rw [takeAll_cons, List.length_cons, ← Nat.add_assoc, ih hcs hrest, hone]
    omega

end Board

namespace GroupPass

variable {board : Board} {sec : Section} {matrix : CostMatrix} {assignment : Assignment}
variable {p : Progress} {g : PinGroup} {i start : Nat} {edge : Edge}

/-- The room of the section and the pins put on its slots add up to the room before the pass. -/
def Progress.Tallied (sec : Section) (p : Progress) : Prop :=
  p.sec.stop = sec.stop ∧
    p.sec.room + p.result.commits.countP (·.slot < sec.stop) = sec.room

theorem Progress.Tallied.commitMember (h : p.Tallied sec) (c : Commit) :
    (GroupPass.commitMember p c).state.Tallied sec := by
  refine Outcome.andThen_state (P := Progress.Tallied sec) h fun _ => ⟨h.1, ?_⟩
  have hroom := h.2
  simp only [Outcome.mapState, Outcome.done, h.1, List.countP_append, List.countP_singleton,
    decide_eq_true_eq]
  split <;> omega

theorem Progress.Tallied.placeGroup (h : p.Tallied sec) (column : PinGroup × Nat) :
    (GroupPass.placeGroup matrix assignment p column).state.Tallied sec := by
  obtain ⟨g, col⟩ := column
  rcases placeGroup_cases matrix assignment p g col with hsame | ⟨_, _, q, _, _, hsame, hstate⟩
  · rwa [Progress.Tallied, hsame.sec, hsame.commits]
  · have hq : q.Tallied sec := by rwa [Progress.Tallied, hsame.sec, hsame.commits]
    rw [hstate]
    exact Outcome.forEach_state (fun p c _ hp => hp.commitMember c) hq

/-- A pass takes off the room what it puts on slots of the section. -/
theorem run_room {blockSize : Int} {result : PassResult}
    (h : (run board sec matrix assignment blockSize).answer = .ok result) :
    (run board sec matrix assignment blockSize).state.2.room +
      result.commits.countP (·.slot < sec.stop) = sec.room := by
  unfold run at h ⊢
  split at h
  · rename_i hempty
    cases h
    simp [hempty, Outcome.done]
  · rename_i hempty
    have hdone : (Outcome.forEach (placeGroup matrix assignment) { board, sec }
        sec.groups.zipIdx).state.Tallied sec :=
      Outcome.forEach_state (fun p column _ hp => hp.placeGroup column) ⟨rfl, Int.add_zero _⟩
    rw [if_neg hempty]
    simp only at h ⊢
    split at h
    · cases h
    · cases h
      exact hdone.2

/-! ### Members on a block -/

theorem mem_layout_of_getElem? (edge : Edge) (start : Nat) {k pin : Nat}
    (hk : g.members[k]? = some pin) :
    ⟨pin, start + (if g.ordered ∧ (edge = .top ∨ edge = .left) then g.size - 1 - k else k),
      .group⟩ ∈ layout g edge start := by
  refine List.mem_map.mpr ⟨(pin, k), List.mk_mem_zipIdx_iff_getElem?.mpr hk, ?_⟩
  simp [runsBackward]

/-- A group takes the first slots of its block, one for each member. -/
theorem mem_slots_layout (edge : Edge) :
    i ∈ (layout g edge start).map (·.slot) ↔ start ≤ i ∧ i < start + g.size := by
  constructor
  · intro hi
    obtain ⟨c, hc, rfl⟩ := List.mem_map.mp hi
    obtain ⟨-, k, hk, hslot⟩ := mem_layout hc
    omega
  · rintro ⟨hle, hlt⟩
    have hmember : ∀ k < g.size, ∃ pin, g.members[k]? = some pin := fun k hk =>
      ⟨_, List.getElem?_eq_getElem hk⟩
    by_cases hback : g.ordered ∧ (edge = .top ∨ edge = .left)
    · obtain ⟨pin, hpin⟩ := hmember (g.size - 1 - (i - start)) (by omega)
      have hmem := mem_layout_of_getElem? edge start hpin
      rw [if_pos hback] at hmem
      refine List.mem_map.mpr ⟨_, hmem, ?_⟩
      simp only
      omega
    · obtain ⟨pin, hpin⟩ := hmember (i - start) (by omega)
      have hmem := mem_layout_of_getElem? edge start hpin
      rw [if_neg hback] at hmem
      refine List.mem_map.mpr ⟨_, hmem, ?_⟩
      simp only
      omega

theorem mem_blockCommits {blocks : List (Nat × Nat)} {c : Commit} :
    c ∈ blockCommits sec blocks ↔
      ∃ b ∈ blocks, ∃ g, sec.groups[b.1]? = some g ∧ c ∈ layout g sec.edge b.2 := by
  rw [blockCommits, List.mem_flatMap]
  refine exists_congr fun b => and_congr_right fun _ => ?_
  cases sec.groups[b.1]? <;> simp

theorem origin_of_mem_blockCommits {blocks : List (Nat × Nat)} {c : Commit}
    (hc : c ∈ blockCommits sec blocks) : c.origin = .group := by
  obtain ⟨_, -, g, -, hc⟩ := mem_blockCommits.mp hc
  exact (mem_layout hc).1

theorem mem_slots_blockCommits {blocks : List (Nat × Nat)} :
    i ∈ (blockCommits sec blocks).map (·.slot) ↔
      ∃ b ∈ blocks, ∃ g, sec.groups[b.1]? = some g ∧ b.2 ≤ i ∧ i < b.2 + g.size := by
  simp only [← mem_slots_layout sec.edge, List.mem_map, mem_blockCommits]
  constructor
  · rintro ⟨c, ⟨b, hb, g, hg, hc⟩, hi⟩
    exact ⟨b, hb, g, hg, c, hc, hi⟩
  · rintro ⟨b, hb, g, hg, c, hc, hi⟩
    exact ⟨c, ⟨b, hb, g, hg, hc⟩, hi⟩

/-- Members of one group are not members of another. -/
theorem eq_of_mem_members (hmembers : (sec.groups.flatMap (·.members)).Nodup) {j k : Nat}
    {h : PinGroup} (hg : sec.groups[j]? = some g) (hh : sec.groups[k]? = some h)
    (hi : i ∈ g.members) (hi' : i ∈ h.members) : j = k := by
  have hapart := List.pairwise_iff_getElem.mp (List.nodup_flatMap.mp hmembers).2
  obtain ⟨hlt, rfl⟩ := List.getElem?_eq_some_iff.mp hg
  obtain ⟨hlt', rfl⟩ := List.getElem?_eq_some_iff.mp hh
  by_contra hne
  rcases Nat.lt_or_gt_of_ne hne with hlt'' | hlt''
  · exact hapart _ _ hlt hlt' hlt'' hi hi'
  · exact hapart _ _ hlt' hlt hlt'' hi' hi

theorem nodup_pins_blockCommits {blocks : List (Nat × Nat)}
    (hmembers : (sec.groups.flatMap (·.members)).Nodup) (hblocks : (blocks.map Prod.fst).Nodup) :
    ((blockCommits sec blocks).map (·.pin)).Nodup := by
  have hpins : ∀ b : Nat × Nat, ((sec.groups[b.1]?).elim [] fun g =>
      layout g sec.edge b.2).map (·.pin) = (sec.groups[b.1]?).elim [] (·.members) := by
    intro b
    cases sec.groups[b.1]? with
    | none => rfl
    | some g => exact map_pin_layout g sec.edge b.2
  simp only [blockCommits, List.map_flatMap, hpins]
  rw [List.nodup_flatMap]
  constructor
  · intro b _
    cases hg : sec.groups[b.1]? with
    | none => exact .nil
    | some g => exact (List.nodup_flatMap.mp hmembers).1 g (List.mem_of_getElem? hg)
  · refine (List.pairwise_map.mp hblocks).imp fun {b c} hne i hi hi' => hne ?_
    obtain ⟨g, hg, hi⟩ : ∃ g, sec.groups[b.1]? = some g ∧ i ∈ g.members := by
      cases hg : sec.groups[b.1]? <;> simp_all
    obtain ⟨h, hh, hi'⟩ : ∃ h, sec.groups[c.1]? = some h ∧ i ∈ h.members := by
      cases hh : sec.groups[c.1]? <;> simp_all
    exact eq_of_mem_members hmembers hg hh hi hi'

end GroupPass

theorem Section.mem_openBlocks_iff {s : Section} {b : Boundary} {size start : Nat} :
    start ∈ s.openBlocks b size ↔ 0 < size ∧ (∃ j, start = s.first + j * size) ∧
      start + size ≤ s.stop ∧ ∀ k < size, b.isAvailable (start + k) := by
  rw [mem_openBlocks]
  constructor
  · rintro ⟨hstart, hfree⟩
    obtain ⟨hpos, -, hstop⟩ := blockStarts_bounds hstart
    obtain ⟨j, -, rfl⟩ := List.mem_map.mp hstart
    exact ⟨hpos, ⟨j, rfl⟩, hstop, hfree⟩
  · rintro ⟨hpos, ⟨j, rfl⟩, hstop, hfree⟩
    refine ⟨List.mem_map.mpr ⟨j, List.mem_range.mpr ?_, rfl⟩, hfree⟩
    rw [Nat.lt_iff_add_one_le, Nat.le_div_iff_mul_le hpos, Nat.succ_mul]
    omega

/-- `after` is `before` with groups of the section on blocks of slots: as many groups as there are
groups and available blocks, each in order on a block of its own, and nothing else has changed.  The
placed groups are listed by position, with the starts of their blocks. -/
structure Section.Laid (sec : Section) (before after : Board) (starts : List Nat)
    (blocks : List (Nat × Nat)) : Prop where
  mem_starts : ∀ start, start ∈ starts ↔ 0 < sec.blockSize ∧
    (∃ j, start = sec.first + j * sec.blockSize) ∧ start + sec.blockSize ≤ sec.stop ∧
      ∀ k < sec.blockSize, before.boundary.isAvailable (start + k)
  starts_nodup : starts.Nodup
  placement : Placement (List.range sec.groups.length) starts blocks
  length_eq : blocks.length = min starts.length sec.groups.length
  apart : blocks.Pairwise fun b c =>
    ∀ j < sec.blockSize, ∀ k < sec.blockSize, b.2 + j ≠ c.2 + k
  seated : ∀ b ∈ blocks, ∀ g, sec.groups[b.1]? = some g →
    ∀ (k pin : Nat), g.members[k]? = some pin → ∃ p s, before.pins.pins[pin]? = some p ∧
      before.boundary.slots[b.2 + if g.ordered ∧ (sec.edge = .top ∨ sec.edge = .left)
        then g.size - 1 - k else k]? = some s ∧
      after.pins.pins[pin]? = some { p with spot := some ⟨s.pos, s.layer⟩ }
  others : ∀ i : Nat, (∀ b ∈ blocks, ∀ g, sec.groups[b.1]? = some g → i ∉ g.members) →
    after.pins.pins[i]? = before.pins.pins[i]?
  taken : ∀ b ∈ blocks, ∀ g, sec.groups[b.1]? = some g → ∀ k < g.size,
    after.boundary.slots[b.2 + k]? =
      (before.boundary.slots[b.2 + k]?).map fun s => { s with used := true, blocked := true }
  untouched : ∀ i : Nat,
    (∀ b ∈ blocks, ∀ g, sec.groups[b.1]? = some g → ∀ k < g.size, b.2 + k ≠ i) →
    after.boundary.slots[i]? = before.boundary.slots[i]?
  groups : after.pins.groups = before.pins.groups
  mirrors : after.pins.mirrors = before.pins.mirrors

theorem Section.Laid.of_noGroups {sec : Section} (h : sec.groups = []) (board : Board) :
    sec.Laid board board [] [] := by
  have hsize : sec.blockSize = 0 := by rw [blockSize, h]; rfl
  constructor
  · intro start
    rw [hsize]
    exact iff_of_false List.not_mem_nil fun hpos => Nat.lt_irrefl 0 hpos.1
  · exact .nil
  · exact ⟨.nil, .nil, List.forall_mem_nil _, List.forall_mem_nil _⟩
  · exact (Nat.zero_min _).symm
  · exact .nil
  · exact List.forall_mem_nil _
  · exact fun _ _ => rfl
  · exact List.forall_mem_nil _
  · exact fun _ _ => rfl
  · rfl
  · rfl

namespace Matching

variable {m : Matching} {board : Board} {a : Assignment}

/-- Different groups have their blocks apart. -/
theorem Solves.blocks_apart (h : m.Solves board a) : (m.blocks board a).Pairwise fun b c =>
    ∀ j < m.blockSize, ∀ k < m.blockSize, b.2 + j ≠ c.2 + k := by
  refine (List.pairwise_map.mp h.placement.slots_nodup).imp_of_mem fun {b c} hb hc hne => ?_
  obtain ⟨row, hrow⟩ := List.mem_iff_getElem?.mp (h.mem_starts hb)
  obtain ⟨other, hother⟩ := List.mem_iff_getElem?.mp (h.mem_starts hc)
  have hrows : row ≠ other := by
    rintro rfl
    exact hne (Option.some.inj (hrow.symm.trans hother))
  intro j hj k hk
  exact (Section.openBlocks_apart m.sec board.boundary m.blockSize).disjoint hrows hrow hother hj hk

theorem Solves.laid (h : m.Solves board a) (hw : m.Within board)
    (hmembers : (m.sec.groups.flatMap (·.members)).Nodup)
    (hopen : board.Open (GroupPass.blockCommits m.sec (m.blocks board a))) :
    m.sec.Laid board (board.takeAll (GroupPass.blockCommits m.sec (m.blocks board a)))
      (m.starts board) (m.blocks board a) := by
  have htakes := hopen.takes (fun _ => GroupPass.origin_of_mem_blockCommits)
    (GroupPass.nodup_pins_blockCommits hmembers h.placement.pins_nodup)
  constructor
  · intro start
    rw [← hw.blockSize_eq]
    exact Section.mem_openBlocks_iff
  · exact m.starts_nodup board
  · exact h.placement
  · rw [h.length_blocks, Nat.min_comm]
  · rw [← hw.blockSize_eq]
    exact h.blocks_apart
  · intro b hb g hg k pin hpin
    exact htakes.seated _ (GroupPass.mem_blockCommits.mpr
      ⟨b, hb, g, hg, GroupPass.mem_layout_of_getElem? _ _ hpin⟩)
  · intro i hi
    refine htakes.others i fun hmem => ?_
    obtain ⟨c, hc, rfl⟩ := List.mem_map.mp hmem
    obtain ⟨b, hb, g, hg, hc⟩ := GroupPass.mem_blockCommits.mp hc
    exact hi b hb g hg (map_pin_layout g m.sec.edge b.2 ▸ List.mem_map_of_mem hc)
  · intro b hb g hg k hk
    have hin := GroupPass.mem_slots_blockCommits.mpr ⟨b, hb, g, hg, Nat.le_add_right b.2 k,
      Nat.add_lt_add_left hk b.2⟩
    rw [htakes.slots]
    simp only [hin, if_true, Slot.taken, decide_true, Bool.or_true]
  · intro i hi
    rw [htakes.slots]
    have hout : i ∉ (GroupPass.blockCommits m.sec (m.blocks board a)).map (·.slot) := by
      intro hmem
      obtain ⟨b, hb, g, hg, hle, hlt⟩ := GroupPass.mem_slots_blockCommits.mp hmem
      exact hi b hb g hg (i - b.2) (by omega) (by omega)
    simp only [hout, if_false, Option.map_id']
  · exact htakes.groups
  · exact htakes.mirrors

/-- A pass whose commits are open and stay inside the section takes each of them off its room. -/
theorem commitGroups_room (m : Matching) {result : PassResult} {room : Int}
    (hpass : (GroupPass.run board m.sec m.matrix m.assignment m.blockSize).answer = .ok result)
    (hrun : (GroupPass.run board m.sec m.matrix m.assignment m.blockSize).state =
      (board.takeAll result.commits, { m.sec with room }))
    (hopen : board.Open result.commits) (hin : ∀ c ∈ result.commits, m.sec.Has c.slot) :
    let committed := m.commitGroups board
    committed.answer = .ok result ∧ committed.state.2 = board.takeAll result.commits ∧
      committed.state.1.sec = { m.sec with room := m.sec.room - result.commits.length } ∧
      (m.sec.room = board.boundary.countFree m.sec.first m.sec.stop →
        committed.state.1.sec.room =
          committed.state.2.boundary.countFree m.sec.first m.sec.stop) := by
  intro committed
  obtain ⟨hanswer, hend⟩ := commitGroups_of_ok hpass
  have htally := GroupPass.run_room hpass
  have hall : result.commits.countP (·.slot < m.sec.stop) = result.commits.length :=
    List.countP_eq_length.mpr fun c hc => by simpa using (hin c hc).2
  rw [hrun, hall] at htally
  obtain rfl : room = m.sec.room - result.commits.length := by
    simp only at htally
    omega
  have hfree := hopen.countFree hin
  rw [hrun] at hend
  simp only [committed, hend]
  exact ⟨hanswer, trivial, trivial, fun hroom => by omega⟩

/-- The groups of a section on the boundary, matched and committed at once.  As many of them as
there are available blocks get one, each whole and in order, at the size of the largest group, and
the room of the section is the number of its available slots if it was before. -/
theorem commitGroups_lays {sec : Section} {model : CostModel}
    (hstop : sec.stop ≤ board.boundary.size)
    (hmembers : (sec.groups.flatMap (·.members)).Nodup)
    (hpins : ∀ g ∈ sec.groups, ∀ i ∈ g.members, i < board.pins.size) (hmodel : model.Total)
    (reflection : Option Reflection) (strict : Bool) :
    let found := (ofSection sec model reflection strict).findGroups board
    let committed := found.state.commitGroups board
    let after := committed.state.2
    found.answer = .ok () ∧
      (∀ g ∈ sec.groups, g.size ≤ sec.blockSize) ∧
      (sec.groups ≠ [] → ∃ g ∈ sec.groups, g.size = sec.blockSize) ∧
      ∃ starts blocks result,
        sec.candidateStarts board.boundary sec.blockSize = .ok starts ∧
        sec.Laid board after starts blocks ∧ committed.answer = .ok result ∧
        after.journal = board.journal ++ result.commits ∧
        committed.state.1.sec = { sec with room := sec.room - result.commits.length } ∧
        (sec.room = board.boundary.countFree sec.first sec.stop →
          committed.state.1.sec.room = after.boundary.countFree sec.first sec.stop) := by
  intro found committed after
  let m := ofSection sec model reflection strict
  by_cases hne : sec.groups = []
  · obtain ⟨hstarts, hfound, hstate⟩ := findGroups_of_noGroups (m := m) hne rfl board
    have hmatrix : found.state = { m with matrix := { blockSize := 0 }, assignment := [] } := hstate
    obtain ⟨hanswer, hafter, hsec, hroom⟩ :=
      commitGroups_room { m with matrix := { blockSize := 0 }, assignment := [] } rfl rfl
        (.nil board) nofun
    simp only [after, committed, hmatrix, hafter]
    refine ⟨hfound, fun g => Section.size_le_blockSize, Section.exists_blockSize, [], [], {},
      hstarts, .of_noGroups hne board, hanswer, ?_, hsec, fun h => hafter ▸ hroom h⟩
    exact (List.append_nil _).symm
  · have hw : m.Within board := ⟨hstop, hpins, rfl⟩
    have hstarts := Section.candidateStarts_eq sec.blockSize hstop
    obtain ⟨-, a, ha, hfound, hstate⟩ := exists_findGroups (m := m) hmodel hne hstarts
    obtain ⟨result, room, hpass, hcommits, hopen, hrun⟩ :=
      ha.run hw hne fun start _ pos _ g _ => hmodel.groupCost g.members pos
    have hlaid := ha.laid hw hmembers hopen
    have hin := fun c => ha.has_of_mem hw (c := c)
    rw [← hcommits] at hopen hrun hlaid hin
    obtain ⟨hanswer, hafter, hsec, hroom⟩ := commitGroups_room
      { m with
        matrix := sec.groupsOn board.boundary model sec.blockSize (m.starts board)
        assignment := a } hpass hrun hopen hin
    have hmatrix : found.state = { m with
        matrix := sec.groupsOn board.boundary model sec.blockSize (m.starts board)
        assignment := a } := hstate
    simp only [after, committed, hmatrix, hafter]
    exact ⟨hfound, fun g => Section.size_le_blockSize, Section.exists_blockSize, m.starts board,
      m.blocks board a, result, hstarts, hlaid, hanswer, hopen.journal, hsec,
      fun h => hafter ▸ hroom h⟩

/-- Five slots on the top edge with an ordered group of two pins and a group of one. -/
def twoOnTop : Section × Board :=
  let slot (x : Int) : Slot := { pos := ⟨x, 90⟩, layer := 1, edge := .top }
  let bus : PinGroup := { members := [0, 1], ordered := true, name := "bus" }
  let clock : PinGroup := { members := [2], name := "clock" }
  ({ first := 0, stop := 5, edge := .top, room := 5, groups := [bus, clock] },
    { boundary := { slots := #[slot 10, slot 20, slot 30, slot 40, slot 50] }
      pins :=
        { pins := #[{ name := "a", grouped := true }, { name := "b", grouped := true },
            { name := "c", grouped := true }]
          groups := [bus, clock] } })

theorem commitGroups_lays_twoOnTop :
    let sec := twoOnTop.1
    let board := twoOnTop.2
    let model : CostModel := fun _ p => .ok (.finite p.x)
    let found := (ofSection sec model none true).findGroups board
    let committed := found.state.commitGroups board
    sec.stop ≤ board.boundary.size ∧ (sec.groups.flatMap (·.members)).Nodup ∧
      (∀ g ∈ sec.groups, ∀ i ∈ g.members, i < board.pins.size) ∧ model.Total ∧
      (∃ blocks, sec.Laid board committed.state.2 [0, 2] blocks ∧ blocks.length = 2) ∧
      committed.state.1.sec.room = 2 := by
  intro sec board model found committed
  have hstop : sec.stop ≤ board.boundary.size := by decide
  have hmembers : (sec.groups.flatMap (·.members)).Nodup := by decide
  have hpins : ∀ g ∈ sec.groups, ∀ i ∈ g.members, i < board.pins.size := by decide
  have hmodel : model.Total := fun _ p => ⟨.finite p.x, rfl⟩
  obtain ⟨-, -, -, starts, blocks, result, hstarts, hlaid, -, -, -, hroom⟩ :=
    commitGroups_lays hstop hmembers hpins hmodel none true
  obtain rfl : starts = [0, 2] := Except.ok.inj (hstarts.symm.trans (by decide +kernel))
  exact ⟨hstop, hmembers, hpins, hmodel, ⟨blocks, hlaid, hlaid.length_eq⟩,
    (hroom (by decide +kernel)).trans (by decide +kernel)⟩

end Matching

end PinRing
