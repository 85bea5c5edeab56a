import Mathlib.Algebra.Group.Action.Defs
import PinRing.Proofs.Number.Fraction
import PinRing.Proofs.Placement.Capacity
import PinRing.Proofs.Placement.MirrorCompletion
import PinRing.Proofs.Placement.ReservationRun

/-! Runs within capacity.  Without mirror pairs and with groups of one size, every section has a
slot for each of its pins beside those held back for its groups, so its regular pass places all of
them. -/

namespace PinRing

open Board

/-! ### Reserved slots -/

theorem Section.exists_blockSize {s : Section} (h : s.groups ≠ []) :
    ∃ g ∈ s.groups, g.size = s.blockSize := by
  have hfold : ∀ (sizes : List Nat) (n : Nat),
      sizes.foldl max n = n ∨ sizes.foldl max n ∈ sizes := by
    intro sizes
    induction sizes with
    | nil => exact fun n => .inl rfl
    | cons size sizes ih =>
      intro n
      rw [List.foldl_cons]
      rcases ih (max n size) with heq | hmem
      · rcases Nat.le_total n size with hle | hle
        · exact .inr (by rw [heq, Nat.max_eq_right hle]; exact List.mem_cons_self)
        · exact .inl (by rw [heq, Nat.max_eq_left hle])
      · exact .inr (List.mem_cons_of_mem _ hmem)
  rcases hfold (s.groups.map PinGroup.size) 0 with hzero | hmem
  · obtain ⟨g, hg⟩ := List.exists_mem_of_ne_nil _ h
    have := Section.size_le_blockSize hg
    rw [Section.blockSize, hzero] at this ⊢
    exact ⟨g, hg, by omega⟩
  · obtain ⟨g, hg, heq⟩ := List.mem_map.mp hmem
    exact ⟨g, hg, heq⟩

namespace Matching

variable {m : Matching} {board before now : Board} {a : Assignment}

theorem length_blockSlots (rowSlots : List Nat) (size : Nat) (a : Assignment) :
    (blockSlots rowSlots size a).length ≤ a.columns.length * size := by
  induction rowSlots generalizing a with
  | nil => simp [blockSlots]
  | cons start rest ih =>
    cases a with
    | nil => simp [blockSlots]
    | cons entry a =>
      have hrest := ih a
      cases entry with
      | none => exact hrest
      | some col =>
        have hslots : blockSlots (start :: rest) size (some col :: a) =
            List.range' start size ++ blockSlots rest size a := rfl
        have hcolumns : Assignment.columns (some col :: a) = col :: Assignment.columns a := rfl
        rw [hslots, hcolumns, List.length_append, List.length_range', List.length_cons,
          Nat.add_mul, Nat.one_mul]
        omega

/-- No more slots are held back than the groups of the section need if each takes a whole block. -/
theorem Reserved.length_le (h : m.Reserved board a) :
    m.reserved.length ≤ m.sec.groups.length * m.blockSize := by
  have hcolumns := h.solves.complete.columns_length
  rw [List.length_range] at hcolumns
  rw [h.reserved_eq]
  refine (length_blockSlots _ _ _).trans (Nat.mul_le_mul_right _ ?_)
  omega

/-- At most the reserved slots are missing among the open ones. -/
theorem countFree_le_openSlots (m : Matching) (board : Board) :
    board.boundary.countFree m.sec.first m.sec.stop ≤
      (m.openSlots board).length + m.reserved.length := by
  let free := board.boundary.free m.sec.first m.sec.stop
  have hsplit := List.length_eq_length_filter_add (l := free) (m.reserved.contains ·)
  have hnodup : (free.filter (m.reserved.contains ·)).Nodup := by
    have hrange : (List.range' m.sec.first
      (min m.sec.stop board.boundary.size - m.sec.first)).Nodup := List.nodup_range'
    exact (hrange.filter _).filter _
  have hsub : free.filter (m.reserved.contains ·) ⊆ m.reserved := fun i hi =>
    List.contains_iff_mem.mp (List.mem_filter.mp hi).2
  have hle := (hnodup.subperm hsub).length_le
  change free.length ≤ (free.filter (!m.reserved.contains ·)).length + _
  omega

/-! ### Sections with room for all their pins -/

/-- The section can be placed, its pins are in no group and not mirrored, and it has an open slot
for each. -/
structure Roomy (m : Matching) (board : Board) : Prop where
  placeable : m.Placeable board
  plain : ∀ i ∈ m.sec.pins, ∃ q, board.pins.pins[i]? = some q ∧ q.grouped = false ∧
    board.pins.isMirrored q.name = false
  room : m.sec.pins.length ≤ (m.openSlots board).length

theorem Roomy.later (h : m.Roomy before) (hframe : Frame before now)
    (hsame : ∀ i, m.sec.Has i →
      now.boundary.isAvailable i = before.boundary.isAvailable i) : m.Roomy now where
  placeable := h.placeable.frame hframe
  plain := by
    intro i hi
    obtain ⟨q, hq, hfree, hplain⟩ := h.plain i hi
    obtain ⟨q', hq', hname, hgrouped⟩ := hframe.pin hq
    refine ⟨q', hq', hgrouped.trans hfree, ?_⟩
    rwa [PinTable.isMirrored, hframe.mirrors, hname]
  room := by
    rw [openSlots_congr hframe.size_boundary hsame]
    exact h.room

/-- The section can be placed and has room for all its pins and groups; its pins are in no group and
not mirrored, its groups fill their blocks, and nothing is held back. -/
structure Ample (m : Matching) (board : Board) : Prop where
  placeable : m.Placeable board
  plain : ∀ i ∈ m.sec.pins, ∃ q, board.pins.pins[i]? = some q ∧ q.grouped = false ∧
    board.pins.isMirrored q.name = false
  room : m.sec.demand ≤ board.boundary.countFree m.sec.first m.sec.stop
  full : ∀ g ∈ m.sec.groups, g.size = m.blockSize
  reserved_eq : m.reserved = []

theorem Ample.roomy (h : m.Ample board) : m.Roomy board where
  placeable := h.placeable
  plain := h.plain
  room := by
    have hall := m.countFree_le_openSlots board
    have := h.room
    rw [Section.demand] at this
    rw [h.reserved_eq, List.length_nil] at hall
    omega

/-- Where blocks are held back for the groups, there is a slot left for each pin. -/
theorem Ample.roomy_of_reserved (h : m.Ample board) {reserved : List Nat}
    (hreserved : Reserved { m with reserved } board a) : Roomy { m with reserved } board where
  placeable := h.placeable.worked m.matrix m.assignment reserved
  plain := h.plain
  room := by
    have hall := countFree_le_openSlots { m with reserved } board
    have hsum : (m.sec.groups.map PinGroup.size).sum = m.sec.groups.length * m.blockSize := by
      have hsame : ∀ n ∈ m.sec.groups.map PinGroup.size, n = m.blockSize :=
        List.forall_mem_map.mpr h.full
      have hsum := List.sum_eq_card_nsmul _ _ hsame
      rwa [List.length_map, smul_eq_mul] at hsum
    have hheld := hreserved.length_le
    have := h.room
    rw [Section.demand, hsum] at this
    simp only at hall hheld ⊢
    omega

end Matching

namespace Run

variable {m : Matching} {w : Work} {ms : List Matching}

/-- In a section with room enough every pin gets a place. -/
theorem regularStep_places (hm : m.Roomy w.board) :
    (pinStep false m w).answer = .ok () ∧
      ∀ i ∈ m.sec.pins, (pinStep false m w).state.2.board.pins.isPlaced i := by
  have hplaceable := hm.placeable
  obtain ⟨hfound, ps, hfills, -⟩ := Matching.commitPins_fills hplaceable.pins_nodup
    hplaceable.pins_lt fun pin _ slot _ s hs => hplaceable.pinPrice_eq pin hs
  obtain ⟨result, hpass, -⟩ := hfills.answer
  obtain ⟨hanswer, hstate⟩ := pinStep_of_ok hfound hpass
  refine ⟨hanswer, fun i hi => ?_⟩
  have hafter : (pinStep false m w).state.2.board =
      ((m.findPins w.board false).state.commitPins w.board false).state := by
    rw [hstate]
    rfl
  rw [hafter]
  -- As many pins are placed as are open, so all that are open are placed.
  have hopenPins : (m.openPins w.board).length ≤ m.sec.pins.length := List.length_filter_le _ _
  have hlength : (m.openPins w.board).length ≤ (ps.map Prod.fst).length := by
    have := hm.room
    rw [List.length_map, hfills.length_eq]
    omega
  have hsub : ps.map Prod.fst ⊆ m.openPins w.board := by
    intro j hj
    obtain ⟨p, hp, rfl⟩ := List.mem_map.mp hj
    exact hfills.placement.pin_mem p hp
  have hperm := (hfills.placement.pins_nodup.subperm hsub).perm_of_length_le hlength
  by_cases hmem : i ∈ ps.map Prod.fst
  · obtain ⟨p, hp, rfl⟩ := List.mem_map.mp hmem
    obtain ⟨pin, s, -, -, hseated⟩ := hfills.receives.seated p hp
    simp [PinTable.isPlaced, hseated, Pin.placed]
  · obtain ⟨q, hq, hfree, hplain⟩ := hm.plain i hi
    have hplaced : q.placed = true := by
      by_contra hnot
      refine hmem (hperm.symm.subset (List.mem_filter.mpr ⟨hi, ?_⟩))
      simpa [hq, hfree, hplain] using hnot
    simp [PinTable.isPlaced, hfills.receives.others i hmem, hq, hplaced]

/-- The regular pass over sections with room enough places every pin of each. -/
theorem regularSweep_places (hroomy : ∀ m ∈ ms, m.Roomy w.board)
    (hdisjoint : ms.Pairwise Matching.Disjoint) :
    let swept := sweep (pinStep false) ms w
    swept.answer = .ok () ∧
      (∀ i, w.board.pins.isPlaced i → swept.state.2.board.pins.isPlaced i) ∧
      ∀ m ∈ ms, ∀ i ∈ m.sec.pins, swept.state.2.board.pins.isPlaced i := by
  induction ms generalizing w with
  | nil => exact ⟨rfl, fun _ hi => hi, fun _ hm => nomatch hm⟩
  | cons m rest ih =>
    obtain ⟨hm, hrest⟩ := List.forall_mem_cons.mp hroomy
    obtain ⟨hout, hdisjoint⟩ := List.pairwise_cons.mp hdisjoint
    obtain ⟨hanswer, hplaces⟩ := regularStep_places hm
    obtain ⟨-, cs, hopen, hboard, hslots⟩ := pinStep_opens hanswer
    have hrest' : ∀ n ∈ rest, n.Roomy (pinStep false m w).state.2.board := by
      intro n hn
      rw [hboard]
      refine (hrest n hn).later hopen.frame fun i hi => Bool.eq_iff_iff.mpr ?_
      rw [hopen.isAvailable]
      refine and_iff_left fun hmem => ?_
      obtain ⟨c, hc, rfl⟩ := List.mem_map.mp hmem
      exact hout n hn c.slot (hslots rfl c hc).1 hi
    have hkeeps : ∀ i, w.board.pins.isPlaced i →
        (pinStep false m w).state.2.board.pins.isPlaced i := by
      intro i hi
      rw [hboard]
      exact (hopen.isPlaced i).mpr (.inl hi)
    obtain ⟨hok, hkept, hall⟩ := ih hrest' hdisjoint
    simp only [sweep, hanswer]
    exact ⟨hok, fun i hi => hkept i (hkeeps i hi),
      List.forall_mem_cons.mpr ⟨fun i hi => hkept i (hplaces i hi), hall⟩⟩

/-- The group step of a section commits to slots of the section. -/
theorem groupStep_opens (hm : m.Placeable w.board) :
    ∃ cs, w.board.Open cs ∧ (groupStep m w).state.2.board = w.board.takeAll cs ∧
      ∀ c ∈ cs, m.sec.Has c.slot := by
  by_cases hne : m.sec.groups = []
  · rw [(step_of_noGroups hne w).2]
    exact ⟨[], .nil _, rfl, fun _ hc => nomatch hc⟩
  · obtain ⟨a, ha⟩ := m.exists_solves w.board hne
    obtain ⟨-, -, hopen, hboard⟩ := ha.groupStep hm.within hne hm.prices
    exact ⟨_, hopen, hboard, fun c hc => ha.has_of_mem hm.within hc⟩

/-- The pass over groups leaves pins their places. -/
theorem groupSweep_keeps {start : Board} (hframe : Frame start w.board)
    (hms : ∀ m ∈ ms, m.Placeable start) {i : Nat} (hi : w.board.pins.isPlaced i) :
    (sweep groupStep ms w).state.2.board.pins.isPlaced i := by
  have hall := sweep_finishes groupStep ms w
    (I := fun _ rest w => Frame start w.board ∧ (∀ m ∈ rest, m.Placeable start) ∧
      w.board.pins.isPlaced i)
    (fun _ m rest w ⟨hframe, hms, hi⟩ => by
      obtain ⟨hm, hrest⟩ := List.forall_mem_cons.mp hms
      obtain ⟨hanswer, hframe', -⟩ := groupStep_finishes m w hframe hm
      obtain ⟨cs, hopen, hboard, -⟩ := groupStep_opens (hm.frame hframe)
      refine ⟨hanswer, hframe', hrest, ?_⟩
      rw [hboard]
      exact (hopen.isPlaced i).mpr (.inl hi))
    ⟨hframe, hms, hi⟩
  exact hall.2.2.2

/-- The reservation leaves sections with room enough. -/
theorem reserveSweep_roomy (hms : ∀ m ∈ ms, m.Ample w.board) :
    let swept := sweep reserveStep ms w
    swept.answer = .ok () ∧ swept.state.2 = w ∧ swept.state.1.map (·.sec) = ms.map (·.sec) ∧
      ∀ m ∈ swept.state.1, m.Roomy w.board := by
  have hall := sweep_finishes reserveStep ms w
    (I := fun done rest w' => w' = w ∧ (done ++ rest).map (·.sec) = ms.map (·.sec) ∧
      (∀ m ∈ done, m.Roomy w.board) ∧ ∀ m ∈ rest, m.Ample w.board)
    (fun done m rest w' ⟨hw, hsecs, hdone, hrest⟩ => by
      obtain ⟨hm, hrest⟩ := List.forall_mem_cons.mp hrest
      rw [hw]
      obtain ⟨hanswer, -⟩ := reserveStep_finishes m w (.refl _) hm.placeable
      obtain ⟨reserved, hstate, hholds⟩ := reserveStep_holds hm.placeable.within hanswer
      have hroomy : Matching.Roomy { m with reserved } w.board := by
        by_cases hne : m.sec.groups = []
        · have hsame : { m with reserved } = m := by
            have := congrArg (·.1) hstate
            rw [(step_of_noGroups hne w).1] at this
            exact this.symm
          exact hsame ▸ hm.roomy
        · obtain ⟨a, ha⟩ := hholds.2 hne
          exact hm.roomy_of_reserved ha
      rw [hstate]
      refine ⟨hanswer, rfl, ?_, List.forall_mem_append.mpr
        ⟨hdone, List.forall_mem_singleton.mpr hroomy⟩, hrest⟩
      rw [← hsecs]
      simp)
    ⟨rfl, rfl, (fun _ hm => nomatch hm), hms⟩
  obtain ⟨hok, hw, hsecs, hroomy, -⟩ := hall
  rw [List.append_nil] at hsecs
  exact ⟨hok, hw, hsecs, hroomy⟩

/-- Whether matchings share slots depends on their sections alone. -/
theorem pairwise_disjoint_of_secs {ns : List Matching}
    (hsecs : ns.map (·.sec) = ms.map (·.sec)) (h : ms.Pairwise Matching.Disjoint) :
    ns.Pairwise Matching.Disjoint := by
  have hmap : (ms.map (·.sec)).Pairwise fun s t => ∀ i, s.Has i → ¬t.Has i :=
    List.pairwise_map.mpr h
  rw [← hsecs, List.pairwise_map] at hmap
  exact hmap

/-- The passes after the mirrored one place all pins of sections that are ample. -/
theorem laterPasses_place (config : Config) {s : List Matching × Work}
    (hms : ∀ m ∈ s.1, m.Ample s.2.board) (hdisjoint : s.1.Pairwise Matching.Disjoint) :
    let swept := sweeps (laterPasses config) s
    swept.answer = .ok () ∧
      ∀ m ∈ s.1, ∀ i ∈ m.sec.pins, swept.state.2.board.pins.isPlaced i := by
  have hplaceable : ∀ m ∈ s.1, m.Placeable s.2.board := fun m hm => (hms m hm).placeable
  refine ⟨sweeps_finish (laterPasses_finish config) (.refl _) hplaceable, ?_⟩
  cases hassigns : config.assignGroups with
  | false =>
    have hpasses : laterPasses config = [pinStep false] := by simp [laterPasses, hassigns]
    rw [hpasses, (sweeps_singleton (pinStep false) s).2]
    exact (regularSweep_places (fun m hm => (hms m hm).roomy) hdisjoint).2.2
  | true =>
    have hpasses : laterPasses config = [reserveStep, pinStep false, groupStep] := by
      simp [laterPasses, hassigns]
    obtain ⟨hheld, hwork, hsecs, hroomy⟩ := reserveSweep_roomy hms
    have hdisjoint' := pairwise_disjoint_of_secs hsecs hdisjoint
    have hroomy : ∀ m ∈ (sweep reserveStep s.1 s.2).state.1,
        m.Roomy (sweep reserveStep s.1 s.2).state.2.board := by
      rw [hwork]
      exact hroomy
    obtain ⟨hfilled, -, hplaces⟩ := regularSweep_places hroomy hdisjoint'
    obtain ⟨-, hframe, hms'⟩ :=
      regularStep_finishes.sweep (.refl _) fun m hm => (hroomy m hm).placeable
    rw [hpasses, (sweeps_cons hheld _).2, (sweeps_cons hfilled _).2,
      (sweeps_singleton groupStep _).2]
    intro m hm i hi
    refine groupSweep_keeps hframe hms' ?_
    obtain ⟨n, hn, hsec⟩ := List.mem_map.mp (hsecs ▸ List.mem_map_of_mem hm)
    exact hplaces n hn i (hsec ▸ hi)

variable {board : Board} {model : CostModel} {config : Config}

/-- Within capacity, what the distribution leaves is ample. -/
theorem opening_ample (reflection : Option Reflection) (hd : board.pins.Declared)
    (hmirrors : board.pins.mirrors = [])
    (hsizes : ∀ g ∈ board.pins.groups, ∀ h ∈ board.pins.groups, g.size = h.size)
    (hmodel : model.Total)
    (hcap : ∀ s ∈ board.boundary.sections config.sectionSize,
      config.capacity s.room.toNat ≤ s.room.toNat)
    (hfit : board.pins.size ≤ ((board.boundary.sections config.sectionSize).map
      fun s => config.capacity s.room.toNat).sum)
    (h : (distribute board model config (board.boundary.sections config.sectionSize)).answer =
      .ok ()) :
    let shared := distribute board model config (board.boundary.sections config.sectionSize)
    ∀ m ∈ (opening board model reflection shared.state).1, m.Ample board := by
  intro shared m hm
  have hplaceable : m.Placeable board := opening_placeable hd hmodel h m hm
  obtain ⟨s, hs, rfl⟩ := List.mem_map.mp hm
  refine ⟨hplaceable, fun i hi => ?_, ?_, fun g hg => ?_, rfl⟩
  · obtain ⟨q, hq, -, hfree⟩ :=
      (Distribution.pins_distribute h).2 i (List.mem_flatMap.mpr ⟨s, hs, hi⟩)
    exact ⟨q, hq, hfree, by simp [PinTable.isMirrored, hmirrors]⟩
  · -- The section is one of those on the boundary, so its room is what is free there.
    have hmem : s.emptied ∈ shared.state.map Section.emptied := List.mem_map_of_mem hs
    rw [Distribution.emptied_distribute h] at hmem
    obtain ⟨t, ht, heq⟩ := List.mem_map.mp hmem
    obtain ⟨hfirst, hstop, -, hroom, -⟩ := Section.mk.inj heq
    have hcount := Boundary.sections_room _ _ t ht
    have hle := (Distribution.distribute_within_capacity hd hmirrors hfit h).1 s hs
    have hcap := hcap t ht
    rw [hroom] at hcap hcount
    rw [hfirst, hstop] at hcount
    simp only [Matching.ofSection]
    omega
  · have hgiven := Distribution.given_distribute h s hs
    obtain ⟨largest, hlargest, hsize⟩ := Section.exists_blockSize (List.ne_nil_of_mem hg)
    exact (hsizes g (hgiven g hg).1 largest (hgiven largest hlargest).1).trans hsize

end Run

/-- Over a loaded problem without mirror pairs whose groups have one size, and which has no more
pins than its sections may be given, a run goes through all its passes and gives every pin outside
the groups a place, whatever the costs.  Only a total cost that cannot be written keeps it from
returning. -/
theorem run_places_ungrouped {v : Value} {p : Problem} (hload : Problem.ofValue v = .ok p)
    (hmirrors : p.board.pins.mirrors = [])
    (hsizes : ∀ g ∈ p.board.pins.groups, ∀ h ∈ p.board.pins.groups, g.size = h.size)
    {model : CostModel} (hmodel : model.Total) (reflection : Option Reflection) {config : Config}
    (hcap : ∀ s ∈ p.board.boundary.sections config.sectionSize,
      config.capacity s.room.toNat ≤ s.room.toNat)
    (hfit : p.board.pins.size ≤ ((p.board.boundary.sections config.sectionSize).map
      fun s => config.capacity s.room.toNat).sum) :
    let ended := run p.board model reflection config
    (∀ (i : Nat) (q : Pin), p.board.pins.pins[i]? = some q → q.grouped = false →
      ended.state.1.pins.isPlaced i) ∧
    (ended.answer = .error .unwritable ∨ ∃ verdict, ended.answer = .ok verdict) := by
  intro ended
  have hd := Problem.ofValue_declared hload
  by_cases hne : p.board.boundary.sections config.sectionSize = []
  · -- Without sections there is no capacity, and so there are no pins.
    rw [hne, List.map_nil, List.sum_nil] at hfit
    simp only [ended, run_of_nil reflection hne]
    refine ⟨fun i q hq => ?_, .inr ⟨_, rfl⟩⟩
    have hlt : i < p.board.pins.size := (Array.getElem?_eq_some_iff.mp hq).1
    omega
  have hdistribute := Distribution.distribute_finishes config hmodel hd.partner_total hne
    fun s hs => (Boundary.sections_bounds p.board.boundary config.sectionSize s hs).2
  obtain ⟨hstate, hanswer⟩ := run_of_distribute reflection hne hdistribute
  have hample := Run.opening_ample reflection hd hmirrors hsizes hmodel hcap hfit hdistribute
  have hbehind := (Distribution.sections_distribute hdistribute).1
  have hgiven := (Distribution.distribute_within_capacity hd hmirrors hfit hdistribute).2
  let opened := Run.opening p.board model reflection
    (distribute p.board model config (p.board.boundary.sections config.sectionSize)).state
  have hdisjoint : opened.1.Pairwise Matching.Disjoint := by
    refine List.pairwise_map.mpr (hbehind.imp fun hbehind i hi hi' => ?_)
    have := hi.2
    have := hi'.1
    simp only [Matching.ofSection] at *
    omega
  obtain ⟨hok, hplaces⟩ := Run.laterPasses_place config (s := opened) hample hdisjoint
  have hpasses : Run.passes p.board config = Run.laterPasses config := by
    rw [Run.passes_eq, hmirrors]
    rfl
  constructor
  · intro i q hq hfree
    have hplaced : q.placed = false := by rw [Pin.placed, hd.unplaced i q hq]; rfl
    obtain ⟨s, hs, hi⟩ := List.mem_flatMap.mp (hgiven i q hq hplaced hfree)
    simp only [ended, hstate, Run.place_state, hpasses]
    exact hplaces _ (List.mem_map_of_mem hs) i hi
  · simp only [ended, hanswer, Run.place_answer, hpasses]
    rw [hok]
    simp only [Except.bind, Run.conclude_answer, written]
    split
    · exact .inr ⟨_, rfl⟩
    · exact .inl rfl

/-- Four bottom and two top slots for a group of two and two more pins, one of which may sit
nowhere. -/
def ringOfSix : Value :=
  let slot (x y : Int) : Value := .mapping [(.text "x", .int x), (.text "y", .int y)]
  .mapping
    [(.text "core", .mapping
        [(.text "xmin", .int 0), (.text "ymin", .int 0), (.text "xmax", .int 50),
          (.text "ymax", .int 25)]),
      (.text "slots", .list
        [slot 10 0, slot 20 0, slot 30 0, slot 40 0, slot 20 25, slot 10 25]),
      (.text "pins", .list
        [.mapping [(.text "name", .text "a"),
            (.text "region", .list [.int 1, .int 1, .int 2, .int 2])],
          .mapping [(.text "name", .text "b")], .mapping [(.text "name", .text "d0")],
          .mapping [(.text "name", .text "d1")]]),
      (.text "groups", .list
        [.mapping [(.text "name", .text "bus"), (.text "pins", .list [.text "d0", .text "d1"])]])]

/-- What is read from `ringOfSix`. -/
def ringOfSixProblem : Problem where
  core := Core.outline { xmin := 0, ymin := 0, xmax := 50, ymax := 25 }
  board :=
    { boundary :=
        { slots := #[⟨⟨10, 0⟩, 0, .bottom, false, false⟩, ⟨⟨20, 0⟩, 0, .bottom, false, false⟩,
            ⟨⟨30, 0⟩, 0, .bottom, false, false⟩, ⟨⟨40, 0⟩, 0, .bottom, false, false⟩,
            ⟨⟨20, 25⟩, 0, .top, false, false⟩, ⟨⟨10, 25⟩, 0, .top, false, false⟩] }
      pins :=
        { pins := #[⟨"a", none, false⟩, ⟨"b", none, false⟩, ⟨"d0", none, true⟩,
            ⟨"d1", none, true⟩]
          groups := [⟨[2, 3], false, "bus"⟩] } }
  targets := { regions := [(0, ⟨1, 1, 2, 2⟩)] }

/-- With three quarters of the slots to give out, the four pins take all that there is. -/
theorem run_places_ungrouped_ringOfSix :
    let p := ringOfSixProblem
    let config : Config := { usageFactor := { mantissa := 3, scale := 2 } }
    let ended := run p.board p.model none config
    Problem.ofValue ringOfSix = .ok p ∧
      (p.board.boundary.sections config.sectionSize).map (fun s => config.capacity s.room.toNat) =
        [3, 1] ∧
      ended.state.1.pins.isPlaced 0 ∧ ended.state.1.pins.isPlaced 1 := by
  intro p config ended
  have hload : Problem.ofValue ringOfSix = .ok p := by with_unfolding_all rfl
  have hrooms : ∀ s ∈ p.board.boundary.sections config.sectionSize,
      0 < s.room.toNat ∧ s.room.toNat < 2 ^ 53 := by decide +kernel
  have hcapacity : (p.board.boundary.sections config.sectionSize).map
      (fun s => config.capacity s.room.toNat) = [3, 1] := by decide +kernel
  obtain ⟨hplaces, -⟩ := run_places_ungrouped hload rfl (by decide) p.model_total none
    (fun s hs => (config.capacity_le (hrooms s hs).1 (hrooms s hs).2).2)
    (by rw [hcapacity]; decide)
  exact ⟨hload, hcapacity, hplaces 0 _ rfl rfl, hplaces 1 _ rfl rfl⟩

end PinRing
