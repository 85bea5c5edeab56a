import PinRing.Proofs.Placement.Blocks
import PinRing.Proofs.Placement.Report

/-! Slots held back for the groups of a section.  As long as they stay available, and no slot
becomes available, the groups are matched with as many blocks as at the time of the reservation, and
at the same weight. -/

namespace PinRing

open Board

/-! ### The regular pass keeps off reserved slots -/

namespace PinPass

variable {board : Board} {matrix : CostMatrix} {a : Assignment} {mode : Mode} {result : PassResult}

theorem Planned.on_rows {plan next : Plan} {col pin : Nat} (hmode : mode.mirrored = false)
    (hnext : Planned board matrix a mode plan col pin next)
    (h : ∀ c ∈ plan.commits, c.slot ∈ matrix.rowSlots) :
    ∀ c ∈ next.commits, c.slot ∈ matrix.rowSlots := by
  cases hnext with
  | skipped => exact h
  | failed mirrored => rw [hmode] at mirrored; cases mirrored
  | pair mirrored => rw [hmode] at mirrored; cases mirrored
  | single regular matched =>
    intro c hc
    rw [Plan.commits_add] at hc
    rcases List.mem_append.mp hc with hc | hc
    · exact h c hc
    · rw [List.mem_singleton.mp hc]
      exact List.mem_of_getElem? (CostMatrix.rowSlot_eq_ok.mp matched.at_row)

theorem slots_of_run (hmode : mode.mirrored = false)
    (hok : (run board matrix a mode).answer = .ok result) :
    ∀ c ∈ result.commits, c.slot ∈ matrix.rowSlots := by
  obtain rfl | ⟨plan, -, rfl, rfl⟩ := result_eq hok
  · exact fun _ hc => absurd hc List.not_mem_nil
  exact Outcome.forEach_state (P := fun plan : Plan => ∀ c ∈ plan.commits, c.slot ∈ matrix.rowSlots)
    (fun plan (col, pin) _ h =>
      (planColumn_planned board matrix a mode plan col pin).on_rows hmode h)
    fun _ hc => absurd hc List.not_mem_nil

end PinPass

theorem Section.rowSlots_of_pinMatrix {s : Section} {b : Boundary} {pins : PinTable}
    {model : CostModel} {f : PinFilter} {matrix : CostMatrix}
    (h : s.pinMatrix b pins model f = .ok matrix) :
    ∀ i ∈ matrix.rowSlots, s.first ≤ i ∧ i < s.stop ∧ i ∉ f.reserved := by
  obtain ⟨columns, -, h⟩ := exists_of_bind_eq_ok h
  simp only at h
  split at h
  · cases h
    exact fun _ hi => nomatch hi
  · obtain ⟨cells, -, h⟩ := exists_of_bind_eq_ok h
    cases h
    intro i hi
    obtain ⟨hfree, hout⟩ := List.mem_filter.mp hi
    obtain ⟨hfirst, hstop, -⟩ := Boundary.mem_free.mp hfree
    exact ⟨hfirst, hstop, by simpa using hout⟩

/-- The slots of a section. -/
def Section.Has (s : Section) (i : Nat) : Prop := s.first ≤ i ∧ i < s.stop

namespace Run

variable {m : Matching} {w : Work}

/-- A pass over the pins of a section that goes through makes open commits; the regular pass commits
to slots of the section that are not held back. -/
theorem pinStep_opens {mirrored : Bool} (hok : (pinStep mirrored m w).answer = .ok ()) :
    (∃ matrix assignment, (pinStep mirrored m w).state.1 = { m with matrix, assignment }) ∧
      ∃ cs, w.board.Open cs ∧ (pinStep mirrored m w).state.2.board = w.board.takeAll cs ∧
        (mirrored = false → ∀ c ∈ cs, m.sec.Has c.slot ∧ c.slot ∉ m.reserved) := by
  obtain ⟨result, hfound, hpass⟩ := exists_of_pinStep_ok hok
  obtain ⟨-, hstate⟩ := pinStep_of_ok hfound hpass
  obtain ⟨matrix, a, hmatrix, -, hm⟩ := Matching.adopt_ok hfound
  have hm : (m.findPins w.board mirrored).state = { m with matrix, assignment := a } := hm
  rw [hm] at hpass hstate
  obtain ⟨hboard, hanswer⟩ :=
    Matching.commitPins_eq { m with matrix, assignment := a } w.board mirrored
  rw [hanswer] at hpass
  let mode : PinPass.Mode := { mirrored, strict := m.strict, reflection := m.reflection }
  have hall : ∀ pin ∈ matrix.columns, Scope.all.pins mode.origin pin := fun _ _ => trivial
  obtain ⟨cs, hmoves, hend, hcommits⟩ := PinPass.run_moves w.board a mode hall
  obtain rfl := hcommits result hpass
  rw [hstate]
  refine ⟨⟨matrix, a, rfl⟩, result.commits, hmoves.isOpen, hboard.trans hend, fun hmode c hc => ?_⟩
  obtain ⟨hfirst, hstop, hout⟩ :=
    Section.rowSlots_of_pinMatrix hmatrix c.slot (PinPass.slots_of_run hmode hpass c hc)
  exact ⟨⟨hfirst, hstop⟩, hout⟩

end Run

/-! ### The groups of one section -/

namespace Matching

variable {m n : Matching} {board before now : Board} {a : Assignment} {w : Run.Work}

/-- The slots of the section are slots of the board, its groups consist of pins, and its blocks hold
each of its groups. -/
structure Within (m : Matching) (board : Board) : Prop where
  stop_le : m.sec.stop ≤ board.boundary.size
  members_lt : ∀ g ∈ m.sec.groups, ∀ i ∈ g.members, i < board.pins.size
  blockSize_eq : m.blockSize = m.sec.blockSize

theorem Within.frame (h : m.Within before) (hframe : Frame before now) : m.Within now where
  stop_le := hframe.size_boundary ▸ h.stop_le
  members_lt := hframe.size_pins ▸ h.members_lt
  blockSize_eq := h.blockSize_eq

/-- It does not matter what was worked out for the section. -/
theorem Within.worked (h : m.Within board) (matrix : CostMatrix) (assignment : Assignment)
    (reserved : List Nat) : Within { m with matrix, assignment, reserved } board :=
  ⟨h.stop_le, h.members_lt, h.blockSize_eq⟩

/-- The starts of the available blocks of the section. -/
def starts (m : Matching) (board : Board) : List Nat := m.sec.openBlocks board.boundary m.blockSize

theorem starts_nodup (m : Matching) (board : Board) : (m.starts board).Nodup :=
  (Section.blockStarts_nodup m.sec m.blockSize).filter _

/-- A solution for the groups of the section on its available blocks. -/
def Solves (m : Matching) (board : Board) (a : Assignment) : Prop :=
  Solution (m.sec.blockPrice board.boundary m.model) (List.range m.sec.groups.length)
    (m.starts board) a

/-- The groups that an assignment gives a block, by position, each with the start of its block. -/
def blocks (m : Matching) (board : Board) (a : Assignment) : List (Nat × Nat) :=
  PinPass.seats (m.sec.groupsOn board.boundary m.model m.blockSize (m.starts board)) a

/-- The model prices every group of the section on every available block. -/
def Prices (m : Matching) (board : Board) : Prop :=
  ∀ start ∈ m.starts board, m.sec.Prices board.boundary m.model start

theorem groupMatrix_eq (hw : m.Within board) (hne : m.sec.groups ≠ []) (hprices : m.Prices board) :
    m.groupMatrix board =
      .ok (m.sec.groupsOn board.boundary m.model m.blockSize (m.starts board)) :=
  Section.groupMatrix_eq hw.stop_le hne hprices

theorem prices_of_groupMatrix {matrix : CostMatrix} (hw : m.Within board)
    (h : m.groupMatrix board = .ok matrix) : m.Prices board :=
  Section.prices_of_groupMatrix hw.stop_le h

theorem exists_solves (m : Matching) (board : Board) (hne : m.sec.groups ≠ []) :
    ∃ a, m.Solves board a :=
  exists_solution _ List.nodup_range (m.starts_nodup board) (by simpa using hne)

theorem Solves.solved (h : m.Solves board a) :
    solved (m.sec.groupsOn board.boundary m.model m.blockSize (m.starts board)) = .ok a :=
  Solution.solved h

theorem Solves.length_blocks (h : m.Solves board a) :
    (m.blocks board a).length = min m.sec.groups.length (m.starts board).length := by
  have := Solution.length_eq h
  rwa [List.length_range] at this

theorem Solves.provided (h : m.Solves board a) (hw : m.Within board) (hne : m.sec.groups ≠ [])
    (hprices : m.Prices board) :
    GroupPass.Provided board m.sec
      (m.sec.groupsOn board.boundary m.model m.blockSize (m.starts board)) a m.blockSize where
  blocks := Section.groupMatrix_blocks (groupMatrix_eq hw hne hprices)
  columns_eq := rfl
  cell := by
    intro col row hcol hrow
    have hstart := List.getElem?_eq_getElem (h.row_lt hrow)
    exact ⟨_, _, hstart, cell_priced hstart (List.getElem?_range hcol)⟩
  size_le := fun g hg => hw.blockSize_eq ▸ Section.size_le_blockSize hg
  members_lt := hw.members_lt

/-- A later state of the matching of one section: only the room of the section has changed, and what
was worked out last. -/
structure Like (m n : Matching) : Prop where
  sec_eq : ∃ room, n.sec = { m.sec with room }
  model_eq : n.model = m.model
  blockSize_eq : n.blockSize = m.blockSize

/-- The pass over the groups lays out a group on each block that the solution gives out. -/
theorem Solves.run (h : m.Solves board a) (hw : m.Within board) (hne : m.sec.groups ≠ [])
    (hprices : m.Prices board) :
    let matrix := m.sec.groupsOn board.boundary m.model m.blockSize (m.starts board)
    let passed := GroupPass.run board m.sec matrix a m.blockSize
    let cs := GroupPass.blockCommits m.sec (m.blocks board a)
    ∃ result room, passed.answer = .ok result ∧ result.commits = cs ∧ board.Open cs ∧
      passed.state = (board.takeAll cs, { m.sec with room }) := by
  intro matrix passed cs
  have hempty : matrix.empty → m.blocks board a = [] := by
    intro hempty
    have hlength := h.length_blocks
    have hnone : (m.starts board).length = 0 := by
      simpa [matrix, CostMatrix.empty, CostMatrix.rows, CostMatrix.cols, Section.groupsOn,
        CostMatrix.priced, hne] using hempty
    rw [hnone, Nat.min_zero] at hlength
    exact List.length_eq_zero_iff.mp hlength
  exact (h.provided hw hne hprices).run_eq hempty m.blockSize

/-- The group step of a section lays out a group on each block that the solution gives out. -/
theorem Solves.groupStep (h : m.Solves w.board a) (hw : m.Within w.board) (hne : m.sec.groups ≠ [])
    (hprices : m.Prices w.board) :
    let stepped := Run.groupStep m w
    let cs := GroupPass.blockCommits m.sec (m.blocks w.board a)
    stepped.answer = .ok () ∧ m.Like stepped.state.1 ∧ w.board.Open cs ∧
      stepped.state.2.board = w.board.takeAll cs := by
  intro stepped cs
  let matrix := m.sec.groupsOn w.board.boundary m.model m.blockSize (m.starts w.board)
  obtain ⟨result, room, hanswer, -, hopen, hstate⟩ := h.run hw hne hprices
  obtain ⟨hfound, hm⟩ := adopt_of_ok (m := m) m.sec.groupMatrixLog (groupMatrix_eq hw hne hprices)
    h.solved
  have hm : (m.findGroups w.board).state = { m with matrix, assignment := a } := hm
  obtain ⟨hpass, hend⟩ :=
    commitGroups_of_ok (m := { m with matrix, assignment := a }) hanswer
  rw [← hm] at hpass
  obtain ⟨hok, hstep⟩ := Run.groupStep_of_ok hne hfound hpass
  simp only [stepped, hstep, hm, hend, matrix, hstate]
  exact ⟨hok, ⟨⟨room, rfl⟩, rfl, rfl⟩, hopen, rfl⟩

/-! ### Reserved blocks -/

theorem mem_blockSlots_bounds {rowSlots : List Nat} {size i : Nat}
    (h : i ∈ blockSlots rowSlots size a) : ∃ start ∈ rowSlots, start ≤ i ∧ i < start + size := by
  obtain ⟨⟨start, entry⟩, hmem, hi⟩ := List.mem_flatMap.mp h
  exact ⟨start, (List.of_mem_zip (List.mem_of_mem_filter hmem)).1, List.mem_range'_1.mp hi⟩

/-- A group that is given a block has its slots held back. -/
theorem Solves.mem_blockSlots (h : m.Solves board a) {p : Nat × Nat} (hp : p ∈ m.blocks board a)
    {k : Nat} (hk : k < m.blockSize) : p.2 + k ∈ blockSlots (m.starts board) m.blockSize a := by
  obtain ⟨col, row, hrow, hstart⟩ := h.mem_seats hp
  have hzip : ((m.starts board).zip a)[row]? = some (p.2, some col) := by
    rw [List.getElem?_zip_eq_some]
    exact ⟨hstart, hrow⟩
  refine List.mem_flatMap.mpr ⟨(p.2, some col), ?_, ?_⟩
  · exact List.mem_filter.mpr ⟨List.mem_of_getElem? hzip, rfl⟩
  · exact List.mem_range'_1.mpr ⟨Nat.le_add_right _ _, by omega⟩

theorem Solves.mem_starts (h : m.Solves board a) {p : Nat × Nat} (hp : p ∈ m.blocks board a) :
    p.2 ∈ m.starts board := h.placement.slot_mem p hp

/-- Groups are laid out inside their section. -/
theorem Solves.has_of_mem (h : m.Solves board a) (hw : m.Within board) {c : Commit}
    (hc : c ∈ GroupPass.blockCommits m.sec (m.blocks board a)) : m.sec.Has c.slot := by
  obtain ⟨p, hp, hc⟩ := List.mem_flatMap.mp hc
  cases hg : m.sec.groups[p.1]? with
  | none => rw [hg] at hc; cases hc
  | some g =>
    rw [hg] at hc
    obtain ⟨-, k, hk, hslot⟩ := GroupPass.mem_layout hc
    have hsize := Section.size_le_blockSize (List.mem_of_getElem? hg)
    have hbounds := Section.blockStarts_bounds (Section.mem_openBlocks.mp (h.mem_starts hp)).1
    rw [hw.blockSize_eq] at hbounds
    constructor <;> omega

/-- The slots that are held back in the section are those of the blocks of a solution on `board`. -/
structure Reserved (m : Matching) (board : Board) (a : Assignment) : Prop where
  within : m.Within board
  prices : m.Prices board
  solves : m.Solves board a
  reserved_eq : m.reserved = blockSlots (m.starts board) m.blockSize a

theorem Reserved.has (h : m.Reserved before a) {i : Nat} (hi : i ∈ m.reserved) : m.sec.Has i := by
  rw [h.reserved_eq] at hi
  obtain ⟨start, hstart, hle, hlt⟩ := mem_blockSlots_bounds hi
  obtain ⟨-, hfirst, hstop⟩ := Section.blockStarts_bounds (Section.mem_openBlocks.mp hstart).1
  exact ⟨Nat.le_trans hfirst hle, Nat.lt_of_lt_of_le hlt hstop⟩

/-- Since the board `before` slots have become unavailable only, none of them held back. -/
structure Kept (m : Matching) (before now : Board) : Prop where
  frame : Frame before now
  shrinks : ∀ i, now.boundary.isAvailable i → before.boundary.isAvailable i
  free : ∀ i ∈ m.reserved, now.boundary.isAvailable i

theorem Reserved.kept (h : m.Reserved board a) : m.Kept board board where
  frame := .refl board
  shrinks := fun _ hi => hi
  free := by
    intro i hi
    rw [h.reserved_eq] at hi
    obtain ⟨start, hstart, hle, hlt⟩ := mem_blockSlots_bounds hi
    have := (Section.mem_openBlocks.mp hstart).2 (i - start) (by omega)
    rwa [Nat.add_sub_cancel' hle] at this

theorem Kept.takeAll {cs : List Commit} (h : m.Kept before now) (hopen : now.Open cs)
    (hout : ∀ c ∈ cs, c.slot ∉ m.reserved) : m.Kept before (now.takeAll cs) where
  frame := h.frame.trans hopen.frame
  shrinks := fun i hi => h.shrinks i ((hopen.isAvailable i).mp hi).1
  free := by
    refine fun i hi => (hopen.isAvailable i).mpr ⟨h.free i hi, fun hmem => ?_⟩
    obtain ⟨c, hc, rfl⟩ := List.mem_map.mp hmem
    exact hout c hc hi

theorem Kept.starts_subset (h : m.Kept before now) : m.starts now ⊆ m.starts before := by
  intro start hstart
  obtain ⟨hmem, hfree⟩ := Section.mem_openBlocks.mp hstart
  exact Section.mem_openBlocks.mpr ⟨hmem, fun k hk => h.shrinks _ (hfree k hk)⟩

theorem Kept.blockPrice_eq (h : m.Kept before now) :
    m.sec.blockPrice now.boundary m.model = m.sec.blockPrice before.boundary m.model :=
  Section.blockPrice_congr h.frame m.sec m.model

theorem Kept.prices (h : m.Kept before now) (hprices : m.Prices before) : m.Prices now := by
  intro start hstart pos hpos
  exact hprices start (h.starts_subset hstart) pos (h.frame.posOf? start ▸ hpos)

/-- The blocks of the solution are all still there. -/
theorem Reserved.mem_starts (h : m.Reserved before a) (hkept : m.Kept before now) {p : Nat × Nat}
    (hp : p ∈ m.blocks before a) : p.2 ∈ m.starts now := by
  have hmem := (Section.mem_openBlocks.mp (h.solves.mem_starts hp)).1
  refine Section.mem_openBlocks.mpr ⟨hmem, fun k hk => hkept.free _ ?_⟩
  rw [h.reserved_eq]
  exact h.solves.mem_blockSlots hp hk

/-- With fewer blocks than groups every block is held back, so every one is still there. -/
theorem Reserved.starts_eq (h : m.Reserved before a) (hkept : m.Kept before now)
    (hfewer : (m.starts before).length < m.sec.groups.length) : m.starts now = m.starts before := by
  have hlength : ((m.blocks before a).map Prod.snd).length = (m.starts before).length := by
    rw [List.length_map, h.solves.length_blocks]
    omega
  have hsub : (m.blocks before a).map Prod.snd ⊆ m.starts before := by
    intro start hstart
    obtain ⟨p, hp, rfl⟩ := List.mem_map.mp hstart
    exact h.solves.mem_starts hp
  have hperm : ((m.blocks before a).map Prod.snd).Perm (m.starts before) :=
    (h.solves.placement.slots_nodup.subperm hsub).perm_of_length_le hlength.ge
  refine List.filter_congr fun start hstart => Bool.eq_iff_iff.mpr ?_
  have hopen : ∀ b : Board, (List.range' start m.blockSize).all b.boundary.isAvailable ↔
      start ∈ m.starts b := fun b => by
    rw [starts, Section.openBlocks, List.mem_filter, and_iff_right hstart]
  rw [hopen, hopen]
  refine ⟨fun hnow => hkept.starts_subset hnow, fun hthen => ?_⟩
  obtain ⟨p, hp, rfl⟩ := List.mem_map.mp (hperm.mem_iff.mpr hthen)
  exact h.mem_starts hkept hp

/-- The groups of a section when they are placed, against the reservation that was made for them:
`matrix` and `a` are the group matrix and its solution at that time, `matrix'` and `a'` are those at
hand now, and `blocks` are the groups to which `a'` gives a block, by position, each with its
start. -/
structure Honoured (m : Matching) (before now : Board) (starts : List Nat) (matrix : CostMatrix)
    (a : Assignment) (matrix' : CostMatrix) (a' : Assignment) (blocks : List (Nat × Nat)) :
    Prop where
  starts_eq : m.sec.candidateStarts before.boundary m.blockSize = .ok starts
  matrix_eq : m.groupMatrix before = .ok matrix
  solved_eq : solved matrix = .ok a
  reserved_eq : m.reserved = blockSlots matrix.rowSlots m.blockSize a
  matrix'_eq : m.groupMatrix now = .ok matrix'
  solved'_eq : solved matrix' = .ok a'
  blocks_eq : blocks = m.blocks now a'
  placement : Placement (List.range m.sec.groups.length) starts blocks
  length_blocks : blocks.length = min m.sec.groups.length starts.length
  cost_eq : ∃ cost, matrix.weights.totalCost a = .ok cost ∧ matrix'.weights.totalCost a' = .ok cost
  unchanged : starts.length < m.sec.groups.length → matrix' = matrix ∧ a' = a

theorem Reserved.honoured (h : m.Reserved before a) (hkept : m.Kept before now)
    (hne : m.sec.groups ≠ []) {a' : Assignment} (ha' : m.Solves now a') :
    ∃ starts matrix matrix',
      m.Honoured before now starts matrix a matrix' a' (m.blocks now a') := by
  have hwithin := h.within.frame hkept.frame
  have hprice := hkept.blockPrice_eq
  have hsame : Solution (m.sec.blockPrice before.boundary m.model) (List.range m.sec.groups.length)
      (m.starts now) a' := hprice ▸ ha'
  obtain ⟨hsize, hweight⟩ := Solution.same_weight h.solves hsame (m.starts_nodup now)
    hkept.starts_subset fun p hp => h.mem_starts hkept hp
  rw [List.length_range] at hsize
  refine ⟨m.starts before, _, _, ?_, groupMatrix_eq h.within hne h.prices, h.solves.solved,
    h.reserved_eq, groupMatrix_eq hwithin hne (hkept.prices h.prices), ha'.solved, rfl, ?_, ?_, ?_,
    ?_⟩
  · exact Section.candidateStarts_eq _ h.within.stop_le
  · exact { ha'.placement with
      slot_mem := fun p hp => hkept.starts_subset (ha'.placement.slot_mem p hp) }
  · rw [ha'.length_blocks, hsize]
  · refine ⟨_, Solution.totalCost_eq h.solves, ?_⟩
    rw [← hweight]
    have := Solution.totalCost_eq hsame
    rwa [← hprice] at this ⊢
  · intro hfewer
    have hstarts := h.starts_eq hkept hfewer
    refine ⟨by rw [Section.groupsOn, Section.groupsOn, hprice, hstarts], ?_⟩
    have hsolved := hsame.solved
    rw [hstarts, Solution.solved h.solves] at hsolved
    exact (Except.ok.inj hsolved).symm

end Matching

end PinRing
