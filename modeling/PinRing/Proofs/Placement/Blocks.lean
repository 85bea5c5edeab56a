import PinRing.Proofs.Placement.GroupPass
import PinRing.Proofs.Placement.Priced

/-! The groups of a section on its available blocks: the matrix in full, and the pass that lays out
every group to which an assignment gives a block. -/

namespace PinRing

/-- The position of a slot. -/
def Boundary.posOf? (b : Boundary) (i : Nat) : Option Point := (b.slots[i]?).map (·.pos)

theorem Board.Frame.posOf? {before after : Board} (h : Frame before after) (i : Nat) :
    after.boundary.posOf? i = before.boundary.posOf? i := by
  have := congrArg (fun slots => (slots[i]?).map Prod.fst) h.slots
  simp only [Array.getElem?_map, Option.map_map] at this
  exact this

namespace Section

variable {s : Section} {b : Boundary} {model : CostModel} {size start : Nat} {matrix : CostMatrix}

/-- The model prices every group of the section at one slot. -/
def Prices (s : Section) (b : Boundary) (model : CostModel) (start : Nat) : Prop :=
  ∀ pos, b.posOf? start = some pos → ∀ g ∈ s.groups, ∃ c, model.groupCost g.members pos = .ok c

/-- The price of a group, by its position in the section, at the first slot of a block. -/
def blockPrice (s : Section) (b : Boundary) (model : CostModel) (k start : Nat) : Cost :=
  match s.groups[k]?, b.posOf? start with
  | some g, some pos => (model.groupCost g.members pos).toOption.getD .infeasible
  | _, _ => .infeasible

theorem blockPrice_congr {before after : Board} (h : Board.Frame before after) (s : Section)
    (model : CostModel) :
    s.blockPrice after.boundary model = s.blockPrice before.boundary model := by
  funext k start
  rw [blockPrice, blockPrice, h.posOf?]

/-- The matrix of all groups of the section on the blocks with the given starts. -/
def groupsOn (s : Section) (b : Boundary) (model : CostModel) (size : Nat) (starts : List Nat) :
    CostMatrix :=
  { CostMatrix.priced (s.blockPrice b model) (List.range s.groups.length) starts with
    blockSize := size }

theorem blockRow_eq (hlt : start < b.size) (h : s.Prices b model start) :
    s.blockRow b model start =
      .ok ((List.range s.groups.length).map (s.blockPrice b model · start)) := by
  obtain ⟨slot, hslot⟩ : ∃ slot, b.slots[start]? = some slot := ⟨_, Array.getElem?_eq_getElem hlt⟩
  have hcosts : s.groups.mapM (fun g => model.groupCost g.members slot.pos) =
      .ok (s.groups.map fun g =>
        (model.groupCost g.members slot.pos).toOption.getD .infeasible) := by
    refine mapM_eq_ok fun g hg => ?_
    obtain ⟨c, hc⟩ := h _ (by rw [Boundary.posOf?, hslot, Option.map_some]) g hg
    rw [hc]
    rfl
  simp only [blockRow, Boundary.slot_eq_ok.mpr hslot, Bind.bind, Except.bind]
  refine hcosts.trans (congrArg Except.ok (List.ext_getElem? fun k => ?_))
  rw [List.getElem?_map, List.getElem?_map]
  by_cases hk : k < s.groups.length
  · simp [blockPrice, Boundary.posOf?, hslot, hk]
  · simp [hk]

theorem lt_size_of_openBlocks (h : start ∈ s.openBlocks b size) : start < b.size := by
  obtain ⟨hstart, hfree⟩ := mem_openBlocks.mp h
  obtain ⟨slot, hslot, -⟩ := Boundary.isAvailable_iff.mp (hfree 0 (blockStarts_bounds hstart).1)
  exact (Array.getElem?_eq_some_iff.mp hslot).1

/-- A group matrix in full: a row for each available block, and a column for each group. -/
theorem groupMatrix_of_starts (hstarts : s.candidateStarts b size = .ok (s.openBlocks b size))
    (hne : s.groups ≠ []) (h : ∀ start ∈ s.openBlocks b size, s.Prices b model start) :
    s.groupMatrix b model size = .ok (s.groupsOn b model size (s.openBlocks b size)) := by
  have hcells : (s.openBlocks b size).mapM (s.blockRow b model) =
      .ok ((s.openBlocks b size).map fun start =>
        (List.range s.groups.length).map (s.blockPrice b model · start)) :=
    mapM_eq_ok fun start hstart => blockRow_eq (lt_size_of_openBlocks hstart) (h start hstart)
  have hcolumns : (List.range s.groups.length).isEmpty = false := by simpa using hne
  simp only [groupMatrix, Int.toNat_natCast, hstarts, hcolumns, Bool.or_false, Bind.bind,
    Except.bind, hcells]
  split
  · rename_i hnil
    rw [List.isEmpty_iff.mp hnil]
    rfl
  · rfl

theorem groupMatrix_eq (hstop : s.stop ≤ b.size) (hne : s.groups ≠ [])
    (h : ∀ start ∈ s.openBlocks b size, s.Prices b model start) :
    s.groupMatrix b model size = .ok (s.groupsOn b model size (s.openBlocks b size)) :=
  groupMatrix_of_starts (candidateStarts_eq _ hstop) hne h

/-- A model with which the group matrix can be built prices all groups on all available blocks. -/
theorem prices_of_groupMatrix (hstop : s.stop ≤ b.size)
    (h : s.groupMatrix b model size = .ok matrix) :
    ∀ start ∈ s.openBlocks b size, s.Prices b model start := by
  intro start hstart pos hpos g hg
  obtain ⟨slot, hslot, rfl⟩ := Option.map_eq_some_iff.mp hpos
  simp only [groupMatrix, Int.toNat_natCast, candidateStarts_eq _ hstop, Bind.bind,
    Except.bind] at h
  split at h
  · rename_i hnil
    rcases Bool.or_eq_true_iff.mp hnil with hnil | hnil
    · rw [List.isEmpty_iff.mp hnil] at hstart
      cases hstart
    · have hgroups : s.groups = [] := by simpa using hnil
      rw [hgroups] at hg
      cases hg
  · split at h
    · cases h
    · rename_i hcells
      obtain ⟨costs, hcosts⟩ := forall_of_mapM_eq_ok hcells start hstart
      obtain ⟨slot', hslot', hcosts⟩ := exists_of_bind_eq_ok hcosts
      rw [Boundary.slot_eq_ok, hslot] at hslot'
      obtain rfl := Option.some.inj hslot'
      exact forall_of_mapM_eq_ok hcosts g hg

end Section

namespace GroupPass

open Board PinPass

variable {board : Board} {sec : Section} {matrix : CostMatrix} {a : Assignment}
variable {p : Progress} {g : PinGroup} {cs : List Commit} {col size n : Nat}

/-- The commits of some groups of a section, by position, each on the block at its start. -/
def blockCommits (sec : Section) (blocks : List (Nat × Nat)) : List Commit :=
  blocks.flatMap fun b => (sec.groups[b.1]?).elim [] fun g => layout g sec.edge b.2

theorem blockCommits_append (sec : Section) (blocks others : List (Nat × Nat)) :
    blockCommits sec (blocks ++ others) = blockCommits sec blocks ++ blockCommits sec others :=
  List.flatMap_append

theorem seatsFrom_succ (matrix : CostMatrix) (a : Assignment) (n count : Nat) :
    seatsFrom matrix a n (count + 1) =
      seatsFrom matrix a n 1 ++ seatsFrom matrix a (n + 1) count := by
  simp only [seatsFrom, List.range'_succ, List.map_cons]
  cases a.rowOf? n <;> rfl

theorem forEach_commitMember_ok (hgroup : ∀ c ∈ cs, c.origin = .group) (hopen : p.board.Open cs) :
    (Outcome.forEach commitMember p cs).answer = .ok () := by
  induction cs generalizing p with
  | nil => rfl
  | cons c cs ih =>
    obtain ⟨hc, hcs⟩ := Open.cons_iff.mp hopen
    obtain ⟨room, hstep⟩ := commitMember_of_knows hc.knows (hgroup c List.mem_cons_self)
    rw [Outcome.forEach_cons, hstep, Outcome.done_andThen]
    exact ih (fun d hd => hgroup d (List.mem_cons_of_mem _ hd)) hcs

theorem placeGroup_of_none (matrix : CostMatrix) (hrow : a.rowOf? col = none) :
    (placeGroup matrix a p (g, col)).answer = .ok () ∧
      p.Same (placeGroup matrix a p (g, col)).state := by
  simp only [placeGroup, hrow]
  exact ⟨rfl, same_warn _ _⟩

theorem placeGroup_of_row {row start : Nat} {cost : Cost} (hrow : a.rowOf? col = some row)
    (hstart : matrix.rowSlots[row]? = some start) (hcell : matrix.cell row col = .ok cost) :
    ∃ q, p.Same q ∧
      (placeGroup matrix a p (g, col)).answer =
        (Outcome.forEach commitMember q (layout g q.sec.edge start)).answer ∧
      (placeGroup matrix a p (g, col)).state =
        (Outcome.forEach commitMember q (layout g q.sec.edge start)).state := by
  simp only [placeGroup, hrow, CostMatrix.rowSlot_eq_ok.mpr hstart, hcell, Outcome.lift_ok,
    Outcome.done_andThen]
  cases cost with
  | finite v =>
    rw [Outcome.done_andThen]
    exact ⟨{ p with result := { p.result with cost := p.result.cost + v } }, ⟨rfl, rfl, rfl⟩, rfl,
      rfl⟩
  | infeasible => exact ⟨_, same_warn _ _, rfl, rfl⟩

/-- What a pass needs to lay out every group that has a row. -/
structure Provided (board : Board) (sec : Section) (matrix : CostMatrix) (a : Assignment)
    (size : Nat) : Prop where
  blocks : Section.Blocks board.boundary size matrix.rowSlots
  columns_eq : matrix.columns = List.range sec.groups.length
  cell : ∀ col row, col < sec.groups.length → a.rowOf? col = some row →
    ∃ start cost, matrix.rowSlots[row]? = some start ∧ matrix.cell row col = .ok cost
  size_le : ∀ g ∈ sec.groups, g.size ≤ size
  members_lt : ∀ g ∈ sec.groups, ∀ i ∈ g.members, i < board.pins.size

/-- A group with a row is laid out whole, and the others stay free to be laid out. -/
theorem Provided.placeGroup (h : Provided board sec matrix a size)
    (hp : p.Holds none .all board sec matrix a size n) (hg : sec.groups[n]? = some g) :
    let placed := GroupPass.placeGroup matrix a p (g, n)
    placed.answer = .ok () ∧ placed.state.Holds none .all board sec matrix a size (n + 1) ∧
      placed.state.result.commits =
        p.result.commits ++ blockCommits sec (seatsFrom matrix a n 1) := by
  intro placed
  have hmem := List.mem_of_getElem? hg
  obtain ⟨hlt, -⟩ := List.getElem?_eq_some_iff.mp hg
  have hnext : placed.state.Holds none .all board sec matrix a size (n + 1) :=
    hp.placeGroup h.blocks trivial (h.size_le g hmem)
  cases hrow : a.rowOf? n with
  | none =>
    obtain ⟨hanswer, hsame⟩ := placeGroup_of_none (p := p) (g := g) matrix hrow
    refine ⟨hanswer, hnext, hsame.commits.trans ?_⟩
    rw [seatsFrom_of_none hrow]
    exact (List.append_nil _).symm
  | some row =>
    obtain ⟨start, cost, hstart, hcell⟩ := h.cell n row hlt hrow
    obtain ⟨q, hsame, hanswer, hstate⟩ := placeGroup_of_row (p := p) (g := g) hrow hstart hcell
    have hq := hp.of_same hsame
    have hedge : q.sec.edge = sec.edge := by
      obtain ⟨room, hsec⟩ := hq.sec_eq
      rw [hsec]
    have hsize : q.board.pins.size = board.pins.size := by
      rw [hq.board_eq, hq.moves.isOpen.frame.size_pins]
    have hopen : q.board.Open (layout g q.sec.edge start) := by
      refine ⟨layout_slots_nodup _ _ _, fun c hc => ⟨?_, ?_⟩⟩
      · rw [hsize]
        exact h.members_lt g hmem c.pin (map_pin_layout g _ start ▸ List.mem_map_of_mem hc)
      · obtain ⟨-, k, hk, hslot⟩ := mem_layout hc
        have := h.size_le g hmem
        rw [hslot]
        exact hq.pending n row start (Nat.le_refl n) hrow hstart k (by omega)
    have hgroup : ∀ c ∈ layout g q.sec.edge start, c.origin = .group := fun c hc =>
      (mem_layout hc).1
    refine ⟨hanswer.trans (forEach_commitMember_ok hgroup hopen), hnext, ?_⟩
    obtain ⟨room, hend⟩ := forEach_commitMember q hgroup
    have hall : (layout g q.sec.edge start).takeWhile q.board.knows = layout g q.sec.edge start :=
      List.takeWhile_eq_self_iff.mpr fun c hc => (hopen.admits c hc).knows
    have hcolumn : matrix.columns[n]? = some n := by
      rw [h.columns_eq, List.getElem?_range hlt]
    have hstate : placed.state.result.commits = _ :=
      congrArg (fun p : Progress => p.result.commits) (hstate.trans hend)
    rw [hstate, hall, hsame.commits, seatsFrom_of_some hrow hcolumn hstart, hedge]
    simp [blockCommits, seatsFrom, Assignment.cellsFrom, hg]

theorem Provided.forEach_placeGroup (h : Provided board sec matrix a size) (gs : List PinGroup)
    (hp : p.Holds none .all board sec matrix a size n)
    (hgs : ∀ (k : Nat) (g : PinGroup), gs[k]? = some g → sec.groups[n + k]? = some g) :
    let placed := Outcome.forEach (GroupPass.placeGroup matrix a) p (gs.zipIdx n)
    placed.answer = .ok () ∧ placed.state.result.commits =
      p.result.commits ++ blockCommits sec (seatsFrom matrix a n gs.length) := by
  induction gs generalizing p n with
  | nil => exact ⟨rfl, (List.append_nil _).symm⟩
  | cons g gs ih =>
    obtain ⟨hanswer, hnext, hcommits⟩ := h.placeGroup hp (hgs 0 g rfl)
    have hrest : ∀ (k : Nat) (g : PinGroup), gs[k]? = some g → sec.groups[n + 1 + k]? = some g := by
      intro k other hother
      rw [show n + 1 + k = n + (k + 1) by omega]
      exact hgs (k + 1) other hother
    obtain ⟨hok, hall⟩ := ih hnext hrest
    rw [List.zipIdx_cons, Outcome.forEach_cons, Outcome.andThen_of_ok hanswer]
    refine ⟨hok, hall.trans ?_⟩
    rw [hcommits, List.append_assoc, List.length_cons, seatsFrom_succ matrix a n gs.length,
      blockCommits_append]

/-- A pass over a matrix with a row for every group that the assignment knows lays these groups
out, and no others. -/
theorem Provided.run_eq (h : Provided board sec matrix a size)
    (hempty : matrix.empty → seats matrix a = []) (blockSize : Int) :
    let passed := run board sec matrix a blockSize
    ∃ result room, passed.answer = .ok result ∧ result.commits = blockCommits sec (seats matrix a) ∧
      board.Open (blockCommits sec (seats matrix a)) ∧
      passed.state = (board.takeAll (blockCommits sec (seats matrix a)), { sec with room }) := by
  obtain ⟨cs, room, hmoves, hstate, hcommits⟩ :=
    run_moves h.blocks none .all a blockSize fun g hg => ⟨trivial, h.size_le g hg⟩
  suffices hrun : ∃ result, (run board sec matrix a blockSize).answer = .ok result ∧
      result.commits = blockCommits sec (seats matrix a) by
    obtain ⟨result, hanswer, hblocks⟩ := hrun
    obtain rfl : cs = blockCommits sec (seats matrix a) :=
      (hcommits result hanswer).symm.trans hblocks
    exact ⟨result, room, hanswer, hblocks, hmoves.isOpen, hstate⟩
  cases hcase : matrix.empty with
  | true =>
    rw [hempty hcase]
    exact ⟨{}, by rw [run, if_pos hcase]; rfl, rfl⟩
  | false =>
    have hstart : Progress.Holds none .all board sec matrix a size 0 { board, sec } := by
      refine ⟨.nil board, rfl, ⟨sec.room, rfl⟩, fun col row start _ _ hrow k hk => ?_⟩
      exact h.blocks.free start (List.mem_of_getElem? hrow) k hk
    obtain ⟨hok, hall⟩ := h.forEach_placeGroup sec.groups hstart fun k g hg => by
      rwa [Nat.zero_add]
    have hlength : matrix.columns.length = sec.groups.length := by
      rw [h.columns_eq, List.length_range]
    have hanswer : (run board sec matrix a blockSize).answer = .ok (Outcome.forEach
        (GroupPass.placeGroup matrix a) { board, sec } sec.groups.zipIdx).state.result := by
      simp only [run, hcase, Bool.false_eq_true, if_false, hok]
    refine ⟨_, hanswer, ?_⟩
    rw [seats, hlength]
    exact hall

end GroupPass

end PinRing
