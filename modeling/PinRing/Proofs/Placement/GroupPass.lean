import PinRing.Proofs.Board.Moves
import PinRing.Proofs.Cost.Matrix

/-! The group pass.  Whatever matrix and assignment it is given, it commits the groups along the
blocks of their rows and does not look whether the slots are taken.  Where the matrix is that of the
board as it stands, these commits are moves: blocks that wait for their group stay free while the
groups before it are put on theirs. -/

namespace PinRing

/-- One row is never the row of two columns. -/
theorem Assignment.col_eq_of_rowOf? {a : Assignment} {col col' row : Nat}
    (h : a.rowOf? col = some row) (h' : a.rowOf? col' = some row) : col = col' := by
  have hcol := getElem?_of_rowOf? h
  rw [getElem?_of_rowOf? h'] at hcol
  exact (Option.some.inj (Option.some.inj hcol)).symm

namespace GroupPass

open Board

variable {reflection : Option Reflection} {scope : Scope}
variable {board : Board} {sec : Section} {matrix : CostMatrix} {assignment : Assignment}
variable {p : Progress} {g : PinGroup} {cs : List Commit} {col start size n : Nat}

theorem commitMember_of_knows {c : Commit} (h : p.board.knows c) (hgroup : c.origin = .group) :
    ∃ room, commitMember p c = .done
      { board := p.board.take c
        sec := { p.sec with room }
        result := { p.result with commits := p.result.commits ++ [c] } } () := by
  obtain ⟨spot, hcommit⟩ := exists_commit_eq h
  refine ⟨if c.slot < p.sec.stop then p.sec.room - 1 else p.sec.room, ?_⟩
  rw [commitMember, hcommit, take, if_pos hgroup, hcommit]
  rfl

/-- Members are put on their slots, taken or not, up to the first for which there is no pin or no
slot. -/
theorem forEach_commitMember (p : Progress) (hgroup : ∀ c ∈ cs, c.origin = .group) :
    ∃ room, (Outcome.forEach commitMember p cs).state =
      { board := p.board.takeAll (cs.takeWhile p.board.knows)
        sec := { p.sec with room }
        result :=
          { p.result with commits := p.result.commits ++ cs.takeWhile p.board.knows } } := by
  induction cs generalizing p with
  | nil => exact ⟨p.sec.room, by simp [Outcome.done]⟩
  | cons c cs ih =>
    obtain ⟨hc, hcs⟩ := List.forall_mem_cons.mp hgroup
    rw [Outcome.forEach_cons, List.takeWhile_cons]
    cases hknows : p.board.knows c with
    | true =>
      obtain ⟨room, hstep⟩ := commitMember_of_knows hknows hc
      rw [hstep, Outcome.done_andThen]
      obtain ⟨room', hall⟩ := ih
        { board := p.board.take c
          sec := { p.sec with room }
          result := { p.result with commits := p.result.commits ++ [c] } } hcs
      refine ⟨room', hall.trans ?_⟩
      simp only [knows_take, takeAll_cons, if_true, List.append_assoc, List.singleton_append]
    | false =>
      -- The commit of a member that does not exist is a fault, which ends the loop.
      refine ⟨p.sec.room, ?_⟩
      rw [commitMember, commit_of_not_knows hknows]
      simp [Outcome.mapState, Outcome.stop, Outcome.andThen]

/-- A pass that has placed some groups of `sec` by moves on `board`, with the blocks of the columns
from `n` on still free. -/
structure Progress.Holds (reflection : Option Reflection) (scope : Scope)
    (board : Board) (sec : Section) (matrix : CostMatrix) (assignment : Assignment) (size n : Nat)
    (p : Progress) : Prop where
  moves : Moves reflection scope board p.result.commits
  board_eq : p.board = board.takeAll p.result.commits
  sec_eq : ∃ room, p.sec = { sec with room }
  pending : ∀ col row start, n ≤ col → assignment.rowOf? col = some row →
    matrix.rowSlots[row]? = some start → ∀ k < size, p.board.boundary.isAvailable (start + k)

/-- Only the diagnostics and the cost differ. -/
structure Progress.Same (p q : Progress) : Prop where
  board : q.board = p.board
  sec : q.sec = p.sec
  commits : q.result.commits = p.result.commits

theorem Progress.Holds.of_same {q : Progress}
    (h : p.Holds reflection scope board sec matrix assignment size n) (hsame : p.Same q) :
    q.Holds reflection scope board sec matrix assignment size n where
  moves := by
    rw [hsame.commits]
    exact h.moves
  board_eq := by rw [hsame.board, hsame.commits, h.board_eq]
  sec_eq := by
    rw [hsame.sec]
    exact h.sec_eq
  pending := by
    rw [hsame.board]
    exact h.pending

theorem Progress.Holds.later
    (h : p.Holds reflection scope board sec matrix assignment size n) {m : Nat} (hm : n ≤ m) :
    p.Holds reflection scope board sec matrix assignment size m :=
  { h with pending := fun col row start hcol => h.pending col row start (Nat.le_trans hm hcol) }

theorem same_warn (message subject : String) : p.Same (warn p message subject).state :=
  ⟨rfl, rfl, rfl⟩

/-- A group is left out, or laid out on the block of its row. -/
theorem placeGroup_cases (matrix : CostMatrix) (assignment : Assignment) (p : Progress)
    (g : PinGroup) (col : Nat) :
    p.Same (placeGroup matrix assignment p (g, col)).state ∨
      ∃ row start q, assignment.rowOf? col = some row ∧ matrix.rowSlots[row]? = some start ∧
        p.Same q ∧ (placeGroup matrix assignment p (g, col)).state =
          (Outcome.forEach commitMember q (layout g q.sec.edge start)).state := by
  simp only [placeGroup]
  cases hrow : assignment.rowOf? col with
  | none => exact .inl (same_warn _ _)
  | some row =>
    simp only
    cases hslot : matrix.rowSlot row with
    | error f => exact .inl ⟨rfl, rfl, rfl⟩
    | ok start =>
      have hstart := CostMatrix.rowSlot_eq_ok.mp hslot
      rw [Outcome.lift_ok, Outcome.done_andThen]
      cases hcell : matrix.cell row col with
      | error f => exact .inl ⟨rfl, rfl, rfl⟩
      | ok cost =>
        rw [Outcome.lift_ok, Outcome.done_andThen]
        cases cost with
        | finite v =>
          refine .inr ⟨row, start,
            { p with result := { p.result with cost := p.result.cost + v } }, rfl, hstart,
            ⟨rfl, rfl, rfl⟩, ?_⟩
          rw [Outcome.done_andThen]
        | infeasible =>
          exact .inr ⟨row, start, _, rfl, hstart, same_warn _ _, rfl⟩

/-- The slots of a group laid out on a block lie in the block. -/
theorem mem_layout {edge : Edge} {c : Commit} (hc : c ∈ layout g edge start) :
    c.origin = .group ∧ ∃ k < g.size, c.slot = start + k := by
  obtain ⟨⟨pin, k⟩, hmem, rfl⟩ := List.mem_map.mp hc
  have hk : k < g.members.length := List.snd_lt_of_mem_zipIdx hmem
  have hsize : g.size = g.members.length := rfl
  refine ⟨rfl, if g.ordered && runsBackward edge then g.size - 1 - k else k, ?_, rfl⟩
  split <;> omega

/-! ### What a pass commits, whatever it is given -/

/-- The commits of the group of a column along the block of its row, if it has one. -/
def columnLayout (matrix : CostMatrix) (assignment : Assignment) (edge : Edge)
    (column : PinGroup × Nat) : List Commit :=
  ((assignment.rowOf? column.2).bind (matrix.rowSlots[·]?)).elim [] (layout column.1 edge)

/-- The commits of all groups of a section that have a row. -/
def fullLayout (sec : Section) (matrix : CostMatrix) (assignment : Assignment) : List Commit :=
  sec.groups.zipIdx.flatMap (columnLayout matrix assignment sec.edge)

/-- The commits `cs` lead from one state of a pass to another. -/
structure Progress.Adds (p q : Progress) (cs : List Commit) : Prop where
  board_eq : q.board = p.board.takeAll cs
  journal_eq : q.board.journal = p.board.journal ++ cs
  sec_eq : ∃ room, q.sec = { p.sec with room }

theorem Progress.Same.adds {q : Progress} (h : p.Same q) : p.Adds q [] where
  board_eq := h.board
  journal_eq := by rw [h.board, List.append_nil]
  sec_eq := ⟨p.sec.room, h.sec⟩

theorem Progress.Adds.trans {q r : Progress} {ds : List Commit} (h : p.Adds q cs)
    (h' : q.Adds r ds) : p.Adds r (cs ++ ds) where
  board_eq := by rw [h'.board_eq, h.board_eq, takeAll_append]
  journal_eq := by rw [h'.journal_eq, h.journal_eq, List.append_assoc]
  sec_eq := by
    obtain ⟨room, hsec⟩ := h.sec_eq
    obtain ⟨room', hsec'⟩ := h'.sec_eq
    exact ⟨room', by rw [hsec', hsec]⟩

theorem forEach_commitMember_adds (p : Progress) (hgroup : ∀ c ∈ cs, c.origin = .group) :
    p.Adds (Outcome.forEach commitMember p cs).state (cs.takeWhile p.board.knows) := by
  obtain ⟨room, hend⟩ := forEach_commitMember p hgroup
  rw [hend]
  constructor
  · rfl
  · exact journal_takeAll fun c hc => List.mem_takeWhile_imp hc
  · exact ⟨room, rfl⟩

/-- A group commits some of its members along its block, and commits nothing without a block. -/
theorem placeGroup_adds (matrix : CostMatrix) (assignment : Assignment) (p : Progress)
    (column : PinGroup × Nat) :
    ∃ cs, cs.Sublist (columnLayout matrix assignment p.sec.edge column) ∧
      p.Adds (placeGroup matrix assignment p column).state cs := by
  obtain ⟨g, col⟩ := column
  rcases placeGroup_cases matrix assignment p g col with
    hsame | ⟨row, start, q, hrow, hstart, hsame, hstate⟩
  · exact ⟨[], List.nil_sublist _, hsame.adds⟩
  have hlayout : columnLayout matrix assignment p.sec.edge (g, col) =
      layout g q.sec.edge start := by
    rw [hsame.sec, columnLayout, hrow, Option.bind_some, hstart, Option.elim_some]
  have hgroup : ∀ c ∈ layout g q.sec.edge start, c.origin = .group := fun c hc =>
    (mem_layout hc).1
  rw [hlayout, hstate]
  exact ⟨_, List.takeWhile_sublist q.board.knows,
    hsame.adds.trans (forEach_commitMember_adds q hgroup)⟩

theorem forEach_placeGroup_adds (matrix : CostMatrix) (assignment : Assignment) (p : Progress)
    (columns : List (PinGroup × Nat)) :
    ∃ cs, cs.Sublist (columns.flatMap (columnLayout matrix assignment p.sec.edge)) ∧
      p.Adds (Outcome.forEach (placeGroup matrix assignment) p columns).state cs := by
  induction columns generalizing p with
  | nil => exact ⟨[], .slnil, Progress.Same.adds ⟨rfl, rfl, rfl⟩⟩
  | cons column columns ih =>
    obtain ⟨cs, hcs, hadds⟩ := placeGroup_adds matrix assignment p column
    rw [Outcome.forEach_cons, List.flatMap_cons]
    cases ha : (placeGroup matrix assignment p column).answer with
    | error f =>
      rw [Outcome.andThen_of_error ha]
      exact ⟨cs, hcs.trans (List.sublist_append_left _ _), hadds⟩
    | ok _ =>
      obtain ⟨ds, hds, hrest⟩ := ih (placeGroup matrix assignment p column).state
      obtain ⟨room, hsec⟩ := hadds.sec_eq
      rw [hsec] at hds
      rw [Outcome.andThen_of_ok ha]
      exact ⟨cs ++ ds, hcs.append hds, hadds.trans hrest⟩

/-- A pass makes some of the commits of its layout, in order, taken slots or not. -/
theorem run_adds (board : Board) (sec : Section) (matrix : CostMatrix) (assignment : Assignment)
    (blockSize : Int) :
    ∃ cs room, cs.Sublist (fullLayout sec matrix assignment) ∧
      (run board sec matrix assignment blockSize).state = (board.takeAll cs, { sec with room }) ∧
      (board.takeAll cs).journal = board.journal ++ cs := by
  unfold run
  split
  · exact ⟨[], sec.room, List.nil_sublist _, rfl, (List.append_nil _).symm⟩
  · obtain ⟨cs, hcs, hadds⟩ :=
      forEach_placeGroup_adds matrix assignment { board, sec } sec.groups.zipIdx
    obtain ⟨room, hsec⟩ := hadds.sec_eq
    refine ⟨cs, room, hcs, ?_, hadds.board_eq ▸ hadds.journal_eq⟩
    simp only
    split <;> rw [hadds.board_eq, hsec]

theorem mem_columnLayout {edge : Edge} {c : Commit}
    (h : c ∈ columnLayout matrix assignment edge (g, col)) :
    ∃ row start, assignment.rowOf? col = some row ∧ matrix.rowSlots[row]? = some start ∧
      c ∈ layout g edge start := by
  rw [columnLayout] at h
  cases hrow : assignment.rowOf? col with
  | none =>
    rw [hrow] at h
    cases h
  | some row =>
    rw [hrow, Option.bind_some] at h
    cases hstart : matrix.rowSlots[row]? with
    | none =>
      rw [hstart] at h
      cases h
    | some start =>
      rw [hstart] at h
      exact ⟨row, start, rfl, hstart, h⟩

/-- In blocks that hold every group, all commits go to different slots, which were available when
the blocks were found. -/
theorem fullLayout_apart {b : Boundary} (hblocks : Section.Blocks b size matrix.rowSlots)
    (hsize : ∀ g ∈ sec.groups, g.size ≤ size) (assignment : Assignment) :
    ((fullLayout sec matrix assignment).map (·.slot)).Nodup ∧
      ∀ c ∈ fullLayout sec matrix assignment, b.isAvailable c.slot := by
  have hmem : ∀ column ∈ sec.groups.zipIdx,
      ∀ c ∈ columnLayout matrix assignment sec.edge column, ∃ row start k,
        assignment.rowOf? column.2 = some row ∧ matrix.rowSlots[row]? = some start ∧ k < size ∧
          c.slot = start + k := by
    rintro ⟨g, col⟩ hcolumn c hc
    obtain ⟨row, start, hrow, hstart, hc⟩ := mem_columnLayout hc
    obtain ⟨-, k, hk, hslot⟩ := mem_layout hc
    have := hsize g (List.fst_mem_of_mem_zipIdx hcolumn)
    exact ⟨row, start, k, hrow, hstart, by omega, hslot⟩
  constructor
  · rw [fullLayout, List.map_flatMap, List.nodup_flatMap]
    constructor
    · rintro ⟨g, col⟩ -
      rw [columnLayout]
      cases (assignment.rowOf? col).bind (matrix.rowSlots[·]?) with
      | none => exact .nil
      | some start => exact layout_slots_nodup g sec.edge start
    · have hcols : (sec.groups.zipIdx.map Prod.snd).Nodup := by
        rw [List.zipIdx_map_snd]
        exact List.nodup_range'
      refine (List.pairwise_map.mp hcols).imp_of_mem fun {column other} hcolumn hother hne => ?_
      intro slot hslot hslot'
      obtain ⟨c, hc, rfl⟩ := List.mem_map.mp hslot
      obtain ⟨d, hd, heq⟩ := List.mem_map.mp hslot'
      obtain ⟨row, start, k, hrow, hstart, hk, hc⟩ := hmem column hcolumn c hc
      obtain ⟨row', start', k', hrow', hstart', hk', hd⟩ := hmem other hother d hd
      have hrows : row ≠ row' := by
        rintro rfl
        exact hne (Assignment.col_eq_of_rowOf? hrow hrow')
      exact hblocks.disjoint hrows hstart hstart' hk hk' (by rw [← hc, ← hd, heq])
  · intro c hc
    obtain ⟨column, hcolumn, hc⟩ := List.mem_flatMap.mp hc
    obtain ⟨row, start, k, -, hstart, hk, hslot⟩ := hmem column hcolumn c hc
    rw [hslot]
    exact hblocks.free start (List.mem_of_getElem? hstart) k hk

/-! ### Passes that make moves -/

variable (hblocks : Section.Blocks board.boundary size matrix.rowSlots)

include hblocks

/-- One group keeps the pass going. -/
theorem Progress.Holds.placeGroup
    (h : p.Holds reflection scope board sec matrix assignment size col)
    (hg : scope.groups g) (hsize : g.size ≤ size) :
    (GroupPass.placeGroup matrix assignment p (g, col)).state.Holds reflection scope board sec
      matrix assignment size (col + 1) := by
  rcases placeGroup_cases matrix assignment p g col with
    hsame | ⟨row, start, q, hrow, hstart, hsame, hstate⟩
  · exact (h.of_same hsame).later (Nat.le_succ col)
  have hq := h.of_same hsame
  have hfree : ∀ c ∈ layout g q.sec.edge start, q.board.boundary.isAvailable c.slot := by
    intro c hc
    obtain ⟨-, k, hk, hslot⟩ := mem_layout hc
    rw [hslot]
    exact hq.pending col row start (Nat.le_refl col) hrow hstart k (by omega)
  have hmove : Move reflection scope q.board
      ((layout g q.sec.edge start).takeWhile (·.pin < q.board.pins.size)) := by
    exact .group hg hfree
  have hgroup : ∀ c ∈ layout g q.sec.edge start, c.origin = .group := fun c hc =>
    (mem_layout hc).1
  obtain ⟨room, hend⟩ := forEach_commitMember q hgroup
  rw [takeWhile_knows hfree] at hend
  rw [hstate, hend]
  constructor
  · exact hq.moves.append (hq.board_eq ▸ .one hmove)
  · rw [takeAll_append, ← hq.board_eq]
  · obtain ⟨room', hsec⟩ := hq.sec_eq
    exact ⟨room, by rw [hsec]⟩
  · intro col' row' start' hcol hrow' hstart' k hk
    refine (hmove.isOpen.isAvailable _).mpr
      ⟨hq.pending col' row' start' (by omega) hrow' hstart' k hk, fun hmem => ?_⟩
    obtain ⟨c, hc, hslot⟩ := List.mem_map.mp hmem
    obtain ⟨-, j, hj, hslot'⟩ := mem_layout (List.takeWhile_sublist _ |>.subset hc)
    have hne : row ≠ row' := by
      rintro rfl
      have := Assignment.col_eq_of_rowOf? hrow hrow'
      omega
    exact hblocks.disjoint hne hstart hstart' (by omega) hk (hslot' ▸ hslot)

theorem Progress.Holds.forEach_placeGroup {gs : List PinGroup}
    (hgs : ∀ g ∈ gs, scope.groups g ∧ g.size ≤ size)
    (h : p.Holds reflection scope board sec matrix assignment size n) :
    (Outcome.forEach (GroupPass.placeGroup matrix assignment) p (gs.zipIdx n)).state.Holds
      reflection scope board sec matrix assignment size (n + gs.length) := by
  induction gs generalizing p n with
  | nil => exact h
  | cons g gs ih =>
    obtain ⟨⟨hg, hsize⟩, hrest⟩ := List.forall_mem_cons.mp hgs
    have hfirst := h.placeGroup hblocks hg hsize
    rw [List.zipIdx_cons, Outcome.forEach_cons, List.length_cons]
    cases ha : (GroupPass.placeGroup matrix assignment p (g, n)).answer with
    | error f =>
      rw [Outcome.andThen_of_error ha]
      exact hfirst.later (by omega)
    | ok _ =>
      rw [Outcome.andThen_of_ok ha, show n + (gs.length + 1) = n + 1 + gs.length by omega]
      exact ih hrest hfirst

/-- A group pass makes moves, and its result lists their commits. -/
theorem run_moves (reflection : Option Reflection) (scope : Scope)
    (assignment : Assignment) (blockSize : Int)
    (hgs : ∀ g ∈ sec.groups, scope.groups g ∧ g.size ≤ size) :
    ∃ cs room, Moves reflection scope board cs ∧
      (run board sec matrix assignment blockSize).state =
        (board.takeAll cs, { sec with room }) ∧
      ∀ result, (run board sec matrix assignment blockSize).answer = .ok result →
        result.commits = cs := by
  unfold run
  split
  · refine ⟨[], sec.room, .nil board, rfl, fun result hresult => ?_⟩
    cases hresult
    rfl
  · have hstart : Progress.Holds reflection scope board sec matrix assignment size 0
        { board, sec } := by
      refine ⟨.nil board, rfl, ⟨sec.room, rfl⟩, fun col row start _ _ hrow k hk => ?_⟩
      exact hblocks.free start (List.mem_of_getElem? hrow) k hk
    have hdone := hstart.forEach_placeGroup hblocks hgs
    obtain ⟨room, hsec⟩ := hdone.sec_eq
    refine ⟨_, room, hdone.moves, ?_, ?_⟩
    · simp only
      split <;> rw [← hdone.board_eq, ← hsec]
    · intro result hresult
      simp only at hresult
      split at hresult
      · cases hresult
      · cases hresult
        rfl

end GroupPass

end PinRing
