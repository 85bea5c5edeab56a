import PinRing.Proofs.Board.Agree
import PinRing.Proofs.Placement.Completion
import PinRing.Proofs.Placement.Lanes

/-! What the tasks of a section read and write.  A task goes through, and commits the same pins to
the same slots, on every board that looks the same in the slots, pins and groups of its section. -/

namespace PinRing

open Board

/-- The slots of a section, with its pins and the members of its groups. -/
def Section.footprint (s : Section) : Footprint where
  slots := s.Has
  pins i := i ∈ s.pins ∨ ∃ g ∈ s.groups, i ∈ g.members

/-- A task that goes through on every board that agrees with `b` on the footprint: it leaves the
lane `next` and makes the commits `cs`, which stay in the footprint. -/
structure Does (f : Footprint) (b : Board) (lane : Lane) (task : Task) (next : Lane)
    (cs : List Commit) : Prop where
  isOpen : b.Open cs
  covers : f.Covers cs
  performs : ∀ b', Agree f b b' → (Lane.perform (b', lane) task).answer = .ok () ∧
    (Lane.perform (b', lane) task).state = (b'.takeAll cs, next)

/-- Tasks of one lane, each done on the board that those before it leave. -/
inductive Plays (f : Footprint) : Board → Lane → List Task → Lane → List Commit → Prop
  | nil (b : Board) (lane : Lane) : Plays f b lane [] lane []
  | cons {b : Board} {lane next last : Lane} {task : Task} {tasks : List Task}
      {cs ds : List Commit} (head : Does f b lane task next cs)
      (tail : Plays f (b.takeAll cs) next tasks last ds) :
      Plays f b lane (task :: tasks) last (cs ++ ds)

section Agreeing

variable {f : Footprint} {b b' : Board} {lane next last : Lane} {task : Task} {tasks : List Task}
variable {cs : List Commit}

theorem Does.congr (h : Does f b lane task next cs) (hagree : Agree f b b') :
    Does f b' lane task next cs where
  isOpen := (hagree.takeAll h.covers h.isOpen).1
  covers := h.covers
  performs _ hb := h.performs _ (hagree.trans hb)

theorem Plays.congr (h : Plays f b lane tasks last cs) (hagree : Agree f b b') :
    Plays f b' lane tasks last cs := by
  induction h generalizing b' with
  | nil b lane => exact .nil b' lane
  | cons head _ ih =>
    exact .cons (head.congr hagree) (ih (hagree.takeAll head.covers head.isOpen).2)

theorem Plays.isOpen (h : Plays f b lane tasks last cs) : b.Open cs ∧ f.Covers cs := by
  induction h with
  | nil b lane => exact ⟨.nil b, fun _ hc => nomatch hc⟩
  | cons head _ ih =>
    exact ⟨Open.append_iff.mpr ⟨head.isOpen, ih.1⟩,
      List.forall_mem_append.mpr ⟨head.covers, ih.2⟩⟩

theorem Plays.of_nil (h : Plays f b lane [] last cs) : lane = last ∧ cs = [] := by
  cases h
  exact ⟨rfl, rfl⟩

theorem Plays.of_cons (h : Plays f b lane (task :: tasks) last cs) :
    ∃ next ds es, cs = ds ++ es ∧ Does f b lane task next ds ∧
      Plays f (b.takeAll ds) next tasks last es := by
  cases h with
  | cons head tail => exact ⟨_, _, _, rfl, head, tail⟩

theorem Plays.append {later : List Task} {ds : List Commit} (h : Plays f b lane tasks next cs)
    (h' : Plays f (b.takeAll cs) next later last ds) :
    Plays f b lane (tasks ++ later) last (cs ++ ds) := by
  induction h with
  | nil b lane => exact h'
  | cons head _ ih =>
    rw [takeAll_append] at h'
    rw [List.append_assoc]
    exact .cons head (ih h')

end Agreeing

/-! ### The pin pass -/

namespace PinPass

variable {f : Footprint} {board other : Board} {matrix : CostMatrix} {a : Assignment} {mode : Mode}
variable {result : PassResult}

/-- Without reflections a column looks at its pin and at the slot of its row. -/
theorem planColumn_congr (hmode : mode.mirrored = false) (hagree : Agree f board other)
    (hrows : ∀ slot ∈ matrix.rowSlots, f.slots slot) (plan : Plan) {col pin : Nat}
    (hpin : f.pins pin) :
    planColumn other matrix a mode plan (col, pin) =
      planColumn board matrix a mode plan (col, pin) := by
  have hat : other.pins.pin pin = board.pins.pin pin := by
    rw [PinTable.pin, PinTable.pin, hagree.pins pin hpin]
  simp only [planColumn, hat, hagree.frame.partner, hmode]
  cases hp : board.pins.pin pin with
  | error f => rfl
  | ok p =>
  cases hrow : a.rowOf? col with
  | none => rfl
  | some row =>
  cases hslot : matrix.rowSlot row with
  | error f => simp only [hslot, Outcome.lift_error, Outcome.stop_andThen]
  | ok slot =>
    have hmem := List.mem_of_getElem? (CostMatrix.rowSlot_eq_ok.mp hslot)
    have hsame : other.boundary.slot slot = board.boundary.slot slot := by
      rw [Boundary.slot, Boundary.slot, hagree.slots slot (hrows slot hmem)]
    simp only [hslot, hsame, Outcome.lift_ok, Outcome.done_andThen]

theorem plan_congr (hmode : mode.mirrored = false) (hagree : Agree f board other)
    (hrows : ∀ slot ∈ matrix.rowSlots, f.slots slot)
    (hcolumns : ∀ pin ∈ matrix.columns, f.pins pin) :
    plan other matrix a mode = plan board matrix a mode := by
  refine Outcome.forEach_congr fun plan (col, pin) hmem => ?_
  obtain ⟨⟨pin', col'⟩, hcolumn, heq⟩ := List.mem_map.mp hmem
  obtain ⟨rfl, rfl⟩ := Prod.mk.inj heq
  exact planColumn_congr hmode hagree hrows plan (hcolumns _ (List.fst_mem_of_mem_zipIdx hcolumn))

/-- A pass that goes through on one board makes the same commits on every board that looks the
same to it. -/
theorem run_local (hmode : mode.mirrored = false) (hagree : Agree f board other)
    (hrows : ∀ slot ∈ matrix.rowSlots, f.slots slot) (hcolumns : ∀ pin ∈ matrix.columns, f.pins pin)
    (h : (run board matrix a mode).answer = .ok result) :
    (run other matrix a mode).answer = .ok result ∧
      (run other matrix a mode).state = other.takeAll result.commits := by
  have hall : ∀ pin ∈ matrix.columns, Scope.all.pins mode.origin pin := fun _ _ => trivial
  have hanswer : (run other matrix a mode).answer = .ok result := by
    have hplan : Plan.Holds .all board mode _ := plan_holds board a hall
    have hplan' : Plan.Holds .all other mode _ := plan_holds other a hall
    rw [← h]
    simp only [run, plan_congr hmode hagree hrows hcolumns] at hplan' ⊢
    split
    · rfl
    · split
      · rfl
      · simp only [carryOut, hplan.forEach_commit, hplan'.forEach_commit, Outcome.done_andThen]
  obtain ⟨cs, -, hstate, hcommits⟩ := run_moves other a mode hall
  rw [hcommits result hanswer]
  exact ⟨hanswer, hstate⟩

end PinPass

/-! ### The group pass -/

namespace GroupPass

variable {board other : Board} {sec : Section} {matrix : CostMatrix} {a : Assignment}
variable {p q : Progress}

/-- The passes are at the same point, on boards that may differ. -/
structure Progress.Alike (p q : Progress) : Prop where
  sec_eq : q.sec = p.sec
  result_eq : q.result = p.result

theorem Progress.Alike.commitMember (h : p.Alike q) (c : Commit)
    (hp : (GroupPass.commitMember p c).answer = .ok ())
    (hq : (GroupPass.commitMember q c).answer = .ok ()) :
    (GroupPass.commitMember p c).state.Alike (GroupPass.commitMember q c).state := by
  obtain ⟨board, sec, result⟩ := p
  obtain ⟨other, _, _⟩ := q
  obtain ⟨rfl, rfl⟩ := h
  obtain ⟨_, -, -, hp⟩ := Outcome.exists_of_andThen_eq_ok hp
  obtain ⟨_, -, -, hq⟩ := Outcome.exists_of_andThen_eq_ok hq
  rw [GroupPass.commitMember, GroupPass.commitMember, hp, hq]
  exact ⟨rfl, rfl⟩

theorem Progress.Alike.warn (h : p.Alike q) (message subject : String) :
    (GroupPass.warn p message subject).state.Alike (GroupPass.warn q message subject).state :=
  ⟨h.sec_eq, congrArg (·.diagnose ⟨.warning, message, subject⟩) h.result_eq⟩

theorem Progress.Alike.placeGroup (h : p.Alike q) (column : PinGroup × Nat)
    (hp : (GroupPass.placeGroup matrix a p column).answer = .ok ())
    (hq : (GroupPass.placeGroup matrix a q column).answer = .ok ()) :
    (GroupPass.placeGroup matrix a p column).state.Alike
      (GroupPass.placeGroup matrix a q column).state := by
  obtain ⟨g, col⟩ := column
  have hlaid : ∀ {p q : Progress} {start : Nat}, p.Alike q →
      (Outcome.forEach GroupPass.commitMember p (layout g p.sec.edge start)).answer = .ok () →
      (Outcome.forEach GroupPass.commitMember q (layout g q.sec.edge start)).answer = .ok () →
      (Outcome.forEach GroupPass.commitMember p (layout g p.sec.edge start)).state.Alike
        (Outcome.forEach GroupPass.commitMember q (layout g q.sec.edge start)).state := by
    intro p q start h hp hq
    rw [h.sec_eq] at hq ⊢
    exact Outcome.forEach_related (fun _ _ c _ h => h.commitMember c) hp hq h
  simp only [GroupPass.placeGroup] at hp hq ⊢
  cases hrow : a.rowOf? col with
  | none => exact h.warn _ _
  | some row =>
  simp only [hrow] at hp hq ⊢
  cases hstart : matrix.rowSlot row with
  | error f => exact h
  | ok start =>
  simp only [hstart, Outcome.lift_ok, Outcome.done_andThen] at hp hq ⊢
  cases hcell : matrix.cell row col with
  | error f => exact h
  | ok cost =>
  simp only [hcell, Outcome.lift_ok, Outcome.done_andThen] at hp hq ⊢
  cases cost with
  | finite v =>
    have hcost : { q.result with cost := q.result.cost + v } =
        { p.result with cost := p.result.cost + v } := by rw [h.result_eq]
    exact hlaid ⟨h.sec_eq, hcost⟩ hp hq
  | infeasible => exact hlaid (h.warn _ _) hp hq

/-- Where a pass goes through, its result and the section it leaves do not depend on the board. -/
theorem run_alike {blockSize : Int} {result result' : PassResult}
    (h : (run board sec matrix a blockSize).answer = .ok result)
    (h' : (run other sec matrix a blockSize).answer = .ok result') :
    result' = result ∧
      (run other sec matrix a blockSize).state.2 = (run board sec matrix a blockSize).state.2 := by
  unfold run at h h' ⊢
  split
  · rename_i hempty
    rw [if_pos hempty] at h h'
    cases h
    cases h'
    exact ⟨rfl, rfl⟩
  · rename_i hempty
    rw [if_neg hempty] at h h'
    simp only at h h' ⊢
    cases hdone :
      (Outcome.forEach (placeGroup matrix a) { board, sec } sec.groups.zipIdx).answer with
    | error f => simp only [hdone] at h; cases h
    | ok _ =>
    cases hdone' :
      (Outcome.forEach (placeGroup matrix a) { board := other, sec } sec.groups.zipIdx).answer with
    | error f => simp only [hdone'] at h'; cases h'
    | ok _ =>
    have halike : Progress.Alike _ _ :=
      Outcome.forEach_related (fun _ _ column _ h => h.placeGroup column) hdone hdone' ⟨rfl, rfl⟩
    simp only [hdone] at h
    simp only [hdone'] at h'
    cases h
    cases h'
    exact ⟨halike.result_eq, halike.sec_eq⟩

end GroupPass

/-! ### The tasks of a section -/

namespace Matching

variable {m : Matching} {board other : Board} {a : Assignment}

theorem openPins_congr (h : Agree m.sec.footprint board other) :
    m.openPins other = m.openPins board := by
  refine List.filter_congr fun i hi => ?_
  simp only [h.pins i (.inl hi), PinTable.isMirrored, h.frame.mirrors]

theorem pinPrice_congr (h : Frame board other) : m.pinPrice other = m.pinPrice board := by
  funext pin slot
  rw [pinPrice, pinPrice, h.posOf?]

theorem starts_congr (h : Agree m.sec.footprint board other) :
    m.starts other = m.starts board := by
  refine List.filter_congr fun start hstart => ?_
  obtain ⟨-, hfirst, hstop⟩ := Section.blockStarts_bounds hstart
  rw [Bool.eq_iff_iff, List.all_eq_true, List.all_eq_true]
  refine forall₂_congr fun i hi => ?_
  have := List.mem_range'_1.mp hi
  have hhas : m.sec.Has i := ⟨by omega, by omega⟩
  rw [h.isAvailable hhas]

theorem Placeable.findPins_congr (h : m.Placeable board)
    (hagree : Agree m.sec.footprint board other) :
    m.findPins other false = m.findPins board false := by
  have h' := h.frame hagree.frame
  have hmatrix := pinMatrix_openPins h.pins_lt fun pin _ slot _ s hs => h.pinPrice_eq pin hs
  have hmatrix' := pinMatrix_openPins h'.pins_lt fun pin _ slot _ s hs => h'.pinPrice_eq pin hs
  have hslots : m.openSlots other = m.openSlots board :=
    openSlots_congr hagree.frame.size_boundary fun i hi => hagree.isAvailable hi
  rw [openPins_congr hagree, hslots, pinPrice_congr hagree.frame] at hmatrix'
  simp only [Matching.findPins, Bool.not_false, hmatrix, hmatrix']

/-- The pins that are matched on a board are committed alike wherever the section looks the same. -/
theorem Placeable.commitPins_local (h : m.Placeable board) :
    ∃ matrix assignment result, (m.findPins board false).answer = .ok () ∧
      (m.findPins board false).state = { m with matrix, assignment } ∧
      board.Open result.commits ∧ m.sec.footprint.Covers result.commits ∧
      ∀ other, Agree m.sec.footprint board other →
        let committed := Matching.commitPins { m with matrix, assignment } other false
        committed.answer = .ok result ∧ committed.state = other.takeAll result.commits := by
  obtain ⟨hfound, ps, hfills, -⟩ := commitPins_fills h.pins_nodup h.pins_lt
    fun pin _ slot _ s hs => h.pinPrice_eq pin hs
  obtain ⟨result, hanswer, hcommits, -⟩ := hfills.answer
  obtain ⟨matrix, assignment, hmatrix, -, hm⟩ := adopt_ok hfound
  have hm : (m.findPins board false).state = { m with matrix, assignment } := hm
  refine ⟨matrix, assignment, result, hfound, hm, ?_, ?_, fun other hagree => ?_⟩
  · rw [hcommits]
    exact open_singles hfills.placement
  · rw [hcommits]
    intro c hc
    obtain ⟨p, hp, rfl⟩ := List.mem_map.mp hc
    have hslot := List.mem_of_mem_filter (hfills.placement.slot_mem p hp)
    obtain ⟨hfirst, hstop, -⟩ := Boundary.mem_free.mp hslot
    exact ⟨⟨hfirst, hstop⟩, .inl (List.mem_of_mem_filter (hfills.placement.pin_mem p hp))⟩
  · rw [hm, (commitPins_eq _ board false).2] at hanswer
    have hrows : ∀ slot ∈ matrix.rowSlots, m.sec.footprint.slots slot := by
      intro slot hslot
      obtain ⟨hfirst, hstop, -⟩ := Section.rowSlots_of_pinMatrix hmatrix slot hslot
      exact ⟨hfirst, hstop⟩
    have hcolumns : ∀ pin ∈ matrix.columns, m.sec.footprint.pins pin := fun pin hpin =>
      .inl (eligible_columns hmatrix pin hpin).1
    obtain ⟨hstate', hanswer'⟩ := commitPins_eq { m with matrix, assignment } other false
    intro committed
    rw [hstate', hanswer']
    exact PinPass.run_local rfl hagree hrows hcolumns hanswer

theorem groupsOn_congr (h : Agree m.sec.footprint board other) :
    m.sec.groupsOn other.boundary m.model m.blockSize (m.starts other) =
      m.sec.groupsOn board.boundary m.model m.blockSize (m.starts board) := by
  rw [Section.groupsOn, Section.groupsOn, Section.blockPrice_congr h.frame, starts_congr h]

theorem Solves.congr (h : m.Solves board a) (hagree : Agree m.sec.footprint board other) :
    m.Solves other a := by
  rw [Solves, Section.blockPrice_congr hagree.frame, starts_congr hagree]
  exact h

theorem Solves.covers (h : m.Solves board a) (hw : m.Within board) :
    m.sec.footprint.Covers (GroupPass.blockCommits m.sec (m.blocks board a)) := by
  intro c hc
  refine ⟨h.has_of_mem hw hc, .inr ?_⟩
  obtain ⟨p, -, hc⟩ := List.mem_flatMap.mp hc
  cases hg : m.sec.groups[p.1]? with
  | none => rw [hg] at hc; cases hc
  | some g =>
    rw [hg] at hc
    have hpin := List.mem_map_of_mem (f := Commit.pin) hc
    rw [Option.elim_some, map_pin_layout] at hpin
    exact ⟨g, List.mem_of_getElem? hg, hpin⟩

/-- The groups that are matched on a board are committed alike wherever the section looks the
same. -/
theorem Placeable.commitGroups_local (h : m.Placeable board) (hne : m.sec.groups ≠ []) :
    ∃ matrix assignment result next,
      (∀ other, Agree m.sec.footprint board other → (m.findGroups other).answer = .ok () ∧
        (m.findGroups other).state = { m with matrix, assignment }) ∧
      board.Open result.commits ∧ m.sec.footprint.Covers result.commits ∧
      ∀ other, Agree m.sec.footprint board other →
        let committed := Matching.commitGroups { m with matrix, assignment } other
        committed.answer = .ok result ∧ committed.state = (next, other.takeAll result.commits) := by
  let matrix := m.sec.groupsOn board.boundary m.model m.blockSize (m.starts board)
  obtain ⟨a, ha⟩ := m.exists_solves board hne
  obtain ⟨result, room, hanswer, hcommits, hopen, hstate⟩ := ha.run h.within hne h.prices
  refine ⟨matrix, a, result,
    { m with sec := { m.sec with room }, matrix := {}, assignment := [], reserved := [] },
    fun other hagree => ?_, hcommits ▸ hopen, hcommits ▸ ha.covers h.within, fun other hagree => ?_⟩
  · have h' := h.frame hagree.frame
    have hmatrix := groupMatrix_eq h'.within hne h'.prices
    rw [groupsOn_congr hagree] at hmatrix
    exact adopt_of_ok m.sec.groupMatrixLog hmatrix ha.solved
  · have h' := h.frame hagree.frame
    obtain ⟨result', room', hanswer', hcommits', -, hstate'⟩ :=
      (ha.congr hagree).run h'.within hne h'.prices
    rw [groupsOn_congr hagree] at hanswer' hstate'
    obtain ⟨rfl, hsec⟩ := GroupPass.run_alike hanswer hanswer'
    obtain ⟨hpass, hend⟩ :=
      commitGroups_of_ok (m := { m with matrix, assignment := a }) hanswer'
    refine ⟨hpass, hend.trans ?_⟩
    simp only [matrix, hstate', hcommits'] at hsec ⊢
    rw [hstate] at hsec
    rw [hsec]

end Matching

/-! ### The tasks of a lane -/

namespace Matching

variable {lane : Lane} {board : Board}

/-- The tasks of a section over its pins. -/
theorem Placeable.plays_pins (h : lane.matching.Placeable board) :
    ∃ next cs, Plays lane.sec.footprint board lane (pinTasks lane.sec) next cs ∧
      next.sec = lane.sec ∧ next.matching.Placeable board := by
  obtain ⟨matrix, assignment, result, hfound, hstate, hopen, hcovers, hlocal⟩ :=
    h.commitPins_local
  let found : Lane := { lane with matching := { lane.matching with matrix, assignment } }
  have hfind : Does lane.sec.footprint board lane .findPins found [] := by
    refine ⟨.nil _, (fun _ hc => absurd hc List.not_mem_nil), fun other hagree => ?_⟩
    simp only [Lane.perform, h.findPins_congr hagree, Outcome.mapState, hstate]
    exact ⟨hfound, rfl⟩
  have hcommit : Does lane.sec.footprint board found .commitPins
      { found with pinResult := result } result.commits := by
    refine ⟨hopen, hcovers, fun other hagree => ?_⟩
    obtain ⟨hanswer, hstate⟩ := hlocal other hagree
    simp [Lane.perform, found, Outcome.mapState, Outcome.andThen, hanswer, hstate, Outcome.done]
  exact ⟨_, _, .cons hfind (.cons hcommit (.nil _ _)), rfl,
    h.worked matrix assignment lane.matching.reserved⟩

theorem Placeable.plays_groups (h : lane.matching.Placeable board) :
    ∃ next cs, Plays lane.sec.footprint board lane (groupTasks lane.sec) next cs := by
  by_cases hne : lane.matching.sec.groups = []
  · have htasks : groupTasks lane.sec = [] := by simp [groupTasks, Lane.sec, hne]
    rw [htasks]
    exact ⟨_, _, .nil _ _⟩
  · obtain ⟨matrix, assignment, result, next, hfound, hopen, hcovers, hlocal⟩ :=
      h.commitGroups_local hne
    have htasks : groupTasks lane.sec = [.findGroups, .commitGroups] := by
      simp [groupTasks, Lane.sec, hne]
    let found : Lane := { lane with matching := { lane.matching with matrix, assignment } }
    have hfind : Does lane.sec.footprint board lane .findGroups found [] := by
      refine ⟨.nil _, (fun _ hc => absurd hc List.not_mem_nil), fun other hagree => ?_⟩
      obtain ⟨hanswer, hstate⟩ := hfound other hagree
      simp only [Lane.perform, Outcome.mapState, hstate]
      exact ⟨hanswer, rfl⟩
    have hcommit : Does lane.sec.footprint board found .commitGroups
        { found with matching := next, groupResult := result } result.commits := by
      refine ⟨hopen, hcovers, fun other hagree => ?_⟩
      obtain ⟨hanswer, hstate⟩ := hlocal other hagree
      simp [Lane.perform, found, Outcome.mapState, Outcome.andThen, hanswer, hstate, Outcome.done]
    rw [htasks]
    exact ⟨_, _, .cons hfind (.cons hcommit (.nil _ _))⟩

/-- The tasks of a section that can be placed go through. -/
theorem Placeable.plays (h : lane.matching.Placeable board) (config : Config) :
    ∃ next cs, Plays lane.sec.footprint board lane (tasks config lane.sec) next cs := by
  obtain ⟨mid, cs, hpins, hsec, hmid⟩ := h.plays_pins
  rw [tasks]
  split
  · obtain ⟨next, ds, hgroups⟩ := (hmid.frame hpins.isOpen.1.frame).plays_groups
    rw [hsec] at hgroups
    exact ⟨next, cs ++ ds, hpins.append hgroups⟩
  · rw [List.append_nil]
    exact ⟨mid, cs, hpins⟩

end Matching

end PinRing
