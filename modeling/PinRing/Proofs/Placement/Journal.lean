import Mathlib.Data.Finset.Card
import PinRing.Proofs.File.Problem
import PinRing.Proofs.Placement.Arrangement
import PinRing.Proofs.Placement.Stages

/-! The record of a run.  The passes over pins commit different pins that had no place, each in no
group or the mirror partner of such a pin.  The pass over groups, which comes last, commits
different members of groups without looking whether they have a place.  So the pins that are
committed twice are the grouped partners of pins in no group. -/

namespace PinRing

open Board

namespace Board

/-- A pin that a pass over pins may place: one that is eligible, or the partner of one. -/
def Reached (b : Board) (i : Nat) : Prop :=
  ∃ o k, b.Eligible o k ∧ (i = k ∨ b.pins.partner k = .ok (some i))

/-- The commits put different pins without a place, all within reach, on available slots. -/
structure Firsts (b : Board) (cs : List Commit) : Prop where
  isOpen : b.Open cs
  pins_nodup : (cs.map (·.pin)).Nodup
  unplaced : ∀ i ∈ cs.map (·.pin), ¬b.pins.isPlaced i
  reached : ∀ i ∈ cs.map (·.pin), b.Reached i

/-- From one board to the other the journal has grown by commits of some of the pins, in order. -/
def Records (before after : Board) (pins : List Nat) : Prop :=
  ∃ cs, (cs.map (·.pin)).Sublist pins ∧ after.journal = before.journal ++ cs

variable {reflection : Option Reflection} {scope : Scope} {b before mid after : Board}
variable {cs ds : List Commit} {is js : List Nat} {i : Nat}

theorem Frame.reached (h : Frame before after) (hi : after.Reached i) : before.Reached i := by
  obtain ⟨o, k, helig, hik⟩ := hi
  exact ⟨o, k, h.eligible helig, h.partner k ▸ hik⟩

theorem Firsts.nil (b : Board) : b.Firsts [] where
  isOpen := .nil b
  pins_nodup := .nil
  unplaced := fun _ hi => nomatch hi
  reached := fun _ hi => nomatch hi

theorem Firsts.append (h : b.Firsts cs) (h' : (b.takeAll cs).Firsts ds) : b.Firsts (cs ++ ds) where
  isOpen := Open.append_iff.mpr ⟨h.isOpen, h'.isOpen⟩
  pins_nodup := by
    rw [List.map_append]
    refine List.nodup_append.mpr ⟨h.pins_nodup, h'.pins_nodup, ?_⟩
    rintro i hi _ hj rfl
    exact h'.unplaced i hj ((h.isOpen.isPlaced i).mpr (.inr hi))
  unplaced := by
    rw [List.map_append]
    refine List.forall_mem_append.mpr ⟨h.unplaced, fun i hi hplaced => ?_⟩
    exact h'.unplaced i hi ((h.isOpen.isPlaced i).mpr (.inl hplaced))
  reached := by
    rw [List.map_append]
    exact List.forall_mem_append.mpr
      ⟨h.reached, fun i hi => h.isOpen.frame.reached (h'.reached i hi)⟩

/-- A move of eligible pins is the first of each pin that it places. -/
theorem Move.firsts (hm : Move reflection scope b cs)
    (hpins : ∀ o i, scope.pins o i → b.Eligible o i) (hgroups : ∀ g, ¬scope.groups g)
    (hne : ∀ k j, b.pins.partner k = .ok (some j) → k ≠ j) :
    b.Firsts cs where
  isOpen := hm.isOpen
  pins_nodup := by
    cases hm with
    | single => exact List.nodup_singleton _
    | pair _ _ partnered => simpa using hne _ _ partnered
    | group entitled => exact absurd entitled (hgroups _)
  unplaced := by
    intro i hi
    rcases hm.cases_of_mem hi with ⟨-, h⟩ | ⟨_, _, -, -, -, h⟩ | ⟨g, hg, -⟩
    · exact h
    · exact h
    · exact absurd hg (hgroups g)
  reached := by
    intro i hi
    rcases hm.cases_of_mem hi with ⟨helig, -⟩ | ⟨k, j, helig, hkj, hik, -⟩ | ⟨g, hg, -⟩
    · exact ⟨_, i, hpins _ i helig, .inl rfl⟩
    · refine ⟨_, k, hpins _ k helig, ?_⟩
      rcases hik with rfl | rfl
      · exact .inl rfl
      · exact .inr hkj
    · exact absurd hg (hgroups g)

/-- Moves of eligible pins are the first of each pin that they place. -/
theorem Moves.firsts (hm : Moves reflection scope b cs) (hframe : Frame before b)
    (hpins : ∀ o i, scope.pins o i → b.Eligible o i) (hgroups : ∀ g, ¬scope.groups g)
    (hne : ∀ k j, before.pins.partner k = .ok (some j) → k ≠ j) : b.Firsts cs := by
  induction hm with
  | nil b => exact .nil b
  | cons head tail ih =>
    have hframe' := head.isOpen.frame
    refine (head.firsts hpins hgroups fun k j hkj => hne k j (hframe.partner k ▸ hkj)).append ?_
    exact ih (hframe.trans hframe') fun o i hi => hframe'.symm.eligible (hpins o i hi)

theorem Records.refl (b : Board) (is : List Nat) : b.Records b is :=
  ⟨[], List.nil_sublist is, (List.append_nil _).symm⟩

theorem Records.trans (h : before.Records mid is) (h' : mid.Records after js) :
    before.Records after (is ++ js) := by
  obtain ⟨cs, hcs, hmid⟩ := h
  obtain ⟨ds, hds, hafter⟩ := h'
  refine ⟨cs ++ ds, ?_, by rw [hafter, hmid, List.append_assoc]⟩
  rw [List.map_append]
  exact hcs.append hds

theorem Records.mono (h : before.Records after is) (hsub : is.Sublist js) :
    before.Records after js := by
  obtain ⟨cs, hcs, hafter⟩ := h
  exact ⟨cs, hcs.trans hsub, hafter⟩

end Board

/-! ### The pass over groups -/

namespace GroupPass

/-- The layout of a section has each member of its groups at most once. -/
theorem map_pin_fullLayout (sec : Section) (matrix : CostMatrix) (a : Assignment) :
    ((fullLayout sec matrix a).map (·.pin)).Sublist (sec.groups.flatMap (·.members)) := by
  have hcolumn : ∀ column,
      ((columnLayout matrix a sec.edge column).map (·.pin)).Sublist column.1.members := by
    rintro ⟨g, col⟩
    rw [columnLayout]
    cases (a.rowOf? col).bind (matrix.rowSlots[·]?) with
    | none => exact List.nil_sublist _
    | some start => exact map_pin_layout g sec.edge start ▸ List.Sublist.refl _
  have hcolumns : ∀ columns : List (PinGroup × Nat),
      ((columns.flatMap (columnLayout matrix a sec.edge)).map (·.pin)).Sublist
        ((columns.map Prod.fst).flatMap (·.members)) := by
    intro columns
    induction columns with
    | nil => exact .slnil
    | cons column columns ih =>
      rw [List.flatMap_cons, List.map_append]
      exact (hcolumn column).append ih
  have hall := hcolumns sec.groups.zipIdx
  rwa [List.zipIdx_map_fst] at hall

/-- A group pass, whether it is stopped or not, commits each member of the groups at most once. -/
theorem run_records (board : Board) (sec : Section) (matrix : CostMatrix) (a : Assignment)
    (blockSize : Int) :
    board.Records (run board sec matrix a blockSize).state.1
      (sec.groups.flatMap (·.members)) := by
  obtain ⟨cs, room, hcs, hstate, hjournal⟩ := run_adds board sec matrix a blockSize
  rw [hstate]
  exact ⟨cs, (hcs.map _).trans (map_pin_fullLayout sec matrix a), hjournal⟩

end GroupPass

namespace Run

variable {w : Work} {start : Board}

theorem groupStep_records (m : Matching) (w : Work) :
    w.board.Records (groupStep m w).state.2.board (m.sec.groups.flatMap (·.members)) := by
  rw [groupStep]
  split
  · exact .refl _ _
  obtain ⟨matrix, assignment, hfound⟩ := m.adopt_keeps (m.groupMatrix w.board) m.sec.groupMatrixLog
  have hfound : (m.findGroups w.board).state = { m with matrix, assignment } := hfound
  have hpass := GroupPass.run_records w.board m.sec matrix assignment m.blockSize
  rw [← (Matching.commitGroups_eq { m with matrix, assignment } w.board).2.1, ← hfound] at hpass
  simp only [Outcome.mapState, Outcome.andThen]
  split
  · exact Records.refl w.board _
  · split <;> exact hpass

/-- The pass over the groups of all sections commits each member of a group at most once. -/
theorem groupSweep_records (ms : List Matching) (w : Work) :
    w.board.Records (sweep groupStep ms w).state.2.board
      ((ms.flatMap (·.sec.groups)).flatMap (·.members)) := by
  induction ms generalizing w with
  | nil => exact .refl _ _
  | cons m rest ih =>
    have hfirst := groupStep_records m w
    rw [List.flatMap_cons, List.flatMap_append, sweep]
    cases ha : (groupStep m w).answer with
    | error f => exact hfirst.mono (List.sublist_append_left _ _)
    | ok _ => exact hfirst.trans (ih _)

/-! ### The passes before -/

/-- A step that leaves the section as it is and makes first commits only. -/
def Opens (start : Board) (step : SectionStep) : Prop :=
  ∀ m w, Frame start w.board → (step m w).state.1.sec = m.sec ∧
    ∃ cs, w.board.Firsts cs ∧ (step m w).state.2.board = w.board.takeAll cs

/-- The pins that are matched on a board are committed for the first time. -/
theorem findPins_firsts {m : Matching} {mirrored : Bool} (hframe : Frame start w.board)
    (hne : ∀ k j, start.pins.partner k = .ok (some j) → k ≠ j)
    (hfound : (m.findPins w.board mirrored).answer = .ok ()) :
    ∃ matrix a cs,
      m.sec.pinMatrix w.board.boundary w.board.pins m.model
        { skipPlaced := true, skipMirrored := !mirrored, reserved := m.reserved } = .ok matrix ∧
      (m.findPins w.board mirrored).state = { m with matrix, assignment := a } ∧
      w.board.Firsts cs ∧
      (({ m with matrix, assignment := a } : Matching).commitPins w.board mirrored).state =
        w.board.takeAll cs ∧
      ∀ result, (PinPass.run w.board matrix a
        { mirrored, strict := m.strict, reflection := m.reflection }).answer = .ok result →
        result.commits = cs := by
  obtain ⟨matrix, a, hmatrix, -, hm⟩ := Matching.adopt_ok hfound
  let mode : PinPass.Mode := { mirrored, strict := m.strict, reflection := m.reflection }
  let scope : Scope := ⟨w.board.Eligible, fun _ => False⟩
  have helig : ∀ pin ∈ matrix.columns, scope.pins mode.origin pin := fun pin hpin =>
    (Matching.eligible_columns hmatrix pin hpin).2
  obtain ⟨cs, hmoves, hend, hcommits⟩ := PinPass.run_moves w.board a mode helig
  have hboard := (Matching.commitPins_eq { m with matrix, assignment := a } w.board mirrored).1
  exact ⟨matrix, a, cs, hmatrix, hm, hmoves.firsts hframe (fun _ _ hi => hi) (fun _ hg => hg) hne,
    hboard.trans hend, hcommits⟩

theorem pinStep_firsts (mirrored : Bool)
    (hne : ∀ k j, start.pins.partner k = .ok (some j) → k ≠ j) :
    Opens start (pinStep mirrored) := by
  intro m w hframe
  cases hfound : (m.findPins w.board mirrored).answer with
  | error f =>
    obtain ⟨matrix, a, hm⟩ := m.adopt_keeps _ m.sec.pinMatrixLog
    have hm : (m.findPins w.board mirrored).state = { m with matrix, assignment := a } := hm
    simp only [pinStep, Outcome.mapState, Outcome.andThen, hfound, hm]
    exact ⟨trivial, [], .nil _, rfl⟩
  | ok _ =>
    obtain ⟨matrix, a, cs, -, hm, hfirsts, hboard, -⟩ := findPins_firsts hframe hne hfound
    have hstate : (pinStep mirrored m w).state.1 = { m with matrix, assignment := a } ∧
        (pinStep mirrored m w).state.2.board = w.board.takeAll cs := by
      simp only [pinStep, Outcome.mapState, Outcome.andThen, hfound, hm]
      split
      · exact ⟨rfl, hboard⟩
      · exact ⟨rfl, hboard⟩
    exact ⟨by rw [hstate.1], cs, hfirsts, hstate.2⟩

theorem reserveStep_firsts : Opens start reserveStep := by
  intro m w _
  obtain ⟨reserved, hstate⟩ := reserveStep_keeps m w
  rw [hstate]
  exact ⟨rfl, [], .nil _, rfl⟩

theorem Opens.sweep {step : SectionStep} (h : Opens start step) (ms : List Matching)
    (hframe : Frame start w.board) :
    (Run.sweep step ms w).state.1.map (·.sec) = ms.map (·.sec) ∧ ∃ cs, w.board.Firsts cs ∧
      (Run.sweep step ms w).state.2.board = w.board.takeAll cs := by
  induction ms generalizing w with
  | nil => exact ⟨rfl, [], .nil _, rfl⟩
  | cons m rest ih =>
    obtain ⟨hsec, cs, hfirsts, hboard⟩ := h m w hframe
    rw [Run.sweep]
    cases ha : (step m w).answer with
    | error f => exact ⟨by simp [hsec], cs, hfirsts, hboard⟩
    | ok _ =>
      obtain ⟨hsecs, ds, hothers, hend⟩ := ih (hboard ▸ hframe.trans hfirsts.isOpen.frame)
      rw [hboard] at hothers hend
      refine ⟨?_, cs ++ ds, hfirsts.append hothers, hend.trans (takeAll_append _ _ _).symm⟩
      rw [List.map_cons, List.map_cons, hsec]
      exact congrArg _ hsecs

theorem Opens.sweeps {steps : List SectionStep} (h : ∀ step ∈ steps, Opens start step)
    {s : List Matching × Work} (hframe : Frame start s.2.board) :
    (Run.sweeps steps s).state.1.map (·.sec) = s.1.map (·.sec) ∧ ∃ cs, s.2.board.Firsts cs ∧
      (Run.sweeps steps s).state.2.board = s.2.board.takeAll cs := by
  induction steps generalizing s with
  | nil => exact ⟨rfl, [], .nil _, rfl⟩
  | cons step steps ih =>
    obtain ⟨hstep, hrest⟩ := List.forall_mem_cons.mp h
    obtain ⟨hsecs, cs, hfirsts, hboard⟩ := hstep.sweep s.1 hframe
    cases ha : (Run.sweep step s.1 s.2).answer with
    | error f =>
      rw [Run.sweeps, Outcome.forEach_cons, Outcome.andThen_of_error ha]
      exact ⟨hsecs, cs, hfirsts, hboard⟩
    | ok _ =>
      obtain ⟨hsecs', ds, hothers, hend⟩ :=
        ih hrest (s := (Run.sweep step s.1 s.2).state) (hboard ▸ hframe.trans hfirsts.isOpen.frame)
      rw [hboard] at hothers hend
      rw [(sweeps_cons ha steps).2]
      exact ⟨hsecs'.trans hsecs, cs ++ ds, hfirsts.append hothers,
        hend.trans (takeAll_append _ _ _).symm⟩

/-- The passes before the one over groups. -/
def pinPasses (board : Board) (config : Config) : List SectionStep :=
  (if board.pins.mirrors.isEmpty then [] else [pinStep true]) ++
    (if config.assignGroups then [reserveStep] else []) ++ [pinStep false]

theorem pinPasses_open (board : Board) (config : Config)
    (hne : ∀ k j, start.pins.partner k = .ok (some j) → k ≠ j) :
    ∀ step ∈ pinPasses board config, Opens start step := by
  intro step hstep
  simp only [pinPasses, List.mem_append] at hstep
  rcases hstep with (hstep | hstep) | hstep
  · split at hstep
    · cases hstep
    · exact List.mem_singleton.mp hstep ▸ pinStep_firsts true hne
  · split at hstep
    · exact List.mem_singleton.mp hstep ▸ reserveStep_firsts
    · cases hstep
  · exact List.mem_singleton.mp hstep ▸ pinStep_firsts false hne

/-- What all passes over sections record. -/
theorem sweeps_record {board : Board} (config : Config) {s : List Matching × Work}
    (hframe : Frame start s.2.board)
    (hne : ∀ k j, start.pins.partner k = .ok (some j) → k ≠ j) :
    ∃ cs, s.2.board.Firsts cs ∧
      (s.2.board.takeAll cs).Records (sweeps (passes board config) s).state.2.board
        (((s.1.map (·.sec)).flatMap (·.groups)).flatMap (·.members)) := by
  have hpasses : passes board config =
      pinPasses board config ++ if config.assignGroups then [groupStep] else [] := rfl
  obtain ⟨hsecs, cs, hfirsts, hboard⟩ :=
    Opens.sweeps (pinPasses_open board config hne) hframe
  rw [hpasses, sweeps_append]
  refine ⟨cs, hfirsts, ?_⟩
  refine Outcome.andThen_state (P := fun next : List Matching × Work =>
    (s.2.board.takeAll cs).Records next.2.board
      (((s.1.map (·.sec)).flatMap (·.groups)).flatMap (·.members))) ?_ fun _ => ?_
  · rw [hboard]
    exact .refl _ _
  · rw [← hboard, ← hsecs, List.flatMap_map]
    split
    · rw [(sweeps_singleton groupStep _).2]
      exact groupSweep_records _ _
    · exact .refl _ _

end Run

/-! ### Whole runs -/

namespace PinTable

theorem length_filter_eq {α : Type} (l : List α) (p : α → Bool) :
    (l.filter p).length = ((List.range l.length).filter fun i => (l[i]?).any p).length := by
  induction l with
  | nil => rfl
  | cons a l ih =>
    have hrest : (((List.range l.length).map Nat.succ).filter
        fun i => ((a :: l)[i]?).any p).length = (l.filter p).length := by
      rw [List.filter_map, List.length_map, ih]
      simp only [Function.comp_def, List.getElem?_cons_succ]
    rw [List.length_cons, List.range_succ_eq_map, List.filter_cons, List.filter_cons]
    cases hp : p a <;> simp [hp, hrest]

/-- A pin either has a place or is listed as having none. -/
theorem length_unplaced (t : PinTable) :
    ((List.range t.size).filter t.isPlaced).length + t.unplaced.length = t.size := by
  have hplaced := length_filter_eq t.pins.toList Pin.placed
  have hall := List.length_eq_length_filter_add (l := t.pins.toList) Pin.placed
  simp only [Array.length_toList, Array.getElem?_toList] at hplaced hall
  rw [unplaced, List.length_map]
  exact hplaced ▸ hall.symm

end PinTable

/-- The pins of all commits, one entry for each commit. -/
def Board.committed (b : Board) : List Nat := b.journal.map (·.pin)

/-- The pins with more than one commit. -/
def Board.recommitted (b : Board) : List Nat :=
  (List.range b.pins.size).filter (1 < b.committed.count ·)

theorem Board.one_lt_count {b : Board} {firsts seconds : List Nat} (hfirsts : firsts.Nodup)
    (hseconds : seconds.Nodup) (hcommitted : b.committed = firsts ++ seconds) (i : Nat) :
    1 < b.committed.count i ↔ i ∈ firsts ∧ i ∈ seconds := by
  have hfirst := List.nodup_iff_count_le_one.mp hfirsts i
  have hsecond := List.nodup_iff_count_le_one.mp hseconds i
  rw [hcommitted, List.count_append, ← List.count_pos_iff, ← List.count_pos_iff]
  omega

/-- If the pins that were committed are those that have a place, then each pin that was committed
twice counts as two. -/
theorem Board.length_committed {b : Board} {firsts seconds : List Nat} (hfirsts : firsts.Nodup)
    (hseconds : seconds.Nodup) (hcommitted : b.committed = firsts ++ seconds)
    (hlt : ∀ i ∈ b.committed, i < b.pins.size)
    (hplaced : ∀ i, b.pins.isPlaced i ↔ i ∈ b.committed) :
    b.committed.length + b.pins.unplaced.length = b.pins.size + b.recommitted.length := by
  have hsettled : ((List.range b.pins.size).filter b.pins.isPlaced).toFinset =
      firsts.toFinset ∪ seconds.toFinset := by
    ext i
    have := hlt i
    rw [hcommitted, List.mem_append] at this
    simp only [List.mem_toFinset, List.mem_filter, List.mem_range, hplaced, hcommitted,
      List.mem_append, Finset.mem_union]
    exact ⟨And.right, fun hi => ⟨this hi, hi⟩⟩
  have htwice : b.recommitted.toFinset = firsts.toFinset ∩ seconds.toFinset := by
    ext i
    have := hlt i
    rw [hcommitted, List.mem_append] at this
    simp only [List.mem_toFinset, recommitted, List.mem_filter, List.mem_range, decide_eq_true_eq,
      one_lt_count hfirsts hseconds hcommitted, Finset.mem_inter]
    exact ⟨And.right, fun hi => ⟨this (.inl hi.1), hi⟩⟩
  have hcards := Finset.card_union_add_card_inter firsts.toFinset seconds.toFinset
  have hnodup : b.recommitted.Nodup := List.nodup_range.filter _
  rw [← hsettled, ← htwice, List.toFinset_card_of_nodup (List.nodup_range.filter _),
    List.toFinset_card_of_nodup hnodup, List.toFinset_card_of_nodup hfirsts,
    List.toFinset_card_of_nodup hseconds] at hcards
  have hall := b.pins.length_unplaced
  rw [hcommitted, List.length_append]
  omega

section

variable {board : Board}

/-- A run records first commits of pins within reach, and then commits of different members of
groups. -/
theorem run_record (hd : board.pins.Declared) (model : CostModel) (reflection : Option Reflection)
    (config : Config) :
    ∃ early late, (run board model reflection config).state.1.journal =
        board.journal ++ (early ++ late) ∧ board.Firsts early ∧ (late.map (·.pin)).Nodup ∧
      ∀ i ∈ late.map (·.pin), ∃ g ∈ board.pins.groups, i ∈ g.members := by
  have hnone : ∃ early late : List Commit, board.journal = board.journal ++ (early ++ late) ∧
      board.Firsts early ∧ (late.map (·.pin)).Nodup ∧
      ∀ i ∈ late.map (·.pin), ∃ g ∈ board.pins.groups, i ∈ g.members :=
    ⟨[], [], (List.append_nil _).symm, .nil board, .nil, fun _ hi => nomatch hi⟩
  by_cases hne : board.boundary.sections config.sectionSize = []
  · rw [run_of_nil reflection hne]
    exact hnone
  cases hdistribute :
    (distribute board model config (board.boundary.sections config.sectionSize)).answer with
  | error f =>
    rw [(run_of_distribute_error reflection hne hdistribute).2]
    exact hnone
  | ok _ =>
    obtain ⟨hstate, -⟩ := run_of_distribute reflection hne hdistribute
    obtain ⟨early, hfirsts, late, hlate, hjournal⟩ := Run.sweeps_record config
      (s := Run.opening board model reflection
        (distribute board model config (board.boundary.sections config.sectionSize)).state)
      (.refl board) fun k j => PinTable.ne_of_partner hd.lookup_ne
    simp only [Run.opening, List.map_map, Function.comp_def, Matching.ofSection,
      List.map_id'] at hfirsts hlate hjournal
    rw [hstate, Run.place_state]
    refine ⟨early, late, ?_, hfirsts, ?_, fun i hi => ?_⟩
    · exact hjournal.trans (by rw [hfirsts.isOpen.journal, List.append_assoc])
    · exact (Distribution.members_distribute hd hdistribute).sublist hlate
    · obtain ⟨g, hg, hig⟩ := List.mem_flatMap.mp (hlate.subset hi)
      exact ⟨g, (Distribution.groups_distribute hdistribute).subset hg, hig⟩

/-- A pin that is both reached and in a group is the partner of a pin in no group. -/
theorem Board.Reached.exists_leader (hd : board.pins.Declared) {i : Nat} (hi : board.Reached i)
    {g : PinGroup} (hg : g ∈ board.pins.groups) (hig : i ∈ g.members) :
    ∃ k q, board.pins.pins[k]? = some q ∧ q.grouped = false ∧
      board.pins.partner k = .ok (some i) := by
  obtain ⟨o, k, helig, rfl | hki⟩ := hi
  · exact absurd hig (helig.notMem hd hg)
  · obtain ⟨q, hq, hfree, -⟩ := helig
    exact ⟨k, q, hq, hfree, hki⟩

/-- On paired pins the partners of pins in no group are in no group. -/
theorem Board.Reached.ungrouped (hb : board.Paired) {i : Nat} (hi : board.Reached i) :
    ∃ p, board.pins.pins[i]? = some p ∧ p.grouped = false := by
  obtain ⟨o, k, helig, rfl | hki⟩ := hi
  · obtain ⟨p, hp, hfree, -⟩ := helig
    exact ⟨p, hp, hfree⟩
  · obtain ⟨p, hp, hmirrored⟩ := exists_of_partner (hb.partner_symm hki)
    exact ⟨p, hp, hb.ungrouped p (Array.mem_of_getElem? hp) hmirrored⟩

/-- In a report that a run ends in, the pins without a place are those of the board. -/
theorem run_unplaced {model : CostModel} {reflection : Option Reflection} {config : Config}
    {verdict : Verdict} (h : (run board model reflection config).answer = .ok verdict) :
    verdict.report.unplaced = (run board model reflection config).state.1.pins.unplaced := by
  by_cases hne : board.boundary.sections config.sectionSize = []
  · rw [run_of_nil reflection hne] at h ⊢
    cases h
    rfl
  cases hdistribute :
    (distribute board model config (board.boundary.sections config.sectionSize)).answer with
  | error f =>
    rw [(run_of_distribute_error reflection hne hdistribute).1] at h
    cases h
  | ok _ =>
    obtain ⟨hstate, hanswer⟩ := run_of_distribute reflection hne hdistribute
    rw [hanswer, Run.place_answer] at h
    obtain ⟨_, -, h⟩ := exists_of_bind_eq_ok h
    rw [hstate, Run.place_state, (Run.eq_of_conclude h).2]
    rfl

end

/-- A run over a loaded problem commits a pin at most twice, and twice only a grouped pin that is
the mirror partner of a pin in no group.  A report counts the pins that were committed twice as two,
so the pins placed and the pins unplaced come to that many more than there are pins. -/
theorem run_commits {v : Value} {p : Problem} (hload : Problem.ofValue v = .ok p)
    (model : CostModel) (reflection : Option Reflection) (config : Config) :
    let ended := run p.board model reflection config
    (∀ i, 1 < ended.state.1.committed.count i → ended.state.1.committed.count i = 2 ∧
      (∃ q, p.board.pins.pins[i]? = some q ∧ q.grouped = true) ∧
      ∃ k q, p.board.pins.pins[k]? = some q ∧ q.grouped = false ∧
        p.board.pins.partner k = .ok (some i)) ∧
    ∀ verdict, ended.answer = .ok verdict →
      verdict.report.placed + verdict.report.unplaced.length =
        p.board.pins.size + ended.state.1.recommitted.length := by
  intro ended
  obtain ⟨hd, hempty⟩ := Problem.ofValue_board hload
  obtain ⟨early, late, hjournal, hearly, hlate, hmembers⟩ :=
    run_record hd model reflection config
  have hcommitted : ended.state.1.committed = early.map (·.pin) ++ late.map (·.pin) := by
    rw [committed, hjournal, hempty, List.nil_append, List.map_append]
  have htwice := one_lt_count hearly.pins_nodup hlate hcommitted
  constructor
  · intro i hi
    obtain ⟨hfirst, hsecond⟩ := (htwice i).mp hi
    obtain ⟨g, hg, hig⟩ := hmembers i hsecond
    refine ⟨?_, hd.members_grouped g hg i hig, (hearly.reached i hfirst).exists_leader hd hg hig⟩
    rw [hcommitted, List.count_append, List.count_eq_one_of_mem hearly.pins_nodup hfirst,
      List.count_eq_one_of_mem hlate hsecond]
  · intro verdict hverdict
    obtain ⟨cs, hmoves, hboard, hplaced⟩ := run_moves p.board model reflection config
    have hopen := hmoves.isOpen
    have hcs : ended.state.1.committed = cs.map (·.pin) := by
      rw [committed, hboard, hopen.journal, hempty, List.nil_append]
    have hunplaced : ∀ i, ¬p.board.pins.isPlaced i := by
      intro i hi
      obtain ⟨q, hq, hspot⟩ := (Option.any_eq_true _ _).mp hi
      rw [Pin.placed, hd.unplaced i q hq] at hspot
      cases hspot
    have hsize : ended.state.1.pins.size = p.board.pins.size := by
      rw [hboard, hopen.frame.size_pins]
    have hall := length_committed hearly.pins_nodup hlate hcommitted
      (by
        rw [hcs, hsize]
        exact List.forall_mem_map.mpr fun c hc => (hopen.admits c hc).pin_lt)
      (fun i => by rw [hcs, hboard, hopen.isPlaced, or_iff_right (hunplaced i)])
    rw [hcs, List.length_map, hsize] at hall
    rw [hplaced verdict hverdict, run_unplaced hverdict]
    exact hall

/-- A mirror pair of which the second pin is in a group by itself, two bottom slots and a top slot
opposite to the first. -/
def partnerInGroup : Value :=
  let slot (x y : Int) : Value :=
    .mapping [(.text "x", .int x), (.text "y", .int y), (.text "layer", .int 1)]
  .mapping
    [(.text "core", .mapping
        [(.text "xmin", .int 0), (.text "ymin", .int 0), (.text "xmax", .int 40),
          (.text "ymax", .int 60)]),
      (.text "slots", .list [slot 10 0, slot 20 0, slot 10 60]),
      (.text "pins", .list
        [.mapping [(.text "name", .text "a"), (.text "mirror", .text "b")],
          .mapping [(.text "name", .text "b")]]),
      (.text "groups", .list
        [.mapping [(.text "name", .text "bus"), (.text "pins", .list [.text "b"])]])]

/-- What is read from `partnerInGroup`. -/
def partnerInGroupProblem : Problem where
  core := Core.outline { xmin := 0, ymin := 0, xmax := 40, ymax := 60 }
  board :=
    { boundary :=
        { slots := #[⟨⟨10, 0⟩, 1, .bottom, false, false⟩, ⟨⟨20, 0⟩, 1, .bottom, false, false⟩,
            ⟨⟨10, 60⟩, 1, .top, false, false⟩] }
      pins :=
        { pins := #[⟨"a", none, false⟩, ⟨"b", none, true⟩]
          groups := [⟨[1], false, "bus"⟩]
          mirrors := [("a", "b"), ("b", "a")] } }
  targets := {}

theorem run_commits_partnerInGroup :
    let p := partnerInGroupProblem
    let config : Config := { usageFactor := { mantissa := 1, scale := 0 } }
    let ended := run p.board p.model (some p.core.reflection) config
    Problem.ofValue partnerInGroup = .ok p ∧
      (∀ i, 1 < ended.state.1.committed.count i → p.board.pins.partner 0 = .ok (some i)) ∧
      ∀ verdict, ended.answer = .ok verdict →
        verdict.report.placed + verdict.report.unplaced.length = 3 := by
  intro p config ended
  have hload : Problem.ofValue partnerInGroup = .ok p := by with_unfolding_all rfl
  obtain ⟨htwice, hcount⟩ := run_commits hload p.model (some p.core.reflection) config
  have hsize : p.board.pins.size + ended.state.1.recommitted.length = 3 := by decide +kernel
  refine ⟨hload, fun i hi => ?_, fun verdict hverdict => (hcount verdict hverdict).trans hsize⟩
  obtain ⟨-, -, k, q, hq, hfree, hki⟩ := htwice i hi
  obtain rfl : k = 0 := by
    rcases k with _ | _ | k
    · rfl
    · cases hq; cases hfree
    · cases hq
  exact hki

/-- The grouped partner is placed opposite to the first pin and then again with its group, so of two
pins three are placed. -/
theorem run_commits_partner_twice :
    let p := partnerInGroupProblem
    let config : Config := { usageFactor := { mantissa := 1, scale := 0 } }
    let ended := run p.board p.model (some p.core.reflection) config
    Problem.ofValue partnerInGroup = .ok p ∧ p.board.pins.size = 2 ∧
      ended.state.1.committed = [0, 1, 1] ∧
      ended.answer.toOption.map (fun v => (v.report.placed, v.report.unplaced)) = some (3, []) := by
  intro p config ended
  have hload : Problem.ofValue partnerInGroup = .ok p := by with_unfolding_all rfl
  exact ⟨hload, rfl, by decide +kernel, by decide +kernel⟩

end PinRing
