import PinRing.Proofs.Placement.Distribution
import PinRing.Proofs.Placement.OppositePass
import PinRing.Proofs.Placement.Optimal
import PinRing.Proofs.Placement.Reservation
import PinRing.Proofs.Placement.Stages

/-! What never stops when the cost model prices everything: the distribution, and every step of a
section but those over mirrored pins. -/

namespace PinRing

open Board

/-- The model prices every pin at every position. -/
def CostModel.Total (model : CostModel) : Prop := ∀ pin pos, ∃ c, model pin pos = .ok c

theorem TargetModel.model_total (t : TargetModel) : t.model.Total :=
  fun pin pos => ⟨t.cost pin pos, rfl⟩

/-- A group cannot be priced where one of its pins cannot. -/
theorem CostModel.exists_of_groupCost_error {model : CostModel} {members : List Nat} {pos : Point}
    {f : Fault} (h : model.groupCost members pos = .error f) : ∃ pin, model pin pos = .error f := by
  suffices hgo : ∀ total, CostModel.groupCost.go model pos total members = .error f →
      ∃ pin, model pin pos = .error f from hgo _ h
  clear h
  induction members with
  | nil => exact fun _ h => nomatch h
  | cons pin rest ih =>
    intro total h
    rw [CostModel.groupCost.go] at h
    cases hc : model pin pos with
    | error f' =>
      rw [hc] at h
      cases h
      exact ⟨pin, hc⟩
    | ok c =>
      rw [hc] at h
      cases c with
      | finite v => exact ih _ h
      | infeasible => cases h

theorem CostModel.Total.groupCost {model : CostModel} (h : model.Total) (members : List Nat)
    (pos : Point) : ∃ c, model.groupCost members pos = .ok c := by
  cases hgroup : model.groupCost members pos with
  | ok c => exact ⟨c, rfl⟩
  | error f =>
    obtain ⟨pin, hpin⟩ := CostModel.exists_of_groupCost_error hgroup
    obtain ⟨c, hc⟩ := h pin pos
    rw [hpin] at hc
    cases hc

/-! ### The distribution -/

namespace Distribution

variable {b : Boundary} {pins : PinTable} {model : CostModel} {config : Config}
variable {secs : List Section} {shares : List Share} {p : PinProgress} {pin : Nat}

theorem exists_middle {s : Section} (h : 0 < b.countFree s.first s.stop) :
    ∃ mid, middle b s = .ok mid := by
  have hlt : (b.free s.first s.stop).length / 2 < (b.free s.first s.stop).length :=
    Nat.div_lt_self h (by decide)
  have hfree := (Boundary.mem_free.mp (List.getElem_mem hlt)).2.2
  obtain ⟨slot, hslot, -⟩ := (Option.any_eq_true _ _).mp hfree
  refine ⟨slot.pos, ?_⟩
  simp only [middle, List.getElem?_eq_getElem hlt, Boundary.slot_eq_ok.mpr hslot]
  rfl

theorem prepare_finishes (config : Config) (h : ∀ s ∈ secs, 0 < b.countFree s.first s.stop) :
    ∃ shares, (prepare b config secs).answer = .ok shares ∧ shares.length = secs.length := by
  induction secs with
  | nil => exact ⟨[], rfl, rfl⟩
  | cons s rest ih =>
    obtain ⟨hs, hrest⟩ := List.forall_mem_cons.mp h
    obtain ⟨mid, hmid⟩ := exists_middle hs
    obtain ⟨shares, hshares, hlength⟩ := ih hrest
    simp only [prepare, hmid, hshares]
    exact ⟨_, rfl, by rw [List.length_cons, hlength, List.length_cons]⟩

theorem distributeGroup_finishes (pins : PinTable) (hmodel : model.Total) (shares : List Share)
    (g : PinGroup) :
    (distributeGroup pins model shares g).answer = .ok () ∧
      (distributeGroup pins model shares g).state.length = shares.length := by
  constructor
  · cases hanswer : (distributeGroup pins model shares g).answer with
    | ok _ => rfl
    | error f =>
      obtain ⟨⟨s, -, hprice⟩, -⟩ := distributeGroup_error hanswer
      obtain ⟨c, hc⟩ := hmodel.groupCost g.members s.middle
      rw [hprice] at hc
      cases hc
  · rcases distributeGroup_cases pins model shares g with hsame | ⟨-, i, -, hgiven⟩
    · rw [hsame]
    · rw [hgiven, List.length_modify]

theorem distributePin_finishes (hmodel : model.Total)
    (hpartners : ∀ i < pins.size, ∃ partner, pins.partner i = .ok partner) (hlt : pin < pins.size)
    (hne : p.shares ≠ []) :
    (distributePin pins model p pin).answer = .ok () ∧
      (distributePin pins model p pin).state.shares ≠ [] := by
  have hok : (distributePin pins model p pin).answer = .ok () := by
    cases hanswer : (distributePin pins model p pin).answer with
    | ok _ => rfl
    | error f =>
      obtain ⟨s, -, hprice⟩ := price_of_distributePin_error hpartners hlt hne hanswer
      obtain ⟨c, hc⟩ := hmodel pin s.middle
      rw [hprice] at hc
      cases hc
  refine ⟨hok, ?_⟩
  obtain ⟨q, -, ⟨-, hsame⟩ | ⟨-, partner, i, -, -, hgiven⟩⟩ := distributePin_cases hok
  · rwa [hsame]
  · rw [hgiven]
    exact fun hnil => hne (List.modify_eq_nil_iff.mp hnil)

/-- Over sections with available slots the distribution goes through. -/
theorem distribute_finishes {board : Board} (config : Config) (hmodel : model.Total)
    (hpartners : ∀ i < board.pins.size, ∃ partner, board.pins.partner i = .ok partner)
    (hne : secs ≠ [])
    (hroom : ∀ s ∈ secs, 0 < board.boundary.countFree s.first s.stop) :
    (distribute board model config secs).answer = .ok () := by
  obtain ⟨shares, hshares, hlength⟩ := prepare_finishes config hroom
  obtain ⟨hgroups, hgrouped⟩ := Outcome.forEach_finishes
    (distributeGroup board.pins model) shares board.pins.groups
    (P := fun _ s => s.length = shares.length)
    (fun _ g s _ hs => by
      obtain ⟨hanswer, hsame⟩ := distributeGroup_finishes board.pins hmodel s g
      exact ⟨hanswer, hsame.trans hs⟩) rfl
  have hgroupedNe : (Outcome.forEach (distributeGroup board.pins model) shares
      board.pins.groups).state ≠ [] := by
    intro hnil
    rw [hnil, List.length_nil, hlength] at hgrouped
    exact hne (List.length_eq_zero_iff.mp hgrouped.symm)
  obtain ⟨hpinsOk, -⟩ := Outcome.forEach_finishes (distributePin board.pins model)
    { shares :=
        (Outcome.forEach (distributeGroup board.pins model) shares board.pins.groups).state }
    (List.range board.pins.size)
    (P := fun _ p => p.shares ≠ [])
    (fun done pin p hpre hp =>
      distributePin_finishes hmodel hpartners (range_split hpre).1 hp)
    hgroupedNe
  rw [distribute, Outcome.andThen_of_ok hshares]
  simp only [Outcome.mapState, Outcome.andThen, hgroups, hpinsOk]

end Distribution

/-! ### The steps of a section -/

namespace Matching

variable {m : Matching} {board before now : Board}

/-- The section lies within the board, its pins are different pins, and its model is total. -/
structure Placeable (m : Matching) (board : Board) : Prop where
  within : m.Within board
  pins_nodup : m.sec.pins.Nodup
  pins_lt : ∀ i ∈ m.sec.pins, i < board.pins.size
  total : m.model.Total

theorem Placeable.frame (h : m.Placeable before) (hframe : Frame before now) : m.Placeable now where
  within := h.within.frame hframe
  pins_nodup := h.pins_nodup
  pins_lt := hframe.size_pins ▸ h.pins_lt
  total := h.total

theorem Placeable.worked (h : m.Placeable board) (matrix : CostMatrix) (assignment : Assignment)
    (reserved : List Nat) : Placeable { m with matrix, assignment, reserved } board :=
  ⟨h.within.worked matrix assignment reserved, h.pins_nodup, h.pins_lt, h.total⟩

theorem Placeable.prices (h : m.Placeable board) : m.Prices board :=
  fun _ _ pos _ g _ => h.total.groupCost g.members pos

/-- The groups of a section are matched as soon as its blocks are found. -/
theorem exists_findGroups {starts : List Nat} (hmodel : m.model.Total) (hne : m.sec.groups ≠ [])
    (hstarts : m.sec.candidateStarts board.boundary m.blockSize = .ok starts) :
    starts = m.starts board ∧ ∃ a, m.Solves board a ∧ (m.findGroups board).answer = .ok () ∧
      (m.findGroups board).state =
        { m with
          matrix := m.sec.groupsOn board.boundary m.model m.blockSize (m.starts board)
          assignment := a } := by
  obtain rfl : starts = m.starts board := Section.eq_of_candidateStarts hstarts
  obtain ⟨a, ha⟩ := m.exists_solves board hne
  have hmatrix := Section.groupMatrix_of_starts hstarts hne fun start _ pos _ g _ =>
    hmodel.groupCost g.members pos
  exact ⟨rfl, a, ha, adopt_of_ok m.sec.groupMatrixLog hmatrix ha.solved⟩

/-- A section without groups has no blocks. -/
theorem findGroups_of_noGroups (hne : m.sec.groups = []) (hsize : m.blockSize = m.sec.blockSize)
    (board : Board) :
    m.sec.candidateStarts board.boundary m.sec.blockSize = .ok [] ∧
      (m.findGroups board).answer = .ok () ∧
      (m.findGroups board).state = { m with matrix := { blockSize := 0 }, assignment := [] } := by
  have hzero : m.sec.blockSize = 0 := by rw [Section.blockSize, hne]; rfl
  have hstarts : m.sec.candidateStarts board.boundary 0 = .ok [] := by
    rw [Section.candidateStarts, Nat.div_zero]
    rfl
  refine ⟨hzero ▸ hstarts, adopt_of_ok m.sec.groupMatrixLog ?_ rfl⟩
  simp [groupMatrix, Section.groupMatrix, hne, hsize, hzero, hstarts, Bind.bind, Except.bind, pure,
    Except.pure]

/-- The price of a pin on a slot. -/
def pinPrice (m : Matching) (board : Board) (pin slot : Nat) : Cost :=
  (board.boundary.posOf? slot).elim .infeasible fun pos =>
    (m.model pin pos).toOption.getD .infeasible

theorem Placeable.pinPrice_eq (h : m.Placeable board) (pin : Nat) {slot : Nat} {s : Slot}
    (hs : board.boundary.slots[slot]? = some s) :
    m.model pin s.pos = .ok (m.pinPrice board pin slot) := by
  obtain ⟨c, hc⟩ := h.total pin s.pos
  simp [pinPrice, Boundary.posOf?, hs, hc, Except.toOption]

theorem openSlots_congr (hsize : now.boundary.size = before.boundary.size)
    (hsame : ∀ i, m.sec.Has i →
      now.boundary.isAvailable i = before.boundary.isAvailable i) :
    m.openSlots now = m.openSlots before := by
  have hfree : now.boundary.free m.sec.first m.sec.stop =
      before.boundary.free m.sec.first m.sec.stop := by
    rw [Boundary.free, Boundary.free, hsize]
    refine List.filter_congr fun i hi => hsame i ?_
    have := List.mem_range'_1.mp hi
    exact ⟨this.1, by omega⟩
  rw [openSlots, openSlots, hfree]

/-- The pins of a section are matched, whatever the filter. -/
theorem Placeable.findPins (h : m.Placeable board) (mirrored : Bool) :
    ∃ matrix a, (m.findPins board mirrored).answer = .ok () ∧
      (m.findPins board mirrored).state = { m with matrix, assignment := a } ∧
      PinPass.Shaped board matrix a := by
  let f : PinFilter := { skipPlaced := true, skipMirrored := !mirrored, reserved := m.reserved }
  let columns := m.sec.pins.filter fun i => (board.pins.pins[i]?).any (f.admits board.pins)
  let slots := m.openSlots board
  have hprice : ∀ pin ∈ columns, ∀ slot ∈ slots, ∀ s, board.boundary.slots[slot]? = some s →
      m.model pin s.pos = .ok (m.pinPrice board pin slot) :=
    fun pin _ _ _ _ hs => h.pinPrice_eq pin hs
  have hmatrix := Section.pinMatrix_eq_ok (f := f)
    (Section.openPins_eq_ok.mpr ⟨h.pins_lt, (rfl : columns = _)⟩) (rfl : slots = slots) hprice
  have hpins : ∀ i ∈ columns, i < board.pins.size := fun i hi =>
    h.pins_lt i (List.mem_of_mem_filter hi)
  by_cases hempty : (slots.isEmpty || columns.isEmpty) = true
  · rw [if_pos hempty] at hmatrix
    obtain ⟨hanswer, hstate⟩ := adopt_of_ok (m := m) m.sec.pinMatrixLog hmatrix rfl
    exact ⟨_, _, hanswer, hstate, hpins, fun _ _ _ hrow => nomatch hrow⟩
  · rw [if_neg hempty] at hmatrix
    have hne : columns ≠ [] := fun hnil => hempty (by simp [hnil])
    obtain ⟨a, ha⟩ := exists_solution (m.pinPrice board) (h.pins_nodup.filter _)
      (m.openSlots_nodup board) hne
    obtain ⟨hanswer, hstate⟩ := adopt_of_ok (m := m) m.sec.pinMatrixLog hmatrix ha.solved
    refine ⟨_, _, hanswer, hstate, hpins, fun col row hcol hrow => ?_⟩
    have hslot := List.getElem?_eq_getElem (ha.row_lt hrow)
    have hcol := List.getElem?_eq_getElem (show col < columns.length from hcol)
    have hfree := isAvailable_of_mem_openSlots (List.mem_of_getElem? hslot)
    obtain ⟨s, hs, -⟩ := (Option.any_eq_true _ _).mp hfree
    exact ⟨_, s, _, hslot, hs, cell_priced hslot hcol⟩

end Matching

namespace Run

variable {start : Board} {m : Matching} {w : Work} {ms : List Matching}

/-- A step that goes through on every section that can be placed, and leaves it so. -/
def Finishes (start : Board) (step : SectionStep) : Prop :=
  ∀ m w, Frame start w.board → m.Placeable start → (step m w).answer = .ok () ∧
    Frame start (step m w).state.2.board ∧ (step m w).state.1.Placeable start

theorem reserveStep_finishes : Finishes start reserveStep := by
  intro m w hframe hm
  by_cases hne : m.sec.groups = []
  · rw [(step_of_noGroups hne w).1]
    exact ⟨rfl, hframe, hm⟩
  · have hnow := hm.frame hframe
    obtain ⟨a, ha⟩ := m.exists_solves w.board hne
    obtain ⟨hanswer, hstate⟩ :=
      reserveStep_of_ok hne (Matching.groupMatrix_eq hnow.within hne hnow.prices) ha.solved
    rw [hstate]
    exact ⟨hanswer, hframe, hm.worked m.matrix m.assignment _⟩

theorem regularStep_finishes : Finishes start (pinStep false) := by
  intro m w hframe hm
  have hnow := hm.frame hframe
  obtain ⟨hfound, ps, hfills, -⟩ := Matching.commitPins_fills hnow.pins_nodup hnow.pins_lt
    fun pin _ slot _ s hs => hnow.pinPrice_eq pin hs
  obtain ⟨result, hpass, -⟩ := hfills.answer
  obtain ⟨hanswer, -⟩ := pinStep_of_ok hfound hpass
  obtain ⟨⟨matrix, assignment, hm'⟩, cs, hopen, hboard, -⟩ := pinStep_opens hanswer
  rw [hm', hboard]
  exact ⟨hanswer, hframe.trans hopen.frame, hm.worked matrix assignment m.reserved⟩

theorem groupStep_finishes : Finishes start groupStep := by
  intro m w hframe hm
  by_cases hne : m.sec.groups = []
  · rw [(step_of_noGroups hne w).2]
    exact ⟨rfl, hframe, hm⟩
  · have hnow := hm.frame hframe
    obtain ⟨a, ha⟩ := m.exists_solves w.board hne
    obtain ⟨hanswer, hlike, hopen, hboard⟩ := ha.groupStep hnow.within hne hnow.prices
    obtain ⟨room, hsec⟩ := hlike.sec_eq
    rw [hboard]
    refine ⟨hanswer, hframe.trans hopen.frame, ⟨?_, ?_, ?_⟩, ?_, ?_, ?_⟩
    · exact hsec ▸ hm.within.stop_le
    · exact hsec ▸ hm.within.members_lt
    · rw [hlike.blockSize_eq, hm.within.blockSize_eq, hsec]
      rfl
    · exact hsec ▸ hm.pins_nodup
    · exact hsec ▸ hm.pins_lt
    · exact hlike.model_eq ▸ hm.total

theorem laterPasses_finish (config : Config) :
    ∀ step ∈ laterPasses config, Finishes start step := by
  intro step hstep
  simp only [laterPasses, List.mem_append] at hstep
  rcases hstep with (hstep | hstep) | hstep
  · split at hstep
    · exact List.mem_singleton.mp hstep ▸ reserveStep_finishes
    · cases hstep
  · exact List.mem_singleton.mp hstep ▸ regularStep_finishes
  · split at hstep
    · exact List.mem_singleton.mp hstep ▸ groupStep_finishes
    · cases hstep

theorem Finishes.sweep {step : SectionStep} (h : Finishes start step) (hframe : Frame start w.board)
    (hms : ∀ m ∈ ms, m.Placeable start) :
    (Run.sweep step ms w).answer = .ok () ∧ Frame start (Run.sweep step ms w).state.2.board ∧
      ∀ m ∈ (Run.sweep step ms w).state.1, m.Placeable start := by
  have hall := sweep_finishes step ms w
    (I := fun done rest w => Frame start w.board ∧ ∀ m ∈ done ++ rest, m.Placeable start)
    (fun done m rest w ⟨hframe, hms⟩ => by
      obtain ⟨hdone, hrest⟩ := List.forall_mem_append.mp hms
      obtain ⟨hm, hrest⟩ := List.forall_mem_cons.mp hrest
      obtain ⟨hanswer, hframe', hm'⟩ := h m w hframe hm
      exact ⟨hanswer, hframe', List.forall_mem_append.mpr
        ⟨List.forall_mem_append.mpr ⟨hdone, List.forall_mem_singleton.mpr hm'⟩, hrest⟩⟩)
    ⟨hframe, hms⟩
  rwa [List.append_nil] at hall

theorem sweeps_finish {steps : List SectionStep} (hsteps : ∀ step ∈ steps, Finishes start step)
    {s : List Matching × Work} (hframe : Frame start s.2.board)
    (hms : ∀ m ∈ s.1, m.Placeable start) : (sweeps steps s).answer = .ok () := by
  induction steps generalizing s with
  | nil => rfl
  | cons step steps ih =>
    obtain ⟨hstep, hrest⟩ := List.forall_mem_cons.mp hsteps
    obtain ⟨hanswer, hframe', hms'⟩ := hstep.sweep hframe hms
    rw [(sweeps_cons hanswer steps).1]
    exact ih hrest hframe' hms'

end Run

end PinRing
