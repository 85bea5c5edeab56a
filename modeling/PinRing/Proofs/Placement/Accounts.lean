import Mathlib.Tactic.Common
import PinRing.Proofs.Placement.Charges
import PinRing.Proofs.Placement.Journal
import PinRing.Proofs.Placement.Leaders

/-! The accounts of a run: what its passes charge, one section after the other.  The passes over
pins warn in the order of their commits.  The pass over groups looks for blocks in each section when
it comes to it, and warns about the groups that are left out there. -/

namespace PinRing

open Board

namespace Run

variable {start : Board} {model : CostModel} {w mid next : Work} {m : Matching} {ms : List Matching}

/-! ### Passes over pins -/

section Pins

variable {cs ds : List Commit} {charges more : List Charge} {step : SectionStep}

/-- On the way from `w` to `next` the report has taken in the charges for first commits. -/
structure Billed (start : Board) (model : CostModel) (w next : Work) (cs : List Commit)
    (charges : List Charge) : Prop where
  firsts : w.board.Firsts cs
  board_eq : next.board = w.board.takeAll cs
  totalCost_eq : next.report.totalCost = w.report.totalCost + Charge.total charges
  warnings_eq : next.report.warnings = w.report.warnings ++ Charge.warnings charges
  charges_eq : charges.map some = (start.led cs).map (start.commitCharge? model)

theorem Billed.refl (start : Board) (model : CostModel) (w : Work) :
    Billed start model w w [] [] where
  firsts := .nil _
  board_eq := rfl
  totalCost_eq := (Int.add_zero _).symm
  warnings_eq := (List.append_nil _).symm
  charges_eq := rfl

theorem Billed.trans (h : Billed start model w mid cs charges)
    (h' : Billed start model mid next ds more) :
    Billed start model w next (cs ++ ds) (charges ++ more) where
  firsts := h.firsts.append (h.board_eq ▸ h'.firsts)
  board_eq := by rw [h'.board_eq, h.board_eq, takeAll_append]
  totalCost_eq := by
    rw [h'.totalCost_eq, h.totalCost_eq, Charge.total_append]
    omega
  warnings_eq := by
    rw [h'.warnings_eq, h.warnings_eq, Charge.warnings_append, List.append_assoc]
  charges_eq := by
    rw [led_append, List.map_append, List.map_append, h.charges_eq, h'.charges_eq]

/-- What a step leaves as it is of a matching. -/
def outline (m : Matching) : Section × CostModel × Nat := (m.sec, m.model, m.blockSize)

/-- The matching is for the model, and the pins of its section come before their partners. -/
def Led (start : Board) (model : CostModel) (o : Section × CostModel × Nat) : Prop :=
  o.2.1 = model ∧ PinPass.Leading start.pins o.1.pins

/-- A step that bills what it commits whenever it goes through. -/
def Bills (start : Board) (model : CostModel) (step : SectionStep) : Prop :=
  ∀ m w, Frame start w.board → Led start model (outline m) → (step m w).answer = .ok () →
    outline (step m w).state.1 = outline m ∧
      ∃ cs charges, Billed start model w (step m w).state.2 cs charges

theorem pinStep_bills (mirrored : Bool)
    (hne : ∀ k j, start.pins.partner k = .ok (some j) → k ≠ j) :
    Bills start model (pinStep mirrored) := by
  rintro m w hframe ⟨rfl, hlead⟩ hok
  obtain ⟨result, hfound, hpass⟩ := exists_of_pinStep_ok hok
  obtain ⟨-, hstate⟩ := pinStep_of_ok hfound hpass
  obtain ⟨matrix, a, cs, hmatrix, hm, hfirsts, hboard, hcommits⟩ :=
    findPins_firsts hframe hne hfound
  rw [hm] at hpass hstate
  rw [(Matching.commitPins_eq { m with matrix, assignment := a } w.board mirrored).2] at hpass
  obtain rfl := hcommits result hpass
  have hlead : PinPass.Leading w.board.pins matrix.columns := by
    intro i hi j hij
    rw [hframe.partner] at hij ⊢
    exact hlead i (Matching.eligible_columns hmatrix i hi).1 j hij
  obtain ⟨charges, hcost, hwarnings, hcharges⟩ := PinPass.run_charged hlead
    (fun row col slot pin cost => Section.price_of_pinMatrix hmatrix) hpass
  rw [hstate]
  refine ⟨rfl, result.commits, charges, hfirsts, hboard, ?_, ?_, ?_⟩
  · exact congrArg (w.report.totalCost + ·) hcost
  · exact congrArg (w.report.warnings ++ ·) hwarnings
  · rwa [hframe.led, hframe.commitCharge?] at hcharges

theorem reserveStep_bills : Bills start model reserveStep := by
  intro m w _ _ _
  obtain ⟨reserved, hstate⟩ := reserveStep_keeps m w
  rw [hstate]
  exact ⟨rfl, [], [], .refl start model w⟩

theorem Bills.sweep (h : Bills start model step) (hled : ∀ o ∈ ms.map outline, Led start model o)
    (hframe : Frame start w.board) (hok : (Run.sweep step ms w).answer = .ok ()) :
    (Run.sweep step ms w).state.1.map outline = ms.map outline ∧
      ∃ cs charges, Billed start model w (Run.sweep step ms w).state.2 cs charges := by
  have hall := sweep_reaches
    (I := fun done rest next => (done ++ rest).map outline = ms.map outline ∧
      ∃ cs charges, Billed start model w next cs charges)
    (fun done m rest next ⟨hsame, cs, charges, hbilled⟩ hok => by
      have hm : Led start model (outline m) := hled _ (hsame ▸ List.mem_map_of_mem (by simp))
      have hframe : Frame start next.board :=
        hbilled.board_eq ▸ hframe.trans hbilled.firsts.isOpen.frame
      obtain ⟨houtline, ds, more, hnext⟩ := h m next hframe hm hok
      refine ⟨?_, _, _, hbilled.trans hnext⟩
      rw [← hsame]
      simp [houtline])
    hok ⟨rfl, [], [], .refl start model w⟩
  rwa [List.append_nil] at hall

theorem Bills.sweeps {steps : List SectionStep} (h : ∀ step ∈ steps, Bills start model step)
    {s : List Matching × Work} (hled : ∀ o ∈ s.1.map outline, Led start model o)
    (hframe : Frame start s.2.board) (hok : (Run.sweeps steps s).answer = .ok ()) :
    (Run.sweeps steps s).state.1.map outline = s.1.map outline ∧
      ∃ cs charges, Billed start model s.2 (Run.sweeps steps s).state.2 cs charges := by
  refine Outcome.forEach_reaches
    (P := fun _ (next : List Matching × Work) => next.1.map outline = s.1.map outline ∧
      ∃ cs charges, Billed start model s.2 next.2 cs charges)
    (fun done step next hpre ⟨hsame, cs, charges, hbilled⟩ hok => ?_) hok
    ⟨rfl, [], [], .refl start model s.2⟩
  have hframe : Frame start next.2.board :=
    hbilled.board_eq ▸ hframe.trans hbilled.firsts.isOpen.frame
  obtain ⟨houtline, ds, more, hnext⟩ :=
    (h step (hpre.subset (by simp))).sweep (hsame.symm ▸ hled) hframe hok
  exact ⟨houtline.trans hsame, _, _, hbilled.trans hnext⟩

theorem pinPasses_bill (board : Board) (config : Config)
    (hne : ∀ k j, start.pins.partner k = .ok (some j) → k ≠ j) :
    ∀ step ∈ pinPasses board config, Bills start model step := by
  intro step hstep
  simp only [pinPasses, List.mem_append] at hstep
  rcases hstep with (hstep | hstep) | hstep
  · split at hstep
    · cases hstep
    · exact List.mem_singleton.mp hstep ▸ pinStep_bills true hne
  · split at hstep
    · exact List.mem_singleton.mp hstep ▸ reserveStep_bills
    · cases hstep
  · exact List.mem_singleton.mp hstep ▸ pinStep_bills false hne

end Pins

/-! ### The pass over groups -/

/-- What the pass over groups does in a section: the groups that it puts on blocks of the board, and
those that it leaves out. -/
structure Visit where
  sec : Section
  board : Board
  seats : List GroupPass.Seat
  left : List PinGroup

namespace Visit

def commits (v : Visit) : List Commit := v.seats.flatMap GroupPass.Seat.commits

def charges (v : Visit) : List Charge := v.seats.map GroupPass.Seat.charge

/-- The groups that are left out although there is a block. -/
def unserved (v : Visit) : List PinGroup :=
  if v.sec.hasCandidate v.board.boundary then v.left else []

/-- The groups are those of the section, and those on blocks are charged what they cost there. -/
structure Sound (start : Board) (model : CostModel) (v : Visit) : Prop where
  groups_perm : (v.seats.map (·.group) ++ v.left).Perm v.sec.groups
  priced : ∀ s ∈ v.seats, s.Priced start model

end Visit

/-- On the way from `w` to `next` the report has taken in the visits. -/
structure Served (w next : Work) (vs : List Visit) : Prop where
  isOpen : w.board.Open (vs.flatMap Visit.commits)
  board_eq : next.board = w.board.takeAll (vs.flatMap Visit.commits)
  totalCost_eq : next.report.totalCost =
    w.report.totalCost + Charge.total (vs.flatMap Visit.charges)
  warnings_perm : next.report.warnings.Perm (w.report.warnings ++
    (Charge.warnings (vs.flatMap Visit.charges) ++
      (vs.flatMap Visit.unserved).map GroupPass.leftOut))

theorem Served.nil (w : Work) : Served w w [] where
  isOpen := .nil _
  board_eq := rfl
  totalCost_eq := (Int.add_zero _).symm
  warnings_perm := .of_eq (List.append_nil _).symm

theorem Served.cons {v : Visit} {vs : List Visit} (h : Served w mid [v]) (h' : Served mid next vs) :
    Served w next (v :: vs) where
  isOpen := by
    have hfirst := h.isOpen
    have hrest := h'.isOpen
    rw [h.board_eq] at hrest
    rw [List.flatMap_singleton] at hfirst hrest
    exact Open.append_iff.mpr ⟨hfirst, hrest⟩
  board_eq := by
    rw [h'.board_eq, h.board_eq, ← takeAll_append, ← List.flatMap_append]
    rfl
  totalCost_eq := by
    rw [h'.totalCost_eq, h.totalCost_eq, Int.add_assoc, ← Charge.total_append,
      ← List.flatMap_append]
    rfl
  warnings_perm := by
    refine (h'.warnings_perm.trans (h.warnings_perm.append_right _)).trans ?_
    rw [List.flatMap_singleton, List.flatMap_singleton, List.flatMap_cons, List.flatMap_cons,
      Charge.warnings_append, List.map_append]
    simp only [List.append_assoc]
    exact (List.perm_append_comm_assoc _ _ _).append_left _ |>.append_left _

/-- The sections as a sweep comes to them, each with the board at that time. -/
def visits (step : SectionStep) : List Matching → Work → List (Section × Board)
  | [], _ => []
  | m :: rest, w => (m.sec, w.board) :: visits step rest (step m w).state.2

/-- A group step that goes through serves its section. -/
theorem groupStep_served (hframe : Frame start w.board) (hsize : m.blockSize = m.sec.blockSize)
    (hok : (groupStep m w).answer = .ok ()) :
    ∃ v : Visit, (v.sec, v.board) = (m.sec, w.board) ∧ v.Sound start m.model ∧
      Served w (groupStep m w).state.2 [v] := by
  by_cases hne : m.sec.groups = []
  · refine ⟨⟨m.sec, w.board, [], []⟩, rfl, ⟨.of_eq hne.symm, fun _ hs => nomatch hs⟩, ?_⟩
    rw [(step_of_noGroups hne w).2]
    have hnone : Visit.unserved ⟨m.sec, w.board, [], []⟩ = [] := by
      rw [Visit.unserved]
      split <;> rfl
    refine ⟨.nil _, rfl, (Int.add_zero _).symm, .of_eq ?_⟩
    rw [List.flatMap_singleton, List.flatMap_singleton, hnone]
    exact (List.append_nil _).symm
  obtain ⟨result, hfound, hpass⟩ := exists_of_groupStep_ok hne hok
  obtain ⟨-, hstate⟩ := groupStep_of_ok hne hfound hpass
  obtain ⟨matrix, a, hmatrix, -, hm⟩ := Matching.adopt_ok hfound
  have hm : (m.findGroups w.board).state = { m with matrix, assignment := a } := hm
  rw [hm] at hpass hstate
  let ready : Matching := { m with matrix, assignment := a }
  have hready : ready.Ready w.board .all (fun _ => True) m.reflection :=
    ⟨rfl, hsize, fun _ _ _ _ _ => trivial, fun _ _ => trivial⟩
  obtain ⟨cs, hmoves, hboard, -, hcommits⟩ := Matching.commitGroups_moves hready hmatrix
  obtain rfl := hcommits result hpass
  rw [(Matching.commitGroups_eq ready w.board).1] at hpass
  have hmatrix : m.sec.groupMatrix w.board.boundary m.model m.sec.blockSize = .ok matrix :=
    hsize ▸ hmatrix
  obtain ⟨seats, left, hperm, hseats, hcost, hwarnings, hpriced⟩ := GroupPass.run_served
    (fun row col slot g cost hstart hg => Section.price_of_groupMatrix hmatrix hstart hg) hpass
  rw [Section.empty_of_groupMatrix hmatrix hne] at hwarnings
  have hunserved : Visit.unserved ⟨m.sec, w.board, seats, left⟩ =
      if (!m.sec.hasCandidate w.board.boundary) = true then [] else left := by
    rw [Visit.unserved]
    cases m.sec.hasCandidate w.board.boundary <;> rfl
  refine ⟨⟨m.sec, w.board, seats, left⟩, rfl, ⟨hperm, fun s hs => ?_⟩, ?_⟩
  · obtain ⟨pos, hpos, hprice⟩ := hpriced s hs
    exact ⟨pos, hframe.posOf? s.start ▸ hpos, hprice⟩
  rw [hstate]
  refine ⟨?_, ?_, ?_, ?_⟩
  · rw [List.flatMap_singleton, Visit.commits, ← hseats]
    exact hmoves.isOpen
  · rw [List.flatMap_singleton, Visit.commits, ← hseats]
    exact hboard
  · rw [List.flatMap_singleton, Visit.charges, ← hcost]
    rfl
  · rw [List.flatMap_singleton, List.flatMap_singleton, hunserved]
    exact hwarnings.append_left _

theorem groupSweep_served (hframe : Frame start w.board)
    (houtline : ∀ o ∈ ms.map outline, o.2.1 = model ∧ o.2.2 = o.1.blockSize)
    (hok : (sweep groupStep ms w).answer = .ok ()) :
    ∃ vs : List Visit, visits groupStep ms w = vs.map (fun v => (v.sec, v.board)) ∧
      vs.map (·.sec) = ms.map (·.sec) ∧ (∀ v ∈ vs, v.Sound start model) ∧
      Served w (sweep groupStep ms w).state.2 vs := by
  induction ms generalizing w with
  | nil => exact ⟨[], rfl, rfl, List.forall_mem_nil _, .nil w⟩
  | cons m rest ih =>
    rw [List.map_cons] at houtline
    obtain ⟨⟨rfl, hsize⟩, hrest⟩ := List.forall_mem_cons.mp houtline
    rw [sweep] at hok ⊢
    cases ha : (groupStep m w).answer with
    | error f =>
      rw [ha] at hok
      cases hok
    | ok _ =>
      simp only [ha] at hok ⊢
      obtain ⟨v, hv, hsound, hserved⟩ := groupStep_served hframe hsize ha
      have hframe : Frame start (groupStep m w).state.2.board :=
        hserved.board_eq ▸ hframe.trans hserved.isOpen.frame
      obtain ⟨vs, hvisits, hsecs, hsounds, hothers⟩ := ih hframe hrest hok
      refine ⟨v :: vs, ?_, ?_, List.forall_mem_cons.mpr ⟨hsound, hsounds⟩, hserved.cons hothers⟩
      · rw [visits, hvisits, List.map_cons, hv]
      · rw [List.map_cons, List.map_cons, hsecs, (Prod.mk.inj hv).1]

/-! ### Whole runs -/

/-- The sections as the pass over groups comes to them, each with the board at that time.  There is
no such pass without sections, or if the configuration leaves the groups out. -/
def groupVisits (board : Board) (model : CostModel) (reflection : Option Reflection)
    (config : Config) : List (Section × Board) :=
  let secs := board.boundary.sections config.sectionSize
  if secs.isEmpty || !config.assignGroups then []
  else
    let shared := distribute board model config secs
    let prepared :=
      sweeps (pinPasses board config) (opening board model reflection shared.state)
    visits groupStep prepared.state.1 prepared.state.2

/-- What a run comes to: the passes over pins have made the commits `cs`, and the pass over groups
has served the visits. -/
structure Settlement (start : Board) (model : CostModel) (after : Board) (cs : List Commit)
    (charges : List Charge) (vs : List Visit) : Prop where
  firsts : start.Firsts cs
  charges_eq : charges.map some = (start.led cs).map (start.commitCharge? model)
  isOpen : (start.takeAll cs).Open (vs.flatMap Visit.commits)
  after_eq : after = (start.takeAll cs).takeAll (vs.flatMap Visit.commits)
  sound : ∀ v ∈ vs, v.Sound start model
  groups_subperm : (vs.flatMap (·.sec.groups)).Subperm start.pins.groups
  members_ne : ∀ v ∈ vs, ∀ g ∈ v.sec.groups, g.members ≠ []

theorem Settlement.refl (start : Board) (model : CostModel) :
    Settlement start model start [] [] [] where
  firsts := .nil start
  charges_eq := rfl
  isOpen := .nil start
  after_eq := rfl
  sound := List.forall_mem_nil _
  groups_subperm := List.nil_subperm
  members_ne := List.forall_mem_nil _

/-- The report has the charges for all commits and visits. -/
structure Reckoned (report : Report) (charges : List Charge) (vs : List Visit) : Prop where
  totalCost_eq : report.totalCost = Charge.total (charges ++ vs.flatMap Visit.charges)
  warnings_perm : report.warnings.Perm
    (Charge.warnings (charges ++ vs.flatMap Visit.charges) ++
      (vs.flatMap Visit.unserved).map GroupPass.leftOut)

section

variable {board : Board} {reflection : Option Reflection} {config : Config}

theorem pinPasses_billed (hb : board.Paired) {secs : List Section}
    (hdistribute : (distribute board model config secs).answer = .ok ()) :
    let opened := opening board model reflection (distribute board model config secs).state
    let swept := sweeps (pinPasses board config) opened
    swept.answer = .ok () →
      swept.state.1.map outline =
          (distribute board model config secs).state.map (fun s => (s, model, s.blockSize)) ∧
        ∃ cs charges, Billed board model opened.2 swept.state.2 cs charges := by
  intro opened swept hok
  have hopened : opened.1.map outline =
      (distribute board model config secs).state.map fun s => (s, model, s.blockSize) := by
    simp only [opened, opening, List.map_map]
    rfl
  have hled : ∀ o ∈ opened.1.map outline, Led board model o := by
    rw [hopened]
    refine List.forall_mem_map.mpr fun s hs => ⟨rfl, fun i hi j hij => ⟨?_, hb.partner_symm hij⟩⟩
    exact Distribution.leaders_distribute hb hdistribute i (List.mem_flatMap.mpr ⟨s, hs, hi⟩) j hij
  obtain ⟨houtline, hbilled⟩ := Bills.sweeps
    (pinPasses_bill board config fun k j => PinTable.ne_of_partner hb.ne) hled (.refl board) hok
  exact ⟨houtline.trans hopened, hbilled⟩

theorem sweeps_settle (hb : board.Paired)
    (hne : board.boundary.sections config.sectionSize ≠ [])
    (hdistribute :
      (distribute board model config (board.boundary.sections config.sectionSize)).answer =
        .ok ()) :
    let shared := distribute board model config (board.boundary.sections config.sectionSize)
    let swept := sweeps (passes board config) (opening board model reflection shared.state)
    swept.answer = .ok () → ∃ cs charges vs,
      Settlement board model swept.state.2.board cs charges vs ∧
      groupVisits board model reflection config = vs.map (fun v => (v.sec, v.board)) ∧
      Reckoned swept.state.2.report charges vs := by
  intro shared swept hok
  let opened := opening board model reflection shared.state
  let prepared := sweeps (pinPasses board config) opened
  have hsplit : swept = prepared.andThen fun s _ =>
      sweeps (if config.assignGroups then [groupStep] else []) s :=
    sweeps_append (pinPasses board config) _ opened
  rw [hsplit] at hok ⊢
  obtain ⟨_, hpins, hlast, hstate⟩ := Outcome.exists_of_andThen_eq_ok hok
  obtain ⟨houtline, cs, charges, hbilled⟩ := pinPasses_billed hb hdistribute hpins
  have hboard : prepared.state.2.board = board.takeAll cs := hbilled.board_eq
  have hcost : prepared.state.2.report.totalCost = Charge.total charges :=
    hbilled.totalCost_eq.trans (Int.zero_add _)
  have hwarned : prepared.state.2.report.warnings = Charge.warnings charges := hbilled.warnings_eq
  rw [hstate]
  cases hassign : config.assignGroups with
  | false =>
    refine ⟨cs, charges, [], ⟨hbilled.firsts, hbilled.charges_eq, .nil _, hboard,
      List.forall_mem_nil _, List.nil_subperm, List.forall_mem_nil _⟩, ?_, ?_, ?_⟩
    · simp [groupVisits, hassign]
    · rw [List.flatMap_nil, List.append_nil]
      exact hcost
    · rw [List.flatMap_nil, List.flatMap_nil, List.append_nil, List.map_nil, List.append_nil]
      exact .of_eq hwarned
  | true =>
    rw [hassign] at hlast
    obtain ⟨hanswer, hlater⟩ := sweeps_singleton groupStep prepared.state
    have hsized : ∀ o ∈ prepared.state.1.map outline, o.2.1 = model ∧ o.2.2 = o.1.blockSize := by
      rw [houtline]
      exact List.forall_mem_map.mpr fun s _ => ⟨rfl, rfl⟩
    have hframe : Frame board prepared.state.2.board := hboard ▸ hbilled.firsts.isOpen.frame
    obtain ⟨vs, hvisits, hsecs, hsound, hserved⟩ :=
      groupSweep_served hframe hsized (hanswer.symm.trans hlast)
    have hsecs : vs.map (·.sec) = shared.state := by
      have hfst := congrArg (List.map Prod.fst) houtline
      rw [List.map_map, List.map_map] at hfst
      exact hsecs.trans (hfst.trans (List.map_id _))
    rw [if_pos rfl, hlater]
    refine ⟨cs, charges, vs, ⟨hbilled.firsts, hbilled.charges_eq, ?_, ?_, hsound, ?_,
      fun v hv g hg hnil => ?_⟩, ?_, ?_, ?_⟩
    · exact hboard ▸ hserved.isOpen
    · rw [hserved.board_eq, hboard]
    · have hgroups := Distribution.groups_distribute hdistribute
      rwa [show (distribute board model config _).state = vs.map (·.sec) from hsecs.symm,
        List.flatMap_map] at hgroups
    · -- A group without members counts as placed, so it is given to no section.
      have hmem : v.sec ∈ shared.state := hsecs ▸ List.mem_map_of_mem hv
      have hplaced := (Distribution.given_distribute hdistribute v.sec hmem g hg).2
      rw [hnil] at hplaced
      cases hplaced
    · simp only [groupVisits, hassign, Bool.not_true, Bool.or_false, List.isEmpty_iff, hne,
        if_false]
      exact hvisits
    · rw [hserved.totalCost_eq, hcost, Charge.total_append]
    · rw [Charge.warnings_append, List.append_assoc, ← hwarned]
      exact hserved.warnings_perm

/-- A run over paired pins that ends in a report. -/
theorem run_settles (hb : board.Paired) {verdict : Verdict}
    (hverdict : (run board model reflection config).answer = .ok verdict) :
    ∃ cs charges vs,
      Settlement board model (run board model reflection config).state.1 cs charges vs ∧
      groupVisits board model reflection config = vs.map (fun v => (v.sec, v.board)) ∧
      Reckoned verdict.report charges vs := by
  by_cases hne : board.boundary.sections config.sectionSize = []
  · rw [run_of_nil reflection hne] at hverdict ⊢
    cases hverdict
    refine ⟨[], [], [], .refl board model, ?_, rfl, .refl _⟩
    simp [groupVisits, hne]
  cases hdistribute :
    (distribute board model config (board.boundary.sections config.sectionSize)).answer with
  | error f =>
    rw [(run_of_distribute_error reflection hne hdistribute).1] at hverdict
    cases hverdict
  | ok _ =>
    obtain ⟨hstate, hanswer⟩ := run_of_distribute reflection hne hdistribute
    rw [hanswer, place_answer] at hverdict
    obtain ⟨_, hswept, hverdict⟩ := exists_of_bind_eq_ok hverdict
    obtain ⟨cs, charges, vs, hsettled, hvisits, hreckoned⟩ :=
      sweeps_settle hb hne hdistribute hswept
    rw [hstate, place_state, (eq_of_conclude hverdict).2]
    exact ⟨cs, charges, vs, hsettled, hvisits, hreckoned.totalCost_eq, hreckoned.warnings_perm⟩

end

end Run

end PinRing
