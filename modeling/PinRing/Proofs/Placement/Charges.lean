import PinRing.Proofs.Placement.Blocks
import PinRing.Proofs.Placement.Report

/-! What passes charge for places.  Of each place that a pass gives out it takes the cost from a
cell of its matrix, and it warns if that is infeasible.  In a matrix that was built for the board
the cell is the price of the pin, or of the group, at the slot of its row. -/

namespace PinRing

open Board

/-- The cost of a place and the name of the pin or group that has it. -/
structure Charge where
  name : String
  cost : Cost
deriving DecidableEq

namespace Charge

/-- The warning about a place whose cost is infeasible. -/
def warning? (c : Charge) : Option Diagnostic :=
  if c.cost.feasible then none else some ⟨.warning, insufficientSpace c.name, c.name⟩

def warnings (cs : List Charge) : List Diagnostic := cs.filterMap warning?

/-- The sum of the feasible costs. -/
def total (cs : List Charge) : Int := Cost.feasibleSum (cs.map (·.cost))

variable {cs ds : List Charge} {c : Charge}

theorem warnings_append (cs ds : List Charge) : warnings (cs ++ ds) = warnings cs ++ warnings ds :=
  List.filterMap_append

theorem total_append (cs ds : List Charge) : total (cs ++ ds) = total cs + total ds := by
  rw [total, total, total, Cost.feasibleSum, List.map_append, List.map_append, List.sum_append]
  rfl

theorem total_singleton (c : Charge) : total [c] = c.cost.feasibleValue := by
  simp [total, Cost.feasibleSum]

theorem total_perm (h : cs.Perm ds) : total cs = total ds := by
  rw [total, total, Cost.feasibleSum, Cost.feasibleSum]
  exact ((h.map _).map _).sum_eq

theorem warnings_perm (h : cs.Perm ds) : (warnings cs).Perm (warnings ds) :=
  h.filterMap _

theorem severity_of_mem_warnings {d : Diagnostic} (h : d ∈ warnings cs) :
    d.severity = .warning := by
  obtain ⟨c, -, hc⟩ := List.mem_filterMap.mp h
  rw [warning?] at hc
  split at hc
  · cases hc
  · cases hc
    rfl

end Charge

/-! ### Prices -/

/-- What a pin is charged for a position. -/
def Board.chargeAt? (b : Board) (model : CostModel) (i : Nat) (pos : Point) : Option Charge :=
  (b.pins.pins[i]?).bind fun p => (model i pos).toOption.map (⟨p.name, ·⟩)

/-- What a commit is charged. -/
def Board.commitCharge? (b : Board) (model : CostModel) (c : Commit) : Option Charge :=
  (b.boundary.posOf? c.slot).bind (b.chargeAt? model c.pin)

/-- What a group is charged for a position. -/
def PinGroup.chargeAt? (g : PinGroup) (model : CostModel) (pos : Point) : Option Charge :=
  (model.groupCost g.members pos).toOption.map (⟨g.name, ·⟩)

/-- The pin comes after its mirror partner. -/
def PinTable.follows (t : PinTable) (i : Nat) : Bool :=
  match t.partner i with
  | .ok (some j) => j < i
  | _ => false

/-- The commits of pins that do not follow a partner. -/
def Board.led (b : Board) (cs : List Commit) : List Commit :=
  cs.filter fun c => !b.pins.follows c.pin

namespace Board

variable {b before after : Board} {cs : List Commit} {i : Nat}

theorem led_append (b : Board) (cs ds : List Commit) : b.led (cs ++ ds) = b.led cs ++ b.led ds :=
  List.filter_append ..

theorem mem_pins_led :
    i ∈ (b.led cs).map (·.pin) ↔ i ∈ cs.map (·.pin) ∧ b.pins.follows i = false := by
  simp only [led, List.mem_map, List.mem_filter, Bool.not_eq_true']
  constructor
  · rintro ⟨c, ⟨hc, hfirst⟩, rfl⟩
    exact ⟨⟨c, hc, rfl⟩, hfirst⟩
  · rintro ⟨⟨c, hc, rfl⟩, hfirst⟩
    exact ⟨c, ⟨hc, hfirst⟩, rfl⟩

theorem Frame.follows (h : Frame before after) : after.pins.follows = before.pins.follows := by
  funext i
  rw [PinTable.follows, PinTable.follows, h.partner]

theorem Frame.led (h : Frame before after) (cs : List Commit) : after.led cs = before.led cs := by
  rw [Board.led, Board.led, h.follows]

theorem Frame.chargeAt? (h : Frame before after) (model : CostModel) (i : Nat) :
    after.chargeAt? model i = before.chargeAt? model i := by
  funext pos
  cases hp : before.pins.pins[i]? with
  | none =>
    have hsize : before.pins.size ≤ i := Array.getElem?_eq_none_iff.mp hp
    have hnone : after.pins.pins[i]? = none :=
      Array.getElem?_eq_none (h.size_pins.trans_le hsize)
    rw [Board.chargeAt?, Board.chargeAt?, hp, hnone]
  | some p =>
    obtain ⟨q, hq, hname, -⟩ := h.pin hp
    rw [Board.chargeAt?, Board.chargeAt?, hp, hq, Option.bind_some, Option.bind_some, hname]

theorem Frame.commitCharge? (h : Frame before after) (model : CostModel) :
    after.commitCharge? model = before.commitCharge? model := by
  funext c
  rw [Board.commitCharge?, Board.commitCharge?, h.posOf?, h.chargeAt?]

end Board

namespace Section

variable {s : Section} {b : Boundary} {pins : PinTable} {model : CostModel} {f : PinFilter}
variable {matrix : CostMatrix} {row col : Nat} {cost : Cost}

/-- A cell of a pin matrix is the price of the pin of its column on the slot of its row. -/
theorem price_of_pinMatrix {slot pin : Nat} (h : s.pinMatrix b pins model f = .ok matrix)
    (hslot : matrix.rowSlots[row]? = some slot) (hpin : matrix.columns[col]? = some pin)
    (hcell : matrix.cell row col = .ok cost) :
    ∃ pos, b.posOf? slot = some pos ∧ model pin pos = .ok cost := by
  obtain ⟨columns, -, h⟩ := exists_of_bind_eq_ok h
  simp only at h
  split at h
  · cases h
    cases hslot
  · obtain ⟨cells, hcells, h⟩ := exists_of_bind_eq_ok h
    cases h
    obtain ⟨costs, hrow, hcost⟩ := CostMatrix.cell_eq_ok.mp hcell
    obtain ⟨slot', hslot', hcosts⟩ := getElem?_of_mapM_eq_ok hcells hrow
    obtain rfl := Option.some.inj (hslot.symm.trans hslot')
    obtain ⟨t, ht, hcosts⟩ := exists_of_bind_eq_ok hcosts
    obtain ⟨pin', hpin', hprice⟩ := getElem?_of_mapM_eq_ok hcosts hcost
    obtain rfl := Option.some.inj (hpin.symm.trans hpin')
    refine ⟨t.pos, ?_, hprice⟩
    rw [Boundary.posOf?, Boundary.slot_eq_ok.mp ht, Option.map_some]

/-- A cell of a group matrix is the price of the group of its column at the first slot of its
row. -/
theorem price_of_groupMatrix {n : Int} {start : Nat} {g : PinGroup}
    (h : s.groupMatrix b model n = .ok matrix) (hstart : matrix.rowSlots[row]? = some start)
    (hg : s.groups[col]? = some g) (hcell : matrix.cell row col = .ok cost) :
    ∃ pos, b.posOf? start = some pos ∧ model.groupCost g.members pos = .ok cost := by
  obtain ⟨starts, -, h⟩ := exists_of_bind_eq_ok h
  split at h
  · cases h
    cases hstart
  · obtain ⟨cells, hcells, h⟩ := exists_of_bind_eq_ok h
    cases h
    obtain ⟨costs, hrow, hcost⟩ := CostMatrix.cell_eq_ok.mp hcell
    obtain ⟨start', hstart', hcosts⟩ := getElem?_of_mapM_eq_ok hcells hrow
    obtain rfl := Option.some.inj (hstart.symm.trans hstart')
    obtain ⟨t, ht, hcosts⟩ := exists_of_bind_eq_ok hcosts
    obtain ⟨g', hg', hprice⟩ := getElem?_of_mapM_eq_ok hcosts hcost
    obtain rfl := Option.some.inj (hg.symm.trans hg')
    refine ⟨t.pos, ?_, hprice⟩
    rw [Boundary.posOf?, Boundary.slot_eq_ok.mp ht, Option.map_some]

/-- The section still has a block to offer to its groups. -/
def hasCandidate (s : Section) (b : Boundary) : Bool :=
  match s.candidateStarts b s.blockSize with
  | .ok starts => !starts.isEmpty
  | .error _ => false

theorem empty_of_groupMatrix (h : s.groupMatrix b model s.blockSize = .ok matrix)
    (hne : s.groups ≠ []) : matrix.empty = !s.hasCandidate b := by
  have hcolumns : (List.range s.groups.length).isEmpty = false := by simpa using hne
  obtain ⟨starts, hstarts, h⟩ := exists_of_bind_eq_ok h
  have hcandidate : s.hasCandidate b = !starts.isEmpty := by
    rw [hasCandidate, ← Int.toNat_natCast s.blockSize, hstarts]
  rw [hcandidate, Bool.not_not]
  simp only [hcolumns, Bool.or_false] at h
  split at h
  · rename_i hnone
    cases h
    rw [hnone]
    rfl
  · rename_i hsome
    obtain ⟨cells, hcells, h⟩ := exists_of_bind_eq_ok h
    cases h
    rw [Bool.not_eq_true] at hsome
    rw [hsome, CostMatrix.empty, Bool.or_eq_false_iff]
    have hlength := length_of_mapM_eq_ok hcells
    refine ⟨?_, ?_⟩
    · rw [CostMatrix.rows, hlength]
      simpa using hsome
    · simpa [CostMatrix.cols] using hne

end Section

/-! ### Passes over pins -/

namespace PinPass

variable {board : Board} {model : CostModel} {matrix : CostMatrix} {a : Assignment} {mode : Mode}
variable {plan next : Plan} {charges : List Charge} {col pin : Nat} {result : PassResult}

/-- The pins come before their partners, of which they are the partners. -/
def Leading (pins : PinTable) (is : List Nat) : Prop :=
  ∀ i ∈ is, ∀ j, pins.partner i = .ok (some j) → i < j ∧ pins.partner j = .ok (some i)

theorem Leading.follows {pins : PinTable} {is : List Nat} (h : Leading pins is) {i : Nat}
    (hi : i ∈ is) : pins.follows i = false := by
  unfold PinTable.follows
  split
  · rename_i j hj
    have := (h i hi j hj).1
    exact decide_eq_false (by omega)
  · rfl

theorem Leading.follows_partner {pins : PinTable} {is : List Nat} (h : Leading pins is) {i j : Nat}
    (hi : i ∈ is) (hj : pins.partner i = .ok (some j)) : pins.follows j = true := by
  obtain ⟨hlt, hback⟩ := h i hi j hj
  rw [PinTable.follows, hback]
  exact decide_eq_true hlt

/-- The cells of the matrix are the prices of pins on slots of the board. -/
def Prices (board : Board) (model : CostModel) (matrix : CostMatrix) : Prop :=
  ∀ (row col slot pin : Nat) (cost : Cost), matrix.rowSlots[row]? = some slot →
    matrix.columns[col]? = some pin → matrix.cell row col = .ok cost →
    ∃ pos, board.boundary.posOf? slot = some pos ∧ model pin pos = .ok cost

/-- The plan has the cost and the warnings of the charges, which are those of its commits, a partner
that comes along apart. -/
structure Plan.Charged (board : Board) (model : CostModel) (plan : Plan) (charges : List Charge) :
    Prop where
  cost_eq : plan.cost = Charge.total charges
  diagnostics_eq : plan.diagnostics = Charge.warnings charges
  charges_eq : charges.map some = (board.led plan.commits).map (board.commitCharge? model)

theorem Plan.diagnostics_add (plan : Plan) (name : String) (cs : List Commit) (cost : Cost) :
    (plan.add name cs cost).diagnostics =
      plan.diagnostics ++ Charge.warnings [⟨name, cost⟩] := by
  cases cost with
  | finite v => exact (List.append_nil _).symm
  | infeasible => rfl

theorem Plan.Charged.add (h : plan.Charged board model charges) (name : String) (cost : Cost)
    {cs : List Commit}
    (hcharge : [some ⟨name, cost⟩] = (board.led cs).map (board.commitCharge? model)) :
    (plan.add name cs cost).Charged board model (charges ++ [⟨name, cost⟩]) where
  cost_eq := by rw [Plan.cost_add, h.cost_eq, Charge.total_append, Charge.total_singleton]
  diagnostics_eq := by rw [Plan.diagnostics_add, h.diagnostics_eq, Charge.warnings_append]
  charges_eq := by
    rw [Plan.commits_add, led_append, List.map_append, List.map_append, h.charges_eq, ← hcharge]
    rfl

theorem Plan.Charged.planned (h : plan.Charged board model charges)
    (hlead : Leading board.pins matrix.columns) (hprices : Prices board model matrix)
    (hcol : matrix.columns[col]? = some pin)
    (hnext : Planned board matrix a mode plan col pin next) :
    ∃ charges, next.Charged board model charges := by
  have hmem := List.mem_of_getElem? hcol
  have hcharge : ∀ {p row slot cost o}, Matched board matrix a plan col pin p row slot →
      matrix.cell row col = .ok cost →
      board.commitCharge? model ⟨pin, slot, o⟩ = some ⟨p.name, cost⟩ := by
    intro p row slot cost o hmatched hcell
    obtain ⟨pos, hpos, hprice⟩ :=
      hprices row col slot pin cost (CostMatrix.rowSlot_eq_ok.mp hmatched.at_row) hcol hcell
    simp [Board.commitCharge?, Board.chargeAt?, hpos, hprice,
      PinTable.pin_eq_ok.mp hmatched.at_pin, Except.toOption]
  cases hnext with
  | skipped => exact ⟨charges, h⟩
  | failed => exact ⟨charges, h.cost_eq, h.diagnostics_eq, h.charges_eq⟩
  | single _ matched cell =>
    refine ⟨_, h.add _ _ ?_⟩
    simp [Board.led, hlead.follows hmem, hcharge matched cell]
  | pair _ matched partnered _ cell =>
    refine ⟨_, h.add _ _ ?_⟩
    simp [Board.led, hlead.follows hmem, hlead.follows_partner hmem partnered,
      hcharge matched cell]

/-- The cost and the warnings of a pass over pins are those of its commits. -/
theorem run_charged (hlead : Leading board.pins matrix.columns)
    (hprices : Prices board model matrix) (hok : (run board matrix a mode).answer = .ok result) :
    ∃ charges, result.cost = Charge.total charges ∧
      result.warnings = Charge.warnings charges ∧
      charges.map some = (board.led result.commits).map (board.commitCharge? model) := by
  obtain rfl | ⟨plan, -, hplan, rfl⟩ := result_eq hok
  · exact ⟨[], rfl, rfl, rfl⟩
  obtain ⟨charges, hcharged⟩ : ∃ charges, plan.Charged board model charges := by
    rw [← hplan]
    refine Outcome.forEach_state
      (P := fun plan : Plan => ∃ charges, plan.Charged board model charges)
      ?_ ⟨[], rfl, rfl, rfl⟩
    rintro current ⟨col, pin⟩ hmem ⟨charges, h⟩
    obtain ⟨⟨pin', col'⟩, hcolumn, heq⟩ := List.mem_map.mp hmem
    obtain ⟨rfl, rfl⟩ := Prod.mk.inj heq
    exact h.planned hlead hprices (List.mk_mem_zipIdx_iff_getElem?.mp hcolumn)
      (planColumn_planned board matrix a mode current _ _)
  refine ⟨charges, hcharged.cost_eq, ?_, hcharged.charges_eq⟩
  have herrors : (plan.failures.map failureDiagnostic).filter (·.severity = .warning) = [] := by
    refine List.filter_eq_nil_iff.mpr fun d hd => ?_
    obtain ⟨f, -, rfl⟩ := List.mem_map.mp hd
    simp [failureDiagnostic]
  rw [PassResult.warnings, List.filter_append, herrors, List.append_nil, hcharged.diagnostics_eq]
  exact List.filter_eq_self.mpr fun d hd => by simp [Charge.severity_of_mem_warnings hd]

end PinPass

/-! ### Passes over groups -/

namespace GroupPass

variable {board : Board} {model : CostModel} {sec : Section} {matrix : CostMatrix} {a : Assignment}
variable {p : Progress} {edge : Edge} {gs left : List PinGroup} {cs : List Commit}

/-- A group on the block that starts at a slot, and the cost of its place. -/
structure Seat where
  group : PinGroup
  edge : Edge
  start : Nat
  cost : Cost

namespace Seat

def commits (s : Seat) : List Commit := layout s.group s.edge s.start

def charge (s : Seat) : Charge := ⟨s.group.name, s.cost⟩

/-- The cost is that of the group at the first slot of the block. -/
def Priced (board : Board) (model : CostModel) (s : Seat) : Prop :=
  ∃ pos, board.boundary.posOf? s.start = some pos ∧
    model.groupCost s.group.members pos = .ok s.cost

end Seat

/-- The warning about a group that was left out for want of a block. -/
def leftOut (g : PinGroup) : Diagnostic :=
  ⟨.warning, s!"I/O pin group {g.name} received no slot block", g.name⟩

/-- Of the groups `gs` a pass under way has put some on blocks and left the others out. -/
structure Progress.Served (board : Board) (model : CostModel) (edge : Edge) (gs : List PinGroup)
    (p : Progress) (seats : List Seat) (left : List PinGroup) : Prop where
  edge_eq : p.sec.edge = edge
  groups_perm : (seats.map (·.group) ++ left).Perm gs
  commits_eq : p.result.commits = seats.flatMap Seat.commits
  cost_eq : p.result.cost = Charge.total (seats.map Seat.charge)
  warnings_perm : p.result.diagnostics.Perm
    (Charge.warnings (seats.map Seat.charge) ++ left.map leftOut)
  priced : ∀ s ∈ seats, s.Priced board model

/-- Members that are all committed change the commits of the result only. -/
theorem forEach_commitMember_result (hok : (Outcome.forEach commitMember p cs).answer = .ok ()) :
    (Outcome.forEach commitMember p cs).state.result =
        { p.result with commits := p.result.commits ++ cs } ∧
      (Outcome.forEach commitMember p cs).state.sec.edge = p.sec.edge := by
  induction cs generalizing p with
  | nil => exact ⟨by rw [List.append_nil]; rfl, rfl⟩
  | cons c cs ih =>
    rw [Outcome.forEach_cons] at hok ⊢
    obtain ⟨_, hc, hok, hstate⟩ := Outcome.exists_of_andThen_eq_ok hok
    obtain ⟨_, -, -, hfirst⟩ := Outcome.exists_of_andThen_eq_ok hc
    have hfirst : (commitMember p c).state.result =
          { p.result with commits := p.result.commits ++ [c] } ∧
        (commitMember p c).state.sec.edge = p.sec.edge := by
      rw [commitMember, hfirst]
      exact ⟨rfl, rfl⟩
    obtain ⟨hresult, hedge⟩ := ih hok
    rw [hstate, hresult, hedge, hfirst.1, hfirst.2, List.append_assoc]
    exact ⟨rfl, rfl⟩

/-- A group with a row goes on its block, at the cost of its cell. -/
theorem placeGroup_result {g : PinGroup} {col row : Nat} (hrow : a.rowOf? col = some row)
    (hok : (placeGroup matrix a p (g, col)).answer = .ok ()) :
    ∃ start cost, matrix.rowSlots[row]? = some start ∧ matrix.cell row col = .ok cost ∧
      (placeGroup matrix a p (g, col)).state.result =
        { p.result with
          commits := p.result.commits ++ layout g p.sec.edge start
          diagnostics := p.result.diagnostics ++ Charge.warnings [⟨g.name, cost⟩]
          cost := p.result.cost + cost.feasibleValue } ∧
      (placeGroup matrix a p (g, col)).state.sec.edge = p.sec.edge := by
  unfold placeGroup at hok ⊢
  simp only [hrow] at hok ⊢
  cases hslot : matrix.rowSlot row with
  | error f =>
    rw [hslot] at hok
    cases hok
  | ok start =>
  cases hcell : matrix.cell row col with
  | error f =>
    rw [hslot, Outcome.lift_ok, Outcome.done_andThen, hcell] at hok
    cases hok
  | ok cost =>
  simp only [hslot, hcell, Outcome.lift_ok, Outcome.done_andThen] at hok ⊢
  refine ⟨start, cost, CostMatrix.rowSlot_eq_ok.mp hslot, rfl, ?_⟩
  obtain ⟨_, -, hok, hstate⟩ := Outcome.exists_of_andThen_eq_ok hok
  obtain ⟨hresult, hedge⟩ := forEach_commitMember_result hok
  rw [hstate, hresult, hedge]
  cases cost with
  | finite v =>
    refine ⟨?_, rfl⟩
    rw [show Charge.warnings [⟨g.name, .finite v⟩] = [] from rfl, List.append_nil]
    rfl
  | infeasible =>
    refine ⟨?_, rfl⟩
    rw [show Cost.infeasible.feasibleValue = 0 from rfl, Int.add_zero]
    rfl

/-- A group without a row is left out with a warning. -/
theorem Progress.Served.skip {seats : List Seat} (h : p.Served board model edge gs seats left)
    (g : PinGroup) :
    (warn p s!"I/O pin group {g.name} received no slot block" g.name).state.Served board model edge
      (gs ++ [g]) seats (left ++ [g]) where
  edge_eq := h.edge_eq
  groups_perm := by
    rw [← List.append_assoc]
    exact h.groups_perm.append_right [g]
  commits_eq := h.commits_eq
  cost_eq := h.cost_eq
  warnings_perm := by
    rw [List.map_append, ← List.append_assoc]
    exact h.warnings_perm.append_right [leftOut g]
  priced := h.priced

/-- A group on a block adds its commits, its cost, and a warning if that is infeasible. -/
theorem Progress.Served.seat {next : Progress} {seats : List Seat} {s : Seat}
    (h : p.Served board model edge gs seats left) (hprice : s.Priced board model)
    (hresult : next.result =
      { p.result with
        commits := p.result.commits ++ s.commits
        diagnostics := p.result.diagnostics ++ Charge.warnings [s.charge]
        cost := p.result.cost + s.cost.feasibleValue })
    (hedge : next.sec.edge = p.sec.edge) :
    next.Served board model edge (gs ++ [s.group]) (seats ++ [s]) left where
  edge_eq := hedge.trans h.edge_eq
  groups_perm := by
    rw [List.map_append, List.append_assoc]
    refine (List.perm_append_comm.append_left _).trans ?_
    rw [← List.append_assoc]
    exact h.groups_perm.append_right [s.group]
  commits_eq := by rw [hresult, List.flatMap_append, List.flatMap_singleton, ← h.commits_eq]
  cost_eq := by
    rw [hresult, List.map_append, Charge.total_append, ← h.cost_eq]
    exact congrArg (p.result.cost + ·) (Charge.total_singleton s.charge).symm
  warnings_perm := by
    rw [hresult, List.map_append, Charge.warnings_append, List.append_assoc]
    refine (h.warnings_perm.append_right _).trans ?_
    rw [List.append_assoc]
    exact List.perm_append_comm.append_left _
  priced := List.forall_mem_append.mpr ⟨h.priced, List.forall_mem_singleton.mpr hprice⟩

theorem Progress.Served.placeGroup {seats : List Seat} {g : PinGroup} {col : Nat}
    (h : p.Served board model edge gs seats left)
    (hprices : ∀ (row start : Nat) (cost : Cost), matrix.rowSlots[row]? = some start →
      matrix.cell row col = .ok cost →
      ∃ pos, board.boundary.posOf? start = some pos ∧ model.groupCost g.members pos = .ok cost)
    (hok : (placeGroup matrix a p (g, col)).answer = .ok ()) :
    ∃ seats left, (GroupPass.placeGroup matrix a p (g, col)).state.Served board model edge
      (gs ++ [g]) seats left := by
  cases hrow : a.rowOf? col with
  | none =>
    simp only [GroupPass.placeGroup, hrow]
    exact ⟨seats, left ++ [g], h.skip g⟩
  | some row =>
    obtain ⟨start, cost, hstart, hcell, hresult, hedge⟩ := placeGroup_result hrow hok
    exact ⟨seats ++ [⟨g, p.sec.edge, start, cost⟩], left,
      h.seat (s := ⟨g, p.sec.edge, start, cost⟩) (hprices row start cost hstart hcell) hresult
        hedge⟩

/-- What a pass over the groups of a section commits, charges and warns about.  It warns about the
groups that are left out if there is a block at all. -/
theorem run_served {blockSize : Int} {result : PassResult}
    (hprices : ∀ (row col start : Nat) (g : PinGroup) (cost : Cost),
      matrix.rowSlots[row]? = some start → sec.groups[col]? = some g →
      matrix.cell row col = .ok cost →
      ∃ pos, board.boundary.posOf? start = some pos ∧ model.groupCost g.members pos = .ok cost)
    (hok : (run board sec matrix a blockSize).answer = .ok result) :
    ∃ (seats : List Seat) (left : List PinGroup),
      (seats.map (·.group) ++ left).Perm sec.groups ∧
      result.commits = seats.flatMap Seat.commits ∧
      result.cost = Charge.total (seats.map Seat.charge) ∧
      result.warnings.Perm (Charge.warnings (seats.map Seat.charge) ++
        (if matrix.empty then [] else left).map leftOut) ∧
      ∀ s ∈ seats, s.Priced board model := by
  unfold run at hok
  split at hok
  · rename_i hempty
    cases hok
    refine ⟨[], sec.groups, .refl _, rfl, rfl, ?_, fun _ hs => nomatch hs⟩
    rw [hempty]
    exact .refl _
  rename_i hempty
  simp only at hok
  split at hok
  · cases hok
  rename_i hdone
  cases hok
  obtain ⟨seats, left, hserved⟩ := Outcome.forEach_reaches
    (P := fun done p => ∃ seats left,
      Progress.Served board model sec.edge (done.map Prod.fst) p seats left)
    (fun done column p hpre ⟨seats, left, hp⟩ hok => by
      obtain ⟨g, col⟩ := column
      have hmem : (g, col) ∈ sec.groups.zipIdx := hpre.subset (by simp)
      have hg := List.mk_mem_zipIdx_iff_getElem?.mp hmem
      rw [List.map_append]
      exact hp.placeGroup (fun row start cost hstart => hprices row col start g cost hstart hg) hok)
    hdone ⟨[], [], rfl, .refl _, rfl, rfl, .refl _, fun _ hs => nomatch hs⟩
  refine ⟨seats, left, ?_, hserved.commits_eq, hserved.cost_eq, ?_, hserved.priced⟩
  · exact List.zipIdx_map_fst 0 sec.groups ▸ hserved.groups_perm
  · rw [if_neg hempty]
    refine List.Perm.trans (.of_eq ?_) hserved.warnings_perm
    refine List.filter_eq_self.mpr fun d hd => ?_
    rcases List.mem_append.mp (hserved.warnings_perm.subset hd) with hd | hd
    · simp [Charge.severity_of_mem_warnings hd]
    · obtain ⟨g, -, rfl⟩ := List.mem_map.mp hd
      rfl

end GroupPass

end PinRing
