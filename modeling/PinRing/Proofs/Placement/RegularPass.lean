import PinRing.Proofs.Assignment.Cells
import PinRing.Proofs.Cost.Weight
import PinRing.Proofs.Placement.PinPass

/-! The pin pass over pins without a partner.  No guard of the pass ever skips a matched pin, so it
places every pin that the assignment matches, at the costs that the matrix holds. -/

namespace PinRing.PinPass

open Board

/-- The costs of some pins on slots. -/
def costs (price : Nat → Nat → Cost) (ps : List (Nat × Nat)) : List Cost :=
  ps.map fun p => price p.1 p.2

/-- The commits of pins placed by themselves. -/
def singles (ps : List (Nat × Nat)) : List Commit :=
  ps.map fun p => ⟨p.1, p.2, .single⟩

/-- `next` adds some pins on slots to `plan`, and nothing else. -/
structure Plan.Extends (price : Nat → Nat → Cost) (plan next : Plan) (ps : List (Nat × Nat)) :
    Prop where
  commits_eq : next.commits = plan.commits ++ singles ps
  cost_eq : next.cost = plan.cost + Cost.feasibleSum (costs price ps)
  warnings_eq : (next.diagnostics.filter (·.severity = .warning)).length =
    (plan.diagnostics.filter (·.severity = .warning)).length +
      Cost.infeasibleCount (costs price ps)
  failures_eq : next.failures = plan.failures

variable {price : Nat → Nat → Cost} {plan next : Plan} {ps : List (Nat × Nat)}

theorem costs_cons (price : Nat → Nat → Cost) (pin slot : Nat) (ps : List (Nat × Nat)) :
    costs price ((pin, slot) :: ps) = price pin slot :: costs price ps := rfl

theorem Plan.Extends.refl (price : Nat → Nat → Cost) (plan : Plan) : plan.Extends price plan [] :=
  ⟨(List.append_nil _).symm, (Int.add_zero _).symm, rfl, rfl⟩

theorem Plan.cost_add (plan : Plan) (name : String) (cs : List Commit) (cost : Cost) :
    (plan.add name cs cost).cost = plan.cost + cost.feasibleValue := by
  cases cost with
  | finite v => rfl
  | infeasible => exact (Int.add_zero _).symm

theorem Plan.warnings_add (plan : Plan) (name : String) (cs : List Commit) (cost : Cost) :
    ((plan.add name cs cost).diagnostics.filter (·.severity = .warning)).length =
      (plan.diagnostics.filter (·.severity = .warning)).length +
        if cost.feasible then 0 else 1 := by
  cases cost with
  | finite v => rfl
  | infeasible => simp [Plan.add, Cost.feasible]

theorem Plan.Extends.cons {pin slot : Nat} (name : String)
    (h : (plan.add name [⟨pin, slot, .single⟩] (price pin slot)).Extends price next ps) :
    plan.Extends price next ((pin, slot) :: ps) where
  commits_eq := by
    rw [h.commits_eq, Plan.commits_add, List.append_assoc]
    rfl
  cost_eq := by
    rw [h.cost_eq, Plan.cost_add, costs_cons, Cost.feasibleSum_cons, Int.add_assoc]
  warnings_eq := by
    rw [h.warnings_eq, Plan.warnings_add, costs_cons, Cost.infeasibleCount_cons]
    omega
  failures_eq := h.failures_eq.trans (Plan.failures_add plan name _ _)

/-- A matrix of available slots and pins that are neither placed nor mirrored, priced by `price`. -/
structure Regular (board : Board) (matrix : CostMatrix) (price : Nat → Nat → Cost) : Prop where
  pin : ∀ i ∈ matrix.columns, ∃ p, board.pins.pin i = .ok p ∧ p.placed = false ∧
    board.pins.partner i = .ok none
  free : ∀ slot ∈ matrix.rowSlots, board.boundary.isAvailable slot
  cell : ∀ row col slot pin, matrix.rowSlots[row]? = some slot → matrix.columns[col]? = some pin →
    matrix.cell row col = .ok (price pin slot)

/-- The pin and the slot of a matched cell of the inverse assignment. -/
def seat (matrix : CostMatrix) (cell : Nat × Nat) : Nat × Nat :=
  (matrix.columns.getD cell.1 0, matrix.rowSlots.getD cell.2 0)

variable {board : Board} {matrix : CostMatrix} {assignment : Assignment} {mode : Mode}

/-- A matched pin that the plan does not have yet joins it, with its slot. -/
theorem Regular.planColumn_eq (h : Regular board matrix price) (hmode : mode.mirrored = false)
    {col pin row slot : Nat} (hpin : matrix.columns[col]? = some pin)
    (hrow : assignment.rowOf? col = some row) (hslot : matrix.rowSlots[row]? = some slot)
    (hpinFresh : plan.hasPin pin = false) (hslotFresh : plan.hasSlot slot = false) :
    ∃ name, (planColumn board matrix assignment mode plan (col, pin)).answer = .ok () ∧
      (planColumn board matrix assignment mode plan (col, pin)).state =
        plan.add name [⟨pin, slot, .single⟩] (price pin slot) := by
  obtain ⟨p, hp, hunplaced, hpartner⟩ := h.pin pin (List.mem_of_getElem? hpin)
  obtain ⟨s, hs, hused, hblocked⟩ :=
    Boundary.isAvailable_iff.mp (h.free slot (List.mem_of_getElem? hslot))
  have hcell := h.cell row col slot pin hslot hpin
  have horigin : mode.origin = .single := by simp [Mode.origin, hmode]
  refine ⟨p.name, ?_⟩
  simp [planColumn, hp, hrow, hpartner, CostMatrix.rowSlot_eq_ok.mpr hslot,
    Boundary.slot_eq_ok.mpr hs, hunplaced, hpinFresh, hslotFresh, hmode, hcell, horigin,
    Slot.available, hused, hblocked]

theorem Regular.planColumn_of_none (h : Regular board matrix price) (mode : Mode) (plan : Plan)
    {col pin : Nat} (hpin : matrix.columns[col]? = some pin) (hrow : assignment.rowOf? col = none) :
    (planColumn board matrix assignment mode plan (col, pin)).answer = .ok () ∧
      (planColumn board matrix assignment mode plan (col, pin)).state = plan := by
  obtain ⟨p, hp, -⟩ := h.pin pin (List.mem_of_getElem? hpin)
  simp only [planColumn, hp, hrow, Outcome.lift_ok, Outcome.done_andThen]
  exact ⟨rfl, rfl⟩

/-- The pins that an assignment matches from column `n` on, each with its slot. -/
def seatsFrom (matrix : CostMatrix) (assignment : Assignment) (n count : Nat) : List (Nat × Nat) :=
  (Assignment.cellsFrom n ((List.range' n count).map assignment.rowOf?)).map (seat matrix)

/-- The pins that an assignment matches, each with its slot. -/
def seats (matrix : CostMatrix) (assignment : Assignment) : List (Nat × Nat) :=
  seatsFrom matrix assignment 0 matrix.columns.length

theorem seatsFrom_of_none {n : Nat} (h : assignment.rowOf? n = none) (count : Nat) :
    seatsFrom matrix assignment n (count + 1) = seatsFrom matrix assignment (n + 1) count := by
  rw [seatsFrom, List.range'_succ, List.map_cons, h]
  rfl

theorem seatsFrom_of_some {n pin row slot : Nat} (hrow : assignment.rowOf? n = some row)
    (hpin : matrix.columns[n]? = some pin) (hslot : matrix.rowSlots[row]? = some slot)
    (count : Nat) : seatsFrom matrix assignment n (count + 1) =
      (pin, slot) :: seatsFrom matrix assignment (n + 1) count := by
  have hseat : seat matrix (n, row) = (pin, slot) := by
    simp [seat, List.getD_eq_getElem?_getD, hpin, hslot]
  rw [seatsFrom, List.range'_succ, List.map_cons, hrow, Assignment.cellsFrom, List.map_cons, hseat]
  rfl

/-- The pins of the remaining columns join the plan, those that are matched. -/
theorem Regular.forEach_planColumn (h : Regular board matrix price) (hmode : mode.mirrored = false)
    (hrows : ∀ col row, assignment.rowOf? col = some row → row < matrix.rowSlots.length)
    (plan : Plan) {cols : List Nat} {n : Nat}
    (hcols : ∀ (k : Nat) (pin : Nat), cols[k]? = some pin → matrix.columns[n + k]? = some pin)
    (hpins : (plan.commits.map (·.pin) ++
      (seatsFrom matrix assignment n cols.length).map Prod.fst).Nodup)
    (hslots : (plan.commits.map (·.slot) ++
      (seatsFrom matrix assignment n cols.length).map Prod.snd).Nodup) :
    let planned := Outcome.forEach (planColumn board matrix assignment mode) plan
      ((cols.zipIdx n).map fun (pin, col) => (col, pin))
    planned.answer = .ok () ∧
      plan.Extends price planned.state (seatsFrom matrix assignment n cols.length) := by
  -- What is planned and what is still to come share no pin and no slot, so no guard fires.
  induction cols generalizing n plan with
  | nil => exact ⟨rfl, .refl price plan⟩
  | cons pin cols ih =>
    have hpin : matrix.columns[n]? = some pin := hcols 0 pin rfl
    have hcols' : ∀ (k : Nat) (other : Nat), cols[k]? = some other →
        matrix.columns[n + 1 + k]? = some other := by
      intro k other hother
      rw [show n + 1 + k = n + (k + 1) by omega]
      exact hcols (k + 1) other hother
    rw [List.zipIdx_cons, List.map_cons, Outcome.forEach_cons]
    cases hrow : assignment.rowOf? n with
    | none =>
      rw [List.length_cons, seatsFrom_of_none hrow] at hpins hslots ⊢
      obtain ⟨hanswer, hstate⟩ := h.planColumn_of_none mode plan hpin hrow
      rw [Outcome.andThen_of_ok hanswer, hstate]
      exact ih plan hcols' hpins hslots
    | some row =>
      have hlt := hrows n row hrow
      have hslot := List.getElem?_eq_getElem hlt
      rw [List.length_cons, seatsFrom_of_some hrow hpin hslot] at hpins hslots ⊢
      rw [List.map_cons] at hpins hslots
      have hpinFresh : plan.hasPin pin = false := by
        rw [Bool.eq_false_iff, Ne, Plan.hasPin_iff]
        exact fun hmem => (List.nodup_append.mp hpins).2.2 pin hmem pin List.mem_cons_self rfl
      have hslotFresh : plan.hasSlot matrix.rowSlots[row] = false := by
        rw [Bool.eq_false_iff, Ne, Plan.hasSlot_iff]
        exact fun hmem => (List.nodup_append.mp hslots).2.2 _ hmem _ List.mem_cons_self rfl
      obtain ⟨name, hanswer, hstate⟩ :=
        h.planColumn_eq hmode hpin hrow hslot hpinFresh hslotFresh
      rw [Outcome.andThen_of_ok hanswer, hstate]
      obtain ⟨hok, hextends⟩ := ih (plan.add name [⟨pin, matrix.rowSlots[row], .single⟩] _) hcols'
        (by simpa using hpins) (by simpa using hslots)
      exact ⟨hok, hextends.cons name⟩

/-- A pass over a regular matrix places every matched pin. -/
theorem Regular.run_eq (h : Regular board matrix price) (hmode : mode.mirrored = false)
    (hne : matrix.empty = false)
    (hrows : ∀ col row, assignment.rowOf? col = some row → row < matrix.rowSlots.length)
    (hpins : ((seats matrix assignment).map Prod.fst).Nodup)
    (hslots : ((seats matrix assignment).map Prod.snd).Nodup)
    (hopen : board.Open (singles (seats matrix assignment))) :
    ∃ result, (run board matrix assignment mode).answer = .ok result ∧
      (run board matrix assignment mode).state =
        board.takeAll (singles (seats matrix assignment)) ∧
      result.commits = singles (seats matrix assignment) ∧
      result.cost = Cost.feasibleSum (costs price (seats matrix assignment)) ∧
      result.warnings.length = Cost.infeasibleCount (costs price (seats matrix assignment)) := by
  have hcols : ∀ (k : Nat) (pin : Nat), matrix.columns[k]? = some pin →
      matrix.columns[0 + k]? = some pin := by
    intro k pin hpin
    rwa [Nat.zero_add]
  obtain ⟨hok, hextends⟩ := h.forEach_planColumn hmode hrows {} hcols hpins hslots
  have hcommits : (plan board matrix assignment mode).state.commits =
      singles (seats matrix assignment) := hextends.commits_eq
  have hfailures : (plan board matrix assignment mode).state.failures = [] :=
    hextends.failures_eq
  have hsingle : ∀ c ∈ singles (seats matrix assignment), c.origin ≠ .group := by
    intro c hc
    obtain ⟨p, -, rfl⟩ := List.mem_map.mp hc
    exact nofun
  have hplan : (plan board matrix assignment mode).answer = .ok () := hok
  simp only [run, hne, Bool.false_eq_true, if_false, hplan, carryOut, hcommits, hfailures,
    hopen.forEach_commit hsingle, Outcome.done_andThen, List.isEmpty_nil, Bool.not_true,
    Bool.and_false, List.map_nil, List.append_nil]
  refine ⟨_, rfl, trivial, rfl, ?_, ?_⟩
  · exact hextends.cost_eq.trans (Int.zero_add _)
  · exact hextends.warnings_eq.trans (Nat.zero_add _)

end PinRing.PinPass
