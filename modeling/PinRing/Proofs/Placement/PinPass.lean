import PinRing.Proofs.Board.Moves
import PinRing.Proofs.Cost.Matrix

/-! The pin pass: what one column adds to the plan, and the moves that a whole pass makes. -/

namespace PinRing

theorem PinTable.isPlaced_of_pin {t : PinTable} {i : Nat} {p : Pin} (h : t.pin i = .ok p) :
    t.isPlaced i = p.placed := by
  simp [isPlaced, pin_eq_ok.mp h]

theorem PinTable.lt_of_pin {t : PinTable} {i : Nat} {p : Pin} (h : t.pin i = .ok p) : i < t.size :=
  (Array.getElem?_eq_some_iff.mp (pin_eq_ok.mp h)).1

namespace PinPass

open Board

variable {board : Board} {matrix : CostMatrix} {assignment : Assignment} {mode : Mode} {plan : Plan}
variable {col pin : Nat}

theorem Plan.hasPin_iff : plan.hasPin pin ↔ pin ∈ plan.commits.map (·.pin) := by
  rw [Plan.hasPin, List.any_eq_true, List.mem_map]
  exact exists_congr fun c => and_congr_right fun _ => beq_iff_eq

theorem Plan.hasSlot_iff {slot : Nat} : plan.hasSlot slot ↔ slot ∈ plan.commits.map (·.slot) := by
  rw [Plan.hasSlot, List.any_eq_true, List.mem_map]
  exact exists_congr fun c => and_congr_right fun _ => beq_iff_eq

@[simp] theorem Plan.commits_add (plan : Plan) (name : String) (cs : List Commit) (cost : Cost) :
    (plan.add name cs cost).commits = plan.commits ++ cs := by
  cases cost <;> rfl

@[simp] theorem Plan.failures_add (plan : Plan) (name : String) (cs : List Commit) (cost : Cost) :
    (plan.add name cs cost).failures = plan.failures := by
  cases cost <;> rfl

/-- The pin of a column and the slot of its row can still be put together. -/
structure Matched (board : Board) (matrix : CostMatrix) (assignment : Assignment) (plan : Plan)
    (col pin : Nat) (p : Pin) (row slot : Nat) : Prop where
  at_pin : board.pins.pin pin = .ok p
  unplaced : p.placed = false
  pin_fresh : plan.hasPin pin = false
  at_col : assignment.rowOf? col = some row
  at_row : matrix.rowSlot row = .ok slot
  free : board.boundary.isAvailable slot
  slot_fresh : plan.hasSlot slot = false

/-- The partner of a pin that goes to `slot` can go to `other`. -/
structure Reflects (board : Board) (reflection : Option Reflection) (plan : Plan)
    (partner slot other : Nat) (reflect : Reflection) (q : Pin) (s : Slot) (image : Point) :
    Prop where
  given : reflection = some reflect
  at_pin : board.pins.pin partner = .ok q
  unplaced : q.placed = false
  pin_fresh : plan.hasPin partner = false
  at_slot : board.boundary.slot slot = .ok s
  reflected : reflect.Sends s.pos image
  at_image : board.boundary.slotAt? image s.layer = some other
  slot_ne : slot ≠ other
  free : board.boundary.isAvailable other
  slot_fresh : plan.hasSlot other = false

/-- The plans to which one column can lead. -/
inductive Planned (board : Board) (matrix : CostMatrix) (assignment : Assignment) (mode : Mode)
    (plan : Plan) (col pin : Nat) : Plan → Prop
  | skipped : Planned board matrix assignment mode plan col pin plan
  | failed {p q : Pin} {partner row slot : Nat} {reason : String} (mirrored : mode.mirrored = true)
      (matched : Matched board matrix assignment plan col pin p row slot)
      (partnered : board.pins.partner pin = .ok (some partner))
      (at_partner : board.pins.pin partner = .ok q)
      (refused : partnerSlot board mode.reflection plan partner slot = .ok (.error reason)) :
      Planned board matrix assignment mode plan col pin
        { plan with failures := plan.failures ++ [⟨p.name, q.name, reason⟩] }
  | single {p : Pin} {row slot : Nat} {cost : Cost} (regular : mode.mirrored = false)
      (matched : Matched board matrix assignment plan col pin p row slot)
      (cell : matrix.cell row col = .ok cost) :
      Planned board matrix assignment mode plan col pin
        (plan.add p.name [⟨pin, slot, .single⟩] cost)
  | pair {p q : Pin} {partner row slot other : Nat} {cost : Cost} {reflect : Reflection} {s : Slot}
      {image : Point} (mirrored : mode.mirrored = true)
      (matched : Matched board matrix assignment plan col pin p row slot)
      (partnered : board.pins.partner pin = .ok (some partner))
      (reflects : Reflects board mode.reflection plan partner slot other reflect q s image)
      (cell : matrix.cell row col = .ok cost) :
      Planned board matrix assignment mode plan col pin
        (plan.add p.name [⟨pin, slot, .pair⟩, ⟨partner, other, .pair⟩] cost)

theorem reflects_of_partnerSlot {reflection : Option Reflection} {partner slot other : Nat}
    (h : partnerSlot board reflection plan partner slot = .ok (.ok other)) :
    ∃ reflect q s image,
      Reflects board reflection plan partner slot other reflect q s image := by
  unfold partnerSlot at h
  cases hreflection : reflection with
  | none => rw [hreflection] at h; cases h
  | some reflect =>
    rw [hreflection] at h
    obtain ⟨q, hpin, h⟩ := exists_of_bind_eq_ok h
    split at h
    · cases h
    rename_i hfresh
    obtain ⟨s, hslot, h⟩ := exists_of_bind_eq_ok h
    obtain ⟨image, himage, h⟩ := exists_of_bind_eq_ok h
    split at h
    · obtain ⟨_, -, h⟩ := exists_of_bind_eq_ok h
      obtain ⟨_, -, h⟩ := exists_of_bind_eq_ok h
      cases h
    · rename_i found hat
      obtain ⟨p, hp, hat⟩ := Option.bind_eq_some_iff.mp hat
      split at h
      · cases h
      rename_i hopen
      cases h
      simp only [Bool.or_eq_true, not_or, Bool.not_eq_true, Bool.not_eq_false',
        beq_eq_false_iff_ne] at hfresh hopen
      exact ⟨reflect, q, s, p, rfl, hpin, hfresh.1, hfresh.2, hslot, ⟨image, himage, hp⟩, hat,
        Ne.symm hopen.1.1, hopen.2, hopen.1.2⟩

/-- A column whose pin and slot cannot be put together leaves the plan as it is. -/
theorem planColumn_skipped_or_matched (board : Board) (matrix : CostMatrix)
    (assignment : Assignment) (mode : Mode) (plan : Plan) (col pin : Nat) :
    (planColumn board matrix assignment mode plan (col, pin)).state = plan ∨
      ∃ p row slot partner?, Matched board matrix assignment plan col pin p row slot ∧
        board.pins.partner pin = .ok partner? ∧ (mode.mirrored && partner?.isNone) = false := by
  simp only [planColumn]
  cases hpin : board.pins.pin pin with
  | error f => exact .inl rfl
  | ok p =>
  rw [Outcome.lift_ok, Outcome.done_andThen]
  cases hrow : assignment.rowOf? col with
  | none => exact .inl rfl
  | some row =>
  simp only
  cases hpartner : board.pins.partner pin with
  | error f => exact .inl rfl
  | ok partner? =>
  rw [Outcome.lift_ok, Outcome.done_andThen]
  by_cases hskip : (p.placed || plan.hasPin pin || mode.mirrored && partner?.isNone) = true
  · rw [if_pos hskip]
    exact .inl rfl
  rw [if_neg hskip]
  cases hslot : matrix.rowSlot row with
  | error f => exact .inl rfl
  | ok slot =>
  rw [Outcome.lift_ok, Outcome.done_andThen]
  cases hs : board.boundary.slot slot with
  | error f => exact .inl rfl
  | ok s =>
  rw [Outcome.lift_ok, Outcome.done_andThen]
  by_cases htaken : (plan.hasSlot slot || !s.available) = true
  · rw [if_pos htaken]
    exact .inl rfl
  simp only [Bool.or_eq_true, not_or, Bool.not_eq_true, Bool.not_eq_false'] at hskip htaken
  obtain ⟨⟨hunplaced, hpinFresh⟩, halone⟩ := hskip
  exact .inr ⟨p, row, slot, partner?, ⟨hpin, hunplaced, hpinFresh, hrow, hslot,
    (Boundary.isAvailable_of_slot hs).trans htaken.2, htaken.1⟩, rfl, halone⟩

/-- What a pin that can be put on its slot does to the plan. -/
theorem Matched.planned {p : Pin} {row slot : Nat} {partner? : Option Nat}
    (h : Matched board matrix assignment plan col pin p row slot)
    (hpartner : board.pins.partner pin = .ok partner?)
    (halone : (mode.mirrored && partner?.isNone) = false) :
    Planned board matrix assignment mode plan col pin
      (planColumn board matrix assignment mode plan (col, pin)).state := by
  obtain ⟨s, hs, hfree⟩ := (Option.any_eq_true _ _).mp h.free
  have hskip : (p.placed || plan.hasPin pin || mode.mirrored && partner?.isNone) = false := by
    rw [h.unplaced, h.pin_fresh, halone]
    rfl
  have htaken : (plan.hasSlot slot || !s.available) = false := by
    rw [h.slot_fresh, hfree]
    rfl
  simp only [planColumn, h.at_pin, h.at_col, hpartner, h.at_row, Boundary.slot_eq_ok.mpr hs,
    Outcome.lift_ok, Outcome.done_andThen, hskip, htaken, Bool.false_eq_true, if_false]
  cases hmode : mode.mirrored with
  | false =>
    have horigin : mode.origin = .single := by simp [Mode.origin, hmode]
    cases hcell : matrix.cell row col with
    | error f => exact .skipped
    | ok cost =>
      rw [Outcome.lift_ok, Outcome.done_andThen, horigin]
      exact .single hmode h hcell
  | true =>
    have horigin : mode.origin = .pair := by simp [Mode.origin, hmode]
    cases partner? with
    | none => simp [hmode] at halone
    | some partner =>
    simp only
    cases hfound : partnerSlot board mode.reflection plan partner slot with
    | error f => exact .skipped
    | ok found =>
    rw [Outcome.lift_ok, Outcome.done_andThen]
    cases found with
    | error reason =>
      simp only
      cases hq : board.pins.pin partner with
      | error f => exact .skipped
      | ok q => exact .failed hmode h hpartner hq hfound
    | ok other =>
      obtain ⟨reflect, q, s', image, hreflects⟩ := reflects_of_partnerSlot hfound
      simp only
      cases hcell : matrix.cell row col with
      | error f => exact .skipped
      | ok cost =>
        rw [Outcome.lift_ok, Outcome.done_andThen, horigin]
        exact .pair hmode h hpartner hreflects hcell

/-- What one column does to the plan, whether or not it ends in a fault. -/
theorem planColumn_planned (board : Board) (matrix : CostMatrix) (assignment : Assignment)
    (mode : Mode) (plan : Plan) (col pin : Nat) :
    Planned board matrix assignment mode plan col pin
      (planColumn board matrix assignment mode plan (col, pin)).state := by
  rcases planColumn_skipped_or_matched board matrix assignment mode plan col pin with
    hskipped | ⟨p, row, slot, partner?, hmatched, hpartner, halone⟩
  · rw [hskipped]
    exact .skipped
  · exact hmatched.planned hpartner halone

/-! ### The moves of a pass -/

variable {scope : Scope}

/-- A plan whose commits are moves on the board as it stands. -/
structure Plan.Holds (scope : Scope) (board : Board) (mode : Mode) (plan : Plan) :
    Prop where
  moves : Moves mode.reflection scope board plan.commits
  origin : ∀ c ∈ plan.commits, c.origin = mode.origin

namespace Plan.Holds

variable (h : Plan.Holds scope board mode plan)

include h

/-- A pin that is not yet placed or planned can be put on a free slot that is not yet planned. -/
theorem admits {c : Commit} (hpin : c.pin < board.pins.size)
    (hfree : board.boundary.isAvailable c.slot) (hfresh : plan.hasSlot c.slot = false) :
    (board.takeAll plan.commits).Admits c := by
  refine ⟨by rwa [h.moves.isOpen.frame.size_pins], ?_⟩
  rw [h.moves.isOpen.isAvailable, ← Plan.hasSlot_iff, hfresh]
  exact ⟨hfree, Bool.false_ne_true⟩

theorem unplaced {pin : Nat} {p : Pin} (hpin : board.pins.pin pin = .ok p)
    (hunplaced : p.placed = false) (hfresh : plan.hasPin pin = false) :
    ¬(board.takeAll plan.commits).pins.isPlaced pin := by
  rw [h.moves.isOpen.isPlaced, ← Plan.hasPin_iff, hfresh, PinTable.isPlaced_of_pin hpin, hunplaced]
  simp

/-- What one column adds to the plan is a move. -/
theorem planned {next : Plan} (helig : scope.pins mode.origin pin)
    (hnext : Planned board matrix assignment mode plan col pin next) :
    Plan.Holds scope board mode next := by
  have hframe := h.moves.isOpen.frame
  cases hnext with
  | skipped => exact h
  | failed => exact ⟨h.moves, h.origin⟩
  | @single p row slot cost regular matched cell =>
    have horigin : mode.origin = .single := by simp [Mode.origin, regular]
    rw [horigin] at helig
    constructor
    · rw [Plan.commits_add]
      refine h.moves.append (.one (.single helig ?_ ?_))
      · exact h.admits (PinTable.lt_of_pin matched.at_pin) matched.free matched.slot_fresh
      · exact h.unplaced matched.at_pin matched.unplaced matched.pin_fresh
    · rw [Plan.commits_add]
      intro c hc
      rcases List.mem_append.mp hc with hc | hc
      · exact h.origin c hc
      · rw [List.mem_singleton.mp hc, horigin]
  | @pair p q partner row slot other cost reflect s image mirrored matched partnered reflects
      cell =>
    have horigin : mode.origin = .pair := by simp [Mode.origin, mirrored]
    rw [horigin] at helig
    -- The plan was made for the board before its own commits, which move no slot.
    obtain ⟨s', hs', hpos, hlayer⟩ := hframe.slot (Boundary.slot_eq_ok.mp reflects.at_slot)
    constructor
    · rw [Plan.commits_add]
      refine h.moves.append (.one (.pair helig reflects.given ?_ ?_ ?_ ?_ ?_ reflects.slot_ne hs'
        (hpos ▸ reflects.reflected) ?_))
      · rw [hframe.partner, partnered]
      · exact h.admits (PinTable.lt_of_pin matched.at_pin) matched.free matched.slot_fresh
      · exact h.unplaced matched.at_pin matched.unplaced matched.pin_fresh
      · exact h.admits (PinTable.lt_of_pin reflects.at_pin) reflects.free reflects.slot_fresh
      · exact h.unplaced reflects.at_pin reflects.unplaced reflects.pin_fresh
      · rw [hframe.slotAt?, hlayer, reflects.at_image]
    · rw [Plan.commits_add]
      intro c hc
      rcases List.mem_append.mp hc with hc | hc
      · exact h.origin c hc
      · rcases List.mem_cons.mp hc with rfl | hc
        · exact horigin.symm
        · rw [List.mem_singleton.mp hc, horigin]

end Plan.Holds

theorem plan_holds (board : Board) (assignment : Assignment)
    (helig : ∀ pin ∈ matrix.columns, scope.pins mode.origin pin) :
    Plan.Holds scope board mode (PinPass.plan board matrix assignment mode).state := by
  refine Outcome.forEach_state ?_ ⟨.nil board, fun c hc => nomatch hc⟩
  rintro current ⟨col, pin⟩ hmem h
  obtain ⟨⟨pin', col'⟩, hcolumn, heq⟩ := List.mem_map.mp hmem
  obtain ⟨rfl, rfl⟩ := Prod.mk.inj heq
  exact h.planned (helig _ (List.fst_mem_of_mem_zipIdx hcolumn))
    (planColumn_planned board matrix assignment mode current _ _)

/-- The commits of a plan are all carried out. -/
theorem Plan.Holds.forEach_commit (h : Plan.Holds scope board mode plan) :
    Outcome.forEach Board.commit board plan.commits = .done (board.takeAll plan.commits) () := by
  refine h.moves.isOpen.forEach_commit fun c hc => ?_
  rw [h.origin c hc, Mode.origin]
  split <;> simp

theorem Plan.Holds.carryOut_eq (h : Plan.Holds scope board mode plan) :
    (carryOut board mode plan).state = board.takeAll plan.commits ∧
      ∀ result, (carryOut board mode plan).answer = .ok result → result.commits = plan.commits := by
  unfold carryOut
  rw [h.forEach_commit, Outcome.done_andThen]
  refine ⟨rfl, fun result hresult => ?_⟩
  simp only at hresult
  split at hresult
  · cases hresult
  · injection hresult with hresult
    rw [← hresult]

/-- A pin pass makes moves, and its result lists their commits. -/
theorem run_moves (board : Board) (assignment : Assignment) (mode : Mode)
    (helig : ∀ pin ∈ matrix.columns, scope.pins mode.origin pin) :
    ∃ cs, Moves mode.reflection scope board cs ∧
      (run board matrix assignment mode).state = board.takeAll cs ∧
      ∀ result, (run board matrix assignment mode).answer = .ok result → result.commits = cs := by
  unfold run
  split
  · refine ⟨[], .nil board, rfl, fun result hresult => ?_⟩
    injection hresult with hresult
    rw [← hresult]
  · have hplan := plan_holds board assignment helig
    simp only
    split
    · refine ⟨[], .nil board, rfl, fun result hresult => ?_⟩
      cases hresult
    · exact ⟨_, hplan.moves, hplan.carryOut_eq⟩

end PinPass

end PinRing
