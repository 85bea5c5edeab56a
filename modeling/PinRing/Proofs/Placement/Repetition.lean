import PinRing.Proofs.Placement.TwoPhase

/-! A pin pass carried out twice.  Every column of the second pass is passed over: if its pin was
committed by the first one it is placed now, and any reason for which it was passed over then still
stands, whatever the matrix and the assignment are. -/

namespace PinRing.PinPass

open Board

variable {board : Board} {matrix : CostMatrix} {assignment : Assignment} {mode : Mode}
variable {plan next : Plan} {cs : List Commit} {col pin partner slot : Nat}

/-- The pin of a column with the row of the column and the pin's partner. -/
structure Seen (board : Board) (assignment : Assignment) (col pin : Nat) (p : Pin) (row : Nat)
    (partner? : Option Nat) : Prop where
  at_pin : board.pins.pin pin = .ok p
  at_col : assignment.rowOf? col = some row
  partnered : board.pins.partner pin = .ok partner?

/-- Why a column adds nothing to a plan. -/
inductive Passed (board : Board) (matrix : CostMatrix) (assignment : Assignment) (mode : Mode)
    (plan : Plan) (col pin : Nat) : Prop
  | unmatched {p : Pin} (at_pin : board.pins.pin pin = .ok p)
      (at_col : assignment.rowOf? col = none)
  | placed {p : Pin} {row : Nat} {partner? : Option Nat}
      (seen : Seen board assignment col pin p row partner?) (done : p.placed || plan.hasPin pin)
  | alone {p : Pin} {row : Nat} (seen : Seen board assignment col pin p row none)
      (mirrored : mode.mirrored = true)
  | taken {p : Pin} {row slot : Nat} {s : Slot} {partner? : Option Nat}
      (seen : Seen board assignment col pin p row partner?)
      (at_row : matrix.rowSlot row = .ok slot) (at_slot : board.boundary.slot slot = .ok s)
      (unfree : plan.hasSlot slot || !s.available)
  | refused {p q : Pin} {row slot partner : Nat} {s : Slot} {reason : String}
      (seen : Seen board assignment col pin p row (some partner)) (mirrored : mode.mirrored = true)
      (at_row : matrix.rowSlot row = .ok slot) (at_slot : board.boundary.slot slot = .ok s)
      (at_partner : board.pins.pin partner = .ok q)
      (refused : partnerSlot board mode.reflection plan partner slot = .ok (.error reason))

/-- A column that is passed over may add a failed pair, and nothing else. -/
theorem Passed.planColumn_eq (h : Passed board matrix assignment mode plan col pin) :
    (planColumn board matrix assignment mode plan (col, pin)).answer = .ok () ∧
      ∃ failures, (planColumn board matrix assignment mode plan (col, pin)).state =
        { plan with failures } := by
  have hsame : ∃ failures, plan = { plan with failures } := ⟨plan.failures, rfl⟩
  cases h with
  | unmatched at_pin at_col =>
    simp only [planColumn, at_pin, at_col, Outcome.lift_ok, Outcome.done_andThen]
    exact ⟨rfl, hsame⟩
  | placed seen done =>
    simp only [planColumn, seen.at_pin, seen.at_col, seen.partnered, Outcome.lift_ok,
      Outcome.done_andThen, done, Bool.true_or, if_true]
    exact ⟨rfl, hsame⟩
  | alone seen mirrored =>
    simp only [planColumn, seen.at_pin, seen.at_col, seen.partnered, Outcome.lift_ok,
      Outcome.done_andThen, mirrored, Option.isNone_none, Bool.and_true, Bool.or_true, if_true]
    exact ⟨rfl, hsame⟩
  | taken seen at_row at_slot unfree =>
    simp only [planColumn, seen.at_pin, seen.at_col, seen.partnered, Outcome.lift_ok,
      Outcome.done_andThen, at_row, at_slot, unfree, if_true]
    split
    · exact ⟨rfl, hsame⟩
    · exact ⟨rfl, hsame⟩
  | refused seen mirrored at_row at_slot at_partner refused =>
    simp only [planColumn, seen.at_pin, seen.at_col, seen.partnered, Outcome.lift_ok,
      Outcome.done_andThen, at_row, at_slot, mirrored, refused, at_partner]
    split
    · exact ⟨rfl, hsame⟩
    · split
      · exact ⟨rfl, hsame⟩
      · exact ⟨rfl, _, rfl⟩

/-- A column that is planned without a fault is passed over, or its pin is committed. -/
theorem passed_or_committed
    (h : (planColumn board matrix assignment mode plan (col, pin)).answer = .ok ()) :
    Passed board matrix assignment mode plan col pin ∨
      (∃ p row partner?, Seen board assignment col pin p row partner?) ∧
        pin ∈ (planColumn board matrix assignment mode plan (col, pin)).state.commits.map
          (·.pin) := by
  revert h
  simp only [planColumn]
  cases hpin : board.pins.pin pin with
  | error f => intro hfail; cases hfail
  | ok p =>
  rw [Outcome.lift_ok, Outcome.done_andThen]
  cases hrow : assignment.rowOf? col with
  | none => exact fun _ => .inl (.unmatched hpin hrow)
  | some row =>
  simp only
  cases hpartner : board.pins.partner pin with
  | error f => intro hfail; cases hfail
  | ok partner? =>
  have hseen : Seen board assignment col pin p row partner? := ⟨hpin, hrow, hpartner⟩
  rw [Outcome.lift_ok, Outcome.done_andThen]
  split
  · rename_i hskip
    intro _
    rcases Bool.or_eq_true_iff.mp hskip with hdone | halone
    · exact .inl (.placed hseen hdone)
    · obtain ⟨hmirrored, hnone⟩ := Bool.and_eq_true_iff.mp halone
      obtain rfl := Option.isNone_iff_eq_none.mp hnone
      exact .inl (.alone hseen hmirrored)
  cases hslot : matrix.rowSlot row with
  | error f => intro hfail; cases hfail
  | ok slot =>
  rw [Outcome.lift_ok, Outcome.done_andThen]
  cases hs : board.boundary.slot slot with
  | error f => intro hfail; cases hfail
  | ok s =>
  rw [Outcome.lift_ok, Outcome.done_andThen]
  split
  · rename_i htaken
    exact fun _ => .inl (.taken hseen hslot hs htaken)
  have hcommit : ∀ cs : List Commit, pin ∈ cs.map (·.pin) → ∀ cost,
      pin ∈ (plan.add p.name cs cost).commits.map (·.pin) := by
    intro cs hmem cost
    rw [Plan.commits_add, List.map_append]
    exact List.mem_append_right _ hmem
  split
  · rename_i partner hmirrored _
    cases hfound : partnerSlot board mode.reflection plan partner slot with
    | error f => intro hfail; cases hfail
    | ok found =>
    rw [Outcome.lift_ok, Outcome.done_andThen]
    cases found with
    | error reason =>
      simp only
      cases hq : board.pins.pin partner with
      | error f => intro hfail; cases hfail
      | ok q => exact fun _ => .inl (.refused hseen hmirrored hslot hs hq hfound)
    | ok other =>
      simp only
      cases hcell : matrix.cell row col with
      | error f => intro hfail; cases hfail
      | ok cost => exact fun _ => .inr ⟨⟨p, row, _, hseen⟩, hcommit _ List.mem_cons_self cost⟩
  · cases hcell : matrix.cell row col with
    | error f => intro hfail; cases hfail
    | ok cost => exact fun _ => .inr ⟨⟨p, row, _, hseen⟩, hcommit _ List.mem_cons_self cost⟩

/-! ### After the commits -/

section Later

variable (hopen : board.Open cs)

include hopen

/-- A pin stays, and is placed if it was or has been committed. -/
theorem pin_later {p : Pin} (hp : board.pins.pin pin = .ok p) :
    ∃ q, (board.takeAll cs).pins.pin pin = .ok q ∧
      (q.placed ↔ p.placed ∨ pin ∈ cs.map (·.pin)) := by
  obtain ⟨q, hq, -⟩ := hopen.frame.pin (PinTable.pin_eq_ok.mp hp)
  have hq := PinTable.pin_eq_ok.mpr hq
  refine ⟨q, hq, ?_⟩
  rw [← PinTable.isPlaced_of_pin hq, ← PinTable.isPlaced_of_pin hp]
  exact hopen.isPlaced pin

theorem slot_later {s : Slot} (hs : board.boundary.slot slot = .ok s) :
    ∃ t, (board.takeAll cs).boundary.slot slot = .ok t ∧ t.pos = s.pos ∧ t.layer = s.layer ∧
      (t.available ↔ s.available ∧ slot ∉ cs.map (·.slot)) := by
  obtain ⟨t, ht, hpos, hlayer⟩ := hopen.frame.slot (Boundary.slot_eq_ok.mp hs)
  have ht := Boundary.slot_eq_ok.mpr ht
  refine ⟨t, ht, hpos, hlayer, ?_⟩
  rw [← Boundary.isAvailable_of_slot ht, ← Boundary.isAvailable_of_slot hs]
  exact hopen.isAvailable slot

theorem Seen.later {p : Pin} {row : Nat} {partner? : Option Nat}
    (h : Seen board assignment col pin p row partner?) :
    ∃ q, Seen (board.takeAll cs) assignment col pin q row partner? ∧
      (q.placed ↔ p.placed ∨ pin ∈ cs.map (·.pin)) := by
  obtain ⟨q, hq, hplaced⟩ := pin_later hopen h.at_pin
  exact ⟨q, ⟨hq, h.at_col, (hopen.frame.partner pin).trans h.partnered⟩, hplaced⟩

variable (hsub : plan.commits ⊆ cs)

include hsub

/-- A partner that found no slot finds none later. -/
theorem partnerSlot_later {reflection : Option Reflection} {reason : String}
    (hnext : next.commits = [])
    (h : partnerSlot board reflection plan partner slot = .ok (.error reason)) :
    ∃ later, partnerSlot (board.takeAll cs) reflection next partner slot = .ok (.error later) := by
  have hpins : ∀ i, next.hasPin i = false := fun i => by simp [Plan.hasPin, hnext]
  have hslots : ∀ i, next.hasSlot i = false := fun i => by simp [Plan.hasSlot, hnext]
  unfold partnerSlot at h
  cases reflection with
  | none => cases h
  | some reflect =>
  obtain ⟨q, hq, h⟩ := exists_of_bind_eq_ok h
  obtain ⟨r, hr, hplaced⟩ := pin_later hopen hq
  simp only [partnerSlot, hr, hpins, hslots, Bind.bind, Except.bind, Bool.or_false]
  cases hnow : r.placed with
  | true => exact ⟨_, rfl⟩
  | false =>
  -- the partner was not planned either, as it would be placed by now
  have hout : ¬(q.placed || plan.hasPin partner) := by
    rw [Bool.or_eq_true, Plan.hasPin_iff]
    intro hdone
    rw [hplaced.mpr (hdone.imp_right fun hmem => List.map_subset _ hsub hmem)] at hnow
    cases hnow
  rw [if_neg hout] at h
  obtain ⟨s, hs, h⟩ := exists_of_bind_eq_ok h
  obtain ⟨image, himage, h⟩ := exists_of_bind_eq_ok h
  obtain ⟨t, ht, hpos, hlayer, -⟩ := slot_later hopen hs
  simp only [Bool.false_eq_true, if_false, ht, hpos, himage, hopen.frame.slotAt?, hlayer]
  cases hat : image.point?.bind (board.boundary.slotAt? · s.layer) with
  | none =>
    rw [hat] at h
    obtain ⟨position, hposition, h⟩ := exists_of_bind_eq_ok h
    obtain ⟨layer, hwritten, -⟩ := exists_of_bind_eq_ok h
    simp only [hposition, hwritten]
    exact ⟨_, rfl⟩
  | some other =>
    rw [hat] at h
    simp only at h ⊢
    split at h
    · rename_i hclosed
      have hnow : (other == slot || !(board.takeAll cs).boundary.isAvailable other) = true := by
        simp only [Bool.or_eq_true, Bool.not_eq_true', ← Bool.not_eq_true, hopen.isAvailable]
          at hclosed ⊢
        rcases hclosed with (heq | hmem) | hunfree
        · exact .inl heq
        · exact .inr fun hfree => hfree.2 (List.map_subset _ hsub (Plan.hasSlot_iff.mp hmem))
        · exact .inr fun hfree => hunfree hfree.1
      rw [if_pos hnow]
      exact ⟨_, rfl⟩
    · cases h

/-- The reason for which a column was passed over stands. -/
theorem Passed.later (h : Passed board matrix assignment mode plan col pin)
    (hnext : next.commits = []) :
    Passed (board.takeAll cs) matrix assignment mode next col pin := by
  cases h with
  | unmatched at_pin at_col =>
    obtain ⟨q, hq, -⟩ := pin_later hopen at_pin
    exact .unmatched hq at_col
  | placed seen done =>
    obtain ⟨q, hseen, hplaced⟩ := seen.later hopen
    refine .placed hseen (Bool.or_eq_true_iff.mpr (.inl (hplaced.mpr ?_)))
    exact (Bool.or_eq_true_iff.mp done).imp_right fun hmem =>
      List.map_subset _ hsub (Plan.hasPin_iff.mp hmem)
  | alone seen mirrored =>
    obtain ⟨q, hseen, -⟩ := seen.later hopen
    exact .alone hseen mirrored
  | taken seen at_row at_slot unfree =>
    obtain ⟨q, hseen, -⟩ := seen.later hopen
    obtain ⟨t, ht, -, -, hfree⟩ := slot_later hopen at_slot
    refine .taken hseen at_row ht (Bool.or_eq_true_iff.mpr (.inr ?_))
    rw [Bool.not_eq_true', ← Bool.not_eq_true, hfree]
    rintro ⟨hwas, hout⟩
    rcases Bool.or_eq_true_iff.mp unfree with hmem | hwas'
    · exact hout (List.map_subset _ hsub (Plan.hasSlot_iff.mp hmem))
    · rw [hwas] at hwas'
      cases hwas'
  | refused seen mirrored at_row at_slot at_partner refused =>
    obtain ⟨q, hseen, -⟩ := seen.later hopen
    obtain ⟨t, ht, -⟩ := slot_later hopen at_slot
    obtain ⟨r, hr, -⟩ := pin_later hopen at_partner
    obtain ⟨reason, hreason⟩ := partnerSlot_later hopen hsub hnext refused
    exact .refused hseen mirrored at_row ht hr hreason

omit hsub in
/-- A pin that has been committed is passed over. -/
theorem passed_of_committed {p : Pin} {row : Nat} {partner? : Option Nat}
    (hseen : Seen board assignment col pin p row partner?) (hmem : pin ∈ cs.map (·.pin)) :
    Passed (board.takeAll cs) matrix assignment mode next col pin := by
  obtain ⟨q, hseen, hplaced⟩ := hseen.later hopen
  exact .placed hseen (Bool.or_eq_true_iff.mpr (.inl (hplaced.mpr (.inr hmem))))

end Later

theorem Planned.commits_subset (h : Planned board matrix assignment mode plan col pin next) :
    plan.commits ⊆ next.commits := by
  cases h with
  | skipped => exact List.Subset.refl _
  | failed => exact List.Subset.refl _
  | single =>
    rw [Plan.commits_add]
    exact List.subset_append_left _ _
  | pair =>
    rw [Plan.commits_add]
    exact List.subset_append_left _ _

/-- After a pass every column is passed over. -/
theorem plan_passed (hok : (PinPass.plan board matrix assignment mode).answer = .ok ())
    (hopen : board.Open (PinPass.plan board matrix assignment mode).state.commits)
    (hnext : next.commits = []) {item : Nat × Nat}
    (hitem : item ∈ matrix.columns.zipIdx.map Prod.swap) :
    Passed (board.takeAll (PinPass.plan board matrix assignment mode).state.commits) matrix
      assignment mode next item.1 item.2 := by
  -- what is known of the columns done so far holds on every board with the commits so far
  let P (done : List (Nat × Nat)) (plan : Plan) : Prop :=
    ∀ item ∈ done, ∀ cs, board.Open cs → plan.commits ⊆ cs →
      Passed (board.takeAll cs) matrix assignment mode next item.1 item.2
  have hall := Outcome.forEach_reaches (P := P) ?_ hok nofun
  · exact hall item hitem _ hopen (List.Subset.refl _)
  rintro done ⟨col, pin⟩ plan - hdone hstep item hitem cs hopen hsub
  have hplanned := planColumn_planned board matrix assignment mode plan col pin
  have hbefore := List.Subset.trans hplanned.commits_subset hsub
  rcases List.mem_append.mp hitem with hitem | hitem
  · exact hdone item hitem cs hopen hbefore
  · obtain rfl := List.mem_singleton.mp hitem
    rcases passed_or_committed hstep with hpassed | ⟨⟨p, row, partner?, hseen⟩, hmem⟩
    · exact hpassed.later hopen hbefore hnext
    · exact passed_of_committed hopen hseen (List.map_subset _ hsub hmem)

/-- A plan of columns that are all passed over holds nothing but failed pairs. -/
theorem plan_of_passed
    (h : ∀ item ∈ matrix.columns.zipIdx.map Prod.swap, ∀ next : Plan, next.commits = [] →
      Passed board matrix assignment mode next item.1 item.2) :
    (PinPass.plan board matrix assignment mode).answer = .ok () ∧
      ∃ failures, (PinPass.plan board matrix assignment mode).state = { failures } := by
  let P (_ : List (Nat × Nat)) (plan : Plan) : Prop := ∃ failures, plan = { failures }
  refine Outcome.forEach_finishes (planColumn board matrix assignment mode) {} _ (P := P)
    ?_ ⟨[], rfl⟩
  rintro done item plan hpre ⟨failures, rfl⟩
  have hmem := hpre.subset (List.mem_append_right done (List.mem_singleton_self item))
  obtain ⟨hok, failures', hstate⟩ := (h item hmem { failures } rfl).planColumn_eq
  exact ⟨hok, failures', hstate⟩

/-- A plan of failed pairs alone changes nothing, and reports no warning. -/
theorem carryOut_failures (board : Board) (mode : Mode) (failures : List MirrorFailure) :
    (carryOut board mode { failures }).state = board ∧
      ((∃ result, (carryOut board mode { failures }).answer = .ok result ∧ result.commits = [] ∧
          result.cost = 0 ∧ result.warnings = []) ∨
        (carryOut board mode { failures }).answer = .error (.unplacedMirrors failures)) := by
  have hwarnings : (failures.map failureDiagnostic).filter (·.severity = .warning) = [] := by
    rw [List.filter_map, List.map_eq_nil_iff, List.filter_eq_nil_iff]
    exact fun f _ => by simp [failureDiagnostic]
  rw [carryOut, Outcome.forEach_nil, Outcome.done_andThen]
  refine ⟨rfl, ?_⟩
  simp only
  split
  · exact .inr rfl
  · exact .inl ⟨_, rfl, rfl, rfl, hwarnings⟩

/-- A pin pass over any matrix and assignment that goes through, or ends in failed pairs, ends in
one of these two ways a second time.  Then it commits no pin and leaves the board as it is, and its
result holds no cost and no warning. -/
theorem run_idempotent (board : Board) (matrix : CostMatrix) (assignment : Assignment) (mode : Mode)
    (h : (∃ result, (run board matrix assignment mode).answer = .ok result) ∨
      ∃ failures, (run board matrix assignment mode).answer = .error (.unplacedMirrors failures)) :
    let first := run board matrix assignment mode
    let again := run first.state matrix assignment mode
    again.state = first.state ∧
      ((∃ result, again.answer = .ok result ∧ result.commits = [] ∧ result.cost = 0 ∧
          result.warnings = []) ∨
        ∃ failures, again.answer = .error (.unplacedMirrors failures)) := by
  intro first again
  by_cases hempty : matrix.empty = true
  · simp only [again, run, if_pos hempty]
    exact ⟨rfl, .inl ⟨{}, rfl, rfl, rfl, rfl⟩⟩
  cases hplan : (PinPass.plan board matrix assignment mode).answer with
  | error f =>
    -- a fault of the plan leaves the board, so that the second pass is the first one again
    have hfirst : first.state = board := by simp only [first, run, if_neg hempty, hplan]
    have hanswer : first.answer = .error f := by simp only [first, run, if_neg hempty, hplan]
    simp only [again, hfirst]
    refine ⟨hfirst, ?_⟩
    rcases h with ⟨result, hok⟩ | hfailed
    · cases hanswer.symm.trans hok
    · exact .inr hfailed
  | ok _ =>
    have hholds : Plan.Holds .all board mode (PinPass.plan board matrix assignment mode).state :=
      plan_holds board assignment fun _ _ => trivial
    have hfirst : first.state =
        board.takeAll (PinPass.plan board matrix assignment mode).state.commits := by
      simp only [first, run, if_neg hempty, hplan]
      exact hholds.carryOut_eq.1
    have hpassed : ∀ item ∈ matrix.columns.zipIdx.map Prod.swap, ∀ next : Plan,
        next.commits = [] → Passed first.state matrix assignment mode next item.1 item.2 := by
      rw [hfirst]
      exact fun item hitem next hnext => plan_passed hplan hholds.moves.isOpen hnext hitem
    obtain ⟨hagain, failures, hstate⟩ := plan_of_passed hpassed
    obtain ⟨hleft, hanswer⟩ := carryOut_failures first.state mode failures
    simp only [again, run, if_neg hempty, hagain, hstate]
    exact ⟨hleft, hanswer.imp id fun herror => ⟨failures, herror⟩⟩

/-- The second pair finds no slot for its partner, both times.  The assignment gives the third
column no row, and has a row for a column that the matrix lacks. -/
theorem run_idempotent_oneFacing :
    let core : Outline := Core.outline (.mk 0 0 55 45 (by decide) (by decide))
    let mode : Mode := { mirrored := true, strict := false, reflection := some core.reflection }
    let cost : Cost := .finite 7
    let matrix : CostMatrix :=
      { cells := [[cost, cost, cost], [cost, cost, cost]],
        rowSlots := [0, 1], columns := [0, 2, 1] }
    let first := run oneFacing matrix [some 0, some 1, some 7] mode
    let again := run first.state matrix [some 0, some 1, some 7] mode
    (∃ result, first.answer = .ok result) ∧
      first.state.journal = [⟨0, 0, .pair⟩, ⟨1, 2, .pair⟩] ∧ again.state = first.state ∧
      again.answer.map (·.failures.map (·.pin)) = .ok ["c"] := by
  intro core mode cost matrix first again
  have hok : ∃ result, first.answer = .ok result := by
    cases hanswer : first.answer with
    | ok result => exact ⟨result, rfl⟩
    | error f =>
      have hgone : first.answer.isOk = true := by decide +kernel
      rw [hanswer] at hgone
      cases hgone
  obtain ⟨hstate, -⟩ := run_idempotent oneFacing matrix [some 0, some 1, some 7] mode (.inl hok)
  exact ⟨hok, by decide +kernel, hstate, by decide +kernel⟩

end PinRing.PinPass
