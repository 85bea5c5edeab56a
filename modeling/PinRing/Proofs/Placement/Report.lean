import PinRing.Proofs.Placement.Steps

/-! What the passes report: the errors are those about the mirror pairs that could not be placed,
and such pairs are met in the mirrored pass only. -/

namespace PinRing

/-- The errors of a pass are those about its failed pairs. -/
def PassResult.Accounted (r : PassResult) : Prop :=
  r.errors = r.failures.map PinPass.failureDiagnostic

theorem PassResult.errors_of_warnings {ds : List Diagnostic} (h : ∀ d ∈ ds, d.severity = .warning) :
    ds.filter (·.severity = .error) = [] := by
  refine List.filter_eq_nil_iff.mpr fun d hd => ?_
  rw [h d hd]
  decide

namespace PinPass

variable {board : Board} {matrix : CostMatrix} {assignment : Assignment} {mode : Mode} {plan : Plan}
variable {result : PassResult}

/-- Planning warns, and gives up on pairs only. -/
structure Plan.Mild (mode : Mode) (plan : Plan) : Prop where
  warnings : ∀ d ∈ plan.diagnostics, d.severity = .warning
  failures : mode.mirrored = false → plan.failures = []

theorem Plan.Mild.add (h : plan.Mild mode) (name : String) (cs : List Commit) (cost : Cost) :
    (plan.add name cs cost).Mild mode := by
  cases cost with
  | finite v => exact ⟨h.warnings, h.failures⟩
  | infeasible =>
    refine ⟨fun d hd => ?_, h.failures⟩
    rcases List.mem_append.mp hd with hd | hd
    · exact h.warnings d hd
    · rw [List.mem_singleton.mp hd]

theorem Plan.Mild.planned {col pin : Nat} {next : Plan} (h : plan.Mild mode)
    (hnext : Planned board matrix assignment mode plan col pin next) : next.Mild mode := by
  cases hnext with
  | skipped => exact h
  | failed mirrored =>
    refine ⟨h.warnings, fun hregular => ?_⟩
    rw [mirrored] at hregular
    cases hregular
  | single => exact h.add _ _ _
  | pair => exact h.add _ _ _

theorem plan_mild (board : Board) (matrix : CostMatrix) (assignment : Assignment) (mode : Mode) :
    (PinPass.plan board matrix assignment mode).state.Mild mode :=
  Outcome.forEach_state (fun plan (col, pin) _ h =>
    h.planned (planColumn_planned board matrix assignment mode plan col pin)) ⟨nofun, fun _ => rfl⟩

/-- The result of a pass that goes through is its plan. -/
theorem result_eq (hok : (run board matrix assignment mode).answer = .ok result) :
    result = {} ∨ ∃ plan, (PinPass.plan board matrix assignment mode).answer = .ok () ∧
      (PinPass.plan board matrix assignment mode).state = plan ∧ result =
        { commits := plan.commits
          diagnostics := plan.diagnostics ++ plan.failures.map failureDiagnostic
          failures := plan.failures
          cost := plan.cost } := by
  unfold run at hok
  split at hok
  · cases hok
    exact .inl rfl
  · simp only at hok
    split at hok
    · cases hok
    · rename_i hplan
      obtain ⟨_, -, hok, -⟩ := Outcome.exists_of_andThen_eq_ok hok
      refine .inr ⟨_, hplan, rfl, ?_⟩
      simp only at hok
      split at hok
      · cases hok
      · exact (Except.ok.inj hok).symm

theorem run_accounted (hok : (run board matrix assignment mode).answer = .ok result) :
    result.Accounted ∧ (mode.mirrored = false → result.failures = []) := by
  obtain rfl | ⟨plan, -, hplan, rfl⟩ := result_eq hok
  · exact ⟨rfl, fun _ => rfl⟩
  · have hmild := plan_mild board matrix assignment mode
    rw [hplan] at hmild
    have herrors : ∀ d ∈ plan.failures.map failureDiagnostic, d.severity = .error := by
      intro d hd
      obtain ⟨f, -, rfl⟩ := List.mem_map.mp hd
      rfl
    refine ⟨?_, hmild.failures⟩
    rw [PassResult.Accounted, PassResult.errors, List.filter_append,
      PassResult.errors_of_warnings hmild.warnings, List.nil_append]
    exact List.filter_eq_self.mpr fun d hd => by simp [herrors d hd]

end PinPass

namespace GroupPass

variable {board : Board} {sec : Section} {matrix : CostMatrix} {assignment : Assignment}
variable {blockSize : Int} {p : Progress} {result : PassResult}

/-- A group pass under way has warned only. -/
structure Progress.Mild (p : Progress) : Prop where
  warnings : ∀ d ∈ p.result.diagnostics, d.severity = .warning
  failures : p.result.failures = []

theorem Progress.Mild.warn (h : p.Mild) (message subject : String) :
    (GroupPass.warn p message subject).state.Mild := by
  refine ⟨fun d hd => ?_, h.failures⟩
  rcases List.mem_append.mp hd with hd | hd
  · exact h.warnings d hd
  · rw [List.mem_singleton.mp hd]

theorem Progress.Mild.commitMember (h : p.Mild) (c : Commit) :
    (GroupPass.commitMember p c).state.Mild :=
  Outcome.andThen_state (P := Progress.Mild) ⟨h.warnings, h.failures⟩
    fun _ => ⟨h.warnings, h.failures⟩

theorem Progress.Mild.placeGroup (h : p.Mild) (column : PinGroup × Nat) :
    (GroupPass.placeGroup matrix assignment p column).state.Mild := by
  unfold GroupPass.placeGroup
  simp only
  split
  · exact h.warn _ _
  · refine Outcome.andThen_state (P := Progress.Mild) h fun start => ?_
    refine Outcome.andThen_state (P := Progress.Mild) h fun cost => ?_
    refine Outcome.andThen_state (P := Progress.Mild) ?_ fun _ => ?_
    · cases cost with
      | finite v => exact ⟨h.warnings, h.failures⟩
      | infeasible => exact h.warn _ _
    · refine Outcome.forEach_state (fun p c _ hp => hp.commitMember c) ?_
      cases cost with
      | finite v => exact ⟨h.warnings, h.failures⟩
      | infeasible => exact h.warn _ _

theorem run_accounted (hok : (run board sec matrix assignment blockSize).answer = .ok result) :
    result.Accounted ∧ result.failures = [] := by
  unfold run at hok
  split at hok
  · cases hok
    exact ⟨rfl, rfl⟩
  · have hmild : (Outcome.forEach (placeGroup matrix assignment) { board, sec }
        sec.groups.zipIdx).state.Mild :=
      Outcome.forEach_state (fun p column _ hp => hp.placeGroup column) ⟨nofun, rfl⟩
    simp only at hok
    split at hok
    · cases hok
    · cases hok
      refine ⟨?_, hmild.failures⟩
      rw [PassResult.Accounted, hmild.failures]
      exact PassResult.errors_of_warnings hmild.warnings

end GroupPass

namespace Run

variable {w next : Work} {failing : Prop}

/-- The errors so far are those about the failed pairs. -/
def Work.Accounted (w : Work) : Prop := w.report.errors = w.failures.map PinPass.failureDiagnostic

/-- What a step of a section does to the report: nothing, or it takes in the result of a pass, in
which pairs fail only if that is possible. -/
inductive Reported (failing : Prop) (w : Work) : Work → Prop
  | nothing (board : Board) : Reported failing w { w with board }
  | pass (board : Board) (result : PassResult) (accounted : result.Accounted)
      (failures : ¬failing → result.failures = []) :
      Reported failing w (Work.absorb { w with board } result)

theorem Reported.accounted (h : Reported failing w next) (hw : w.Accounted) : next.Accounted := by
  cases h with
  | nothing board => exact hw
  | pass board result accounted _ =>
    have hsum : w.report.errors ++ result.errors =
        (w.failures ++ result.failures).map PinPass.failureDiagnostic := by
      rw [List.map_append, ← accounted, ← hw]
    exact hsum

theorem Reported.failures_eq (h : Reported failing w next) (hnot : ¬failing) :
    next.failures = w.failures := by
  cases h with
  | nothing board => rfl
  | pass board result _ failures =>
    exact (congrArg (w.failures ++ ·) (failures hnot)).trans (List.append_nil _)

theorem pinStep_reported (mirrored : Bool) (m : Matching) (w : Work) :
    Reported (mirrored = true) w (pinStep mirrored m w).state.2 := by
  rw [pinStep]
  cases hfound : (m.findPins w.board mirrored).answer with
  | error f =>
    simp only [Outcome.mapState, Outcome.andThen, hfound]
    exact .nothing w.board
  | ok _ =>
    cases hpass : ((m.findPins w.board mirrored).state.commitPins w.board mirrored).answer with
    | error f =>
      simp only [Outcome.mapState, Outcome.andThen, hfound, hpass]
      exact .nothing _
    | ok result =>
      simp only [Outcome.mapState, Outcome.andThen, hfound, hpass]
      rw [((m.findPins w.board mirrored).state.commitPins_eq w.board mirrored).2] at hpass
      obtain ⟨haccounted, hfailures⟩ := PinPass.run_accounted hpass
      exact .pass _ result haccounted fun hregular => hfailures (by simpa using hregular)

theorem reserveStep_reported (m : Matching) (w : Work) :
    Reported False w (reserveStep m w).state.2 := by
  rw [reserveStep]
  split <;> exact .nothing w.board

theorem groupStep_reported (m : Matching) (w : Work) :
    Reported False w (groupStep m w).state.2 := by
  rw [groupStep]
  split
  · exact .nothing w.board
  cases hfound : (m.findGroups w.board).answer with
  | error f =>
    simp only [Outcome.mapState, Outcome.andThen, hfound]
    exact .nothing w.board
  | ok _ =>
    cases hpass : ((m.findGroups w.board).state.commitGroups w.board).answer with
    | error f =>
      simp only [Outcome.mapState, Outcome.andThen, hfound, hpass]
      exact .nothing _
    | ok result =>
      simp only [Outcome.mapState, Outcome.andThen, hfound, hpass]
      rw [((m.findGroups w.board).state.commitGroups_eq w.board).1] at hpass
      obtain ⟨haccounted, hfailures⟩ := GroupPass.run_accounted hpass
      exact .pass _ result haccounted fun _ => hfailures

end Run

end PinRing
