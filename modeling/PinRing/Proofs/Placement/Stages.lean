import PinRing.Proofs.Placement.Run
import PinRing.Proofs.Placement.Steps

/-! The stages of a run: the distribution, the passes one after the other, and the verdict.  Whether
mirrored pins are placed strictly matters for the verdict only. -/

namespace PinRing

namespace Run

variable {board : Board} {model : CostModel} {reflection : Option Reflection} {config : Config}
variable {secs : List Section} {verdict : Verdict}

/-- The sections with nothing worked out yet, and the work before the first pass. -/
def opening (board : Board) (model : CostModel) (reflection : Option Reflection)
    (secs : List Section) : List Matching × Work :=
  (secs.map (Matching.ofSection · model reflection false),
    { board, report := { sections := secs.length } })

/-- Passes over all sections, one after the other. -/
def sweeps (steps : List SectionStep) (s : List Matching × Work) :
    Outcome (List Matching × Work) Unit :=
  Outcome.forEach (fun (ms, w) step => sweep step ms w) s steps

theorem sweeps_append (steps later : List SectionStep) (s : List Matching × Work) :
    sweeps (steps ++ later) s = (sweeps steps s).andThen fun s _ => sweeps later s :=
  Outcome.forEach_append _ s steps later

theorem sweeps_singleton (step : SectionStep) (s : List Matching × Work) :
    (sweeps [step] s).answer = (sweep step s.1 s.2).answer ∧
      (sweeps [step] s).state = (sweep step s.1 s.2).state := by
  simp only [sweeps, Outcome.forEach_cons]
  cases ha : (sweep step s.1 s.2).answer with
  | error f => simp [Outcome.andThen_of_error ha]
  | ok _ => simp [Outcome.andThen_of_ok ha, Outcome.done]

theorem sweeps_cons {step : SectionStep} {s : List Matching × Work}
    (h : (sweep step s.1 s.2).answer = .ok ()) (steps : List SectionStep) :
    (sweeps (step :: steps) s).answer = (sweeps steps (sweep step s.1 s.2).state).answer ∧
      (sweeps (step :: steps) s).state = (sweeps steps (sweep step s.1 s.2).state).state := by
  rw [sweeps, Outcome.forEach_cons, Outcome.andThen_of_ok h]
  exact ⟨rfl, rfl⟩

theorem sweeps_cons_error {step : SectionStep} {s : List Matching × Work} {f : Fault}
    (h : (sweep step s.1 s.2).answer = .error f) (steps : List SectionStep) :
    (sweeps (step :: steps) s).answer = .error f := by
  rw [sweeps, Outcome.forEach_cons, Outcome.andThen_of_error h]

theorem place_state (board : Board) (model : CostModel) (reflection : Option Reflection)
    (config : Config) (secs : List Section) :
    let swept := sweeps (passes board config) (opening board model reflection secs)
    (place board model reflection config secs).state =
      (swept.state.2.board, swept.state.1.map (·.sec)) := by
  simp only [place, opening, sweeps]
  split <;> rfl

theorem place_answer (board : Board) (model : CostModel) (reflection : Option Reflection)
    (config : Config) (secs : List Section) :
    let swept := sweeps (passes board config) (opening board model reflection secs)
    (place board model reflection config secs).answer = swept.answer.bind fun _ =>
      (conclude config swept.state.2.failures (finish swept.state.2)).answer := by
  simp only [place, opening, sweeps]
  split
  · rename_i h
    simp only [h]
    rfl
  · rename_i h
    simp only [h]
    rfl

end Run

open Run

variable {board : Board} {model : CostModel} {reflection : Option Reflection} {config : Config}

theorem run_of_nil (reflection : Option Reflection)
    (h : board.boundary.sections config.sectionSize = []) :
    run board model reflection config = withoutSections board := by
  simp [run, h]

/-- Past the distribution a run is the passes over the sections. -/
theorem run_of_distribute (reflection : Option Reflection)
    (hne : board.boundary.sections config.sectionSize ≠ [])
    (h : (distribute board model config (board.boundary.sections config.sectionSize)).answer =
      .ok ()) :
    let shared := distribute board model config (board.boundary.sections config.sectionSize)
    (run board model reflection config).state =
        (place board model reflection config shared.state).state ∧
      (run board model reflection config).answer =
        (place board model reflection config shared.state).answer := by
  have hne : (board.boundary.sections config.sectionSize).isEmpty = false := by simpa using hne
  simp [run, hne, Outcome.mapState, Outcome.andThen, h]

theorem run_of_distribute_error (reflection : Option Reflection)
    (hne : board.boundary.sections config.sectionSize ≠ []) {f : Fault}
    (h : (distribute board model config (board.boundary.sections config.sectionSize)).answer =
      .error f) :
    (run board model reflection config).answer = .error f ∧
      (run board model reflection config).state =
        (board, (distribute board model config
          (board.boundary.sections config.sectionSize)).state) := by
  have hne : (board.boundary.sections config.sectionSize).isEmpty = false := by simpa using hne
  simp [run, hne, Outcome.mapState, Outcome.andThen, h]

/-! ### Strict mirroring -/

/-- The configuration under which mirror pairs may stay without a place. -/
def Config.lenient (c : Config) : Config := { c with strictMirroring := false }

theorem prepare_lenient (b : Boundary) (secs : List Section) :
    Distribution.prepare b config.lenient secs = Distribution.prepare b config secs := by
  induction secs with
  | nil => rfl
  | cons s rest ih =>
    simp only [Distribution.prepare, ih]
    rfl

theorem distribute_lenient (secs : List Section) :
    distribute board model config.lenient secs = distribute board model config secs := by
  rw [distribute, prepare_lenient, distribute]

theorem conclude_lenient (failures : List MirrorFailure) (r : Report) :
    (conclude config.lenient failures r).answer =
      (conclude config failures r).answer.map fun v => .placed v.report := by
  rw [conclude_answer, conclude_answer]
  cases written (Text.decimal? r.totalCost) with
  | error f => rfl
  | ok _ =>
    simp only [Except.map, report_judge]
    rfl

theorem place_lenient (secs : List Section) :
    (place board model reflection config.lenient secs).state =
        (place board model reflection config secs).state ∧
      (place board model reflection config.lenient secs).answer =
        (place board model reflection config secs).answer.map fun v => .placed v.report := by
  refine ⟨?_, ?_⟩
  · rw [place_state, place_state]
    rfl
  · have hpasses : Run.passes board config.lenient = Run.passes board config := rfl
    rw [place_answer, place_answer, hpasses]
    cases (sweeps (Run.passes board config) (opening board model reflection secs)).answer with
    | error f => rfl
    | ok _ => exact conclude_lenient _ _

/-- Without strict mirroring a run ends in the same board, and in the report of the same run. -/
theorem run_lenient (board : Board) (model : CostModel) (reflection : Option Reflection)
    (config : Config) :
    (run board model reflection config.lenient).state = (run board model reflection config).state ∧
      (run board model reflection config.lenient).answer =
        (run board model reflection config).answer.map fun v => .placed v.report := by
  have hsecs : board.boundary.sections config.lenient.sectionSize =
      board.boundary.sections config.sectionSize := rfl
  by_cases hne : board.boundary.sections config.sectionSize = []
  · rw [run_of_nil reflection hne, run_of_nil reflection (hsecs.trans hne)]
    exact ⟨rfl, rfl⟩
  cases hdistribute :
    (distribute board model config (board.boundary.sections config.sectionSize)).answer with
  | error f =>
    obtain ⟨hanswer, hstate⟩ := run_of_distribute_error reflection hne hdistribute
    rw [← distribute_lenient, ← hsecs] at hdistribute
    have hlenient := run_of_distribute_error reflection (hsecs ▸ hne) hdistribute
    rw [hanswer, hstate, hlenient.1, hlenient.2, hsecs, distribute_lenient]
    exact ⟨rfl, rfl⟩
  | ok _ =>
    obtain ⟨hstate, hanswer⟩ := run_of_distribute reflection hne hdistribute
    rw [← distribute_lenient, ← hsecs] at hdistribute
    obtain ⟨hstate', hanswer'⟩ := run_of_distribute reflection (hsecs ▸ hne) hdistribute
    rw [hstate, hanswer, hstate', hanswer', hsecs, distribute_lenient]
    exact place_lenient _

end PinRing
