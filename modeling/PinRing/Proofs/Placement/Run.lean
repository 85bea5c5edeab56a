import PinRing.Placement.Run
import PinRing.Proofs.Placement.Distribution
import PinRing.Proofs.Placement.Matching

/-! Runs.  Every step of every section makes moves and counts their commits, so a whole run is one
list of moves, also when a fault ends it half way.  From the moves follows what a run does to the
slots. -/

namespace PinRing

open Board

namespace Run

variable {reflection : Option Reflection} {start : Board} {scope : Scope} {kinds : Origin → Prop}
variable {m : Matching} {w : Work}

/-- What a step of a section leaves behind: the moves that it made on the board, which it counts
unless it was stopped. -/
structure Advanced (reflection : Option Reflection) (scope : Scope) (w next : Work)
    (answer : Except Fault Unit) (cs : List Commit) : Prop where
  moves : Moves reflection scope w.board cs
  board_eq : next.board = w.board.takeAll cs
  placed_eq : answer = .ok () → next.report.placed = w.report.placed + cs.length

theorem Advanced.none {answer : Except Fault Unit} (reflection : Option Reflection)
    (scope : Scope) (w : Work) : Advanced reflection scope w w answer [] :=
  ⟨.nil _, rfl, fun _ => rfl⟩

theorem Advanced.frame {next : Work} {answer : Except Fault Unit} {cs : List Commit}
    (h : Advanced reflection scope w next answer cs) (hframe : Frame start w.board) :
    Frame start next.board := by
  rw [h.board_eq]
  exact hframe.trans h.moves.isOpen.frame

theorem Advanced.trans {mid next : Work} {answer : Except Fault Unit} {cs ds : List Commit}
    (h : Advanced reflection scope w mid (.ok ()) cs)
    (h' : Advanced reflection scope mid next answer ds) :
    Advanced reflection scope w next answer (cs ++ ds) where
  moves := h.moves.append (h.board_eq ▸ h'.moves)
  board_eq := by rw [takeAll_append, ← h.board_eq, h'.board_eq]
  placed_eq := by
    intro hok
    rw [h'.placed_eq hok, h.placed_eq rfl, List.length_append, Nat.add_assoc]

/-- An outcome in which the section is ready and the work has advanced. -/
def Kept (reflection : Option Reflection) (start : Board) (scope : Scope) (kinds : Origin → Prop)
    (w : Work) (o : Outcome (Matching × Work) Unit) : Prop :=
  o.state.1.Ready start scope kinds reflection ∧
    ∃ cs, Advanced reflection scope w o.state.2 o.answer cs

/-- A step keeps its section ready, and advances the work. -/
def Sound (reflection : Option Reflection) (start : Board) (scope : Scope) (kinds : Origin → Prop)
    (step : SectionStep) : Prop :=
  ∀ m w, Frame start w.board → m.Ready start scope kinds reflection →
    Kept reflection start scope kinds w (step m w)

/-! ### Steps of one section -/

/-- A step that takes over a matrix goes on if the matrix was built. -/
theorem kept_of_adopt {built : Except Fault CostMatrix} {log : CostMatrix → List LogEntry}
    {k : Matching × Work → Unit → Outcome (Matching × Work) Unit}
    (hready : m.Ready start scope kinds reflection)
    (hk : ∀ matrix assignment, built = .ok matrix →
      Kept reflection start scope kinds w (k ({ m with matrix, assignment }, w) ())) :
    Kept reflection start scope kinds w (((m.adopt built log).mapState (·, w)).andThen k) := by
  cases ha : (m.adopt built log).answer with
  | error f =>
    -- The new matrix stays in place even if it could not be solved.
    obtain ⟨matrix, assignment, hstate⟩ := m.adopt_keeps built log
    simp only [Outcome.mapState, Outcome.andThen, ha, hstate]
    exact ⟨hready.of_adopted matrix assignment, [], .none _ _ _⟩
  | ok _ =>
    obtain ⟨matrix, assignment, hbuilt, -, hstate⟩ := Matching.adopt_ok ha
    simp only [Outcome.mapState, Outcome.andThen, ha, hstate]
    exact hk matrix assignment hbuilt

/-- A pass over a section whose commits are moves advances the work by them. -/
theorem kept_of_moves {o : Outcome (Matching × Board) PassResult} {cs : List Commit}
    (hmoves : Moves reflection scope w.board cs) (hboard : o.state.2 = w.board.takeAll cs)
    (hready : o.state.1.Ready start scope kinds reflection)
    (hcommits : ∀ result, o.answer = .ok result → result.commits = cs) :
    Kept reflection start scope kinds w
      ((o.mapState fun (m, board) => (m, { w with board })).andThen fun (m, w) result =>
        .done (m, w.absorb result) ()) := by
  cases ha : o.answer with
  | error f =>
    simp only [Outcome.mapState, Outcome.andThen, ha]
    exact ⟨hready, cs, hmoves, hboard, fun h => by cases h⟩
  | ok result =>
    simp only [Outcome.mapState, Outcome.andThen, ha]
    refine ⟨hready, cs, hmoves, hboard, fun _ => ?_⟩
    rw [← hcommits result ha]
    simp [Outcome.done, Work.absorb, Report.absorb, PassResult.placed]

theorem pinStep_sound (mirrored : Bool) (hkind : kinds (if mirrored then .pair else .single)) :
    Sound reflection start scope kinds (pinStep mirrored) := by
  intro m w hframe hready
  refine kept_of_adopt hready fun matrix assignment hmatrix => ?_
  have hready' := hready.of_adopted matrix assignment
  obtain ⟨cs, hmoves, hboard, hcommits⟩ :=
    Matching.commitPins_moves mirrored hready' hkind hframe hmatrix
  let pass := Matching.commitPins { m with matrix, assignment } w.board mirrored
  exact kept_of_moves (o := pass.mapState ({ m with matrix, assignment }, ·)) hmoves hboard hready'
    hcommits

theorem reserveStep_sound : Sound reflection start scope kinds reserveStep := by
  intro m w _ hready
  rw [reserveStep]
  split
  · exact ⟨hready, [], .none _ _ _⟩
  · refine ⟨?_, [], .none _ _ _⟩
    simp only [Outcome.mapState, Matching.reserveBlocks]
    split
    · exact ⟨hready.reflection_eq, hready.blockSize_eq, hready.covered⟩
    · split
      · exact ⟨hready.reflection_eq, hready.blockSize_eq, hready.covered⟩
      · split
        · exact ⟨hready.reflection_eq, hready.blockSize_eq, hready.covered⟩
        · exact ⟨hready.reflection_eq, hready.blockSize_eq, hready.covered⟩

theorem groupStep_sound : Sound reflection start scope kinds groupStep := by
  intro m w hframe hready
  rw [groupStep]
  split
  · exact ⟨hready, [], .none _ _ _⟩
  · refine kept_of_adopt hready fun matrix assignment hmatrix => ?_
    obtain ⟨cs, hmoves, hboard, hafter, hcommits⟩ :=
      Matching.commitGroups_moves (hready.of_adopted matrix assignment) hmatrix
    exact kept_of_moves hmoves hboard hafter hcommits

/-- The passes after the mirrored one. -/
def laterPasses (config : Config) : List SectionStep :=
  (if config.assignGroups then [reserveStep] else []) ++ [pinStep false] ++
    (if config.assignGroups then [groupStep] else [])

theorem passes_eq (board : Board) (config : Config) : passes board config =
    (if board.pins.mirrors.isEmpty then [] else [pinStep true]) ++ laterPasses config := by
  simp only [passes, laterPasses, List.append_assoc]

theorem laterPasses_sound (hsingle : kinds .single) (config : Config) :
    ∀ step ∈ laterPasses config, Sound reflection start scope kinds step := by
  intro step hstep
  simp only [laterPasses, List.mem_append] at hstep
  rcases hstep with (hstep | hstep) | hstep
  · split at hstep
    · exact List.mem_singleton.mp hstep ▸ reserveStep_sound
    · cases hstep
  · exact List.mem_singleton.mp hstep ▸ pinStep_sound false hsingle
  · split at hstep
    · exact List.mem_singleton.mp hstep ▸ groupStep_sound
    · cases hstep

theorem passes_sound (hpair : kinds .pair) (hsingle : kinds .single) (board : Board)
    (config : Config) : ∀ step ∈ passes board config, Sound reflection start scope kinds step := by
  intro step hstep
  rw [passes_eq, List.mem_append] at hstep
  rcases hstep with hstep | hstep
  · split at hstep
    · cases hstep
    · exact List.mem_singleton.mp hstep ▸ pinStep_sound true hpair
  · exact laterPasses_sound hsingle config step hstep

/-! ### All sections, all passes -/

theorem sweep_advances {step : SectionStep} (hstep : Sound reflection start scope kinds step)
    {ms : List Matching} {w : Work} (hframe : Frame start w.board)
    (hready : ∀ m ∈ ms, m.Ready start scope kinds reflection) :
    (∀ m ∈ (sweep step ms w).state.1, m.Ready start scope kinds reflection) ∧
      ∃ cs, Advanced reflection scope w (sweep step ms w).state.2 (sweep step ms w).answer cs := by
  induction ms generalizing w with
  | nil => exact ⟨hready, [], .none _ _ _⟩
  | cons m rest ih =>
    obtain ⟨hm, hrest⟩ := List.forall_mem_cons.mp hready
    obtain ⟨hm', cs, hadvanced⟩ := hstep m w hframe hm
    rw [sweep]
    cases ha : (step m w).answer with
    | error f =>
      rw [ha] at hadvanced
      exact ⟨List.forall_mem_cons.mpr ⟨hm', hrest⟩, cs, hadvanced⟩
    | ok _ =>
      rw [ha] at hadvanced
      obtain ⟨hrest', ds, hothers⟩ := ih (hadvanced.frame hframe) hrest
      exact ⟨List.forall_mem_cons.mpr ⟨hm', hrest'⟩, cs ++ ds, hadvanced.trans hothers⟩

theorem forEach_sweep_advances {steps : List SectionStep}
    (hsteps : ∀ step ∈ steps, Sound reflection start scope kinds step) {ms : List Matching}
    {w : Work} (hframe : Frame start w.board)
    (hready : ∀ m ∈ ms, m.Ready start scope kinds reflection) :
    let swept := Outcome.forEach (fun (ms, w) step => sweep step ms w) (ms, w) steps
    ∃ cs, Advanced reflection scope w swept.state.2 swept.answer cs := by
  induction steps generalizing ms w with
  | nil => exact ⟨[], .none _ _ _⟩
  | cons step steps ih =>
    obtain ⟨hstep, hrest⟩ := List.forall_mem_cons.mp hsteps
    obtain ⟨hready', cs, hadvanced⟩ := sweep_advances hstep hframe hready
    rw [Outcome.forEach_cons]
    cases ha : (sweep step ms w).answer with
    | error f =>
      rw [ha] at hadvanced
      rw [Outcome.andThen_of_error ha]
      exact ⟨cs, hadvanced⟩
    | ok _ =>
      rw [ha] at hadvanced
      rw [Outcome.andThen_of_ok ha]
      obtain ⟨ds, hothers⟩ := ih hrest (hadvanced.frame hframe) hready'
      exact ⟨cs ++ ds, hadvanced.trans hothers⟩

theorem conclude_answer (config : Config) (failures : List MirrorFailure) (r : Report) :
    (conclude config failures r).answer =
      (written (Text.decimal? r.totalCost)).map fun _ => judge config failures r := by
  unfold conclude
  cases written (Text.decimal? r.totalCost) <;> rfl

theorem report_judge (config : Config) (failures : List MirrorFailure) (r : Report) :
    (judge config failures r).report = r := by
  rw [judge]
  split <;> rfl

theorem eq_of_conclude {config : Config} {failures : List MirrorFailure} {r : Report}
    {verdict : Verdict} (h : (conclude config failures r).answer = .ok verdict) :
    verdict = judge config failures r ∧ verdict.report = r := by
  rw [conclude_answer] at h
  cases hcost : written (Text.decimal? r.totalCost) with
  | error f => rw [hcost] at h; cases h
  | ok cost =>
    rw [hcost] at h
    cases h
    exact ⟨rfl, report_judge _ _ _⟩

theorem place_moves (board : Board) (model : CostModel) (reflection : Option Reflection)
    (config : Config) {secs : List Section}
    (hsecs : ∀ s ∈ secs, scope.Covers board (fun _ => True) s) :
    let placed := place board model reflection config secs
    ∃ cs, Moves reflection scope board cs ∧ placed.state.1 = board.takeAll cs ∧
      ∀ verdict, placed.answer = .ok verdict → verdict.report.placed = cs.length := by
  have hready : ∀ m ∈ secs.map (Matching.ofSection · model reflection false),
      m.Ready board scope (fun _ => True) reflection := by
    intro m hm
    obtain ⟨s, hs, rfl⟩ := List.mem_map.mp hm
    exact ⟨rfl, rfl, hsecs s hs⟩
  obtain ⟨cs, hadvanced⟩ := forEach_sweep_advances
    (w := { board, report := { sections := secs.length } })
    (passes_sound trivial trivial board config) (Frame.refl board) hready
  refine ⟨cs, hadvanced.moves, ?_⟩
  unfold place
  simp only
  split
  · exact ⟨hadvanced.board_eq, fun _ h => nomatch h⟩
  · rename_i hok
    refine ⟨hadvanced.board_eq, fun verdict hverdict => ?_⟩
    rw [(eq_of_conclude hverdict).2]
    have := hadvanced.placed_eq hok
    rwa [Nat.zero_add] at this

end Run

/-- A run is a list of moves within every scope that covers its sections, whether it ends in a fault
or not, and a run that ends in a report has counted their commits. -/
theorem run_moves_within (board : Board) (model : CostModel) (reflection : Option Reflection)
    (config : Config) (scope : Scope)
    (hscope :
      let shared := distribute board model config (board.boundary.sections config.sectionSize)
      shared.answer = .ok () → ∀ s ∈ shared.state, scope.Covers board (fun _ => True) s) :
    ∃ cs, Moves reflection scope board cs ∧
      (run board model reflection config).state.1 = board.takeAll cs ∧
      ∀ verdict, (run board model reflection config).answer = .ok verdict →
        verdict.report.placed = cs.length := by
  unfold run
  simp only
  split
  · refine ⟨[], .nil board, rfl, fun verdict hverdict => ?_⟩
    cases hverdict
    rfl
  cases hdistribute :
    (distribute board model config (board.boundary.sections config.sectionSize)).answer with
  | error f =>
    simp only [Outcome.mapState, Outcome.andThen, hdistribute]
    exact ⟨[], .nil board, rfl, fun _ h => by cases h⟩
  | ok _ =>
    simp only [Outcome.mapState, Outcome.andThen, hdistribute]
    exact Run.place_moves board model reflection config (hscope hdistribute)

/-- `run_moves_within` for all that a board allows. -/
theorem run_moves (board : Board) (model : CostModel) (reflection : Option Reflection)
    (config : Config) :
    ∃ cs, Moves reflection board.scope board cs ∧
      (run board model reflection config).state.1 = board.takeAll cs ∧
      ∀ verdict, (run board model reflection config).answer = .ok verdict →
        verdict.report.placed = cs.length :=
  run_moves_within board model reflection config board.scope fun hdistribute s hs =>
    ⟨fun _ _ _ _ helig => helig,
      fun g hg => (Distribution.given_distribute hdistribute s hs g hg).1⟩

/-- A run changes flags and spots only. -/
theorem frame_run (board : Board) (model : CostModel) (reflection : Option Reflection)
    (config : Config) : Frame board (run board model reflection config).state.1 := by
  obtain ⟨cs, hmoves, hboard, -⟩ := run_moves board model reflection config
  rw [hboard]
  exact hmoves.isOpen.frame

end PinRing
