import Mathlib.Tactic.Common
import PinRing.CommandLine.Run
import PinRing.Document.Yaml
import PinRing.Proofs.File.Problem
import PinRing.Proofs.File.Replay
import PinRing.Proofs.Placement.Recheck
import PinRing.Proofs.Placement.Run

/-! Checking what was placed.  The result of a run is replayed in full, and the review of the replay
finds no error that the review after the run did not find; so `check` accepts what `place` saves
when all went well. -/

namespace PinRing

open Board

variable {start : Board}

/-- The stored result of a board is loaded and replayed on the board as it was, and no review finds
errors on the replay that it does not find on the board itself. -/
theorem ResultFile.replayed {ended : Board} {format : TextFormat} {report : Report} {path : String}
    (hd : start.pins.Declared) (hframe : Frame start ended)
    (hinverts : format.Inverts (toValue ended.pins report)) (hpath : Path.hasNull path = false) :
    ∃ spots replayed,
      load format path (.text (format.write (toValue ended.pins report))) = .ok spots ∧
      apply start spots = (replayed, .ok ()) ∧
      replayed.pins = ended.pins ∧
      ∀ reflection blocked issues, review ended reflection blocked = .ok issues →
        ∃ found, review replayed reflection blocked = .ok found ∧ found.Sublist issues := by
  obtain ⟨replayed, happly, hframe', hpins, hused⟩ := apply_stored hd hframe
  exact ⟨_, replayed, load_written hinverts hpath, happly, hpins,
    fun _ _ _ h => review_sublist hframe' hpins hused h⟩

theorem passes_of_sublist {found issues : List Issue} (h : found.Sublist issues)
    (hpass : passes issues = true) : passes found = true :=
  List.all_eq_true.mpr fun i hi => List.all_eq_true.mp hpass i (h.subset hi)

namespace CommandLine

/-- The run of a `place` command that ends in a report. -/
structure Placing (args : PlaceArguments) (format : TextFormat) (files : String → FileContent) where
  problem : Problem
  settings : Settings
  ended : Outcome (Board × List Section) Verdict
  report : Report
  configured : args.settings format files = .ok settings
  loaded : Problem.load format args.problem (files (Path.plain args.problem)) = .ok problem
  ran : settings.run problem.board problem.model (some problem.core.reflection) = .ok ended
  reported : ended.answer = .ok (.placed report)

namespace Placing

variable {args : PlaceArguments} {format : TextFormat} {files : String → FileContent}

def board (made : Placing args format files) : Board := made.ended.state.1

def document (made : Placing args format files) : Value :=
  ResultFile.toValue made.board.pins made.report

theorem frame (made : Placing args format files) : Frame made.problem.board made.board := by
  have hran := made.ran
  unfold Settings.run at hran
  split at hran
  · have hended := Except.ok.inj hran
    rw [board, ← hended]
    exact frame_run _ _ _ _
  · split at hran
    · have hended := Except.ok.inj hran
      rw [board, ← hended]
      exact Frame.refl _
    · cases hran

theorem declared (made : Placing args format files) : made.problem.board.pins.Declared := by
  have hloaded := made.loaded
  unfold Problem.load at hloaded
  simp only at hloaded
  split at hloaded
  · cases hloaded
  · exact Problem.ofValue_declared hloaded

end Placing

variable {args : PlaceArguments} {format : TextFormat} {files : String → FileContent}
variable {path closing : String} {text? : Option String} {status : Nat}

/-- A refusal saves nothing. -/
theorem settingsFailure_ending_ne (f : SettingsFileFault) :
    (settingsFailure f).ending ≠ .save path text? closing status := by
  unfold settingsFailure
  split
  · exact nofun
  · exact nofun
  · split <;> exact nofun

theorem problemFailure_ending_ne (reportsValues : Bool) (f : ProblemFault) :
    (problemFailure reportsValues f).ending ≠ .save path text? closing status := by
  unfold problemFailure
  split
  · exact nofun
  · split <;> exact nofun
  · exact nofun

/-- Only a run that ends in a report leads to a file. -/
theorem exists_placing (h : (place args format files).ending = .save path text? closing status) :
    ∃ made : Placing args format files,
      (concludePlace args format made.problem made.board made.report).ending =
        .save path text? closing status := by
  unfold place at h
  split at h
  · exact absurd h (settingsFailure_ending_ne _)
  rename_i settings hsettings
  split at h
  · exact absurd h (problemFailure_ending_ne _ _)
  rename_i problem hload
  simp only [Execution.after] at h
  split at h
  · cases h
  rename_i ended hran
  simp only at h
  split at h
  · cases h
  · cases h
  · rename_i report hreport
    exact ⟨⟨problem, settings, ended, report, hsettings, hload, hran, hreport⟩, h⟩

/-- A placement that ends without complaint has passed its review, and its result is written. -/
theorem passes_of_concludePlace {problem : Problem} {board : Board} {report : Report}
    {text : String}
    (h : (concludePlace args format problem board report).ending =
      .save path (some text) closing 0) :
    text = format.write (ResultFile.toValue board.pins report) ∧
      ∃ issues, review board (some problem.core.reflection) (blockedSlots problem) = .ok issues ∧
        passes issues = true := by
  unfold concludePlace at h
  simp only at h
  split at h
  · cases h
  rename_i issues hissues
  split at h
  · cases h
  injection h with _ htext _ hstatus
  have htext' : text = format.write (ResultFile.toValue board.pins report) := by
    simp only [ResultFile.text?] at htext
    split at htext
    · exact (Option.some.inj htext).symm
    · cases htext
  refine ⟨htext', issues, hissues, ?_⟩
  by_contra hpass
  simp [hpass] at hstatus

end CommandLine

open CommandLine

/-- Saved results replay exactly, in every format in which the document of the result is read back
as it was written.  Take a run of a loaded problem, on whose board some pins may have places
already, and whatever is reported of it.  What is saved of both is loaded as a result and replayed
in full on the problem as it was loaded: all pins are as they were after the run.  If the review
after the run is carried out, so is the review of the replay, and its errors are among those found
then, in the same order.  And if `place` exits with 0 and saves its result, and the problem file
stays as it is, then `check` of the problem and the saved text exits with 0. -/
theorem result_replays (format : TextFormat) :
    (∀ (v : Value) (p : Problem) (board : Board) (model : CostModel)
        (reflection : Option Reflection) (config : Config) (report : Report) (path : String),
      let ended := (run board model reflection config).state.1
      let document := ResultFile.toValue ended.pins report
      Problem.ofValue v = .ok p → Frame p.board board → format.Inverts document →
      Path.hasNull path = false →
      ∃ spots replayed, ResultFile.load format path (.text (format.write document)) = .ok spots ∧
        ResultFile.apply p.board spots = (replayed, .ok ()) ∧ replayed.pins = ended.pins ∧
        ∀ (reflection : Option Reflection) (blocked : List Nat) (issues : List Issue),
          review ended reflection blocked = .ok issues →
          ∃ found, review replayed reflection blocked = .ok found ∧
            (found.filter (·.severity = .error)).Sublist (issues.filter (·.severity = .error))) ∧
    (∀ (args : PlaceArguments) (files later : String → FileContent) (verbose : Bool)
        (path text closing result : String),
      (place args format files).ending = .save path (some text) closing 0 →
      later (Path.plain args.problem) = files (Path.plain args.problem) →
      later result = .text text → Path.hasNull result = false →
      (∀ made : Placing args format files, format.Inverts made.document) →
      (check { problem := args.problem, result := some result, verbose } format later).ending =
        .exit 0) := by
  constructor
  · intro v p board model reflection config report path ended document hload hframe hinverts hpath
    obtain ⟨spots, replayed, hspots, happly, hpins, hreview⟩ :=
      ResultFile.replayed (Problem.ofValue_declared hload)
        (hframe.trans (frame_run board model reflection config)) hinverts hpath
    refine ⟨spots, replayed, hspots, happly, hpins, fun reflection blocked issues hissues => ?_⟩
    obtain ⟨found, hfound, hsub⟩ := hreview reflection blocked issues hissues
    exact ⟨found, hfound, hsub.filter _⟩
  · intro args files later verbose path text closing result hplace hproblem hresult hpath hinverts
    obtain ⟨made, hending⟩ := exists_placing hplace
    obtain ⟨rfl, issues, hissues, hpass⟩ := passes_of_concludePlace hending
    obtain ⟨spots, replayed, hspots, happly, -, hreview⟩ :=
      ResultFile.replayed made.declared made.frame (hinverts made) hpath
    obtain ⟨found, hfound, hsub⟩ := hreview _ _ _ hissues
    unfold check
    simp only [hproblem, made.loaded, hresult, hspots, happly, concludeCheck, hfound,
      passes_of_sublist hsub hpass, Execution.after, if_true]

/-- Two slots that face each other, for a mirror pair. -/
def facingSlots : Value :=
  let slot (x y : Int) : Value := .mapping [(.text "x", .int x), (.text "y", .int y)]
  .mapping
    [(.text "core", .mapping
        [(.text "xmin", .int 0), (.text "ymin", .int 0), (.text "xmax", .int 70),
          (.text "ymax", .int 80)]),
      (.text "slots", .list [slot 10 0, slot 10 80]),
      (.text "pins", .list
        [.mapping [(.text "name", .text "tx"), (.text "mirror", .text "rx")],
          .mapping [(.text "name", .text "rx")]])]

/-- What is read from `facingSlots`. -/
def facingProblem : Problem where
  core := Core.outline { xmin := 0, ymin := 0, xmax := 70, ymax := 80 }
  board :=
    { boundary :=
        { slots := #[⟨⟨10, 0⟩, 0, .bottom, false, false⟩, ⟨⟨10, 80⟩, 0, .top, false, false⟩] }
      pins :=
        { pins := #[⟨"tx", none, false⟩, ⟨"rx", none, false⟩]
          mirrors := [("tx", "rx"), ("rx", "tx")] } }
  targets := {}

def facingDocument : Value :=
  .mapping
    [(.text "version", .int 1),
      (.text "pins", .mapping
        [(.text "tx", ResultFile.spotValue ⟨⟨10, 0⟩, 0⟩),
          (.text "rx", ResultFile.spotValue ⟨⟨10, 80⟩, 0⟩)]),
      (.text "total_cost", .int 0), (.text "unplaced", .list []), (.text "warnings", .list []),
      (.text "errors", .list [])]

def facingText : String :=
  "version: 1\npins:\n  tx:\n    x: 10\n    y: 0\n    layer: 0\n" ++
    "  rx:\n    x: 10\n    y: 80\n    layer: 0\n" ++
    "total_cost: 0\nunplaced: []\nwarnings: []\nerrors: []\n"

theorem tokens_facingText : Document.tokens facingText =
    [.blockMapping, .key, .scalar "version" true, .value, .scalar "1" true,
      .key, .scalar "pins" true, .value, .blockMapping,
      .key, .scalar "tx" true, .value, .blockMapping, .key, .scalar "x" true, .value,
      .scalar "10" true, .key, .scalar "y" true, .value, .scalar "0" true, .key,
      .scalar "layer" true, .value, .scalar "0" true, .blockEnd,
      .key, .scalar "rx" true, .value, .blockMapping, .key, .scalar "x" true, .value,
      .scalar "10" true, .key, .scalar "y" true, .value, .scalar "80" true, .key,
      .scalar "layer" true, .value, .scalar "0" true, .blockEnd, .blockEnd,
      .key, .scalar "total_cost" true, .value, .scalar "0" true,
      .key, .scalar "unplaced" true, .value, .flowSequence, .flowSequenceEnd,
      .key, .scalar "warnings" true, .value, .flowSequence, .flowSequenceEnd,
      .key, .scalar "errors" true, .value, .flowSequence, .flowSequenceEnd, .blockEnd] := by
  decide +kernel

theorem write_facingDocument : Document.yaml.write facingDocument = facingText := by
  decide +kernel

theorem inverts_facingDocument : Document.yaml.Inverts facingDocument where
  read_write := by
    rw [write_facingDocument]
    show Document.read facingText = .ok facingDocument
    rw [Document.read, tokens_facingText]
    rfl
  feeds_only := by
    rw [write_facingDocument]
    decide +kernel

theorem ofValue_facingSlots : Problem.ofValue facingSlots = .ok facingProblem := by with_unfolding_all rfl

theorem parts_ring : Path.parts "ring.yaml" = ["ring.yaml"] := by
  rw [Path.parts, String.splitOn, if_neg (by decide +kernel)]
  repeat rw [String.splitOnAux, if_neg (by decide +kernel), if_neg (by decide +kernel)]
  rw [String.splitOnAux, if_pos (by decide +kernel)]
  decide +kernel

theorem plain_ring : Path.plain "ring.yaml" = "ring.yaml" := by
  rw [Path.plain, parts_ring]
  decide +kernel

/-- The problem, and settings that leave no slot out of account. -/
def facingFiles (path : String) : FileContent :=
  if path = "ring.yaml" then .document facingSlots
  else if path = "share.yaml" then .document (.mapping [(.text "slots_usage_factor", .int 1)])
  else .missing

def facingArguments : PlaceArguments := { problem := "ring.yaml", config := some "share.yaml" }

theorem settings_facing :
    facingArguments.settings Document.yaml facingFiles = .ok { usageFactor := .int 1 } := by
  have hpath : Path.hasNull "share.yaml" = false := by decide +kernel
  have hread : FileContent.read Document.yaml "share.yaml" (facingFiles "share.yaml") =
      .ok (.mapping [(.text "slots_usage_factor", .int 1)]) := by
    unfold FileContent.read
    rw [hpath]
    rfl
  have hunknown : Settings.unknown [(.text "slots_usage_factor", .int 1)] = .ok [] := by with_unfolding_all rfl
  have hentries : Settings.ofEntries [(.text "slots_usage_factor", .int 1)] =
      .ok { usageFactor := .int 1 } := by
    rw [Settings.ofEntries, hunknown]
    rfl
  have hnamed : facingArguments.config.filter (!·.isEmpty) = some "share.yaml" := by decide +kernel
  rw [PlaceArguments.settings, hnamed]
  simp only [Settings.load, hread, hentries]
  rfl

theorem load_facing {files : String → FileContent} (h : files "ring.yaml" = .document facingSlots) :
    Problem.load Document.yaml "ring.yaml" (files (Path.plain "ring.yaml")) =
      .ok facingProblem := by
  have hpath : Path.hasNull "ring.yaml" = false := by decide +kernel
  rw [Problem.load, plain_ring, h]
  unfold FileContent.read
  rw [hpath]
  exact ofValue_facingSlots

def facingRun (config : Config) : Outcome (Board × List Section) Verdict :=
  run facingProblem.board facingProblem.model (some facingProblem.core.reflection) config

theorem run_facing :
    let ended := facingRun { usageFactor := { mantissa := 1, scale := 0 } }
    ∃ report, ended.answer = .ok (.placed report) ∧ report.success = true ∧
      ResultFile.toValue ended.state.1.pins report = facingDocument := by
  intro ended
  have hspots : ResultFile.spots ended.state.1.pins =
      [("tx", ⟨⟨10, 0⟩, 0⟩), ("rx", ⟨⟨10, 80⟩, 0⟩)] := by decide +kernel
  have hplaced : (ended.answer.toOption.bind (·.fault?)).isNone := by decide +kernel
  have hfigures : (ended.answer.toOption.map fun v => (v.report.success, v.report.totalCost,
      v.report.unplaced, v.report.warnings, v.report.errors)) = some (true, 0, [], [], []) := by
    decide +kernel
  cases hanswer : ended.answer with
  | error f => rw [hanswer] at hfigures; cases hfigures
  | ok verdict =>
    rw [hanswer] at hplaced hfigures
    cases verdict with
    | mirrorsFailed failures report => cases hplaced
    | placed report =>
      injection hfigures with hfigures
      simp only [Verdict.report, Prod.mk.injEq] at hfigures
      obtain ⟨hsuccess, hcost, hunplaced, hwarnings, herrors⟩ := hfigures
      refine ⟨report, rfl, hsuccess, ?_⟩
      rw [ResultFile.toValue, hspots, hcost, hunplaced, hwarnings, herrors]
      rfl

theorem place_facing : (place facingArguments Document.yaml facingFiles).ending =
    .save "ring.placed.yaml" (some facingText) "\nSaved result to: ring.placed.yaml\n" 0 := by
  obtain ⟨report, hreport, hsuccess, hdocument⟩ := run_facing
  have htext : ResultFile.text? Document.yaml
      (facingRun { usageFactor := { mantissa := 1, scale := 0 } }).state.1.pins report =
        some facingText := by
    rw [ResultFile.text?, hdocument, write_facingDocument]
    decide +kernel
  have hload : Problem.load Document.yaml facingArguments.problem
      (facingFiles (Path.plain facingArguments.problem)) = .ok facingProblem := load_facing rfl
  have hran : Settings.run { usageFactor := .int 1 } facingProblem.board facingProblem.model
      (some facingProblem.core.reflection) =
        .ok (facingRun { usageFactor := { mantissa := 1, scale := 0 } }) := rfl
  have hreview : review (facingRun { usageFactor := { mantissa := 1, scale := 0 } }).state.1
      (some facingProblem.core.reflection) (blockedSlots facingProblem) = .ok [] := by
    decide +kernel
  have hpath : facingArguments.outputPath = "ring.placed.yaml" := by
    have hnone : facingArguments.output.filter (!·.isEmpty) = none := rfl
    rw [PlaceArguments.outputPath, hnone]
    simp only [facingArguments, Path.withEnding, parts_ring]
    decide +kernel
  have hsave : facingArguments.dryRun = false := rfl
  unfold CommandLine.place
  simp only [settings_facing, hload, hran, hreport, concludePlace, hreview, hpath, htext, hsuccess,
    hsave, Execution.after]
  rfl

theorem result_replays_facingSlots :
    let ended := facingRun { usageFactor := { mantissa := 1, scale := 0 } }
    let later : String → FileContent := fun path =>
      if path = "ring.placed.yaml" then .text facingText else facingFiles path
    (∃ report spots replayed,
      ResultFile.load Document.yaml "ring.placed.yaml"
        (.text (Document.yaml.write (ResultFile.toValue ended.state.1.pins report))) = .ok spots ∧
      ResultFile.apply facingProblem.board spots = (replayed, .ok ()) ∧
      replayed.pins = ended.state.1.pins) ∧
    (place facingArguments Document.yaml facingFiles).ending =
      .save "ring.placed.yaml" (some facingText) "\nSaved result to: ring.placed.yaml\n" 0 ∧
    (check { problem := "ring.yaml", result := some "ring.placed.yaml" } Document.yaml
      later).ending = .exit 0 := by
  intro ended later
  obtain ⟨report, hreport, -, hdocument⟩ := run_facing
  have hpath : Path.hasNull "ring.placed.yaml" = false := by decide +kernel
  have hinverts : Document.yaml.Inverts (ResultFile.toValue ended.state.1.pins report) :=
    hdocument ▸ inverts_facingDocument
  have hmade : ∀ made : Placing facingArguments Document.yaml facingFiles,
      Document.yaml.Inverts made.document := by
    rintro ⟨problem, settings, made, found, hconfigured, hloaded, hran, hfound⟩
    obtain rfl := Except.ok.inj (settings_facing.symm.trans hconfigured)
    obtain rfl := Except.ok.inj ((load_facing rfl).symm.trans hloaded)
    obtain rfl := Except.ok.inj hran
    obtain rfl := Verdict.placed.inj (Except.ok.inj (hreport.symm.trans hfound))
    exact hinverts
  obtain ⟨spots, replayed, hspots, happly, hpins, -⟩ := (result_replays Document.yaml).1
    facingSlots facingProblem facingProblem.board facingProblem.model
    (some facingProblem.core.reflection) { usageFactor := { mantissa := 1, scale := 0 } } report
    "ring.placed.yaml" ofValue_facingSlots (Frame.refl _) hinverts hpath
  have hproblem : later (Path.plain "ring.yaml") = facingFiles (Path.plain "ring.yaml") := by
    rw [plain_ring]
    rfl
  exact ⟨⟨report, spots, replayed, hspots, happly, hpins⟩, place_facing,
    (result_replays Document.yaml).2 facingArguments facingFiles later false _ facingText _
      "ring.placed.yaml" place_facing hproblem rfl hpath hmade⟩

end PinRing
