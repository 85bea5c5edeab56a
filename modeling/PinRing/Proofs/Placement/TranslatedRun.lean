import Mathlib.Tactic.Common
import PinRing.File.Problem
import PinRing.Proofs.Placement.Session
import PinRing.Proofs.Placement.Stages
import PinRing.Proofs.Placement.TranslatedPins
import PinRing.Proofs.Settings

/-! Runs on a problem that has been moved.  Moving the core, all slots, targets and regions by one
vector moves the placement along and changes nothing else.  The exceptions are numbers that are too
long to be written: the reason for which a mirror pair fails names a position, and so does the fault
of a point off the boundary. -/

namespace PinRing

open Board Outcome

/-- The report without the wording of its errors. -/
def Report.bare (r : Report) : Report := { r with errors := r.errors.map (·.bare) }

/-- The verdict without the reasons of its failures. -/
def Verdict.bare : Verdict → Verdict
  | placed r => placed r.bare
  | mirrorsFailed failures r => mirrorsFailed (failures.map (·.bare)) r.bare

/-- The second problem is the first with the core, all slots, targets and regions moved by `d`. -/
structure Problem.MovesTo (p q : Problem) (d : Point) : Prop where
  core : p.core.MovesTo q.core d
  board : q.board = p.board.translate d
  targets : q.targets = p.targets.translate d

theorem Diagnostic.severity_bare (d : Diagnostic) : d.bare.severity = d.severity := by
  obtain ⟨severity, message, subject⟩ := d
  cases severity <;> rfl

theorem Diagnostic.bare_of_warning {d : Diagnostic} (h : d.severity = .warning) : d.bare = d := by
  rw [bare, h]

theorem Diagnostic.filter_bare (severity : Severity) (ds : List Diagnostic) :
    (ds.map bare).filter (·.severity = severity) =
      (ds.filter (·.severity = severity)).map bare := by
  have hseverity : (fun d : Diagnostic => decide (d.severity = severity)) ∘ bare =
      fun d => decide (d.severity = severity) := funext fun d => by
    rw [Function.comp_apply, d.severity_bare]
  rw [List.filter_map, hseverity]

theorem PassResult.errors_bare (r : PassResult) : r.bare.errors = r.errors.map (·.bare) :=
  Diagnostic.filter_bare .error r.diagnostics

theorem PassResult.warnings_bare (r : PassResult) : r.bare.warnings = r.warnings := by
  refine (Diagnostic.filter_bare .warning r.diagnostics).trans ?_
  refine (List.map_congr_left fun d hd => ?_).trans (List.map_id _)
  exact Diagnostic.bare_of_warning (by simpa using (List.mem_filter.mp hd).2)

theorem Report.bare_absorb (r : Report) (pass : PassResult) :
    (r.absorb pass).bare = r.bare.absorb pass.bare := by
  rw [bare, absorb, absorb, pass.warnings_bare, pass.errors_bare, List.map_append]
  rfl

namespace Run

variable {v : Shift} {d : Point} {start : Board} {w w' : Work}

/-- The work without the reasons of its failures. -/
def Work.bare (w : Work) : Work :=
  { w with report := w.report.bare, failures := w.failures.map (·.bare) }

theorem Work.bare_absorb (w : Work) (result : PassResult) :
    (w.absorb result).bare = w.bare.absorb result.bare := by
  rw [bare, absorb, absorb, Report.bare_absorb, List.map_append]
  rfl

/-- The second work is the first moved by `d`, up to the reasons of failures. -/
def Work.Moved (d : Point) (w w' : Work) : Prop :=
  w'.bare = { w.bare with board := w.board.translate d }

theorem Work.Moved.absorb (h : w.Moved d w') {result result' : PassResult}
    (hresult : result'.bare = result.bare) :
    (w.absorb result).Moved d (w'.absorb result') := by
  rw [Moved, bare_absorb, bare_absorb, h, hresult]
  rfl

theorem Work.Moved.board_eq (h : w.Moved d w') : w'.board = w.board.translate d :=
  congrArg Work.board h

theorem Work.Moved.with_board (h : w.Moved d w') (board : Board) :
    Work.Moved d { w with board } { w' with board := board.translate d } := by
  have hbare : w'.bare = _ := h
  exact congrArg (fun v : Work => { v with board := board.translate d }) hbare

/-! ### The journal grows -/

/-- The second work comes from the first by commits, which its journal records. -/
def Extends (w w' : Work) : Prop :=
  ∃ cs, w'.board = w.board.takeAll cs ∧ w'.board.journal = w.board.journal ++ cs

theorem Extends.refl (w : Work) : Extends w w :=
  ⟨[], rfl, (List.append_nil _).symm⟩

theorem Extends.trans {w'' : Work} (h : Extends w w') (h' : Extends w' w'') : Extends w w'' := by
  obtain ⟨cs, hboard, hjournal⟩ := h
  obtain ⟨ds, hboard', hjournal'⟩ := h'
  refine ⟨cs ++ ds, ?_, ?_⟩
  · rw [hboard', hboard, takeAll_append]
  · rw [hjournal', hjournal, List.append_assoc]

theorem Extends.frame (h : Extends w w') (hframe : Frame start w.board) : Frame start w'.board := by
  obtain ⟨cs, hboard, -⟩ := h
  rw [hboard]
  exact hframe.trans (w.board.frame_takeAll cs)

theorem Extends.journal (h : Extends w w') : w.board.journal <+: w'.board.journal := by
  obtain ⟨cs, -, hjournal⟩ := h
  exact ⟨cs, hjournal.symm⟩

/-- A pass over one section, whose result is taken in. -/
def absorbed (w : Work) (o : Outcome (Matching × Board) PassResult) :
    Outcome (Matching × Work) Unit :=
  (o.mapState fun (m, board) => (m, { w with board })).andThen
    fun (m, w) result => .done (m, w.absorb result) ()

theorem Extends.absorbed {o : Outcome (Matching × Board) PassResult}
    (h : Extends w { w with board := o.state.2 }) : Extends w (absorbed w o).state.2 :=
  andThen_state (P := fun s : Matching × Work => Extends w s.2) h fun _ => h

theorem extends_perform (m : Matching) (w : Work) (request : Request) :
    Extends w { w with board := (m.perform w.board request).state.2 } := by
  obtain ⟨cs, hboard, hjournal, -⟩ := m.perform_commits w.board request
  exact ⟨cs, hboard, by rw [← hjournal, ← hboard]⟩

theorem commitPins_extends (mirrored : Bool) (m : Matching) (w : Work) :
    Extends w (absorbed w ((m.commitPins w.board mirrored).mapState (m, ·))).state.2 :=
  (extends_perform m w (.commitPins mirrored)).absorbed

theorem commitGroups_extends (m : Matching) (w : Work) :
    Extends w (absorbed w (m.commitGroups w.board)).state.2 :=
  (extends_perform m w .commitGroups).absorbed

theorem pinStep_extends (mirrored : Bool) (m : Matching) (w : Work) :
    Extends w (pinStep mirrored m w).state.2 :=
  andThen_state (P := fun s : Matching × Work => Extends w s.2) (.refl w) fun _ =>
    commitPins_extends mirrored _ w

theorem reserveStep_extends (m : Matching) (w : Work) : Extends w (reserveStep m w).state.2 := by
  rw [reserveStep]
  split
  · exact .refl w
  · exact .refl w

theorem groupStep_extends (m : Matching) (w : Work) : Extends w (groupStep m w).state.2 := by
  rw [groupStep]
  split
  · exact .refl w
  · exact andThen_state (P := fun s : Matching × Work => Extends w s.2) (.refl w) fun _ =>
      commitGroups_extends _ w

/-! ### Steps -/

/-- Two sections at work, the second moved by `d`.  The boards come from `start` and from `start`
moved. -/
structure Beside (v : Shift) (start : Board)
    (s s' : Matching × Work) : Prop where
  matching : s.1.Moved v s'.1
  work : s.2.Moved v.d s'.2
  frame : Frame start s.2.board

/-- The step goes abreast with itself on everything moved. -/
def Shifts (v : Shift) (start : Board) (step : SectionStep) :
    Prop :=
  (∀ m w, Extends w (step m w).state.2) ∧ ∀ s s', Beside v start s s' →
    Abreast v.d (v.Crosses start) (·.2.board.journal) (Beside v start) (· = ·)
      (step s.1 s.2) (step s'.1 s'.2)

theorem Beside.absorbed {s s' : Matching × Work} (h : Beside v start s s')
    {o o' : Outcome (Matching × Board) PassResult}
    (hpass : Abreast v.d (v.Crosses s.2.board) (·.2.journal)
      (fun t t' => t.1.Moved v t'.1 ∧ t'.2 = t.2.translate v.d)
      (fun r r' => r'.bare = r.bare) o o')
    (hextends : Extends s.2 { s.2 with board := o.state.2 }) :
    Abreast v.d (v.Crosses start) (·.2.board.journal) (Beside v start) (· = ·)
      (Run.absorbed s.2 o) (Run.absorbed s'.2 o') := by
  have hpass := (hpass.mono h.frame.crosses).and (P := fun t => Frame start t.2)
    (hextends.frame h.frame)
  refine .andThen
    (hpass.mapState (K := fun t : Matching × Work => t.2.board.journal) ?_ (fun _ => rfl)
      fun _ => rfl)
    ?_ (fun _ _ => List.prefix_rfl) fun _ _ => List.prefix_rfl
  · rintro ⟨m, b⟩ ⟨m', _⟩ ⟨⟨hm, rfl⟩, hframe⟩
    exact ⟨hm, h.work.with_board b, hframe⟩
  · rintro ⟨m, w⟩ ⟨m', w'⟩ result result' ⟨hm, hw, hframe⟩ hresult
    exact .alike (.done ⟨hm, hw.absorb hresult, hframe⟩ rfl)

theorem commitPins_abreast {m m' : Matching} (h : m.Moved v m') (board : Board)
    (mirrored : Bool) :
    Abreast v.d (v.Crosses board) (·.journal) (fun b b' => b' = b.translate v.d)
      (fun r r' => r'.bare = r.bare) (m.commitPins board mirrored)
      (m'.commitPins (board.translate v.d) mirrored) := by
  have hrun := PinPass.run_abreast board m.matrix m.assignment v mirrored
  obtain ⟨rfl, -, hreflection, hstrict⟩ := h
  rw [Matching.commitPins, Matching.commitPins, hreflection, hstrict]
  refine hrun.andThen ?_ (fun _ _ => List.prefix_rfl) fun _ _ => List.prefix_rfl
  exact fun _ _ _ _ hboard hresult => .alike ⟨hboard, .ok hresult⟩

theorem pinStep_shifts (mirrored : Bool) :
    Shifts v start (pinStep mirrored) := by
  refine ⟨pinStep_extends mirrored, fun s s' h => ?_⟩
  have hfind := Matching.findPins_lockstep s.2.board h.matching mirrored
  rw [← h.work.board_eq] at hfind
  refine .andThen (R := Beside v start)
    (.alike (hfind.mapState fun n n' hn => ⟨hn, h.work, h.frame⟩)) ?_
    (fun t _ => (commitPins_extends mirrored t.1 t.2).journal)
    fun t _ => (commitPins_extends mirrored t.1 t.2).journal
  rintro ⟨m, w⟩ ⟨m', w'⟩ _ _ ht -
  have hcommit := commitPins_abreast ht.matching w.board mirrored
  rw [← ht.work.board_eq] at hcommit
  have hpass : Abreast v.d (v.Crosses w.board) (·.2.journal)
      (fun t t' => t.1.Moved v t'.1 ∧ t'.2 = t.2.translate v.d)
      (fun r r' => r'.bare = r.bare) ((m.commitPins w.board mirrored).mapState (m, ·))
      ((m'.commitPins w'.board mirrored).mapState (m', ·)) :=
    hcommit.mapState (fun b b' hb => ⟨ht.matching, hb⟩) (fun _ => rfl) fun _ => rfl
  exact ht.absorbed hpass (extends_perform m w (.commitPins mirrored))

theorem reserveStep_shifts :
    Shifts v start reserveStep := by
  refine ⟨reserveStep_extends, fun s s' h => ?_⟩
  have hreserve := Matching.reserveBlocks_lockstep s.2.board h.matching
  rw [← h.work.board_eq] at hreserve
  have hgroups : s'.1.sec.groups = s.1.sec.groups := by rw [h.matching.eq]
  rw [reserveStep, reserveStep, hgroups]
  split
  · exact .alike (.done h rfl)
  · exact .alike (hreserve.mapState fun n n' hn => ⟨hn, h.work, h.frame⟩)

theorem groupStep_shifts :
    Shifts v start groupStep := by
  refine ⟨groupStep_extends, fun s s' h => ?_⟩
  have hfind := Matching.findGroups_lockstep s.2.board h.matching
  rw [← h.work.board_eq] at hfind
  have hgroups : s'.1.sec.groups = s.1.sec.groups := by rw [h.matching.eq]
  rw [groupStep, groupStep, hgroups]
  split
  · exact .alike (.done h rfl)
  refine .andThen (R := Beside v start)
    (.alike (hfind.mapState fun n n' hn => ⟨hn, h.work, h.frame⟩)) ?_
    (fun t _ => (commitGroups_extends t.1 t.2).journal)
    fun t _ => (commitGroups_extends t.1 t.2).journal
  intro t t' _ _ ht _
  have hcommit := Matching.commitGroups_lockstep t.2.board ht.matching
  rw [← ht.work.board_eq] at hcommit
  refine ht.absorbed (.alike ⟨hcommit.state, hcommit.answer.mono ?_⟩)
    (extends_perform t.1 t.2 .commitGroups)
  exact fun _ _ hresult => congrArg _ hresult.symm

/-! ### Sweeps -/

/-- All sections at work, the second ones moved by `d`. -/
structure AllBeside (v : Shift) (start : Board)
    (s s' : List Matching × Work) : Prop where
  matchings : List.Forall₂ (Matching.Moved v) s.1 s'.1
  work : s.2.Moved v.d s'.2
  frame : Frame start s.2.board

/-- A sweep is a step in the first section, then a sweep over the others. -/
theorem sweep_cons (step : SectionStep) (m : Matching) (rest : List Matching) (w : Work) :
    sweep step (m :: rest) w =
      ((step m w).mapState fun s => (s.1 :: rest, s.2)).andThen fun s _ =>
        (sweep step rest s.2).mapState fun t => (s.1.take 1 ++ t.1, t.2) := by
  rw [sweep]
  cases ha : (step m w).answer with
  | error f => simp only [Outcome.mapState, Outcome.andThen, ha]
  | ok _ => simp only [Outcome.mapState, Outcome.andThen, ha, List.take_succ_cons, List.take_zero,
      List.singleton_append]

namespace Shifts

variable {step : SectionStep}

theorem sweep_extends (h : Shifts v start step) (ms : List Matching) (w : Work) :
    Extends w (sweep step ms w).state.2 :=
  sweep_keeps (P := Extends w) (fun m v hv => hv.trans (h.1 m v)) (.refl w)

theorem sweep (h : Shifts v start step) {s s' : List Matching × Work}
    (hs : AllBeside v start s s') :
    Abreast v.d (v.Crosses start) (·.2.board.journal) (AllBeside v start) (· = ·)
      (Run.sweep step s.1 s.2) (Run.sweep step s'.1 s'.2) := by
  obtain ⟨ms, w⟩ := s
  obtain ⟨ms', w'⟩ := s'
  obtain ⟨hms, hw, hframe⟩ := hs
  dsimp only at hms hw hframe ⊢
  induction hms generalizing w w' with
  | nil => exact .alike (.done ⟨.nil, hw, hframe⟩ rfl)
  | @cons m m' rest rest' hm hrest ih =>
    rw [sweep_cons, sweep_cons]
    -- The other sections only add commits, so a run that stops in the first one stays behind.
    have hfirst := h.2 (m, w) (m', w') ⟨hm, hw, hframe⟩
    refine .andThen (R := AllBeside v start)
      (hfirst.mapState (K := fun t : List Matching × Work => t.2.board.journal) ?_ (fun _ => rfl)
        fun _ => rfl) ?_ ?_ ?_
    · rintro ⟨n, v⟩ ⟨n', v'⟩ ⟨hn, hv, hframe⟩
      exact ⟨.cons hn hrest, hv, hframe⟩
    · rintro ⟨done, v⟩ ⟨done', v'⟩ - - ⟨hdone, hv, hframe⟩ -
      refine (ih v v' hv hframe).mapState ?_ (fun _ => rfl) fun _ => rfl
      rintro t t' ⟨hothers, hw, hframe⟩
      exact ⟨List.rel_append (List.forall₂_take 1 hdone) hothers, hw, hframe⟩
    · exact fun t _ => (h.sweep_extends rest t.2).journal
    · exact fun t _ => (h.sweep_extends rest' t.2).journal

end Shifts

theorem passes_shift (board : Board) (config : Config) :
    ∀ step ∈ passes board config, Shifts v start step := by
  intro step hstep
  simp only [passes, List.mem_append] at hstep
  rcases hstep with ((hstep | hstep) | hstep) | hstep
  · split at hstep
    · cases hstep
    · exact List.mem_singleton.mp hstep ▸ pinStep_shifts true
  · split at hstep
    · exact List.mem_singleton.mp hstep ▸ reserveStep_shifts
    · cases hstep
  · exact List.mem_singleton.mp hstep ▸ pinStep_shifts false
  · split at hstep
    · exact List.mem_singleton.mp hstep ▸ groupStep_shifts
    · cases hstep

theorem sweeps_abreast {steps : List SectionStep}
    (hsteps : ∀ step ∈ steps, Shifts v start step) {s s' : List Matching × Work}
    (hs : AllBeside v start s s') :
    Abreast v.d (v.Crosses start) (·.2.board.journal) (AllBeside v start) (· = ·)
      (sweeps steps s) (sweeps steps s') := by
  refine .forEach ?_ ?_ ?_ hs
  · exact fun t t' step hstep ht => (hsteps step hstep).sweep ht
  · exact fun t step hstep => ((hsteps step hstep).sweep_extends t.1 t.2).journal
  · exact fun t step hstep => ((hsteps step hstep).sweep_extends t.1 t.2).journal

/-! ### The whole run -/

theorem finish_moved (h : w.Moved v.d w') : (finish w').bare = (finish w).bare := by
  have hbare : ∀ w : Work, (finish w).bare = finish w.bare := fun w => by
    rw [finish, finish, Report.bare]
    simp only [Work.bare, Report.bare, List.isEmpty_map]
  rw [hbare, hbare, h, finish, finish]
  simp only [Board.translate, PinTable.unplaced_translate]
  rfl

theorem bare_judge (config : Config) (failures : List MirrorFailure) (r : Report) :
    (judge config failures r).bare = judge config (failures.map (·.bare)) r.bare := by
  rw [judge, judge, List.isEmpty_map]
  split <;> rfl

theorem conclude_alike (config : Config) {failures failures' : List MirrorFailure}
    {r r' : Report} (hfailures : failures'.map (·.bare) = failures.map (·.bare))
    (hr : r'.bare = r.bare) :
    Alike v.d (fun v v' => v'.bare = v.bare) (conclude config failures r).answer
      (conclude config failures' r').answer := by
  have hcost : r'.totalCost = r.totalCost := by
    have hbare := congrArg Report.totalCost hr
    exact hbare
  rw [conclude_answer, conclude_answer, hcost]
  cases Text.decimal? r.totalCost with
  | none => exact .same rfl
  | some cost =>
    refine .ok ?_
    rw [bare_judge, bare_judge, hfailures, hr]

theorem opening_allBeside (v : Shift) (board : Board) (secs : List Section) :
    AllBeside v board (opening board v.model (some v.reflect) secs)
      (opening (board.translate v.d) v.model' (some v.reflect') secs) := by
  refine ⟨?_, rfl, .refl board⟩
  rw [opening, opening, List.forall₂_map_left_iff, List.forall₂_map_right_iff, List.forall₂_same]
  exact fun s _ => ⟨rfl, rfl, rfl, rfl⟩

theorem map_sec_of_moved {ms ms' : List Matching} (h : List.Forall₂ (Matching.Moved v) ms ms') :
    ms'.map (·.sec) = ms.map (·.sec) := by
  induction h with
  | nil => rfl
  | cons h _ ih => rw [List.map_cons, List.map_cons, ih, h.eq]

theorem place_abreast (v : Shift) (board : Board) (config : Config) (secs : List Section) :
    Abreast v.d (v.Crosses board) (·.1.journal) (fun s s' => s' = (s.1.translate v.d, s.2))
      (fun v v' => v'.bare = v.bare) (place board v.model (some v.reflect) config secs)
      (place (board.translate v.d) v.model' (some v.reflect') config secs) := by
  have hswept := sweeps_abreast (passes_shift board config) (opening_allBeside v board secs)
  have hstate := place_state board v.model (some v.reflect) config secs
  have hanswer := place_answer board v.model (some v.reflect) config secs
  have hstate' := place_state (board.translate v.d) v.model' (some v.reflect') config secs
  have hanswer' := place_answer (board.translate v.d) v.model' (some v.reflect') config secs
  have hpasses : passes (board.translate v.d) config = passes board config := rfl
  simp only [hpasses] at hstate hanswer hstate' hanswer'
  cases hswept with
  | alike h =>
    obtain ⟨⟨hms, hw, -⟩, hends⟩ := h
    refine .alike ⟨?_, ?_⟩
    · rw [hstate, hstate', map_sec_of_moved hms, hw.board_eq]
    · rw [hanswer, hanswer']
      exact hends.bind fun _ _ _ =>
        conclude_alike config (congrArg Work.failures hw) (finish_moved hw)
  | first hcrosses hstop hbegins =>
    refine .first hcrosses ?_ ?_
    · rw [hanswer, hstop]
      rfl
    · rw [hstate, hstate']
      exact hbegins
  | second hcrosses hstop hbegins =>
    refine .second hcrosses ?_ ?_
    · rw [hanswer', hstop]
      rfl
    · rw [hstate, hstate']
      exact hbegins

theorem run_abreast (v : Shift) (board : Board) (config : Config) :
    Abreast v.d (v.Crosses board) (·.1.journal) (fun s s' => s' = (s.1.translate v.d, s.2))
      (fun v v' => v'.bare = v.bare) (run board v.model (some v.reflect) config)
      (run (board.translate v.d) v.model' (some v.reflect') config) := by
  have hsecs : (board.translate v.d).boundary.sections config.sectionSize =
      board.boundary.sections config.sectionSize := board.boundary.sections_translate v.d _
  have hunplaced : (board.translate v.d).pins.unplaced = board.pins.unplaced :=
    board.pins.unplaced_translate v.d
  rw [run, run, hsecs]
  dsimp only
  split
  · rw [withoutSections, withoutSections, hunplaced]
    exact .alike ⟨rfl, .ok rfl⟩
  have hshared := distribute_lockstep board v.models config
    (board.boundary.sections config.sectionSize)
  generalize distribute board v.model config (board.boundary.sections config.sectionSize) = o
    at hshared ⊢
  generalize distribute (board.translate v.d) v.model' config
    (board.boundary.sections config.sectionSize) = o' at hshared ⊢
  obtain ⟨secs, log, answer⟩ := o
  obtain ⟨secs', log', answer'⟩ := o'
  obtain ⟨rfl, hanswer⟩ := hshared
  cases hanswer with
  | error f => exact .alike ⟨rfl, .error f⟩
  | ok _ =>
    cases place_abreast v board config secs with
    | alike h => exact .alike ⟨h.state, h.answer⟩
    | first hcrosses hstop hbegins => exact .first hcrosses hstop hbegins
    | second hcrosses hstop hbegins => exact .second hcrosses hstop hbegins

end Run

/-- The wording of a fault after everything has been moved: only a point off the boundary is named,
where it lies then, and it may be too long to be written there. -/
theorem Fault.message?_translate (f : Fault) (d : Point) :
    (f.translate d).message? = f.message? ∨ ∃ p, f = .offBoundary p ∧ (f.translate d).message? =
      some (((p.translate d).text?.map fun point =>
        s!"Point {point} is not on the core boundary").getD Text.unwritableReport) := by
  cases f with
  | offBoundary p =>
    refine .inr ⟨p, rfl, ?_⟩
    rw [translate, message?]
    cases (p.translate d).text? <;> rfl
  | _ => exact .inl rfl

theorem Outline.MovesTo.reflection {c c' : Outline} {d : Point} (h : c.MovesTo c' d) :
    c.reflection.MovesTo c'.reflection d := by
  intro p
  have hx := Value.movesTo_int p.x d.x
  have hy := Value.movesTo_int p.y d.y
  rw [Outline.reflection, Outline.reflection, h.edgeOf? p]
  cases c.edgeOf? p with
  | none => exact .same rfl
  | some e =>
    cases e with
    | bottom => exact .ok (Image.movesTo_of_values hx h.ymax)
    | top => exact .ok (Image.movesTo_of_values hx h.ymin)
    | left => exact .ok (Image.movesTo_of_values h.xmax hy)
    | right => exact .ok (Image.movesTo_of_values h.xmin hy)
    | invalid => exact .error (.offBoundary p)

/-- A run over a problem that has been moved makes the same commits in the same order.  Every pin
that it places ends up where the run over the problem puts it, moved along; the flags of the slots,
the sections, and the verdict up to the wording of its failures are the same, and so is the fault if
there is none, a point that it names moved along.  Otherwise pins are mirrored, and the image of
some slot, which is on no slot, can be written in one of the two places only; then one of the runs
may have to write it and ends there, having made the first commits of the other.  And settings that
are accepted lead to such runs in both places, or to none. -/
theorem Problem.run_translate {p q : Problem} {d : Point} (h : p.MovesTo q d) :
    (∀ config : Config,
      let ran := run p.board p.model (some p.core.reflection) config
      let moved := run q.board q.model (some q.core.reflection) config
      (moved.state = (ran.state.1.translate d, ran.state.2) ∧
        moved.answer.map Verdict.bare = (ran.answer.map Verdict.bare).mapError (·.translate d)) ∨
      p.board.Crosses p.core.reflection q.core.reflection d ∧
        (ran.answer = .error .unwritable ∧ ran.state.1.journal <+: moved.state.1.journal ∨
          moved.answer = .error .unwritable ∧ moved.state.1.journal <+: ran.state.1.journal)) ∧
    (∀ f : Fault, (f.translate d).message? = f.message? ∨
      ∃ s, f = .offBoundary s ∧ (f.translate d).message? =
        some (((s.translate d).text?.map fun point =>
          s!"Point {point} is not on the core boundary").getD Text.unwritableReport)) ∧
    ∀ s : Settings, s.validate = .ok s →
      let ended := s.run p.board p.model (some p.core.reflection)
      let ended' := s.run q.board q.model (some q.core.reflection)
      (∃ config, ended = .ok (run p.board p.model (some p.core.reflection) config) ∧
        ended' = .ok (run q.board q.model (some q.core.reflection) config)) ∨
      ended = .error .wrongType ∧ ended' = .error .wrongType := by
  refine ⟨fun config => ?_, fun f => f.message?_translate d, fun s hvalid => ?_⟩
  · obtain ⟨hcore, hboard, htargets⟩ := h
    have hmodels : p.model.MovesTo q.model d := by
      rw [model, model, htargets]
      exact p.targets.movesTo_translate d
    let v : Shift := ⟨d, p.model, q.model, p.core.reflection, q.core.reflection, hmodels,
      hcore.reflection⟩
    rw [hboard]
    cases Run.run_abreast v p.board config with
    | alike h => exact .inl ⟨h.state, h.answer.map_eq⟩
    | first hcrosses hstop hbegins => exact .inr ⟨hcrosses, .inl ⟨hstop, hbegins⟩⟩
    | second hcrosses hstop hbegins => exact .inr ⟨hcrosses, .inr ⟨hstop, hbegins⟩⟩
  · have hsize : q.board.boundary.size = p.board.boundary.size := by
      rw [h.board]
      exact Array.size_map
    rcases Settings.run_of_validate hvalid with ⟨config, hrun⟩ | ⟨x, -, hrun⟩
    · exact .inl ⟨config, hrun _ _ _, hrun _ _ _⟩
    · by_cases hnil : p.board.boundary.size = 0
      · let config : Config := { usageFactor := ⟨1, 0, by decide, by decide⟩ }
        exact .inl ⟨config, (hrun _ _ _).2 hnil config, (hrun _ _ _).2 (hsize.trans hnil) config⟩
      · exact .inr ⟨(hrun _ _ _).1 hnil, (hrun _ _ _).1 (hsize ▸ hnil)⟩

/-- One slot, and a mirror pair that needs two. -/
def loneSlot : Value :=
  .mapping
    [(.text "core", .mapping
        [(.text "xmin", .int 0), (.text "ymin", .int 0), (.text "xmax", .int 65),
          (.text "ymax", .int 35)]),
      (.text "slots", .list [.mapping [(.text "x", .int 10), (.text "y", .int 0)]]),
      (.text "pins", .list
        [.mapping [(.text "name", .text "a"), (.text "mirror", .text "b")],
          .mapping [(.text "name", .text "b")]])]

def loneSlotCore : Core := { xmin := 0, ymin := 0, xmax := 65, ymax := 35 }

/-- What is read from `loneSlot`. -/
def loneSlotProblem : Problem where
  core := loneSlotCore.outline
  board :=
    { boundary := { slots := #[⟨⟨10, 0⟩, 0, .bottom, false, false⟩] }
      pins :=
        { pins := #[⟨"a", none, false⟩, ⟨"b", none, false⟩]
          mirrors := [("a", "b"), ("b", "a")] } }
  targets := {}

def loneSlotMoved (d : Point) : Problem where
  core := (loneSlotCore.translate d).outline
  board := loneSlotProblem.board.translate d
  targets := {}

theorem ofValue_loneSlot : Problem.ofValue loneSlot = .ok loneSlotProblem := by with_unfolding_all rfl

theorem movesTo_loneSlotMoved (d : Point) : loneSlotProblem.MovesTo (loneSlotMoved d) d :=
  ⟨loneSlotCore.movesTo_translate d, rfl, rfl⟩

/-- Not far away the pair is reported as it is here. -/
theorem Problem.run_translate_loneSlot :
    let d : Point := ⟨-7, 12⟩
    let p := loneSlotProblem
    let q := loneSlotMoved d
    let config : Config := { usageFactor := { mantissa := 1, scale := 0 } }
    let ran := run p.board p.model (some p.core.reflection) config
    let moved := run q.board q.model (some q.core.reflection) config
    p.MovesTo q d ∧ moved.state = (ran.state.1.translate d, ran.state.2) ∧
      moved.answer.map Verdict.bare = (ran.answer.map Verdict.bare).mapError (·.translate d) := by
  intro d p q config ran moved
  have hran : (ran.answer.map fun _ => ()) = .ok () := by decide +kernel
  have hmoved : (moved.answer.map fun _ => ()) = .ok () := by decide +kernel
  refine ⟨movesTo_loneSlotMoved d, ?_⟩
  rcases (Problem.run_translate (movesTo_loneSlotMoved d)).1 config with
    halike | ⟨-, ⟨hstop, -⟩ | ⟨hstop, -⟩⟩
  · exact halike
  · rw [show ran.answer = _ from hstop] at hran
    cases hran
  · rw [show moved.answer = _ from hstop] at hmoved
    cases hmoved

/-- The pair is reported where it is.  Moved by a number of 4301 digits, it is not: the position
that is no slot cannot be written. -/
theorem Problem.run_loneSlotMoved_unwritable :
    let config : Config := { usageFactor := { mantissa := 1, scale := 0 } }
    let p := loneSlotProblem
    let q := loneSlotMoved ⟨10 ^ 4300, 0⟩
    let ran := run p.board p.model (some p.core.reflection) config
    let moved := run q.board q.model (some q.core.reflection) config
    Problem.ofValue loneSlot = .ok p ∧ p.MovesTo q ⟨10 ^ 4300, 0⟩ ∧
      (∃ report, report.unplaced = ["a", "b"] ∧ ran.answer = .ok (.mirrorsFailed
        [⟨"a", "b",
          "mirrored position (10, 35) at layer 0 is not a valid position for pin placement"⟩]
        report)) ∧
      (∀ verdict, moved.answer ≠ .ok verdict) ∧ moved.answer = .error .unwritable := by
  intro config p q ran moved
  have hran : (ran.answer.map fun v => (v.fault?, v.report.unplaced)) =
      .ok (some (.unplacedMirrors [⟨"a", "b",
        "mirrored position (10, 35) at layer 0 is not a valid position for pin placement"⟩]),
        ["a", "b"]) := by decide +kernel
  have hmoved : (moved.answer.map fun _ => ()) = .error .unwritable := by decide +kernel
  refine ⟨ofValue_loneSlot, movesTo_loneSlotMoved _, ?_, ?_⟩
  · cases hanswer : ran.answer with
    | error f =>
      rw [hanswer] at hran
      cases hran
    | ok verdict =>
      rw [hanswer] at hran
      cases verdict with
      | placed report => cases hran
      | mirrorsFailed failures report =>
        obtain ⟨hfault, hunplaced⟩ := Prod.mk.inj (Except.ok.inj hran)
        cases hfault
        exact ⟨report, hunplaced, rfl⟩
  · cases hanswer : moved.answer with
    | error f =>
      rw [hanswer] at hmoved
      cases hmoved
      exact ⟨nofun, rfl⟩
    | ok verdict =>
      rw [hanswer] at hmoved
      cases hmoved

end PinRing
