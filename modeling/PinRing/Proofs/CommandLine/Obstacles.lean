import Mathlib.Tactic.Common
import PinRing.Proofs.CommandLine.Check
import PinRing.Proofs.Geometry.Core
import PinRing.Proofs.Placement.InOrder

/-! What keeps the review of a placement from being carried out.  A review needs the image of every
mirrored pin that is placed together with its partner, a first member of every group, and numbers
that can be written wherever a message names a place; where one of these is missing, a check of the
placement breaks off without a report. -/

namespace PinRing

namespace Board

/-- The pins of these two names are placed, at these spots. -/
def PairedAt (b : Board) (pair : String × String) (s t : Spot) : Prop :=
  ∃ i j, b.pins.indexOf? pair.1 = some i ∧ b.pins.indexOf? pair.2 = some j ∧
    b.spotOf i = some s ∧ b.spotOf j = some t

/-- What a review of the board stumbles over, with the fault in which it ends. -/
inductive Obstacle (b : Board) (core : Outline) : Fault → Prop where
  /-- A pin that is on no slot, where its place cannot be written. -/
  | offSlot {pin : Nat} {s : Spot} (placed : b.spotOf pin = some s)
      (off_slot : b.boundary.slotAt? s.pos s.layer = none)
      (long : (s.pos.isWritable && Text.isWritable s.layer) = false) : Obstacle b core .unwritable
  /-- A mirror pair whose first pin is off the boundary of the core. -/
  | offBoundary {pair : String × String} {s t : Spot} (met : FirstMet b.pins.mirrors pair)
      (placed : b.PairedAt pair s t) (off_boundary : core.edgeOf? s.pos = some .invalid) :
      Obstacle b core (.offBoundary s.pos)
  /-- A mirror pair whose first pin is in no order with the bounds of the core. -/
  | incomparable {pair : String × String} {s t : Spot} (met : FirstMet b.pins.mirrors pair)
      (placed : b.PairedAt pair s t) (unordered : core.edgeOf? s.pos = none) :
      Obstacle b core .incomparable
  /-- A mirror pair that does not face each other, where the places cannot be written. -/
  | astray {pair : String × String} {s t : Spot} {image : Image}
      (met : FirstMet b.pins.mirrors pair) (placed : b.PairedAt pair s t)
      (reflected : core.reflection s.pos = .ok image)
      (apart : image.point? ≠ some t.pos ∨ t.layer ≠ s.layer)
      (long : (t.pos.isWritable && s.pos.isWritable) = false) : Obstacle b core .unwritable
  /-- A group without members. -/
  | emptyGroup {g : PinGroup} (listed : g ∈ b.pins.groups) (empty : g.members = []) :
      Obstacle b core .outOfRange

theorem FirstMet.mem {entries : List (String × String)} {e : String × String}
    (h : FirstMet entries e) : e ∈ entries := by
  obtain ⟨before, after, rfl, -⟩ := h
  exact List.mem_append_right _ List.mem_cons_self

end Board

open Board

namespace Review

variable {b : Board} {core : Outline} {blocked : List Nat}

theorem checkSlots_stoppedBy (owners : List (Nat × String)) (ps : List Pin) :
    StoppedBy (checkSlots b blocked owners ps) fun f => ∃ p ∈ ps, ∃ s, p.spot = some s ∧
      b.boundary.slotAt? s.pos s.layer = none ∧
      (s.pos.isWritable && Text.isWritable s.layer) = false ∧ f = .unwritable := by
  induction ps generalizing owners with
  | nil => exact (StoppedBy.ok []).congr fun f => by simp
  | cons p ps ih =>
    rw [checkSlots]
    cases hspot : p.spot with
    | none => exact (ih owners).congr fun f => by simp [hspot]
    | some s =>
      cases hat : b.boundary.slotAt? s.pos s.layer with
      | none =>
        simp only [hat]
        refine ((stoppedBy_written (Point.isSome_text? _)).bind fun _ _ =>
          (stoppedBy_written (Text.isSome_decimal? _)).bind fun _ _ =>
            (ih owners).bind fun _ _ => .ok _).congr fun f => ?_
        simp only [List.exists_mem_cons_iff, hspot, Option.some.injEq, exists_eq_left', hat,
          true_and, or_false, Bool.and_eq_false_iff, or_and_right, or_assoc]
      | some slot =>
        simp only [hat]
        refine ((ih ((slot, p.name) :: owners)).bind fun _ _ => .ok _).congr fun f => ?_
        simp [hspot, hat]

theorem checkPair_stoppedBy {pair : String × String} (hfst : pair.1 ∈ b.pins.names)
    (hsnd : pair.2 ∈ b.pins.names) :
    StoppedBy (checkPair b core.reflection pair) fun f => ∃ s t, b.PairedAt pair s t ∧
      ((core.edgeOf? s.pos = some .invalid ∧ f = .offBoundary s.pos ∨
        core.edgeOf? s.pos = none ∧ f = .incomparable) ∨
        ∃ image, core.reflection s.pos = .ok image ∧
          (image.point? ≠ some t.pos ∨ t.layer ≠ s.layer) ∧
          (t.pos.isWritable && s.pos.isWritable) = false ∧ f = .unwritable) := by
  have hindex : ∀ {name : String}, name ∈ b.pins.names → ∃ i, b.pins.indexOf name = .ok i := by
    intro name hname
    obtain ⟨i, hi⟩ := PinTable.exists_indexOf? hname
    exact ⟨i, PinTable.indexOf_eq_ok.mpr hi⟩
  have hpin : ∀ {name : String} {i : Nat}, b.pins.indexOf name = .ok i →
      ∃ p, b.pins.pin i = .ok p := by
    intro name i hi
    obtain ⟨p, hp, -⟩ := PinTable.pin_of_indexOf? (PinTable.indexOf_eq_ok.mp hi)
    exact ⟨p, PinTable.pin_eq_ok.mpr hp⟩
  unfold checkPair
  refine ((StoppedBy.of_ok (hindex hfst)).bind fun i hi => (StoppedBy.of_ok (hpin hi)).bind
    fun p hp => (StoppedBy.of_ok (hindex hsnd)).bind fun j hj => (StoppedBy.of_ok (hpin hj)).bind
    fun q hq => ?_).congr fun f => by simp only [false_or]; exact Iff.rfl
  -- The lookups of both names go through, so what is left depends on the two places only.
  have hpaired : ∀ s t, b.PairedAt pair s t ↔ p.spot = some s ∧ q.spot = some t := by
    intro s t
    simp [PairedAt, PinTable.indexOf_eq_ok.mp hi, PinTable.indexOf_eq_ok.mp hj, spotOf,
      PinTable.pin_eq_ok.mp hp, PinTable.pin_eq_ok.mp hq]
  simp only [hpaired]
  cases hs : p.spot with
  | none => cases ht : q.spot <;> exact (StoppedBy.ok _).congr fun f => by simp
  | some s =>
    cases ht : q.spot with
    | none => exact (StoppedBy.ok _).congr fun f => by simp
    | some t =>
      simp only [Option.some.injEq, and_assoc, exists_and_left, exists_eq_left']
      refine (core.stoppedBy_reflection s.pos).bind fun image himage => ?_
      split
      · rename_i happart
        refine ((stoppedBy_written (Point.isSome_text? _)).bind fun _ _ =>
          (stoppedBy_written (Point.isSome_text? _)).bind fun _ _ => .ok _).congr fun f => ?_
        simp only [himage, Except.ok.injEq, exists_eq_left', happart, true_and, or_false,
          Bool.and_eq_false_iff]
        rw [or_and_right]
      · rename_i hface
        exact (StoppedBy.ok _).congr fun f => by simp [himage, hface]

theorem checkGroup_stoppedBy (b : Board) (g : PinGroup) :
    StoppedBy (checkGroup b g) fun f => g.members = [] ∧ f = .outOfRange := by
  unfold checkGroup
  cases hslots : g.members.mapM (slotOf b) with
  | none =>
    have hne : g.members ≠ [] := by
      intro hnil
      rw [hnil] at hslots
      cases hslots
    exact (StoppedBy.ok _).congr fun f => by simp [hne]
  | some slots =>
    have hmembers := mapM_slotOf_eq_some.mp hslots
    cases slots with
    | nil =>
      have hnil := List.forall₂_nil_right_iff.mp hmembers
      exact (StoppedBy.error _).congr fun f => by simp [hnil]
    | cons slot slots =>
      have hne : g.members ≠ [] := by
        intro hnil
        rw [hnil] at hmembers
        cases hmembers
      simp only
      split <;> exact (StoppedBy.ok _).congr fun f => by simp [hne]

/-- A review breaks off only at an obstacle, and goes through if there is none. -/
theorem review_stoppedBy (hnames : ∀ e ∈ b.pins.mirrors, e.1 ∈ b.pins.names ∧ e.2 ∈ b.pins.names) :
    StoppedBy (review b (some core.reflection) blocked) (b.Obstacle core) := by
  have hpairs : ∀ e ∈ mirrorPairs [] b.pins.mirrors, e.1 ∈ b.pins.names ∧ e.2 ∈ b.pins.names :=
    fun e he => hnames e (mem_mirrorPairs.mp he).2.2.mem
  unfold review
  refine ((checkSlots_stoppedBy [] _).bind fun _ _ =>
    ((StoppedBy.mapM fun e he => checkPair_stoppedBy (hpairs e he).1 (hpairs e he).2).map _).bind
    fun _ _ => ((StoppedBy.mapM fun g _ => checkGroup_stoppedBy b g).map _).bind
    fun _ _ => .ok _).congr fun f => ?_
  constructor
  · rintro (⟨p, hp, s, hs, hat, hlong, rfl⟩ | ⟨e, he, s, t, hst, hobstacle⟩ |
      ⟨g, hg, hempty, rfl⟩ | h)
    · obtain ⟨i, hi⟩ := List.mem_iff_getElem?.mp hp
      rw [Array.getElem?_toList] at hi
      have hspot : b.spotOf i = some s := by
        rw [spotOf, hi]
        exact hs
      exact .offSlot hspot hat hlong
    · have hmet := (mem_mirrorPairs.mp he).2.2
      rcases hobstacle with (⟨hoff, rfl⟩ | ⟨hnone, rfl⟩) | ⟨image, himage, hface, hlong, rfl⟩
      · exact .offBoundary hmet hst hoff
      · exact .incomparable hmet hst hnone
      · exact .astray hmet hst himage hface hlong
    · exact .emptyGroup hg hempty
    · exact h.elim
  · have hmirror : ∀ {e}, FirstMet b.pins.mirrors e → e ∈ mirrorPairs [] b.pins.mirrors :=
      fun hmet => mem_mirrorPairs.mpr ⟨List.not_mem_nil, List.not_mem_nil, hmet⟩
    rintro (@⟨pin, s, hs, hat, hlong⟩ | ⟨hmet, hst, hoff⟩ | ⟨hmet, hst, hnone⟩ |
      ⟨hmet, hst, himage, hface, hlong⟩ | ⟨hg, hempty⟩)
    · obtain ⟨p, hp, hspot⟩ := Option.bind_eq_some_iff.mp hs
      exact .inl ⟨p, Array.mem_toList_iff.mpr (Array.mem_of_getElem? hp), s, hspot, hat, hlong, rfl⟩
    · exact .inr (.inl ⟨_, hmirror hmet, _, _, hst, .inl (.inl ⟨hoff, rfl⟩)⟩)
    · exact .inr (.inl ⟨_, hmirror hmet, _, _, hst, .inl (.inr ⟨hnone, rfl⟩)⟩)
    · exact .inr (.inl ⟨_, hmirror hmet, _, _, hst, .inr ⟨_, himage, hface, hlong, rfl⟩⟩)
    · exact .inr (.inr (.inl ⟨_, hg, hempty, rfl⟩))

end Review

namespace ResultFile

theorem frame_apply {b after : Board} {spots : List StoredSpot} {answer : Except ResultFault Unit}
    (h : apply b spots = (after, answer)) : Frame b after := by
  induction spots generalizing b with
  | nil =>
    cases h
    exact Frame.refl _
  | cons s rest ih =>
    unfold apply at h
    simp only at h
    split at h
    · cases h
      exact Frame.refl _
    · cases h
      exact Frame.refl _
    · exact (frame_replay _ _ _).trans (ih h)

end ResultFile

/-- The review of a result that was replayed on a loaded problem breaks off only at obstacles. -/
theorem review_replayed_stoppedBy {v : Value} {p : Problem} {spots : List StoredSpot}
    {board : Board} (hload : Problem.ofValue v = .ok p)
    (happly : ResultFile.apply p.board spots = (board, .ok ())) :
    StoppedBy (review board (some p.core.reflection) (CommandLine.blockedSlots p))
      (board.Obstacle p.core) := by
  have hframe := ResultFile.frame_apply happly
  refine Review.review_stoppedBy fun e he => ?_
  obtain ⟨hfst, hsnd, -⟩ := (Problem.ofValue_declared hload).mirrored e (hframe.mirrors ▸ he)
  exact ⟨hframe.names ▸ hfst, hframe.names ▸ hsnd⟩

namespace CommandLine

/-- The printed report of a check that found some issues. -/
def checkReport (path : String) (issues : List Issue) : String :=
  let errors := (issues.filter (·.severity = .error)).length
  let warnings := (issues.filter (·.severity = .warning)).length
  printed (s!"Checked {path}: {errors} errors, {warnings} warnings" :: issues.map issueLine)

end CommandLine

open CommandLine

/-- When a check comes to its verdict.  The review of any result that is replayed on a loaded
problem is carried out exactly if there is no obstacle, and otherwise ends in the fault of one.  So
`check` prints its report and exits with 0 or 1 if there is no obstacle, and breaks off with the
fault of an obstacle if there is one. -/
theorem check_answers_iff {v : Value} {p : Problem} {spots : List StoredSpot} {board : Board}
    (hload : Problem.ofValue v = .ok p)
    (happly : ResultFile.apply p.board spots = (board, .ok ())) :
    let reviewed := review board (some p.core.reflection) (blockedSlots p)
    ((∃ issues, reviewed = .ok issues) ↔ ∀ f, ¬board.Obstacle p.core f) ∧
    (∀ f, reviewed = .error f → board.Obstacle p.core f) ∧
    ∀ (args : CheckArguments) (format : TextFormat) (files : String → FileContent) (path : String),
      Problem.load format args.problem (files (Path.plain args.problem)) = .ok p →
      args.result = some path → ResultFile.load format path (files path) = .ok spots →
      ((∀ f, ¬board.Obstacle p.core f) →
        ∃ issues, reviewed = .ok issues ∧
          (check args format files).output = checkReport path issues ∧
          (check args format files).ending = .exit (if passes issues then 0 else 1)) ∧
      ((∃ f, board.Obstacle p.core f) →
        ∃ f, board.Obstacle p.core f ∧ (check args format files).ending = .escape (.fault f)) := by
  intro reviewed
  have hreview := review_replayed_stoppedBy hload happly
  refine ⟨hreview.exists_ok_iff, fun f => hreview.of_error, ?_⟩
  intro args format files path hproblem hresult hspots
  have hcheck : check args format files = (concludeCheck path p board).after ""
      [Problem.loadedLog (Path.plain args.problem) p] := by
    unfold check
    simp only [hproblem, hresult, hspots, happly]
  rw [hcheck]
  rcases hreview with ⟨f, hf, hobstacle⟩ | ⟨⟨issues, hissues⟩, hnone⟩
  · refine ⟨fun hnone => absurd hobstacle (hnone f), fun _ => ⟨f, hobstacle, ?_⟩⟩
    simp only [concludeCheck, hf, Execution.after]
  · refine ⟨fun _ => ⟨issues, hissues, ?_, ?_⟩, fun hsome => ?_⟩
    · simp only [concludeCheck, hissues, Execution.after, String.empty_append]
      rfl
    · simp only [concludeCheck, hissues, Execution.after]
    · obtain ⟨f, hobstacle⟩ := hsome
      exact absurd hobstacle (hnone f)

/-- The places of a mirror pair as a result file stores them, with the first pin at `x`, `y`. -/
def pairResult (x y : Int) : Value :=
  .mapping
    [(.text "pins", .mapping
        [(.text "tx", ResultFile.spotValue ⟨⟨x, y⟩, 0⟩),
          (.text "rx", ResultFile.spotValue ⟨⟨10, 80⟩, 0⟩)])]

/-- What is read from `pairResult`. -/
def pairSpots (x y : Int) : List StoredSpot :=
  [⟨.text "tx", ⟨⟨x, y⟩, 0⟩⟩, ⟨.text "rx", ⟨⟨10, 80⟩, 0⟩⟩]

def pairBoard (x y : Int) : Board := (ResultFile.apply facingProblem.board (pairSpots x y)).1

def pairFiles (x y : Int) (path : String) : FileContent :=
  if path = "ring.yaml" then .document facingSlots
  else if path = "pair.yaml" then .document (pairResult x y)
  else .missing

def pairArguments : CheckArguments := { problem := "ring.yaml", result := some "pair.yaml" }

theorem load_pairResult (x y : Int) :
    ResultFile.load Document.yaml "pair.yaml" (pairFiles x y "pair.yaml") =
      .ok (pairSpots x y) := by
  have hpath : Path.hasNull "pair.yaml" = false := by decide +kernel
  unfold ResultFile.load FileContent.read
  rw [hpath]
  rfl

theorem apply_pairSpots (x y : Int) :
    ResultFile.apply facingProblem.board (pairSpots x y) = (pairBoard x y, .ok ()) := by
  have htx : facingProblem.board.pins.indexOf? "tx" = some 0 := by decide +kernel
  have hrx : (ResultFile.replay facingProblem.board 0 ⟨⟨x, y⟩, 0⟩).pins.indexOf? "rx" = some 1 := by
    rw [(ResultFile.frame_replay _ _ _).indexOf?]
    decide +kernel
  refine Prod.ext rfl ?_
  simp only [pairSpots, ResultFile.apply, htx, hrx]

/-- A pair that faces each other is checked; a pair whose first pin is off the boundary is not. -/
theorem check_answers_iff_pairBoard :
    (∀ f, ¬(pairBoard 10 0).Obstacle facingProblem.core f) ∧
      (check pairArguments Document.yaml (pairFiles 10 0)).output =
        "Checked pair.yaml: 0 errors, 0 warnings\n" ∧
      (check pairArguments Document.yaml (pairFiles 10 0)).ending = .exit 0 ∧
    (pairBoard 5 7).Obstacle facingProblem.core (.offBoundary ⟨5, 7⟩) ∧
      ∃ f, (check pairArguments Document.yaml (pairFiles 5 7)).ending = .escape (.fault f) := by
  have hreview : review (pairBoard 10 0) (some facingProblem.core.reflection)
      (blockedSlots facingProblem) = .ok [] := by decide +kernel
  have hstray : review (pairBoard 5 7) (some facingProblem.core.reflection)
      (blockedSlots facingProblem) = .error (.offBoundary ⟨5, 7⟩) := by decide +kernel
  obtain ⟨hiff, -, hchecked⟩ := check_answers_iff ofValue_facingSlots (apply_pairSpots 10 0)
  obtain ⟨-, hfault, hescaped⟩ := check_answers_iff ofValue_facingSlots (apply_pairSpots 5 7)
  have hclear := hiff.mp ⟨[], hreview⟩
  have hobstacle := hfault _ hstray
  obtain ⟨issues, hissues, houtput, hending⟩ := (hchecked pairArguments Document.yaml
    (pairFiles 10 0) "pair.yaml" (load_facing rfl) rfl (load_pairResult 10 0)).1 hclear
  obtain ⟨f, -, hescape⟩ := (hescaped pairArguments Document.yaml (pairFiles 5 7) "pair.yaml"
    (load_facing rfl) rfl (load_pairResult 5 7)).2 ⟨_, hobstacle⟩
  obtain rfl := Except.ok.inj (hreview.symm.trans hissues)
  have hreport : checkReport "pair.yaml" [] = "Checked pair.yaml: 0 errors, 0 warnings\n" := by
    decide +kernel
  exact ⟨hclear, houtput.trans hreport, hending, hobstacle, f, hescape⟩

/-- No verdict is reached on a mirror pair whose first pin is off the boundary of the core. -/
theorem review_without_verdict :
    (Problem.ofValue facingSlots = .ok facingProblem ∧
      ResultFile.apply facingProblem.board (pairSpots 5 7) = (pairBoard 5 7, .ok ()) ∧
      ∀ issues, review (pairBoard 5 7) (some facingProblem.core.reflection)
        (blockedSlots facingProblem) ≠ .ok issues) ∧
    (check pairArguments Document.yaml (pairFiles 5 7)).ending =
      .escape (.fault (.offBoundary ⟨5, 7⟩)) := by
  have hstray : review (pairBoard 5 7) (some facingProblem.core.reflection)
      (blockedSlots facingProblem) = .error (.offBoundary ⟨5, 7⟩) := by decide +kernel
  refine ⟨⟨ofValue_facingSlots, apply_pairSpots 5 7, fun issues hissues => ?_⟩, ?_⟩
  · rw [hstray] at hissues
    cases hissues
  · have hproblem : Problem.load Document.yaml pairArguments.problem
        (pairFiles 5 7 (Path.plain pairArguments.problem)) = .ok facingProblem := load_facing rfl
    have hresult : pairArguments.result = some "pair.yaml" := rfl
    unfold check
    simp only [hproblem, hresult, load_pairResult, apply_pairSpots, concludeCheck, hstray,
      Execution.after]

end PinRing
