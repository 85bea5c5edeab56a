import Mathlib.Tactic.Common
import PinRing.Proofs.File.Problem
import PinRing.Proofs.Placement.Arrangement
import PinRing.Proofs.Placement.Completion
import PinRing.Proofs.Placement.MirrorRun
import PinRing.Proofs.Placement.Sectioning
import PinRing.Proofs.Settings

/-! Runs on a ring whose available slots lie opposite to available ones.  Such a run goes through
all its passes and no mirror pair fails, whatever the pins and the configuration. -/

namespace PinRing

open Board

theorem Text.isWritable_iff (n : Int) : isWritable n ↔ n.natAbs < 10 ^ maxDigits := by
  rw [isWritable, decide_eq_true_iff]
  exact Nat.length_toDigits_le_iff (by decide) (by decide)

/-- In a declared table with no pin in two pairs every pin has a partner or none. -/
theorem PinTable.Declared.mutual {t : PinTable} (h : t.Declared)
    (hpair : ∀ e ∈ t.mirrors, ∀ f ∈ t.mirrors,
      e.1 = f.1 ∨ e.1 = f.2 ∨ e.2 = f.1 ∨ e.2 = f.2 → f = e ∨ f = e.swap) : t.Mutual where
  total := h.partner_total
  symm _ _ := partner_symm h.names_nodup (h.lookup_symm hpair)
  ne _ _ := ne_of_partner h.lookup_ne

namespace Board

variable {reflect : Reflection} {b : Board}

theorem Closed.of_slots (hapart : b.boundary.Apart)
    (hslots : ∀ s ∈ b.boundary.slots, s.available →
      ∃ t ∈ b.boundary.slots, t.available ∧ reflect.Sends s.pos t.pos ∧ t.layer = s.layer) :
    Closed reflect b := by
  intro i hi
  obtain ⟨s, hs, havailable⟩ := (Option.any_eq_true _ _).mp hi
  obtain ⟨t, ht, hfree, hreflect, hlayer⟩ := hslots s (Array.mem_of_getElem? hs) havailable
  obtain ⟨j, hj⟩ := Array.getElem?_of_mem ht
  refine ⟨j, ⟨s, t.pos, hs, hreflect, hlayer ▸ hapart.slotAt?_eq hj⟩, ?_⟩
  rw [Boundary.isAvailable, hj]
  exact hfree

end Board

namespace Run

variable {start : Board} {reflect : Reflection} {model : CostModel} {config : Config}
variable {m : Matching} {w : Work} {ms : List Matching} {secs : List Section}

/-- Passes that went through, and in which no pair failed. -/
structure Clear (passed : Outcome (List Matching × Work) Unit) : Prop where
  answer_eq : passed.answer = .ok ()
  failures_eq : passed.state.2.failures = []
  accounted : passed.state.2.Accounted

theorem Clear.errors_eq {passed : Outcome (List Matching × Work) Unit} (h : Clear passed) :
    passed.state.2.report.errors = [] := by
  rw [h.accounted, h.failures_eq, List.map_nil]

theorem laterPasses_clear (config : Config) {s : List Matching × Work}
    (hframe : Frame start s.2.board) (hms : ∀ m ∈ s.1, m.Placeable start)
    (hnone : s.2.failures = []) (haccounted : s.2.Accounted) :
    Clear (sweeps (laterPasses config) s) where
  answer_eq := sweeps_finish (laterPasses_finish config) hframe hms
  failures_eq := (laterPasses_failures config s).trans hnone
  accounted := laterPasses_accounted config haccounted

section Mirrored

variable (ht : start.pins.Mutual) (hswaps : reflect.Swaps)

include ht hswaps

/-- The mirrored pass over one section goes through, and no pair fails. -/
theorem mirrorStep_finishes (hfacing : Facing reflect start w.board) (hm : m.Placeable start)
    (hreflection : m.reflection = some reflect) :
    (pinStep true m w).answer = .ok () ∧
      Facing reflect start (pinStep true m w).state.2.board ∧
      (pinStep true m w).state.2.failures = w.failures ∧
      (pinStep true m w).state.1.Placeable start ∧
      (pinStep true m w).state.1.reflection = some reflect := by
  obtain ⟨matrix, a, hfound, hstate, hshaped⟩ := (hm.frame hfacing.frame).findPins true
  let m' : Matching := { m with matrix, assignment := a }
  let mode : PinPass.Mode := { mirrored := true, strict := m.strict, reflection := m.reflection }
  have hmode : mode.mirrored = true := rfl
  have hpairs : ∀ pin ∈ matrix.columns, pairScope.pins mode.origin pin := fun _ _ => rfl
  obtain ⟨result, hpass, hnone⟩ :=
    PinPass.run_pairs_all ht hswaps hfacing hmode hreflection hshaped
  obtain ⟨cs, hmoves, hboard, -⟩ := PinPass.run_moves w.board a mode hpairs
  have hmoves : Moves (some reflect) pairScope w.board cs := hreflection ▸ hmoves
  obtain ⟨hcommitState, hcommitAnswer⟩ := m'.commitPins_eq w.board true
  have hcommitted :
      ((m.findPins w.board true).state.commitPins w.board true).answer = .ok result := by
    rw [hstate]
    exact hcommitAnswer.trans hpass
  obtain ⟨hanswer, hnext⟩ := pinStep_of_ok hfound hcommitted
  have hcommit : (m'.commitPins w.board true).state = w.board.takeAll cs :=
    hcommitState.trans hboard
  rw [hstate] at hnext
  rw [hnext]
  refine ⟨hanswer, ?_, ?_, hm.worked matrix a m.reserved, hreflection⟩
  · exact hcommit ▸ hfacing.moves ht hswaps hmoves
  · exact (congrArg (w.failures ++ ·) hnone).trans (List.append_nil _)

theorem mirrorSweep_finishes (hfacing : Facing reflect start w.board)
    (hms : ∀ m ∈ ms, m.Placeable start ∧ m.reflection = some reflect) :
    let swept := sweep (pinStep true) ms w
    swept.answer = .ok () ∧ Facing reflect start swept.state.2.board ∧
      swept.state.2.failures = w.failures ∧ ∀ m ∈ swept.state.1, m.Placeable start := by
  obtain ⟨hanswer, hfacing', hfailures, hms'⟩ := sweep_finishes (pinStep true) ms w
    (I := fun done rest w' => Facing reflect start w'.board ∧ w'.failures = w.failures ∧
      ∀ m ∈ done ++ rest, m.Placeable start ∧ m.reflection = some reflect)
    (fun done m rest w' ⟨hfacing, hfailures, hms⟩ => by
      obtain ⟨hdone, hrest⟩ := List.forall_mem_append.mp hms
      obtain ⟨⟨hm, hreflection⟩, hrest⟩ := List.forall_mem_cons.mp hrest
      obtain ⟨hanswer, hfacing', hsame, hm'⟩ := mirrorStep_finishes ht hswaps hfacing hm hreflection
      exact ⟨hanswer, hfacing', hsame.trans hfailures, List.forall_mem_append.mpr
        ⟨List.forall_mem_append.mpr ⟨hdone, List.forall_mem_singleton.mpr hm'⟩, hrest⟩⟩)
    ⟨hfacing, rfl, hms⟩
  rw [List.append_nil] at hms'
  exact ⟨hanswer, hfacing', hfailures, fun m hm => (hms' m hm).1⟩

/-- All passes go through, and no pair fails. -/
theorem passes_clear (config : Config) (hfacing : Facing reflect start start)
    (hms : ∀ m ∈ (opening start model (some reflect) secs).1, m.Placeable start) :
    Clear (sweeps (passes start config) (opening start model (some reflect) secs)) := by
  rw [passes_eq]
  split
  · exact laterPasses_clear config (.refl start) hms rfl rfl
  · have hall : ∀ m ∈ (opening start model (some reflect) secs).1,
        m.Placeable start ∧ m.reflection = some reflect := by
      intro m hm
      refine ⟨hms m hm, ?_⟩
      obtain ⟨s, -, rfl⟩ := List.mem_map.mp hm
      rfl
    obtain ⟨hanswer, hfacing', hfailures, hms'⟩ := mirrorSweep_finishes ht hswaps
      (w := (opening start model (some reflect) secs).2) hfacing hall
    have haccounted : (sweep (pinStep true) (opening start model (some reflect) secs).1
        (opening start model (some reflect) secs).2).state.2.Accounted :=
      sweep_keeps (P := Work.Accounted) (fun m w hw => (pinStep_reported true m w).accounted hw)
        rfl
    obtain ⟨hrest, hstate⟩ := sweeps_cons hanswer (laterPasses config)
    have hclear := laterPasses_clear config hfacing'.frame hms' hfailures haccounted
    exact ⟨hrest.trans hclear.answer_eq, hstate ▸ hclear.failures_eq, hstate ▸ hclear.accounted⟩

end Mirrored

/-- What the distribution leaves can be placed. -/
theorem opening_placeable {reflection : Option Reflection} (hd : start.pins.Declared)
    (hmodel : model.Total)
    (h : (distribute start model config (start.boundary.sections config.sectionSize)).answer =
      .ok ()) :
    let shared := distribute start model config (start.boundary.sections config.sectionSize)
    ∀ m ∈ (opening start model reflection shared.state).1, m.Placeable start := by
  intro shared m hm
  obtain ⟨s, hs, rfl⟩ := List.mem_map.mp hm
  obtain ⟨hnodup, hfree⟩ := Distribution.pins_distribute h
  refine ⟨⟨?_, fun g hg i hi => ?_, rfl⟩, ?_, fun i hi => ?_, hmodel⟩
  · exact (Distribution.sections_distribute h).2 s hs
  · have hg := (Distribution.given_distribute h s hs g hg).1
    obtain ⟨p, hp, -⟩ := hd.members_grouped g hg i hi
    exact (Array.getElem?_eq_some_iff.mp hp).1
  · exact (List.nodup_flatMap.mp hnodup).1 s hs
  · obtain ⟨q, hq, -⟩ := hfree i (List.mem_flatMap.mpr ⟨s, hs, hi⟩)
    exact (Array.getElem?_eq_some_iff.mp hq).1

/-- The report that a run gathers if its passes go through. -/
def gathered (board : Board) (model : CostModel) (reflection : Option Reflection)
    (config : Config) : Report :=
  let secs := board.boundary.sections config.sectionSize
  if secs.isEmpty then
    { success := board.pins.unplaced.isEmpty, unplaced := board.pins.unplaced }
  else
    let shared := distribute board model config secs
    finish (sweeps (passes board config) (opening board model reflection shared.state)).state.2

theorem gathered_of_sections {board : Board} (model : CostModel) (reflection : Option Reflection)
    (hne : board.boundary.sections config.sectionSize ≠ []) :
    let shared := distribute board model config (board.boundary.sections config.sectionSize)
    gathered board model reflection config = finish
      (sweeps (passes board config) (opening board model reflection shared.state)).state.2 := by
  simp [gathered, hne]

/-- On a ring whose available slots lie opposite to available ones a run over a declared table comes
to its report, and in the report there is no error. -/
theorem gathered_of_closed {board : Board} (hd : board.pins.Declared) (ht : board.pins.Mutual)
    (happart : board.boundary.Apart) (hswaps : reflect.Swaps) (hclosed : Closed reflect board)
    (hmodel : model.Total) (config : Config) :
    let report := gathered board model (some reflect) config
    report.errors = [] ∧ (run board model (some reflect) config).answer =
      if Text.isWritable report.totalCost then .ok (.placed report) else .error .unwritable := by
  intro report
  by_cases hne : board.boundary.sections config.sectionSize = []
  · have hreport : report =
        { success := board.pins.unplaced.isEmpty, unplaced := board.pins.unplaced } := by
      simp [report, gathered, hne]
    have hwritable : Text.isWritable 0 := (Text.isWritable_iff 0).mpr (Nat.pow_pos (by decide))
    rw [run_of_nil (some reflect) hne, hreport]
    exact ⟨rfl, (if_pos hwritable).symm⟩
  have hsections := Boundary.sections_bounds board.boundary config.sectionSize
  have hdistribute := Distribution.distribute_finishes config hmodel ht.total hne
    fun s hs => (hsections s hs).2
  have hfacing : Facing reflect board board :=
    ⟨.refl board, happart, hclosed, (Arranged.refl hd).pairs⟩
  have hclear := passes_clear ht hswaps config hfacing
    (opening_placeable hd hmodel hdistribute)
  obtain ⟨-, hanswer⟩ := run_of_distribute (some reflect) hne hdistribute
  have hreport : report = _ := gathered_of_sections model (some reflect) hne
  refine ⟨hreport ▸ hclear.errors_eq, ?_⟩
  rw [hanswer, place_answer, hclear.answer_eq, hclear.failures_eq, ← hreport]
  simp only [Except.bind, conclude_answer, Text.decimal?, judge, List.isEmpty_nil, Bool.not_true,
    Bool.and_false, Bool.false_eq_true, if_false]
  split <;> rfl

end Run

theorem Problem.model_total (p : Problem) : p.model.Total := p.targets.model_total

/-- A run over a loaded problem in which slots can be told apart, mirror pairs do not overlap, and
the image of every available slot is an available slot goes through all its passes.  No mirror pair
fails, and there is no error.  Only a total cost that cannot be written keeps it from returning, and
settings that are accepted lead to such a run, unless the size of sections is a double and there are
slots. -/
theorem run_of_opposite_slots {v : Value} {p : Problem} (hload : Problem.ofValue v = .ok p)
    (happart : p.board.boundary.Apart)
    (hpair : ∀ e ∈ p.board.pins.mirrors, ∀ f ∈ p.board.pins.mirrors,
      e.1 = f.1 ∨ e.1 = f.2 ∨ e.2 = f.1 ∨ e.2 = f.2 → f = e ∨ f = e.swap)
    (hslots : ∀ s ∈ p.board.boundary.slots, s.available → ∃ t ∈ p.board.boundary.slots,
      t.available ∧ p.core.reflection.Sends s.pos t.pos ∧ t.layer = s.layer) :
    (∀ config : Config,
      let report := Run.gathered p.board p.model (some p.core.reflection) config
      report.errors = [] ∧ (run p.board p.model (some p.core.reflection) config).answer =
        if Text.isWritable report.totalCost then .ok (.placed report) else .error .unwritable) ∧
    ∀ s : Settings, s.validate = .ok s →
      let ended := s.run p.board p.model (some p.core.reflection)
      (∃ config, ended = .ok (run p.board p.model (some p.core.reflection) config)) ∨
      ∃ x, s.sectionSize = .float x ∧ p.board.boundary.size ≠ 0 ∧ ended = .error .wrongType := by
  have hd := Problem.ofValue_declared hload
  refine ⟨fun config => ?_, fun s hvalid => Settings.run_or_wrongType hvalid _ _ _⟩
  exact Run.gathered_of_closed hd (hd.mutual hpair) happart p.core.reflection_swaps
    (.of_slots happart hslots) p.model_total config

/-- Two slots that lie opposite to each other, and a mirror pair with a target for its first pin. -/
def facingPair (target : Int) : Value :=
  let slot (x y : Int) : Value :=
    .mapping [(.text "x", .int x), (.text "y", .int y), (.text "layer", .int 1)]
  .mapping
    [(.text "core", .mapping
        [(.text "xmin", .int 0), (.text "ymin", .int 0), (.text "xmax", .int 100),
          (.text "ymax", .int 100)]),
      (.text "slots", .list [slot 10 0, slot 10 100]),
      (.text "pins", .list
        [.mapping [(.text "name", .text "a"), (.text "target", .list [.int target, .int target]),
            (.text "mirror", .text "b")],
          .mapping [(.text "name", .text "b")]])]

/-- The board of `facingPair`. -/
def facingBoard : Board where
  boundary :=
    { slots := #[⟨⟨10, 0⟩, 1, .bottom, false, false⟩, ⟨⟨10, 100⟩, 1, .top, false, false⟩] }
  pins :=
    { pins := #[⟨"a", none, false⟩, ⟨"b", none, false⟩]
      mirrors := [("a", "b"), ("b", "a")] }

/-- What is read from `facingPair`. -/
def facingPairProblem (target : Int) : Problem where
  core := Core.outline { xmin := 0, ymin := 0, xmax := 100, ymax := 100 }
  board := facingBoard
  targets := { targets := [(0, ⟨target, target⟩)] }

theorem ofValue_facingPair (target : Int) :
    Problem.ofValue (facingPair target) = .ok (facingPairProblem target) := by
  with_unfolding_all rfl

theorem apart_facingBoard : facingBoard.boundary.Apart := by decide

theorem pair_facingBoard : ∀ e ∈ facingBoard.pins.mirrors, ∀ f ∈ facingBoard.pins.mirrors,
    e.1 = f.1 ∨ e.1 = f.2 ∨ e.2 = f.1 ∨ e.2 = f.2 → f = e ∨ f = e.swap := by decide

theorem slots_facingBoard (target : Int) : ∀ s ∈ facingBoard.boundary.slots, s.available →
    ∃ t ∈ facingBoard.boundary.slots, t.available ∧
      (facingPairProblem target).core.reflection.Sends s.pos t.pos ∧ t.layer = s.layer := by
  intro s hs _
  simp only [facingBoard, List.mem_toArray, List.mem_cons, List.not_mem_nil, or_false] at hs
  rcases hs with rfl | rfl
  · exact ⟨⟨⟨10, 100⟩, 1, .top, false, false⟩, by simp [facingBoard], rfl, ⟨_, rfl, rfl⟩, rfl⟩
  · exact ⟨⟨⟨10, 0⟩, 1, .bottom, false, false⟩, by simp [facingBoard], rfl, ⟨_, rfl, rfl⟩, rfl⟩

theorem run_of_opposite_slots_facingPair :
    let p := facingPairProblem 20
    let config : Config := { usageFactor := { mantissa := 1, scale := 0 } }
    let settings : Settings := { sectionSize := .int 3, usageFactor := .int 1 }
    Problem.ofValue (facingPair 20) = .ok p ∧ p.board.boundary.Apart ∧
      (∃ report : Report, report.errors = [] ∧ report.totalCost = 30 ∧
        (run p.board p.model (some p.core.reflection) config).answer = .ok (.placed report)) ∧
      ∃ config, settings.run p.board p.model (some p.core.reflection) =
        .ok (run p.board p.model (some p.core.reflection) config) := by
  intro p config settings
  obtain ⟨hruns, hsettings⟩ := run_of_opposite_slots (ofValue_facingPair 20) apart_facingBoard
    pair_facingBoard (slots_facingBoard 20)
  obtain ⟨herrors, hanswer⟩ := hruns config
  have hcost : (Run.gathered p.board p.model (some p.core.reflection) config).totalCost = 30 := by
    decide +kernel
  rw [hcost, if_pos ((Text.isWritable_iff 30).mpr (by decide +kernel))] at hanswer
  have hvalid : settings.validate = .ok settings := rfl
  refine ⟨ofValue_facingPair 20, apart_facingBoard, ⟨_, herrors, hcost, hanswer⟩, ?_⟩
  exact (hsettings settings hvalid).resolve_right fun ⟨x, hsize, _⟩ => by cases hsize

/-- With a target of 4300 digits the pair is placed, and the total cost has 4301 digits.  And
sections of two and a half slots are accepted, but cannot be made. -/
theorem run_facingPair_without_result :
    let p := facingPairProblem (10 ^ 4300 - 1)
    let config : Config := { usageFactor := { mantissa := 1, scale := 0 } }
    let settings : Settings := { sectionSize := .float 2.5, usageFactor := .int 1 }
    Problem.ofValue (facingPair (10 ^ 4300 - 1)) = .ok p ∧ p.board.boundary.Apart ∧
      (∀ e ∈ p.board.pins.mirrors, ∀ f ∈ p.board.pins.mirrors,
        e.1 = f.1 ∨ e.1 = f.2 ∨ e.2 = f.1 ∨ e.2 = f.2 → f = e ∨ f = e.swap) ∧
      (∀ s ∈ p.board.boundary.slots, s.available → ∃ t ∈ p.board.boundary.slots,
        t.available ∧ p.core.reflection.Sends s.pos t.pos ∧ t.layer = s.layer) ∧
      (run p.board p.model (some p.core.reflection) config).answer = .error .unwritable ∧
      settings.validate = .ok settings ∧
      settings.run p.board p.model (some p.core.reflection) = .error .wrongType := by
  intro p config settings
  have hload : Problem.ofValue (facingPair (10 ^ 4300 - 1)) = .ok p := ofValue_facingPair _
  have hd := Problem.ofValue_declared hload
  have hclosed : Closed p.core.reflection p.board :=
    .of_slots apart_facingBoard (slots_facingBoard _)
  obtain ⟨-, hanswer⟩ := Run.gathered_of_closed hd (hd.mutual pair_facingBoard) apart_facingBoard
    p.core.reflection_swaps hclosed p.model_total config
  have hcost : ¬(Run.gathered p.board p.model (some p.core.reflection) config).totalCost.natAbs <
      10 ^ Text.maxDigits := by decide +kernel
  rw [if_neg fun h => hcost ((Text.isWritable_iff _).mp h)] at hanswer
  have hsize : Settings.belowOne (.float 2.5) = .ok false :=
    congrArg Except.ok (by decide +kernel : decide ((2.5 : Float) < 1) = false)
  have hvalid : settings.validate = .ok settings := by
    rw [Settings.validate, hsize]
    rfl
  exact ⟨hload, apart_facingBoard, pair_facingBoard, slots_facingBoard _, hanswer, hvalid, rfl⟩

end PinRing
