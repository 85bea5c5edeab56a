import Mathlib.Tactic.Common
import PinRing.Proofs.Geometry.Outline
import PinRing.Proofs.Placement.MirrorCompletion
import PinRing.Proofs.Settings

/-! What keeps a run from answering.  The pass over mirrored pins reflects the slots it uses, and
names the image of a slot if it is not a slot itself; a point off the boundary, one that is in no
order with the bounds of the core, and a number that is too long to be written end the run there.
Nothing else does, but for a total cost that is too long to be written. -/

namespace PinRing

open Board

/-- What the pass over mirrored pins may stumble over, with the fault in which it ends. -/
inductive Board.Hazard (b : Board) (core : Outline) : Fault → Prop where
  /-- An available slot off the boundary of the core. -/
  | offBoundary {i : Nat} {s : Slot} (at_slot : b.boundary.slots[i]? = some s)
      (free : s.available) (off_boundary : core.edgeOf? s.pos = some .invalid) :
      Hazard b core (.offBoundary s.pos)
  /-- An available slot in no order with the bounds of the core. -/
  | incomparable {i : Nat} {s : Slot} (at_slot : b.boundary.slots[i]? = some s)
      (free : s.available) (unordered : core.edgeOf? s.pos = none) : Hazard b core .incomparable
  /-- An available slot whose image is on no slot and cannot be written. -/
  | nowhere {i : Nat} {s : Slot} {image : Image} (at_slot : b.boundary.slots[i]? = some s)
      (free : s.available) (reflected : core.reflection s.pos = .ok image)
      (off_slot : image.point?.bind (b.boundary.slotAt? · s.layer) = none)
      (long : (image.isWritable && Text.isWritable s.layer) = false) : Hazard b core .unwritable

variable {start b : Board} {core : Outline} {f : Fault}

/-- While slots are only taken, no hazard comes up. -/
theorem Board.Hazard.of_frame (hframe : Frame start b)
    (hfree : ∀ i, b.boundary.isAvailable i → start.boundary.isAvailable i)
    (h : b.Hazard core f) : start.Hazard core f := by
  have hback : ∀ {i : Nat} {s : Slot}, b.boundary.slots[i]? = some s → s.available →
      ∃ s' : Slot, start.boundary.slots[i]? = some s' ∧ s'.available ∧ s'.pos = s.pos ∧
        s'.layer = s.layer := by
    intro i s hs havailable
    have hi : start.boundary.isAvailable i := by
      apply hfree
      rw [Boundary.isAvailable, hs]
      exact havailable
    obtain ⟨s', hs', hpos, hlayer⟩ := hframe.symm.slot hs
    rw [Boundary.isAvailable, hs'] at hi
    exact ⟨s', hs', hi, hpos, hlayer⟩
  cases h with
  | offBoundary hs havailable hoff =>
    obtain ⟨s', hs', havailable', hpos, -⟩ := hback hs havailable
    rw [← hpos] at hoff ⊢
    exact .offBoundary hs' havailable' hoff
  | incomparable hs havailable hnone =>
    obtain ⟨s', hs', havailable', hpos, -⟩ := hback hs havailable
    rw [← hpos] at hnone
    exact .incomparable hs' havailable' hnone
  | nowhere hs havailable himage hnone hlong =>
    obtain ⟨s', hs', havailable', hpos, hlayer⟩ := hback hs havailable
    rw [← hpos] at himage
    simp only [hframe.slotAt?, ← hlayer] at hnone
    rw [← hlayer] at hlong
    exact .nowhere hs' havailable' himage hnone hlong

namespace PinPass

variable {matrix : CostMatrix} {a : Assignment} {mode : Mode} {plan : Plan} {col pin : Nat}

/-- The slot for a partner is looked for in vain, or found, unless there is a hazard. -/
theorem partnerSlot_error {partner slot : Nat} {q : Pin} {s : Slot}
    (hq : b.pins.pin partner = .ok q) (hs : b.boundary.slots[slot]? = some s)
    (hfree : s.available)
    (h : partnerSlot b (some core.reflection) plan partner slot = .error f) :
    b.Hazard core f := by
  unfold partnerSlot at h
  simp only [hq, Boundary.slot_eq_ok.mpr hs, Bind.bind, Except.bind] at h
  split at h
  · cases h
  cases himage : core.reflection s.pos with
  | error f' =>
    have hstopped := (core.stoppedBy_reflection s.pos).of_error himage
    rw [himage] at h
    cases h
    rcases hstopped with ⟨hoff, rfl⟩ | ⟨hnone, rfl⟩
    · exact .offBoundary hs hfree hoff
    · exact .incomparable hs hfree hnone
  | ok image =>
    simp only [himage] at h
    split at h
    · rename_i hnone
      cases hposition : written image.text? with
      | error f' =>
        obtain ⟨hlong, rfl⟩ := (stoppedBy_written image.isSome_text?).of_error hposition
        rw [hposition] at h
        cases h
        exact .nowhere hs hfree himage hnone (by rw [hlong, Bool.false_and])
      | ok position =>
        cases hlayer : written (Text.decimal? s.layer) with
        | error f' =>
          obtain ⟨hlong, rfl⟩ := (stoppedBy_written (Text.isSome_decimal? _)).of_error hlayer
          simp only [hposition, hlayer] at h
          cases h
          exact .nowhere hs hfree himage hnone (by rw [hlong, Bool.and_false])
        | ok layer =>
          simp only [hposition, hlayer] at h
          cases h
    · split at h <;> cases h

section Pass

variable (hmode : mode.mirrored = true) (hreflection : mode.reflection = some core.reflection)
variable (hpartners : ∀ i < b.pins.size, ∃ partner, b.pins.partner i = .ok partner)
variable (hshaped : Shaped b matrix a)

include hmode hreflection hpartners hshaped

theorem planColumn_error (hcol : matrix.columns[col]? = some pin)
    (h : (planColumn b matrix a mode plan (col, pin)).answer = .error f) : b.Hazard core f := by
  have hlt := hshaped.pin pin (List.mem_of_getElem? hcol)
  have hp := PinTable.pin_eq_ok.mpr (Array.getElem?_eq_getElem hlt)
  obtain ⟨partner?, hpartner⟩ := hpartners pin hlt
  simp only [planColumn, hp, Outcome.lift_ok, Outcome.done_andThen] at h
  cases hrow : a.rowOf? col with
  | none =>
    rw [hrow] at h
    cases h
  | some row =>
  obtain ⟨slot, s, cost, hslot, hs, hcell⟩ :=
    hshaped.cell col row (List.getElem?_eq_some_iff.mp hcol).1 hrow
  simp only [hrow, hpartner, Outcome.lift_ok, Outcome.done_andThen] at h
  split at h
  · cases h
  simp only [CostMatrix.rowSlot_eq_ok.mpr hslot, Boundary.slot_eq_ok.mpr hs, Outcome.lift_ok,
    Outcome.done_andThen] at h
  split at h
  · cases h
  rename_i htaken
  simp only [Bool.or_eq_true, not_or, Bool.not_eq_true, Bool.not_eq_false'] at htaken
  cases partner? with
  | none =>
    simp [hmode, hcell] at h
  | some partner =>
    -- The pin and its slot are there, so only the search for the partner's slot can end in a fault.
    obtain ⟨-, name, -, -, hindex⟩ := PinTable.partner_eq_ok.mp hpartner
    obtain ⟨q, hq, -⟩ := PinTable.pin_of_indexOf? hindex
    have hq := PinTable.pin_eq_ok.mpr hq
    simp only [hmode, hreflection] at h
    cases hfound : partnerSlot b (some core.reflection) plan partner slot with
    | error f' =>
      rw [hfound, Outcome.lift_error, Outcome.stop_andThen] at h
      cases h
      exact partnerSlot_error hq hs htaken.2 hfound
    | ok found =>
      rw [hfound, Outcome.lift_ok, Outcome.done_andThen] at h
      cases found with
      | error reason =>
        simp only [hq, Outcome.lift_ok, Outcome.done_andThen] at h
        cases h
      | ok other => simp [hcell] at h

/-- Where failed pairs are tolerated, the pass ends in a fault only at a hazard. -/
theorem run_error (hstrict : mode.strict = false) (h : (run b matrix a mode).answer = .error f) :
    b.Hazard core f := by
  have horigin : mode.origin = .pair := by rw [Mode.origin, if_pos hmode]
  have hpairs : ∀ pin ∈ matrix.columns, pairScope.pins mode.origin pin := fun _ _ => horigin
  unfold run at h
  split at h
  · cases h
  simp only at h
  split at h
  · rename_i hplan
    cases h
    refine Outcome.forEach_error (F := b.Hazard core) (fun plan column hcolumn f hf => ?_) hplan
    obtain ⟨⟨pin, col⟩, hmem, rfl⟩ := List.mem_map.mp hcolumn
    exact planColumn_error hmode hreflection hpartners hshaped
      (List.mem_zipIdx_iff_getElem?.mp hmem) hf
  · have hplan := plan_holds b a hpairs
    simp [carryOut, hplan.forEach_commit, hstrict] at h

end Pass

end PinPass

namespace Run

variable {model : CostModel} {config : Config} {m : Matching} {w : Work} {ms : List Matching}
variable {secs : List Section}

/-- The mirrored pass over one section ends in a fault only at a hazard. -/
theorem mirrorStep_error (hm : m.Placeable w.board)
    (hpartners : ∀ i < w.board.pins.size, ∃ partner, w.board.pins.partner i = .ok partner)
    (hreflection : m.reflection = some core.reflection) (hstrict : m.strict = false)
    (h : (pinStep true m w).answer = .error f) : w.board.Hazard core f := by
  obtain ⟨matrix, a, hfound, hstate, hshaped⟩ := hm.findPins true
  let m' : Matching := { m with matrix, assignment := a }
  let mode : PinPass.Mode := { mirrored := true, strict := m.strict, reflection := m.reflection }
  have hmode : mode.mirrored = true := rfl
  obtain ⟨-, hcommitted⟩ := m'.commitPins_eq w.board true
  cases hpass : (PinPass.run w.board matrix a mode).answer with
  | error f' =>
    have hpass' : ((m.findPins w.board true).state.commitPins w.board true).answer = .error f' := by
      rw [hstate]
      exact hcommitted.trans hpass
    have hstep : (pinStep true m w).answer = .error f' := by
      simp [pinStep, Outcome.mapState, Outcome.andThen, hfound, hpass']
    rw [hstep] at h
    cases h
    exact PinPass.run_error hmode hreflection hpartners hshaped hstrict hpass
  | ok result =>
    have hpass' :
        ((m.findPins w.board true).state.commitPins w.board true).answer = .ok result := by
      rw [hstate]
      exact hcommitted.trans hpass
    rw [(pinStep_of_ok hfound hpass').1] at h
    cases h

/-- Amid a sweep of the mirrored pass: commits have been made since the start, and every section is
as the sweep found it but for what was worked out. -/
def Sweeping (start : Board) (core : Outline) (done rest : List Matching) (w : Work) : Prop :=
  (∃ cs, start.Open cs ∧ w.board = start.takeAll cs) ∧ ∀ m ∈ done ++ rest,
    m.Placeable start ∧ m.reflection = some core.reflection ∧ m.strict = false

theorem Sweeping.step {done rest : List Matching} (h : Sweeping start core done (m :: rest) w)
    (hok : (pinStep true m w).answer = .ok ()) :
    Sweeping start core (done ++ [(pinStep true m w).state.1]) rest (pinStep true m w).state.2 := by
  obtain ⟨⟨cs, hopen, hboard⟩, hms⟩ := h
  obtain ⟨⟨matrix, a, hm'⟩, ds, hds, hnext, -⟩ := pinStep_opens hok
  rw [hboard] at hds hnext
  refine ⟨⟨cs ++ ds, Open.append_iff.mpr ⟨hopen, hds⟩, ?_⟩, fun m' hmem => ?_⟩
  · rw [hnext, takeAll_append]
  · have hall : m' ∈ done ++ m :: rest ∨ m' = (pinStep true m w).state.1 := by
      simp only [List.mem_append, List.mem_cons] at hmem ⊢
      tauto
    rcases hall with hold | rfl
    · exact hms m' hold
    · obtain ⟨hm, hreflection, hstrict⟩ := hms m (by simp)
      rw [hm']
      exact ⟨hm.worked matrix a m.reserved, hreflection, hstrict⟩

theorem Sweeping.error {done rest : List Matching}
    (hpartners : ∀ i < start.pins.size, ∃ partner, start.pins.partner i = .ok partner)
    (h : Sweeping start core done (m :: rest) w) (hf : (pinStep true m w).answer = .error f) :
    start.Hazard core f := by
  obtain ⟨⟨cs, hopen, hboard⟩, hms⟩ := h
  obtain ⟨hm, hreflection, hstrict⟩ := hms m (by simp)
  have hframe : Frame start w.board := hboard ▸ hopen.frame
  refine Hazard.of_frame hframe (fun i hi => ?_)
    (mirrorStep_error (hm.frame hframe) ?_ hreflection hstrict hf)
  · rw [hboard, hopen.isAvailable] at hi
    exact hi.1
  · intro i hi
    rw [hframe.partner]
    exact hpartners i (hframe.size_pins ▸ hi)

/-- All passes go through, but for a hazard of the mirrored pass. -/
theorem passes_answer
    (hpartners : ∀ i < start.pins.size, ∃ partner, start.pins.partner i = .ok partner)
    (config : Config)
    (hms : ∀ m ∈ (opening start model (some core.reflection) secs).1, m.Placeable start) :
    let swept := sweeps (passes start config) (opening start model (some core.reflection) secs)
    swept.answer = .ok () ∨
      ∃ f, swept.answer = .error f ∧ start.pins.mirrors ≠ [] ∧ start.Hazard core f := by
  intro swept
  -- Without mirror pairs the run begins with the later passes, which reflect nothing.
  by_cases hnone : start.pins.mirrors = []
  · have hpasses : passes start config = laterPasses config := by rw [passes_eq, hnone]; rfl
    rw [show swept = _ from congrArg (sweeps · _) hpasses]
    exact .inl (sweeps_finish (laterPasses_finish config) (.refl start) hms)
  have hpasses : passes start config = pinStep true :: laterPasses config := by
    rw [passes_eq, if_neg (by simpa using hnone)]
    rfl
  rw [show swept = _ from congrArg (sweeps · _) hpasses]
  have hopening : Sweeping start core [] (opening start model (some core.reflection) secs).1
      (opening start model (some core.reflection) secs).2 := by
    refine ⟨⟨[], .nil start, rfl⟩, fun m hm => ⟨hms m hm, ?_⟩⟩
    obtain ⟨s, -, rfl⟩ := List.mem_map.mp hm
    exact ⟨rfl, rfl⟩
  cases hswept : (sweep (pinStep true) (opening start model (some core.reflection) secs).1
      (opening start model (some core.reflection) secs).2).answer with
  | error f =>
    refine .inr ⟨f, sweeps_cons_error hswept _, hnone, ?_⟩
    exact sweep_error (fun _ _ _ _ _ hI => hI.error hpartners)
      (fun _ _ _ _ hI hok => hI.step hok) hopening hswept
  | ok _ =>
    obtain ⟨⟨cs, hopen, hboard⟩, hms'⟩ := sweep_reaches (I := Sweeping start core)
      (fun _ _ _ _ hI hok => hI.step hok) hswept hopening
    rw [List.append_nil] at hms'
    refine .inl ((sweeps_cons hswept _).1.trans ?_)
    exact sweeps_finish (laterPasses_finish config) (hboard ▸ hopen.frame)
      fun m hm => (hms' m hm).1

end Run

/-- A run over a declared table gives its verdict, but for a hazard of the mirrored pass or a total
cost that cannot be written. -/
theorem run_answer {board : Board} (hd : board.pins.Declared) {model : CostModel}
    (hmodel : model.Total) (core : Outline) (config : Config) :
    (∃ verdict, (run board model (some core.reflection) config).answer = .ok verdict) ∨
      ∃ f, (run board model (some core.reflection) config).answer = .error f ∧
        (board.pins.mirrors ≠ [] ∧ board.Hazard core f ∨ f = .unwritable ∧
          Text.isWritable
            (Run.gathered board model (some core.reflection) config).totalCost = false) := by
  by_cases hne : board.boundary.sections config.sectionSize = []
  · rw [run_of_nil _ hne]
    exact .inl ⟨_, rfl⟩
  have hsections := Boundary.sections_bounds board.boundary config.sectionSize
  have hdistribute := Distribution.distribute_finishes config hmodel hd.partner_total hne
    fun s hs => (hsections s hs).2
  obtain ⟨-, hanswer⟩ := run_of_distribute (some core.reflection) hne hdistribute
  rw [hanswer, Run.place_answer]
  rcases Run.passes_answer hd.partner_total config
    (Run.opening_placeable hd hmodel hdistribute) with hok | ⟨f, hf, hmirrors, hhazard⟩
  · have hgathered := Run.gathered_of_sections model (some core.reflection) hne
    rw [hok, ← hgathered]
    simp only [Except.bind, Run.conclude_answer]
    cases hcost : written
        (Text.decimal? (Run.gathered board model (some core.reflection) config).totalCost) with
    | ok cost => exact .inl ⟨_, rfl⟩
    | error f =>
      obtain ⟨hlong, rfl⟩ := (stoppedBy_written (Text.isSome_decimal? _)).of_error hcost
      exact .inr ⟨_, rfl, .inr ⟨rfl, hlong⟩⟩
  · rw [hf]
    exact .inr ⟨f, rfl, .inl ⟨hmirrors, hhazard⟩⟩

/-- When a run answers.  Under every configuration a run over a loaded problem ends in a report,
alone or with the mirror pairs that could not be placed.  It ends in a fault only if there are
mirror pairs and their pass meets a hazard, or if the total cost is too long to be written.  And
settings that are accepted lead to such a run, unless the size of sections is a double and there are
slots. -/
theorem run_answers_or_faults {v : Value} {p : Problem} (hload : Problem.ofValue v = .ok p) :
    (∀ config : Config,
      let answer := (run p.board p.model (some p.core.reflection) config).answer
      (∃ report, answer = .ok (.placed report)) ∨
      (∃ failures report, answer = .ok (.mirrorsFailed failures report)) ∨
      ∃ f, answer = .error f ∧
        (p.board.pins.mirrors ≠ [] ∧ p.board.Hazard p.core f ∨ f = .unwritable ∧
          Text.isWritable
            (Run.gathered p.board p.model (some p.core.reflection) config).totalCost = false)) ∧
    ∀ s : Settings, s.validate = .ok s →
      let ended := s.run p.board p.model (some p.core.reflection)
      (∃ config, ended = .ok (run p.board p.model (some p.core.reflection) config)) ∨
      ∃ x, s.sectionSize = .float x ∧ p.board.boundary.size ≠ 0 ∧ ended = .error .wrongType := by
  constructor
  · intro config answer
    rcases run_answer (Problem.ofValue_declared hload) p.model_total p.core config with
      ⟨verdict, hverdict⟩ | hfault
    · cases verdict with
      | placed report => exact .inl ⟨report, hverdict⟩
      | mirrorsFailed failures report => exact .inr (.inl ⟨failures, report, hverdict⟩)
    · exact .inr (.inr hfault)
  · intro s hvalid ended
    exact Settings.run_or_wrongType hvalid _ _ _

/-- A slot in the middle of the core, and a mirror pair. -/
def strayPair : Value :=
  .mapping
    [(.text "core", .mapping
        [(.text "xmin", .int 0), (.text "ymin", .int 0), (.text "xmax", .int 90),
          (.text "ymax", .int 110)]),
      (.text "slots", .list
        [.mapping [(.text "x", .int 50), (.text "y", .int 50), (.text "layer", .int 1)]]),
      (.text "pins", .list
        [.mapping [(.text "name", .text "a"), (.text "mirror", .text "b")],
          .mapping [(.text "name", .text "b")]])]

/-- What is read from `strayPair`. -/
def strayProblem : Problem where
  core := Core.outline { xmin := 0, ymin := 0, xmax := 90, ymax := 110 }
  board :=
    { boundary := { slots := #[⟨⟨50, 50⟩, 1, .invalid, false, false⟩] }
      pins :=
        { pins := #[⟨"a", none, false⟩, ⟨"b", none, false⟩]
          mirrors := [("a", "b"), ("b", "a")] } }
  targets := {}

theorem ofValue_strayPair : Problem.ofValue strayPair = .ok strayProblem := by with_unfolding_all rfl

/-- The pair on opposite slots is placed, and the pair in the middle meets its hazard. -/
theorem run_answers_or_faults_strayPair :
    let config : Config := { usageFactor := { mantissa := 1, scale := 0 } }
    let facing := facingPairProblem 20
    let settings : Settings := { usageFactor := .int 1 }
    (∃ report, (run facing.board facing.model (some facing.core.reflection) config).answer =
      .ok (.placed report)) ∧
    strayProblem.board.Hazard strayProblem.core (.offBoundary ⟨50, 50⟩) ∧
    ∃ config, settings.run strayProblem.board strayProblem.model
      (some strayProblem.core.reflection) = .ok (run strayProblem.board strayProblem.model
        (some strayProblem.core.reflection) config) := by
  intro config facing settings
  have hplaced : ((run facing.board facing.model (some facing.core.reflection) config).answer.map
      fun v => v.fault?.isNone) = .ok true := by decide +kernel
  have hstray : ((run strayProblem.board strayProblem.model (some strayProblem.core.reflection)
      config).answer.map fun _ => ()) = .error (.offBoundary ⟨50, 50⟩) := by decide +kernel
  have hvalid : settings.validate = .ok settings := rfl
  refine ⟨?_, ?_, ?_⟩
  · rcases (run_answers_or_faults (ofValue_facingPair 20)).1 config with
      hreport | ⟨failures, report, hfailed⟩ | ⟨f, hf, -⟩
    · exact hreport
    · rw [hfailed] at hplaced
      cases hplaced
    · rw [hf] at hplaced
      cases hplaced
  · rcases (run_answers_or_faults ofValue_strayPair).1 config with
      ⟨report, hreport⟩ | ⟨failures, report, hfailed⟩ | ⟨f, hf, ⟨-, hhazard⟩ | ⟨rfl, -⟩⟩
    · rw [hreport] at hstray
      cases hstray
    · rw [hfailed] at hstray
      cases hstray
    · rw [hf] at hstray
      cases hstray
      exact hhazard
    · rw [hf] at hstray
      cases hstray
  · rcases (run_answers_or_faults ofValue_strayPair).2 settings hvalid with
      hconfig | ⟨x, hsize, -⟩
    · exact hconfig
    · cases hsize

/-- No verdict is given on a mirror pair whose only slot is off the boundary. -/
theorem run_without_verdict :
    let config : Config := { usageFactor := { mantissa := 1, scale := 0 } }
    let answer :=
      (run strayProblem.board strayProblem.model (some strayProblem.core.reflection) config).answer
    Problem.ofValue strayPair = .ok strayProblem ∧
      (∀ verdict, answer ≠ .ok verdict) ∧ answer = .error (.offBoundary ⟨50, 50⟩) := by
  intro config answer
  have hstray : (answer.map fun _ => ()) = .error (.offBoundary ⟨50, 50⟩) := by decide +kernel
  cases hanswer : answer with
  | error f =>
    rw [hanswer] at hstray
    cases hstray
    exact ⟨ofValue_strayPair, nofun, rfl⟩
  | ok verdict =>
    rw [hanswer] at hstray
    cases hstray

end PinRing
