import PinRing.Proofs.Board.Takes
import PinRing.Proofs.Placement.MirrorPass

/-! The two phases of the pin pass, for any matrix and any assignment.  A fault that comes up while
the pass plans leaves the board as it was.  A plan that is complete is carried out whole: its pins
were free and go to free slots, each pin of the mirrored pass together with its partner. -/

namespace PinRing.PinPass

open Board

/-- A pin that goes to a slot, and its partner where the two go together. -/
structure Entry where
  primary : Commit
  partner : Option Commit := none

def Entry.commits (e : Entry) : List Commit := e.primary :: e.partner.toList

/-- The partner of the pin goes along, to the slot on which the pin's own slot is reflected. -/
def Entry.Reflected (board : Board) (reflection : Option Reflection) (e : Entry) : Prop :=
  ∃ d reflect s t, e.partner = some d ∧ board.pins.partner e.primary.pin = .ok (some d.pin) ∧
    reflection = some reflect ∧ board.boundary.slots[e.primary.slot]? = some s ∧
    board.boundary.slots[d.slot]? = some t ∧ reflect.Sends s.pos t.pos ∧ t.layer = s.layer

/-- What a pass over the pins `columns` has planned: the placements in order, and the pairs that
have failed. -/
structure Staged (board : Board) (mode : Mode) (columns : List Nat) (entries : List Entry)
    (failures : List MirrorFailure) : Prop where
  primary_mem : ∀ e ∈ entries, e.primary.pin ∈ columns
  pins_nodup : ((entries.flatMap Entry.commits).map (·.pin)).Nodup
  unplaced : ∀ c ∈ entries.flatMap Entry.commits, ¬board.pins.isPlaced c.pin
  regular : mode.mirrored = false → failures = [] ∧ ∀ e ∈ entries, e.partner = none
  mirrored : mode.mirrored = true → ∀ e ∈ entries, e.Reflected board mode.reflection
  failed : ∀ f ∈ failures, ∃ i ∈ columns, f.Names board.pins i ∧ ∀ e ∈ entries, e.primary.pin ≠ i

variable {board : Board} {matrix : CostMatrix} {assignment : Assignment} {mode : Mode} {plan : Plan}
variable {columns : List Nat} {entries : List Entry} {failures : List MirrorFailure} {col pin : Nat}

theorem Staged.nil (board : Board) (mode : Mode) (columns : List Nat) :
    Staged board mode columns [] [] :=
  ⟨nofun, .nil, nofun, fun _ => ⟨rfl, nofun⟩, fun _ => nofun, nofun⟩

theorem Staged.skip (h : Staged board mode columns entries failures) (pin : Nat) :
    Staged board mode (columns ++ [pin]) entries failures :=
  { h with
    primary_mem := fun e he => List.mem_append_left _ (h.primary_mem e he)
    failed := fun f hf =>
      let ⟨i, hi, hrest⟩ := h.failed f hf
      ⟨i, List.mem_append_left _ hi, hrest⟩ }

/-- A pin that has not come up before fails. -/
theorem Staged.fail (h : Staged board mode columns entries failures)
    (hmode : mode.mirrored = true) (hfresh : pin ∉ columns) {f : MirrorFailure}
    (hf : f.Names board.pins pin) :
    Staged board mode (columns ++ [pin]) entries (failures ++ [f]) := by
  have hskip := h.skip pin
  refine { hskip with regular := fun hregular => ?_, failed := fun g hg => ?_ }
  · rw [hmode] at hregular
    cases hregular
  · rcases List.mem_append.mp hg with hg | hg
    · exact hskip.failed g hg
    · obtain rfl := List.mem_singleton.mp hg
      refine ⟨pin, List.mem_append_right _ (List.mem_singleton_self pin), hf, fun e he heq => ?_⟩
      exact hfresh (heq ▸ h.primary_mem e he)

/-- A pin that has not come up before is planned, with or without its partner. -/
theorem Staged.add (h : Staged board mode columns entries failures) {e : Entry}
    (hfresh : e.primary.pin ∉ columns)
    (hnodup : (e.commits.map (·.pin)).Nodup)
    (hnew : ∀ c ∈ e.commits, ¬board.pins.isPlaced c.pin ∧
      c.pin ∉ (entries.flatMap Entry.commits).map (·.pin))
    (hregular : mode.mirrored = false → e.partner = none)
    (hmirrored : mode.mirrored = true → e.Reflected board mode.reflection) :
    Staged board mode (columns ++ [e.primary.pin]) (entries ++ [e]) failures := by
  have hcommits : (entries ++ [e]).flatMap Entry.commits =
      entries.flatMap Entry.commits ++ e.commits := by simp
  constructor
  · refine List.forall_mem_append.mpr ⟨(h.skip _).primary_mem, ?_⟩
    exact List.forall_mem_singleton.mpr (List.mem_append_right _ (List.mem_singleton_self _))
  · rw [hcommits, List.map_append]
    refine h.pins_nodup.append hnodup fun i hi hi' => ?_
    obtain ⟨c, hc, rfl⟩ := List.mem_map.mp hi'
    exact (hnew c hc).2 hi
  · rw [hcommits]
    exact List.forall_mem_append.mpr ⟨h.unplaced, fun c hc => (hnew c hc).1⟩
  · intro hmode
    obtain ⟨hnone, halone⟩ := h.regular hmode
    exact ⟨hnone, List.forall_mem_append.mpr
      ⟨halone, List.forall_mem_singleton.mpr (hregular hmode)⟩⟩
  · intro hmode
    exact List.forall_mem_append.mpr
      ⟨h.mirrored hmode, List.forall_mem_singleton.mpr (hmirrored hmode)⟩
  · intro f hf
    obtain ⟨i, hi, hnames, hother⟩ := h.failed f hf
    refine ⟨i, List.mem_append_left _ hi, hnames, List.forall_mem_append.mpr ⟨hother, ?_⟩⟩
    exact List.forall_mem_singleton.mpr fun heq => hfresh (heq ▸ hi)

/-- One column keeps a plan staged. -/
theorem Staged.planned {next : Plan} (hself : ∀ i, board.pins.partner i ≠ .ok (some i))
    (h : Staged board mode columns entries plan.failures)
    (hcommits : plan.commits = entries.flatMap Entry.commits) (hfresh : pin ∉ columns)
    (hnext : Planned board matrix assignment mode plan col pin next) :
    ∃ entries', next.commits = entries'.flatMap Entry.commits ∧
      Staged board mode (columns ++ [pin]) entries' next.failures := by
  -- A pin that is neither placed nor planned is new.
  have hnew : ∀ {i : Nat} {p : Pin}, board.pins.pin i = .ok p → p.placed = false →
      plan.hasPin i = false →
      ¬board.pins.isPlaced i ∧ i ∉ (entries.flatMap Entry.commits).map (·.pin) := by
    intro i p hi hunplaced hout
    rw [PinTable.isPlaced_of_pin hi, hunplaced, ← hcommits, ← Plan.hasPin_iff, hout]
    exact ⟨Bool.false_ne_true, Bool.false_ne_true⟩
  cases hnext with
  | skipped => exact ⟨entries, hcommits, h.skip pin⟩
  | @failed p q partner row slot reason mirrored matched partnered at_partner refused =>
    refine ⟨entries, hcommits, h.fail mirrored hfresh ⟨partner, p, q, partnered, ?_, ?_, rfl, rfl⟩⟩
    · exact PinTable.pin_eq_ok.mp matched.at_pin
    · exact PinTable.pin_eq_ok.mp at_partner
  | @single p row slot cost regular matched cell =>
    let e : Entry := { primary := ⟨pin, slot, .single⟩ }
    refine ⟨entries ++ [e], by simp [hcommits, e, Entry.commits], ?_⟩
    rw [Plan.failures_add]
    refine h.add (e := e) hfresh (List.nodup_singleton pin) ?_ (fun _ => rfl) fun hmirrored => ?_
    · exact List.forall_mem_singleton.mpr (hnew matched.at_pin matched.unplaced matched.pin_fresh)
    · rw [regular] at hmirrored
      cases hmirrored
  | @pair p q partner row slot other cost reflect s image mirrored matched partnered reflects
      cell =>
    let e : Entry := { primary := ⟨pin, slot, .pair⟩, partner := some ⟨partner, other, .pair⟩ }
    have hne : pin ≠ partner := by
      rintro rfl
      exact hself pin partnered
    obtain ⟨t, ht, rfl, hlayer⟩ := Boundary.slot_of_slotAt? reflects.at_image
    refine ⟨entries ++ [e], by simp [hcommits, e, Entry.commits], ?_⟩
    rw [Plan.failures_add]
    refine h.add (e := e) hfresh ?_ ?_ (fun hregular => ?_) fun _ => ?_
    · simpa [e, Entry.commits] using hne
    · exact List.forall_mem_cons.mpr
        ⟨hnew matched.at_pin matched.unplaced matched.pin_fresh, List.forall_mem_singleton.mpr
          (hnew reflects.at_pin reflects.unplaced reflects.pin_fresh)⟩
    · rw [mirrored] at hregular
      cases hregular
    · exact ⟨_, reflect, s, t, rfl, partnered, reflects.given,
        Boundary.slot_eq_ok.mp reflects.at_slot, ht, reflects.reflected, hlayer⟩

theorem plan_staged (hself : ∀ i, board.pins.partner i ≠ .ok (some i))
    (hcolumns : matrix.columns.Nodup)
    (hok : (PinPass.plan board matrix assignment mode).answer = .ok ()) :
    ∃ entries, (PinPass.plan board matrix assignment mode).state.commits =
        entries.flatMap Entry.commits ∧
      Staged board mode matrix.columns entries
        (PinPass.plan board matrix assignment mode).state.failures := by
  have hitems : (matrix.columns.zipIdx.map Prod.swap).map Prod.snd = matrix.columns := by
    rw [List.map_map]
    exact List.zipIdx_map_fst 0 matrix.columns
  let P (done : List (Nat × Nat)) (plan : Plan) : Prop :=
    ∃ entries, plan.commits = entries.flatMap Entry.commits ∧
      Staged board mode (done.map Prod.snd) entries plan.failures
  have hstart : P [] {} := ⟨[], rfl, .nil board mode []⟩
  have hall := Outcome.forEach_reaches (P := P) ?_ hok hstart
  · obtain ⟨entries, hcommits, hstaged⟩ := hall
    refine ⟨entries, hcommits, ?_⟩
    rw [← hitems]
    exact hstaged
  rintro done ⟨col, pin⟩ plan hpre ⟨entries, hcommits, hstaged⟩ -
  have hnodup : (done.map Prod.snd ++ [pin]).Nodup := by
    have hprefix : (done ++ [(col, pin)]).map Prod.snd <+:
        (matrix.columns.zipIdx.map Prod.swap).map Prod.snd := hpre.map Prod.snd
    rw [hitems, List.map_append] at hprefix
    exact hcolumns.sublist hprefix.sublist
  have hfresh : pin ∉ done.map Prod.snd := fun hmem =>
    (List.nodup_append.mp hnodup).2.2 pin hmem pin (List.mem_singleton_self pin) rfl
  simp only [P, List.map_append]
  exact hstaged.planned hself hcommits hfresh
    (planColumn_planned board matrix assignment mode plan col pin)

/-- The two modes of dealing with failed pairs differ in the answer only. -/
theorem run_strict (board : Board) (matrix : CostMatrix) (assignment : Assignment) (mode : Mode) :
    let ran := run board matrix assignment mode
    let lenient := run board matrix assignment { mode with strict := false }
    ran.state = lenient.state ∧ ran.log = lenient.log ∧
      ran.answer = lenient.answer.bind fun result =>
        if mode.strict && !result.failures.isEmpty then .error (.unplacedMirrors result.failures)
        else .ok result := by
  intro ran lenient
  simp only [ran, lenient, run]
  split
  · exact ⟨rfl, rfl, by simp [Outcome.done, Except.bind]⟩
  · have hplan : PinPass.plan board matrix assignment { mode with strict := false } =
        PinPass.plan board matrix assignment mode := rfl
    rw [hplan]
    cases (PinPass.plan board matrix assignment mode).answer with
    | error f => exact ⟨rfl, rfl, rfl⟩
    | ok _ =>
      simp only [carryOut]
      let done := Outcome.forEach Board.commit board
        (PinPass.plan board matrix assignment mode).state.commits
      cases hdone : done.answer with
      | error f =>
        rw [Outcome.andThen_of_error hdone, Outcome.andThen_of_error hdone]
        exact ⟨rfl, rfl, rfl⟩
      | ok _ =>
        rw [Outcome.andThen_of_ok hdone, Outcome.andThen_of_ok hdone]
        exact ⟨rfl, rfl, by simp [Except.bind]⟩

/-- The pin pass over any matrix without repeated columns, and any assignment, where no pin is its
own partner: a fault while it plans changes nothing, and otherwise it has carried out a plan, with
the failed pairs as a fault in strict mode.  Whether it is strict does not change what it does. -/
theorem run_two_phase (hself : ∀ i, board.pins.partner i ≠ .ok (some i))
    (hcolumns : matrix.columns.Nodup) (assignment : Assignment) (mode : Mode) :
    let ran := run board matrix assignment mode
    let lenient := run board matrix assignment { mode with strict := false }
    ((∃ f, ran.answer = .error f ∧ ran.state = board) ∨
      ∃ entries failures, Staged board mode matrix.columns entries failures ∧
        board.Open (entries.flatMap Entry.commits) ∧
        Takes mode.origin board ran.state (entries.flatMap Entry.commits) ∧
        ((∃ result, ran.answer = .ok result ∧
            result.commits = entries.flatMap Entry.commits ∧ result.failures = failures) ∨
          mode.strict = true ∧ failures ≠ [] ∧ ran.answer = .error (.unplacedMirrors failures))) ∧
      ran.state = lenient.state ∧
      ran.answer = lenient.answer.bind fun result =>
        if mode.strict && !result.failures.isEmpty then .error (.unplacedMirrors result.failures)
        else .ok result := by
  intro ran lenient
  obtain ⟨hstate, -, hanswer⟩ := run_strict board matrix assignment mode
  refine ⟨?_, hstate, hanswer⟩
  clear hstate hanswer lenient
  by_cases hempty : matrix.empty = true
  · refine .inr ⟨[], [], .nil board mode _, .nil board, ?_, .inl ⟨{}, ?_, rfl, rfl⟩⟩
    · simp only [ran, run, if_pos hempty]
      exact .nil mode.origin board
    · simp only [ran, run, if_pos hempty]
      rfl
  cases hplan : (PinPass.plan board matrix assignment mode).answer with
  | error f =>
    -- The plan is made on the board as it was, and nothing of it is carried out.
    refine .inl ⟨f, ?_, ?_⟩ <;> simp only [ran, run, if_neg hempty, hplan]
  | ok _ =>
    obtain ⟨entries, hcommits, hstaged⟩ := plan_staged hself hcolumns hplan
    have hholds : Plan.Holds .all board mode (PinPass.plan board matrix assignment mode).state :=
      plan_holds board assignment fun _ _ => trivial
    have hopen := hholds.moves.isOpen
    have horigin := hholds.origin
    have hrun : ran.state = board.takeAll (entries.flatMap Entry.commits) ∧ ran.answer =
        (carryOut board mode (PinPass.plan board matrix assignment mode).state).answer := by
      simp only [ran, run, if_neg hempty, hplan, ← hcommits]
      exact ⟨hholds.carryOut_eq.1, trivial⟩
    rw [hcommits] at hopen horigin
    refine .inr ⟨entries, _, hstaged, hopen, ?_, ?_⟩
    · rw [hrun.1]
      exact hopen.takes horigin hstaged.pins_nodup
    · rw [hrun.2, carryOut, hholds.forEach_commit, Outcome.done_andThen]
      split
      · rename_i hstrict
        simp only [Bool.and_eq_true, Bool.not_eq_true', List.isEmpty_eq_false_iff] at hstrict
        exact .inr ⟨hstrict.1, hstrict.2, rfl⟩
      · exact .inl ⟨_, rfl, hcommits, rfl⟩

/-- Two pairs on three slots, only one of which has its mirror slot. -/
def oneFacing : Board :=
  let slot (x y : Int) (edge : Edge) : Slot := { pos := ⟨x, y⟩, layer := 0, edge }
  { boundary := { slots := #[slot 10 0 .bottom, slot 20 0 .bottom, slot 10 45 .top] }
    pins :=
      { pins := #[{ name := "a" }, { name := "b" }, { name := "c" }, { name := "d" }]
        mirrors := [("a", "b"), ("b", "a"), ("c", "d"), ("d", "c")] } }

theorem run_two_phase_oneFacing :
    let core : Outline := Core.outline { xmin := 0, ymin := 0, xmax := 55, ymax := 45 }
    let mode : Mode := { mirrored := true, reflection := some core.reflection }
    let cost : Cost := .finite 7
    let matrix : CostMatrix :=
      { cells := [[cost, cost], [cost, cost]], rowSlots := [0, 1], columns := [0, 2] }
    let ran := run oneFacing matrix [some 0, some 1] mode
    (∀ i, oneFacing.pins.partner i ≠ .ok (some i)) ∧ matrix.columns.Nodup ∧
      Takes .pair oneFacing ran.state [⟨0, 0, .pair⟩, ⟨1, 2, .pair⟩] ∧
      ran.answer.map (fun _ => ()) = .error (.unplacedMirrors [⟨"c", "d",
        "mirrored position (20, 45) at layer 0 is not a valid position for pin placement"⟩]) := by
  intro core mode cost matrix ran
  have hself : ∀ i, oneFacing.pins.partner i ≠ .ok (some i) := by
    intro i hi
    obtain ⟨p, _, hp, -⟩ := PinTable.partner_eq_ok.mp hi
    have hlt : i < 4 := (Array.getElem?_eq_some_iff.mp hp).1
    have hnone : ∀ i < 4, oneFacing.pins.partner i ≠ .ok (some i) := by decide +kernel
    exact hnone i hlt hi
  have hcolumns : matrix.columns.Nodup := by decide
  have hjournal : ran.state.journal = [⟨0, 0, .pair⟩, ⟨1, 2, .pair⟩] := by decide +kernel
  refine ⟨hself, hcolumns, ?_, by decide +kernel⟩
  rcases (run_two_phase hself hcolumns [some 0, some 1] mode).1 with
    ⟨f, -, hstate⟩ | ⟨entries, failures, -, -, htakes, -⟩
  · have hstate : ran.state = oneFacing := hstate
    rw [hstate] at hjournal
    cases hjournal
  · have hcommits : entries.flatMap Entry.commits = ran.state.journal := htakes.journal.symm
    rwa [hcommits, hjournal] at htakes

end PinRing.PinPass
