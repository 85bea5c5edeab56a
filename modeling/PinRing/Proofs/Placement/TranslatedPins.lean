import PinRing.Placement.Report
import PinRing.Proofs.Placement.PinPass
import PinRing.Proofs.Placement.Translation

/-! The pass over pins on a board that has been moved.  It makes the same commits, but it writes the
image of a slot into the reason for which a mirror pair fails.  So reasons differ, and where the
image can be written in one place and not in the other, one of the two passes ends there. -/

namespace PinRing

open Outcome

variable {v : Shift}

/-- The failure without its reason. -/
def MirrorFailure.bare (f : MirrorFailure) : MirrorFailure := { f with reason := "" }

/-- The diagnostic without the wording of an error. -/
def Diagnostic.bare (d : Diagnostic) : Diagnostic :=
  match d.severity with
  | .warning => d
  | .error => { d with message := "" }

/-- The result without the reasons of its failures. -/
def PassResult.bare (r : PassResult) : PassResult :=
  { r with diagnostics := r.diagnostics.map (·.bare), failures := r.failures.map (·.bare) }

/-- Some pin is mirrored, and the image of some slot is on no slot and can be written either here
or after everything has been moved by `d`, but not both. -/
def Board.Crosses (b : Board) (reflect reflect' : Reflection) (d : Point) : Prop :=
  b.pins.mirrors ≠ [] ∧ ∃ s ∈ b.boundary.slots, ∃ image image', reflect s.pos = .ok image ∧
    reflect' (s.pos.translate d) = .ok image' ∧
    image.point?.bind (b.boundary.slotAt? · s.layer) = none ∧ image.isWritable ≠ image'.isWritable

abbrev Shift.Crosses (v : Shift) (b : Board) : Prop := b.Crosses v.reflect v.reflect' v.d

theorem Board.Frame.crosses {before after : Board} (h : Board.Frame before after)
    (hcrosses : v.Crosses after) : v.Crosses before := by
  obtain ⟨hmirrors, s, hs, image, image', himage, himage', hnone, hwritable⟩ := hcrosses
  obtain ⟨i, hi⟩ := Array.mem_iff_getElem?.mp hs
  obtain ⟨t, ht, hpos, hlayer⟩ := h.symm.slot hi
  refine ⟨h.mirrors ▸ hmirrors, t, Array.mem_of_getElem? ht, image, image', hpos ▸ himage,
    hpos ▸ himage', ?_, hwritable⟩
  simpa only [hlayer, h.slotAt?] using hnone

theorem PinTable.mirrors_ne_nil {t : PinTable} {i j : Nat} (h : t.partner i = .ok (some j)) :
    t.mirrors ≠ [] := by
  intro hnil
  obtain ⟨p, -, h⟩ := exists_of_bind_eq_ok h
  rw [hnil, List.lookup_nil] at h
  cases h

namespace PinPass

/-- The plans are the same up to the reasons of their failures. -/
structure Plan.Like (p p' : Plan) : Prop where
  commits : p'.commits = p.commits
  diagnostics : p'.diagnostics = p.diagnostics
  failures : p'.failures.map (·.bare) = p.failures.map (·.bare)
  cost : p'.cost = p.cost

variable {plan plan' : Plan}

theorem Plan.Like.hasPin (h : plan.Like plan') (pin : Nat) :
    plan'.hasPin pin = plan.hasPin pin := by
  rw [Plan.hasPin, h.commits, Plan.hasPin]

theorem Plan.Like.hasSlot (h : plan.Like plan') (slot : Nat) :
    plan'.hasSlot slot = plan.hasSlot slot := by
  rw [Plan.hasSlot, h.commits, Plan.hasSlot]

theorem Plan.Like.add (h : plan.Like plan') (name : String) (commits : List Commit) (cost : Cost) :
    (plan.add name commits cost).Like (plan'.add name commits cost) := by
  cases cost with
  | finite v =>
    exact ⟨congrArg (· ++ commits) h.commits, h.diagnostics, h.failures, congrArg (· + v) h.cost⟩
  | infeasible =>
    exact ⟨congrArg (· ++ commits) h.commits, congrArg (· ++ _) h.diagnostics, h.failures, h.cost⟩

theorem Plan.Like.fail (h : plan.Like plan') (pin partner reason reason' : String) :
    Plan.Like { plan with failures := plan.failures ++ [⟨pin, partner, reason⟩] }
      { plan' with failures := plan'.failures ++ [⟨pin, partner, reason'⟩] } := by
  refine ⟨h.commits, h.diagnostics, ?_, h.cost⟩
  rw [List.map_append, List.map_append, h.failures]
  rfl

/-- The same commits join both plans at the same cost. -/
theorem Plan.Like.add_abreast {X : Prop} {d : Point} (h : plan.Like plan')
    {cell cell' : Except Fault Cost} (hcell : Alike d (· = ·) cell cell') (name : String)
    (commits : List Commit) (log log' : Cost → List LogEntry) :
    Abreast d X (fun _ => []) Plan.Like (· = ·)
      ((Outcome.lift plan cell).andThen fun _ cost =>
        { state := plan.add name commits cost, log := log cost, answer := .ok () })
      ((Outcome.lift plan' cell').andThen fun _ cost =>
        { state := plan'.add name commits cost, log := log' cost, answer := .ok () }) := by
  refine .lift_andThen h hcell ?_
  rintro cost _ rfl
  exact .alike ⟨h.add name commits cost, .ok rfl⟩

/-- The image finds the same slot after everything has been moved. -/
theorem slotAt?_of_movesTo {image image' : Image} {d : Point} (h : image.MovesTo image' d)
    (b : Boundary) (layer : Int) :
    image'.point?.bind ((b.translate d).slotAt? · layer) =
      image.point?.bind (b.slotAt? · layer) := by
  rw [show image'.point? = _ from h]
  cases image.point? with
  | none => rfl
  | some p => exact b.slotAt?_translate d p layer

variable (board : Board) (matrix : CostMatrix) (assignment : Assignment)

/-- The partner finds the same slot, or none in both places. -/
inductive SameSlot : Except String Nat → Except String Nat → Prop
  | found (slot : Nat) : SameSlot (.ok slot) (.ok slot)
  | missing (reason reason' : String) : SameSlot (.error reason) (.error reason')

/-- The search for the partner's slot ends alike in both places, unless the image of the slot is too
long to be written in one of them. -/
theorem partnerSlot_abreast (v : Shift) (hmirrors : board.pins.mirrors ≠ [])
    (hplan : plan.Like plan') (partner slot : Nat) :
    let found := partnerSlot board (some v.reflect) plan partner slot
    let found' := partnerSlot (board.translate v.d) (some v.reflect') plan' partner slot
    Alike v.d SameSlot found found' ∨
      v.Crosses board ∧ (found = .error .unwritable ∨ found' = .error .unwritable) := by
  intro found found'
  have hpin : (board.translate v.d).pins.pin partner = _ := board.pins.pin_translate v.d partner
  have hslot : (board.translate v.d).boundary.slot slot = _ :=
    board.boundary.slot_translate v.d slot
  simp only [found, found', partnerSlot, hpin, hslot, hplan.hasPin, hplan.hasSlot]
  cases board.pins.pin partner with
  | error f => exact .inl (.error f)
  | ok q =>
    simp only [Except.map, mapError_ok, bind, Except.bind, q.placed_translate]
    split
    · exact .inl (.ok (.missing _ _))
    cases hs : board.boundary.slot slot with
    | error f => exact .inl (.error f)
    | ok s =>
      have hpos : (s.translate v.d).pos = s.pos.translate v.d := rfl
      have hlayer : (s.translate v.d).layer = s.layer := rfl
      have hreflect := v.reflections s.pos
      simp only [mapError_ok, hpos, hlayer]
      cases himage : v.reflect s.pos <;> cases himage' : v.reflect' (s.pos.translate v.d) <;>
        rw [himage, himage'] at hreflect <;> cases hreflect
      case error.error f => exact .inl (.error f)
      case ok.ok image image' hmoved =>
        have hat : image'.point?.bind ((board.translate v.d).boundary.slotAt? · s.layer) = _ :=
          slotAt?_of_movesTo hmoved board.boundary s.layer
        simp only [hat]
        cases hnone : image.point?.bind (board.boundary.slotAt? · s.layer) with
        | some other =>
          have hfree : (board.translate v.d).boundary.isAvailable other = _ :=
            board.boundary.isAvailable_translate v.d other
          simp only [hfree]
          split
          · exact .inl (.ok (.missing _ _))
          · exact .inl (.ok (.found other))
        | none =>
          -- The reason names the image, and only here do the two searches write a position.
          have hcrosses : image.text?.isSome ≠ image'.text?.isSome → v.Crosses board := by
            rw [image.isSome_text?, image'.isSome_text?]
            exact fun hwritable => ⟨hmirrors, s,
              Array.mem_of_getElem? (Boundary.slot_eq_ok.mp hs), image, image', himage, himage',
              hnone, hwritable⟩
          cases htext : image.text? <;> cases htext' : image'.text? <;>
            simp only [htext, htext', written] at hcrosses ⊢
          · exact .inl (.same rfl)
          · exact .inr ⟨hcrosses (by simp), .inl trivial⟩
          · exact .inr ⟨hcrosses (by simp), .inr trivial⟩
          · cases Text.decimal? s.layer with
            | none => exact .inl (.same rfl)
            | some layer => exact .inl (.ok (.missing _ _))

/-- How a run places pins. -/
abbrev Mode.reflecting (reflect : Reflection) (mirrored : Bool) : Mode :=
  { mirrored, strict := false, reflection := some reflect }

theorem planColumn_abreast (v : Shift) (mirrored : Bool) (column : Nat × Nat)
    (hplan : plan.Like plan') :
    Abreast v.d (v.Crosses board) (fun _ => []) Plan.Like (· = ·)
      (planColumn board matrix assignment (.reflecting v.reflect mirrored) plan column)
      (planColumn (board.translate v.d) matrix assignment (.reflecting v.reflect' mirrored) plan'
        column) := by
  obtain ⟨col, pin⟩ := column
  rw [planColumn, planColumn]
  dsimp only [Mode.reflecting, Mode.origin]
  refine .lift_andThen hplan (.of_map (board.pins.pin_translate v.d pin)) ?_
  rintro p _ rfl
  cases assignment.rowOf? col with
  | none => exact .alike ⟨hplan, .ok rfl⟩
  | some row =>
    have hpartner := Alike.of_mapError (board.pins.partner_translate v.d pin)
    refine .lift_andThen hplan hpartner.with_eq ?_
    rintro partner? _ ⟨rfl, hpartner⟩
    rw [p.placed_translate, hplan.hasPin]
    split
    · exact .alike ⟨hplan, .ok rfl⟩
    refine .lift_andThen hplan (matrix.rowSlot_alike row) ?_
    rintro slot _ rfl
    refine .lift_andThen hplan (.of_map (board.boundary.slot_translate v.d slot)) ?_
    rintro s _ rfl
    have hfree : (s.translate v.d).available = s.available := rfl
    rw [hfree, hplan.hasSlot]
    split
    · exact .alike ⟨hplan, .ok rfl⟩
    have hcell := matrix.cell_alike (d := v.d) row col
    cases mirrored with
    | false => exact hplan.add_abreast hcell p.name _ _ _
    | true =>
      cases partner? with
      | none => exact hplan.add_abreast hcell p.name _ _ _
      | some partner =>
        dsimp only
        have hmirrors := PinTable.mirrors_ne_nil hpartner
        rcases partnerSlot_abreast board v hmirrors hplan partner slot with
          hfound | ⟨hcrosses, hstop | hstop⟩
        · refine .lift_andThen hplan hfound ?_
          rintro _ _ (other | ⟨reason, reason'⟩)
          · exact hplan.add_abreast hcell p.name _ _ _
          · refine .lift_andThen hplan (.of_map (board.pins.pin_translate v.d partner)) ?_
            rintro q _ rfl
            exact .alike ⟨hplan.fail p.name q.name reason reason', .ok rfl⟩
        · exact .first hcrosses (by rw [hstop]; rfl) List.prefix_rfl
        · exact .second hcrosses (by rw [hstop]; rfl) List.prefix_rfl

theorem plan_abreast (v : Shift) (mirrored : Bool) :
    Abreast v.d (v.Crosses board) (fun _ => []) Plan.Like (· = ·)
      (PinPass.plan board matrix assignment (.reflecting v.reflect mirrored))
      (PinPass.plan (board.translate v.d) matrix assignment (.reflecting v.reflect' mirrored)) :=
  .forEach
    (fun _ _ column _ hplan => planColumn_abreast board matrix assignment v mirrored column hplan)
    (fun _ _ _ => List.prefix_rfl) (fun _ _ _ => List.prefix_rfl) ⟨rfl, rfl, rfl, rfl⟩

theorem carryOut_lockstep (v : Shift) (mirrored : Bool) (hplan : plan.Like plan') :
    Lockstep v.d (fun b b' => b' = b.translate v.d) (fun r r' => r'.bare = r.bare)
      (carryOut board (.reflecting v.reflect mirrored) plan)
      (carryOut (board.translate v.d) (.reflecting v.reflect' mirrored) plan') := by
  have hbare : ∀ failures : List MirrorFailure, (failures.map failureDiagnostic).map (·.bare) =
      (failures.map (·.bare)).map fun f => ⟨.error, "", f.pin⟩ := fun failures => by
    rw [List.map_map, List.map_map]
    rfl
  rw [carryOut, carryOut, hplan.commits]
  refine .andThen (.forEach ?_ _ rfl) ?_
  · rintro b _ commit rfl
    exact b.commit_lockstep commit
  · rintro b _ _ _ rfl -
    refine ⟨rfl, .ok ?_⟩
    rw [PassResult.bare, PassResult.bare, List.map_append, List.map_append, hbare, hbare,
      hplan.failures, hplan.diagnostics, hplan.cost]

theorem journal_run (board : Board) (matrix : CostMatrix) (assignment : Assignment) (mode : Mode) :
    board.journal <+: (run board matrix assignment mode).state.journal := by
  have hall : ∀ pin ∈ matrix.columns, Board.Scope.all.pins mode.origin pin := fun _ _ => trivial
  obtain ⟨cs, hmoves, hstate, -⟩ := run_moves board assignment mode hall
  rw [hstate, hmoves.isOpen.journal]
  exact List.prefix_append _ _

/-- The pins go to the same slots. -/
theorem run_abreast (v : Shift) (mirrored : Bool) :
    Abreast v.d (v.Crosses board) (·.journal) (fun b b' => b' = b.translate v.d)
      (fun r r' => r'.bare = r.bare)
      (run board matrix assignment (.reflecting v.reflect mirrored))
      (run (board.translate v.d) matrix assignment (.reflecting v.reflect' mirrored)) := by
  cases hempty : matrix.empty with
  | true =>
    simp only [run, hempty]
    exact .alike (.done rfl rfl)
  | false =>
    -- A plan that is stopped leaves the board as it was.
    have hstopped : ∀ (board : Board) (mode : Mode) (f : Fault),
        (PinPass.plan board matrix assignment mode).answer = .error f →
        (run board matrix assignment mode).state = board ∧
          (run board matrix assignment mode).answer = .error f := fun _ _ _ h => by
      simp [run, hempty, h]
    cases plan_abreast board matrix assignment v mirrored with
    | alike h =>
      obtain ⟨hplan, hanswer⟩ := h
      cases ha : (PinPass.plan board matrix assignment (.reflecting v.reflect mirrored)).answer <;>
        cases ha' : (PinPass.plan (board.translate v.d) matrix assignment
          (.reflecting v.reflect' mirrored)).answer <;>
        rw [ha, ha'] at hanswer <;> cases hanswer
      case error.error f =>
        obtain ⟨hstate, hend⟩ := hstopped _ _ _ ha
        obtain ⟨hstate', hend'⟩ := hstopped _ _ _ ha'
        refine .alike ⟨by rw [hstate', hstate], ?_⟩
        rw [hend, hend']
        exact .error f
      case ok.ok =>
        have hcarry := carryOut_lockstep board v mirrored hplan
        simp only [run, hempty, ha, ha']
        exact .alike ⟨hcarry.state, hcarry.answer⟩
    | first hcrosses hstop =>
      obtain ⟨hstate, hend⟩ := hstopped _ _ _ hstop
      refine .first hcrosses hend ?_
      rw [hstate]
      exact journal_run (board.translate v.d) _ _ _
    | second hcrosses hstop =>
      obtain ⟨hstate, hend⟩ := hstopped _ _ _ hstop
      refine .second hcrosses hend ?_
      rw [hstate]
      exact journal_run board _ _ _

end PinPass

end PinRing
