import PinRing.Placement.Run
import PinRing.Proofs.Outcome
import PinRing.Proofs.Placement.Matching

/-! The steps of a section taken apart: when a step goes through, and what it leaves behind then.
An invariant of a sweep is about the sections that are done and those that are still to come. -/

namespace PinRing

namespace Matching

variable {m : Matching} {built : Except Fault CostMatrix} {matrix : CostMatrix} {a : Assignment}

theorem adopt_of_ok (log : CostMatrix → List LogEntry) (hbuilt : built = .ok matrix)
    (hsolved : solved matrix = .ok a) :
    (m.adopt built log).answer = .ok () ∧
      (m.adopt built log).state = { m with matrix, assignment := a } := by
  simp [adopt, hbuilt, hsolved]

/-- Committing groups is the group pass; the section takes over the room that is left. -/
theorem commitGroups_eq (m : Matching) (board : Board) :
    let pass := GroupPass.run board m.sec m.matrix m.assignment m.blockSize
    let committed := m.commitGroups board
    committed.answer = pass.answer ∧ committed.state.2 = pass.state.1 ∧
      committed.state.1.sec = pass.state.2 ∧ committed.state.1.model = m.model ∧
      committed.state.1.blockSize = m.blockSize := by
  intro pass committed
  simp only [committed, commitGroups]
  cases ha : pass.answer with
  | error f => simp only [Outcome.mapState, Outcome.andThen, pass, ha, and_self]
  | ok result => simp only [Outcome.mapState, Outcome.andThen, pass, ha, and_self]

/-- Groups that are committed leave nothing of what was worked out for them. -/
theorem commitGroups_of_ok {board : Board} {result : PassResult}
    (h : (GroupPass.run board m.sec m.matrix m.assignment m.blockSize).answer = .ok result) :
    let pass := GroupPass.run board m.sec m.matrix m.assignment m.blockSize
    (m.commitGroups board).answer = .ok result ∧ (m.commitGroups board).state =
      ({ m with sec := pass.state.2, matrix := {}, assignment := [], reserved := [] },
        pass.state.1) := by
  simp only [commitGroups, Outcome.mapState, Outcome.andThen, h, and_self]

end Matching

namespace Run

variable {m : Matching} {w : Work} {mirrored : Bool} {result : PassResult} {matrix : CostMatrix}
variable {a : Assignment} {step : SectionStep} {ms : List Matching}

theorem pinStep_of_ok (hfound : (m.findPins w.board mirrored).answer = .ok ())
    (hpass : ((m.findPins w.board mirrored).state.commitPins w.board mirrored).answer =
      .ok result) :
    (pinStep mirrored m w).answer = .ok () ∧
      (pinStep mirrored m w).state = ((m.findPins w.board mirrored).state,
        Work.absorb
          { w with
            board := ((m.findPins w.board mirrored).state.commitPins w.board mirrored).state }
          result) := by
  simp [pinStep, Outcome.mapState, Outcome.andThen, hfound, hpass, Outcome.done]

theorem exists_of_pinStep_ok (h : (pinStep mirrored m w).answer = .ok ()) :
    ∃ result, (m.findPins w.board mirrored).answer = .ok () ∧
      ((m.findPins w.board mirrored).state.commitPins w.board mirrored).answer = .ok result := by
  obtain ⟨_, hfound, h, -⟩ := Outcome.exists_of_andThen_eq_ok h
  obtain ⟨result, hpass, -⟩ := Outcome.exists_of_andThen_eq_ok h
  exact ⟨result, hfound, hpass⟩

/-- Reserving changes nothing but what is reserved. -/
theorem reserveStep_keeps (m : Matching) (w : Work) :
    ∃ reserved, (reserveStep m w).state = ({ m with reserved }, w) := by
  unfold reserveStep
  split
  · exact ⟨m.reserved, rfl⟩
  · obtain ⟨reserved, hm⟩ := m.reserveBlocks_keeps w.board
    exact ⟨reserved, by simp only [Outcome.mapState, hm]⟩

theorem reserveStep_of_ok (hne : m.sec.groups ≠ []) (hmatrix : m.groupMatrix w.board = .ok matrix)
    (hsolved : Matching.solved matrix = .ok a) :
    (reserveStep m w).answer = .ok () ∧ (reserveStep m w).state =
      ({ m with reserved := Matching.blockSlots matrix.rowSlots m.blockSize a }, w) := by
  have hne : m.sec.groups.isEmpty = false := by simpa using hne
  cases hempty : matrix.empty with
  | true =>
    obtain rfl : a = [] := by simpa [Matching.solved, hempty, eq_comm] using hsolved
    simp [reserveStep, hne, Matching.reserveBlocks, hmatrix, hempty, Outcome.mapState,
      Outcome.done, Matching.blockSlots]
  | false =>
    simp [reserveStep, hne, Matching.reserveBlocks, hmatrix, hempty, hsolved, Outcome.mapState]

theorem exists_of_reserveStep_ok (hne : m.sec.groups ≠ [])
    (h : (reserveStep m w).answer = .ok ()) :
    ∃ matrix a, m.groupMatrix w.board = .ok matrix ∧ Matching.solved matrix = .ok a := by
  have hne : m.sec.groups.isEmpty = false := by simpa using hne
  simp only [reserveStep, hne, Bool.false_eq_true, if_false, Outcome.mapState,
    Matching.reserveBlocks] at h
  cases hmatrix : m.groupMatrix w.board with
  | error f => rw [hmatrix] at h; cases h
  | ok matrix =>
    cases hsolved : Matching.solved matrix with
    | ok a => exact ⟨matrix, a, rfl, hsolved⟩
    | error f =>
      -- An empty matrix is solved.
      cases hempty : matrix.empty with
      | true => simp [Matching.solved, hempty] at hsolved
      | false => simp [hmatrix, hempty, hsolved, Outcome.stop] at h

theorem step_of_noGroups (h : m.sec.groups = []) (w : Work) :
    reserveStep m w = .done (m, w) () ∧ groupStep m w = .done (m, w) () := by
  simp [reserveStep, groupStep, h]

theorem groupStep_of_ok (hne : m.sec.groups ≠ []) (hfound : (m.findGroups w.board).answer = .ok ())
    (hpass : ((m.findGroups w.board).state.commitGroups w.board).answer = .ok result) :
    (groupStep m w).answer = .ok () ∧ (groupStep m w).state =
      (((m.findGroups w.board).state.commitGroups w.board).state.1,
        Work.absorb
          { w with board := ((m.findGroups w.board).state.commitGroups w.board).state.2 }
          result) := by
  have hne : m.sec.groups.isEmpty = false := by simpa using hne
  simp [groupStep, hne, Outcome.mapState, Outcome.andThen, hfound, hpass, Outcome.done]

theorem exists_of_groupStep_ok (hne : m.sec.groups ≠ []) (h : (groupStep m w).answer = .ok ()) :
    ∃ result, (m.findGroups w.board).answer = .ok () ∧
      ((m.findGroups w.board).state.commitGroups w.board).answer = .ok result := by
  have hne : m.sec.groups.isEmpty = false := by simpa using hne
  rw [groupStep, hne, if_neg Bool.false_ne_true] at h
  obtain ⟨_, hfound, h, -⟩ := Outcome.exists_of_andThen_eq_ok h
  obtain ⟨result, hpass, -⟩ := Outcome.exists_of_andThen_eq_ok h
  exact ⟨result, hfound, hpass⟩

/-! ### Sweeps -/

/-- A sweep reaches what its steps keep, if none of them is stopped. -/
theorem sweep_reaches {I : List Matching → List Matching → Work → Prop}
    (hstep : ∀ done m rest w, I done (m :: rest) w → (step m w).answer = .ok () →
      I (done ++ [(step m w).state.1]) rest (step m w).state.2)
    (hok : (sweep step ms w).answer = .ok ()) (h : I [] ms w) :
    I (sweep step ms w).state.1 [] (sweep step ms w).state.2 := by
  suffices hrest : ∀ rest done w, (sweep step rest w).answer = .ok () → I done rest w →
      I (done ++ (sweep step rest w).state.1) [] (sweep step rest w).state.2 from
    hrest ms [] w hok h
  intro rest
  induction rest with
  | nil =>
    intro done w _ h
    rwa [sweep, Outcome.done, List.append_nil]
  | cons m rest ih =>
    intro done w hok h
    rw [sweep] at hok ⊢
    cases ha : (step m w).answer with
    | error f => simp only [ha] at hok; cases hok
    | ok _ =>
      simp only [ha] at hok ⊢
      have hall := ih _ _ hok (hstep done m rest w h ha)
      rwa [List.append_assoc] at hall

/-- A sweep whose steps are never stopped while an invariant holds, and keep it. -/
theorem sweep_finishes (step : SectionStep) (ms : List Matching) (w : Work)
    {I : List Matching → List Matching → Work → Prop}
    (hstep : ∀ done m rest w, I done (m :: rest) w → (step m w).answer = .ok () ∧
      I (done ++ [(step m w).state.1]) rest (step m w).state.2) (h : I [] ms w) :
    (sweep step ms w).answer = .ok () ∧
      I (sweep step ms w).state.1 [] (sweep step ms w).state.2 := by
  have hok : (sweep step ms w).answer = .ok () := by
    suffices hrest : ∀ rest done w, I done rest w → (sweep step rest w).answer = .ok () from
      hrest ms [] w h
    intro rest
    induction rest with
    | nil => exact fun _ _ _ => rfl
    | cons m rest ih =>
      intro done w h
      obtain ⟨ha, hnext⟩ := hstep done m rest w h
      simp only [sweep, ha]
      exact ih _ _ hnext
  exact ⟨hok, sweep_reaches (fun done m rest w hs _ => (hstep done m rest w hs).2) hok h⟩

/-- A sweep ends in a fault only if one of its steps does, and the steps before that went
through. -/
theorem sweep_error {I : List Matching → List Matching → Work → Prop} {F : Fault → Prop}
    (hfault : ∀ done m rest w f, I done (m :: rest) w → (step m w).answer = .error f → F f)
    (hstep : ∀ done m rest w, I done (m :: rest) w → (step m w).answer = .ok () →
      I (done ++ [(step m w).state.1]) rest (step m w).state.2)
    (h : I [] ms w) {f : Fault} (hf : (sweep step ms w).answer = .error f) : F f := by
  suffices hrest : ∀ rest done w, I done rest w → (sweep step rest w).answer = .error f → F f from
    hrest ms [] w h hf
  intro rest
  induction rest with
  | nil =>
    intro done w _ hf
    cases hf
  | cons m rest ih =>
    intro done w h hf
    rw [sweep] at hf
    cases ha : (step m w).answer with
    | error f' =>
      simp only [ha] at hf
      exact Except.error.inj hf ▸ hfault done m rest w f' h ha
    | ok _ =>
      simp only [ha] at hf
      exact ih _ _ (hstep done m rest w h ha) hf

/-- What every step keeps of the work a sweep keeps, whether or not it is stopped. -/
theorem sweep_keeps {P : Work → Prop} (hstep : ∀ m w, P w → P (step m w).state.2)
    (h : P w) : P (sweep step ms w).state.2 := by
  induction ms generalizing w with
  | nil => exact h
  | cons m rest ih =>
    rw [sweep]
    cases ha : (step m w).answer with
    | error f => simpa only [ha] using hstep m w h
    | ok _ => simpa only [ha] using ih (hstep m w h)

end Run

end PinRing
