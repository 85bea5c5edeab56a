import PinRing.Placement.Distribution
import PinRing.Placement.Matching
import PinRing.Proofs.Cost.Translation
import PinRing.Proofs.Lockstep

/-! The parts of a run on a board that has been moved: the distribution, the matrices with their
assignments, and the passes over groups.  They ask nothing about where the board lies, so they go in
lockstep with those on the board as it was. -/

namespace PinRing

open Outcome

variable {model model' : CostModel} {d : Point}

def Share.translate (s : Share) (d : Point) : Share := { s with middle := s.middle.translate d }

/-! ### Distribution -/

namespace Distribution

variable (b : Boundary) (pins : PinTable) (config : Config)

theorem middle_translate (s : Section) :
    middle (b.translate d) s = ((middle b s).map (·.translate d)).mapError (·.translate d) := by
  rw [middle, b.free_translate, middle]
  cases (b.free s.first s.stop)[(b.free s.first s.stop).length / 2]? with
  | none => rfl
  | some i =>
    simp only [b.slot_translate]
    cases b.slot i <;> rfl

theorem prepare_lockstep (secs : List Section) :
    Lockstep d (· = ·) (fun shares shares' => shares' = shares.map (·.translate d))
      (prepare b config secs) (prepare (b.translate d) config secs) := by
  induction secs with
  | nil => exact .done rfl rfl
  | cons s rest ih =>
    rw [prepare, prepare, middle_translate]
    cases middle b s with
    | error f => exact ⟨rfl, .error f⟩
    | ok mid =>
      exact ⟨congrArg (_ :: ·) ih.state, ih.answer.map fun _ _ h => congrArg (_ :: ·) h⟩

theorem modify_translate {give : Share → Share}
    (h : ∀ s, give (s.translate d) = (give s).translate d) (shares : List Share) (i : Nat) :
    (shares.map (·.translate d)).modify i give = (shares.modify i give).map (·.translate d) := by
  refine List.ext_getElem? fun j => ?_
  rw [List.getElem?_modify, List.getElem?_map, List.getElem?_map, List.getElem?_modify]
  cases shares[j]? with
  | none => split <;> rfl
  | some s =>
    split
    · exact congrArg some (h s)
    · rfl

theorem hasCapacity_translate (shares : List Share) (size : Int) :
    hasCapacity (shares.map (·.translate d)) size = hasCapacity shares size := by
  funext i
  rw [hasCapacity, List.getElem?_map, Option.any_map]
  rfl

theorem prices_translate {β : Type} {price price' : Point → Except Fault β} (shares : List Share)
    (h : ∀ p, price' (p.translate d) = (price p).mapError (·.translate d)) :
    (shares.map (·.translate d)).mapM (fun s => price' s.middle) =
      (shares.mapM fun s => price s.middle).mapError (·.translate d) := by
  rw [List.mapM_map]
  exact mapM_mapError (fun s => h s.middle) shares

theorem distributeGroup_lockstep (h : model.MovesTo model' d) (shares : List Share)
    (g : PinGroup) :
    Lockstep d (fun l l' => l' = l.map (·.translate d)) (· = ·)
      (distributeGroup pins model shares g)
      (distributeGroup (pins.translate d) model' (shares.map (·.translate d)) g) := by
  rw [distributeGroup, distributeGroup, funext (pins.isPlaced_translate d)]
  split
  · exact .done rfl rfl
  have hprices := prices_translate shares (h.groupCost g.members)
  refine .lift_andThen rfl (.of_mapError hprices) ?_
  rintro costs _ rfl
  rw [hasCapacity_translate]
  cases bestWhere (hasCapacity shares g.size) costs with
  | none => exact ⟨rfl, .ok rfl⟩
  | some i => exact .done (modify_translate (fun _ => rfl) shares i) rfl

def PinProgress.translate (p : PinProgress) (d : Point) : PinProgress :=
  { p with shares := p.shares.map (·.translate d) }

theorem distributePin_lockstep (h : model.MovesTo model' d) (p : PinProgress) (pin : Nat) :
    Lockstep d (fun p p' => p' = p.translate d) (· = ·)
      (distributePin pins model p pin)
      (distributePin (pins.translate d) model' (p.translate d) pin) := by
  rw [distributePin, distributePin]
  refine .lift_andThen rfl (.of_map (pins.pin_translate d pin)) ?_
  rintro entry _ rfl
  rw [entry.placed_translate]
  have hgrouped : (entry.translate d).grouped = entry.grouped := rfl
  have hfollowers : (p.translate d).followers = p.followers := rfl
  rw [hgrouped, hfollowers]
  split
  · exact .done rfl rfl
  refine .lift_andThen rfl (.of_mapError (pins.partner_translate d pin)) ?_
  rintro partner _ rfl
  have hprices := prices_translate p.shares (h pin)
  refine .lift_andThen rfl (.of_mapError hprices) ?_
  rintro costs _ rfl
  have hshares : (p.translate d).shares = p.shares.map (·.translate d) := rfl
  rw [hshares, hasCapacity_translate]
  cases (bestWhere (hasCapacity p.shares 1) costs).or (bestWhere (fun _ => true) costs) with
  | none => exact ⟨rfl, .same rfl⟩
  | some i =>
    exact ⟨congrArg (PinProgress.mk · _) (modify_translate (fun _ => rfl) p.shares i), .ok rfl⟩

end Distribution

open PinRing.Distribution in
/-- The sections get the same pins and groups. -/
theorem distribute_lockstep (board : Board) (h : model.MovesTo model' d) (config : Config)
    (secs : List Section) :
    Lockstep d (· = ·) (· = ·) (distribute board model config secs)
      (distribute (board.translate d) model' config secs) := by
  have hgroups : ∀ shares : List Share, Lockstep d (fun l l' => l' = l.map (·.translate d)) (· = ·)
      (forEach (distributeGroup board.pins model) shares board.pins.groups)
      (forEach (distributeGroup (board.pins.translate d) model') (shares.map (·.translate d))
        board.pins.groups) := fun shares => by
    refine .forEach ?_ _ rfl
    rintro shares _ g rfl
    exact distributeGroup_lockstep board.pins h shares g
  have hpins : ∀ shares : List Share, Lockstep d (fun l l' => l' = l.map (·.translate d)) (· = ·)
      ((forEach (distributePin board.pins model) { shares }
        (List.range board.pins.size)).mapState (·.shares))
      ((forEach (distributePin (board.pins.translate d) model')
        { shares := shares.map (·.translate d) }
        (List.range (board.pins.translate d).size)).mapState (·.shares)) := fun shares => by
    rw [board.pins.size_translate]
    refine .mapState (R := fun p p' => p' = p.translate d) (.forEach ?_ _ rfl) ?_
    · rintro p _ pin rfl
      exact distributePin_lockstep board.pins h p pin
    · rintro p _ rfl
      rfl
  refine (prepare_lockstep board.boundary config secs).andThen ?_
  rintro _ _ shares _ - rfl
  refine .mapState ((hgroups shares).andThen ?_) ?_
  · rintro shares _ _ _ rfl -
    exact (hpins shares).andThen fun _ _ _ _ hshares _ => ⟨hshares, .ok rfl⟩
  · rintro shares _ rfl
    rw [List.map_map]
    rfl

/-! ### Groups -/

theorem CostMatrix.rowSlot_alike (matrix : CostMatrix) (row : Nat) :
    Alike d (· = ·) (matrix.rowSlot row) (matrix.rowSlot row) := by
  rw [rowSlot]
  split
  · exact .ok rfl
  · exact .same rfl

theorem CostMatrix.cell_alike (matrix : CostMatrix) (row col : Nat) :
    Alike d (· = ·) (matrix.cell row col) (matrix.cell row col) := by
  rw [cell]
  split
  · exact .ok rfl
  · exact .same rfl

theorem Board.commit_lockstep (b : Board) (c : Commit) :
    Lockstep d (fun b b' => b' = b.translate d) (· = ·) (b.commit c)
      ((b.translate d).commit c) := by
  have hslot : (b.translate d).boundary.slots[c.slot]? = _ :=
    b.boundary.getElem?_translate d c.slot
  have hpin : (b.translate d).pins.pins[c.pin]? = _ := b.pins.getElem?_translate d c.pin
  rw [commit, commit, hslot, hpin]
  cases b.boundary.slots[c.slot]? with
  | none => exact ⟨rfl, .same rfl⟩
  | some s =>
    cases b.pins.pins[c.pin]? with
    | none => exact ⟨rfl, .same rfl⟩
    | some p =>
      have huse := b.boundary.use_translate d c.slot
      have hplace := b.pins.place_translate d c.pin ⟨s.pos, s.layer⟩
      exact .done (congrFun (congr (congrArg Board.mk huse) hplace) (b.journal ++ [c])) rfl

namespace GroupPass

def Progress.translate (p : Progress) (d : Point) : Progress :=
  { p with board := p.board.translate d }

theorem commitMember_lockstep (p : Progress) (c : Commit) :
    Lockstep d (fun p p' => p' = p.translate d) (· = ·) (commitMember p c)
      (commitMember (p.translate d) c) := by
  have hcommit : Lockstep d (fun p p' => p' = p.translate d) (· = ·)
      ((p.board.commit c).mapState fun board => { p with board })
      (((p.board.translate d).commit c).mapState fun board => { p.translate d with board }) := by
    refine .mapState (p.board.commit_lockstep c) ?_
    rintro b _ rfl
    rfl
  refine hcommit.andThen ?_
  rintro q _ _ _ rfl -
  exact .done (congrArg (Progress.mk · _ _) (q.board.block_translate d c.slot)) rfl

theorem placeGroup_lockstep (matrix : CostMatrix) (assignment : Assignment) (p : Progress)
    (column : PinGroup × Nat) :
    Lockstep d (fun p p' => p' = p.translate d) (· = ·) (placeGroup matrix assignment p column)
      (placeGroup matrix assignment (p.translate d) column) := by
  obtain ⟨g, col⟩ := column
  rw [placeGroup, placeGroup]
  dsimp only
  cases assignment.rowOf? col with
  | none => exact ⟨rfl, .ok rfl⟩
  | some row =>
    refine .lift_andThen rfl (matrix.rowSlot_alike row) ?_
    rintro start _ rfl
    refine .lift_andThen rfl (matrix.cell_alike row col) ?_
    rintro cost _ rfl
    have hmembers : ∀ q q' : Progress, q' = q.translate d →
        Lockstep d (fun p p' => p' = p.translate d) (· = ·)
          (forEach commitMember q (layout g q.sec.edge start))
          (forEach commitMember q' (layout g q'.sec.edge start)) := by
      rintro q _ rfl
      refine .forEach ?_ _ rfl
      rintro q _ c rfl
      exact commitMember_lockstep q c
    cases cost with
    | finite v => exact .andThen (.done rfl rfl) fun _ _ _ _ hnext _ => hmembers _ _ hnext
    | infeasible => exact .andThen ⟨rfl, .ok rfl⟩ fun _ _ _ _ hnext _ => hmembers _ _ hnext

/-- Groups go to the same blocks. -/
theorem run_lockstep (board : Board) (sec : Section) (matrix : CostMatrix)
    (assignment : Assignment) (blockSize : Int) :
    Lockstep d (fun s s' => s' = (s.1.translate d, s.2)) (· = ·)
      (run board sec matrix assignment blockSize)
      (run (board.translate d) sec matrix assignment blockSize) := by
  rw [run, run]
  split
  · exact .done rfl rfl
  have hgroups : Lockstep d (fun p p' => p' = p.translate d) (· = ·)
      (forEach (placeGroup matrix assignment) { board, sec } sec.groups.zipIdx)
      (forEach (placeGroup matrix assignment) { board := board.translate d, sec }
        sec.groups.zipIdx) := by
    refine .forEach ?_ _ rfl
    rintro p _ column rfl
    exact placeGroup_lockstep matrix assignment p column
  generalize forEach (placeGroup matrix assignment) { board, sec } sec.groups.zipIdx = o
    at hgroups ⊢
  generalize forEach (placeGroup matrix assignment) { board := board.translate d, sec }
    sec.groups.zipIdx = o' at hgroups ⊢
  obtain ⟨state, log, answer⟩ := o
  obtain ⟨state', log', answer'⟩ := o'
  obtain ⟨rfl, hanswer⟩ := hgroups
  cases hanswer with
  | ok _ => exact ⟨rfl, .ok rfl⟩
  | error f => exact ⟨rfl, .error f⟩

end GroupPass

/-! ### Matchings -/

/-- The second reflection does, after everything has been moved by `d`, what the first one did
before. -/
def Reflection.MovesTo (reflect reflect' : Reflection) (d : Point) : Prop :=
  ∀ p, Alike d (Image.MovesTo · · d) (reflect p) (reflect' (p.translate d))

/-- What a run is told of costs and images, before everything is moved by `d` and afterwards. -/
structure Shift where
  d : Point
  model : CostModel
  model' : CostModel
  reflect : Reflection
  reflect' : Reflection
  models : model.MovesTo model' d
  reflections : reflect.MovesTo reflect' d

namespace Matching

/-- The second matching is the first after everything has been moved. -/
structure Moved (v : Shift) (m m' : Matching) : Prop where
  eq : m' = { m with model := v.model', reflection := some v.reflect' }
  model_eq : m.model = v.model
  reflection_eq : m.reflection = some v.reflect
  strict_eq : m.strict = false

variable {v : Shift} {m m' : Matching} (board : Board)

theorem Moved.models (h : Moved v m m') : m.model.MovesTo v.model' v.d := by
  rw [h.model_eq]
  exact v.models

theorem solved_alike (matrix : CostMatrix) : Alike d (· = ·) (solved matrix) (solved matrix) := by
  unfold solved Weights.solve
  split
  · exact .ok rfl
  · split
    · exact .ok rfl
    · split
      · exact .ok rfl
      · exact .same rfl

theorem adopt_lockstep (h : Moved v m m') (built : Except Fault CostMatrix)
    (log : CostMatrix → List LogEntry) :
    Lockstep v.d (Moved v) (· = ·) (m.adopt built log)
      (m'.adopt (built.mapError (·.translate v.d)) log) := by
  obtain ⟨rfl, hm, hreflection, hstrict⟩ := h
  cases built with
  | error f => exact ⟨⟨rfl, hm, hreflection, hstrict⟩, .error f⟩
  | ok matrix =>
    have hsolved := solved_alike (d := v.d) matrix
    unfold adopt Except.mapError
    dsimp only
    generalize solved matrix = x at hsolved ⊢
    cases x with
    | error f => exact ⟨⟨rfl, hm, hreflection, hstrict⟩, hsolved.of_error⟩
    | ok assignment => exact ⟨⟨rfl, hm, hreflection, hstrict⟩, .ok rfl⟩

theorem findPins_lockstep (h : Moved v m m') (mirrored : Bool) :
    Lockstep v.d (Moved v) (· = ·) (m.findPins board mirrored)
      (m'.findPins (board.translate v.d) mirrored) := by
  have hadopt := adopt_lockstep h
    (m.sec.pinMatrix board.boundary board.pins m.model
      { skipPlaced := true, skipMirrored := !mirrored, reserved := m.reserved })
    m.sec.pinMatrixLog
  rw [← Section.pinMatrix_translate _ _ _ h.models] at hadopt
  obtain ⟨rfl, -, -, -⟩ := h
  exact hadopt

theorem groupMatrix_moved (h : Moved v m m') :
    m'.groupMatrix (board.translate v.d) = (m.groupMatrix board).mapError (·.translate v.d) := by
  have hmatrix := Section.groupMatrix_translate board.boundary m.sec h.models m.blockSize
  obtain ⟨rfl, -, -, -⟩ := h
  exact hmatrix

theorem findGroups_lockstep (h : Moved v m m') :
    Lockstep v.d (Moved v) (· = ·) (m.findGroups board) (m'.findGroups (board.translate v.d)) := by
  have hadopt := adopt_lockstep h (m.groupMatrix board) m.sec.groupMatrixLog
  rw [← groupMatrix_moved board h] at hadopt
  obtain ⟨rfl, -, -, -⟩ := h
  exact hadopt

theorem reserveBlocks_lockstep (h : Moved v m m') :
    Lockstep v.d (Moved v) (· = ·) (m.reserveBlocks board)
      (m'.reserveBlocks (board.translate v.d)) := by
  rw [reserveBlocks, reserveBlocks, groupMatrix_moved board h]
  obtain ⟨rfl, hm, hreflection, hstrict⟩ := h
  cases m.groupMatrix board with
  | error f => exact ⟨⟨rfl, hm, hreflection, hstrict⟩, .error f⟩
  | ok matrix =>
    have hsolved := solved_alike (d := v.d) matrix
    rw [mapError_ok]
    dsimp only
    split
    · exact ⟨⟨rfl, hm, hreflection, hstrict⟩, .ok rfl⟩
    · generalize solved matrix = x at hsolved ⊢
      cases x with
      | error f => exact ⟨⟨rfl, hm, hreflection, hstrict⟩, hsolved.of_error⟩
      | ok assignment => exact ⟨⟨rfl, hm, hreflection, hstrict⟩, .ok rfl⟩

theorem commitGroups_lockstep (h : Moved v m m') :
    Lockstep v.d (fun s s' => Moved v s.1 s'.1 ∧ s'.2 = s.2.translate v.d) (· = ·)
      (m.commitGroups board) (m'.commitGroups (board.translate v.d)) := by
  obtain ⟨rfl, hm, hreflection, hstrict⟩ := h
  have hrun := GroupPass.run_lockstep (d := v.d) board m.sec m.matrix m.assignment m.blockSize
  refine (hrun.mapState ?_).andThen ?_
  · rintro ⟨b, sec⟩ _ rfl
    exact ⟨⟨rfl, hm, hreflection, hstrict⟩, rfl⟩
  · rintro ⟨m, b⟩ ⟨_, _⟩ result _ ⟨⟨rfl, hm, hreflection, hstrict⟩, rfl⟩ rfl
    exact ⟨⟨⟨rfl, hm, hreflection, hstrict⟩, rfl⟩, .ok rfl⟩

end Matching

end PinRing
