import PinRing.Proofs.Placement.Reservation
import PinRing.Proofs.Placement.Stages

/-! The regular pass and the pass over the groups taken apart into the tasks of single sections.
Tasks can be played in any order; played pass by pass they do what the sweeps of a run do. -/

namespace PinRing

/-- What is done in a section once the mirrored pins are through and slots are held back. -/
inductive Task where
  | findPins
  | commitPins
  | findGroups
  | commitGroups
deriving DecidableEq

/-- The matching of a section, with the results of its passes so far. -/
structure Lane where
  matching : Matching
  pinResult : PassResult := {}
  groupResult : PassResult := {}

namespace Lane

def sec (lane : Lane) : Section := lane.matching.sec

/-- Carries out a task in a section. -/
def perform : Board × Lane → Task → Outcome (Board × Lane) Unit
  | (board, lane), .findPins =>
    (lane.matching.findPins board false).mapState fun matching => (board, { lane with matching })
  | (board, lane), .commitPins =>
    ((lane.matching.commitPins board false).mapState (·, lane)).andThen fun (board, lane) result =>
      .done (board, { lane with pinResult := result }) ()
  | (board, lane), .findGroups =>
    (lane.matching.findGroups board).mapState fun matching => (board, { lane with matching })
  | (board, lane), .commitGroups =>
    ((lane.matching.commitGroups board).mapState fun (matching, board) =>
      (board, { lane with matching })).andThen fun (board, lane) result =>
        .done (board, { lane with groupResult := result }) ()

/-- Carries out the tasks of one section. -/
def performAll : Board × Lane → List Task → Outcome (Board × Lane) Unit :=
  Outcome.forEach perform

end Lane

/-- Carries out a task of the section at a position. -/
def perform (s : Board × List Lane) (step : Nat × Task) : Outcome (Board × List Lane) Unit :=
  match s.2[step.1]? with
  | none => .stop s .outOfRange
  | some lane =>
    (Lane.perform (s.1, lane) step.2).mapState fun (board, lane) => (board, s.2.set step.1 lane)

/-- Carries out the tasks of a schedule in order. -/
def play : Board × List Lane → List (Nat × Task) → Outcome (Board × List Lane) Unit :=
  Outcome.forEach perform

/-- The tasks of a section over its pins, and over its groups if it has any. -/
def pinTasks (_ : Section) : List Task := [.findPins, .commitPins]

def groupTasks (s : Section) : List Task :=
  if s.groups.isEmpty then [] else [.findGroups, .commitGroups]

/-- The tasks of a section in order. -/
def tasks (config : Config) (s : Section) : List Task :=
  pinTasks s ++ if config.assignGroups then groupTasks s else []

/-- The tasks of one pass, from the section with position `n` on. -/
def phase (tasks : Section → List Task) (n : Nat) (secs : List Section) : List (Nat × Task) :=
  (secs.zipIdx n).flatMap fun (s, k) => (tasks s).map (k, ·)

/-- The order of a run: one pass over all sections after the other. -/
def phases (config : Config) (secs : List Section) : List (Nat × Task) :=
  phase pinTasks 0 secs ++ if config.assignGroups then phase groupTasks 0 secs else []

/-- The tasks of a schedule in the section at a position. -/
def own (schedule : List (Nat × Task)) (k : Nat) : List Task :=
  (schedule.filter (·.1 == k)).map Prod.snd

/-- The schedule consists of the tasks of the sections, those of each section in order. -/
structure Interleaves (config : Config) (secs : List Section) (schedule : List (Nat × Task)) :
    Prop where
  positions : ∀ step ∈ schedule, step.1 < secs.length
  own_eq : (List.range secs.length).map (own schedule) = secs.map (tasks config)

/-- The work once the results of all lanes are added up, those over the pins first. -/
def tally (w : Run.Work) (board : Board) (lanes : List Lane) : Run.Work :=
  let placed := (lanes.map (·.pinResult)).foldl Run.Work.absorb w
  { (lanes.map (·.groupResult)).foldl Run.Work.absorb placed with board }

/-! ### The order of a run -/

variable {config : Config} {secs : List Section} {schedule : List (Nat × Task)} {k n : Nat}

theorem own_append (one other : List (Nat × Task)) (k : Nat) :
    own (one ++ other) k = own one k ++ own other k := by
  rw [own, List.filter_append, List.map_append]
  rfl

theorem own_map (ts : List Task) (j k : Nat) :
    own (ts.map (j, ·)) k = if j = k then ts else [] := by
  induction ts with
  | nil => split <;> rfl
  | cons t ts ih =>
    rw [own] at ih ⊢
    by_cases h : j = k <;> simp_all

theorem own_phase (tasks : Section → List Task) (n : Nat) (secs : List Section) (k : Nat) :
    own (phase tasks n secs) (n + k) = (secs[k]?).elim [] tasks := by
  induction secs generalizing n k with
  | nil => rfl
  | cons s secs ih =>
    have hphase : phase tasks n (s :: secs) =
        (tasks s).map (n, ·) ++ phase tasks (n + 1) secs := rfl
    rw [hphase, own_append, own_map]
    cases k with
    | zero =>
      have hrest : own (phase tasks (n + 1) secs) n = [] := by
        rw [own, List.map_eq_nil_iff, List.filter_eq_nil_iff]
        intro step hstep
        obtain ⟨⟨t, j⟩, hj, hstep⟩ := List.mem_flatMap.mp hstep
        obtain ⟨task, -, rfl⟩ := List.mem_map.mp hstep
        have := List.le_snd_of_mem_zipIdx hj
        simp only [beq_iff_eq]
        omega
      simp [hrest]
    | succ k =>
      rw [if_neg (by omega), List.nil_append, show n + (k + 1) = n + 1 + k by omega, ih,
        List.getElem?_cons_succ]

theorem phase_positions (tasks : Section → List Task) (secs : List Section) :
    ∀ step ∈ phase tasks 0 secs, step.1 < secs.length := by
  intro step hstep
  obtain ⟨⟨t, j⟩, hj, hstep⟩ := List.mem_flatMap.mp hstep
  obtain ⟨task, -, rfl⟩ := List.mem_map.mp hstep
  simpa using List.snd_lt_add_of_mem_zipIdx hj

/-- The order of a run is one of the orders that keep the order in each section. -/
theorem interleaves_phases (config : Config) (secs : List Section) :
    Interleaves config secs (phases config secs) where
  positions := by
    intro step hstep
    rcases List.mem_append.mp hstep with hstep | hstep
    · exact phase_positions _ _ step hstep
    · split at hstep
      · exact phase_positions _ _ step hstep
      · cases hstep
  own_eq := by
    have hown (tasks : Section → List Task) (k : Nat) :
        own (phase tasks 0 secs) k = (secs[k]?).elim [] tasks := by
      have := own_phase tasks 0 secs k
      rwa [Nat.zero_add] at this
    refine List.ext_getElem (by simp) fun k hk hk' => ?_
    have hlt : k < secs.length := by simpa using hk
    have hat : secs[k]? = some secs[k] := List.getElem?_eq_getElem hlt
    rw [List.getElem_map, List.getElem_range, List.getElem_map, phases, own_append, hown, hat,
      tasks]
    split
    · rw [hown, hat]
      rfl
    · rfl

/-! ### Passes as plays -/

/-- Tasks of one lane leave the others as they are. -/
theorem play_own (before after : List Lane) (lane : Lane) (board : Board) (ts : List Task) :
    let played := play (board, before ++ lane :: after) (ts.map (before.length, ·))
    let alone := Lane.performAll (board, lane) ts
    played.answer = alone.answer ∧
      played.state = (alone.state.1, before ++ alone.state.2 :: after) := by
  induction ts generalizing board lane with
  | nil => exact ⟨rfl, rfl⟩
  | cons t ts ih =>
    have hstep : perform (board, before ++ lane :: after) (before.length, t) =
        (Lane.perform (board, lane) t).mapState fun (board, lane) =>
          (board, before ++ lane :: after) := by
      simp [perform]
    simp only [play, Lane.performAll, List.map_cons, Outcome.forEach_cons, hstep]
    cases ha : (Lane.perform (board, lane) t).answer with
    | error f => simp [Outcome.andThen, Outcome.mapState, ha]
    | ok _ =>
      simp only [Outcome.andThen, Outcome.mapState, ha]
      exact ih _ _

theorem play_append {s : Board × List Lane} {one : List (Nat × Task)}
    (h : (play s one).answer = .ok ()) (other : List (Nat × Task)) :
    (play s (one ++ other)).answer = (play (play s one).state other).answer ∧
      (play s (one ++ other)).state = (play (play s one).state other).state :=
  Outcome.forEach_append_of_ok h other

namespace Run

variable {w : Work} {lane : Lane} {lanes : List Lane} {step : SectionStep}

theorem absorb_empty (w : Work) : w.absorb {} = w := by
  simp [Work.absorb, Report.absorb, PassResult.placed, PassResult.warnings, PassResult.errors]

/-- The results are added up apart from the board. -/
theorem foldl_absorb_board (results : List PassResult) (w : Work) (board : Board) :
    results.foldl Work.absorb { w with board } = { results.foldl Work.absorb w with board } := by
  induction results generalizing w with
  | nil => rfl
  | cons result results ih => exact ih (w.absorb result)

theorem foldl_absorb_empty {results : List PassResult} (h : ∀ result ∈ results, result = {})
    (w : Work) : results.foldl Work.absorb w = w := by
  induction results with
  | nil => rfl
  | cons result results ih =>
    obtain ⟨rfl, hrest⟩ := List.forall_mem_cons.mp h
    rw [List.foldl_cons, absorb_empty, ih hrest]

/-- A step in the section of a lane is some tasks, which leave `next`; the work has grown by the
result of the step. -/
structure Performs (tasks : List Task) (step : SectionStep) (w : Work) (lane next : Lane)
    (result : PassResult) : Prop where
  answer : (Lane.performAll (w.board, lane) tasks).answer = .ok ()
  state : (Lane.performAll (w.board, lane) tasks).state =
    ((step lane.matching w).state.2.board, next)
  matching_eq : next.matching = (step lane.matching w).state.1
  work_eq : (step lane.matching w).state.2 =
    { w.absorb result with board := (step lane.matching w).state.2.board }

theorem pinStep_performs (h : (pinStep false lane.matching w).answer = .ok ()) :
    ∃ next, Performs (pinTasks lane.sec) (pinStep false) w lane next next.pinResult ∧
      next.sec = lane.sec ∧ next.groupResult = lane.groupResult := by
  obtain ⟨result, hfound, hpass⟩ := exists_of_pinStep_ok h
  obtain ⟨-, hstate⟩ := pinStep_of_ok hfound hpass
  obtain ⟨⟨matrix, assignment, hm⟩, -⟩ := pinStep_opens h
  refine ⟨{ lane with matching := (pinStep false lane.matching w).state.1, pinResult := result },
    ⟨?_, ?_, rfl, ?_⟩, ?_, rfl⟩
  · simp [Lane.performAll, pinTasks, Outcome.forEach_cons, Lane.perform, Outcome.mapState,
      Outcome.andThen, hfound, hpass, Outcome.done]
  · simp [Lane.performAll, pinTasks, Outcome.forEach_cons, Lane.perform, Outcome.mapState,
      Outcome.andThen, hfound, hpass, Outcome.done, hstate, Work.absorb]
  · rw [hstate]
    rfl
  · rw [Lane.sec, Lane.sec, hm]

theorem groupStep_performs (hnone : lane.groupResult = {})
    (h : (groupStep lane.matching w).answer = .ok ()) :
    ∃ next, Performs (groupTasks lane.sec) groupStep w lane next next.groupResult ∧
      next.pinResult = lane.pinResult := by
  by_cases hne : lane.matching.sec.groups = []
  · have htasks : groupTasks lane.sec = [] := by simp [groupTasks, Lane.sec, hne]
    have hstep := (step_of_noGroups hne w).2
    refine ⟨lane, ⟨?_, ?_, ?_, ?_⟩, rfl⟩
    · rw [htasks]
      rfl
    · rw [htasks, hstep]
      rfl
    · rw [hstep]
      rfl
    · rw [hstep, hnone, absorb_empty]
      rfl
  · obtain ⟨result, hfound, hpass⟩ := exists_of_groupStep_ok hne h
    obtain ⟨-, hstate⟩ := groupStep_of_ok hne hfound hpass
    have htasks : groupTasks lane.sec = [.findGroups, .commitGroups] := by
      simp [groupTasks, Lane.sec, hne]
    refine ⟨{ lane with
        matching := (groupStep lane.matching w).state.1, groupResult := result },
      ⟨?_, ?_, rfl, ?_⟩, rfl⟩
    · simp [Lane.performAll, htasks, Outcome.forEach_cons, Lane.perform, Outcome.mapState,
        Outcome.andThen, hfound, hpass, Outcome.done]
    · simp [Lane.performAll, htasks, Outcome.forEach_cons, Lane.perform, Outcome.mapState,
        Outcome.andThen, hfound, hpass, Outcome.done, hstate, Work.absorb]
    · rw [hstate]
      rfl

/-- If a step is some tasks in each section, then its sweep is a phase of a schedule. -/
theorem sweep_performs {κ : Type} (tasks : Section → List Task) (result : Lane → PassResult)
    (kept : Lane → κ) (hstep : ∀ lane w, result lane = {} →
      (step lane.matching w).answer = .ok () →
      ∃ next, Performs (tasks lane.sec) step w lane next (result next) ∧ kept next = kept lane)
    (hnone : ∀ lane ∈ lanes, result lane = {})
    (hok : (sweep step (lanes.map (·.matching)) w).answer = .ok ()) (before : List Lane) :
    let swept := (sweep step (lanes.map (·.matching)) w).state
    let played := play (w.board, before ++ lanes) (phase tasks before.length (lanes.map (·.sec)))
    ∃ after, played.answer = .ok () ∧ played.state = (swept.2.board, before ++ after) ∧
      swept.1 = after.map (·.matching) ∧
      swept.2 = { (after.map result).foldl Work.absorb w with board := swept.2.board } ∧
      after.map kept = lanes.map kept := by
  induction lanes generalizing w before with
  | nil => exact ⟨[], rfl, rfl, rfl, rfl, rfl⟩
  | cons lane lanes ih =>
    obtain ⟨hlane, hnone⟩ := List.forall_mem_cons.mp hnone
    rw [List.map_cons, sweep] at hok
    rw [List.map_cons, sweep]
    cases ha : (step lane.matching w).answer with
    | error f => simp only [ha] at hok; cases hok
    | ok _ =>
      simp only [ha] at hok ⊢
      obtain ⟨next, hperforms, hkept⟩ := hstep lane w hlane ha
      obtain ⟨hanswer, hstate⟩ := play_own before lanes lane w.board (tasks lane.sec)
      rw [hperforms.answer] at hanswer
      rw [hperforms.state] at hstate
      obtain ⟨after, hplayed, hend, hms, hwork, hkepts⟩ := ih hnone hok (before ++ [next])
      rw [List.length_append, List.length_singleton, List.append_assoc,
        List.singleton_append] at hplayed hend
      -- The tasks of the first section are played, then the phase goes on from there.
      have hphase := play_append hanswer
        (phase tasks (before.length + 1) (lanes.map (·.sec)))
      rw [hstate] at hphase
      refine ⟨next :: after, hphase.1.trans hplayed, hphase.2.trans ?_, ?_, ?_, ?_⟩
      · rw [List.append_assoc, List.singleton_append] at hend
        exact hend
      · rw [hms, List.map_cons, hperforms.matching_eq]
      · rw [hwork, hperforms.work_eq, foldl_absorb_board]
        rfl
      · rw [List.map_cons, List.map_cons, hkept, hkepts]

/-- The passes that the tasks make up. -/
def taskPasses (config : Config) : List SectionStep :=
  [pinStep false] ++ if config.assignGroups then [groupStep] else []

/-- Sweeps over lanes without results that go through are the play of one phase after the other. -/
theorem sweeps_perform (config : Config) (hnone : ∀ lane ∈ lanes,
      lane.pinResult = {} ∧ lane.groupResult = {})
    (hok : (sweeps (taskPasses config) (lanes.map (·.matching), w)).answer = .ok ()) :
    let swept := (sweeps (taskPasses config) (lanes.map (·.matching), w)).state
    let played := play (w.board, lanes) (phases config (lanes.map (·.sec)))
    played.answer = .ok () ∧ played.state.1 = swept.2.board ∧
      swept.1 = played.state.2.map (·.matching) ∧
      swept.2 = tally w played.state.1 played.state.2 := by
  intro swept played
  obtain ⟨_, hpins, -, -⟩ := Outcome.exists_of_andThen_eq_ok hok
  obtain ⟨mid, hplayed, hmid, hms, hwork, hkept⟩ :=
    sweep_performs pinTasks (·.pinResult) (fun lane => (lane.sec, lane.groupResult))
      (fun _ _ _ h => by
        obtain ⟨next, hperforms, hsec, hgroup⟩ := pinStep_performs h
        exact ⟨next, hperforms, Prod.ext hsec hgroup⟩)
      (fun lane hlane => (hnone lane hlane).1) hpins []
  rw [List.nil_append, List.length_nil] at hplayed hmid
  rw [List.nil_append] at hmid
  have hsecs : mid.map (·.sec) = lanes.map (·.sec) := by
    have := congrArg (List.map Prod.fst) hkept
    rwa [List.map_map, List.map_map] at this
  have hnone' : ∀ lane ∈ mid, lane.groupResult = {} := by
    intro lane hlane
    have hmem := List.mem_map_of_mem (f := fun lane : Lane => (lane.sec, lane.groupResult)) hlane
    rw [hkept] at hmem
    obtain ⟨start, hstart, heq⟩ := List.mem_map.mp hmem
    exact (congrArg Prod.snd heq).symm.trans (hnone start hstart).2
  simp only [swept, played, phases]
  cases hassigns : config.assignGroups with
  | false =>
    have hpasses : taskPasses config = [pinStep false] := by simp [taskPasses, hassigns]
    have hempty : ∀ result ∈ mid.map (·.groupResult), result = {} := List.forall_mem_map.mpr hnone'
    rw [hpasses, (sweeps_singleton (pinStep false) _).2, if_neg Bool.false_ne_true, List.append_nil]
    rw [hmid, tally, foldl_absorb_empty hempty]
    exact ⟨hplayed, rfl, hms, hwork⟩
  | true =>
    have hpasses : taskPasses config = [pinStep false, groupStep] := by
      simp [taskPasses, hassigns]
    rw [hpasses, (sweeps_cons hpins _).1, (sweeps_singleton groupStep _).1] at hok
    rw [hpasses, (sweeps_cons hpins _).2, (sweeps_singleton groupStep _).2, if_pos rfl]
    obtain ⟨hanswer, hstate⟩ := play_append hplayed (phase groupTasks 0 (lanes.map (·.sec)))
    simp only [hms] at hok ⊢
    obtain ⟨after, hplayed', hafter, hms', hwork', hkept'⟩ :=
      sweep_performs groupTasks (·.groupResult) (·.pinResult) (fun _ _ => groupStep_performs) hnone'
        hok []
    rw [List.nil_append, List.length_nil, hsecs] at hplayed' hafter
    rw [List.nil_append] at hafter
    rw [hanswer, hstate, hmid, hafter, tally, hkept']
    refine ⟨hplayed', rfl, hms', hwork'.trans ?_⟩
    rw [hwork, foldl_absorb_board]

end Run

end PinRing
