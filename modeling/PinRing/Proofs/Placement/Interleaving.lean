import Mathlib.Logic.Function.Basic
import PinRing.Proofs.Placement.Local
import PinRing.Proofs.Placement.WithinCapacity

/-! The order of sections.  Once the mirrored pins are through and slots are held back, no section
touches what another one looks at, so their tasks can be taken in any order that keeps the order in
each section. -/

namespace PinRing

open Board

/-! ### Schedules -/

/-- The board `b` has what the commits in each of `n` parts make of `start`, and the rest of `start`
as it was. -/
structure Merges (start : Board) (n : Nat) (foot : Nat → Footprint) (commits : Nat → List Commit)
    (b : Board) : Prop where
  frame : Frame start b
  part : ∀ k < n, Agree (foot k) (start.takeAll (commits k)) b
  slots : ∀ i, (∀ k < n, ¬(foot k).slots i) → b.boundary.slots[i]? = start.boundary.slots[i]?
  pins : ∀ i, (∀ k < n, ¬(foot k).pins i) → b.pins.pins[i]? = start.pins.pins[i]?

section Schedules

variable {start b b' : Board} {n k : Nat} {foot : Nat → Footprint} {commits : Nat → List Commit}
variable {lanes : List Lane} {last : Nat → Lane} {schedule : List (Nat × Task)}

/-- Only one boundary and one table of pins can come of it. -/
theorem Merges.unique (h : Merges start n foot commits b) (h' : Merges start n foot commits b') :
    b'.boundary = b.boundary ∧ b'.pins = b.pins := by
  have hslots : b'.boundary.slots = b.boundary.slots := by
    refine Array.ext_getElem? fun i => ?_
    by_cases hi : ∀ k < n, ¬(foot k).slots i
    · rw [h.slots i hi, h'.slots i hi]
    · push Not at hi
      obtain ⟨k, hk, hi⟩ := hi
      rw [(h.part k hk).slots i hi, (h'.part k hk).slots i hi]
  have hpins : b'.pins.pins = b.pins.pins := by
    refine Array.ext_getElem? fun i => ?_
    by_cases hi : ∀ k < n, ¬(foot k).pins i
    · rw [h.pins i hi, h'.pins i hi]
    · push Not at hi
      obtain ⟨k, hk, hi⟩ := hi
      rw [(h.part k hk).pins i hi, (h'.part k hk).pins i hi]
  have hgroups := h'.frame.groups.trans h.frame.groups.symm
  have hmirrors := h'.frame.mirrors.trans h.frame.mirrors.symm
  constructor
  · cases hb : b'.boundary
    cases hc : b.boundary
    simp_all
  · cases hb : b'.pins
    cases hc : b.pins
    simp_all

theorem own_cons (step : Nat × Task) (schedule : List (Nat × Task)) (k : Nat) :
    own (step :: schedule) k =
      if step.1 = k then step.2 :: own schedule k else own schedule k := by
  rw [own, List.filter_cons]
  by_cases h : step.1 = k <;> simp [h, own]

/-- Commits in one part come before those of a merge. -/
theorem Merges.takeAll {cs ds : List Commit} (hk : k < n)
    (hapart : ∀ j < n, j ≠ k → (foot k).Apart (foot j)) (hopen : start.Open cs)
    (hcovers : (foot k).Covers cs) (hcommits : commits k = cs ++ ds)
    (hown : ∀ j < n, start.Open (commits j) ∧ (foot j).Covers (commits j))
    (h : Merges (start.takeAll cs) n foot (Function.update commits k ds) b) :
    Merges start n foot commits b where
  frame := hopen.frame.trans h.frame
  part := by
    intro j hj
    have hpart := h.part j hj
    by_cases hjk : j = k
    · subst hjk
      rwa [Function.update_self, ← takeAll_append, ← hcommits] at hpart
    · rw [Function.update_of_ne hjk] at hpart
      have hagree := hopen.agree_of_apart hcovers (hapart j hj hjk)
      exact (hagree.takeAll (hown j hj).2 (hown j hj).1).2.trans hpart
  slots := by
    intro i hi
    rw [h.slots i hi]
    exact hopen.untouched.1 i fun c hc heq => hi k hk (heq ▸ (hcovers c hc).1)
  pins := by
    intro i hi
    rw [h.pins i hi]
    exact hopen.untouched.2 i fun c hc heq => hi k hk (heq ▸ (hcovers c hc).2)

/-- The next task goes through, and what is left to do in each lane goes through after it. -/
theorem perform_plays {task : Task} {rest : List (Nat × Task)} (hk : k < lanes.length)
    (hapart : ∀ j < lanes.length, j ≠ k → (foot k).Apart (foot j))
    (hplays : ∀ (j : Nat) (lane : Lane), lanes[j]? = some lane →
      Plays (foot j) b lane (own ((k, task) :: rest) j) (last j) (commits j)) :
    ∃ next cs ds, commits k = cs ++ ds ∧ b.Open cs ∧ (foot k).Covers cs ∧
      (perform (b, lanes) (k, task)).answer = .ok () ∧
      (perform (b, lanes) (k, task)).state = (b.takeAll cs, lanes.set k next) ∧
      ∀ (j : Nat) (lane : Lane), (lanes.set k next)[j]? = some lane →
        Plays (foot j) (b.takeAll cs) lane (own rest j) (last j)
          (Function.update commits k ds j) := by
  have hlane := List.getElem?_eq_getElem hk
  have htasks := hplays k _ hlane
  rw [own_cons, if_pos rfl] at htasks
  obtain ⟨next, cs, ds, hcommits, hdoes, hlater⟩ := htasks.of_cons
  obtain ⟨hanswer, hstate⟩ := hdoes.performs b (.refl _ b)
  have hstep : (perform (b, lanes) (k, task)).answer = .ok () ∧
      (perform (b, lanes) (k, task)).state = (b.takeAll cs, lanes.set k next) := by
    simp only [perform, hlane, Outcome.mapState, hstate]
    exact ⟨hanswer, trivial⟩
  refine ⟨next, cs, ds, hcommits, hdoes.isOpen, hdoes.covers, hstep.1, hstep.2, ?_⟩
  intro j lane hj
  by_cases hjk : j = k
  · subst hjk
    rw [List.getElem?_set_self hk] at hj
    rw [Function.update_self]
    exact Option.some.inj hj ▸ hlater
  · rw [List.getElem?_set_ne (Ne.symm hjk)] at hj
    have hlt := (List.getElem?_eq_some_iff.mp hj).1
    have hplay := hplays j lane hj
    rw [own_cons, if_neg (Ne.symm hjk)] at hplay
    rw [Function.update_of_ne hjk]
    exact hplay.congr (hdoes.isOpen.agree_of_apart hdoes.covers (hapart j hlt hjk))

/-- Tasks of lanes that are apart go through in every order, and end in the same lanes. -/
theorem play_merges (hapart : ∀ j < lanes.length, ∀ k < lanes.length, j ≠ k →
      (foot j).Apart (foot k))
    (hpositions : ∀ step ∈ schedule, step.1 < lanes.length)
    (hplays : ∀ (k : Nat) (lane : Lane), lanes[k]? = some lane →
      Plays (foot k) b lane (own schedule k) (last k) (commits k)) :
    let played := play (b, lanes) schedule
    played.answer = .ok () ∧ played.state.2 = (List.range lanes.length).map last ∧
      Merges b lanes.length foot commits played.state.1 := by
  induction schedule generalizing b lanes commits with
  | nil =>
    have hnone : ∀ k lane, lanes[k]? = some lane → lane = last k ∧ commits k = [] :=
      fun k lane hlane => (hplays k lane hlane).of_nil
    refine ⟨rfl, ?_, .refl b, fun k hk => ?_, fun _ _ => rfl, fun _ _ => rfl⟩
    · refine List.ext_getElem (by simp [play, Outcome.done]) fun k hk hk' => ?_
      rw [List.getElem_map, List.getElem_range]
      exact (hnone k _ (List.getElem?_eq_getElem hk)).1
    · rw [(hnone k _ (List.getElem?_eq_getElem hk)).2]
      exact .refl _ b
  | cons step rest ih =>
    obtain ⟨k, task⟩ := step
    obtain ⟨hk, hrest⟩ := List.forall_mem_cons.mp hpositions
    have hout : ∀ j < lanes.length, j ≠ k → (foot k).Apart (foot j) :=
      fun j hj hjk => hapart k hk j hj (Ne.symm hjk)
    obtain ⟨next, cs, ds, hcommits, hopen, hcovers, hanswer, hstate, hlater⟩ :=
      perform_plays hk hout hplays
    have hlength : (lanes.set k next).length = lanes.length := List.length_set
    obtain ⟨hok, hlast, hmerges⟩ := ih (hlength ▸ hapart) (hlength ▸ hrest) hlater
    rw [hlength] at hlast hmerges
    simp only [play, Outcome.forEach_cons, Outcome.andThen_of_ok hanswer, hstate]
    refine ⟨hok, hlast, hmerges.takeAll hk hout hopen hcovers hcommits fun j hj => ?_⟩
    exact (hplays j _ (List.getElem?_eq_getElem hj)).isOpen

end Schedules

/-! ### Sections once slots are held back -/

namespace Run

variable {start board : Board} {model : CostModel} {reflection : Option Reflection}
variable {config : Config} {ms : List Matching} {w : Work} {held : List Matching × Work}

/-- The passes before the sections become independent. -/
def earlyPasses (board : Board) (config : Config) : List SectionStep :=
  (if board.pins.mirrors.isEmpty then [] else [pinStep true]) ++
    if config.assignGroups then [reserveStep] else []

theorem passes_eq_early (board : Board) (config : Config) :
    passes board config = earlyPasses board config ++ taskPasses config := by
  simp only [passes, earlyPasses, taskPasses, List.append_assoc]

/-- A step that leaves the section and the slots and pins of the board as they are. -/
def Prepares (step : SectionStep) : Prop :=
  ∀ m w, (step m w).answer = .ok () →
    (∃ matrix assignment reserved, (step m w).state.1 = { m with matrix, assignment, reserved }) ∧
      Frame w.board (step m w).state.2.board

theorem earlyPasses_prepare (board : Board) (config : Config) :
    ∀ step ∈ earlyPasses board config, Prepares step := by
  intro step hstep m w hok
  rcases List.mem_append.mp hstep with hstep | hstep
  · split at hstep
    · cases hstep
    · obtain rfl := List.mem_singleton.mp hstep
      obtain ⟨⟨matrix, assignment, hm⟩, cs, hopen, hboard, -⟩ := pinStep_opens hok
      rw [hboard]
      exact ⟨⟨matrix, assignment, m.reserved, hm⟩, hopen.frame⟩
  · split at hstep
    · obtain rfl := List.mem_singleton.mp hstep
      by_cases hne : m.sec.groups = []
      · rw [(step_of_noGroups hne w).1]
        exact ⟨⟨m.matrix, m.assignment, m.reserved, rfl⟩, .refl _⟩
      · obtain ⟨matrix, a, hmatrix, hsolved⟩ := exists_of_reserveStep_ok hne hok
        rw [(reserveStep_of_ok hne hmatrix hsolved).2]
        exact ⟨⟨m.matrix, m.assignment, _, rfl⟩, .refl _⟩
    · cases hstep

/-- The sections are those given and can be placed, and the slots and pins are those of `start`. -/
structure Prepared (start : Board) (secs : List Section) (s : List Matching × Work) : Prop where
  secs_eq : s.1.map (·.sec) = secs
  placeable : ∀ m ∈ s.1, m.Placeable start
  frame : Frame start s.2.board

theorem Prepares.sweep {step : SectionStep} {secs : List Section} (hstep : Prepares step)
    (h : Prepared start secs (ms, w)) (hok : (Run.sweep step ms w).answer = .ok ()) :
    Prepared start secs (Run.sweep step ms w).state := by
  have hall := sweep_reaches (I := fun done rest w => Prepared start secs (done ++ rest, w))
    (fun done m rest w h hok => by
      obtain ⟨⟨matrix, assignment, reserved, hm⟩, hframe⟩ := hstep m w hok
      obtain ⟨hdone, hrest⟩ := List.forall_mem_append.mp h.placeable
      obtain ⟨hplaceable, hrest⟩ := List.forall_mem_cons.mp hrest
      rw [hm]
      refine ⟨?_, ?_, h.frame.trans hframe⟩
      · rw [← h.secs_eq]
        simp
      · exact List.forall_mem_append.mpr ⟨List.forall_mem_append.mpr ⟨hdone,
          List.forall_mem_singleton.mpr (hplaceable.worked matrix assignment reserved)⟩, hrest⟩)
    hok h
  rwa [List.append_nil] at hall

theorem Prepares.sweeps {steps : List SectionStep} {secs : List Section}
    {s : List Matching × Work} (hsteps : ∀ step ∈ steps, Prepares step)
    (h : Prepared start secs s) (hok : (Run.sweeps steps s).answer = .ok ()) :
    Prepared start secs (Run.sweeps steps s).state := by
  refine Outcome.forEach_reaches (P := fun _ s => Prepared start secs s)
    (fun done step s hpre h hok => ?_) hok h
  have hmem := hpre.subset (List.mem_append_right done (List.mem_singleton_self step))
  exact (hsteps step hmem).sweep h hok

/-- A run that gets past the mirrored pins and the reservation, which leave `held`. -/
structure ReachesPins (board : Board) (model : CostModel) (reflection : Option Reflection)
    (config : Config) (held : List Matching × Work) : Prop where
  sections_ne : board.boundary.sections config.sectionSize ≠ []
  distributed :
    (distribute board model config (board.boundary.sections config.sectionSize)).answer = .ok ()
  held_eq :
    let opened := opening board model reflection
      (distribute board model config (board.boundary.sections config.sectionSize)).state
    (sweeps (earlyPasses board config) opened).answer = .ok () ∧
      (sweeps (earlyPasses board config) opened).state = held

theorem ReachesPins.prepared (h : ReachesPins board model reflection config held)
    (hd : board.pins.Declared) (hmodel : model.Total) :
    Prepared board (distribute board model config
      (board.boundary.sections config.sectionSize)).state held := by
  rw [← h.held_eq.2]
  refine Prepares.sweeps (earlyPasses_prepare board config) ⟨?_, ?_, .refl board⟩ h.held_eq.1
  · rw [opening, List.map_map]
    exact List.map_id _
  · exact opening_placeable hd hmodel h.distributed

/-- The rest of the run takes up what is held back. -/
theorem ReachesPins.run_eq (h : ReachesPins board model reflection config held) :
    let swept := sweeps (taskPasses config) held
    let ended := run board model reflection config
    ended.state = (swept.state.2.board, swept.state.1.map (·.sec)) ∧
      ended.answer = swept.answer.bind fun _ =>
        (conclude config swept.state.2.failures (finish swept.state.2)).answer := by
  obtain ⟨hstate, hanswer⟩ := run_of_distribute reflection h.sections_ne h.distributed
  obtain ⟨hok, hheld⟩ := h.held_eq
  intro swept ended
  let opened := opening board model reflection
    (distribute board model config (board.boundary.sections config.sectionSize)).state
  have hsplit : (sweeps (passes board config) opened).answer = swept.answer ∧
      (sweeps (passes board config) opened).state = swept.state := by
    rw [passes_eq_early]
    simp only [swept, ← hheld]
    exact Outcome.forEach_append_of_ok hok (taskPasses config)
  simp only [ended, hstate, hanswer, place_state, place_answer]
  rw [hsplit.1, hsplit.2]
  exact ⟨rfl, rfl⟩

/-- Different sections read and write different slots and pins. -/
theorem footprints_apart (hd : board.pins.Declared)
    (h : (distribute board model config (board.boundary.sections config.sectionSize)).answer =
      .ok ()) :
    let secs := (distribute board model config
      (board.boundary.sections config.sectionSize)).state
    secs.Pairwise fun s t => s.footprint.Apart t.footprint := by
  intro secs
  obtain ⟨hpins, hfree⟩ := Distribution.pins_distribute h
  have hmembers := Distribution.members_distribute hd h
  have hgiven := Distribution.given_distribute h
  have hbehind := (Distribution.sections_distribute h).1
  rw [List.flatMap_assoc] at hmembers
  have hboth := (List.nodup_flatMap.mp hpins).2.and (List.nodup_flatMap.mp hmembers).2
  refine (hbehind.and hboth).imp_of_mem fun {s t} hs ht ⟨hle, hpins, hmembers⟩ => ⟨?_, ?_⟩
  · intro i hi hi'
    have := hi.2
    have := hi'.1
    omega
  -- A pin of a section is in no group, so it is not a member of another section's groups.
  have hout : ∀ u ∈ secs, ∀ i ∈ u.pins, ∀ v ∈ secs, ∀ g ∈ v.groups, i ∉ g.members := by
    intro u hu i hi v hv g hg hmem
    obtain ⟨q, hq, -, hungrouped⟩ := hfree i (List.mem_flatMap.mpr ⟨u, hu, hi⟩)
    obtain ⟨q', hq', hgrouped⟩ := hd.members_grouped g (hgiven v hv g hg).1 i hmem
    rw [hq] at hq'
    cases hq'
    rw [hungrouped] at hgrouped
    cases hgrouped
  rintro i (hi | ⟨g, hg, hi⟩) (hi' | ⟨g', hg', hi'⟩)
  · exact hpins hi hi'
  · exact hout s hs i hi t ht g' hg' hi'
  · exact hout t ht i hi' s hs g hg hi
  · exact hmembers (List.mem_flatMap.mpr ⟨g, hg, hi⟩) (List.mem_flatMap.mpr ⟨g', hg', hi'⟩)

theorem taskPasses_finish (config : Config) :
    ∀ step ∈ taskPasses config, Finishes start step := by
  intro step hstep
  refine laterPasses_finish config step ?_
  rw [laterPasses, List.append_assoc]
  exact List.mem_append_right _ hstep

/-- The report does not depend on the board but for the pins without a place. -/
theorem conclude_tally (config : Config) (w : Work) (lanes : List Lane) {b b' : Board}
    (h : b'.pins = b.pins) :
    conclude config (tally w b' lanes).failures (finish (tally w b' lanes)) =
      conclude config (tally w b lanes).failures (finish (tally w b lanes)) := by
  simp only [tally, finish, h]

end Run

open Run

/-- The part of the board that the tasks at a position use. -/
def footprintAt (secs : List Section) (k : Nat) : Footprint :=
  (secs[k]?).elim ⟨fun _ => False, fun _ => False⟩ Section.footprint

theorem footprintAt_apart {secs : List Section}
    (hapart : secs.Pairwise fun s t => s.footprint.Apart t.footprint) {j k : Nat}
    (hj : j < secs.length) (hk : k < secs.length) (hne : j ≠ k) :
    (footprintAt secs j).Apart (footprintAt secs k) := by
  have hpairwise := List.pairwise_iff_getElem.mp hapart
  have hfoot : ∀ {i : Nat} (hi : i < secs.length), footprintAt secs i = secs[i].footprint := by
    intro i hi
    rw [footprintAt, List.getElem?_eq_getElem hi]
    rfl
  rw [hfoot hj, hfoot hk]
  rcases Nat.lt_or_gt_of_ne hne with hlt | hlt
  · exact hpairwise j k hj hk hlt
  · exact (hpairwise k j hk hj hlt).symm

/-- The lane of a section in which nothing has been done. -/
def Lane.fresh (matching : Matching) : Lane := { matching }

theorem Interleaves.own_of_section {config : Config} {secs : List Section}
    {schedule : List (Nat × Task)} (h : Interleaves config secs schedule) {k : Nat} {s : Section}
    (hs : secs[k]? = some s) : own schedule k = tasks config s := by
  obtain ⟨hlt, rfl⟩ := List.getElem?_eq_some_iff.mp hs
  have hat := congrArg (·[k]?) h.own_eq
  simpa [hlt] using hat

/-- Sections that can be placed and are apart end up the same in every order of their tasks. -/
theorem play_interleaved {ms : List Matching} {board : Board}
    (hplaceable : ∀ m ∈ ms, m.Placeable board)
    (hapart : (ms.map (·.sec)).Pairwise fun s t => s.footprint.Apart t.footprint)
    (config : Config) :
    let secs := ms.map (·.sec)
    ∃ last commits, ∀ schedule, Interleaves config secs schedule →
      let played := play (board, ms.map Lane.fresh) schedule
      played.answer = .ok () ∧ played.state.2 = (List.range ms.length).map last ∧
        Merges board ms.length (footprintAt secs) commits played.state.1 := by
  intro secs
  have hown : ∀ k : Nat, ∃ last cs, ∀ m, ms[k]? = some m →
      Plays (footprintAt secs k) board (.fresh m) (tasks config m.sec) last cs := by
    intro k
    cases hm : ms[k]? with
    | none => exact ⟨.fresh (.ofSection ⟨0, 0, .bottom, 0, [], []⟩ .absent none true), [], nofun⟩
    | some m =>
      have hfoot : footprintAt secs k = m.sec.footprint := by simp [footprintAt, secs, hm]
      have hfresh : (Lane.fresh m).matching.Placeable board :=
        hplaceable m (List.mem_of_getElem? hm)
      obtain ⟨last, cs, hplays⟩ := hfresh.plays config
      refine ⟨last, cs, fun m' hm' => ?_⟩
      cases hm'
      rw [hfoot]
      exact hplays
  choose last commits hplays using hown
  refine ⟨last, commits, fun schedule hschedule => ?_⟩
  have hlength : (ms.map Lane.fresh).length = ms.length := List.length_map _
  have hlength' : secs.length = ms.length := List.length_map _
  rw [← hlength]
  refine play_merges (fun j hj k hk hne => ?_) (fun step hstep => ?_) fun k lane hlane => ?_
  · rw [hlength, ← hlength'] at hj hk
    exact footprintAt_apart hapart hj hk hne
  · simpa [secs] using hschedule.positions step hstep
  · rw [List.getElem?_map, Option.map_eq_some_iff] at hlane
    obtain ⟨m, hm, rfl⟩ := hlane
    rw [hschedule.own_of_section (s := m.sec) (by simp [secs, hm])]
    exact hplays k m hm

/-- Past the mirrored pins and the reservation, a run over a loaded problem takes up the tasks of
the sections phase by phase.  Every other order that keeps the order in each section goes through
as well.  It leaves the same slots, pins and sections and the same results of each section's
passes, and these add up to the answer of the run. -/
theorem run_interleaves {v : Value} {p : Problem} (hload : Problem.ofValue v = .ok p)
    {model : CostModel} (hmodel : model.Total) {reflection : Option Reflection} {config : Config}
    {held : List Matching × Work} (h : ReachesPins p.board model reflection config held) :
    let ended := run p.board model reflection config
    let secs := held.1.map (·.sec)
    let lanes := held.1.map Lane.fresh
    let phased := play (held.2.board, lanes) (phases config secs)
    (phased.answer = .ok () ∧ phased.state.1 = ended.state.1) ∧
    ∀ schedule, Interleaves config secs schedule →
      let played := play (held.2.board, lanes) schedule
      let w := tally held.2 played.state.1 played.state.2
      played.answer = .ok () ∧ played.state.1.boundary = ended.state.1.boundary ∧
        played.state.1.pins = ended.state.1.pins ∧ played.state.2 = phased.state.2 ∧
        played.state.2.map (·.sec) = ended.state.2 ∧
        (conclude config w.failures (finish w)).answer = ended.answer := by
  intro ended secs lanes phased
  have hd := Problem.ofValue_declared hload
  have hprepared := h.prepared hd hmodel
  have hplaceable : ∀ m ∈ held.1, m.Placeable held.2.board := fun m hm =>
    (hprepared.placeable m hm).frame hprepared.frame
  have hapart : secs.Pairwise fun s t => s.footprint.Apart t.footprint := by
    simp only [secs, hprepared.secs_eq]
    exact footprints_apart hd h.distributed
  obtain ⟨last, commits, hall⟩ := play_interleaved hplaceable hapart config
  have hok := sweeps_finish (taskPasses_finish config) (.refl _) hplaceable
  obtain ⟨hstate, hanswer⟩ := h.run_eq
  have hms : lanes.map (·.matching) = held.1 := by simp [lanes, Lane.fresh, Function.comp_def]
  have hsecs : lanes.map (·.sec) = secs := by simp [lanes, secs, Lane.fresh, Lane.sec]
  have hnone : ∀ lane ∈ lanes, lane.pinResult = {} ∧ lane.groupResult = {} := by
    intro lane hlane
    obtain ⟨m, -, rfl⟩ := List.mem_map.mp hlane
    exact ⟨rfl, rfl⟩
  have hperform := sweeps_perform (w := held.2) config hnone (by rw [hms]; exact hok)
  rw [hms, hsecs] at hperform
  obtain ⟨hphased, hboard, hmatchings, hwork⟩ := hperform
  have hend : phased.state.1 = ended.state.1 := hboard.trans (congrArg Prod.fst hstate).symm
  obtain ⟨-, hlanes, hmerges⟩ := hall _ (interleaves_phases config secs)
  refine ⟨⟨hphased, hend⟩, fun schedule hschedule => ?_⟩
  obtain ⟨hplayed, hlanes', hmerges'⟩ := hall schedule hschedule
  obtain ⟨hboundary, hpins⟩ := hmerges.unique hmerges'
  have hsame : (play (held.2.board, lanes) schedule).state.2 = phased.state.2 :=
    hlanes'.trans hlanes.symm
  intro played w
  refine ⟨hplayed, hboundary.trans ?_, hpins.trans ?_, hsame, ?_, ?_⟩
  · exact congrArg Board.boundary hend
  · exact congrArg Board.pins hend
  · have hsections : ended.state.2 = _ := congrArg Prod.snd hstate
    rw [hsections, hmatchings, hsame, List.map_map]
    rfl
  · rw [hanswer, hok, hwork]
    simp only [w, played, hsame]
    exact congrArg (·.answer) (conclude_tally config held.2 phased.state.2 hpins)

/-- The tasks of `ringOfSix` in another order than that of the run. -/
theorem run_interleaves_ringOfSix :
    let p := ringOfSixProblem
    let config : Config := { usageFactor := { mantissa := 3, scale := 2 } }
    let shared := distribute p.board p.model config (p.board.boundary.sections config.sectionSize)
    let held := (Run.sweeps (Run.earlyPasses p.board config)
      (Run.opening p.board p.model none shared.state)).state
    let schedule : List (Nat × Task) :=
      [(1, .findPins), (0, .findPins), (0, .commitPins), (0, .findGroups), (1, .commitPins),
        (0, .commitGroups)]
    let played := play (held.2.board, held.1.map Lane.fresh) schedule
    schedule ≠ phases config (held.1.map (·.sec)) ∧ played.answer = .ok () ∧
      played.state.1.pins = (run p.board p.model none config).state.1.pins ∧
      played.state.2.map (·.pinResult.placed) = [[0], [1]] ∧
      played.state.2.map (·.groupResult.placed) = [[2, 3], []] := by
  intro p config shared held schedule played
  have hload : Problem.ofValue ringOfSix = .ok p := by with_unfolding_all rfl
  have hreaches : Run.ReachesPins p.board p.model none config held :=
    ⟨by decide +kernel, by decide +kernel, by decide +kernel, rfl⟩
  have hschedule : Interleaves config (held.1.map (·.sec)) schedule :=
    ⟨by decide +kernel, by decide +kernel⟩
  obtain ⟨hok, -, hpins, -⟩ := (run_interleaves hload p.model_total hreaches).2 schedule hschedule
  exact ⟨by decide +kernel, hok, hpins, by decide +kernel, by decide +kernel⟩

end PinRing
