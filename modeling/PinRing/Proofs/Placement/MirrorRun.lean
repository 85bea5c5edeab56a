import Mathlib.Logic.Basic
import PinRing.Proofs.Placement.MirrorPass
import PinRing.Proofs.Placement.Stages

/-! What a run does to mirror pairs.  The mirrored pass places both pins of a pair or neither, the
passes after it leave mirrored pins alone, and the pairs that were not placed make the verdict. -/

namespace PinRing

open Board

namespace Board

/-- What a run on paired pins may place: by themselves the pins without a partner, in pairs those
that come before their partner, and the groups of the table. -/
def leaderScope (b : Board) : Scope where
  pins
    | .single, i => ∀ j, b.pins.partner i ≠ .ok (some j)
    | _, i => ∀ j, b.pins.partner i = .ok (some j) → i < j
  groups g := g ∈ b.pins.groups

/-- What is placed once the pairs are through. -/
def aloneScope (b : Board) : Scope where
  pins o i := o = .single ∧ ∀ j, b.pins.partner i ≠ .ok (some j)
  groups g := g ∈ b.pins.groups

theorem aloneScope_le (b : Board) : b.aloneScope.Le b.leaderScope where
  pins o i h := by
    obtain ⟨rfl, halone⟩ := h
    exact halone
  groups _ hg := hg

theorem Paired.pairs {start : Board} (hb : start.Paired) {reflect : Reflection} {i j : Nat}
    (hlt : i < j) (hij : start.pins.partner i = .ok (some j)) :
    start.leaderScope.Pairs reflect start i j where
  partner := hij
  back _ _ := hb.partner_symm
  ne := Nat.ne_of_lt hlt
  single k halone := by
    have halone : ∀ l, start.pins.partner k ≠ .ok (some l) := halone
    exact ⟨fun heq => halone j (heq ▸ hij), fun heq => halone i (heq ▸ hb.partner_symm hij)⟩
  group _ hg := ⟨hb.notMem hij hg, hb.notMem (hb.partner_symm hij) hg⟩
  undone hlead := by
    have hlead : ∀ l, start.pins.partner j = .ok (some l) → j < l := hlead
    exact absurd (hlead i (hb.partner_symm hij)) (Nat.lt_asymm hlt)

end Board

namespace Run

variable {start : Board} {model : CostModel} {reflect : Reflection} {config : Config}
variable {scope : Scope} {kinds : Origin → Prop} {m : Matching} {w : Work} {ms : List Matching}

/-- A mirrored pass that goes through has decided the pins of its section. -/
theorem mirrorStep_settled (hready : m.Ready start scope kinds (some reflect)) (hkind : kinds .pair)
    (hframe : Frame start w.board) (hok : (pinStep true m w).answer = .ok ()) :
    (pinStep true m w).state.1.sec = m.sec ∧
      ∃ cs failures, Moves (some reflect) scope w.board cs ∧
        (pinStep true m w).state.2.board = w.board.takeAll cs ∧
        (pinStep true m w).state.2.failures = w.failures ++ failures ∧
        Settled start.pins m.sec.pins cs failures := by
  obtain ⟨result, hfound, hpass⟩ := exists_of_pinStep_ok hok
  obtain ⟨-, hstate⟩ := pinStep_of_ok hfound hpass
  obtain ⟨matrix, assignment, hmatrix, -, hm⟩ := Matching.adopt_ok hfound
  have hm : (m.findPins w.board true).state = { m with matrix, assignment } := hm
  rw [hm] at hpass hstate
  obtain ⟨cs, hmoves, hboard, hcommits⟩ := Matching.commitPins_moves true
    (hready.of_adopted matrix assignment) hkind hframe hmatrix
  obtain rfl := hcommits result hpass
  rw [(Matching.commitPins_eq { m with matrix, assignment } w.board true).2] at hpass
  have hsettled := (PinPass.run_settled rfl hpass).of_frame hframe
  obtain ⟨-, hcolumns⟩ := Section.openPins_eq_ok.mp (Section.columns_of_pinMatrix hmatrix)
  have hsub : matrix.columns.Sublist m.sec.pins := hcolumns ▸ List.filter_sublist
  rw [hstate]
  exact ⟨rfl, result.commits, result.failures, hmoves, hboard, rfl, hsettled.mono hsub⟩

/-- After a mirrored pass over all sections that goes through every pin that they had is decided. -/
theorem mirrorSweep_settled (hready : ∀ m ∈ ms, m.Ready start scope kinds (some reflect))
    (hkind : kinds .pair) (hboard : w.board = start) (hnone : w.failures = [])
    (hok : (sweep (pinStep true) ms w).answer = .ok ()) :
    let swept := (sweep (pinStep true) ms w).state
    swept.1.map (·.sec) = ms.map (·.sec) ∧
      (∀ m ∈ swept.1, m.Ready start scope kinds (some reflect)) ∧
      ∃ cs, Moves (some reflect) scope start cs ∧ swept.2.board = start.takeAll cs ∧
        Settled start.pins (ms.flatMap (·.sec.pins)) cs swept.2.failures := by
  have hall := sweep_reaches
    (I := fun done rest w => (done ++ rest).map (·.sec) = ms.map (·.sec) ∧
      (∀ m ∈ done ++ rest, m.Ready start scope kinds (some reflect)) ∧
      ∃ cs, Moves (some reflect) scope start cs ∧ w.board = start.takeAll cs ∧
        Settled start.pins (done.flatMap (·.sec.pins)) cs w.failures)
    (fun done m rest w ⟨hsecs, hready, cs, hmoves, hboard, hsettled⟩ hok => by
      have hm := hready m (List.mem_append_right _ List.mem_cons_self)
      have hframe : Frame start w.board := hboard ▸ hmoves.isOpen.frame
      obtain ⟨hsec, ds, failures, hmoves', hboard', hfailures, hsettled'⟩ :=
        mirrorStep_settled hm hkind hframe hok
      have hm' := (pinStep_sound true hkind m w hframe hm).1
      refine ⟨?_, ?_, cs ++ ds, hmoves.append (hboard ▸ hmoves'), ?_, ?_⟩
      · rw [← hsecs]
        simp [hsec]
      · intro n hn
        simp only [List.append_assoc, List.singleton_append, List.mem_append, List.mem_cons] at hn
        rcases hn with hn | rfl | hn
        · exact hready n (List.mem_append_left _ hn)
        · exact hm'
        · exact hready n (List.mem_append_right _ (List.mem_cons_of_mem _ hn))
      · rw [hboard', hboard, takeAll_append]
      · rw [hfailures, List.flatMap_append, List.flatMap_singleton, hsec]
        exact hsettled.append hsettled')
    hok ⟨rfl, hready, [], .nil start, hboard, hnone ▸ .nil _ _⟩
  obtain ⟨hsecs, hready', cs, hmoves, hend, hsettled⟩ := hall
  rw [List.append_nil] at hsecs hready'
  refine ⟨hsecs, hready', cs, hmoves, hend, ?_⟩
  have hpins : ms.flatMap (·.sec.pins) =
      (sweep (pinStep true) ms w).state.1.flatMap (·.sec.pins) := by
    have := congrArg (List.flatMap Section.pins) hsecs
    rwa [List.flatMap_map, List.flatMap_map, eq_comm] at this
  rwa [hpins]

theorem ready_alone (hready : m.Ready start start.leaderScope kinds (some reflect)) :
    m.Ready start start.aloneScope (· = .single) (some reflect) where
  reflection_eq := hready.reflection_eq
  blockSize_eq := hready.blockSize_eq
  covered :=
    { pins := by
        rintro i - o rfl helig
        exact ⟨rfl, fun j => helig.partner_ne⟩
      groups := hready.covered.groups }

theorem laterPasses_reported (config : Config) :
    ∀ step ∈ laterPasses config, ∀ m w, ∃ failing, ¬failing ∧
      Reported failing w (step m w).state.2 := by
  intro step hstep m w
  simp only [laterPasses, List.mem_append] at hstep
  rcases hstep with (hstep | hstep) | hstep
  · split at hstep
    · exact ⟨False, id, List.mem_singleton.mp hstep ▸ reserveStep_reported m w⟩
    · cases hstep
  · exact ⟨_, Bool.false_ne_true, List.mem_singleton.mp hstep ▸ pinStep_reported false m w⟩
  · split at hstep
    · exact ⟨False, id, List.mem_singleton.mp hstep ▸ groupStep_reported m w⟩
    · cases hstep

theorem sweeps_keeps {P : Work → Prop} {steps : List SectionStep} {s : List Matching × Work}
    (hsteps : ∀ step ∈ steps, ∀ m w, P w → P (step m w).state.2) (h : P s.2) :
    P (sweeps steps s).state.2 :=
  Outcome.forEach_state (P := fun s : List Matching × Work => P s.2)
    (fun _ step hstep hs => sweep_keeps (hsteps step hstep) hs) h

theorem laterPasses_failures (config : Config) (s : List Matching × Work) :
    (sweeps (laterPasses config) s).state.2.failures = s.2.failures :=
  sweeps_keeps (P := fun w => w.failures = s.2.failures) (fun step hstep m w hw => by
    obtain ⟨failing, hnot, hstep⟩ := laterPasses_reported config step hstep m w
    exact (hstep.failures_eq hnot).trans hw) rfl

theorem laterPasses_accounted (config : Config) {s : List Matching × Work} (h : s.2.Accounted) :
    (sweeps (laterPasses config) s).state.2.Accounted :=
  sweeps_keeps (fun step hstep m w hw => by
    obtain ⟨failing, -, hstep⟩ := laterPasses_reported config step hstep m w
    exact hstep.accounted hw) h

/-- The passes of a run that goes through: some pairs are placed and the others fail, then nothing
but pins without a partner and groups is placed, and the errors are about the failed pairs. -/
structure Paired (start : Board) (reflect : Reflection) (secs : List Section) (w : Work)
    (cs ds : List Commit) : Prop where
  pairs : Moves (some reflect) start.leaderScope start cs
  alone : Moves (some reflect) start.aloneScope (start.takeAll cs) ds
  board_eq : w.board = start.takeAll (cs ++ ds)
  settled : Settled start.pins (secs.flatMap (·.pins)) cs w.failures
  accounted : w.Accounted

theorem later_paired {secs : List Section} {s : List Matching × Work} {cs : List Commit}
    (hready : ∀ m ∈ s.1, m.Ready start start.leaderScope kinds (some reflect))
    (hmoves : Moves (some reflect) start.leaderScope start cs)
    (hboard : s.2.board = start.takeAll cs)
    (hsettled : Settled start.pins (secs.flatMap (·.pins)) cs s.2.failures)
    (haccounted : s.2.Accounted) (config : Config) :
    ∃ ds, Paired start reflect secs (sweeps (laterPasses config) s).state.2 cs ds := by
  have hframe : Frame start s.2.board := hboard ▸ hmoves.isOpen.frame
  have hsound : ∀ step ∈ laterPasses config,
      Sound (some reflect) start start.aloneScope (· = .single) step :=
    laterPasses_sound (by rfl) config
  obtain ⟨ds, hadvanced⟩ := forEach_sweep_advances hsound hframe
    fun m hm => ready_alone (hready m hm)
  refine ⟨ds, hmoves, hboard ▸ hadvanced.moves, ?_, ?_, laterPasses_accounted config haccounted⟩
  · rw [takeAll_append, ← hboard]
    exact hadvanced.board_eq
  · rwa [laterPasses_failures]

theorem opening_ready {secs : List Section}
    (hfirst : ∀ i ∈ secs.flatMap (·.pins), ∀ j, start.pins.partner i = .ok (some j) → i < j)
    (hgroups : ∀ s ∈ secs, ∀ g ∈ s.groups, g ∈ start.pins.groups) :
    ∀ m ∈ (opening start model (some reflect) secs).1,
      m.Ready start start.leaderScope (fun _ => True) (some reflect) := by
  intro m hm
  obtain ⟨s, hs, rfl⟩ := List.mem_map.mp hm
  refine ⟨rfl, rfl, fun i hi o _ helig => ?_, hgroups s hs⟩
  have hlead := hfirst i (List.mem_flatMap.mpr ⟨s, hs, hi⟩)
  cases o with
  | single => exact fun j => helig.partner_ne
  | pair => exact hlead
  | group => exact hlead

theorem passes_paired {secs : List Section}
    (hfirst : ∀ i ∈ secs.flatMap (·.pins), ∀ j, start.pins.partner i = .ok (some j) → i < j)
    (hgroups : ∀ s ∈ secs, ∀ g ∈ s.groups, g ∈ start.pins.groups)
    (hok : (sweeps (passes start config) (opening start model (some reflect) secs)).answer =
      .ok ()) :
    ∃ cs ds, Paired start reflect secs
      (sweeps (passes start config) (opening start model (some reflect) secs)).state.2 cs ds := by
  have hready : ∀ m ∈ (opening start model (some reflect) secs).1,
      m.Ready start start.leaderScope (fun _ => True) (some reflect) :=
    opening_ready hfirst hgroups
  rw [passes_eq] at hok ⊢
  split
  · exact ⟨[], later_paired hready (.nil start) rfl (.nil _ _) rfl config⟩
  · rename_i hmirrors
    rw [if_neg hmirrors, sweeps_append] at hok
    rw [sweeps_append]
    obtain ⟨_, hmirror, -, hstate⟩ := Outcome.exists_of_andThen_eq_ok hok
    obtain ⟨hanswer, hswept⟩ := sweeps_singleton (pinStep true)
      (opening start model (some reflect) secs)
    rw [hanswer] at hmirror
    obtain ⟨-, hready', cs, hmoves, hboard, hsettled⟩ :=
      mirrorSweep_settled hready trivial rfl rfl hmirror
    have hpins : (opening start model (some reflect) secs).1.flatMap (·.sec.pins) =
        secs.flatMap (·.pins) := by
      rw [opening, List.flatMap_map]
      rfl
    have haccounted : (sweep (pinStep true) (opening start model (some reflect) secs).1
        (opening start model (some reflect) secs).2).state.2.Accounted :=
      sweep_keeps (P := Work.Accounted) (fun m w hw => (pinStep_reported true m w).accounted hw) rfl
    rw [hstate, hswept]
    exact ⟨cs, later_paired hready' hmoves hboard (hpins ▸ hsettled) haccounted config⟩

theorem place_paired {secs : List Section} {verdict : Verdict}
    (hfirst : ∀ i ∈ secs.flatMap (·.pins), ∀ j, start.pins.partner i = .ok (some j) → i < j)
    (hgroups : ∀ s ∈ secs, ∀ g ∈ s.groups, g ∈ start.pins.groups)
    (hended : (place start model (some reflect) config secs).answer = .ok verdict) :
    ∃ w cs ds, Paired start reflect secs w cs ds ∧
      (place start model (some reflect) config secs).state.1 = w.board ∧
      verdict = judge config w.failures verdict.report ∧
      verdict.report.errors = w.report.errors := by
  rw [place_answer] at hended
  cases hok : (sweeps (passes start config) (opening start model (some reflect) secs)).answer with
  | error f => rw [hok] at hended; cases hended
  | ok _ =>
    rw [hok] at hended
    obtain ⟨hverdict, hreport⟩ := eq_of_conclude hended
    obtain ⟨cs, ds, hpaired⟩ := passes_paired hfirst hgroups hok
    refine ⟨_, cs, ds, hpaired, congrArg Prod.fst (place_state _ _ _ _ _), ?_, ?_⟩
    · rw [hreport]
      exact hverdict
    · rw [hreport]
      rfl

end Run

open Run

variable {board : Board}

theorem Run.Paired.faces {reflect : Reflection} {secs : List Section} {w : Work}
    {cs ds : List Commit} (h : Run.Paired board reflect secs w cs ds) (hb : board.Paired)
    {i j : Nat} (hlt : i < j) (hij : board.pins.partner i = .ok (some j)) :
    Faces reflect w.board i j := by
  have hmoves := h.pairs.append (h.alone.mono (aloneScope_le board))
  rw [h.board_eq]
  exact hmoves.faces (hb.pairs hlt hij) (Frame.refl board)
    (.inl ⟨hb.spotOf_eq_none hij, hb.spotOf_eq_none (hb.partner_symm hij)⟩)

/-- A pin with a partner that the pairs leave without a place stays without one. -/
theorem Run.Paired.spotOf_eq_none {reflect : Reflection} {secs : List Section} {w : Work}
    {cs ds : List Commit} (h : Run.Paired board reflect secs w cs ds) (hb : board.Paired)
    {i j : Nat} (hij : board.pins.partner i = .ok (some j)) (hi : i ∉ cs.map (·.pin)) :
    w.board.spotOf i = none := by
  have hout : i ∉ (cs ++ ds).map (·.pin) := by
    rw [List.map_append, List.mem_append, not_or]
    have hsingle : ¬board.aloneScope.pins .single i := fun halone => halone.2 j hij
    have hpair : ∀ k, ¬board.aloneScope.pins .pair k := fun _ hk => nomatch hk.1
    exact ⟨hi, h.alone.notMem hsingle hpair fun g hg => hb.notMem hij hg⟩
  have hopen := (h.pairs.append (h.alone.mono (aloneScope_le board))).isOpen
  rw [h.board_eq, hopen.spotOf_of_notMem hout]
  exact hb.spotOf_eq_none hij

theorem Board.Faces.xor {reflect : Reflection} {i j : Nat} (h : Faces reflect board i j) :
    Xor (∃ s t, board.spotOf i = some s ∧ board.spotOf j = some t ∧ reflect.Sends s.pos t.pos ∧
        t.layer = s.layer)
      (board.spotOf i = none ∧ board.spotOf j = none) := by
  rcases h with ⟨hi, hj⟩ | ⟨s, t, hs, ht, hrest⟩
  · exact .inr ⟨⟨hi, hj⟩, fun ⟨s, _, hs, _⟩ => by rw [hi] at hs; cases hs⟩
  · exact .inl ⟨⟨s, t, hs, ht, hrest⟩, fun ⟨hi, _⟩ => by rw [hs] at hi; cases hi⟩

theorem Board.Faces.refl_of_paired {reflect : Reflection} (hb : board.Paired) {i j : Nat}
    (hij : board.pins.partner i = .ok (some j)) : Faces reflect board i j :=
  .inl ⟨hb.spotOf_eq_none hij, hb.spotOf_eq_none (hb.partner_symm hij)⟩

/-- A run on paired pins that is not stopped by a fault places both pins of a pair on spots that
reflect each other, the first pin's spot onto the second's, or neither pin.  Each pair that failed
is reported in one error and is not placed.  The run ends in the fault of unplaced pairs exactly if
some pair failed and mirroring is strict; without strict mirroring it ends in the same board and
report. -/
theorem run_pairs (hb : board.Paired) (model : CostModel) (reflect : Reflection) (config : Config)
    {verdict : Verdict} (hended : (run board model (some reflect) config).answer = .ok verdict) :
    let ended := (run board model (some reflect) config).state.1
    let lenient := run board model (some reflect) { config with strictMirroring := false }
    (∀ i j, i < j → board.pins.partner i = .ok (some j) →
      Xor (∃ s t, ended.spotOf i = some s ∧ ended.spotOf j = some t ∧ reflect.Sends s.pos t.pos ∧
          t.layer = s.layer)
        (ended.spotOf i = none ∧ ended.spotOf j = none)) ∧
    (∃ failures, verdict.report.errors = failures.map PinPass.failureDiagnostic ∧
      (failures.flatMap fun f => [f.pin, f.partner]).Nodup ∧
      (∀ f ∈ failures, ∃ i j p q, i < j ∧ board.pins.partner i = .ok (some j) ∧
        board.pins.pins[i]? = some p ∧ board.pins.pins[j]? = some q ∧ f.pin = p.name ∧
        f.partner = q.name ∧ ended.spotOf i = none ∧ ended.spotOf j = none) ∧
      verdict =
        if config.strictMirroring ∧ failures ≠ [] then .mirrorsFailed failures verdict.report
        else .placed verdict.report) ∧
    lenient.state.1 = ended ∧ lenient.answer = .ok (.placed verdict.report) := by
  intro ended lenient
  obtain ⟨hstate, hanswer⟩ := run_lenient board model (some reflect) config
  rw [hended] at hanswer
  suffices hpairs : (∀ i j, i < j → board.pins.partner i = .ok (some j) → Faces reflect ended i j) ∧
      ∃ failures, verdict.report.errors = failures.map PinPass.failureDiagnostic ∧
        (failures.flatMap fun f => [f.pin, f.partner]).Nodup ∧
        (∀ f ∈ failures, ∃ i j p q, i < j ∧ board.pins.partner i = .ok (some j) ∧
          board.pins.pins[i]? = some p ∧ board.pins.pins[j]? = some q ∧ f.pin = p.name ∧
          f.partner = q.name ∧ ended.spotOf i = none ∧ ended.spotOf j = none) ∧
        verdict = judge config failures verdict.report by
    obtain ⟨hfaces, failures, herrors, hnodup, hfailed, hverdict⟩ := hpairs
    refine ⟨fun i j hlt hij => (hfaces i j hlt hij).xor, ?_, congrArg Prod.fst hstate, hanswer⟩
    refine ⟨failures, herrors, hnodup, hfailed, hverdict.trans ?_⟩
    simp [judge]
  by_cases hne : board.boundary.sections config.sectionSize = []
  · -- Without sections nothing is placed.
    have hboard : ended = board :=
      congrArg (·.state.1) (run_of_nil (some reflect) hne)
    rw [run_of_nil (some reflect) hne] at hended
    cases hended
    rw [hboard]
    refine ⟨fun i j _ hij => .refl_of_paired hb hij, [], rfl, .nil, by simp, ?_⟩
    simp [judge, Verdict.report]
  cases hdistribute :
    (distribute board model config (board.boundary.sections config.sectionSize)).answer with
  | error f =>
    rw [(run_of_distribute_error (some reflect) hne hdistribute).1] at hended
    cases hended
  | ok _ =>
    obtain ⟨hstate, hanswer⟩ := run_of_distribute (some reflect) hne hdistribute
    rw [hanswer] at hended
    have hfirst := Distribution.leaders_distribute hb hdistribute
    obtain ⟨w, cs, ds, hpaired, hboard, hverdict, herrors⟩ := place_paired hfirst
      (fun s hs g hg => (Distribution.given_distribute hdistribute s hs g hg).1) hended
    have hboard : ended = w.board := (congrArg Prod.fst hstate).trans hboard
    obtain ⟨hnodup, hfailed⟩ := hpaired.settled.failed_pairs hb
      (Distribution.pins_distribute hdistribute).1 hfirst
    rw [hboard]
    refine ⟨fun i j hlt hij => hpaired.faces hb hlt hij, w.failures, ?_, hnodup, ?_, hverdict⟩
    · rw [herrors, hpaired.accounted]
    · intro f hf
      obtain ⟨i, j, p, q, hlt, hij, hp, hq, hpin, hpartner, hi, hj⟩ := hfailed f hf
      exact ⟨i, j, p, q, hlt, hij, hp, hq, hpin, hpartner, hpaired.spotOf_eq_none hb hij hi,
        hpaired.spotOf_eq_none hb (hb.partner_symm hij) hj⟩

/-- Two slots on the bottom of a core and one on its top, for two mirror pairs. -/
def twoPairs : Board where
  boundary :=
    { slots := #[{ pos := ⟨10, 0⟩, layer := 0, edge := .bottom },
        { pos := ⟨20, 0⟩, layer := 0, edge := .bottom },
        { pos := ⟨10, 20⟩, layer := 0, edge := .top }] }
  pins :=
    { pins := #[{ name := "a" }, { name := "b" }, { name := "c" }, { name := "d" }]
      mirrors := [("a", "b"), ("b", "a"), ("c", "d"), ("d", "c")] }

theorem paired_twoPairs : twoPairs.Paired where
  names_nodup := by decide
  back x y h := by
    have hmem := PinTable.mem_of_lookup h
    simp only [twoPairs, List.mem_cons, Prod.mk.injEq, List.not_mem_nil, or_false] at hmem
    rcases hmem with ⟨rfl, rfl⟩ | ⟨rfl, rfl⟩ | ⟨rfl, rfl⟩ | ⟨rfl, rfl⟩ <;> decide
  ne x y h := by
    have hmem := PinTable.mem_of_lookup h
    simp only [twoPairs, List.mem_cons, Prod.mk.injEq, List.not_mem_nil, or_false] at hmem
    rcases hmem with ⟨rfl, rfl⟩ | ⟨rfl, rfl⟩ | ⟨rfl, rfl⟩ | ⟨rfl, rfl⟩ <;> decide
  unplaced := by decide
  ungrouped := by decide
  unlisted := nofun

theorem run_pairs_twoPairs :
    let core : Outline := Core.outline (.mk 0 0 30 20 (by decide) (by decide))
    let config : Config := { usageFactor := { mantissa := 1, scale := 0 } }
    let model := CostModel.linear 1 1 0
    let ended := run twoPairs model (some core.reflection) config
    ended.state.1.spotOf 0 = some ⟨⟨10, 0⟩, 0⟩ ∧ ended.state.1.spotOf 1 = some ⟨⟨10, 20⟩, 0⟩ ∧
      ∃ verdict, ended.answer = .ok verdict ∧ verdict.fault?.isSome ∧
        (run twoPairs model (some core.reflection)
          { config with strictMirroring := false }).answer = .ok (.placed verdict.report) := by
  intro core config model ended
  have hok : (ended.answer.toOption.bind (·.fault?)).isSome := by decide +kernel
  cases hended : ended.answer with
  | error f => rw [hended] at hok; cases hok
  | ok verdict =>
    rw [hended] at hok
    obtain ⟨-, -, -, hlenient⟩ := run_pairs paired_twoPairs model core.reflection config hended
    exact ⟨by decide +kernel, by decide +kernel, verdict, rfl, hok, hlenient⟩

end PinRing
