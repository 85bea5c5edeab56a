import PinRing.Proofs.Placement.Reservation
import PinRing.Proofs.Placement.Sectioning
import PinRing.Proofs.Placement.Stages

/-! Reservations over a whole run.  Sections share no slot, so what a pass does in one of them
leaves the slots that are held back in another as they are. -/

namespace PinRing

open Board

/-- The two matchings are about sections that share no slot. -/
def Matching.Disjoint (m n : Matching) : Prop := ∀ i, m.sec.Has i → ¬n.sec.Has i

namespace Run

variable {ms : List Matching} {m : Matching} {w : Work} {before : Board}

/-- The section of a matching and the slots that are held back in it. -/
def holding (m : Matching) : Section × List Nat := (m.sec, m.reserved)

/-- The section of a matching and the size of its blocks. -/
def sizing (m : Matching) : Section × Nat := (m.sec, m.blockSize)

/-- The groups of the section, if any, have slots held back for them on the board. -/
def Holds (before : Board) (m : Matching) : Prop :=
  m.Within before ∧ (m.sec.groups ≠ [] → ∃ a, m.Reserved before a)

/-! ### Single steps -/

theorem reserveStep_holds (hw : m.Within w.board) (hok : (reserveStep m w).answer = .ok ()) :
    ∃ reserved, (reserveStep m w).state = ({ m with reserved }, w) ∧
      Holds w.board { m with reserved } := by
  by_cases hne : m.sec.groups = []
  · rw [(step_of_noGroups hne w).1]
    exact ⟨m.reserved, rfl, hw, fun hgroups => absurd hne hgroups⟩
  · obtain ⟨matrix, a, hmatrix, hsolved⟩ := exists_of_reserveStep_ok hne hok
    have hprices := Matching.prices_of_groupMatrix hw hmatrix
    obtain ⟨a', ha'⟩ := m.exists_solves w.board hne
    have heq := Matching.groupMatrix_eq hw hne hprices
    obtain ⟨-, hstate⟩ := reserveStep_of_ok hne heq ha'.solved
    have hw' := hw.worked m.matrix m.assignment
    exact ⟨_, hstate, hw' _, fun _ => ⟨a', hw' _, hprices, ha', rfl⟩⟩

theorem Holds.adopted (h : Holds before m) (matrix : CostMatrix) (assignment : Assignment) :
    Holds before { m with matrix, assignment } := by
  obtain ⟨hw, hreserved⟩ := h
  have hw' := hw.worked matrix assignment m.reserved
  refine ⟨hw', fun hne => ?_⟩
  obtain ⟨a, ha⟩ := hreserved hne
  exact ⟨a, hw', ha.prices, ha.solves, ha.reserved_eq⟩

/-! ### The passes up to the groups -/

/-- Sections that share no slot, with the slots that are held back in each on the board. -/
structure Held (before : Board) (ms : List Matching) : Prop where
  behind : (ms.map (·.sec)).Pairwise fun s t => s.stop ≤ t.first
  holds : ∀ m ∈ ms, Holds before m

/-- The pass over mirrored pins leaves the sections as they are. -/
theorem mirrorSweep_secs (hok : (sweep (pinStep true) ms w).answer = .ok ()) :
    let swept := (sweep (pinStep true) ms w).state
    swept.1.map sizing = ms.map sizing ∧ Frame w.board swept.2.board := by
  have hall := sweep_reaches
    (I := fun done rest w' => (done ++ rest).map sizing = ms.map sizing ∧ Frame w.board w'.board)
    (fun done m rest w' ⟨hkeep, hframe⟩ hstep => by
      obtain ⟨⟨matrix, assignment, hm⟩, cs, hopen, hboard, -⟩ := pinStep_opens hstep
      rw [hm, hboard]
      refine ⟨?_, hframe.trans hopen.frame⟩
      rw [← hkeep]
      simp [sizing])
    hok ⟨rfl, .refl _⟩
  rwa [List.append_nil] at hall

/-- The reservation changes nothing but the slots held back. -/
theorem reserveSweep_held (hbehind : (ms.map (·.sec)).Pairwise fun s t => s.stop ≤ t.first)
    (hwithin : ∀ m ∈ ms, m.Within w.board) (hok : (sweep reserveStep ms w).answer = .ok ()) :
    (sweep reserveStep ms w).state.2 = w ∧ Held w.board (sweep reserveStep ms w).state.1 := by
  have hall := sweep_reaches
    (I := fun done rest w' => w' = w ∧ (done ++ rest).map (·.sec) = ms.map (·.sec) ∧
      (∀ m ∈ done, Holds w.board m) ∧ ∀ m ∈ rest, m.Within w.board)
    (fun done m rest w' ⟨hw, hsecs, hdone, hrest⟩ hstep => by
      rw [hw] at hstep ⊢
      obtain ⟨hm, hrest⟩ := List.forall_mem_cons.mp hrest
      obtain ⟨reserved, hstate, hholds⟩ := reserveStep_holds hm hstep
      rw [hstate]
      refine ⟨rfl, ?_, ?_, hrest⟩
      · rw [← hsecs]
        simp
      · exact List.forall_mem_append.mpr ⟨hdone, List.forall_mem_singleton.mpr hholds⟩)
    hok ⟨rfl, rfl, (fun _ hm => nomatch hm), hwithin⟩
  obtain ⟨hw, hsecs, hholds, -⟩ := hall
  rw [List.append_nil] at hsecs
  exact ⟨hw, hsecs ▸ hbehind, hholds⟩

/-- Sections one behind the other share no slot. -/
theorem Held.pairwise (h : Held before ms) : ms.Pairwise Matching.Disjoint :=
  (List.pairwise_map.mp h.behind).imp fun hbehind i hi hi' => by
    have := hi.2
    have := hi'.1
    omega

theorem Held.eq_of_has (h : Held before ms) {n : Matching} (hm : m ∈ ms) (hn : n ∈ ms) {i : Nat}
    (hi : m.sec.Has i) (hi' : n.sec.Has i) : m = n := by
  by_contra hne
  have hsymm : Std.Symm Matching.Disjoint := ⟨fun _ _ h i hi hi' => h i hi' hi⟩
  exact h.pairwise.forall hm hn hne i hi hi'

/-- The regular pass keeps off the slots held back in any section. -/
theorem regularSweep_held (hheld : Held w.board ms)
    (hok : (sweep (pinStep false) ms w).answer = .ok ()) :
    let swept := (sweep (pinStep false) ms w).state
    swept.1.map holding = ms.map holding ∧ Held w.board swept.1 ∧
      ∃ cs, w.board.Open cs ∧ swept.2.board = w.board.takeAll cs ∧
        ∀ c ∈ cs, ∀ m ∈ swept.1, m.sec.groups ≠ [] → c.slot ∉ m.reserved := by
  have hall := sweep_reaches
    (I := fun done rest w' => (done ++ rest).map holding = ms.map holding ∧
      (∀ m ∈ done ++ rest, Holds w.board m) ∧
      ∃ cs, w.board.Open cs ∧ w'.board = w.board.takeAll cs ∧
        ∀ c ∈ cs, ∃ m ∈ done, m.sec.Has c.slot ∧ c.slot ∉ m.reserved)
    (fun done m rest w' ⟨hkeep, hholds, cs, hopen, hboard, hslots⟩ hstep => by
      obtain ⟨⟨matrix, assignment, hm⟩, ds, hopen', hboard', hslots'⟩ := pinStep_opens hstep
      obtain ⟨hdone, hrest⟩ := List.forall_mem_append.mp hholds
      obtain ⟨hholdsM, hrest⟩ := List.forall_mem_cons.mp hrest
      rw [hm, hboard']
      refine ⟨?_, ?_, cs ++ ds, ?_, ?_, ?_⟩
      · rw [← hkeep]
        simp [holding]
      · exact List.forall_mem_append.mpr ⟨List.forall_mem_append.mpr
          ⟨hdone, List.forall_mem_singleton.mpr (hholdsM.adopted matrix assignment)⟩, hrest⟩
      · exact Open.append_iff.mpr ⟨hopen, hboard ▸ hopen'⟩
      · rw [takeAll_append, hboard]
      · intro c hc
        rcases List.mem_append.mp hc with hc | hc
        · obtain ⟨n, hn, hat⟩ := hslots c hc
          exact ⟨n, List.mem_append_left _ hn, hat⟩
        · exact ⟨_, List.mem_append_right _ (List.mem_singleton_self _), hslots' rfl c hc⟩)
    hok ⟨rfl, hheld.holds, [], .nil _, rfl, fun _ hc => nomatch hc⟩
  obtain ⟨hkeep, hholds, cs, hopen, hboard, hslots⟩ := hall
  rw [List.append_nil] at hkeep hholds
  have hsecs : (sweep (pinStep false) ms w).state.1.map (·.sec) = ms.map (·.sec) := by
    have := congrArg (List.map Prod.fst) hkeep
    rwa [List.map_map, List.map_map] at this
  have hheld' : Held w.board (sweep (pinStep false) ms w).state.1 :=
    ⟨hsecs ▸ hheld.behind, hholds⟩
  refine ⟨hkeep, hheld', cs, hopen, hboard, fun c hc m hm hne hmem => ?_⟩
  obtain ⟨n, hn, hhas, hout⟩ := hslots c hc
  obtain ⟨a, ha⟩ := (hholds m hm).2 hne
  obtain rfl := hheld'.eq_of_has hn hm hhas (ha.has hmem)
  exact hout hmem

/-! ### The pass over the groups -/

/-- The slots that are held back for the groups of the section are still free. -/
def Pending (before now : Board) (m : Matching) : Prop :=
  m.Within before ∧ (m.sec.groups ≠ [] → ∃ a, m.Reserved before a ∧ m.Kept before now)

/-- The group step of one section goes through, and leaves the slots held back in others alone. -/
theorem groupStep_pending (hm : Pending before w.board m) (hframe : Frame before w.board) :
    (groupStep m w).answer = .ok () ∧ Frame before (groupStep m w).state.2.board ∧
      ∀ n, m.Disjoint n → Pending before w.board n →
        Pending before (groupStep m w).state.2.board n := by
  obtain ⟨hwithin, hreserved⟩ := hm
  by_cases hne : m.sec.groups = []
  · rw [(step_of_noGroups hne w).2]
    exact ⟨rfl, hframe, fun n _ hn => hn⟩
  obtain ⟨a, ha, hkept⟩ := hreserved hne
  obtain ⟨a', ha'⟩ := m.exists_solves w.board hne
  have hwithin := hwithin.frame hframe
  obtain ⟨hanswer, -, hopen, hboard⟩ := ha'.groupStep hwithin hne (hkept.prices ha.prices)
  rw [hboard]
  refine ⟨hanswer, hframe.trans hopen.frame, fun n hdisjoint ⟨hn, hpending⟩ => ⟨hn, fun hneN => ?_⟩⟩
  obtain ⟨b, hb, hkeptN⟩ := hpending hneN
  exact ⟨b, hb, hkeptN.takeAll hopen fun c hc hmem =>
    hdisjoint c.slot (ha'.has_of_mem hwithin hc) (hb.has hmem)⟩

/-- The pass over the groups goes through, and finds the slots held back in each section free. -/
theorem groupSweep_pending (hdisjoint : ms.Pairwise Matching.Disjoint)
    (hframe : Frame before w.board) (hpending : ∀ m ∈ ms, Pending before w.board m) :
    (sweep groupStep ms w).answer = .ok () ∧ ∀ (k : Nat) (m : Matching), ms[k]? = some m →
      let now := (sweep groupStep (ms.take k) w).state.2.board
      Frame before now ∧ Pending before now m := by
  induction ms generalizing w with
  | nil => exact ⟨rfl, fun k m hm => nomatch hm⟩
  | cons n rest ih =>
    obtain ⟨hn, hrest⟩ := List.forall_mem_cons.mp hpending
    obtain ⟨hout, hdisjoint⟩ := List.pairwise_cons.mp hdisjoint
    obtain ⟨hanswer, hframe', hkeeps⟩ := groupStep_pending hn hframe
    obtain ⟨hok, hall⟩ := ih hdisjoint hframe' fun m hm => hkeeps m (hout m hm) (hrest m hm)
    refine ⟨by simp only [sweep, hanswer, hok], fun k m hm => ?_⟩
    cases k with
    | zero =>
      obtain rfl : n = m := by simpa using hm
      exact ⟨hframe, hn⟩
    | succ k =>
      rw [List.take_succ_cons, sweep, hanswer]
      exact hall k m (by simpa using hm)

/-! ### Runs -/

variable {board : Board} {model : CostModel} {reflection : Option Reflection} {config : Config}

/-- A run that reaches the pass over the groups: the pass over mirrored pins, if there are any,
leaves `mirrored`, the reservation leaves `held`, and the regular pass leaves `filled`. -/
structure ReachesGroups (board : Board) (model : CostModel) (reflection : Option Reflection)
    (config : Config) (mirrored held filled : List Matching × Work) : Prop where
  assigns : config.assignGroups = true
  sections_ne : board.boundary.sections config.sectionSize ≠ []
  distributed :
    (distribute board model config (board.boundary.sections config.sectionSize)).answer = .ok ()
  mirrored_eq :
    let opened := opening board model reflection
      (distribute board model config (board.boundary.sections config.sectionSize)).state
    if board.pins.mirrors.isEmpty then opened = mirrored
    else (sweep (pinStep true) opened.1 opened.2).answer = .ok () ∧
      (sweep (pinStep true) opened.1 opened.2).state = mirrored
  held_eq : (sweep reserveStep mirrored.1 mirrored.2).answer = .ok () ∧
    (sweep reserveStep mirrored.1 mirrored.2).state = held
  filled_eq : (sweep (pinStep false) held.1 held.2).answer = .ok () ∧
    (sweep (pinStep false) held.1 held.2).state = filled

/-- When the reservation begins, the sections share no slot and lie within the board. -/
theorem ReachesGroups.within {mirrored held filled : List Matching × Work}
    (h : ReachesGroups board model reflection config mirrored held filled)
    (hmembers : ∀ g ∈ board.pins.groups, ∀ i ∈ g.members, i < board.pins.size) :
    (mirrored.1.map (·.sec)).Pairwise (fun s t => s.stop ≤ t.first) ∧
      ∀ m ∈ mirrored.1, m.Within mirrored.2.board := by
  let shared := distribute board model config (board.boundary.sections config.sectionSize)
  let opened := opening board model reflection shared.state
  obtain ⟨hsizing, hframe⟩ :
      mirrored.1.map sizing = opened.1.map sizing ∧ Frame board mirrored.2.board := by
    have hmirrored := h.mirrored_eq
    simp only at hmirrored
    split at hmirrored
    · rw [← hmirrored]
      exact ⟨rfl, .refl board⟩
    · rw [← hmirrored.2]
      exact mirrorSweep_secs hmirrored.1
  have hsizing : mirrored.1.map sizing = shared.state.map fun s => (s, s.blockSize) := by
    rw [hsizing]
    simp only [opened, opening, List.map_map]
    rfl
  have hsecs : mirrored.1.map (·.sec) = shared.state := by
    have := congrArg (List.map Prod.fst) hsizing
    rw [List.map_map, List.map_map] at this
    exact this.trans (List.map_id _)
  have hgiven := Distribution.given_distribute h.distributed
  obtain ⟨hbehind, hstop⟩ := Distribution.sections_distribute h.distributed
  refine ⟨hsecs ▸ hbehind, fun m hm => ?_⟩
  obtain ⟨s, hs, heq⟩ := List.mem_map.mp (hsizing ▸ List.mem_map_of_mem hm)
  obtain ⟨rfl, hsize⟩ := Prod.mk.inj heq
  refine Matching.Within.frame ⟨hstop _ hs, fun g hg => ?_, hsize.symm⟩ hframe
  exact hmembers g (hgiven m.sec hs g hg).1

/-- The pass over the groups ends the run. -/
theorem ReachesGroups.run_eq {mirrored held filled : List Matching × Work}
    (h : ReachesGroups board model reflection config mirrored held filled) :
    (run board model reflection config).state.1 =
      (sweep groupStep filled.1 filled.2).state.2.board := by
  have hlater : laterPasses config = [reserveStep, pinStep false, groupStep] := by
    simp [laterPasses, h.assigns]
  have hrest : (sweeps (laterPasses config) mirrored).state =
      (sweep groupStep filled.1 filled.2).state := by
    rw [hlater, (sweeps_cons h.held_eq.1 _).2, h.held_eq.2, (sweeps_cons h.filled_eq.1 _).2,
      h.filled_eq.2, (sweeps_singleton groupStep filled).2]
  obtain ⟨hstate, -⟩ := run_of_distribute reflection h.sections_ne h.distributed
  rw [hstate, place_state, passes_eq, ← hrest]
  have hmirrored := h.mirrored_eq
  simp only at hmirrored
  split
  · rename_i hnone
    rw [if_pos hnone] at hmirrored
    rw [List.nil_append, hmirrored]
  · rename_i hsome
    rw [if_neg hsome] at hmirrored
    rw [List.singleton_append, (sweeps_cons hmirrored.1 _).2, hmirrored.2]

end Run

open Run

/-- Whenever a run reaches the pass over the groups, that pass goes through.  No pin of the regular
pass sits on a slot that is held back for the groups of a section.  Every section lays out as many
of its groups as it has blocks at the time of the reservation, or all of them, and the solution that
it uses costs as much as the reserved one; with fewer blocks than groups it is the reserved one. -/
theorem run_honours_reservations {board : Board} {model : CostModel}
    {reflection : Option Reflection} {config : Config}
    (hmembers : ∀ g ∈ board.pins.groups, ∀ i ∈ g.members, i < board.pins.size)
    {mirrored held filled : List Matching × Work}
    (h : ReachesGroups board model reflection config mirrored held filled) :
    let grouped := sweep groupStep filled.1 filled.2
    grouped.answer = .ok () ∧
      (run board model reflection config).state.1 = grouped.state.2.board ∧
      held.2 = mirrored.2 ∧ filled.1.map holding = held.1.map holding ∧
      ∃ cs, filled.2.board.journal = held.2.board.journal ++ cs ∧
        ∀ (k : Nat) (m : Matching), filled.1[k]? = some m → m.sec.groups ≠ [] →
          let now := (sweep groupStep (filled.1.take k) filled.2).state.2
          (∀ c ∈ cs, c.slot ∉ m.reserved) ∧
            ∃ starts matrix a matrix' a' blocks,
              m.Honoured held.2.board now.board starts matrix a matrix' a' blocks ∧
              (groupStep m now).answer = .ok () ∧
              (groupStep m now).state.2.board.journal =
                now.board.journal ++ GroupPass.blockCommits m.sec blocks := by
  intro grouped
  obtain ⟨hdisjoint, hwithin⟩ := h.within hmembers
  obtain ⟨hsame, hheld⟩ := reserveSweep_held hdisjoint hwithin h.held_eq.1
  rw [h.held_eq.2] at hsame hheld
  rw [← hsame] at hheld
  obtain ⟨hholding, hfilled, cs, hopen, hboard, hout⟩ := regularSweep_held hheld h.filled_eq.1
  rw [h.filled_eq.2] at hholding hfilled hboard hout
  have hframe : Frame held.2.board filled.2.board := hboard ▸ hopen.frame
  have hpending : ∀ m ∈ filled.1, Pending held.2.board filled.2.board m := by
    intro m hm
    obtain ⟨hw, hreserved⟩ := hfilled.holds m hm
    refine ⟨hw, fun hne => ?_⟩
    obtain ⟨a, ha⟩ := hreserved hne
    exact ⟨a, ha, hboard ▸ ha.kept.takeAll hopen fun c hc => hout c hc m hm hne⟩
  obtain ⟨hok, hall⟩ := groupSweep_pending hfilled.pairwise hframe hpending
  refine ⟨hok, h.run_eq, hsame, hholding, cs, hboard ▸ hopen.journal, fun k m hm hne => ?_⟩
  intro now
  obtain ⟨hframe, hw, hreserved⟩ := hall k m hm
  obtain ⟨a, ha, hkept⟩ := hreserved hne
  obtain ⟨a', ha'⟩ := m.exists_solves now.board hne
  obtain ⟨starts, matrix, matrix', hhonoured⟩ := ha.honoured hkept hne ha'
  obtain ⟨hanswer, -, hopen', hboard'⟩ :=
    ha'.groupStep (hw.frame hframe) hne (hkept.prices ha.prices)
  refine ⟨fun c hc => hout c hc m (List.mem_of_getElem? hm) hne, starts, matrix, a, matrix', a', _,
    hhonoured, hanswer, ?_⟩
  rw [hboard', hopen'.journal]

/-- Five bottom slots for a pair of grouped pins and a pin by itself, which would take the first. -/
def rowWithBus : Board :=
  let slot (k : Nat) : Slot := { pos := ⟨10 * k, 0⟩, layer := 0, edge := .bottom }
  { boundary := { slots := #[slot 0, slot 1, slot 2, slot 3, slot 4] }
    pins :=
      { pins := #[{ name := "d0", grouped := true }, { name := "d1", grouped := true },
          { name := "clk" }]
        groups := [{ members := [0, 1], name := "bus" }] } }

theorem run_honours_reservations_rowWithBus :
    let config : Config := { usageFactor := { mantissa := 1, scale := 0 } }
    let model := CostModel.linear 1 0 0
    let shared :=
      distribute rowWithBus model config (rowWithBus.boundary.sections config.sectionSize)
    let mirrored := opening rowWithBus model none shared.state
    let held := (sweep reserveStep mirrored.1 mirrored.2).state
    let filled := (sweep (pinStep false) held.1 held.2).state
    ReachesGroups rowWithBus model none config mirrored held filled ∧
      (sweep groupStep filled.1 filled.2).answer = .ok () ∧
      filled.1.map (·.reserved) = [[0, 1]] ∧
      ∃ cs, filled.2.board.journal = held.2.board.journal ++ cs ∧ ∀ c ∈ cs, c.slot ∉ [0, 1] := by
  intro config model shared mirrored held filled
  have hreaches : ReachesGroups rowWithBus model none config mirrored held filled :=
    ⟨rfl, by decide +kernel, by decide +kernel, rfl, ⟨by decide +kernel, rfl⟩,
      ⟨by decide +kernel, rfl⟩⟩
  obtain ⟨hok, -, -, -, cs, hjournal, hall⟩ := run_honours_reservations (by decide) hreaches
  have hreserved : filled.1.map (·.reserved) = [[0, 1]] := by decide +kernel
  have hgroups : filled.1.map (·.sec.groups.length) = [1] := by decide +kernel
  obtain ⟨m, hm⟩ : ∃ m, filled.1 = [m] := List.length_eq_one_iff.mp (by
    rw [← List.length_map (·.reserved), hreserved]
    rfl)
  rw [hm, List.map_singleton, List.singleton_inj] at hreserved hgroups
  refine ⟨hreaches, hok, by rw [hm, List.map_singleton, hreserved], cs, hjournal, ?_⟩
  rw [← hreserved]
  refine (hall 0 m (by rw [hm]; rfl) fun hnone => ?_).1
  rw [hnone] at hgroups
  cases hgroups

end PinRing
