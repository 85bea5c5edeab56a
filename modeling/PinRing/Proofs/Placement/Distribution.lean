import Mathlib.Data.List.Flatten
import Mathlib.Data.List.Nodup
import Mathlib.Data.List.Perm.Subperm
import Mathlib.Tactic.Common
import PinRing.Placement.Distribution
import PinRing.Proofs.Board.PinTable
import PinRing.Proofs.Outcome
import PinRing.Proofs.Placement.Ranking
import PinRing.Proofs.Placement.Sectioning

/-! What a distribution hands to the sections.  The sections themselves stay as they are, the groups
are groups of the table that are not all placed, and nothing is handed out twice. -/

namespace PinRing

/-- The section without its pins and groups. -/
def Section.emptied (s : Section) : Section := { s with pins := [], groups := [] }

namespace Distribution

variable {b : Boundary} {pins : PinTable} {model : CostModel} {config : Config}
variable {secs : List Section} {shares : List Share} {p : PinProgress} {g : PinGroup} {pin : Nat}

/-! ### Single steps -/

theorem prepare_ok (h : (prepare b config secs).answer = .ok shares) :
    shares.map (·.sec) = secs.map Section.emptied := by
  induction secs generalizing shares with
  | nil => cases h; rfl
  | cons s rest ih =>
    rw [prepare] at h
    cases hmiddle : middle b s with
    | error f => rw [hmiddle] at h; cases h
    | ok mid =>
      simp only [hmiddle] at h
      cases hrest : (prepare b config rest).answer with
      | error f => rw [hrest] at h; cases h
      | ok others =>
        rw [hrest] at h
        cases h
        rw [List.map_cons, List.map_cons, ih hrest]
        rfl

theorem lt_of_hasCapacity {size : Int} {i : Nat} (h : hasCapacity shares size i = true) :
    i < shares.length := by
  obtain ⟨s, hs, -⟩ := (Option.any_eq_true _ _).mp h
  exact (List.getElem?_eq_some_iff.mp hs).1

/-- A group cannot be priced where the distribution of it is stopped, and nothing is given out. -/
theorem distributeGroup_error {f : Fault}
    (h : (distributeGroup pins model shares g).answer = .error f) :
    (∃ s ∈ shares, model.groupCost g.members s.middle = .error f) ∧
      (distributeGroup pins model shares g).state = shares := by
  unfold distributeGroup at h ⊢
  split at h
  · cases h
  rename_i hplaced
  rw [if_neg hplaced]
  cases hcosts : shares.mapM fun s => model.groupCost g.members s.middle with
  | error f' =>
    rw [hcosts] at h
    cases h
    exact ⟨exists_of_mapM_eq_error hcosts, rfl⟩
  | ok costs =>
    rw [hcosts, Outcome.lift_ok, Outcome.done_andThen] at h
    split at h <;> cases h

/-- A group that is all placed is passed over.  Any other is given to the best of the sections that
have the capacity for it, if there is one. -/
theorem distributeGroup_best (h : (distributeGroup pins model shares g).answer = .ok ()) :
    g.members.all pins.isPlaced = true ∧ (distributeGroup pins model shares g).state = shares ∨
      g.members.all pins.isPlaced = false ∧ ∃ costs,
        (shares.mapM fun s => model.groupCost g.members s.middle) = .ok costs ∧
        ((∀ i, hasCapacity shares g.size i = false) ∧
            (distributeGroup pins model shares g).state = shares ∨
          ∃ i, Best costs (hasCapacity shares g.size · = true) i ∧
            (distributeGroup pins model shares g).state = shares.modify i (giveGroup g)) := by
  unfold distributeGroup at h ⊢
  split at h
  · rename_i hplaced
    rw [if_pos hplaced]
    exact .inl ⟨hplaced, rfl⟩
  rename_i hplaced
  rw [if_neg hplaced]
  refine .inr ⟨by simpa using hplaced, ?_⟩
  cases hcosts : shares.mapM fun s => model.groupCost g.members s.middle with
  | error f => rw [hcosts] at h; cases h
  | ok costs =>
    refine ⟨costs, rfl, ?_⟩
    rw [Outcome.lift_ok, Outcome.done_andThen]
    rcases bestWhere_cases (hasCapacity shares g.size) costs with ⟨hnone, hfull⟩ | ⟨i, hi, hbest⟩
    · rw [hnone]
      refine .inl ⟨fun i => Bool.eq_false_iff.mpr fun hroom => ?_, rfl⟩
      have hlt := lt_of_hasCapacity hroom
      rw [hfull i (length_of_mapM_eq_ok hcosts ▸ hlt)] at hroom
      cases hroom
    · rw [hi]
      exact .inr ⟨i, hbest, rfl⟩

/-- A group is given to at most one section, which has the capacity for it, and only if it is not
all placed. -/
theorem distributeGroup_cases (pins : PinTable) (model : CostModel) (shares : List Share)
    (g : PinGroup) :
    (distributeGroup pins model shares g).state = shares ∨ g.members.all pins.isPlaced = false ∧
      ∃ i, hasCapacity shares g.size i = true ∧
        (distributeGroup pins model shares g).state = shares.modify i (giveGroup g) := by
  cases h : (distributeGroup pins model shares g).answer with
  | error f => exact .inl (distributeGroup_error h).2
  | ok _ =>
    rcases distributeGroup_best h with ⟨-, hsame⟩ | ⟨hplaced, costs, -, ⟨-, hsame⟩ | ⟨i, hi, heq⟩⟩
    · exact .inl hsame
    · exact .inl hsame
    · exact .inr ⟨hplaced, i, hi.1, heq⟩

/-- The section has capacity left, or no section has. -/
def Open (shares : List Share) (i : Nat) : Prop :=
  hasCapacity shares 1 i = true ∨ ∀ j, hasCapacity shares 1 j = false

/-- The section of this number exists, and it has capacity left unless none has. -/
def Roomiest (shares : List Share) (i : Nat) : Prop :=
  i < shares.length ∧ ∀ j, hasCapacity shares 1 j = true → hasCapacity shares 1 i = true

/-- A search among the sections with capacity left, or else among all, finds the best of those that
come into question, if there is any section at all. -/
theorem bestWhere_or_cases {costs : List Cost} (hlength : costs.length = shares.length) :
    let found := (bestWhere (hasCapacity shares 1) costs).or (bestWhere (fun _ => true) costs)
    (found = none ∧ shares = []) ∨ ∃ i, found = some i ∧ Best costs (Open shares) i := by
  intro found
  rcases bestWhere_cases (hasCapacity shares 1) costs with ⟨hnone, hfull⟩ | ⟨i, hi, hroom, hbest⟩
  · have hfull : ∀ j, hasCapacity shares 1 j = false := fun j => Bool.eq_false_iff.mpr fun hj => by
      have hlt := lt_of_hasCapacity hj
      rw [hfull j (hlength ▸ hlt)] at hj
      cases hj
    have hfound : found = bestWhere (fun _ => true) costs := by
      simp only [found, hnone, Option.none_or]
    rw [hfound]
    rcases bestWhere_cases (fun _ => true) costs with ⟨hnone, hempty⟩ | ⟨i, hi, -, c, hc, hbest⟩
    · refine .inl ⟨hnone, List.length_eq_zero_iff.mp ?_⟩
      by_contra hpos
      exact absurd (hempty 0 (by omega)) (by simp)
    · exact .inr ⟨i, hi, .inr hfull, c, hc, fun l d _ hd => hbest l d rfl hd⟩
  · obtain ⟨c, hc, hbest⟩ := hbest
    refine .inr ⟨i, by simp only [found, hi, Option.some_or], .inl hroom, c, hc,
      fun l d hl hd => hbest l d (hl.resolve_right fun hnone => ?_) hd⟩
    rw [hnone i] at hroom
    cases hroom

/-- A pin is passed over, or given to the best of the sections with capacity left, or of all if none
has any, with its partner as a follower. -/
theorem distributePin_best (h : (distributePin pins model p pin).answer = .ok ()) :
    ∃ q, pins.pin pin = .ok q ∧
      ((q.placed || q.grouped || p.followers.contains pin) = true ∧
          (distributePin pins model p pin).state = p ∨
        (q.placed || q.grouped || p.followers.contains pin) = false ∧ ∃ partner costs i,
          pins.partner pin = .ok partner ∧
          (p.shares.mapM fun s => model pin s.middle) = .ok costs ∧ Best costs (Open p.shares) i ∧
          (distributePin pins model p pin).state =
            { shares := p.shares.modify i (givePin pin)
              followers := partner.toList ++ p.followers }) := by
  unfold distributePin at h ⊢
  cases hpin : pins.pin pin with
  | error f => rw [hpin] at h; cases h
  | ok q =>
  rw [hpin, Outcome.lift_ok, Outcome.done_andThen] at h
  rw [Outcome.lift_ok, Outcome.done_andThen]
  refine ⟨q, rfl, ?_⟩
  split
  · rename_i hskip
    exact .inl ⟨hskip, rfl⟩
  rename_i hskip
  rw [if_neg hskip] at h
  cases hpartner : pins.partner pin with
  | error f => rw [hpartner] at h; cases h
  | ok partner =>
  rw [hpartner, Outcome.lift_ok, Outcome.done_andThen] at h
  rw [Outcome.lift_ok, Outcome.done_andThen]
  simp only at h ⊢
  cases hcosts : p.shares.mapM fun s => model pin s.middle with
  | error f => rw [hcosts] at h; cases h
  | ok costs =>
  rw [hcosts, Outcome.lift_ok, Outcome.done_andThen] at h
  rw [Outcome.lift_ok, Outcome.done_andThen]
  rcases bestWhere_or_cases (length_of_mapM_eq_ok hcosts) with ⟨hnone, -⟩ | ⟨i, hi, hbest⟩
  · rw [hnone] at h
    cases h
  · rw [hi]
    exact .inr ⟨by simpa using hskip, partner, costs, i, rfl, rfl, hbest, rfl⟩

/-- Where the distribution of a pin is stopped, the pin, its partner or a section is missing, or the
pin cannot be priced. -/
theorem distributePin_error {f : Fault} (h : (distributePin pins model p pin).answer = .error f) :
    pins.pin pin = .error f ∨ pins.partner pin = .error f ∨ p.shares = [] ∨
      ∃ s ∈ p.shares, model pin s.middle = .error f := by
  unfold distributePin at h
  cases hpin : pins.pin pin with
  | error f' =>
    rw [hpin] at h
    cases h
    exact .inl rfl
  | ok q =>
  rw [hpin, Outcome.lift_ok, Outcome.done_andThen] at h
  split at h
  · cases h
  cases hpartner : pins.partner pin with
  | error f' =>
    rw [hpartner] at h
    cases h
    exact .inr (.inl rfl)
  | ok partner =>
  rw [hpartner, Outcome.lift_ok, Outcome.done_andThen] at h
  simp only at h
  cases hcosts : p.shares.mapM fun s => model pin s.middle with
  | error f' =>
    rw [hcosts] at h
    cases h
    exact .inr (.inr (.inr (exists_of_mapM_eq_error hcosts)))
  | ok costs =>
  rw [hcosts, Outcome.lift_ok, Outcome.done_andThen] at h
  rcases bestWhere_or_cases (length_of_mapM_eq_ok hcosts) with ⟨-, hempty⟩ | ⟨i, hi, -⟩
  · exact .inr (.inr (.inl hempty))
  · rw [hi] at h
    cases h

/-- Where pins have partners or none and there are sections, only the price of a pin can stop its
distribution. -/
theorem price_of_distributePin_error {f : Fault}
    (hpartners : ∀ i < pins.size, ∃ partner, pins.partner i = .ok partner) (hlt : pin < pins.size)
    (hne : p.shares ≠ []) (h : (distributePin pins model p pin).answer = .error f) :
    ∃ s ∈ p.shares, model pin s.middle = .error f := by
  rcases distributePin_error h with hpin | hpartner | hempty | hprice
  · rw [PinTable.pin_eq_ok.mpr (Array.getElem?_eq_getElem hlt)] at hpin
    cases hpin
  · obtain ⟨partner, hok⟩ := hpartners pin hlt
    rw [hok] at hpartner
    cases hpartner
  · exact absurd hempty hne
  · exact hprice

/-- A pin is passed over, or given to a section with capacity left, if there is one, with its
partner as a follower. -/
theorem distributePin_cases (h : (distributePin pins model p pin).answer = .ok ()) :
    ∃ q, pins.pin pin = .ok q ∧
      ((q.placed || q.grouped || p.followers.contains pin) = true ∧
          (distributePin pins model p pin).state = p ∨
        (q.placed || q.grouped || p.followers.contains pin) = false ∧ ∃ partner i,
          pins.partner pin = .ok partner ∧ Roomiest p.shares i ∧
          (distributePin pins model p pin).state =
            { shares := p.shares.modify i (givePin pin)
              followers := partner.toList ++ p.followers }) := by
  obtain ⟨q, hq, hskip | ⟨hfree, partner, costs, i, hpartner, hcosts, hbest, hstate⟩⟩ :=
    distributePin_best h
  · exact ⟨q, hq, .inl hskip⟩
  · have hlt : i < p.shares.length := length_of_mapM_eq_ok hcosts ▸ hbest.lt_length
    refine ⟨q, hq, .inr ⟨hfree, partner, i, hpartner, ⟨hlt, fun j hj => ?_⟩, hstate⟩⟩
    refine hbest.1.resolve_right fun hnone => ?_
    rw [hnone j] at hj
    cases hj

/-! ### The stages of a distribution -/

variable {board : Board}

/-- What a distribution that is not stopped goes through. -/
structure Stages (board : Board) (model : CostModel) (config : Config) (secs : List Section)
    (prepared grouped : List Share) (handed : PinProgress) : Prop where
  prepared_eq : (prepare board.boundary config secs).answer = .ok prepared
  grouped_eq :
    (Outcome.forEach (distributeGroup board.pins model) prepared board.pins.groups).state = grouped
  pins_ok : (Outcome.forEach (distributePin board.pins model) { shares := grouped }
    (List.range board.pins.size)).answer = .ok ()
  handed_eq : (Outcome.forEach (distributePin board.pins model) { shares := grouped }
    (List.range board.pins.size)).state = handed

theorem exists_stages (h : (distribute board model config secs).answer = .ok ()) :
    ∃ prepared grouped handed, Stages board model config secs prepared grouped handed ∧
      (distribute board model config secs).state = handed.shares.map (·.sec) := by
  unfold distribute at h ⊢
  obtain ⟨prepared, hprepared, h, hstate⟩ := Outcome.exists_of_andThen_eq_ok h
  obtain ⟨_, -, h, hgroups⟩ := Outcome.exists_of_andThen_eq_ok
    (o := Outcome.forEach (distributeGroup board.pins model) prepared board.pins.groups) h
  obtain ⟨_, hpins, -, hhanded⟩ := Outcome.exists_of_andThen_eq_ok h
  have hsecs := congrArg (List.map fun s : Share => s.sec) (hgroups.trans hhanded)
  exact ⟨prepared, _, _, ⟨hprepared, rfl, hpins, rfl⟩, hstate.trans hsecs⟩

/-- What holds of emptied sections, and is kept when a group that is not all placed or a pin is
given to one of them, holds of the sections after a distribution. -/
theorem distribute_keeps {P : List Share → Prop}
    (hempty : ∀ shares : List Share, shares.map (·.sec) = secs.map Section.emptied → P shares)
    (hgroup : ∀ shares i, ∀ g ∈ board.pins.groups, g.members.all board.pins.isPlaced = false →
      P shares → P (shares.modify i (giveGroup g)))
    (hpin : ∀ shares i pin, P shares → P (shares.modify i (givePin pin)))
    (h : (distribute board model config secs).answer = .ok ()) :
    ∃ shares, P shares ∧ (distribute board model config secs).state = shares.map (·.sec) := by
  obtain ⟨prepared, grouped, handed, hstages, hstate⟩ := exists_stages h
  have hgrouped : P grouped := by
    rw [← hstages.grouped_eq]
    refine Outcome.forEach_state (fun shares g hg hs => ?_)
      (hempty _ (prepare_ok hstages.prepared_eq))
    rcases distributeGroup_cases board.pins model shares g with hsame | ⟨hplaced, i, -, hgiven⟩
    · rwa [hsame]
    · rw [hgiven]
      exact hgroup shares i g hg hplaced hs
  refine ⟨handed.shares, ?_, hstate⟩
  rw [← hstages.handed_eq]
  refine Outcome.forEach_reaches (P := fun _ p => P p.shares) (fun _ pin p _ hp hok => ?_)
    hstages.pins_ok hgrouped
  obtain ⟨q, -, ⟨-, hsame⟩ | ⟨-, partner, i, -, -, hgiven⟩⟩ := distributePin_cases hok
  · rwa [hsame]
  · rw [hgiven]
    exact hpin p.shares i pin hp

/-- The sections keep their slots. -/
theorem emptied_distribute (h : (distribute board model config secs).answer = .ok ()) :
    (distribute board model config secs).state.map Section.emptied = secs.map Section.emptied := by
  have hgive : ∀ (give : Share → Share) (shares : List Share) (i : Nat),
      (∀ s, (give s).sec.emptied = s.sec.emptied) →
        (shares.modify i give).map (·.sec.emptied) = shares.map (·.sec.emptied) := by
    intro give shares i hsame
    refine List.ext_getElem? fun k => ?_
    rw [List.getElem?_map, List.getElem?_map, List.getElem?_modify]
    cases shares[k]? with
    | none => rfl
    | some s => split <;> simp [hsame]
  obtain ⟨shares, hshares, hstate⟩ := distribute_keeps
    (P := fun shares => shares.map (·.sec.emptied) = secs.map Section.emptied)
    (fun shares hs => by
      have := congrArg (List.map Section.emptied) hs
      rwa [List.map_map, List.map_map] at this)
    (fun shares i g _ _ hs => (hgive (giveGroup g) shares i fun _ => rfl).trans hs)
    (fun shares i pin hs => (hgive (givePin pin) shares i fun _ => rfl).trans hs) h
  rw [hstate, List.map_map]
  exact hshares

/-- The sections of a distribution that is not stopped lie on the boundary, one behind the other. -/
theorem sections_distribute
    (h : (distribute board model config (board.boundary.sections config.sectionSize)).answer =
      .ok ()) :
    let shared := distribute board model config (board.boundary.sections config.sectionSize)
    shared.state.Pairwise (fun s t => s.stop ≤ t.first) ∧
      ∀ s ∈ shared.state, s.stop ≤ board.boundary.size := by
  intro shared
  have hemptied : shared.state.map Section.emptied = _ := emptied_distribute h
  have hbehind := Boundary.sections_behind board.boundary config.sectionSize
  have hbounds := Boundary.sections_bounds board.boundary config.sectionSize
  constructor
  · have hmap : (shared.state.map Section.emptied).Pairwise fun s t => s.stop ≤ t.first := by
      rw [hemptied]
      exact List.pairwise_map.mpr hbehind
    exact List.pairwise_map.mp hmap
  · have hmap : ∀ s ∈ shared.state.map Section.emptied, s.stop ≤ board.boundary.size := by
      rw [hemptied]
      exact List.forall_mem_map.mpr fun s hs => (hbounds s hs).1
    exact List.forall_mem_map.mp hmap

theorem forall_modify {P : Share → Prop} (give : Share → Share)
    (h : ∀ s ∈ shares, P s) (hgive : ∀ s, P s → P (give s)) (i : Nat) :
    ∀ s ∈ shares.modify i give, P s := by
  intro s hs
  obtain ⟨j, hj⟩ := List.getElem?_of_mem hs
  rw [List.getElem?_modify] at hj
  obtain ⟨t, ht, rfl⟩ := Option.map_eq_some_iff.mp hj
  have hmem := List.mem_of_getElem? ht
  split
  · exact hgive t (h t hmem)
  · exact h t hmem

/-- The sections of a distribution that is not stopped have registered groups only, none of which is
all placed. -/
theorem given_distribute (h : (distribute board model config secs).answer = .ok ()) :
    ∀ s ∈ (distribute board model config secs).state, ∀ g ∈ s.groups,
      g ∈ board.pins.groups ∧ g.members.all board.pins.isPlaced = false := by
  obtain ⟨shares, hshares, hstate⟩ := distribute_keeps
    (P := fun shares => ∀ s ∈ shares, ∀ g ∈ s.sec.groups,
      g ∈ board.pins.groups ∧ g.members.all board.pins.isPlaced = false)
    (fun shares hs s hmem g hg => by
      have hsec : s.sec ∈ secs.map Section.emptied := hs ▸ List.mem_map_of_mem hmem
      obtain ⟨t, -, heq⟩ := List.mem_map.mp hsec
      rw [← heq] at hg
      cases hg)
    (fun shares i g hg hplaced hs => forall_modify (giveGroup g) hs (fun s hs other hother => by
      rcases List.mem_append.mp hother with hother | hother
      · exact hs other hother
      · rw [List.mem_singleton.mp hother]
        exact ⟨hg, hplaced⟩) i)
    (fun shares i pin hs => forall_modify (givePin pin) hs (fun _ hs => hs) i) h
  rw [hstate]
  intro s hs
  obtain ⟨share, hshare, rfl⟩ := List.mem_map.mp hs
  exact hshares share hshare

/-! ### The pins handed out -/

/-- An item given to one section comes to the items of all sections. -/
theorem flatMap_modify_perm {α : Type} (items : Share → List α) (give : Share → Share) {a : α}
    (hgive : ∀ s, items (give s) = items s ++ [a]) {i : Nat} (hi : i < shares.length) :
    ((shares.modify i give).flatMap items).Perm (a :: shares.flatMap items) := by
  induction shares generalizing i with
  | nil => cases hi
  | cons s rest ih =>
    cases i with
    | zero =>
      have hitems : (items (give s)).Perm (a :: items s) := by
        rw [hgive]
        exact List.perm_append_singleton _ _
      exact hitems.append_right (rest.flatMap items)
    | succ i =>
      have hrest := ih (Nat.lt_of_succ_lt_succ hi)
      exact (hrest.append_left (items s)).trans List.perm_middle

/-- The same where the section may not exist. -/
theorem flatMap_modify {α : Type} (items : Share → List α) (give : Share → Share) {a : α}
    (hgive : ∀ s, items (give s) = items s ++ [a]) (shares : List Share) (i : Nat) :
    (shares.modify i give).flatMap items = shares.flatMap items ∨
      ((shares.modify i give).flatMap items).Perm (a :: shares.flatMap items) := by
  by_cases hi : i < shares.length
  · exact .inr (flatMap_modify_perm items give hgive hi)
  · rw [List.modify_eq_self (Nat.le_of_not_lt hi)]
    exact .inl rfl

/-- What a section is given of another kind does not matter. -/
theorem flatMap_modify_same {α : Type} (items : Share → List α) (give : Share → Share)
    (hgive : ∀ s, items (give s) = items s) (shares : List Share) (i : Nat) :
    (shares.modify i give).flatMap items = shares.flatMap items := by
  induction shares generalizing i with
  | nil => cases i <;> rfl
  | cons s rest ih =>
    cases i with
    | zero => exact congrArg (· ++ rest.flatMap items) (hgive s)
    | succ i => exact congrArg (items s ++ ·) (ih i)

/-- The pins of all sections. -/
def handedOut (shares : List Share) : List Nat := shares.flatMap (·.sec.pins)

theorem handedOut_modify (shares : List Share) (i pin : Nat) :
    handedOut (shares.modify i (givePin pin)) = handedOut shares ∨
      (handedOut (shares.modify i (givePin pin))).Perm (pin :: handedOut shares) :=
  flatMap_modify (·.sec.pins) (givePin pin) (fun _ => rfl) shares i

/-- Giving a pin to a section gives out no other pin. -/
theorem mem_handedOut_modify {i j : Nat} (h : j ∈ handedOut (shares.modify i (givePin pin))) :
    j = pin ∨ j ∈ handedOut shares := by
  rcases handedOut_modify shares i pin with hsame | hmore
  · exact .inr (hsame ▸ h)
  · exact List.mem_cons.mp (hmore.subset h)

/-- After the pins `done` the pins given out are different ones of these, neither placed nor in a
group. -/
structure Handed (pins : PinTable) (done : List Nat) (p : PinProgress) : Prop where
  nodup : (handedOut p.shares).Nodup
  done : ∀ i ∈ handedOut p.shares, i ∈ done
  free : ∀ i ∈ handedOut p.shares,
    ∃ q, pins.pins[i]? = some q ∧ q.placed = false ∧ q.grouped = false

theorem Handed.distributePin {done : List Nat} (h : Handed pins done p) (hnew : pin ∉ done)
    (hok : (distributePin pins model p pin).answer = .ok ()) :
    Handed pins (done ++ [pin]) (Distribution.distributePin pins model p pin).state := by
  obtain ⟨q, hq, ⟨-, hsame⟩ | ⟨hfree, partner, i, -, -, hgiven⟩⟩ := distributePin_cases hok
  · rw [hsame]
    exact ⟨h.nodup, fun i hi => List.mem_append_left _ (h.done i hi), h.free⟩
  rw [hgiven]
  constructor
  · rcases handedOut_modify p.shares i pin with hsame | hmore
    · exact hsame ▸ h.nodup
    · exact hmore.nodup_iff.mpr (List.nodup_cons.mpr ⟨fun hmem => hnew (h.done pin hmem), h.nodup⟩)
  · intro j hj
    rcases mem_handedOut_modify hj with rfl | hj
    · exact List.mem_append_right _ (List.mem_singleton_self j)
    · exact List.mem_append_left _ (h.done j hj)
  · intro j hj
    rcases mem_handedOut_modify hj with rfl | hj
    · simp only [Bool.or_eq_false_iff] at hfree
      exact ⟨q, PinTable.pin_eq_ok.mp hq, hfree.1⟩
    · exact h.free j hj

theorem Stages.handedOut_grouped {prepared grouped : List Share} {handed : PinProgress}
    (h : Stages board model config secs prepared grouped handed) : handedOut grouped = [] := by
  have hempty : ∀ s ∈ grouped, s.sec.pins = [] := by
    rw [← h.grouped_eq]
    refine Outcome.forEach_state (P := fun shares : List Share => ∀ s ∈ shares, s.sec.pins = [])
      (fun shares g _ hs => ?_) fun s hs => ?_
    · rcases distributeGroup_cases board.pins model shares g with hsame | ⟨-, i, -, hgiven⟩
      · rwa [hsame]
      · rw [hgiven]
        exact forall_modify (giveGroup g) hs (fun _ hs => hs) i
    · have hsec : s.sec ∈ secs.map Section.emptied :=
        prepare_ok h.prepared_eq ▸ List.mem_map_of_mem hs
      obtain ⟨t, -, heq⟩ := List.mem_map.mp hsec
      rw [← heq]
      rfl
  exact List.flatMap_eq_nil_iff.mpr hempty

/-- In a run over all pins in order, when a pin comes up the lower ones are done and it is not. -/
theorem range_split {n : Nat} {done : List Nat} (h : done ++ [pin] <+: List.range n) :
    pin < n ∧ pin ∉ done ∧ ∀ j < pin, j ∈ done := by
  obtain ⟨rest, hrest⟩ := h
  have hsorted : (done ++ [pin] ++ rest).Pairwise (· < ·) := hrest ▸ List.pairwise_lt_range
  rw [List.append_assoc, List.pairwise_append] at hsorted
  obtain ⟨-, hafter, hlt⟩ := hsorted
  have hpin : pin < n := List.mem_range.mp (by simp [← hrest])
  refine ⟨hpin, fun hmem => Nat.lt_irrefl pin (hlt pin hmem pin List.mem_cons_self), fun j hj => ?_⟩
  have hmem : j ∈ done ++ [pin] ++ rest := by
    rw [hrest, List.mem_range]
    exact Nat.lt_trans hj hpin
  simp only [List.mem_append, List.mem_singleton] at hmem
  rcases hmem with (hmem | rfl) | hmem
  · exact hmem
  · exact absurd hj (Nat.lt_irrefl _)
  · have := (List.pairwise_cons.mp hafter).1 j hmem
    omega

theorem Stages.handed {prepared grouped : List Share} {handed : PinProgress}
    (h : Stages board model config secs prepared grouped handed) :
    Handed board.pins (List.range board.pins.size) handed := by
  rw [← h.handed_eq]
  refine Outcome.forEach_reaches (fun done pin p hpre hp hok => ?_) h.pins_ok ?_
  · exact hp.distributePin (range_split hpre).2.1 hok
  · have hnone := h.handedOut_grouped
    constructor <;> simp [hnone]

/-- No pin is handed out twice, and those that are handed out are neither placed nor in a group. -/
theorem pins_distribute (h : (distribute board model config secs).answer = .ok ()) :
    ((distribute board model config secs).state.flatMap (·.pins)).Nodup ∧
      ∀ i ∈ (distribute board model config secs).state.flatMap (·.pins),
        ∃ q, board.pins.pins[i]? = some q ∧ q.placed = false ∧ q.grouped = false := by
  obtain ⟨prepared, grouped, handed, hstages, hstate⟩ := exists_stages h
  rw [hstate, List.flatMap_map]
  exact ⟨hstages.handed.nodup, hstages.handed.free⟩

/-! ### The groups handed out -/

/-- The groups of all sections. -/
def groupsOut (shares : List Share) : List PinGroup := shares.flatMap (·.sec.groups)

theorem groupsOut_distributeGroup (pins : PinTable) (model : CostModel) (shares : List Share)
    (g : PinGroup) :
    (groupsOut (distributeGroup pins model shares g).state).Subperm (groupsOut shares ++ [g]) := by
  have hsame : (groupsOut shares).Subperm (groupsOut shares ++ [g]) :=
    (List.sublist_append_left _ _).subperm
  rcases distributeGroup_cases pins model shares g with heq | ⟨-, i, -, heq⟩
  · rwa [heq]
  · rw [heq]
    rcases flatMap_modify (·.sec.groups) (giveGroup g) (fun _ => rfl) shares i with hnone | hmore
    · rw [groupsOut, hnone]
      exact hsame
    · exact (hmore.trans (List.perm_append_singleton _ _).symm).subperm

theorem groupsOut_distributeGroups (pins : PinTable) (model : CostModel) (shares : List Share)
    (gs : List PinGroup) :
    (groupsOut (Outcome.forEach (distributeGroup pins model) shares gs).state).Subperm
      (groupsOut shares ++ gs) := by
  induction gs generalizing shares with
  | nil => simp [Outcome.done, List.Subperm.refl]
  | cons g gs ih =>
    have hfirst := groupsOut_distributeGroup pins model shares g
    have hrest := ((List.subperm_append_right gs).mpr hfirst)
    rw [List.append_assoc, List.singleton_append] at hrest
    rw [Outcome.forEach_cons]
    refine Outcome.andThen_state (P := fun shares' : List Share =>
      (groupsOut shares').Subperm (groupsOut shares ++ g :: gs)) ?_ fun _ => ?_
    · exact (List.sublist_append_left _ _).subperm.trans hrest
    · exact (ih _).trans hrest

/-- Pins are given out without touching the groups. -/
theorem Stages.groupsOut_eq {prepared grouped : List Share} {handed : PinProgress}
    (h : Stages board model config secs prepared grouped handed) :
    groupsOut handed.shares = groupsOut grouped := by
  rw [← h.handed_eq]
  refine Outcome.forEach_reaches (P := fun _ p => groupsOut p.shares = groupsOut grouped)
    (fun _ pin p _ hp hok => ?_) h.pins_ok rfl
  obtain ⟨q, -, ⟨-, hsame⟩ | ⟨-, partner, i, -, -, hgiven⟩⟩ := distributePin_cases hok
  · rwa [hsame]
  · rw [hgiven, ← hp]
    exact flatMap_modify_same (·.sec.groups) (givePin pin) (fun _ => rfl) p.shares i

/-- Each group is handed out at most once. -/
theorem groups_distribute (h : (distribute board model config secs).answer = .ok ()) :
    ((distribute board model config secs).state.flatMap (·.groups)).Subperm board.pins.groups := by
  obtain ⟨prepared, grouped, handed, hstages, hstate⟩ := exists_stages h
  have hnone : groupsOut prepared = [] := by
    refine List.flatMap_eq_nil_iff.mpr fun s hs => ?_
    have hsec : s.sec ∈ secs.map Section.emptied :=
      prepare_ok hstages.prepared_eq ▸ List.mem_map_of_mem hs
    obtain ⟨t, -, heq⟩ := List.mem_map.mp hsec
    rw [← heq]
    rfl
  have hgrouped := groupsOut_distributeGroups board.pins model prepared board.pins.groups
  rw [hnone, List.nil_append, hstages.grouped_eq, ← hstages.groupsOut_eq] at hgrouped
  rwa [hstate, List.flatMap_map]

/-- No pin is in two groups that are handed out, nor twice in one. -/
theorem members_distribute (hd : board.pins.Declared)
    (h : (distribute board model config secs).answer = .ok ()) :
    (((distribute board model config secs).state.flatMap (·.groups)).flatMap
      (·.members)).Nodup := by
  obtain ⟨gs, hperm, hsub⟩ := groups_distribute h
  have hmembers : (gs.flatMap (·.members)).Nodup := hd.members_nodup.sublist (hsub.flatMap _)
  exact (hperm.flatMap_right _).nodup_iff.mp hmembers

end Distribution

end PinRing
