import PinRing.Proofs.Placement.Completion
import PinRing.Proofs.Placement.Ledger

/-! A distribution follows the rules.  The sections under distribution are at any time what the
entries so far make of them, and each step adds the entry that the rules ask for. -/

namespace PinRing

namespace Distribution

variable {board : Board} {model : CostModel} {config : Config} {secs : List Section}
variable {mids : List Point} {groups : Ledger PinGroup} {pins : Ledger Nat} {k pin : Nat}
variable {shares : List Share} {p : PinProgress} {g : PinGroup}

/-! ### The sections under distribution -/

/-- A section after the entries, with the position at which it is priced. -/
def shareOf (config : Config) (groups : Ledger PinGroup) (pins : Ledger Nat) (k : Nat)
    (e : Section × Point) : Share where
  sec := { e.1 with groups := groups.of k, pins := pins.of k }
  middle := e.2
  capacity := config.capacity e.1.room.toNat - load groups pins k

/-- All sections after the entries. -/
def sharesOf (config : Config) (secs : List Section) (mids : List Point)
    (groups : Ledger PinGroup) (pins : Ledger Nat) : List Share :=
  (secs.zip mids).mapIdx (shareOf config groups pins)

theorem getElem?_sharesOf (k : Nat) : (sharesOf config secs mids groups pins)[k]? =
    ((secs.zip mids)[k]?).map (shareOf config groups pins k) := by
  rw [sharesOf, List.getElem?_mapIdx]

theorem sharesOf_cons (s : Section) (mid : Point) :
    sharesOf config (s :: secs) (mid :: mids) [] [] =
      { sec := s.emptied, middle := mid, capacity := config.capacity s.room.toNat } ::
        sharesOf config secs mids [] [] := by
  have hnext : (fun k => shareOf config [] [] (k + 1)) = shareOf config [] [] := rfl
  rw [sharesOf, List.zip_cons_cons, List.mapIdx_cons, hnext, sharesOf]
  simp [shareOf, load, Ledger.of, Section.emptied]

/-- At first the sections are empty. -/
theorem prepare_answer (b : Boundary) (config : Config) (secs : List Section) :
    (prepare b config secs).answer =
      (secs.mapM (middle b)).map fun mids => sharesOf config secs mids [] [] := by
  induction secs with
  | nil => rfl
  | cons s rest ih =>
    rw [prepare, List.mapM_cons]
    cases middle b s with
    | error f => rfl
    | ok mid =>
      simp only [ih]
      cases rest.mapM (middle b) with
      | error f => rfl
      | ok mids => exact congrArg _ (sharesOf_cons s mid).symm

theorem sec_sharesOf (hlength : mids.length = secs.length) :
    (sharesOf config secs mids groups pins).map (·.sec) =
      secs.mapIdx fun k s => { s with groups := groups.of k, pins := pins.of k } := by
  refine List.ext_getElem? fun k => ?_
  have hat : secs[k]? = ((secs.zip mids)[k]?).map Prod.fst := by
    rw [← List.getElem?_map, List.map_fst_zip hlength.ge]
  rw [List.getElem?_map, getElem?_sharesOf, List.getElem?_mapIdx, hat, Option.map_map,
    Option.map_map]
  rfl

theorem middle_sharesOf (hlength : mids.length = secs.length) :
    (sharesOf config secs mids groups pins).map (·.middle) = mids := by
  refine List.ext_getElem? fun k => ?_
  have hat : mids[k]? = ((secs.zip mids)[k]?).map Prod.snd := by
    rw [← List.getElem?_map, List.map_snd_zip hlength.le]
  rw [List.getElem?_map, getElem?_sharesOf, hat, Option.map_map]
  rfl

theorem mapM_sharesOf (hlength : mids.length = secs.length) (price : Point → Except Fault Cost) :
    (sharesOf config secs mids groups pins).mapM (fun s => price s.middle) = mids.mapM price := by
  calc (sharesOf config secs mids groups pins).mapM (fun s => price s.middle)
    _ = ((sharesOf config secs mids groups pins).map (·.middle)).mapM price := List.mapM_map.symm
    _ = mids.mapM price := by rw [middle_sharesOf hlength]

theorem hasCapacity_sharesOf (hlength : mids.length = secs.length) (size k : Nat) :
    hasCapacity (sharesOf config secs mids groups pins) size k = true ↔
      Fits config secs groups pins size k := by
  rw [hasCapacity, getElem?_sharesOf, Option.any_eq_true, Fits]
  simp only [Option.map_eq_some_iff, List.getElem?_zip_eq_some, decide_eq_true_eq]
  constructor
  · rintro ⟨_, ⟨e, ⟨hs, -⟩, rfl⟩, hfits⟩
    refine ⟨e.1, hs, ?_⟩
    simp only [shareOf] at hfits
    omega
  · rintro ⟨s, hs, hfits⟩
    have hlt := hlength ▸ (List.getElem?_eq_some_iff.mp hs).1
    refine ⟨_, ⟨(s, mids[k]), ⟨hs, List.getElem?_eq_getElem hlt⟩, rfl⟩, ?_⟩
    simp only [shareOf]
    omega

/-- What is given to one section leaves the others as they are. -/
theorem sharesOf_modify {groups' : Ledger PinGroup} {pins' : Ledger Nat} (give : Share → Share)
    (hgiven : ∀ e, shareOf config groups' pins' k e = give (shareOf config groups pins k e))
    (hothers : ∀ l, l ≠ k → shareOf config groups' pins' l = shareOf config groups pins l) :
    (sharesOf config secs mids groups pins).modify k give =
      sharesOf config secs mids groups' pins' := by
  refine List.ext_getElem? fun l => ?_
  rw [List.getElem?_modify, getElem?_sharesOf, getElem?_sharesOf, Option.map_eq_map,
    Option.map_map]
  congr 1
  funext e
  by_cases hl : k = l
  · subst hl
    simp [hgiven]
  · simp [hl, hothers l (Ne.symm hl)]

theorem sharesOf_giveGroup (g : PinGroup) :
    (sharesOf config secs mids groups pins).modify k (giveGroup g) =
      sharesOf config secs mids (groups ++ [(g, some k)]) pins := by
  refine sharesOf_modify (giveGroup g) (fun e => ?_) fun l hl => ?_
  · simp [shareOf, giveGroup, Ledger.of_append, load_group]
    omega
  · funext e
    simp [shareOf, Ledger.of_append, load_group, Ne.symm hl]

theorem sharesOf_givePin (i : Nat) :
    (sharesOf config secs mids groups pins).modify k (givePin i) =
      sharesOf config secs mids groups (pins ++ [(i, some k)]) := by
  refine sharesOf_modify (givePin i) (fun e => ?_) fun l hl => ?_
  · simp [shareOf, givePin, Ledger.of_append, load_pin]
    omega
  · funext e
    simp [shareOf, Ledger.of_append, load_pin, Ne.symm hl]

theorem sharesOf_passGroup (g : PinGroup) :
    sharesOf config secs mids (groups ++ [(g, none)]) pins =
      sharesOf config secs mids groups pins := by
  have hsame : shareOf config (groups ++ [(g, none)]) pins = shareOf config groups pins := by
    funext k e
    simp [shareOf, Ledger.of_append, load_group]
  rw [sharesOf, hsame, sharesOf]

theorem sharesOf_passPin (i : Nat) :
    sharesOf config secs mids groups (pins ++ [(i, none)]) =
      sharesOf config secs mids groups pins := by
  have hsame : shareOf config groups (pins ++ [(i, none)]) = shareOf config groups pins := by
    funext k e
    simp [shareOf, Ledger.of_append, load_pin]
  rw [sharesOf, hsame, sharesOf]

/-! ### The groups -/

/-- A pin has no price at one of the positions. -/
def Unpriced (model : CostModel) (mids : List Point) (f : Fault) : Prop :=
  ∃ pin, ∃ mid ∈ mids, model pin mid = .error f

theorem mem_of_sharesOf (hlength : mids.length = secs.length) {s : Share}
    (hs : s ∈ sharesOf config secs mids groups pins) : s.middle ∈ mids :=
  middle_sharesOf hlength ▸ List.mem_map_of_mem hs

/-- The sections hold what a ledger of the groups `done` says. -/
def GroupsHeld (board : Board) (model : CostModel) (config : Config) (secs : List Section)
    (mids : List Point) (done : List PinGroup) (shares : List Share) : Prop :=
  ∃ groups, groups.map (·.1) = done ∧
    groups.Follows (GroupHome board model config secs mids) ∧
    shares = sharesOf config secs mids groups []

theorem GroupsHeld.distributeGroup {done : List PinGroup} (hlength : mids.length = secs.length)
    (h : GroupsHeld board model config secs mids done shares) (g : PinGroup) :
    let given := Distribution.distributeGroup board.pins model shares g
    (∃ f, given.answer = .error f ∧ Unpriced model mids f) ∨
      given.answer = .ok () ∧
        GroupsHeld board model config secs mids (done ++ [g]) given.state := by
  intro given
  obtain ⟨groups, rfl, hfollows, rfl⟩ := h
  have hentry : ∀ home, GroupHome board model config secs mids groups g home →
      given.state = sharesOf config secs mids (groups ++ [(g, home)]) [] →
      GroupsHeld board model config secs mids (groups.map (·.1) ++ [g]) given.state :=
    fun home hhome hstate =>
      ⟨_, by rw [List.map_append]; rfl, Ledger.follows_append.mpr ⟨hfollows, hhome⟩, hstate⟩
  cases hanswer : given.answer with
  | error f =>
    obtain ⟨⟨s, hs, hprice⟩, -⟩ := distributeGroup_error hanswer
    obtain ⟨pin, hpin⟩ := CostModel.exists_of_groupCost_error hprice
    exact .inl ⟨f, rfl, pin, s.middle, mem_of_sharesOf hlength hs, hpin⟩
  | ok _ =>
    refine .inr ⟨rfl, ?_⟩
    rcases distributeGroup_best hanswer with
      ⟨hplaced, hsame⟩ | ⟨hplaced, costs, hcosts, ⟨hfull, hsame⟩ | ⟨k, hbest, hgiven⟩⟩
    · exact hentry none (.placed hplaced) (hsame.trans (sharesOf_passGroup g).symm)
    · refine hentry none (.full hplaced fun k hfits => ?_)
        (hsame.trans (sharesOf_passGroup g).symm)
      rw [← hasCapacity_sharesOf hlength, hfull k] at hfits
      cases hfits
    · simp only [hasCapacity_sharesOf hlength] at hbest
      rw [mapM_sharesOf hlength (model.groupCost g.members)] at hcosts
      exact hentry (some k) (.best hplaced hcosts hbest) (hgiven.trans (sharesOf_giveGroup g))

/-- All groups are distributed by the rule, unless one cannot be priced. -/
theorem distributeGroups_held (board : Board) (model : CostModel) (config : Config)
    (hlength : mids.length = secs.length) :
    let given := Outcome.forEach (Distribution.distributeGroup board.pins model)
      (sharesOf config secs mids [] []) board.pins.groups
    (∃ f, given.answer = .error f ∧ Unpriced model mids f) ∨
      given.answer = .ok () ∧
        GroupsHeld board model config secs mids board.pins.groups given.state := by
  refine Outcome.forEach_ends _ _ _ (P := GroupsHeld board model config secs mids)
    (F := Unpriced model mids) (fun done g shares _ held => held.distributeGroup hlength g) ?_
  exact ⟨[], rfl, Ledger.follows_nil, rfl⟩

/-! ### The pins -/

/-- The sections hold what the ledgers of all groups and of the pins `done` say, and the followers
are the partners of the pins given so far. -/
structure PinsHeld (board : Board) (model : CostModel) (config : Config) (secs : List Section)
    (mids : List Point) (groups : Ledger PinGroup) (pins : Ledger Nat) (done : List Nat)
    (p : PinProgress) : Prop where
  done_eq : pins.map (·.1) = done
  follows : pins.Follows (PinHome board model config secs mids groups)
  shares_eq : p.shares = sharesOf config secs mids groups pins
  follower_iff : ∀ j, j ∈ p.followers ↔
    ∃ i k, (i, some k) ∈ pins ∧ board.pins.partner i = .ok (some j)

theorem PinsHeld.pass {done : List Nat}
    (h : PinsHeld board model config secs mids groups pins done p)
    (hhome : PinHome board model config secs mids groups pins pin none) :
    PinsHeld board model config secs mids groups (pins ++ [(pin, none)]) (done ++ [pin]) p where
  done_eq := by rw [List.map_append, h.done_eq]; rfl
  follows := Ledger.follows_append.mpr ⟨h.follows, hhome⟩
  shares_eq := h.shares_eq.trans (sharesOf_passPin pin).symm
  follower_iff j := by simp [h.follower_iff]

theorem PinsHeld.give {done : List Nat} {partner : Option Nat}
    (h : PinsHeld board model config secs mids groups pins done p)
    (hpartner : board.pins.partner pin = .ok partner)
    (hhome : PinHome board model config secs mids groups pins pin (some k)) :
    PinsHeld board model config secs mids groups (pins ++ [(pin, some k)]) (done ++ [pin])
      { shares := p.shares.modify k (givePin pin)
        followers := partner.toList ++ p.followers } where
  done_eq := by rw [List.map_append, h.done_eq]; rfl
  follows := Ledger.follows_append.mpr ⟨h.follows, hhome⟩
  shares_eq := by rw [h.shares_eq, sharesOf_givePin]
  follower_iff j := by
    simp only [List.mem_append, Option.mem_toList, h.follower_iff, List.mem_singleton]
    constructor
    · rintro (rfl | ⟨i, l, hi, hij⟩)
      · exact ⟨pin, k, .inr rfl, hpartner⟩
      · exact ⟨i, l, .inl hi, hij⟩
    · rintro ⟨i, l, hi | hi, hij⟩
      · exact .inr ⟨i, l, hi, hij⟩
      · cases hi
        rw [hpartner] at hij
        exact .inl (Except.ok.inj hij)

theorem open_sharesOf (hlength : mids.length = secs.length) :
    Open (sharesOf config secs mids groups pins) = fun l =>
      Fits config secs groups pins 1 l ∨ ∀ m, ¬Fits config secs groups pins 1 m := by
  funext l
  simp only [Open, ← hasCapacity_sharesOf hlength, Bool.not_eq_true, Nat.cast_one]

theorem PinsHeld.distributePin {done : List Nat}
    (htotal : ∀ i < board.pins.size, ∃ partner, board.pins.partner i = .ok partner)
    (hsymm : ∀ i j, board.pins.partner i = .ok (some j) → board.pins.partner j = .ok (some i))
    (hlength : mids.length = secs.length) (hne : secs ≠ []) (hlt : pin < board.pins.size)
    (h : PinsHeld board model config secs mids groups pins done p) :
    let given := Distribution.distributePin board.pins model p pin
    (∃ f, given.answer = .error f ∧ Unpriced model mids f) ∨
      given.answer = .ok () ∧ ∃ home, PinsHeld board model config secs mids groups
        (pins ++ [(pin, home)]) (done ++ [pin]) given.state := by
  intro given
  cases hanswer : given.answer with
  | error f =>
    have hshares : p.shares ≠ [] := by
      intro hnil
      have hzero := congrArg List.length (h.shares_eq.symm.trans hnil)
      rw [sharesOf, List.length_mapIdx, List.length_zip, hlength, Nat.min_self] at hzero
      exact hne (List.length_eq_zero_iff.mp hzero)
    obtain ⟨s, hs, hprice⟩ := price_of_distributePin_error htotal hlt hshares hanswer
    exact .inl ⟨f, rfl, pin, s.middle, mem_of_sharesOf hlength (h.shares_eq ▸ hs), hprice⟩
  | ok _ =>
    refine .inr ⟨rfl, ?_⟩
    obtain ⟨q, hq, ⟨hskip, hsame⟩ | ⟨hfree, partner, costs, k, hpartner, hcosts, hbest, hgiven⟩⟩ :=
      distributePin_best hanswer
    · have hq := PinTable.pin_eq_ok.mp hq
      refine ⟨none, hsame ▸ h.pass ?_⟩
      simp only [Bool.or_eq_true, List.contains_iff_mem] at hskip
      rcases hskip with (hplaced | hgrouped) | hfollower
      · exact .placed hq hplaced
      · exact .grouped hq hgrouped
      · obtain ⟨i, k, hi, hpartner⟩ := (h.follower_iff pin).mp hfollower
        exact .follower (hsymm i pin hpartner) hi
    · simp only [Bool.or_eq_false_iff] at hfree
      have hfresh : pin ∉ p.followers := by simpa using hfree.2
      rw [h.shares_eq] at hcosts hbest
      rw [mapM_sharesOf hlength (model pin)] at hcosts
      rw [open_sharesOf hlength] at hbest
      refine ⟨some k, hgiven ▸ h.give hpartner ?_⟩
      refine .best (PinTable.pin_eq_ok.mp hq) hfree.1.1 hfree.1.2 (fun j l hj hl => ?_) hcosts hbest
      exact hfresh ((h.follower_iff pin).mpr ⟨j, l, hl, hsymm pin j hj⟩)

/-- All pins are distributed by the rule, unless one cannot be priced. -/
theorem distributePins_held (model : CostModel) (config : Config) (groups : Ledger PinGroup)
    (htotal : ∀ i < board.pins.size, ∃ partner, board.pins.partner i = .ok partner)
    (hsymm : ∀ i j, board.pins.partner i = .ok (some j) → board.pins.partner j = .ok (some i))
    (hlength : mids.length = secs.length) (hne : secs ≠ []) :
    let given := Outcome.forEach (Distribution.distributePin board.pins model)
      { shares := sharesOf config secs mids groups [] } (List.range board.pins.size)
    (∃ f, given.answer = .error f ∧ Unpriced model mids f) ∨
      given.answer = .ok () ∧ ∃ pins, PinsHeld board model config secs mids groups pins
        (List.range board.pins.size) given.state := by
  refine Outcome.forEach_ends _ _ _ (F := Unpriced model mids)
    (P := fun done p => ∃ pins, PinsHeld board model config secs mids groups pins done p)
    (fun done pin p hpre held => ?_) ?_
  · obtain ⟨pins, held⟩ := held
    rcases held.distributePin htotal hsymm hlength hne (range_split hpre).1 with
      hfault | ⟨hok, home, held⟩
    · exact .inl hfault
    · exact .inr ⟨hok, _, held⟩
  · exact ⟨[], rfl, Ledger.follows_nil, rfl, fun j => by simp⟩

/-! ### The distribution -/

/-- Different groups without a common pin are handed out once each. -/
theorem groups_nodup_distribute
    (hgroups : board.pins.groups.Pairwise fun g h => g.members.Disjoint h.members)
    (h : (distribute board model config secs).answer = .ok ()) :
    ((distribute board model config secs).state.flatMap (·.groups)).Nodup := by
  obtain ⟨gs, hperm, hsub⟩ := groups_distribute h
  refine hperm.nodup_iff.mp ((hgroups.sublist hsub).imp_of_mem fun {g _} hg _ hdisjoint heq => ?_)
  obtain ⟨s, hs, hg⟩ := List.mem_flatMap.mp (hperm.subset hg)
  -- A group that is handed out has a member that is not placed.
  have hunplaced := (given_distribute h s hs g hg).2
  cases hmembers : g.members with
  | nil => simp [hmembers] at hunplaced
  | cons i rest =>
    have hi : i ∈ g.members := hmembers ▸ List.mem_cons_self
    exact hdisjoint hi (heq ▸ hi)

/-- A distribution over sections with available slots is stopped only where the cost model has no
price for a pin at the middle of a section.  One that goes through follows the rules.  It gives no
pin and no group to two sections, and it gives exactly the pins without a place and outside all
groups whose partner is no earlier pin that is given.  If one section is overfull at the end, then
none has a slot left to give out. -/
theorem distribute_allots (hne : secs ≠ [])
    (hroom : ∀ s ∈ secs, 0 < board.boundary.countFree s.first s.stop)
    (htotal : ∀ i < board.pins.size, ∃ partner, board.pins.partner i = .ok partner)
    (hsymm : ∀ i j, board.pins.partner i = .ok (some j) → board.pins.partner j = .ok (some i))
    (hgroups : board.pins.groups.Pairwise fun g h => g.members.Disjoint h.members) :
    let ended := distribute board model config secs
    ∃ mids, secs.mapM (middle board.boundary) = .ok mids ∧
      ((∃ f, ended.answer = .error f ∧ Unpriced model mids f) ∨
        ended.answer = .ok () ∧
        (∃ groups pins, Allotted board model config secs mids groups pins ended.state) ∧
        (ended.state.flatMap (·.pins)).Nodup ∧
        (ended.state.flatMap (·.groups)).Nodup ∧
        (∀ i, i ∈ ended.state.flatMap (·.pins) ↔
          ∃ p, board.pins.pins[i]? = some p ∧ p.placed = false ∧ p.grouped = false ∧
            ∀ j < i, board.pins.partner i = .ok (some j) → j ∉ ended.state.flatMap (·.pins)) ∧
        ((∃ s ∈ ended.state, config.capacity s.room.toNat < s.demand) →
          ∀ s ∈ ended.state, config.capacity s.room.toNat ≤ s.demand)) := by
  intro ended
  obtain ⟨mids, hmids, hlength⟩ := exists_mapM_eq_ok fun s hs => exists_middle (hroom s hs)
  have hprepared : (prepare board.boundary config secs).answer =
      .ok (sharesOf config secs mids [] []) := by
    rw [prepare_answer, hmids]
    rfl
  refine ⟨mids, hmids, ?_⟩
  rcases distributeGroups_held board model config hlength with
    ⟨f, hf, hcause⟩ | ⟨hgrouped, groups, hgroupsEq, hgroup, hshares⟩
  · refine .inl ⟨f, ?_, hcause⟩
    simp only [ended, distribute, Outcome.mapState, Outcome.andThen, hprepared, hf]
  rcases distributePins_held model config groups htotal hsymm hlength hne with
    ⟨f, hf, hcause⟩ | ⟨hpins, pins, held⟩
  · refine .inl ⟨f, ?_, hcause⟩
    simp only [ended, distribute, Outcome.mapState, Outcome.andThen, hprepared, hgrouped, hshares,
      hf]
  have hanswer : ended.answer = .ok () := by
    simp only [ended, distribute, Outcome.mapState, Outcome.andThen, hprepared, hgrouped, hshares,
      hpins]
  have hallotted : Allotted board model config secs mids groups pins ended.state := by
    refine ⟨hgroupsEq, held.done_eq, hgroup, held.follows, ?_⟩
    rw [← sec_sharesOf hlength, ← held.shares_eq]
    simp only [ended, distribute, Outcome.mapState, Outcome.andThen, hprepared, hgrouped, hshares,
      hpins]
  exact .inr ⟨hanswer, ⟨groups, pins, hallotted⟩, (pins_distribute hanswer).1,
    groups_nodup_distribute hgroups hanswer, fun i => hallotted.mem_pins_iff hlength,
    hallotted.overfull⟩

/-- Two slots on the bottom edge and one on the right one, for a group of two, a mirror pair and
another pin. -/
def crowdedCorner : Board where
  boundary :=
    { slots := #[⟨⟨10, 0⟩, 1, .bottom, false, false⟩, ⟨⟨20, 0⟩, 1, .bottom, false, false⟩,
        ⟨⟨90, 40⟩, 1, .right, false, false⟩] }
  pins :=
    { pins := #[⟨"a", none, true⟩, ⟨"b", none, true⟩, ⟨"c", none, false⟩, ⟨"d", none, false⟩,
        ⟨"e", none, false⟩]
      groups := [⟨[0, 1], false, "bus"⟩]
      mirrors := [("c", "d"), ("d", "c")] }

/-- The group fills the bottom edge and the first pin of the pair the right one.  The last pin finds
no slot left anywhere and is given to the cheaper section. -/
theorem distribute_allots_crowdedCorner :
    let secs := crowdedCorner.boundary.sections 200
    let config : Config := { usageFactor := { mantissa := 1, scale := 0 } }
    let ended := distribute crowdedCorner (.linear 1 0 0) config secs
    secs ≠ [] ∧ (∀ s ∈ secs, 0 < crowdedCorner.boundary.countFree s.first s.stop) ∧
      ended.answer = .ok () ∧ ended.state.map (·.pins) = [[4], [2]] ∧
      ended.state.map (fun s => s.groups.map (·.name)) = [["bus"], []] ∧
      (ended.state.flatMap (·.pins)).Nodup ∧
      (∃ s ∈ ended.state, config.capacity s.room.toNat < s.demand) ∧
      ∀ s ∈ ended.state, config.capacity s.room.toNat ≤ s.demand := by
  intro secs config ended
  have hne : secs ≠ [] := by decide +kernel
  have hroom : ∀ s ∈ secs, 0 < crowdedCorner.boundary.countFree s.first s.stop := by
    decide +kernel
  have hmirrors : ∀ x y, crowdedCorner.pins.mirrors.lookup x = some y →
      crowdedCorner.pins.mirrors.lookup y = some x ∧ y ∈ crowdedCorner.pins.names := by
    intro x y h
    have hmem := PinTable.mem_of_lookup h
    simp only [crowdedCorner, List.mem_cons, Prod.mk.injEq, List.not_mem_nil, or_false] at hmem
    rcases hmem with ⟨rfl, rfl⟩ | ⟨rfl, rfl⟩ <;> decide
  have hover : ∃ s ∈ ended.state, config.capacity s.room.toNat < s.demand := by decide +kernel
  obtain ⟨mids, -, ⟨_, -, _, _, -, hnever⟩ | ⟨hok, -, hnodup, -, -, hfull⟩⟩ :=
    @distribute_allots crowdedCorner (.linear 1 0 0) config secs hne hroom
      (PinTable.partner_total fun x y h => (hmirrors x y h).2)
      (fun _ _ => PinTable.partner_symm (by decide) fun x y h => (hmirrors x y h).1)
      (List.pairwise_singleton _ _)
  · cases hnever
  · exact ⟨hne, hroom, hok, by decide +kernel, by decide +kernel, hnodup, hover, hfull hover⟩

end Distribution

end PinRing
