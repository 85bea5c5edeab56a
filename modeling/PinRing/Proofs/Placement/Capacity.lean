import Mathlib.Algebra.GroupWithZero.Nat
import Mathlib.Algebra.Order.BigOperators.Group.List
import Mathlib.Algebra.Ring.Int.Defs
import PinRing.Proofs.Placement.Distribution

/-! A distribution within capacity.  Every section's capacity goes down by the slots that its pins
and groups take, so as long as there are no more pins than slots to give out, some section has
capacity left for the next pin, and no section is given more than its capacity. -/

namespace PinRing

/-- The number of slots that the pins and groups of a section take. -/
def Section.demand (s : Section) : Nat := s.pins.length + (s.groups.map PinGroup.size).sum

namespace Distribution

variable {board : Board} {pins : PinTable} {model : CostModel} {config : Config}
variable {secs : List Section} {shares : List Share} {p : PinProgress} {pin : Nat} {i : Nat}

/-- What the sections take and what they have left make up their capacities, and none is
overfull. -/
structure Balanced (config : Config) (shares : List Share) : Prop where
  even : ∀ s ∈ shares, (s.sec.demand : Int) + s.capacity = config.capacity s.sec.room.toNat
  nonneg : ∀ s ∈ shares, 0 ≤ s.capacity

/-- The capacities of all sections together. -/
def supply (config : Config) (shares : List Share) : Nat :=
  (shares.map fun s => config.capacity s.sec.room.toNat).sum

theorem mem_modify {give : Share → Share} {t : Share} (h : t ∈ shares.modify i give) :
    t ∈ shares ∨ ∃ s, shares[i]? = some s ∧ t = give s := by
  obtain ⟨j, hj⟩ := List.getElem?_of_mem h
  rw [List.getElem?_modify] at hj
  obtain ⟨s, hs, rfl⟩ := Option.map_eq_some_iff.mp hj
  split
  · rename_i heq
    subst heq
    exact .inr ⟨s, hs, rfl⟩
  · exact .inl (List.mem_of_getElem? hs)

theorem Balanced.modify (h : Balanced config shares) {give : Share → Share} {size : Nat}
    (hroom : hasCapacity shares size i = true)
    (hdemand : ∀ s, (give s).sec.demand = s.sec.demand + size)
    (hcapacity : ∀ s, (give s).capacity = s.capacity - size)
    (hsame : ∀ s, (give s).sec.room = s.sec.room) : Balanced config (shares.modify i give) := by
  constructor
  · intro t ht
    rcases mem_modify ht with ht | ⟨s, hs, rfl⟩
    · exact h.even t ht
    · have := h.even s (List.mem_of_getElem? hs)
      rw [hdemand, hcapacity, hsame]
      omega
  · intro t ht
    rcases mem_modify ht with ht | ⟨s, hs, rfl⟩
    · exact h.nonneg t ht
    · have hle : (size : Int) ≤ s.capacity := by simpa [hasCapacity, hs] using hroom
      rw [hcapacity]
      omega

theorem Balanced.giveGroup (h : Balanced config shares) {g : PinGroup}
    (hroom : hasCapacity shares g.size i = true) :
    Balanced config (shares.modify i (giveGroup g)) := by
  refine h.modify hroom (fun s => ?_) (fun _ => rfl) fun _ => rfl
  simp [Distribution.giveGroup, Section.demand, Nat.add_assoc]

theorem Balanced.givePin (h : Balanced config shares)
    (hroom : hasCapacity shares 1 i = true) : Balanced config (shares.modify i (givePin pin)) := by
  refine h.modify hroom (fun s => ?_) (fun _ => rfl) fun _ => rfl
  simp [Distribution.givePin, Section.demand, Nat.add_right_comm]

theorem supply_modify (give : Share → Share) (hsame : ∀ s, (give s).sec.room = s.sec.room)
    (shares : List Share) (i : Nat) :
    supply config (shares.modify i give) = supply config shares := by
  have hmap : (shares.modify i give).map (fun s => config.capacity s.sec.room.toNat) =
      shares.map fun s => config.capacity s.sec.room.toNat := by
    refine List.ext_getElem? fun k => ?_
    rw [List.getElem?_map, List.getElem?_map, List.getElem?_modify]
    cases shares[k]? with
    | none => rfl
    | some s => split <;> simp [hsame]
  rw [supply, hmap, supply]

/-- All that was handed out, pin by pin, and all that is left make up the supply. -/
theorem Balanced.supply_eq (h : Balanced config shares) :
    ((handedOut shares ++ (groupsOut shares).flatMap (·.members)).length : Int) +
      (shares.map (·.capacity)).sum = supply config shares := by
  obtain ⟨heven, -⟩ := h
  induction shares with
  | nil => rfl
  | cons s rest ih =>
    obtain ⟨hs, hrest⟩ := List.forall_mem_cons.mp heven
    have hall := ih hrest
    have hmembers : (s.sec.groups.flatMap (·.members)).length =
        (s.sec.groups.map PinGroup.size).sum := List.length_flatMap
    simp only [handedOut, groupsOut, supply, List.flatMap_cons, List.flatMap_append,
      List.length_append, List.map_cons, List.sum_cons, hmembers, Section.demand] at hs hall ⊢
    omega

/-- As long as less was handed out than can be, some section has capacity left. -/
theorem Balanced.exists_hasCapacity (h : Balanced config shares)
    (hless : (handedOut shares ++ (groupsOut shares).flatMap (·.members)).length <
      supply config shares) : ∃ i, hasCapacity shares 1 i = true := by
  have hsum := h.supply_eq
  have hpos : (shares.map fun _ => (0 : Int)).sum < (shares.map (·.capacity)).sum := by
    have hzero : (shares.map fun _ => (0 : Int)).sum = 0 := by simp
    omega
  obtain ⟨s, hs, hpos⟩ := List.exists_lt_of_sum_lt _ _ hpos
  obtain ⟨i, hi⟩ := List.getElem?_of_mem hs
  have hroom : 1 ≤ s.capacity := hpos
  exact ⟨i, by simpa [hasCapacity, hi] using hroom⟩

/-! ### The stages -/

theorem prepare_balanced {b : Boundary} (h : (prepare b config secs).answer = .ok shares) :
    Balanced config shares ∧
      supply config shares = (secs.map fun s => config.capacity s.room.toNat).sum := by
  induction secs generalizing shares with
  | nil =>
    cases h
    exact ⟨⟨fun _ hs => (nomatch hs), fun _ hs => nomatch hs⟩, rfl⟩
  | cons s rest ih =>
    rw [prepare] at h
    cases hmiddle : middle b s with
    | error f => rw [hmiddle] at h; cases h
    | ok mid =>
      simp only [hmiddle] at h
      cases hrest : (prepare b config rest).answer with
      | error f => rw [hrest] at h; cases h
      | ok others =>
        rw [hrest] at h
        cases h
        obtain ⟨⟨heven, hnonneg⟩, hsupply⟩ := ih hrest
        refine ⟨⟨List.forall_mem_cons.mpr ⟨by simp [Section.demand], heven⟩,
          List.forall_mem_cons.mpr ⟨Int.natCast_nonneg _, hnonneg⟩⟩, ?_⟩
        exact congrArg (config.capacity s.room.toNat + ·) hsupply

theorem grouped_balanced (pins : PinTable) (model : CostModel) (h : Balanced config shares)
    (gs : List PinGroup) :
    let grouped := (Outcome.forEach (distributeGroup pins model) shares gs).state
    Balanced config grouped ∧ supply config grouped = supply config shares := by
  refine Outcome.forEach_state (P := fun s => Balanced config s ∧
    supply config s = supply config shares) (fun s g _ ⟨hs, hsupply⟩ => ?_) ⟨h, rfl⟩
  rcases distributeGroup_cases pins model s g with hsame | ⟨-, i, hroom, hgiven⟩
  · rw [hsame]
    exact ⟨hs, hsupply⟩
  · rw [hgiven]
    exact ⟨hs.giveGroup hroom, (supply_modify (giveGroup g) (fun _ => rfl) s i).trans hsupply⟩

/-- Different pins of the table are no more than the table has. -/
theorem length_le_size {is : List Nat} (hnodup : is.Nodup) (hlt : ∀ i ∈ is, i < pins.size) :
    is.length ≤ pins.size := by
  have hsub : is ⊆ List.range pins.size := fun i hi => List.mem_range.mpr (hlt i hi)
  simpa using (hnodup.subperm hsub).length_le

/-- After the pins `done` nothing is overfull, and those without a place and outside all groups
have been given out. -/
structure Supplied (pins : PinTable) (config : Config) (grouped : List Share) (done : List Nat)
    (p : PinProgress) : Prop where
  handed : Handed pins done p
  balanced : Balanced config p.shares
  supply_eq : supply config p.shares = supply config grouped
  groups_eq : groupsOut p.shares = groupsOut grouped
  alone : p.followers = []
  given : ∀ i ∈ done, ∀ q, pins.pins[i]? = some q → q.placed = false → q.grouped = false →
    i ∈ handedOut p.shares

/-- A pin that joins those handed out is one more pin of the table. -/
theorem Supplied.exists_hasCapacity {grouped : List Share} {done : List Nat} {q : Pin}
    (h : Supplied pins config grouped done p) (hnew : pin ∉ done) (hq : pins.pin pin = .ok q)
    (hfree : q.grouped = false)
    (hmembers : ((groupsOut grouped).flatMap (·.members)).Nodup)
    (hgrouped : ∀ i ∈ (groupsOut grouped).flatMap (·.members),
      ∃ q, pins.pins[i]? = some q ∧ q.grouped = true)
    (hfit : pins.size ≤ supply config grouped) : ∃ i, hasCapacity p.shares 1 i = true := by
  let taken := handedOut p.shares ++ (groupsOut p.shares).flatMap (·.members)
  have hout : ∀ i q, pins.pins[i]? = some q → q.grouped = false →
      i ∉ (groupsOut p.shares).flatMap (·.members) := by
    intro i q hq hfree hi
    rw [h.groups_eq] at hi
    obtain ⟨q', hq', hin⟩ := hgrouped i hi
    rw [hq] at hq'
    rw [← Option.some.inj hq', hfree] at hin
    cases hin
  have hnodup : (pin :: taken).Nodup := by
    refine List.nodup_cons.mpr ⟨?_, List.nodup_append.mpr ⟨h.handed.nodup, ?_, ?_⟩⟩
    · rw [List.mem_append, not_or]
      exact ⟨fun hi => hnew (h.handed.done pin hi), hout pin q (PinTable.pin_eq_ok.mp hq) hfree⟩
    · rw [h.groups_eq]
      exact hmembers
    · rintro i hi _ hj rfl
      obtain ⟨q', hq', -, hfree'⟩ := h.handed.free i hi
      exact hout i q' hq' hfree' hj
  have hlt : ∀ i ∈ pin :: taken, i < pins.size := by
    have hat : ∀ i (q : Pin), pins.pins[i]? = some q → i < pins.size := fun i q hq =>
      (Array.getElem?_eq_some_iff.mp hq).1
    refine List.forall_mem_cons.mpr ⟨hat pin q (PinTable.pin_eq_ok.mp hq), ?_⟩
    refine List.forall_mem_append.mpr ⟨fun i hi => ?_, fun i hi => ?_⟩
    · obtain ⟨q', hq', -⟩ := h.handed.free i hi
      exact hat i q' hq'
    · obtain ⟨q', hq', -⟩ := hgrouped i (h.groups_eq ▸ hi)
      exact hat i q' hq'
  have hle := length_le_size hnodup hlt
  have hsupply := h.supply_eq
  refine h.balanced.exists_hasCapacity ?_
  simp only [taken, List.length_cons] at hle
  omega

theorem Supplied.distributePin {grouped : List Share} {done : List Nat}
    (h : Supplied pins config grouped done p) (hnew : pin ∉ done)
    (hunpaired : ∀ i j, pins.partner i ≠ .ok (some j))
    (hmembers : ((groupsOut grouped).flatMap (·.members)).Nodup)
    (hgrouped : ∀ i ∈ (groupsOut grouped).flatMap (·.members),
      ∃ q, pins.pins[i]? = some q ∧ q.grouped = true)
    (hfit : pins.size ≤ supply config grouped)
    (hok : (distributePin pins model p pin).answer = .ok ()) :
    Supplied pins config grouped (done ++ [pin])
      (Distribution.distributePin pins model p pin).state := by
  have hhanded := h.handed.distributePin hnew hok
  obtain ⟨q, hq, ⟨hskip, hsame⟩ | ⟨hfree, partner, i, hpartner, ⟨hi, hroomiest⟩, hgiven⟩⟩ :=
    distributePin_cases hok
  · rw [hsame] at hhanded ⊢
    refine ⟨hhanded, h.balanced, h.supply_eq, h.groups_eq, h.alone, ?_⟩
    refine List.forall_mem_append.mpr ⟨h.given, List.forall_mem_singleton.mpr ?_⟩
    -- No pin follows another, so a pin that is passed over is placed or in a group.
    intro q' hq' hplaced hfree
    rw [PinTable.pin_eq_ok.mp hq] at hq'
    rw [Option.some.inj hq', hplaced, hfree, h.alone] at hskip
    cases hskip
  · simp only [Bool.or_eq_false_iff] at hfree
    obtain ⟨j, hj⟩ := h.exists_hasCapacity hnew hq hfree.1.2 hmembers hgrouped hfit
    have hnone : partner = none := by
      cases partner with
      | none => rfl
      | some k => exact absurd hpartner (hunpaired pin k)
    have hmore : (handedOut (p.shares.modify i (givePin pin))).Perm (pin :: handedOut p.shares) :=
      flatMap_modify_perm (·.sec.pins) (givePin pin) (fun _ => rfl) hi
    rw [hgiven] at hhanded ⊢
    refine ⟨hhanded, h.balanced.givePin (hroomiest j hj),
      (supply_modify (givePin pin) (fun _ => rfl) p.shares i).trans h.supply_eq,
      (flatMap_modify_same (·.sec.groups) (givePin pin) (fun _ => rfl) p.shares i).trans
        h.groups_eq, by rw [hnone, h.alone]; rfl, ?_⟩
    refine List.forall_mem_append.mpr ⟨fun k hk q' hq' hplaced hfree => ?_,
      List.forall_mem_singleton.mpr fun _ _ _ _ => ?_⟩
    · exact hmore.symm.subset (List.mem_cons_of_mem _ (h.given k hk q' hq' hplaced hfree))
    · exact hmore.symm.subset List.mem_cons_self

/-- Over a table without mirror pairs that has no more pins than may be given out, a distribution
gives every pin without a place and outside all groups to a section, and no section more than its
capacity. -/
theorem distribute_within_capacity (hd : board.pins.Declared) (hmirrors : board.pins.mirrors = [])
    (hfit : board.pins.size ≤ (secs.map fun s => config.capacity s.room.toNat).sum)
    (h : (distribute board model config secs).answer = .ok ()) :
    (∀ s ∈ (distribute board model config secs).state,
      s.demand ≤ config.capacity s.room.toNat) ∧
    ∀ i q, board.pins.pins[i]? = some q → q.placed = false → q.grouped = false →
      i ∈ (distribute board model config secs).state.flatMap (·.pins) := by
  have hunpaired : ∀ i j, board.pins.partner i ≠ .ok (some j) := by
    intro i j hij
    obtain ⟨p, name, -, hname, -⟩ := PinTable.partner_eq_ok.mp hij
    rw [hmirrors] at hname
    cases hname
  have hall := groups_distribute h
  have hmembersAll := members_distribute hd h
  obtain ⟨prepared, grouped, handed, hstages, hstate⟩ := exists_stages h
  obtain ⟨hprepared, hsupply⟩ := prepare_balanced hstages.prepared_eq
  obtain ⟨hgrouped, hsame⟩ :=
    grouped_balanced board.pins model hprepared board.pins.groups
  rw [hstages.grouped_eq] at hgrouped hsame
  rw [hstate, List.flatMap_map] at hall hmembersAll
  have hgroups := hstages.groupsOut_eq
  have hall : (groupsOut grouped).Subperm board.pins.groups := hgroups ▸ hall
  have hsupplied : Supplied board.pins config grouped (List.range board.pins.size) handed := by
    rw [← hstages.handed_eq]
    refine Outcome.forEach_reaches (fun done pin p hpre hp hok => ?_) hstages.pins_ok ?_
    · refine hp.distributePin (range_split hpre).2.1 hunpaired ?_ (fun i hi => ?_) (by omega) hok
      · exact hgroups ▸ hmembersAll
      · obtain ⟨g, hg, hi⟩ := List.mem_flatMap.mp hi
        exact hd.members_grouped g (hall.subset hg) i hi
    · have hnone := hstages.handedOut_grouped
      exact ⟨by constructor <;> simp [hnone], hgrouped, rfl, rfl, rfl, fun _ hi => nomatch hi⟩
  rw [hstate, List.flatMap_map]
  refine ⟨List.forall_mem_map.mpr fun s hs => ?_, fun i q hq hplaced hfree => ?_⟩
  · have := hsupplied.balanced.even s hs
    have := hsupplied.balanced.nonneg s hs
    omega
  · have hlt := (Array.getElem?_eq_some_iff.mp hq).1
    exact hsupplied.given i (List.mem_range.mpr hlt) q hq hplaced hfree

end Distribution

end PinRing
