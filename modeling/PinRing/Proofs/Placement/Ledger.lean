import PinRing.Proofs.Placement.Capacity
import PinRing.Proofs.Placement.Ranking

/-! The rules of a distribution.  A ledger says of every group, or of every pin, in the order in
which they come up, to which section it is given.  The rules say what each entry has to be after the
ones before it: the best section among those with enough capacity left. -/

namespace PinRing

/-- Items in the order in which they come up, each with the section that it is given to, if any. -/
abbrev Ledger (α : Type) := List (α × Option Nat)

namespace Ledger

variable {α : Type} {l before : Ledger α} {a : α} {home : Option Nat} {k : Nat}
variable {rule : Ledger α → α → Option Nat → Prop}

/-- The items that a section is given. -/
def of (l : Ledger α) (k : Nat) : List α :=
  l.filterMap fun e => if e.2 = some k then some e.1 else none

/-- Each item goes where the rule sends it after the entries before it. -/
def Follows (rule : Ledger α → α → Option Nat → Prop) (l : Ledger α) : Prop :=
  ∀ before a home later, l = before ++ (a, home) :: later → rule before a home

theorem mem_of : a ∈ l.of k ↔ (a, some k) ∈ l := by
  simp [of]

theorem of_append (l : Ledger α) (a : α) (home : Option Nat) (k : Nat) :
    of (l ++ [(a, home)]) k = if home = some k then l.of k ++ [a] else l.of k := by
  unfold of
  split <;> simp [*]

theorem follows_nil : Follows rule [] := by
  intro before a home later hsplit
  simp at hsplit

theorem follows_append :
    Follows rule (l ++ [(a, home)]) ↔ l.Follows rule ∧ rule l a home := by
  constructor
  · refine fun h => ⟨fun before b home' later hsplit => ?_, h l a home [] rfl⟩
    exact h before b home' (later ++ [(a, home)]) (by rw [hsplit]; simp)
  · rintro ⟨h, hlast⟩ before b home' later hsplit
    rcases List.eq_nil_or_concat later with rfl | ⟨later, e, rfl⟩
    · obtain ⟨rfl, heq⟩ := List.append_inj' hsplit rfl
      cases heq
      exact hlast
    · rw [List.concat_eq_append, ← List.cons_append, ← List.append_assoc] at hsplit
      obtain ⟨rfl, -⟩ := List.append_inj' hsplit rfl
      exact h before b home' later rfl

end Ledger

namespace Distribution

/-- The slots of section `k` that the entries take. -/
def load (groups : Ledger PinGroup) (pins : Ledger Nat) (k : Nat) : Nat :=
  ((groups.of k).map PinGroup.size).sum + (pins.of k).length

/-- Section `k` has at least `size` slots left to give out after these entries. -/
def Fits (config : Config) (secs : List Section) (groups : Ledger PinGroup) (pins : Ledger Nat)
    (size k : Nat) : Prop :=
  ∃ s, secs[k]? = some s ∧ load groups pins k + size ≤ config.capacity s.room.toNat

section Rules

variable (board : Board) (model : CostModel) (config : Config) (secs : List Section)
variable (mids : List Point)

/-- Where a group goes after those `before` it: to the best section with room for all of it. -/
inductive GroupHome (before : Ledger PinGroup) (g : PinGroup) : Option Nat → Prop
  | placed (placed : g.members.all board.pins.isPlaced = true) : GroupHome before g none
  | full (unplaced : g.members.all board.pins.isPlaced = false)
    (full : ∀ k, ¬Fits config secs before [] g.size k) : GroupHome before g none
  | best {costs : List Cost} {k : Nat} (unplaced : g.members.all board.pins.isPlaced = false)
    (priced : mids.mapM (model.groupCost g.members) = .ok costs)
    (best : Best costs (Fits config secs before [] g.size) k) : GroupHome before g (some k)

/-- Where a pin goes after all groups and the pins `before` it: to the best section with a slot
left, or to the best of all if none has one left. -/
inductive PinHome (groups : Ledger PinGroup) (before : Ledger Nat) (i : Nat) : Option Nat → Prop
  | placed {p : Pin} (pin : board.pins.pins[i]? = some p) (placed : p.placed = true) :
    PinHome groups before i none
  | grouped {p : Pin} (pin : board.pins.pins[i]? = some p) (grouped : p.grouped = true) :
    PinHome groups before i none
  | follower {j k : Nat} (partner : board.pins.partner i = .ok (some j))
    (given : (j, some k) ∈ before) : PinHome groups before i none
  | best {p : Pin} {costs : List Cost} {k : Nat} (pin : board.pins.pins[i]? = some p)
    (unplaced : p.placed = false) (ungrouped : p.grouped = false)
    (leads : ∀ j l, board.pins.partner i = .ok (some j) → (j, some l) ∉ before)
    (priced : mids.mapM (model i) = .ok costs)
    (best : Best costs (fun l => Fits config secs groups before 1 l ∨
      ∀ m, ¬Fits config secs groups before 1 m) k) : PinHome groups before i (some k)

/-- The sections `after` a distribution hold what two ledgers say, one of all groups and one of all
pins of the table, which follow the rules. -/
structure Allotted (groups : Ledger PinGroup) (pins : Ledger Nat) (after : List Section) :
    Prop where
  groups_eq : groups.map (·.1) = board.pins.groups
  pins_eq : pins.map (·.1) = List.range board.pins.size
  group : groups.Follows (GroupHome board model config secs mids)
  pin : pins.Follows (PinHome board model config secs mids groups)
  after_eq : after = secs.mapIdx fun k s => { s with groups := groups.of k, pins := pins.of k }

end Rules

variable {board : Board} {model : CostModel} {config : Config} {secs after : List Section}
variable {mids : List Point} {groups : Ledger PinGroup} {pins : Ledger Nat} {k i : Nat}

theorem load_group (groups : Ledger PinGroup) (pins : Ledger Nat) (g : PinGroup)
    (home : Option Nat) (k : Nat) : load (groups ++ [(g, home)]) pins k =
      load groups pins k + if home = some k then g.size else 0 := by
  rw [load, load, Ledger.of_append]
  split
  · rw [List.map_append, List.sum_append, List.map_singleton, List.sum_singleton]
    omega
  · rfl

theorem load_pin (groups : Ledger PinGroup) (pins : Ledger Nat) (i : Nat) (home : Option Nat)
    (k : Nat) : load groups (pins ++ [(i, home)]) k =
      load groups pins k + if home = some k then 1 else 0 := by
  rw [load, load, Ledger.of_append]
  split
  · rw [List.length_append, List.length_singleton, Nat.add_assoc]
  · rfl

/-! ### Overfull sections -/

/-- Groups never take more than the capacity of a section. -/
theorem load_groups_le (h : groups.Follows (GroupHome board model config secs mids)) :
    ∀ k s, secs[k]? = some s → load groups [] k ≤ config.capacity s.room.toNat := by
  induction groups using List.reverseRecOn with
  | nil => exact fun _ _ _ => Nat.zero_le _
  | append_singleton groups e ih =>
    obtain ⟨g, home⟩ := e
    obtain ⟨hbefore, hlast⟩ := Ledger.follows_append.mp h
    intro k s hs
    rw [load_group]
    split
    · rename_i hhome
      rw [hhome] at hlast
      obtain ⟨t, ht, hfits⟩ : Fits config secs groups [] g.size k := by
        cases hlast with
        | best _ _ hbest => exact hbest.1
      rw [hs] at ht
      exact Option.some.inj ht ▸ hfits
    · exact ih hbefore k s hs

/-- As long as pins are given to sections with a slot left no section is overfull; from then on no
section has a slot left. -/
theorem load_le_or_le (hgroups : groups.Follows (GroupHome board model config secs mids))
    (hpins : pins.Follows (PinHome board model config secs mids groups)) :
    (∀ k s, secs[k]? = some s → load groups pins k ≤ config.capacity s.room.toNat) ∨
      ∀ k s, secs[k]? = some s → config.capacity s.room.toNat ≤ load groups pins k := by
  induction pins using List.reverseRecOn with
  | nil => exact .inl (load_groups_le hgroups)
  | append_singleton pins e ih =>
    obtain ⟨i, home⟩ := e
    obtain ⟨hbefore, hlast⟩ := Ledger.follows_append.mp hpins
    have hmore : ∀ k, load groups pins k ≤ load groups (pins ++ [(i, home)]) k := fun k => by
      rw [load_pin]
      exact Nat.le_add_right _ _
    rcases ih hbefore with hwithin | hfull
    · cases hlast with
      | placed | grouped | follower =>
        exact .inl fun k s hs => by simpa [load_pin] using hwithin k s hs
      | @best p costs k _ _ _ _ _ hbest =>
        -- From the first pin that finds no slot left on, the second half of the claim holds.
        rcases hbest.1 with ⟨t, ht, hfits⟩ | hnone
        · refine .inl fun l s hs => ?_
          rw [load_pin]
          split
          · rename_i heq
            cases heq
            rw [hs] at ht
            exact Option.some.inj ht ▸ hfits
          · exact hwithin l s hs
        · refine .inr fun l s hs => le_trans ?_ (hmore l)
          have hlow : ¬load groups pins l + 1 ≤ config.capacity s.room.toNat :=
            fun hfits => hnone l ⟨s, hs, hfits⟩
          omega
    · exact .inr fun k s hs => (hfull k s hs).trans (hmore k)

namespace Allotted

theorem getElem?_after (h : Allotted board model config secs mids groups pins after) (k : Nat) :
    after[k]? = (secs[k]?).map fun s => { s with groups := groups.of k, pins := pins.of k } := by
  rw [h.after_eq, List.getElem?_mapIdx]

/-- If one section takes more slots than its capacity, then all sections take at least theirs. -/
theorem overfull (h : Allotted board model config secs mids groups pins after)
    (hover : ∃ s ∈ after, config.capacity s.room.toNat < s.demand) :
    ∀ s ∈ after, config.capacity s.room.toNat ≤ s.demand := by
  have hsec : ∀ t ∈ after, ∃ k s, secs[k]? = some s ∧ t.room = s.room ∧
      t.demand = load groups pins k := by
    intro t ht
    obtain ⟨k, hk⟩ := List.getElem?_of_mem ht
    rw [h.getElem?_after] at hk
    obtain ⟨s, hs, rfl⟩ := Option.map_eq_some_iff.mp hk
    exact ⟨k, s, hs, rfl, Nat.add_comm _ _⟩
  obtain ⟨t, ht, hover⟩ := hover
  obtain ⟨k, s, hs, hroom, hdemand⟩ := hsec t ht
  rcases load_le_or_le h.group h.pin with hwithin | hfull
  · rw [hroom, hdemand] at hover
    exact absurd (hwithin k s hs) (Nat.not_le.mpr hover)
  · intro t ht
    obtain ⟨l, u, hu, hroom, hdemand⟩ := hsec t ht
    rw [hroom, hdemand]
    exact hfull l u hu

/-! ### The pins that are given -/

/-- The pins that the sections hold are those that the ledger gives to a section. -/
theorem mem_pins (h : Allotted board model config secs mids groups pins after)
    (hlength : mids.length = secs.length) :
    i ∈ after.flatMap (·.pins) ↔ ∃ k, (i, some k) ∈ pins := by
  rw [List.mem_flatMap]
  constructor
  · rintro ⟨t, ht, hi⟩
    obtain ⟨k, hk⟩ := List.getElem?_of_mem ht
    rw [h.getElem?_after] at hk
    obtain ⟨s, -, rfl⟩ := Option.map_eq_some_iff.mp hk
    exact ⟨k, Ledger.mem_of.mp hi⟩
  · rintro ⟨k, hk⟩
    obtain ⟨before, later, hsplit⟩ := List.append_of_mem hk
    have hlt : k < secs.length := by
      cases h.pin before i (some k) later hsplit with
      | best _ _ _ _ hpriced hbest =>
        exact hlength ▸ length_of_mapM_eq_ok hpriced ▸ hbest.lt_length
    have hat := h.getElem?_after k
    rw [List.getElem?_eq_getElem hlt] at hat
    exact ⟨_, List.mem_of_getElem? hat, Ledger.mem_of.mpr hk⟩

/-- The sections are given exactly the pins without a place, outside all groups, whose partner is no
earlier pin that is given. -/
theorem mem_pins_iff (h : Allotted board model config secs mids groups pins after)
    (hlength : mids.length = secs.length) : i ∈ after.flatMap (·.pins) ↔
      ∃ p, board.pins.pins[i]? = some p ∧ p.placed = false ∧ p.grouped = false ∧
        ∀ j < i, board.pins.partner i = .ok (some j) → j ∉ after.flatMap (·.pins) := by
  -- The ledger is in the order of the pins, so "given before" and "given and lower" are the same.
  have hsorted : pins.Pairwise fun e e' => e.1 < e'.1 :=
    List.pairwise_map.mp (h.pins_eq ▸ List.pairwise_lt_range)
  simp only [h.mem_pins hlength]
  constructor
  · rintro ⟨k, hk⟩
    obtain ⟨before, later, hsplit⟩ := List.append_of_mem hk
    rw [hsplit, List.pairwise_append, List.pairwise_cons] at hsorted
    cases h.pin before i (some k) later hsplit with
    | @best p _ _ hp hunplaced hungrouped hleads =>
    refine ⟨p, hp, hunplaced, hungrouped, fun j hj hpartner ⟨l, hl⟩ => ?_⟩
    rw [hsplit, List.mem_append, List.mem_cons] at hl
    rcases hl with hl | hl | hl
    · exact hleads j l hpartner hl
    · cases hl
      exact Nat.lt_irrefl _ hj
    · exact Nat.lt_asymm hj (hsorted.2.1.1 _ hl)
  · rintro ⟨p, hp, hunplaced, hungrouped, hleads⟩
    have hi : i ∈ pins.map (·.1) := by
      rw [h.pins_eq, List.mem_range]
      exact (Array.getElem?_eq_some_iff.mp hp).1
    obtain ⟨⟨i, home⟩, hmem, rfl⟩ := List.mem_map.mp hi
    obtain ⟨before, later, hsplit⟩ := List.append_of_mem hmem
    rw [hsplit, List.pairwise_append] at hsorted
    cases h.pin before i home later hsplit with
    | placed hpin hplaced =>
      rw [hp] at hpin
      cases hpin
      rw [hunplaced] at hplaced
      cases hplaced
    | grouped hpin hgrouped =>
      rw [hp] at hpin
      cases hpin
      rw [hungrouped] at hgrouped
      cases hgrouped
    | @follower j k hpartner hgiven =>
      have hj : j < i := hsorted.2.2 _ hgiven _ List.mem_cons_self
      exact absurd ⟨k, hsplit ▸ List.mem_append_left _ hgiven⟩ (hleads j hj hpartner)
    | @best _ _ k => exact ⟨k, hmem⟩

end Allotted

end Distribution

end PinRing
