import Mathlib.Data.List.Lattice
import Mathlib.Data.List.Pairwise
import PinRing.Proofs.Board.PinTable
import PinRing.Proofs.Geometry.Core
import PinRing.Proofs.Placement.Pairs
import PinRing.Proofs.Placement.Run

/-! Arranged boards: pins sit on slots of their own, the pins of a mirror pair face each other, and
groups lie along blocks of slots.  Every move keeps a board arranged, and so does every run. -/

namespace PinRing

namespace Board

/-- A board whose slots can be told apart, on which no pin is in two mirror pairs or both mirrored
and grouped, and no group is empty. -/
structure Orderly (b : Board) : Prop where
  apart : b.boundary.Apart
  one_pair : ∀ e ∈ b.pins.mirrors, ∀ f ∈ b.pins.mirrors,
    e.1 = f.1 ∨ e.1 = f.2 ∨ e.2 = f.1 ∨ e.2 = f.2 → f = e ∨ f = e.swap
  unmirrored : ∀ p ∈ b.pins.pins, p.grouped = true → b.pins.isMirrored p.name = false
  nonempty : ∀ g ∈ b.pins.groups, g.members ≠ []

/-- The members of a group sit along a block, unless none is placed. -/
def Laid (b : Board) (g : PinGroup) : Prop :=
  (∀ i ∈ g.members, Review.slotOf b i = none) ∨
    ∃ edge first, ∀ c ∈ GroupPass.layout g edge first, Review.slotOf b c.pin = some c.slot

/-- The pins of `b` sit as the pairs and groups of `start` ask for. -/
structure Arranged (reflect : Reflection) (start b : Board) : Prop where
  seated : Seated start b
  pairs : ∀ i j, start.pins.partner i = .ok (some j) → Faces reflect b i j
  groups : ∀ g ∈ start.pins.groups, Laid b g

variable {reflect : Reflection} {start b after : Board} {g : PinGroup} {i j pin : Nat}
variable {cs : List Commit}

/-! ### Pairs and groups of a table -/

theorem Orderly.partner_symm (ho : start.Orderly) (hd : start.pins.Declared)
    (h : start.pins.partner i = .ok (some j)) : start.pins.partner j = .ok (some i) :=
  PinTable.partner_symm hd.names_nodup (hd.lookup_symm ho.one_pair) h

/-- A mirrored pin is in no group. -/
theorem Orderly.notMem_of_partner (ho : start.Orderly) (hd : start.pins.Declared)
    (h : start.pins.partner i = .ok (some j)) (hg : g ∈ start.pins.groups) : i ∉ g.members := by
  intro hi
  obtain ⟨p, name, hp, hname, -⟩ := PinTable.partner_eq_ok.mp h
  obtain ⟨q, hq, hgrouped⟩ := hd.members_grouped g hg i hi
  rw [hp] at hq
  obtain rfl := Option.some.inj hq
  have hmirrored := ho.unmirrored p (Array.mem_of_getElem? hp) hgrouped
  rw [PinTable.isMirrored, hname] at hmirrored
  cases hmirrored

theorem Eligible.notMem {o : Origin} (hd : start.pins.Declared) (h : start.Eligible o pin)
    (hg : g ∈ start.pins.groups) : pin ∉ g.members := by
  intro hi
  obtain ⟨p, hp, hfree, -⟩ := h
  obtain ⟨q, hq, hgrouped⟩ := hd.members_grouped g hg pin hi
  rw [hp] at hq
  obtain rfl := Option.some.inj hq
  rw [hfree] at hgrouped
  cases hgrouped

/-- Different groups share no member. -/
theorem disjoint_members (hd : start.pins.Declared) {other : PinGroup}
    (hg : g ∈ start.pins.groups) (hother : other ∈ start.pins.groups) (hne : g ≠ other)
    (hi : i ∈ g.members) : i ∉ other.members := by
  have hpairwise := (List.nodup_flatMap.mp hd.members_nodup).2
  have hsymm : Std.Symm (Function.onFun List.Disjoint fun g : PinGroup => g.members) :=
    ⟨fun _ _ h => h.symm⟩
  exact fun hi' => hpairwise.forall hg hother hne hi hi'

/-- Groups with different members are different groups. -/
theorem nodup_of_members {gs : List PinGroup} (hne : ∀ g ∈ gs, g.members ≠ [])
    (h : (gs.flatMap (·.members)).Nodup) : gs.Nodup := by
  refine (List.nodup_flatMap.mp h).2.imp_of_mem fun {g other} hg _ hapart heq => ?_
  obtain ⟨i, hi⟩ := List.exists_mem_of_ne_nil _ (hne g hg)
  exact hapart hi (heq ▸ hi)

theorem members_nodup (hd : start.pins.Declared) (hg : g ∈ start.pins.groups) :
    g.members.Nodup :=
  (List.nodup_flatMap.mp hd.members_nodup).1 g hg

/-! ### What a move leaves alone -/

theorem Laid.congr (h : Laid b g)
    (hsame : ∀ i ∈ g.members, Review.slotOf after i = Review.slotOf b i) : Laid after g := by
  rcases h with h | ⟨edge, first, h⟩
  · exact .inl fun i hi => (hsame i hi).trans (h i hi)
  · refine .inr ⟨edge, first, fun c hc => ?_⟩
    have hmem : c.pin ∈ g.members := map_pin_layout g edge first ▸ List.mem_map_of_mem hc
    rw [hsame c.pin hmem, h c hc]

theorem Open.laid (hopen : b.Open cs) (h : Laid b g)
    (hmembers : ∀ i ∈ g.members, i ∉ cs.map (·.pin)) : Laid (b.takeAll cs) g :=
  h.congr fun i hi => hopen.slotOf_of_notMem (hmembers i hi)

/-! ### Moves -/

/-- The commits of a group are all carried out when its members are pins of the table. -/
theorem takeWhile_layout (hd : start.pins.Declared) (hframe : Frame start b)
    (hg : g ∈ start.pins.groups) (edge : Edge) (first : Nat) :
    (GroupPass.layout g edge first).takeWhile (·.pin < b.pins.size) =
      GroupPass.layout g edge first := by
  rw [List.takeWhile_eq_self_iff]
  intro c hc
  have hmem : c.pin ∈ g.members := map_pin_layout g edge first ▸ List.mem_map_of_mem hc
  obtain ⟨p, hp, -⟩ := hd.members_grouped g hg c.pin hmem
  have hlt : c.pin < start.pins.size := (Array.getElem?_eq_some_iff.mp hp).1
  rw [hframe.size_pins]
  exact decide_eq_true hlt

theorem Orderly.pairs (ho : start.Orderly) (hd : start.pins.Declared)
    (hsymm : ∀ p q, reflect.Sends p q → reflect.Sends q p)
    (hij : start.pins.partner i = .ok (some j)) : start.scope.Pairs reflect start i j where
  partner := hij
  back _ _ := ho.partner_symm hd
  ne := PinTable.ne_of_partner hd.lookup_ne hij
  single k elig := by
    have halone : start.Eligible .single k := elig
    exact ⟨fun heq => halone.partner_ne (heq ▸ hij),
      fun heq => halone.partner_ne (heq ▸ ho.partner_symm hd hij)⟩
  group _ registered :=
    ⟨ho.notMem_of_partner hd hij registered,
      ho.notMem_of_partner hd (ho.partner_symm hd hij) registered⟩
  undone _ := hsymm

theorem Arranged.move_groups (hd : start.pins.Declared) (ho : start.Orderly)
    (h : Arranged reflect start b) (hm : Move (some reflect) start.scope b cs)
    (hg : g ∈ start.pins.groups) : Laid (b.takeAll cs) g := by
  have hlaid := h.groups g hg
  have hopen := hm.isOpen
  cases hm with
  | @single pin slot elig admits unplaced =>
    refine hopen.laid hlaid fun i hi => ?_
    have hne : i ≠ pin := fun heq => elig.notMem hd hg (heq ▸ hi)
    simpa using hne
  | @pair pin partner slot other s reflect' image elig given partnered admits unplaced
      partner_admits partner_unplaced slot_ne at_slot reflected at_image =>
    rw [h.seated.frame.partner] at partnered
    have hback := ho.partner_symm hd partnered
    refine hopen.laid hlaid fun i hi => ?_
    have hne : i ≠ pin := fun heq => elig.notMem hd hg (heq ▸ hi)
    have hne' : i ≠ partner := fun heq => ho.notMem_of_partner hd hback hg (heq ▸ hi)
    simp [hne, hne']
  | @group other edge first registered free =>
    rw [takeWhile_layout hd h.seated.frame registered] at hopen ⊢
    by_cases heq : g = other
    · subst heq
      refine .inr ⟨edge, first, fun c hc => ?_⟩
      refine hopen.slotOf_of_mem (h.seated.frame.apart ho.apart) ?_ hc
      rw [map_pin_layout]
      exact members_nodup hd hg
    · refine hopen.laid hlaid fun i hi => ?_
      rw [map_pin_layout]
      exact disjoint_members hd hg registered heq hi

theorem Arranged.moves (hd : start.pins.Declared) (ho : start.Orderly)
    (hsymm : ∀ p q, reflect.Sends p q → reflect.Sends q p) (h : Arranged reflect start b)
    (hm : Moves (some reflect) start.scope b cs) : Arranged reflect start (b.takeAll cs) := by
  induction hm with
  | nil b => exact h
  | cons head _ ih =>
    rw [takeAll_append]
    exact ih ⟨h.seated.takeAll ho.apart head.isOpen,
      fun _ _ hij => head.faces (ho.pairs hd hsymm hij) h.seated.frame (h.pairs _ _ hij),
      fun _ hg => h.move_groups hd ho head hg⟩

/-! ### Runs -/

theorem Arranged.refl (hd : start.pins.Declared) : Arranged reflect start start := by
  have hnone : ∀ i, start.spotOf i = none := by
    intro i
    unfold spotOf
    cases hp : start.pins.pins[i]? with
    | none => rfl
    | some p => exact hd.unplaced i p hp
  refine ⟨.refl hnone, fun i j _ => .inl ⟨hnone i, hnone j⟩, fun g _ => .inl fun i _ => ?_⟩
  rw [slotOf_eq, hnone i]
  rfl

theorem Arranged.run (hd : start.pins.Declared) (ho : start.Orderly)
    (hsymm : ∀ p q, reflect.Sends p q → reflect.Sends q p) (h : Arranged reflect start b)
    (model : CostModel) (config : Config) :
    Arranged reflect start (PinRing.run b model (some reflect) config).state.1 := by
  obtain ⟨cs, hmoves, hboard, -⟩ := run_moves b model (some reflect) config
  rw [hboard]
  exact h.moves hd ho hsymm (hmoves.mono h.seated.frame.scope_le)

end Board

/-- The board after some runs, one after the other, whether or not each of them ends in a fault. -/
def runAll (board : Board) (reflection : Option Reflection) (calls : List (CostModel × Config)) :
    Board :=
  calls.foldl (fun b call => (run b call.1 reflection call.2).state.1) board

theorem Board.Arranged.runAll {reflect : Reflection} {start b : Board} (hd : start.pins.Declared)
    (ho : start.Orderly) (hsymm : ∀ p q, reflect.Sends p q → reflect.Sends q p)
    (h : Arranged reflect start b) (calls : List (CostModel × Config)) :
    Arranged reflect start (PinRing.runAll b (some reflect) calls) := by
  induction calls generalizing b with
  | nil => exact h
  | cons call calls ih => exact ih (h.run hd ho hsymm call.1 call.2)

end PinRing
