import Mathlib.Tactic.Common
import PinRing.Proofs.Board.PinTable

/-! What one declaration does to a table.  An accepted one adds a pin, a group or a mirror pair.  A
refused one names its cause and leaves the table as it is, except that a group whose members are all
known leaves those members marked that come before the first one in a group already. -/

namespace PinRing.PinTable

variable {t : PinTable} {d : Declaration} {f : Fault} {i : Nat} {is js marked : List Nat}
variable {name : String}

/-- The table with some pins marked as grouped. -/
def mark (t : PinTable) (is : List Nat) : PinTable :=
  { t with pins := t.pins.mapIdx fun i p => if i ∈ is then { p with grouped := true } else p }

/-- The pin exists and is not marked as grouped. -/
def Free (t : PinTable) (i : Nat) : Prop := ∃ p, t.pins[i]? = some p ∧ p.grouped = false

/-! ### Marks -/

@[simp] theorem groups_mark (t : PinTable) (is : List Nat) : (t.mark is).groups = t.groups := rfl

@[simp] theorem mirrors_mark (t : PinTable) (is : List Nat) : (t.mark is).mirrors = t.mirrors := rfl

theorem pin_mark (t : PinTable) (is : List Nat) (i : Nat) : (t.mark is).pins[i]? =
    (t.pins[i]?).map fun p => if i ∈ is then { p with grouped := true } else p := by
  rw [mark, Array.getElem?_mapIdx]

theorem mark_nil (t : PinTable) : t.mark [] = t := by
  have hpins : (t.mark []).pins = t.pins := by
    refine Array.ext_getElem? fun i => ?_
    rw [pin_mark]
    simp
  cases t
  simpa [mark] using hpins

theorem mark_mark (t : PinTable) (is js : List Nat) : (t.mark is).mark js = t.mark (is ++ js) := by
  have hpins : ((t.mark is).mark js).pins = (t.mark (is ++ js)).pins := by
    refine Array.ext_getElem? fun i => ?_
    rw [pin_mark, pin_mark, pin_mark, Option.map_map]
    congr 1
    funext p
    by_cases his : i ∈ is <;> by_cases hjs : i ∈ js <;> simp [his, hjs]
  simpa [mark] using hpins

theorem free_mark : (t.mark is).Free i ↔ t.Free i ∧ i ∉ is := by
  simp only [Free, pin_mark, Option.map_eq_some_iff]
  constructor
  · rintro ⟨_, ⟨p, hp, rfl⟩, hfree⟩
    by_cases hi : i ∈ is
    · simp [hi] at hfree
    · exact ⟨⟨p, hp, by simpa [hi] using hfree⟩, hi⟩
  · rintro ⟨⟨p, hp, hfree⟩, hi⟩
    exact ⟨p, ⟨p, hp, by simp [hi]⟩, hfree⟩

theorem claim_of_free (h : t.Free i) : t.claim i = .done (t.mark [i]) () := by
  obtain ⟨p, hp, hfree⟩ := h
  have hpins : (t.pins.modify i fun p => { p with grouped := true }) = (t.mark [i]).pins := by
    refine Array.ext_getElem? fun j => ?_
    rw [pin_mark, Array.getElem?_modify]
    by_cases hj : i = j
    · simp [hj]
    · simp [hj, Ne.symm hj]
  simp only [claim, hp, hfree, hpins]
  rfl

theorem claim_of_grouped {p : Pin} (hp : t.pins[i]? = some p) (hgrouped : p.grouped = true) :
    t.claim i = .stop t (.alreadyGrouped p.name) := by
  simp [claim, hp, hgrouped]

/-- Different pins that are free are all claimed. -/
theorem forEach_claim_free (hnodup : is.Nodup) (hfree : ∀ i ∈ is, t.Free i) :
    Outcome.forEach claim t is = .done (t.mark is) () := by
  induction is generalizing t with
  | nil => rw [mark_nil]; rfl
  | cons i is ih =>
    obtain ⟨hi, hrest⟩ := List.forall_mem_cons.mp hfree
    obtain ⟨hout, hnodup⟩ := List.nodup_cons.mp hnodup
    rw [Outcome.forEach_cons, claim_of_free hi, Outcome.done_andThen, ih hnodup, mark_mark]
    · rfl
    · intro j hj
      exact free_mark.mpr ⟨hrest j hj, fun hmem => hout (List.mem_singleton.mp hmem ▸ hj)⟩

/-- Otherwise there is a first pin that is not free once the pins before it are marked. -/
theorem exists_first_taken (h : ¬(is.Nodup ∧ ∀ i ∈ is, t.Free i)) :
    ∃ marked i rest, is = marked ++ i :: rest ∧ marked.Nodup ∧ (∀ j ∈ marked, t.Free j) ∧
      ¬(t.mark marked).Free i := by
  induction is generalizing t with
  | nil => exact absurd ⟨List.nodup_nil, nofun⟩ h
  | cons i is ih =>
    by_cases hi : t.Free i
    · have hrest : ¬(is.Nodup ∧ ∀ j ∈ is, (t.mark [i]).Free j) := by
        rintro ⟨hnodup, hfree⟩
        refine h ⟨List.nodup_cons.mpr ⟨fun hmem => ?_, hnodup⟩, List.forall_mem_cons.mpr
          ⟨hi, fun j hj => (free_mark.mp (hfree j hj)).1⟩⟩
        exact (free_mark.mp (hfree i hmem)).2 (List.mem_singleton_self i)
      obtain ⟨marked, k, rest, rfl, hnodup, hfree, htaken⟩ := ih hrest
      rw [mark_mark] at htaken
      refine ⟨i :: marked, k, rest, rfl, List.nodup_cons.mpr ⟨fun hmem => ?_, hnodup⟩,
        List.forall_mem_cons.mpr ⟨hi, fun j hj => (free_mark.mp (hfree j hj)).1⟩, htaken⟩
      exact (free_mark.mp (hfree i hmem)).2 (List.mem_singleton_self i)
    · exact ⟨[], i, is, rfl, List.nodup_nil, nofun, by rwa [mark_nil]⟩

/-! ### Names -/

theorem indexOf_of_mem (h : name ∈ t.names) : ∃ i, t.indexOf name = .ok i := by
  obtain ⟨i, hi⟩ := exists_indexOf? h
  exact ⟨i, indexOf_eq_ok.mpr hi⟩

theorem indexOf_of_notMem (h : name ∉ t.names) : t.indexOf name = .error (.unknownPin name) := by
  rw [indexOf, indexOf?_eq_none.mpr h]

theorem lt_of_indices {names : List String} (h : names.mapM t.indexOf = .ok is) :
    ∀ i ∈ is, i < t.pins.size := by
  induction names generalizing is with
  | nil => cases h; exact nofun
  | cons name names ih =>
    rw [List.mapM_cons] at h
    obtain ⟨i, hi, h⟩ := exists_of_bind_eq_ok h
    obtain ⟨js, hjs, h⟩ := exists_of_bind_eq_ok h
    cases h
    obtain ⟨p, hp, -⟩ := pin_of_indexOf? (indexOf_eq_ok.mp hi)
    exact List.forall_mem_cons.mpr ⟨(Array.getElem?_eq_some_iff.mp hp).1, ih hjs⟩

/-- Names that are all known have indices. -/
theorem exists_indices {names : List String} (h : ∀ n ∈ names, n ∈ t.names) :
    ∃ is, names.mapM t.indexOf = .ok is := by
  obtain ⟨is, his, -⟩ := exists_mapM_eq_ok fun n hn => indexOf_of_mem (h n hn)
  exact ⟨is, his⟩

theorem indices_of_unknown {before rest : List String} {missing : String}
    (hknown : ∀ n ∈ before, n ∈ t.names) (hunknown : missing ∉ t.names) :
    (before ++ missing :: rest).mapM t.indexOf = .error (.unknownPin missing) := by
  obtain ⟨is, his⟩ := exists_indices hknown
  rw [List.mapM_append, his, List.mapM_cons, indexOf_of_notMem hunknown]
  rfl

/-! ### Accepted and refused declarations -/

/-- The table after a declaration that is accepted. -/
inductive Acceptance (t : PinTable) : Declaration → PinTable → Prop
  | pin {name : String} (fresh : name ∉ t.names) :
    Acceptance t (.pin name) { t with pins := t.pins.push { name } }
  | group {names : List String} {ordered : Bool} {name : String} {members : List Nat}
    (indices : names.mapM t.indexOf = .ok members) (nodup : members.Nodup)
    (free : ∀ i ∈ members, t.Free i) :
    Acceptance t (.group names ordered name)
      { t.mark members with
        groups := t.groups ++
          [⟨members, ordered, if name = "" then s!"group{t.groups.length}" else name⟩] }
  | mirror {x y : String} (known : x ∈ t.names) (partner : y ∈ t.names) (ne : x ≠ y) :
    Acceptance t (.mirror x y) { t with mirrors := assign y x (assign x y t.mirrors) }

/-- Why a declaration is refused, and the pins that it leaves marked: those of a group that come
before the first member in a group already, or named before. -/
inductive Refusal (t : PinTable) : Declaration → Fault → List Nat → Prop
  | inUse {name : String} (used : name ∈ t.names) :
    Refusal t (.pin name) (.duplicatePin name) []
  | unknownMember {before rest : List String} {missing : String} {ordered : Bool} {name : String}
    (known : ∀ n ∈ before, n ∈ t.names) (unknown : missing ∉ t.names) :
    Refusal t (.group (before ++ missing :: rest) ordered name) (.unknownPin missing) []
  | taken {names : List String} {ordered : Bool} {name : String} {marked rest : List Nat} {i : Nat}
    {p : Pin} (indices : names.mapM t.indexOf = .ok (marked ++ i :: rest)) (nodup : marked.Nodup)
    (free : ∀ j ∈ marked, t.Free j) (pin : t.pins[i]? = some p)
    (taken : p.grouped = true ∨ i ∈ marked) :
    Refusal t (.group names ordered name) (.alreadyGrouped p.name) marked
  | unknown {x y : String} (unknown : x ∉ t.names) : Refusal t (.mirror x y) (.unknownPin x) []
  | unknownPartner {x y : String} (known : x ∈ t.names) (unknown : y ∉ t.names) :
    Refusal t (.mirror x y) (.unknownPin y) []
  | self {x : String} (known : x ∈ t.names) : Refusal t (.mirror x x) (.selfMirror x) []

theorem Acceptance.declare_eq {after : PinTable} (h : Acceptance t d after) :
    t.declare d = .done after () := by
  cases h with
  | pin fresh =>
    simp only [declare, addPin, indexOf?_eq_none.mpr fresh]
    rfl
  | group indices nodup free =>
    simp only [declare, addGroup, indices, forEach_claim_free nodup free, Outcome.done_andThen]
    rfl
  | mirror known partner ne =>
    obtain ⟨i, hi⟩ := indexOf_of_mem known
    obtain ⟨j, hj⟩ := indexOf_of_mem partner
    simp only [declare, addMirror, hi, hj, if_neg ne]

theorem Refusal.declare_eq (h : Refusal t d f marked) : t.declare d = .stop (t.mark marked) f := by
  cases h with
  | inUse used =>
    obtain ⟨i, hi⟩ := exists_indexOf? used
    simp only [declare, addPin, hi, mark_nil]
    rfl
  | unknownMember known unknown =>
    simp only [declare, addGroup, indices_of_unknown known unknown, mark_nil]
    rfl
  | @taken names ordered name marked rest i p indices nodup free pin taken =>
    have hat : (t.mark marked).pins[i]? = some { p with grouped := true } := by
      rw [pin_mark, pin, Option.map_some]
      rcases taken with hgrouped | hmem
      · cases p
        split <;> simp_all
      · rw [if_pos hmem]
    have hclaim := claim_of_grouped hat rfl
    simp only [declare, addGroup, indices, Outcome.forEach_append, forEach_claim_free nodup free,
      Outcome.done_andThen, Outcome.forEach_cons, hclaim, Outcome.stop_andThen]
    rfl
  | unknown unknown =>
    simp only [declare, addMirror, indexOf_of_notMem unknown, mark_nil]
  | unknownPartner known unknown =>
    obtain ⟨i, hi⟩ := indexOf_of_mem known
    simp only [declare, addMirror, hi, indexOf_of_notMem unknown, mark_nil]
  | self known =>
    obtain ⟨i, hi⟩ := indexOf_of_mem known
    simp only [declare, addMirror, hi, mark_nil, if_true]

/-- Every declaration is accepted or refused. -/
theorem acceptance_or_refusal (t : PinTable) (d : Declaration) :
    (∃ after, Acceptance t d after) ∨ ∃ f marked, Refusal t d f marked := by
  cases d with
  | pin name =>
    by_cases hname : name ∈ t.names
    · exact .inr ⟨_, _, .inUse hname⟩
    · exact .inl ⟨_, .pin hname⟩
  | group names ordered name =>
    cases hfind : names.find? fun n => decide (n ∉ t.names) with
    | none =>
      obtain ⟨is, his⟩ := exists_indices (t := t) fun n hn => by
        simpa using List.find?_eq_none.mp hfind n hn
      by_cases hfree : is.Nodup ∧ ∀ i ∈ is, t.Free i
      · exact .inl ⟨_, .group his hfree.1 hfree.2⟩
      · obtain ⟨marked, i, rest, rfl, hnodup, hfree, htaken⟩ := exists_first_taken hfree
        have hlt := lt_of_indices his i (by simp)
        refine .inr ⟨_, _, .taken his hnodup hfree (Array.getElem?_eq_getElem hlt) ?_⟩
        by_contra hneither
        rw [not_or, Bool.not_eq_true] at hneither
        exact htaken (free_mark.mpr
          ⟨⟨_, Array.getElem?_eq_getElem hlt, hneither.1⟩, hneither.2⟩)
    | some missing =>
      obtain ⟨hmissing, before, rest, rfl, hbefore⟩ := List.find?_eq_some_iff_append.mp hfind
      refine .inr ⟨_, _, .unknownMember (fun n hn => ?_) (of_decide_eq_true hmissing)⟩
      simpa using hbefore n hn
  | mirror x y =>
    by_cases hx : x ∈ t.names
    · by_cases hy : y ∈ t.names
      · by_cases hne : x = y
        · subst hne
          exact .inr ⟨_, _, .self hx⟩
        · exact .inl ⟨_, .mirror hx hy hne⟩
      · exact .inr ⟨_, _, .unknownPartner hx hy⟩
    · exact .inr ⟨_, _, .unknown hx⟩

theorem acceptance_of_ok (h : (t.declare d).answer = .ok ()) :
    Acceptance t d (t.declare d).state := by
  rcases acceptance_or_refusal t d with ⟨after, hd⟩ | ⟨f, marked, hd⟩
  · rw [hd.declare_eq]
    exact hd
  · rw [hd.declare_eq] at h
    cases h

theorem refusal_of_error (h : (t.declare d).answer = .error f) :
    ∃ marked, Refusal t d f marked := by
  rcases acceptance_or_refusal t d with ⟨after, hd⟩ | ⟨f', marked, hd⟩
  · rw [hd.declare_eq] at h
    cases h
  · rw [hd.declare_eq] at h
    cases h
    exact ⟨marked, hd⟩

/-! ### Declared tables -/

theorem declared_empty : Declared {} where
  names_nodup := List.nodup_nil
  unplaced := fun i p hp => by simp at hp
  keys_nodup := List.nodup_nil
  mirrored := fun _ he => nomatch he
  members_nodup := List.nodup_nil
  members_grouped := fun _ hg => nomatch hg

theorem names_mark (t : PinTable) (is : List Nat) : (t.mark is).names = t.names := by
  refine List.ext_getElem? fun i => ?_
  rw [names, names, List.getElem?_map, List.getElem?_map, Array.getElem?_toList,
    Array.getElem?_toList, pin_mark, Option.map_map]
  congr 1
  funext p
  simp only [Function.comp_apply]
  split <;> rfl

theorem names_push (t : PinTable) (name : String) :
    PinTable.names { t with pins := t.pins.push { name } } = t.names ++ [name] := by
  simp [names]

theorem Declared.mark (h : t.Declared) (is : List Nat) : (t.mark is).Declared where
  names_nodup := names_mark t is ▸ h.names_nodup
  unplaced := by
    intro i p hp
    rw [pin_mark] at hp
    obtain ⟨q, hq, rfl⟩ := Option.map_eq_some_iff.mp hp
    split
    · exact h.unplaced i q hq
    · exact h.unplaced i q hq
  keys_nodup := h.keys_nodup
  mirrored := by
    rw [mirrors_mark, names_mark]
    exact h.mirrored
  members_nodup := h.members_nodup
  members_grouped := by
    intro g hg i hi
    obtain ⟨p, hp, hgrouped⟩ := h.members_grouped g hg i hi
    rw [pin_mark, hp]
    refine ⟨_, rfl, ?_⟩
    split
    · rfl
    · exact hgrouped

/-- A free pin is in no group. -/
theorem Declared.notMem_of_free (h : t.Declared) (hi : t.Free i) :
    i ∉ t.groups.flatMap (·.members) := by
  intro hmem
  obtain ⟨g, hg, hig⟩ := List.mem_flatMap.mp hmem
  obtain ⟨p, hp, hgrouped⟩ := h.members_grouped g hg i hig
  obtain ⟨q, hq, hfree⟩ := hi
  rw [hp] at hq
  cases hq
  rw [hgrouped] at hfree
  cases hfree

theorem Declared.accepted (h : t.Declared) {after : PinTable} (hd : Acceptance t d after) :
    after.Declared := by
  cases hd with
  | @pin name fresh =>
    have hpush : ∀ (i : Nat) (p : Pin), t.pins[i]? = some p →
        (t.pins.push { name })[i]? = some p := by
      intro i p hp
      obtain ⟨hi, rfl⟩ := Array.getElem?_eq_some_iff.mp hp
      exact Array.getElem?_push_lt hi
    constructor
    · rw [names_push]
      refine List.nodup_append.mpr ⟨h.names_nodup, List.nodup_singleton _, ?_⟩
      rintro a ha _ hb rfl
      exact fresh (List.mem_singleton.mp hb ▸ ha)
    · intro i p hp
      rw [Array.getElem?_push] at hp
      split at hp
      · cases hp
        rfl
      · exact h.unplaced i p hp
    · exact h.keys_nodup
    · intro e he
      obtain ⟨h1, h2, hrest⟩ := h.mirrored e he
      rw [names_push]
      exact ⟨List.mem_append_left _ h1, List.mem_append_left _ h2, hrest⟩
    · exact h.members_nodup
    · intro g hg i hi
      obtain ⟨p, hp, hgrouped⟩ := h.members_grouped g hg i hi
      exact ⟨p, hpush i p hp, hgrouped⟩
  | @group names ordered name members indices nodup free =>
    have hmarked := h.mark members
    refine ⟨hmarked.names_nodup, hmarked.unplaced, h.keys_nodup, hmarked.mirrored, ?_, ?_⟩
    · rw [List.flatMap_append, List.flatMap_singleton]
      refine List.nodup_append.mpr ⟨h.members_nodup, nodup, ?_⟩
      rintro i hi _ hj rfl
      exact h.notMem_of_free (free i hj) hi
    · intro g hg i hi
      rcases List.mem_append.mp hg with hg | hg
      · exact hmarked.members_grouped g hg i hi
      · rw [List.mem_singleton.mp hg] at hi
        obtain ⟨p, hp, -⟩ := free i hi
        exact ⟨{ p with grouped := true }, by rw [pin_mark, hp, Option.map_some, if_pos hi], rfl⟩
  | @mirror x y known partner ne =>
    refine ⟨h.names_nodup, h.unplaced, keys_assign_nodup (keys_assign_nodup h.keys_nodup), ?_,
      h.members_nodup, h.members_grouped⟩
    intro e he
    simp only [mem_keys_assign] at he ⊢
    rcases mem_of_mem_assign he with rfl | he
    · exact ⟨partner, known, Ne.symm ne, .inr (.inl rfl)⟩
    · rcases mem_of_mem_assign he with rfl | he
      · exact ⟨known, partner, ne, .inl rfl⟩
      · obtain ⟨h1, h2, hne, hkey⟩ := h.mirrored e he
        exact ⟨h1, h2, hne, .inr (.inr hkey)⟩

/-- No declaration spoils a table, also when it is refused. -/
theorem Declared.declare (h : t.Declared) (d : Declaration) : (t.declare d).state.Declared := by
  rcases acceptance_or_refusal t d with ⟨after, hd⟩ | ⟨f, marked, hd⟩
  · rw [hd.declare_eq]
    exact h.accepted hd
  · rw [hd.declare_eq]
    exact h.mark marked

theorem Declared.addPin (h : t.Declared) : (t.addPin name).state.Declared :=
  h.declare (.pin name)

theorem Declared.addGroup (h : t.Declared) (members : List String) (ordered : Bool) :
    (t.addGroup members ordered name).state.Declared :=
  h.declare (.group members ordered name)

theorem Declared.addMirror {partner : String} (h : t.Declared) :
    (t.addMirror name partner).state.Declared :=
  h.declare (.mirror name partner)

end PinRing.PinTable
