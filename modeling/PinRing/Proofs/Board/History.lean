import Mathlib.Data.List.Induction
import PinRing.Proofs.Board.Declaration

/-! Tables after any declarations, made one after the other, some of them refused.  A mirror entry
says what the last accepted pair about its pin says, so the entries are mutual as long as no pair is
superseded for one of its pins only.  A pin is marked as grouped if it is in a group, or if it was
left so by a refused one. -/

namespace PinRing.PinTable

variable {t : PinTable} {ds : List Declaration} {d : Declaration} {f : Fault} {i : Nat}
variable {marked : List Nat}

/-- The table after some declarations, whether they are accepted or refused. -/
def after (t : PinTable) : List Declaration → PinTable
  | [] => t
  | d :: ds => after (t.declare d).state ds

theorem after_append (t : PinTable) (ds es : List Declaration) :
    t.after (ds ++ es) = (t.after ds).after es := by
  induction ds generalizing t with
  | nil => rfl
  | cons d ds ih => exact ih _

theorem Declared.after (h : t.Declared) (ds : List Declaration) : (t.after ds).Declared := by
  induction ds generalizing t with
  | nil => exact h
  | cons d ds ih => exact ih (h.declare d)

/-! ### Mirror pairs -/

/-- The mirror pair that a declaration adds to a table, if it is accepted. -/
def pairOf (t : PinTable) (d : Declaration) : List (String × String) :=
  match d, (t.declare d).answer with
  | .mirror x y, .ok _ => [(x, y)]
  | _, _ => []

/-- The mirror pairs among some declarations that are accepted, in order. -/
def pairs (t : PinTable) : List Declaration → List (String × String)
  | [] => []
  | d :: ds => t.pairOf d ++ pairs (t.declare d).state ds

/-- The other pin of a pair. -/
def other (name : String) (p : String × String) : Option String :=
  if p.1 = name then some p.2 else if p.2 = name then some p.1 else none

/-- The other pin of the last of some pairs about a pin. -/
def latest (ps : List (String × String)) (name : String) : Option String :=
  ps.reverse.findSome? (other name)

/-- The pair is about a pin of this name. -/
def Names (p : String × String) (name : String) : Prop := p.1 = name ∨ p.2 = name

section Latest

variable {ps before later : List (String × String)} {p : String × String} {a b : String}

theorem other_eq_none : other a p = none ↔ ¬Names p a := by
  unfold other Names
  split
  · simp_all
  · split <;> simp_all

theorem other_eq_some (hne : p.1 ≠ p.2) : other a p = some b ↔ p = (a, b) ∨ p = (b, a) := by
  obtain ⟨x, y⟩ := p
  simp only at hne
  unfold other
  by_cases hx : x = a
  · subst hx
    simpa using fun heq hyx => absurd hyx.symm hne
  · by_cases hy : y = a
    · subst hy
      simp [hx]
    · simp [hx, hy]

theorem latest_eq_none : latest ps a = none ↔ ∀ q ∈ ps, ¬Names q a := by
  simp only [latest, List.findSome?_eq_none_iff, List.mem_reverse, other_eq_none]

/-- Only the last pair about a pin counts. -/
theorem latest_split (before : List (String × String)) (p : String × String)
    (later : List (String × String)) (a : String) :
    latest (before ++ p :: later) a =
      (latest later a).or ((other a p).or (latest before a)) := by
  simp only [latest, List.reverse_append, List.reverse_cons, List.findSome?_append,
    List.append_assoc, List.findSome?_singleton]

theorem latest_of_last (hne : p.1 ≠ p.2) (hp : p = (a, b) ∨ p = (b, a))
    (hlater : ∀ q ∈ later, ¬Names q a) : latest (before ++ p :: later) a = some b := by
  rw [latest_split, latest_eq_none.mpr hlater, (other_eq_some hne).mpr hp]
  rfl

theorem exists_of_latest (hne : ∀ p ∈ ps, p.1 ≠ p.2) (h : latest ps a = some b) :
    ∃ before p later, ps = before ++ p :: later ∧ (p = (a, b) ∨ p = (b, a)) ∧
      ∀ q ∈ later, ¬Names q a := by
  obtain ⟨l, p, r, hps, hother, hbefore⟩ := List.findSome?_eq_some_iff.mp h
  have hsplit : ps = r.reverse ++ p :: l.reverse := by
    rw [← List.reverse_reverse ps, hps]
    simp
  have hp : p ∈ ps := by simp [hsplit]
  exact ⟨r.reverse, p, l.reverse, hsplit, (other_eq_some (hne p hp)).mp hother,
    fun q hq => other_eq_none.mp (hbefore q (List.mem_reverse.mp hq))⟩

theorem names_of_latest (hne : ∀ p ∈ ps, p.1 ≠ p.2) (h : latest ps a = some b) :
    ∃ q ∈ ps, Names q b := by
  obtain ⟨before, p, later, rfl, hp, -⟩ := exists_of_latest hne h
  refine ⟨p, by simp, ?_⟩
  rcases hp with rfl | rfl
  · exact .inr rfl
  · exact .inl rfl

/-- The last pair about one pin is answered as long as no later one is about the other pin. -/
theorem latest_back_iff (hne : ∀ q ∈ before ++ p :: later, q.1 ≠ q.2)
    (hp : p = (a, b) ∨ p = (b, a)) (hlater : ∀ q ∈ later, ¬Names q a) :
    latest (before ++ p :: later) b = some a ↔ ∀ q ∈ later, ¬Names q b := by
  constructor
  · intro h q hq hnames
    rw [latest_split] at h
    cases hlast : latest later b with
    | none => exact latest_eq_none.mp hlast q hq hnames
    | some c =>
      rw [hlast, Option.some_or] at h
      obtain rfl := Option.some.inj h
      have hne' : ∀ q ∈ later, q.1 ≠ q.2 := fun q hq => hne q (by simp [hq])
      obtain ⟨q', hq', hnames'⟩ := names_of_latest hne' hlast
      exact hlater q' hq' hnames'
  · exact latest_of_last (hne p (by simp)) hp.symm

/-- The latest partners are mutual if and only if every pair is superseded for both of its pins or
for neither. -/
theorem latest_symm_iff (hne : ∀ p ∈ ps, p.1 ≠ p.2) :
    (∀ a b, latest ps a = some b → latest ps b = some a) ↔
      ∀ before p later, ps = before ++ p :: later →
        ((∃ q ∈ later, Names q p.1) ↔ ∃ q ∈ later, Names q p.2) := by
  constructor
  · rintro hsymm before ⟨x, y⟩ later rfl
    have hone : ∀ a b, ((x, y) = (a, b) ∨ (x, y) = (b, a)) → (∃ q ∈ later, Names q a) →
        ∃ q ∈ later, Names q b := by
      rintro a b hp ⟨q, hq, hnames⟩
      by_contra hout
      have hlater : ∀ q ∈ later, ¬Names q b := fun q hq hnames => hout ⟨q, hq, hnames⟩
      have hback := hsymm b a (latest_of_last (hne _ (by simp)) hp.symm hlater)
      exact (latest_back_iff hne hp.symm hlater).mp hback q hq hnames
    exact ⟨hone x y (.inl rfl), hone y x (.inr rfl)⟩
  · intro heven a b h
    obtain ⟨before, p, later, rfl, hp, hlater⟩ := exists_of_latest hne h
    refine (latest_back_iff hne hp hlater).mpr fun q hq hnames => ?_
    have hiff := heven before p later rfl
    rcases hp with rfl | rfl
    · obtain ⟨q', hq', hnames'⟩ := hiff.mpr ⟨q, hq, hnames⟩
      exact hlater q' hq' hnames'
    · obtain ⟨q', hq', hnames'⟩ := hiff.mp ⟨q, hq, hnames⟩
      exact hlater q' hq' hnames'

end Latest

theorem lookup_declare (t : PinTable) (d : Declaration) (name : String) :
    (t.declare d).state.mirrors.lookup name =
      (latest (t.pairOf d) name).or (t.mirrors.lookup name) := by
  rcases acceptance_or_refusal t d with ⟨after, hd⟩ | ⟨f, marked, hd⟩
  · cases hd with
    | pin fresh => rw [(Acceptance.pin fresh).declare_eq]; rfl
    | group indices nodup free => rw [(Acceptance.group indices nodup free).declare_eq]; rfl
    | @mirror x y known partner ne =>
      have hd := (Acceptance.mirror known partner ne).declare_eq
      simp only [pairOf, hd, Outcome.done, lookup_assign, latest, List.reverse_singleton,
        List.findSome?_singleton, other, eq_comm (a := name)]
      by_cases hx : x = name
      · simp [hx, Ne.symm (hx ▸ ne)]
      · by_cases hy : y = name <;> simp [hx, hy]
  · simp only [pairOf, hd.declare_eq, Outcome.stop, mirrors_mark]
    rfl

theorem lookup_after (t : PinTable) (ds : List Declaration) (name : String) :
    (t.after ds).mirrors.lookup name = (latest (t.pairs ds) name).or (t.mirrors.lookup name) := by
  induction ds generalizing t with
  | nil => rfl
  | cons d ds ih =>
    rw [after, pairs, ih, lookup_declare, latest, latest, latest, List.reverse_append,
      List.findSome?_append, Option.or_assoc]

theorem ne_of_mem_pairs (t : PinTable) (ds : List Declaration) :
    ∀ p ∈ t.pairs ds, p.1 ≠ p.2 := by
  induction ds generalizing t with
  | nil => exact nofun
  | cons d ds ih =>
    refine List.forall_mem_append.mpr ⟨fun p hp => ?_, ih _⟩
    rcases acceptance_or_refusal t d with ⟨after, hd⟩ | ⟨f, marked, hd⟩
    · cases hd with
      | pin fresh => simp [pairOf] at hp
      | group indices nodup free => simp [pairOf] at hp
      | mirror known partner ne =>
        simp only [pairOf, (Acceptance.mirror known partner ne).declare_eq, Outcome.done,
          List.mem_singleton] at hp
        exact hp ▸ ne
    · simp [pairOf, hd.declare_eq, Outcome.stop] at hp

/-- The mirror map is a symmetric pairing: its entries link different pins of the table in both
directions, the partner of a pin's partner is the pin, and no two pins have the same partner. -/
structure PairsUp (t : PinTable) : Prop where
  linked : ∀ a b, t.mirrors.lookup a = some b → a ≠ b ∧ a ∈ t.names ∧ b ∈ t.names
  back : ∀ a b, t.mirrors.lookup a = some b → t.mirrors.lookup b = some a
  involutive : ∀ i j, t.partner i = .ok (some j) → t.partner j = .ok (some i)
  unique : ∀ i j k, t.partner i = .ok (some k) → t.partner j = .ok (some k) → i = j

theorem Declared.linked (h : t.Declared) (a b : String) (hab : t.mirrors.lookup a = some b) :
    a ≠ b ∧ a ∈ t.names ∧ b ∈ t.names := by
  obtain ⟨ha, hb, hne, -⟩ := h.mirrored _ (mem_of_lookup hab)
  exact ⟨hne, ha, hb⟩

theorem Declared.pairsUp_iff (h : t.Declared) :
    t.PairsUp ↔ ∀ a b, t.mirrors.lookup a = some b → t.mirrors.lookup b = some a := by
  refine ⟨PairsUp.back, fun hback => ⟨h.linked, hback, fun i j => ?_, fun i j k hi hj => ?_⟩⟩
  · exact partner_symm h.names_nodup hback
  · have hki := partner_symm h.names_nodup hback hi
    rw [partner_symm h.names_nodup hback hj] at hki
    exact (Option.some.inj (Except.ok.inj hki)).symm

/-- After any declarations the mirrored pins are those that some accepted pair is about, and each
has as its partner the other pin of the last such pair.  That pin may have been paired once more
since, and the map is a symmetric pairing if and only if no pair has been superseded for one of its
pins only. -/
theorem pairsUp_after_iff (ds : List Declaration) :
    let t := after {} ds
    let ps := pairs {} ds
    (∀ a, t.isMirrored a ↔ ∃ p ∈ ps, Names p a) ∧
      (∀ a b, t.mirrors.lookup a = some b → (a ≠ b ∧ a ∈ t.names ∧ b ∈ t.names) ∧
        ∃ before p later, ps = before ++ p :: later ∧ (p = (a, b) ∨ p = (b, a)) ∧
          (∀ q ∈ later, ¬Names q a) ∧
          (t.mirrors.lookup b = some a ↔ ∀ q ∈ later, ¬Names q b)) ∧
      (t.PairsUp ↔ ∀ before p later, ps = before ++ p :: later →
        ((∃ q ∈ later, Names q p.1) ↔ ∃ q ∈ later, Names q p.2)) := by
  intro t ps
  have hlookup : ∀ a, t.mirrors.lookup a = latest ps a := fun a => by
    simpa using lookup_after {} ds a
  have hne : ∀ p ∈ ps, p.1 ≠ p.2 := ne_of_mem_pairs {} ds
  have hdeclared : t.Declared := declared_empty.after ds
  refine ⟨fun a => ?_, fun a b hab => ⟨hdeclared.linked a b hab, ?_⟩, ?_⟩
  · rw [isMirrored, hlookup, Option.isSome_iff_ne_none, ne_eq, latest_eq_none]
    simp
  · rw [hlookup] at hab
    obtain ⟨before, p, later, hps, hp, hlater⟩ := exists_of_latest hne hab
    refine ⟨before, p, later, hps, hp, hlater, ?_⟩
    rw [hlookup, hps]
    exact latest_back_iff (hps ▸ hne) hp hlater
  · simp only [hdeclared.pairsUp_iff, hlookup]
    exact latest_symm_iff hne

/-- The first partner of a pin that is paired once more still points at it. -/
theorem not_pairsUp_after_second_pair :
    ¬(after {} [.pin "a", .pin "b", .pin "c", .mirror "a" "b", .mirror "c" "a"]).PairsUp := by
  intro h
  have hback := h.back "b" "a" (by decide +kernel)
  revert hback
  decide +kernel

/-! ### Marked pins -/

/-- The pin exists and is marked as grouped. -/
def isGrouped (t : PinTable) (i : Nat) : Bool := (t.pins[i]?).any (·.grouped)

/-- A refused declaration among the first ones has left the pin marked. -/
def Stray (ds : List Declaration) (i : Nat) : Prop :=
  ∃ before d f marked, before ++ [d] <+: ds ∧ Refusal (after {} before) d f marked ∧ i ∈ marked

theorem Free.not_isGrouped (h : t.Free i) : ¬t.isGrouped i := by
  obtain ⟨p, hp, hfree⟩ := h
  simp [isGrouped, hp, hfree]

theorem isGrouped_mark (h : ∀ i ∈ marked, t.Free i) :
    (t.mark marked).isGrouped i ↔ t.isGrouped i ∨ i ∈ marked := by
  by_cases hi : i ∈ marked
  · obtain ⟨p, hp, -⟩ := h i hi
    simp [isGrouped, pin_mark, hp, hi]
  · simp [isGrouped, pin_mark, hi]

theorem isGrouped_push (t : PinTable) (name : String) (i : Nat) :
    isGrouped { t with pins := t.pins.push { name } } i = t.isGrouped i := by
  unfold isGrouped
  rw [Array.getElem?_push]
  split
  · simp [*]
  · rfl

theorem Refusal.free (h : Refusal t d f marked) : ∀ i ∈ marked, t.Free i := by
  cases h with
  | taken indices nodup free pin taken => exact free
  | _ => exact nofun

/-- The table of accepted declarations alone: no pin is marked without being in a group. -/
structure Settled (t : PinTable) : Prop extends t.Declared where
  member_of_grouped : ∀ i, t.isGrouped i → i ∈ t.groups.flatMap (·.members)

theorem settled_empty : Settled {} :=
  { declared_empty with member_of_grouped := fun i hi => by simp [isGrouped] at hi }

theorem Settled.accepted (h : t.Settled) {after : PinTable} (hd : Acceptance t d after) :
    after.Settled := by
  refine { h.toDeclared.accepted hd with member_of_grouped := fun i hi => ?_ }
  cases hd with
  | pin fresh =>
    rw [isGrouped_push] at hi
    exact h.member_of_grouped i hi
  | @group names ordered name members indices nodup free =>
    rw [List.flatMap_append, List.flatMap_singleton, List.mem_append]
    exact ((isGrouped_mark free).mp hi).imp_left (h.member_of_grouped i)
  | mirror known partner ne => exact h.member_of_grouped i hi

theorem Settled.isGrouped_iff (h : t.Settled) :
    t.isGrouped i ↔ ∃ g ∈ t.groups, i ∈ g.members := by
  constructor
  · exact fun hi => List.mem_flatMap.mp (h.member_of_grouped i hi)
  · rintro ⟨g, hg, hi⟩
    obtain ⟨p, hp, hgrouped⟩ := h.members_grouped g hg i hi
    simp [isGrouped, hp, hgrouped]

/-- A refused declaration leaves the table as it is if and only if it marks no pin. -/
theorem Refusal.mark_eq_iff (h : Refusal t d f marked) : t.mark marked = t ↔ marked = [] := by
  constructor
  · intro heq
    by_contra hne
    obtain ⟨i, hi⟩ := List.exists_mem_of_ne_nil marked hne
    have hgrouped := (isGrouped_mark h.free).mpr (.inr hi)
    rw [heq] at hgrouped
    exact (h.free i hi).not_isGrouped hgrouped
  · rintro rfl
    exact t.mark_nil

/-- All ways to refuse a declaration leave the same pins marked. -/
theorem Refusal.mem_iff (h : Refusal t d f marked) :
    (∃ f marked, Refusal t d f marked ∧ i ∈ marked) ↔ i ∈ marked := by
  constructor
  · rintro ⟨f', marked', h', hi⟩
    have hstate : t.mark marked' = t.mark marked :=
      congrArg Outcome.state (h'.declare_eq.symm.trans h.declare_eq)
    have hgrouped := (isGrouped_mark h'.free).mpr (.inr hi)
    rw [hstate, isGrouped_mark h.free] at hgrouped
    exact hgrouped.resolve_left (h'.free i hi).not_isGrouped
  · exact fun hi => ⟨f, marked, h, hi⟩

theorem stray_append : Stray (ds ++ [d]) i ↔
    Stray ds i ∨ ∃ f marked, Refusal (after {} ds) d f marked ∧ i ∈ marked := by
  constructor
  · rintro ⟨before, e, f, marked, hprefix, hd, hi⟩
    rcases List.prefix_concat_iff.mp hprefix with heq | hprefix
    · obtain ⟨rfl, hlast⟩ := List.append_inj' heq rfl
      obtain rfl := List.singleton_inj.mp hlast
      exact .inr ⟨f, marked, hd, hi⟩
    · exact .inl ⟨before, e, f, marked, hprefix, hd, hi⟩
  · rintro (⟨before, e, f, marked, hprefix, hd, hi⟩ | ⟨f, marked, hd, hi⟩)
    · exact ⟨before, e, f, marked, hprefix.trans (List.prefix_append _ _), hd, hi⟩
    · exact ⟨ds, d, f, marked, List.prefix_rfl, hd, hi⟩

theorem stray_of_accepted {t' : PinTable} (hd : Acceptance (after {} ds) d t') :
    Stray (ds ++ [d]) i ↔ Stray ds i := by
  rw [stray_append, or_iff_left]
  rintro ⟨f, marked, href, -⟩
  cases hd.declare_eq.symm.trans href.declare_eq

/-- The marked pins are the members of groups and the strays, which are in no group. -/
theorem isGrouped_after_iff (ds : List Declaration) (i : Nat) :
    ((after {} ds).isGrouped i ↔
      i ∈ (after {} ds).groups.flatMap (·.members) ∨ Stray ds i) ∧
      (Stray ds i → i ∉ (after {} ds).groups.flatMap (·.members)) := by
  induction ds using List.reverseRecOn with
  | nil => simp [after, isGrouped, Stray]
  | append_singleton ds d ih =>
    obtain ⟨hmarked, hout⟩ := ih
    have hdeclared : (after {} ds).Declared := declared_empty.after ds
    rw [after_append, after, after]
    rcases acceptance_or_refusal (after {} ds) d with ⟨t', hd⟩ | ⟨f, marked, hd⟩
    · rw [hd.declare_eq, stray_of_accepted hd]
      simp only [Outcome.done]
      cases hd with
      | pin fresh =>
        rw [isGrouped_push]
        exact ⟨hmarked, hout⟩
      | group indices nodup free =>
        have hmark := isGrouped_mark (i := i) free
        simp only [isGrouped] at hmark hmarked ⊢
        rw [List.flatMap_append, List.flatMap_singleton, List.mem_append, hmark, hmarked]
        refine ⟨by tauto, fun hstray => ?_⟩
        rintro (hi | hi)
        · exact hout hstray hi
        · exact (free i hi).not_isGrouped (hmarked.mpr (.inr hstray))
      | mirror known partner ne => exact ⟨hmarked, hout⟩
    · rw [stray_append, hd.mem_iff, hd.declare_eq]
      simp only [Outcome.stop, groups_mark]
      rw [isGrouped_mark hd.free, hmarked, or_assoc]
      refine ⟨Iff.rfl, ?_⟩
      rintro (hstray | hi)
      · exact hout hstray
      · exact hdeclared.notMem_of_free (hd.free i hi)

/-- The pin is a member of one of the registered groups, and of no other. -/
def InOneGroup (t : PinTable) (i : Nat) : Prop :=
  ∃! n : Nat, ∃ g : PinGroup, t.groups[n]? = some g ∧ i ∈ g.members

theorem Declared.inOneGroup_iff (h : t.Declared) :
    t.InOneGroup i ↔ i ∈ t.groups.flatMap (·.members) := by
  constructor
  · rintro ⟨n, ⟨g, hn, hig⟩, -⟩
    exact List.mem_flatMap.mpr ⟨g, List.mem_of_getElem? hn, hig⟩
  · intro hi
    obtain ⟨g, hg, hig⟩ := List.mem_flatMap.mp hi
    obtain ⟨n, hn⟩ := List.getElem?_of_mem hg
    refine ⟨n, ⟨g, hn, hig⟩, ?_⟩
    rintro m ⟨g', hm, hig'⟩
    obtain ⟨hltn, rfl⟩ := List.getElem?_eq_some_iff.mp hn
    obtain ⟨hltm, rfl⟩ := List.getElem?_eq_some_iff.mp hm
    have hapart := List.pairwise_iff_getElem.mp (List.nodup_flatMap.mp h.members_nodup).2
    rcases Nat.lt_trichotomy m n with hlt | heq | hlt
    · exact absurd hig (hapart m n hltm hltn hlt hig')
    · exact heq
    · exact absurd hig' (hapart n m hltn hltm hlt hig)

/-- A declaration that is refused leaves the table as it is, unless it is a group whose members are
all known: then those members are left marked that come before the first one in a group already, or
named before.  So after any declarations the groups are disjoint and without repeated members, and
the marked pins are those in exactly one group together with those that a refused group has left
marked, which are in none. -/
theorem marks_after (ds : List Declaration) :
    let t := after {} ds
    (∀ d f, (t.declare d).answer = .error f → ∃ marked, Refusal t d f marked ∧
      (t.declare d).state = t.mark marked ∧ ((t.declare d).state = t ↔ marked = [])) ∧
    (∀ g ∈ t.groups, g.members.Nodup) ∧
    t.groups.Pairwise (fun g h => g.members.Disjoint h.members) ∧
    ∀ i, (t.isGrouped i ↔ t.InOneGroup i ∨ Stray ds i) ∧
      (Stray ds i → ∀ g ∈ t.groups, i ∉ g.members) := by
  intro t
  have hdeclared : t.Declared := declared_empty.after ds
  refine ⟨fun d f hf => ?_, ?_, ?_, fun i => ?_⟩
  · obtain ⟨marked, hd⟩ := refusal_of_error hf
    rw [hd.declare_eq]
    exact ⟨marked, hd, rfl, hd.mark_eq_iff⟩
  · exact (List.nodup_flatMap.mp hdeclared.members_nodup).1
  · exact (List.nodup_flatMap.mp hdeclared.members_nodup).2
  · obtain ⟨hmarked, hout⟩ := isGrouped_after_iff ds i
    rw [hdeclared.inOneGroup_iff]
    exact ⟨hmarked, fun hstray g hg hi => hout hstray (List.mem_flatMap.mpr ⟨g, hg, hi⟩)⟩

/-- A group that is refused because of its second member leaves its first one marked. -/
theorem refused_group_marks_pin :
    let ds : List Declaration := [.pin "a", .pin "b", .pin "c", .group ["a", "b"] false "bus"]
    let refused := (after {} ds).declare (.group ["c", "b"] false "clk")
    refused.answer = .error (.alreadyGrouped "b") ∧ ¬(after {} ds).isGrouped 2 ∧
      refused.state.isGrouped 2 ∧ ∀ g ∈ refused.state.groups, 2 ∉ g.members := by
  decide +kernel

end PinRing.PinTable
