import Mathlib.Data.List.Nodup
import Mathlib.Tactic.Common
import PinRing.Board.PinTable
import PinRing.Proofs.Except

/-! Tables of pins: what is found under a name, and `Declared`, which holds of every table that
declarations have built. -/

namespace PinRing.PinTable

/-- The names of the pins, in order. -/
def names (t : PinTable) : List String := t.pins.toList.map (·.name)

/-- A table without places, as declarations build it: names are distinct, mirror entries are about
two pins each and come in both directions, and no pin is in a group twice. -/
structure Declared (t : PinTable) : Prop where
  names_nodup : t.names.Nodup
  unplaced : ∀ (i : Nat) (p : Pin), t.pins[i]? = some p → p.spot = none
  keys_nodup : (t.mirrors.map Prod.fst).Nodup
  mirrored : ∀ e ∈ t.mirrors,
    e.1 ∈ t.names ∧ e.2 ∈ t.names ∧ e.1 ≠ e.2 ∧ e.2 ∈ t.mirrors.map Prod.fst
  members_nodup : (t.groups.flatMap (·.members)).Nodup
  members_grouped : ∀ g ∈ t.groups, ∀ i ∈ g.members, ∃ p, t.pins[i]? = some p ∧ p.grouped = true

variable {t : PinTable} {name partner : String} {i : Nat}

/-! ### Names -/

theorem pin_eq_ok {p : Pin} : t.pin i = .ok p ↔ t.pins[i]? = some p := by
  unfold PinTable.pin
  cases t.pins[i]? <;> simp

theorem indexOf_eq_ok : t.indexOf name = .ok i ↔ t.indexOf? name = some i := by
  unfold indexOf
  cases t.indexOf? name <;> simp

theorem pin_of_indexOf? (h : t.indexOf? name = some i) :
    ∃ p, t.pins[i]? = some p ∧ p.name = name := by
  obtain ⟨hi, hname, -⟩ := Array.findIdx?_eq_some_iff_getElem.mp h
  exact ⟨t.pins[i], Array.getElem?_eq_getElem hi, by simpa using hname⟩

theorem indexOf?_eq_none : t.indexOf? name = none ↔ name ∉ t.names := by
  rw [indexOf?, Array.findIdx?_eq_none_iff, names, List.mem_map, not_exists]
  refine forall_congr' fun p => ?_
  rw [Array.mem_toList_iff, not_and, beq_eq_false_iff_ne]

theorem exists_indexOf? (h : name ∈ t.names) : ∃ i, t.indexOf? name = some i := by
  cases hi : t.indexOf? name with
  | none => exact absurd h (indexOf?_eq_none.mp hi)
  | some i => exact ⟨i, rfl⟩

/-- A pin of a table with distinct names is found under its name. -/
theorem indexOf?_of_pin (h : t.names.Nodup) {p : Pin} (hp : t.pins[i]? = some p) :
    t.indexOf? p.name = some i := by
  have hat : ∀ (j : Nat) (q : Pin), t.pins[j]? = some q → t.names[j]? = some q.name := by
    intro j q hq
    rw [names, List.getElem?_map, Array.getElem?_toList, hq]
    rfl
  have hmem : p.name ∈ t.names := List.mem_of_getElem? (hat i p hp)
  obtain ⟨j, hj⟩ := exists_indexOf? hmem
  obtain ⟨q, hq, hname⟩ := pin_of_indexOf? hj
  have hlt := (List.getElem?_eq_some_iff.mp (hat i p hp)).1
  have heq : t.names[i]? = t.names[j]? := by rw [hat i p hp, hat j q hq, hname]
  rw [hj, List.getElem?_inj hlt h |>.mp heq]

/-- The partner of a pin is found by its name. -/
theorem partner_eq_ok {j : Nat} : t.partner i = .ok (some j) ↔
    ∃ p name, t.pins[i]? = some p ∧ t.mirrors.lookup p.name = some name ∧
      t.indexOf? name = some j := by
  constructor
  · intro h
    obtain ⟨p, hp, h⟩ := exists_of_bind_eq_ok h
    cases hname : t.mirrors.lookup p.name with
    | none => rw [hname] at h; cases h
    | some name =>
      simp only [hname] at h
      cases hj : t.indexOf name with
      | error f => rw [hj] at h; cases h
      | ok k =>
        rw [hj] at h
        cases h
        exact ⟨p, name, pin_eq_ok.mp hp, hname, indexOf_eq_ok.mp hj⟩
  · rintro ⟨p, name, hp, hname, hj⟩
    simp only [PinTable.partner, pin_eq_ok.mpr hp, Bind.bind, Except.bind, hname,
      indexOf_eq_ok.mpr hj]
    rfl

theorem mem_of_lookup {entries : List (String × String)} {value : String}
    (h : entries.lookup name = some value) : (name, value) ∈ entries := by
  obtain ⟨l, r, rfl, -⟩ := List.lookup_eq_some_iff.mp h
  exact List.mem_append_right _ List.mem_cons_self

/-- Where entries come in both directions, partners are mutual. -/
theorem partner_symm {j : Nat} (hnames : t.names.Nodup)
    (hback : ∀ x y, t.mirrors.lookup x = some y → t.mirrors.lookup y = some x)
    (h : t.partner i = .ok (some j)) : t.partner j = .ok (some i) := by
  obtain ⟨p, name, hp, hname, hj⟩ := partner_eq_ok.mp h
  obtain ⟨q, hq, hqname⟩ := pin_of_indexOf? hj
  exact partner_eq_ok.mpr ⟨q, p.name, hq, hqname ▸ hback _ _ hname, indexOf?_of_pin hnames hp⟩

theorem ne_of_partner {j : Nat} (hne : ∀ x y, t.mirrors.lookup x = some y → x ≠ y)
    (h : t.partner i = .ok (some j)) : i ≠ j := by
  rintro rfl
  obtain ⟨p, name, hp, hname, hj⟩ := partner_eq_ok.mp h
  obtain ⟨q, hq, hqname⟩ := pin_of_indexOf? hj
  rw [hp] at hq
  obtain rfl := Option.some.inj hq
  exact hne _ _ hname hqname

/-- An entry is the one that is found under its key. -/
theorem Declared.lookup_eq (h : t.Declared) {e : String × String} (he : e ∈ t.mirrors) :
    t.mirrors.lookup e.1 = some e.2 := by
  cases hfind : t.mirrors.lookup e.1 with
  | none =>
    have hout := List.lookup_eq_none_iff.mp hfind e he
    simp at hout
  | some value =>
    have heq := List.inj_on_of_nodup_map h.keys_nodup (mem_of_lookup hfind) he rfl
    rw [← heq]

/-- If no pin is in two pairs, the entries come in both directions. -/
theorem Declared.lookup_symm (h : t.Declared)
    (hpair : ∀ e ∈ t.mirrors, ∀ f ∈ t.mirrors,
      e.1 = f.1 ∨ e.1 = f.2 ∨ e.2 = f.1 ∨ e.2 = f.2 → f = e ∨ f = e.swap)
    (x y : String) (hfind : t.mirrors.lookup x = some y) : t.mirrors.lookup y = some x := by
  have he := mem_of_lookup hfind
  obtain ⟨-, -, hne, hkey⟩ := h.mirrored _ he
  obtain ⟨f, hf, hfst⟩ := List.mem_map.mp hkey
  have hback : f = (y, x) := by
    rcases hpair _ he f hf (.inr (.inr (.inl hfst.symm))) with heq | heq
    · rw [heq] at hfst
      exact absurd hfst hne
    · exact heq
  have hlookup := h.lookup_eq hf
  rwa [hback] at hlookup

/-- If all partners are pins of the table, then every pin has a partner or none. -/
theorem partner_total (hknown : ∀ x y, t.mirrors.lookup x = some y → y ∈ t.names) (i : Nat)
    (hi : i < t.size) : ∃ partner, t.partner i = .ok partner := by
  have hp := pin_eq_ok.mpr (Array.getElem?_eq_getElem hi)
  cases hname : t.mirrors.lookup t.pins[i].name with
  | none => exact ⟨none, by simp [partner, hp, hname, Bind.bind, Except.bind, pure, Except.pure]⟩
  | some name =>
    obtain ⟨j, hj⟩ := exists_indexOf? (hknown _ _ hname)
    exact ⟨some j, partner_eq_ok.mpr ⟨_, name, Array.getElem?_eq_getElem hi, hname, hj⟩⟩

theorem Declared.partner_total (h : t.Declared) (i : Nat) (hi : i < t.size) :
    ∃ partner, t.partner i = .ok partner :=
  PinTable.partner_total (fun _ _ hname => (h.mirrored _ (mem_of_lookup hname)).2.1) i hi

theorem Declared.not_isPlaced (h : t.Declared) (i : Nat) : ¬t.isPlaced i := by
  intro hi
  obtain ⟨p, hp, hplaced⟩ := (Option.any_eq_true _ _).mp hi
  rw [Pin.placed, h.unplaced i p hp] at hplaced
  cases hplaced

theorem Declared.lookup_ne (h : t.Declared) (x y : String)
    (hfind : t.mirrors.lookup x = some y) : x ≠ y := (h.mirrored _ (mem_of_lookup hfind)).2.2.1

/-! ### Mirror entries -/

theorem mem_of_mem_assign {key value : String} {entries : List (String × String)}
    {e : String × String} (h : e ∈ assign key value entries) : e = (key, value) ∨ e ∈ entries := by
  induction entries with
  | nil => exact .inl (List.mem_singleton.mp h)
  | cons entry rest ih =>
    rw [assign] at h
    split at h
    · rename_i hkey
      rcases List.mem_cons.mp h with rfl | h
      · exact .inl (by rw [hkey])
      · exact .inr (List.mem_cons_of_mem _ h)
    · rcases List.mem_cons.mp h with rfl | h
      · exact .inr List.mem_cons_self
      · exact (ih h).imp_right (List.mem_cons_of_mem _)

/-- A new key comes last; the others keep their positions. -/
theorem keys_assign (key value : String) (entries : List (String × String)) :
    (assign key value entries).map Prod.fst =
      if key ∈ entries.map Prod.fst then entries.map Prod.fst
      else entries.map Prod.fst ++ [key] := by
  induction entries with
  | nil => rfl
  | cons entry rest ih =>
    obtain ⟨k, v⟩ := entry
    by_cases hkey : k = key
    · simp [assign, hkey]
    · simp only [assign, if_neg hkey, List.map_cons, ih, List.mem_cons, Ne.symm hkey, false_or]
      split <;> rfl

theorem mem_keys_assign {key value other : String} {entries : List (String × String)} :
    other ∈ (assign key value entries).map Prod.fst ↔
      other = key ∨ other ∈ entries.map Prod.fst := by
  rw [keys_assign]
  split
  · rename_i hkey
    exact ⟨.inr, fun h => h.elim (fun heq => heq ▸ hkey) id⟩
  · rw [List.mem_append, List.mem_singleton, or_comm]

theorem keys_assign_nodup {key value : String} {entries : List (String × String)}
    (h : (entries.map Prod.fst).Nodup) : ((assign key value entries).map Prod.fst).Nodup := by
  rw [keys_assign]
  split
  · exact h
  · rename_i hkey
    refine List.nodup_append.mpr ⟨h, List.nodup_singleton _, fun a ha b hb heq => ?_⟩
    rw [List.mem_singleton.mp hb] at heq
    exact hkey (heq ▸ ha)

end PinRing.PinTable
