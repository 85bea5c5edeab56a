import PinRing.Proofs.Board.History
import PinRing.Proofs.File.Problem

/-! Problem definitions of any form.  A value whose doubles are all finite is refused for a cause
that concerns the definition, or it gives a problem in which everything fits together: its slots are
those of the definition, in order, and its table and targets are about its own pins. -/

namespace PinRing

/-! ### Values without infinite numbers -/

def Double.isFinite : Double → Bool
  | .finite _ _ _ => true
  | _ => false

namespace Value

mutual

/-- Every double in a value is a finite number. -/
def finite : Value → Bool
  | float x => (Double.ofFloat x).isFinite
  | list items => allFinite items
  | mapping entries => entriesFinite entries
  | _ => true

def allFinite : List Value → Bool
  | [] => true
  | v :: rest => finite v && allFinite rest

def entriesFinite : List (Value × Value) → Bool
  | [] => true
  | (k, v) :: rest => finite k && finite v && entriesFinite rest

end

variable {v w : Value} {vs : List Value} {es : List (Value × Value)} {key : String}

theorem finite_of_mem (h : allFinite vs) (hmem : v ∈ vs) : v.finite := by
  induction vs with
  | nil => cases hmem
  | cons w vs ih =>
    obtain ⟨hw, hvs⟩ := Bool.and_eq_true_iff.mp h
    rcases List.mem_cons.mp hmem with rfl | hmem
    · exact hw
    · exact ih hvs hmem

theorem finite_of_lookup (h : entriesFinite es) (hfind : lookup key es = some v) : v.finite := by
  induction es with
  | nil => cases hfind
  | cons e es ih =>
    obtain ⟨k, w⟩ := e
    obtain ⟨hkw, hes⟩ := Bool.and_eq_true_iff.mp h
    obtain ⟨-, hw⟩ := Bool.and_eq_true_iff.mp hkw
    cases k with
    | text k =>
      rw [lookup] at hfind
      split at hfind
      · exact Option.some.inj hfind ▸ hw
      · exact ih hes hfind
    | _ => exact ih hes hfind

theorem finite_of_key (h : entriesFinite es) (hmem : v ∈ es.map (·.1)) : v.finite := by
  induction es with
  | nil => cases hmem
  | cons e es ih =>
    obtain ⟨k, w⟩ := e
    obtain ⟨hkw, hes⟩ := Bool.and_eq_true_iff.mp h
    rcases List.mem_cons.mp hmem with rfl | hmem
    · exact (Bool.and_eq_true_iff.mp hkw).1
    · exact ih hes hmem

theorem finite_of_items (h : v.finite) (hitems : v.items = .ok vs) : ∀ w ∈ vs, w.finite := by
  intro w hw
  cases v with
  | list items =>
    cases hitems
    exact finite_of_mem h hw
  | text s =>
    cases hitems
    obtain ⟨c, -, rfl⟩ := List.mem_map.mp hw
    rfl
  | mapping entries =>
    cases hitems
    exact finite_of_key h hw
  | _ => cases hitems

theorem finite_of_entries (h : v.finite) (hentries : v.entries = .ok es) : entriesFinite es := by
  cases v with
  | mapping entries =>
    cases hentries
    exact h
  | _ => cases hentries

theorem finite_of_entry (h : entriesFinite es) (hentry : entry es key = .ok v) : v.finite := by
  unfold entry at hentry
  split at hentry
  · rename_i hfind
    cases hentry
    exact finite_of_lookup h hfind
  · cases hentry

end Value

/-! ### Refusals -/

/-- A conversion is refused because the value does not have the form that is asked for. -/
def ReadFault.Misfits (f : ReadFault) : Prop := f ≠ .infinite ∧ f ≠ .noEntries

/-- A declaration about the pins is refused. -/
inductive Fault.Refuses : Fault → Prop
  | duplicatePin (name : String) : Refuses (.duplicatePin name)
  | unknownPin (name : String) : Refuses (.unknownPin name)
  | alreadyGrouped (name : String) : Refuses (.alreadyGrouped name)
  | selfMirror (name : String) : Refuses (.selfMirror name)

/-- An entry of a definition is refused. -/
inductive EntryFault.Refuses : EntryFault → Prop
  | read {f : ReadFault} (h : f.Misfits) : Refuses (.read f)
  | pins {f : Fault} (h : f.Refuses) : Refuses (.pins f)
  | unknownEdge (given : String) : Refuses (.unknownEdge given)
  | degenerateCore (xmin ymin xmax ymax : String) : Refuses (.degenerateCore xmin ymin xmax ymax)

/-- A definition is refused as such: the cause is neither a number past the range of its kind nor
the file that holds the definition. -/
inductive ProblemFault.Refuses : ProblemFault → Prop
  | notMapping : Refuses .notMapping
  | newerVersion (version : String) : Refuses (.newerVersion version)
  | missing {key : String} (h : key ∈ ["core", "slots", "pins"]) : Refuses (.missing key)
  | entry {f : EntryFault} (h : f.Refuses) : Refuses (.entry f)

theorem PinTable.Refusal.refuses {t : PinTable} {d : Declaration} {f : Fault} {marked : List Nat}
    (h : t.Refusal d f marked) : f.Refuses := by
  cases h with
  | inUse => exact .duplicatePin _
  | unknownMember => exact .unknownPin _
  | taken => exact .alreadyGrouped _
  | unknown => exact .unknownPin _
  | unknownPartner => exact .unknownPin _
  | self => exact .selfMirror _

namespace Value

variable {v : Value}

theorem misfits_of_toInt (h : v.finite) : FailsWith v.toInt ReadFault.Misfits := by
  cases v with
  | int n => exact .ok n
  | bool b => exact .ok _
  | float x =>
    simp only [toInt, intOfFloat]
    cases hx : Double.ofFloat x with
    | finite negative mantissa exponent => exact .ok _
    | nan => simp [finite, hx, Double.isFinite] at h
    | infinite negative => simp [finite, hx, Double.isFinite] at h
  | text s =>
    have hparsed : FailsWith (Text.integer s) fun _ => True := fun _ _ => trivial
    refine hparsed.mapError fun f _ => ?_
    cases f <;> simp [ReadFault.Misfits]
  | _ => exact .error (by simp [ReadFault.Misfits])

theorem misfits_of_toText (v : Value) : FailsWith v.toText ReadFault.Misfits := by
  unfold toText
  split
  · exact .ok _
  · exact .error ⟨nofun, nofun⟩

theorem misfits_of_items (v : Value) : FailsWith v.items ReadFault.Misfits := by
  cases v with
  | list items => exact .ok _
  | text s => exact .ok _
  | mapping entries => exact .ok _
  | _ => exact .error ⟨nofun, nofun⟩

theorem misfits_of_entries (v : Value) : FailsWith v.entries ReadFault.Misfits := by
  cases v with
  | mapping entries => exact .ok _
  | _ => exact .error ⟨nofun, nofun⟩

theorem misfits_of_entry (es : List (Value × Value)) (key : String) :
    FailsWith (entry es key) ReadFault.Misfits := by
  unfold entry
  split
  · exact .ok _
  · exact .error ⟨nofun, nofun⟩

theorem misfits_of_pair (v : Value) : FailsWith v.pair ReadFault.Misfits := by
  refine (misfits_of_items v).bind fun vs _ => ?_
  split
  · exact .ok _
  · exact .error ⟨nofun, nofun⟩
  · exact .error ⟨nofun, nofun⟩

theorem finite_of_pair {a b : Value} (h : v.finite) (hpair : v.pair = .ok (a, b)) :
    a.finite ∧ b.finite := by
  obtain ⟨vs, hvs, hpair⟩ := exists_of_bind_eq_ok hpair
  have hfinite := finite_of_items h hvs
  split at hpair
  · cases hpair
    exact ⟨hfinite _ List.mem_cons_self, hfinite _ (List.mem_cons_of_mem _ List.mem_cons_self)⟩
  · cases hpair
  · cases hpair

end Value

namespace Problem

open PinTable

variable {v : Value} {es : List (Value × Value)} {key : String}

theorem refuses_of_convert {α : Type} {e : Except ReadFault α} (h : FailsWith e ReadFault.Misfits) :
    FailsWith (convert e) EntryFault.Refuses := h.mapError fun _ => .read

theorem eq_ok_of_convert {α : Type} {e : Except ReadFault α} {a : α} (h : convert e = .ok a) :
    e = .ok a := eq_ok_of_mapError h

theorem finite_valueOr {other : Value} (h : Value.entriesFinite es) (hother : other.finite) :
    (valueOr es key other).finite := by
  unfold valueOr
  cases hfind : Value.lookup key es with
  | none => exact hother
  | some w => exact Value.finite_of_lookup h hfind

theorem refuses_of_intEntry (h : Value.entriesFinite es) :
    FailsWith (intEntry es key) EntryFault.Refuses := by
  refine (refuses_of_convert (Value.misfits_of_entry es key)).bind fun w hw => ?_
  exact refuses_of_convert (Value.misfits_of_toInt (Value.finite_of_entry h (eq_ok_of_convert hw)))

theorem refuses_of_readCore (v : Value) : FailsWith (readCore v) EntryFault.Refuses := by
  unfold readCore
  refine (refuses_of_convert (Value.misfits_of_entries v)).bind fun es _ => ?_
  split
  · rename_i xmin ymin xmax ymax _ _ _ _ _
    have htext : ∀ w : Value, FailsWith (convert w.toText) EntryFault.Refuses := fun w =>
      refuses_of_convert (Value.misfits_of_toText w)
    have hdegenerate : FailsWith (do
        throw (.degenerateCore (← convert xmin.toText) (← convert ymin.toText)
          (← convert xmax.toText) (← convert ymax.toText)) : Reading Outline) EntryFault.Refuses :=
      (htext xmin).bind fun _ _ => (htext ymin).bind fun _ _ => (htext xmax).bind fun _ _ =>
        (htext ymax).bind fun _ _ => .error (.degenerateCore _ _ _ _)
    split
    · exact .ok _
    · exact hdegenerate
    · exact hdegenerate
    · exact .error (.read ⟨nofun, nofun⟩)
  · exact .error (.read ⟨nofun, nofun⟩)

theorem refuses_of_readEdge (v : Value) : FailsWith (readEdge v) EntryFault.Refuses := by
  refine (refuses_of_convert (Value.misfits_of_toText v)).bind fun given _ => ?_
  simp only
  split
  · exact .ok _
  · exact .error (.unknownEdge given)

theorem refuses_of_edgeAt (core : Outline) (pos : Point) :
    FailsWith (edgeAt core pos) EntryFault.Refuses := by
  unfold edgeAt
  split
  · exact .ok _
  · exact .error (.read ⟨nofun, nofun⟩)

theorem refuses_of_readSlot (core : Outline) (h : v.finite) :
    FailsWith (readSlot core v) EntryFault.Refuses := by
  refine (refuses_of_convert (Value.misfits_of_entries v)).bind fun es hes => ?_
  have hes := Value.finite_of_entries h (eq_ok_of_convert hes)
  have hlayer : FailsWith (convert (valueOr es "layer" (.int 0)).toInt) EntryFault.Refuses :=
    refuses_of_convert (Value.misfits_of_toInt (finite_valueOr hes rfl))
  refine (refuses_of_intEntry hes).bind fun x _ => (refuses_of_intEntry hes).bind fun y _ => ?_
  simp only
  split
  · exact (refuses_of_readEdge _).bind fun _ _ => hlayer.bind fun _ _ => .ok _
  · exact (refuses_of_edgeAt core _).bind fun _ _ => hlayer.bind fun _ _ => .ok _

theorem refuses_of_readTarget (h : v.finite) : FailsWith (readTarget v) EntryFault.Refuses := by
  refine (refuses_of_convert (Value.misfits_of_pair v)).bind fun (x, y) hpair => ?_
  obtain ⟨hx, hy⟩ := Value.finite_of_pair h (eq_ok_of_convert hpair)
  exact (refuses_of_convert (Value.misfits_of_toInt hx)).bind fun _ _ =>
    (refuses_of_convert (Value.misfits_of_toInt hy)).bind fun _ _ => .ok _

theorem refuses_of_readRegion (h : v.finite) : FailsWith (readRegion v) EntryFault.Refuses := by
  refine (refuses_of_convert (Value.misfits_of_items v)).bind fun vs hvs => ?_
  have hvs := Value.finite_of_items h (eq_ok_of_convert hvs)
  refine FailsWith.bind (.mapM fun w hw => ?_) fun bounds _ => ?_
  · exact refuses_of_convert (Value.misfits_of_toInt (hvs w hw))
  · split
    · exact .ok _
    · exact .error (.read ⟨nofun, nofun⟩)

/-- A field that may be left out is refused only as its reader refuses it. -/
theorem refuses_of_optional {α : Type} {read : Value → Reading α} (h : Value.entriesFinite es)
    (hread : ∀ w : Value, w.finite → FailsWith (read w) EntryFault.Refuses) (key : String) :
    FailsWith ((Value.lookup key es).mapM read) EntryFault.Refuses := by
  cases hfind : Value.lookup key es with
  | none => exact .ok none
  | some w =>
    exact (hread w (Value.finite_of_lookup h hfind)).bind fun a _ => .ok (some a)

theorem refuses_of_declare (t : PinTable) (d : Declaration) :
    FailsWith (t.declare d).answer Fault.Refuses := by
  intro f hf
  obtain ⟨marked, hd⟩ := refusal_of_error hf
  exact hd.refuses

theorem refuses_of_readPin (sheet : PinSheet) (h : v.finite) :
    FailsWith (readPin sheet v) EntryFault.Refuses := by
  refine (refuses_of_convert (Value.misfits_of_entries v)).bind fun es hes => ?_
  have hes := Value.finite_of_entries h (eq_ok_of_convert hes)
  refine (refuses_of_convert (Value.misfits_of_entry es "name")).bind fun named _ => ?_
  refine (refuses_of_convert (Value.misfits_of_toText named)).bind fun name _ => ?_
  have hadded : FailsWith (sheet.pins.addPin name).answer Fault.Refuses := by
    intro f hf
    refine refuses_of_declare sheet.pins (.pin name) f ?_
    rw [declare, Outcome.mapAnswer, hf]
    rfl
  refine FailsWith.bind (hadded.mapError fun _ => .pins) fun index _ => ?_
  refine (refuses_of_optional hes (fun w => refuses_of_readTarget) "target").bind fun _ _ => ?_
  refine (refuses_of_optional hes (fun w => refuses_of_readRegion) "region").bind fun _ _ => ?_
  simp only
  split
  · refine FailsWith.bind ?_ fun _ _ => .ok _
    exact (refuses_of_convert (Value.misfits_of_toText _)).bind fun _ _ => .ok _
  · exact .ok _

theorem refuses_of_readMirror (pins : PinTable) (pair : String × String) :
    FailsWith (readMirror pins pair) EntryFault.Refuses :=
  FailsWith.bind ((refuses_of_declare pins (.mirror pair.1 pair.2)).mapError fun _ => .pins)
    fun _ _ => .ok _

theorem refuses_of_readGroup (pins : PinTable) (v : Value) :
    FailsWith (readGroup pins v) EntryFault.Refuses := by
  refine (refuses_of_convert (Value.misfits_of_entries v)).bind fun es _ => ?_
  refine (refuses_of_convert (Value.misfits_of_entry es "pins")).bind fun listed _ => ?_
  refine (refuses_of_convert (Value.misfits_of_items listed)).bind fun members _ => ?_
  refine FailsWith.bind (.mapM fun w _ => refuses_of_convert (Value.misfits_of_toText w))
    fun names _ => ?_
  refine (refuses_of_convert (Value.misfits_of_toText _)).bind fun name _ => ?_
  let ordered := (valueOr es "order" (.bool false)).truthy
  have hadded : FailsWith (pins.addGroup names ordered name).answer Fault.Refuses := by
    intro f hf
    refine refuses_of_declare pins (.group names ordered name) f ?_
    rw [declare, Outcome.mapAnswer, hf]
    rfl
  exact FailsWith.bind (hadded.mapError fun _ => .pins) fun _ _ => .ok _

theorem refuses_of_groupEntries (es : List (Value × Value)) :
    FailsWith (groupEntries es) EntryFault.Refuses := by
  unfold groupEntries
  simp only
  split
  · exact refuses_of_convert (Value.misfits_of_items _)
  · exact .ok []

theorem refuses_of_require (hkey : key ∈ ["core", "slots", "pins"]) :
    FailsWith (require es key) ProblemFault.Refuses := by
  unfold require
  split
  · exact .error (.missing hkey)
  · exact .error (.missing hkey)
  · exact .ok _

theorem refuses_of_part {α : Type} {e : Reading α} (h : FailsWith e EntryFault.Refuses) :
    FailsWith (e.mapError ProblemFault.ofEntry) ProblemFault.Refuses := by
  refine h.mapError fun f hf => ?_
  cases hf with
  | read h =>
    rename_i f
    cases f with
    | infinite => exact absurd rfl h.1
    | _ => exact .entry (.read h)
  | pins h => exact .entry (.pins h)
  | unknownEdge given => exact .entry (.unknownEdge given)
  | degenerateCore xmin ymin xmax ymax => exact .entry (.degenerateCore xmin ymin xmax ymax)

theorem refuses_of_ofValue (h : v.finite) : FailsWith (ofValue v) ProblemFault.Refuses := by
  unfold ofValue
  split
  · rename_i es
    have hes : Value.entriesFinite es := h
    have hitems : ∀ {w : Value}, FailsWith ((convert w.items).mapError ProblemFault.ofEntry)
        ProblemFault.Refuses := refuses_of_part (refuses_of_convert (Value.misfits_of_items _))
    have hfinite : ∀ {key w items}, require es key = .ok w →
        (convert w.items).mapError ProblemFault.ofEntry = .ok items → ∀ i ∈ items, i.finite :=
      fun hw hi => Value.finite_of_items (Value.finite_of_lookup hes (lookup_of_require hw))
        (eq_ok_of_convert (eq_ok_of_mapError hi))
    have hversion : FailsWith (valueOr es "version" (.int 1)).toInt ReadFault.Misfits :=
      Value.misfits_of_toInt (finite_valueOr hes rfl)
    simp only
    refine (refuses_of_part (refuses_of_convert hversion)).bind fun version _ => ?_
    split
    · refine FailsWith.bind ?_ fun text _ => .error (.newerVersion text)
      exact refuses_of_part (refuses_of_convert (Value.misfits_of_toText _))
    refine (refuses_of_require (by simp)).bind fun c _ => ?_
    refine (refuses_of_part (refuses_of_readCore c)).bind fun core _ => ?_
    refine (refuses_of_require (by simp)).bind fun given hgiven => hitems.bind fun items hitem => ?_
    refine (refuses_of_part (.mapM fun w hw => ?_)).bind fun slots _ => ?_
    · exact refuses_of_readSlot core (hfinite hgiven hitem w hw)
    refine (refuses_of_require (by simp)).bind fun listed hlisted => ?_
    refine hitems.bind fun pins hpins => ?_
    refine (refuses_of_part (.foldlM (fun sheet w hw => ?_) _)).bind fun sheet _ => ?_
    · exact refuses_of_readPin sheet (hfinite hlisted hpins w hw)
    refine (refuses_of_part (.foldlM (fun t pair _ => ?_) _)).bind fun paired _ => ?_
    · exact refuses_of_readMirror t pair
    refine (refuses_of_part (refuses_of_groupEntries es)).bind fun groups _ => ?_
    refine (refuses_of_part (.foldlM (fun t w _ => ?_) _)).bind fun table _ => .ok _
    exact refuses_of_readGroup t w
  · exact .error .notMapping

/-! ### Problems that are read -/

/-- A sheet whose table comes from accepted declarations, with targets and regions for its own pins
only. -/
structure PinSheet.Sound (sheet : PinSheet) : Prop where
  settled : sheet.pins.Settled
  targets : ∀ e ∈ sheet.targets.targets, e.1 < sheet.pins.size
  regions : ∀ e ∈ sheet.targets.regions, e.1 < sheet.pins.size

theorem PinSheet.Sound.readPin {sheet next : PinSheet} (h : sheet.Sound)
    (hread : Problem.readPin sheet v = .ok next) : next.Sound := by
  obtain ⟨⟨name, hadded⟩, htargets, hregions⟩ := readPin_accepted hread
  have hsize : next.pins.size = sheet.pins.size + 1 := by
    cases hpins : next.pins with
    | mk pins groups mirrors =>
      rw [hpins] at hadded
      cases hadded
      simp [PinTable.size]
  refine ⟨h.settled.accepted hadded, fun e he => ?_, fun e he => ?_⟩
  · rcases htargets e he with he | he
    · have := h.targets e he
      omega
    · omega
  · rcases hregions e he with he | he
    · have := h.regions e he
      omega
    · omega

/-- The slot that an entry describes.  Its position and its layer are the integers of the entry,
where the layer may be left out; its edge is the one that is named, up to case and blanks around the
name, or follows from the core; and its flags are on where a value that counts as given is. -/
structure Describes (core : Outline) (entries : List (Value × Value)) (s : Slot) : Prop where
  x : ∃ given, Value.lookup "x" entries = some given ∧ given.toInt = .ok s.pos.x
  y : ∃ given, Value.lookup "y" entries = some given ∧ given.toInt = .ok s.pos.y
  layer : Value.lookup "layer" entries = none ∧ s.layer = 0 ∨
    ∃ given, Value.lookup "layer" entries = some given ∧ given.toInt = .ok s.layer
  edge : Value.lookup "edge" entries = none ∧ core.edgeOf? s.pos = some s.edge ∨
    ∃ given name, Value.lookup "edge" entries = some given ∧ given.toText = .ok name ∧
      (Text.stripBy Text.isBlank name.toList).map Char.toLower = s.edge.name.toList
  blocked : s.blocked = true ↔
    ∃ given, Value.lookup "blocked" entries = some given ∧ given.truthy = true
  used : s.used = true ↔ ∃ given, Value.lookup "used" entries = some given ∧ given.truthy = true

/-- Everything in a problem fits together, and its core and its slots are those of the
definition. -/
structure WellFormed (v : Value) (p : Problem) : Prop where
  core : ∃ entries bounds, v = .mapping entries ∧
    Value.lookup "core" entries = some (.mapping bounds) ∧
    Value.lookup "xmin" bounds = some p.core.xmin ∧ Value.lookup "ymin" bounds = some p.core.ymin ∧
    Value.lookup "xmax" bounds = some p.core.xmax ∧ Value.lookup "ymax" bounds = some p.core.ymax
  slots : ∃ entries given items, v = .mapping entries ∧
    Value.lookup "slots" entries = some given ∧ given.items = .ok items ∧
    List.Forall₂ (fun item s => ∃ entries, item = .mapping entries ∧ Describes p.core entries s)
      items p.board.boundary.slots.toList
  names_nodup : p.board.pins.names.Nodup
  found : ∀ (i : Nat) (pin : Pin), p.board.pins.pins[i]? = some pin →
    p.board.pins.indexOf pin.name = .ok i
  targets : ∀ e ∈ p.targets.targets, e.1 < p.board.pins.size
  regions : ∀ e ∈ p.targets.regions, e.1 < p.board.pins.size
  disjoint : p.board.pins.groups.Pairwise fun g h => g.members.Disjoint h.members
  members_nodup : ∀ g ∈ p.board.pins.groups, g.members.Nodup
  grouped_iff : ∀ i, p.board.pins.isGrouped i ↔ ∃ g ∈ p.board.pins.groups, i ∈ g.members
  linked : ∀ e ∈ p.board.pins.mirrors, ∃ i j, p.board.pins.indexOf e.1 = .ok i ∧
    p.board.pins.indexOf e.2 = .ok j ∧ i ≠ j
  unplaced : ∀ i, ¬p.board.pins.isPlaced i

theorem forall₂_of_mapM_eq_ok {α β ε : Type} {f : α → Except ε β} {l : List α} {bs : List β}
    (h : l.mapM f = .ok bs) : List.Forall₂ (fun a b => f a = .ok b) l bs := by
  induction l generalizing bs with
  | nil =>
    cases h
    exact .nil
  | cons a l ih =>
    rw [List.mapM_cons] at h
    obtain ⟨b, hb, h⟩ := exists_of_bind_eq_ok h
    obtain ⟨cs, hcs, h⟩ := exists_of_bind_eq_ok h
    cases h
    exact .cons hb (ih hcs)

theorem size_of_acceptance {t after : PinTable} {d : Declaration} (h : Acceptance t d after)
    (hpin : ∀ name, d ≠ .pin name) : after.size = t.size := by
  cases h with
  | @pin name fresh => exact absurd rfl (hpin name)
  | group indices nodup free => simp [PinTable.size, mark]
  | mirror known partner ne => rfl

theorem eq_mapping_of_entries (h : v.entries = .ok es) : v = .mapping es := by
  cases v with
  | mapping entries => rw [Except.ok.inj h]
  | _ => cases h

theorem given_of_intEntry {n : Int} (h : intEntry es key = .ok n) :
    ∃ given, Value.lookup key es = some given ∧ given.toInt = .ok n := by
  obtain ⟨given, hgiven, h⟩ := exists_of_bind_eq_ok h
  refine ⟨given, ?_, eq_ok_of_convert h⟩
  have hentry : Value.entry es key = .ok given := eq_ok_of_convert hgiven
  unfold Value.entry at hentry
  split at hentry
  · rename_i hfind
    rw [hfind, Except.ok.inj hentry]
  · cases hentry

theorem given_of_intOr {n m : Int} (h : (valueOr es key (.int m)).toInt = .ok n) :
    Value.lookup key es = none ∧ n = m ∨
      ∃ given, Value.lookup key es = some given ∧ given.toInt = .ok n := by
  unfold valueOr at h
  cases hfind : Value.lookup key es with
  | none =>
    rw [hfind] at h
    exact .inl ⟨rfl, (Except.ok.inj h).symm⟩
  | some given =>
    rw [hfind] at h
    exact .inr ⟨given, rfl, h⟩

theorem truthy_valueOr : (valueOr es key (.bool false)).truthy = true ↔
    ∃ given, Value.lookup key es = some given ∧ given.truthy = true := by
  unfold valueOr
  cases Value.lookup key es with
  | none => simp [Value.truthy]
  | some given => simp

theorem name_of_readEdge {e : Edge} (h : readEdge v = .ok e) : ∃ name, v.toText = .ok name ∧
    (Text.stripBy Text.isBlank name.toList).map Char.toLower = e.name.toList := by
  obtain ⟨given, hgiven, h⟩ := exists_of_bind_eq_ok h
  refine ⟨given, eq_ok_of_convert hgiven, ?_⟩
  simp only at h
  split at h
  · rename_i e' hfind
    obtain rfl := Except.ok.inj h
    have hname := List.find?_some hfind
    simp only [beq_iff_eq] at hname
    rw [hname, String.toList_ofList]
  · cases h

theorem describes_of_readSlot {core : Outline} {s : Slot} (h : readSlot core v = .ok s) :
    ∃ entries, v = .mapping entries ∧ Describes core entries s := by
  obtain ⟨entries, hentries, h⟩ := exists_of_bind_eq_ok h
  obtain ⟨x, hx, h⟩ := exists_of_bind_eq_ok h
  obtain ⟨y, hy, h⟩ := exists_of_bind_eq_ok h
  -- the rest is the same for a given edge and for one that follows from the core
  obtain ⟨e, hgiven, habsent, h⟩ : ∃ e,
      (∀ given, Value.lookup "edge" entries = some given → readEdge given = .ok e) ∧
      (Value.lookup "edge" entries = none → edgeAt core ⟨x, y⟩ = .ok e) ∧ (do
        let layer ← convert (valueOr entries "layer" (.int 0)).toInt
        return {
          pos := ⟨x, y⟩, layer, edge := e
          blocked := (valueOr entries "blocked" (.bool false)).truthy
          used := (valueOr entries "used" (.bool false)).truthy } : Reading Slot) = .ok s := by
    cases hfind : Value.lookup "edge" entries with
    | none =>
      rw [hfind] at h
      obtain ⟨e, he, h⟩ := exists_of_bind_eq_ok h
      exact ⟨e, by simp, fun _ => he, h⟩
    | some given =>
      rw [hfind] at h
      obtain ⟨e, he, h⟩ := exists_of_bind_eq_ok h
      exact ⟨e, by simpa using he, by simp, h⟩
  obtain ⟨layer, hlayer, h⟩ := exists_of_bind_eq_ok h
  obtain rfl := Except.ok.inj h
  refine ⟨entries, eq_mapping_of_entries (eq_ok_of_convert hentries), ?_⟩
  constructor
  case x => exact given_of_intEntry hx
  case y => exact given_of_intEntry hy
  case layer => exact given_of_intOr (eq_ok_of_convert hlayer)
  case edge =>
    cases hfind : Value.lookup "edge" entries with
    | none =>
      have he := habsent hfind
      refine .inl ⟨rfl, ?_⟩
      simp only [edgeAt] at he
      split at he
      · rename_i hedge
        rw [hedge, Except.ok.inj he]
      · cases he
    | some given =>
      obtain ⟨name, hname, hedge⟩ := name_of_readEdge (hgiven given hfind)
      exact .inr ⟨given, name, rfl, hname, hedge⟩
  case blocked => exact truthy_valueOr
  case used => exact truthy_valueOr

/-- A core that is read has the bounds of its definition. -/
theorem bounds_of_readCore {core : Outline} (h : readCore v = .ok core) :
    ∃ bounds, v = .mapping bounds ∧ Value.lookup "xmin" bounds = some core.xmin ∧
      Value.lookup "ymin" bounds = some core.ymin ∧
      Value.lookup "xmax" bounds = some core.xmax ∧
      Value.lookup "ymax" bounds = some core.ymax := by
  obtain ⟨bounds, hbounds, h⟩ := exists_of_bind_eq_ok h
  refine ⟨bounds, eq_mapping_of_entries (eq_ok_of_convert hbounds), ?_⟩
  have hthrow : ∀ a b c d : Reading String, (do
      throw (.degenerateCore (← a) (← b) (← c) (← d)) : Reading Outline) ≠ .ok core := by
    intro a b c d hcontra
    obtain ⟨_, -, hcontra⟩ := exists_of_bind_eq_ok hcontra
    obtain ⟨_, -, hcontra⟩ := exists_of_bind_eq_ok hcontra
    obtain ⟨_, -, hcontra⟩ := exists_of_bind_eq_ok hcontra
    obtain ⟨_, -, hcontra⟩ := exists_of_bind_eq_ok hcontra
    cases hcontra
  split at h
  · rename_i hxmin hymin hxmax hymax
    split at h
    · obtain rfl := Except.ok.inj h
      exact ⟨hxmin, hymin, hxmax, hymax⟩
    · exact absurd h (hthrow _ _ _ _)
    · exact absurd h (hthrow _ _ _ _)
    · cases h
  · cases h

theorem wellFormed_of_ofValue {p : Problem} (h : ofValue v = .ok p) : WellFormed v p := by
  obtain ⟨given, items, sheet, paired, hparts⟩ := exists_parts h
  obtain ⟨entries, hv, hgiven⟩ := hparts.slots_given
  obtain ⟨pins, hpins⟩ := hparts.pins
  obtain ⟨groups, hgroups⟩ := hparts.groups
  have hsheet : sheet.Sound := by
    refine foldlM_keeps (fun _ _ _ hs hread => hs.readPin hread) ?_ hpins
    exact ⟨settled_empty, nofun, nofun⟩
  -- the targets are read with the pins, and the table keeps its size from then on
  let P (t : PinTable) : Prop := t.Settled ∧ t.size = sheet.pins.size
  have hpaired : P paired := by
    refine foldlM_keeps (fun t pair next ht hread => ?_) ⟨hsheet.settled, rfl⟩ hparts.mirrors
    have hadded := readMirror_accepted hread
    exact ⟨ht.1.accepted hadded, (size_of_acceptance hadded nofun).trans ht.2⟩
  obtain ⟨hsettled, hsize⟩ : P p.board.pins := by
    refine foldlM_keeps (fun t v next ht hread => ?_) hpaired hgroups
    obtain ⟨names, ordered, name, hadded⟩ := readGroup_accepted hread
    exact ⟨ht.1.accepted hadded, (size_of_acceptance hadded nofun).trans ht.2⟩
  have hd := hsettled.toDeclared
  constructor
  · obtain ⟨entries, bounds, hv, hbounds, hcore⟩ := hparts.core_given
    obtain ⟨bounds, rfl, hxmin, hymin, hxmax, hymax⟩ := bounds_of_readCore hcore
    exact ⟨entries, bounds, hv, hbounds, hxmin, hymin, hxmax, hymax⟩
  · exact ⟨entries, given, items, hv, hgiven, hparts.slot_items,
      (forall₂_of_mapM_eq_ok hparts.slots).imp fun _ _ => describes_of_readSlot⟩
  · exact hd.names_nodup
  · exact fun i pin hpin => indexOf_eq_ok.mpr (indexOf?_of_pin hd.names_nodup hpin)
  · rw [hparts.targets, hsize]
    exact hsheet.targets
  · rw [hparts.targets, hsize]
    exact hsheet.regions
  · exact (List.nodup_flatMap.mp hd.members_nodup).2
  · exact (List.nodup_flatMap.mp hd.members_nodup).1
  · exact fun i => hsettled.isGrouped_iff
  · intro e he
    obtain ⟨hfst, hsnd, hne, -⟩ := hd.mirrored e he
    obtain ⟨i, hi⟩ := indexOf_of_mem hfst
    obtain ⟨j, hj⟩ := indexOf_of_mem hsnd
    refine ⟨i, j, hi, hj, ?_⟩
    rintro rfl
    obtain ⟨q, hq, hname⟩ := pin_of_indexOf? (indexOf_eq_ok.mp hi)
    obtain ⟨r, hr, hname'⟩ := pin_of_indexOf? (indexOf_eq_ok.mp hj)
    rw [hq] at hr
    obtain rfl := Option.some.inj hr
    exact hne (hname.symm.trans hname')
  · exact hd.not_isPlaced

/-- A value without infinite numbers gives a problem in which everything fits together, or it is
refused as a definition. -/
theorem ofValue_answers (v : Value) (h : v.finite) :
    (∃ p, ofValue v = .ok p ∧ WellFormed v p) ∨ ∃ f, ofValue v = .error f ∧ f.Refuses := by
  cases hread : ofValue v with
  | ok p => exact .inl ⟨p, rfl, wellFormed_of_ofValue hread⟩
  | error f => exact .inr ⟨f, rfl, refuses_of_ofValue h f hread⟩

end Problem

/-- A definition with a mirror pair and a group, whose second member is to be named. -/
def busAndPair (member : String) : Value :=
  let slot (x : Value) (y : Int) : Value := .mapping [(.text "x", x), (.text "y", .int y)]
  .mapping
    [(.text "core", .mapping
        [(.text "xmin", .float 0), (.text "ymin", .int 0), (.text "xmax", .float 49.5),
          (.text "ymax", .bool true)]),
      (.text "slots", .list [slot (.float 10.5) 0, slot (.text " 1_0 ") 1, slot (.int 20) 0]),
      (.text "pins", .list
        [.mapping [(.text "name", .text "tx"), (.text "mirror", .text "rx")],
          .mapping [(.text "name", .text "rx"), (.text "target", .text "42")],
          .mapping [(.text "name", .text "d")], .mapping [(.text "name", .null)]]),
      (.text "groups", .list
        [.mapping [(.text "pins", .list [.text "d", .text member])]])]

theorem ofValue_answers_busAndPair :
    (busAndPair "None").finite ∧ (busAndPair "e").finite ∧
      (∃ p, Problem.ofValue (busAndPair "None") = .ok p ∧
        Problem.WellFormed (busAndPair "None") p) ∧
      (Problem.ofValue (busAndPair "None")).toOption.map (·.board.pins.groups) =
        some [⟨[2, 3], false, "group0"⟩] ∧
      (∃ f, Problem.ofValue (busAndPair "e") = .error f ∧ f.Refuses) ∧
      (Problem.ofValue (busAndPair "e")).map (fun _ => ()) =
        .error (.entry (.pins (.unknownPin "e"))) := by
  have hnone : (busAndPair "None").finite := by decide +kernel
  have he : (busAndPair "e").finite := by decide +kernel
  have hread : (Problem.ofValue (busAndPair "None")).toOption.map (·.board.pins.groups) =
      some [⟨[2, 3], false, "group0"⟩] := by decide +kernel
  have hrefused : (Problem.ofValue (busAndPair "e")).map (fun _ => ()) =
      .error (.entry (.pins (.unknownPin "e"))) := by decide +kernel
  refine ⟨hnone, he, ?_, hread, ?_, hrefused⟩
  · refine (Problem.ofValue_answers _ hnone).resolve_right ?_
    rintro ⟨f, hf, -⟩
    rw [hf] at hread
    cases hread
  · refine (Problem.ofValue_answers _ he).resolve_left ?_
    rintro ⟨p, hp, -⟩
    rw [hp] at hrefused
    cases hrefused

end PinRing
