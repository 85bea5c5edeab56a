import PinRing.File.Result
import PinRing.Proofs.Board.PinTable
import PinRing.Proofs.Placement.Seating

/-! Results brought back.  What is read from a saved result are the places of the placed pins, and
their replay on the board as it was loaded puts every pin where it was, on a slot that is marked as
used. -/

namespace PinRing

/-! ### Documents in texts -/

/-- The text that a value is written as is read as that value, and its lines end in line feeds. -/
structure TextFormat.Inverts (format : TextFormat) (v : Value) : Prop where
  read_write : format.read (format.write v) = .ok v
  feeds_only : '\r' ∉ (format.write v).toList

theorem plainBreaks_eq {cs : List Char} (h : '\r' ∉ cs) : plainBreaks cs = cs := by
  induction cs with
  | nil => rfl
  | cons c cs ih =>
    obtain ⟨hc, hcs⟩ : '\r' ≠ c ∧ '\r' ∉ cs := by simpa using h
    rw [plainBreaks, ih hcs]
    · exact fun rest heq _ => hc heq.symm
    · exact fun heq => hc heq.symm

/-- A value that is kept in a file is found there. -/
theorem TextFormat.Inverts.read_text {format : TextFormat} {v : Value} (h : format.Inverts v)
    {path : String} (hpath : Path.hasNull path = false) :
    (FileContent.text (format.write v)).read format path = .ok v := by
  simp [FileContent.read, hpath, plainBreaks_eq h.feeds_only, h.read_write]

theorem Boundary.isUsed_use (b : Boundary) (i j : Nat) :
    (b.use i).isUsed j = (b.isUsed j || (decide (i = j) && decide (j < b.size))) := by
  by_cases h : i = j
  · subst h
    by_cases hi : i < b.slots.size <;>
      simp [isUsed, use, size, Array.getElem_modify, hi]
  · simp [isUsed, use, Array.getElem?_modify, h]

namespace Board

variable {b before after : Board} {i : Nat} {s : Spot}

theorem Frame.names (h : Frame before after) : after.pins.names = before.pins.names := by
  have hmap : ∀ t : PinTable,
      t.names = (t.pins.map fun p => (p.name, p.grouped)).toList.map Prod.fst := by
    intro t
    rw [Array.toList_map, List.map_map]
    rfl
  rw [hmap, hmap, h.pins]

theorem spotOf_of_size_le (h : b.pins.size ≤ i) : b.spotOf i = none := by
  rw [spotOf, Array.getElem?_eq_none h]
  rfl

/-- Boards of one frame with the same spots have the same pins. -/
theorem Frame.pins_eq (h : Frame before after) (hspot : ∀ i, after.spotOf i = before.spotOf i) :
    after.pins = before.pins := by
  have hpins : after.pins.pins = before.pins.pins := by
    refine Array.ext_getElem? fun i => ?_
    cases hp : before.pins.pins[i]? with
    | none =>
      have hsize : after.pins.pins.size = before.pins.pins.size := h.size_pins
      rw [Array.getElem?_eq_none_iff] at hp ⊢
      omega
    | some p =>
      obtain ⟨q, hq, hname, hgrouped⟩ := h.pin hp
      have hsame : q.spot = p.spot := by simpa [spotOf, hp, hq] using hspot i
      calc after.pins.pins[i]? = some ⟨q.name, q.spot, q.grouped⟩ := hq
        _ = some ⟨p.name, p.spot, p.grouped⟩ := by rw [hname, hsame, hgrouped]
  calc after.pins = ⟨after.pins.pins, after.pins.groups, after.pins.mirrors⟩ := rfl
    _ = ⟨before.pins.pins, before.pins.groups, before.pins.mirrors⟩ := by
      rw [hpins, h.groups, h.mirrors]

end Board

namespace ResultFile

open Board

variable {b ended start : Board} {i n : Nat} {s : Spot}

/-! ### Reading -/

/-- The places that are stored of some pins. -/
def stored (ps : List Pin) : List StoredSpot :=
  ps.filterMap fun p => p.spot.map fun s => ⟨.text p.name, s⟩

/-- The document of a result stores the places of the placed pins. -/
theorem ofValue_toValue (pins : PinTable) (r : Report) :
    ofValue (toValue pins r) = .ok (stored pins.pins.toList) := by
  have hstored : stored pins.pins.toList = (spots pins).map fun e => ⟨.text e.1, e.2⟩ := by
    rw [stored, spots, List.map_filterMap]
    refine List.filterMap_congr fun p _ => ?_
    rw [Option.map_map]
    rfl
  have hread : ((spots pins).map fun e => (Value.text e.1, spotValue e.2)).mapM
      (fun e => readSpot e.1 e.2) = .ok (stored pins.pins.toList) := by
    rw [List.mapM_map, hstored]
    exact mapM_eq_ok fun _ _ => rfl
  cases hspots : spots pins with
  | nil =>
    rw [hstored, hspots, ofValue, toValue, hspots]
    rfl
  | cons e rest =>
    rw [hspots] at hread
    rw [ofValue, toValue, hspots]
    exact hread

/-- A file that holds the text of a result is loaded. -/
theorem load_written {format : TextFormat} {pins : PinTable} {r : Report} {path : String}
    (h : format.Inverts (toValue pins r)) (hpath : Path.hasNull path = false) :
    load format path (.text (format.write (toValue pins r))) =
      .ok (stored pins.pins.toList) := by
  rw [load, h.read_text hpath]
  simp only [ofValue_toValue]

/-! ### Replaying -/

theorem frame_replay (b : Board) (i : Nat) (s : Spot) : Frame b (replay b i s) := by
  have hplace := frame_placeAt b i s
  rw [replay]
  split
  · exact hplace
  · exact hplace.trans (frame_use _ _)

theorem pins_replay (b : Board) (i : Nat) (s : Spot) :
    (replay b i s).pins = b.pins.place i s := by
  rw [replay]
  split <;> rfl

theorem spotOf_replay (hi : i < b.pins.size) (s : Spot) (j : Nat) :
    (replay b i s).spotOf j = if i = j then some s else b.spotOf j := by
  rw [spotOf, pins_replay, PinTable.place, Array.getElem?_modify, spotOf]
  split
  · rename_i heq
    subst heq
    rw [Array.getElem?_eq_getElem hi]
    rfl
  · rfl

theorem isUsed_replay {slot : Nat} (h : b.boundary.isUsed slot) :
    (replay b i s).boundary.isUsed slot := by
  rw [replay]
  split
  · exact h
  · rw [Boundary.isUsed_use, Bool.or_eq_true]
    exact .inl h

/-- The slot under a replayed pin is marked as used. -/
theorem isUsed_replay_self {slot : Nat} (h : b.boundary.slotAt? s.pos s.layer = some slot) :
    (replay b i s).boundary.isUsed slot := by
  obtain ⟨t, ht, -⟩ := Boundary.slot_of_slotAt? h
  have hlt : slot < b.boundary.size := (Array.getElem?_eq_some_iff.mp ht).1
  have hat : (b.placeAt i s).boundary.slotAt? s.pos s.layer = some slot := h
  rw [replay]
  simp only [hat, Boundary.isUsed_use]
  simp [placeAt, hlt]

/-- A board on which the first pins are back where they were on another one, and the rest have no
place yet; the slots under the pins are marked as used. -/
structure Restored (ended : Board) (n : Nat) (b : Board) : Prop where
  frame : Frame ended b
  back : ∀ i < n, b.spotOf i = ended.spotOf i
  ahead : ∀ i, n ≤ i → b.spotOf i = none
  used : ∀ i slot, Review.slotOf b i = some slot → b.boundary.isUsed slot

namespace Restored

/-- Nothing is back on a board without places. -/
theorem zero (hframe : Frame ended b) (h : ∀ i, b.spotOf i = none) : Restored ended 0 b where
  frame := hframe
  back _ hi := absurd hi (Nat.not_lt_zero _)
  ahead i _ := h i
  used i slot hslot := by
    rw [slotOf_eq, h i] at hslot
    cases hslot

/-- A pin that had no place is back as it is. -/
theorem skip (h : Restored ended n b) (hn : ended.spotOf n = none) : Restored ended (n + 1) b where
  frame := h.frame
  back i hi := by
    rcases Nat.lt_succ_iff_lt_or_eq.mp hi with hi | rfl
    · exact h.back i hi
    · rw [hn, h.ahead i (Nat.le_refl i)]
  ahead i hi := h.ahead i (Nat.le_of_succ_le hi)
  used := h.used

/-- A pin that had a place is back once it is replayed. -/
theorem replay (h : Restored ended n b) (hn : ended.spotOf n = some s) :
    Restored ended (n + 1) (ResultFile.replay b n s) := by
  have hlt : n < b.pins.size := by
    rw [h.frame.size_pins]
    by_contra hge
    rw [spotOf_of_size_le (Nat.le_of_not_lt hge)] at hn
    cases hn
  have hspot := spotOf_replay hlt s
  have hframe := frame_replay b n s
  refine ⟨h.frame.trans hframe, fun i hi => ?_, fun i hi => ?_, fun i slot hslot => ?_⟩
  · rw [hspot]
    rcases Nat.lt_succ_iff_lt_or_eq.mp hi with hi | rfl
    · rw [if_neg (Nat.ne_of_gt hi), h.back i hi]
    · rw [if_pos rfl, hn]
  · rw [hspot, if_neg (Nat.ne_of_lt hi), h.ahead i (Nat.le_of_succ_le hi)]
  · rw [slotOf_eq, hspot] at hslot
    by_cases hi : n = i
    · rw [if_pos hi] at hslot
      rw [Option.bind_some, hframe.slotAt?] at hslot
      exact isUsed_replay_self hslot
    · rw [if_neg hi] at hslot
      refine isUsed_replay (h.used i slot ?_)
      rw [slotOf_eq, ← hslot]
      simp only [hframe.slotAt?]

/-- All pins are back. -/
theorem pins_eq (h : Restored ended n b) (hn : ended.pins.size ≤ n) : b.pins = ended.pins := by
  refine h.frame.pins_eq fun i => ?_
  by_cases hi : i < n
  · exact h.back i hi
  · have hi := Nat.le_of_not_lt hi
    rw [h.ahead i hi, spotOf_of_size_le (Nat.le_trans hn hi)]

/-- The pins from the `n`-th on are brought back by their stored places. -/
theorem apply_rest (hnames : ended.pins.names.Nodup) {ps : List Pin}
    (h : Restored ended n b) (hps : ended.pins.pins.toList.drop n = ps) :
    ∃ replayed m, apply b (stored ps) = (replayed, .ok ()) ∧ ended.pins.size ≤ m ∧
      Restored ended m replayed := by
  induction ps generalizing n b with
  | nil => exact ⟨b, n, rfl, List.drop_eq_nil_iff.mp hps, h⟩
  | cons p ps ih =>
    have hp : ended.pins.pins[n]? = some p := by
      rw [← Array.getElem?_toList, ← List.head?_drop, hps]
      rfl
    have hrest : ended.pins.pins.toList.drop (n + 1) = ps := by
      rw [← List.drop_drop, hps]
      rfl
    have hspot : ended.spotOf n = p.spot := by rw [spotOf, hp]; rfl
    cases hs : p.spot with
    | none =>
      have hstored : stored (p :: ps) = stored ps := by simp [stored, hs]
      rw [hstored]
      exact ih (h.skip (hspot.trans hs)) hrest
    | some s =>
      have hindex : b.pins.indexOf? p.name = some n := by
        rw [h.frame.indexOf?]
        exact PinTable.indexOf?_of_pin hnames hp
      have hstored : stored (p :: ps) = ⟨.text p.name, s⟩ :: stored ps := by simp [stored, hs]
      rw [hstored, apply]
      simp only [hindex]
      exact ih (h.replay (hspot.trans hs)) hrest

end Restored

/-- What is stored of a board is replayed in full on a board of its frame without places: all pins
are as they were, and the slots under them are marked as used. -/
theorem apply_stored (hd : start.pins.Declared) (hframe : Frame start ended) :
    ∃ replayed, apply start (stored ended.pins.pins.toList) = (replayed, .ok ()) ∧
      Frame ended replayed ∧ replayed.pins = ended.pins ∧
      ∀ i slot, Review.slotOf replayed i = some slot → replayed.boundary.isUsed slot := by
  have hnone : ∀ i, start.spotOf i = none := by
    intro i
    cases hp : start.pins.pins[i]? with
    | none => rw [spotOf, hp]; rfl
    | some p => rw [spotOf, hp, Option.bind_some, hd.unplaced i p hp]
  obtain ⟨replayed, m, happly, hm, hrestored⟩ :=
    (Restored.zero hframe.symm hnone).apply_rest (hframe.names ▸ hd.names_nodup) List.drop_zero
  exact ⟨replayed, happly, hrestored.frame, hrestored.pins_eq hm, hrestored.used⟩

end ResultFile

end PinRing
