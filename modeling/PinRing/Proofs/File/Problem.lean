import PinRing.File.Problem
import PinRing.Proofs.Board.Declaration
import PinRing.Proofs.Except

/-! Loaded problems: the pins of a problem come from declarations alone, all of them accepted. -/

namespace PinRing

namespace Problem

open PinTable

variable {v : Value} {p : Problem}

theorem exists_of_readPin {sheet next : PinSheet} (h : readPin sheet v = .ok next) :
    ∃ (name : String) (index : Nat) (target : Option Point) (region : Option Region)
      (mirrors : List (String × String)), (sheet.pins.addPin name).answer = .ok index ∧ next =
      { pins := (sheet.pins.addPin name).state
        targets :=
          { sheet.targets with
            targets := sheet.targets.targets ++ (target.map fun p => (index, p)).toList
            regions := sheet.targets.regions ++ (region.map fun r => (index, r)).toList }
        mirrors := sheet.mirrors ++ mirrors } := by
  unfold readPin at h
  obtain ⟨entries, -, h⟩ := exists_of_bind_eq_ok h
  obtain ⟨v, -, h⟩ := exists_of_bind_eq_ok h
  obtain ⟨name, -, h⟩ := exists_of_bind_eq_ok h
  obtain ⟨index, hindex, h⟩ := exists_of_bind_eq_ok h
  obtain ⟨target, -, h⟩ := exists_of_bind_eq_ok h
  obtain ⟨region, -, h⟩ := exists_of_bind_eq_ok h
  have hindex := eq_ok_of_mapError hindex
  simp only at h
  split at h
  · obtain ⟨mirrors, -, h⟩ := exists_of_bind_eq_ok h
    exact ⟨name, index, target, region, mirrors, hindex, (Except.ok.inj h).symm⟩
  · exact ⟨name, index, target, region, [], hindex, (Except.ok.inj h).symm⟩

/-- A pin is added under the next index, for which its target and its region are kept. -/
theorem readPin_accepted {sheet next : PinSheet} (h : readPin sheet v = .ok next) :
    (∃ name, Acceptance sheet.pins (.pin name) next.pins) ∧
      (∀ e ∈ next.targets.targets, e ∈ sheet.targets.targets ∨ e.1 = sheet.pins.size) ∧
      ∀ e ∈ next.targets.regions, e ∈ sheet.targets.regions ∨ e.1 = sheet.pins.size := by
  obtain ⟨name, index, target, region, mirrors, hindex, rfl⟩ := exists_of_readPin h
  have hok : (sheet.pins.declare (.pin name)).answer = .ok () := by
    rw [declare, Outcome.mapAnswer, hindex]
    rfl
  have hlast : index = sheet.pins.size := by
    unfold addPin at hindex
    split at hindex
    · cases hindex
    · exact (Except.ok.inj hindex).symm
  have hkeys : ∀ {α : Type} (entry : Option α) (kept : List (Nat × α)),
      ∀ e ∈ kept ++ (entry.map fun a => (index, a)).toList, e ∈ kept ∨ e.1 = sheet.pins.size := by
    intro α entry kept e he
    refine (List.mem_append.mp he).imp_right fun he => ?_
    obtain ⟨a, -, rfl⟩ := Option.map_eq_some_iff.mp (Option.mem_toList.mp he)
    exact hlast
  exact ⟨⟨name, acceptance_of_ok hok⟩, hkeys target _, hkeys region _⟩

theorem readMirror_accepted {pins next : PinTable} {pair : String × String}
    (h : readMirror pins pair = .ok next) : Acceptance pins (.mirror pair.1 pair.2) next := by
  unfold readMirror at h
  obtain ⟨_, hadded, h⟩ := exists_of_bind_eq_ok h
  obtain rfl := Except.ok.inj h
  exact acceptance_of_ok (eq_ok_of_mapError hadded)

theorem readGroup_accepted {pins next : PinTable} (h : readGroup pins v = .ok next) :
    ∃ names ordered name, Acceptance pins (.group names ordered name) next := by
  unfold readGroup at h
  obtain ⟨entries, -, h⟩ := exists_of_bind_eq_ok h
  obtain ⟨v, -, h⟩ := exists_of_bind_eq_ok h
  obtain ⟨members, -, h⟩ := exists_of_bind_eq_ok h
  obtain ⟨names, -, h⟩ := exists_of_bind_eq_ok h
  obtain ⟨name, -, h⟩ := exists_of_bind_eq_ok h
  obtain ⟨_, hadded, h⟩ := exists_of_bind_eq_ok h
  obtain rfl := Except.ok.inj h
  refine ⟨names, (valueOr entries "order" (.bool false)).truthy, name, acceptance_of_ok ?_⟩
  rw [declare, Outcome.mapAnswer, eq_ok_of_mapError hadded]
  rfl

/-- The parts of a problem that has been read. -/
structure Parts (v : Value) (p : Problem) (given : Value) (items : List Value) (sheet : PinSheet)
    (paired : PinTable) : Prop where
  core_given : ∃ entries bounds, v = .mapping entries ∧
    Value.lookup "core" entries = some bounds ∧ readCore bounds = .ok p.core
  slots_given : ∃ entries, v = .mapping entries ∧ Value.lookup "slots" entries = some given
  slot_items : given.items = .ok items
  slots : items.mapM (readSlot p.core) = .ok p.board.boundary.slots.toList
  pins : ∃ pins : List Value, pins.foldlM readPin {} = .ok sheet
  mirrors : sheet.mirrors.foldlM readMirror sheet.pins = .ok paired
  groups : ∃ groups : List Value, groups.foldlM readGroup paired = .ok p.board.pins
  targets : p.targets = sheet.targets
  journal : p.board.journal = []

theorem lookup_of_require {entries : List (Value × Value)} {key : String} {given : Value}
    (h : require entries key = .ok given) : Value.lookup key entries = some given := by
  unfold require at h
  split at h
  · cases h
  · cases h
  · rename_i hfind
    rw [hfind, Except.ok.inj h]

theorem exists_parts (h : ofValue v = .ok p) :
    ∃ given items sheet paired, Parts v p given items sheet paired := by
  unfold ofValue at h
  split at h
  · rename_i entries
    simp only at h
    obtain ⟨version, -, h⟩ := exists_of_bind_eq_ok h
    split at h
    · obtain ⟨_, -, h⟩ := exists_of_bind_eq_ok h
      obtain ⟨_, h, -⟩ := exists_of_bind_eq_ok h
      cases h
    · obtain ⟨bounds, hbounds, h⟩ := exists_of_bind_eq_ok h
      obtain ⟨core, hcore, h⟩ := exists_of_bind_eq_ok h
      obtain ⟨given, hgiven, h⟩ := exists_of_bind_eq_ok h
      obtain ⟨items, hitems, h⟩ := exists_of_bind_eq_ok h
      obtain ⟨slots, hslots, h⟩ := exists_of_bind_eq_ok h
      obtain ⟨_, -, h⟩ := exists_of_bind_eq_ok h
      obtain ⟨pins, -, h⟩ := exists_of_bind_eq_ok h
      obtain ⟨sheet, hsheet, h⟩ := exists_of_bind_eq_ok h
      obtain ⟨paired, hpaired, h⟩ := exists_of_bind_eq_ok h
      obtain ⟨groups, -, h⟩ := exists_of_bind_eq_ok h
      obtain ⟨table, htable, h⟩ := exists_of_bind_eq_ok h
      obtain rfl := Except.ok.inj h
      exact ⟨given, items, sheet, paired,
        { core_given := ⟨entries, bounds, rfl, lookup_of_require hbounds, eq_ok_of_mapError hcore⟩
          slots_given := ⟨entries, rfl, lookup_of_require hgiven⟩
          slot_items := eq_ok_of_mapError (eq_ok_of_mapError hitems)
          slots := eq_ok_of_mapError hslots
          pins := ⟨pins, eq_ok_of_mapError hsheet⟩
          mirrors := eq_ok_of_mapError hpaired
          groups := ⟨groups, eq_ok_of_mapError htable⟩
          targets := rfl
          journal := rfl }⟩
  · cases h

/-- The table of a loaded problem is as declarations build it, and nothing is placed yet. -/
theorem ofValue_board (h : ofValue v = .ok p) :
    p.board.pins.Declared ∧ p.board.journal = [] := by
  obtain ⟨given, items, sheet, paired, hparts⟩ := exists_parts h
  obtain ⟨pins, hpins⟩ := hparts.pins
  obtain ⟨groups, hgroups⟩ := hparts.groups
  have hsheet : sheet.pins.Declared := by
    refine foldlM_keeps (P := fun s : PinSheet => s.pins.Declared) ?_ declared_empty hpins
    intro s v next hs hread
    obtain ⟨⟨name, hadded⟩, -⟩ := readPin_accepted hread
    exact hs.accepted hadded
  have hpaired : paired.Declared :=
    foldlM_keeps (fun _ _ _ ht hread => ht.accepted (readMirror_accepted hread)) hsheet
      hparts.mirrors
  refine ⟨foldlM_keeps (fun t v next ht hread => ?_) hpaired hgroups, hparts.journal⟩
  obtain ⟨names, ordered, name, hadded⟩ := readGroup_accepted hread
  exact ht.accepted hadded

theorem ofValue_declared (h : ofValue v = .ok p) : p.board.pins.Declared := (ofValue_board h).1

end Problem

end PinRing
