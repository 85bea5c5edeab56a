import PinRing.Document.Convert
import PinRing.Placement.Config

/-! The settings of a run as they are written in a document, and the configuration they amount to.
A switch keeps the value that it was given and is on if that value counts as given. -/

namespace PinRing

/-- The settings as they were given; those that were not are at their usual values. -/
structure Settings where
  sectionSize : Value := .int 200
  usageFactor : Value := .float 0.8
  strictMirroring : Value := .bool true
  assignGroups : Value := .bool true

/-- Why settings are refused. -/
inductive SettingsFault where
  | wrongType
  /-- Keys that name no setting, in alphabetical order. -/
  | unknownKeys (keys : List String)
  /-- Sections of less than one slot. -/
  | sectionSize (given : String)
  /-- A share of slots outside zero to one. -/
  | usageFactor (given : String)
  /-- A number outside its range has too many digits to be written. -/
  | unwritable
deriving DecidableEq

namespace Settings

/-- The names of the settings, in alphabetical order. -/
def names : List String :=
  ["assign_groups", "slots_per_section", "slots_usage_factor", "strict_mirroring"]

end Settings

/-- The wording of a fault; a value of the wrong kind has none. -/
def SettingsFault.message? : SettingsFault → Option String
  | wrongType => none
  | unknownKeys keys =>
    some ("Unknown config key(s): " ++ ", ".intercalate keys ++ ". Available: " ++
      ", ".intercalate Settings.names)
  | sectionSize given => some s!"slots_per_section must be positive, got {given}"
  | usageFactor given => some s!"slots_usage_factor must be in (0, 1], got {given}"
  | unwritable => some Text.unwritableReport

namespace Settings

/-- Whether a number is below one. -/
def belowOne : Value → Except SettingsFault Bool
  | .int n => .ok (n < 1)
  | .bool b => .ok !b
  | .float x => .ok (x < 1)
  | _ => .error .wrongType

/-- The fraction that a number stands for, unless it lies outside zero to one. -/
def fraction? : Value → Except SettingsFault (Option Fraction)
  | .int n => .ok (if n = 1 then some ⟨1, 0, by decide, by decide⟩ else none)
  | .bool b => .ok (if b then some ⟨1, 0, by decide, by decide⟩ else none)
  | .float x =>
    .ok (match Double.ofFloat x with
      | .finite false mantissa exponent =>
        let scale := (-exponent).toNat
        if h : exponent ≤ 0 ∧ 0 < mantissa ∧ mantissa ≤ 1 <<< scale then
          some ⟨mantissa, scale, h.2.1, h.2.2⟩
        else
          none
      | _ => none)
  | _ => .error .wrongType

/-- A value as it was given. -/
def given (v : Value) : Except SettingsFault String :=
  v.toText.mapError fun _ => .unwritable

/-- The share of slots that the settings allow. -/
def share (s : Settings) : Except SettingsFault Fraction := do
  match ← fraction? s.usageFactor with
  | some f => return f
  | none => throw (.usageFactor (← given s.usageFactor))

/-- Refuses settings outside their ranges. -/
def validate (s : Settings) : Except SettingsFault Settings := do
  if ← belowOne s.sectionSize then
    throw (.sectionSize (← given s.sectionSize))
  let _ ← s.share
  return s

/-- Takes over the entries of a mapping.  Other keys than the names of settings must not occur. -/
def take (entries : List (Value × Value)) : Settings :=
  let value (key : String) (default : Value) : Value := (Value.lookup key entries).getD default
  { sectionSize := value "slots_per_section" (.int 200)
    usageFactor := value "slots_usage_factor" (.float 0.8)
    strictMirroring := value "strict_mirroring" (.bool true)
    assignGroups := value "assign_groups" (.bool true) }

/-- The keys of a mapping that name no setting; a key that is no text is of the wrong kind. -/
def unknown (entries : List (Value × Value)) : Except SettingsFault (List String) := do
  let keys ← entries.filterMapM fun
    | (.text k, _) => .ok (if names.contains k then none else some k)
    | _ => .error .wrongType
  return keys.mergeSort (· ≤ ·)

/-- The settings of a mapping. -/
def ofEntries (entries : List (Value × Value)) : Except SettingsFault Settings := do
  let keys ← unknown entries
  if !keys.isEmpty then
    throw (.unknownKeys keys)
  (take entries).validate

/-- The settings of a value, which should be a mapping.  The items of a list or text are taken for
keys. -/
def ofValue (v : Value) : Except SettingsFault Settings := do
  match v with
  | .mapping entries => ofEntries entries
  | _ =>
    match v.items with
    | .error _ => throw .wrongType
    | .ok items =>
      let keys ← unknown (items.map fun item => (item, .null))
      throw (if keys.isEmpty then .wrongType else .unknownKeys keys.eraseDups)

/-- The configuration for the engine.  Sections of a fractional number of slots are of the wrong
kind. -/
def config (s : Settings) : Except SettingsFault Config := do
  let size ← match s.sectionSize with
    | .int n => pure n
    | .bool b => pure (if b then 1 else 0)
    | _ => throw .wrongType
  let usageFactor ← s.share
  if h : 0 < size.toNat then
    return {
      sectionSize := size.toNat
      sectionSize_pos := h
      usageFactor
      strictMirroring := s.strictMirroring.truthy
      assignGroups := s.assignGroups.truthy }
  else
    throw (.sectionSize (← given s.sectionSize))

end Settings

end PinRing
