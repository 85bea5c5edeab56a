import PinRing.File.Basic
import PinRing.Settings

/-! Settings files. -/

namespace PinRing

/-- Why a settings file is refused. -/
inductive SettingsFileFault where
  | unreadable (f : FileFault)
  | notMapping (path : String)
  | settings (f : SettingsFault)
deriving DecidableEq

/-- The wording of a fault; a setting of the wrong kind has none. -/
def SettingsFileFault.message? : SettingsFileFault → Option String
  | unreadable f => some f.message
  | notMapping path => some s!"Config file {path} must contain a mapping"
  | settings f => f.message?

/-- The settings in a file.  A document that does not count as given leaves all settings alone. -/
def Settings.load (format : TextFormat) (path : String) (content : FileContent) :
    Except SettingsFileFault Settings :=
  match content.read format path with
  | .error f => .error (.unreadable f)
  | .ok (.mapping entries) => (Settings.ofEntries entries).mapError .settings
  | .ok v => if v.truthy then .error (.notMapping path) else .ok {}

end PinRing
