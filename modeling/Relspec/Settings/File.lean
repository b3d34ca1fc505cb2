import Relspec.Disk
import Relspec.Settings.Printer
import Relspec.Settings.Reader

/-!
# Settings/File — settings in a file

Settings are read from a file and written to one.
-/

namespace Relspec.Settings

/-- **The settings in a file.** -/
def load (path : String) : OnDisk Settings := do
  match read (← OnDisk.readFile path) with
  | some s => return s
  | none => throw (.settingsText path)

/-- **Writes settings to a file.** -/
def save (s : Settings) (path : String) : OnDisk Unit := OnDisk.writeFile path s.text

end Relspec.Settings
