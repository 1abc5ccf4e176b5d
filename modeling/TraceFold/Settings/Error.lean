/-
  TraceFold.Settings.Error

  Why a file gives no settings.
-/

namespace TraceFold

inductive SettingsError where
  /-- The file cannot be read. -/
  | unreadable (path cause : String)
  /-- The text of the file is not one of settings. -/
  | malformed
  deriving DecidableEq, Repr

def SettingsError.message : SettingsError → String
  | .unreadable path cause => "Failed to read config " ++ path ++ ": " ++ cause
  | .malformed => "Invalid config: not a mapping of settings"

end TraceFold
