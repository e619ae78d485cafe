/-!
# Settings

The settings of a session, with their defaults and the one value that is refused.
-/

namespace RelationLang

/-- The settings of a session. -/
structure Settings where
  logLevel : String := "info"
  /-- The largest number of continuations in one statement; unlimited if there is none. -/
  limit : Option Nat := none
  finalNewline : Bool := false
deriving DecidableEq, Repr, Inhabited

/-- Why settings are not accepted. -/
inductive SettingsError where
  | unreadable
  | zeroLimit
deriving DecidableEq, Repr

/-- The text shown for refused settings; unreadable documents have no fixed text. -/
def SettingsError.message? : SettingsError → Option String
  | .unreadable => none
  | .zeroLimit => some "Configuration error: max_continuations must be greater than zero"

namespace Settings

/-- Refuses a limit of zero continuations. -/
def checked (settings : Settings) : Except SettingsError Settings :=
  if settings.limit = some 0 then .error .zeroLimit else .ok settings

end Settings
end RelationLang
