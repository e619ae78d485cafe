import RelationLang.Number.Numeral
import RelationLang.Settings.Basic

/-!
# Settings from the environment

Three variables override the defaults. A value that cannot be used is ignored.

**Results.**
* `fromEnvironment_accepted`: settings from the environment are always accepted.
-/

namespace RelationLang
namespace Settings

/-- Reads a switch. The case of letters is ignored; only letters of ASCII have the letters of
these words as their lower case. -/
def flag? (text : String) : Option Bool :=
  let word := text.map Char.toLower
  if word ∈ ["true", "1", "yes"] then some true
  else if word ∈ ["false", "0", "no"] then some false
  else none

/-- Reads a limit, which must be a positive number of 64 bits. -/
def limit? (text : String) : Option Nat :=
  (Number.decimal64? text).filter fun n => decide (n ≠ 0)

/-- The settings for the values of the environment's variables. -/
def fromEnvironment (value? : String → Option String) : Settings where
  logLevel := (value? "RELATA_LOG_LEVEL").getD "info"
  limit := (value? "RELATA_MAX_CONTINUATIONS").bind limit?
  finalNewline := ((value? "RELATA_TRAILING_NEWLINE").bind flag?).getD false

/-- Settings from the environment are always accepted. -/
theorem fromEnvironment_accepted (value? : String → Option String) :
    (fromEnvironment value?).checked = .ok (fromEnvironment value?) := by
  have h : (fromEnvironment value?).limit ≠ some 0 := by
    intro h
    obtain ⟨text, -, htext⟩ := Option.bind_eq_some_iff.mp h
    simp [limit?, Option.filter_eq_some_iff] at htext
  simp [checked, h]

end Settings
end RelationLang
