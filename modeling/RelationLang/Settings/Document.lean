import RelationLang.Settings.Basic
import RelationLang.Yaml.Document

/-!
# Settings from a document

A document of settings is a mapping. Known keys set their values, other keys are ignored, and
what is not mentioned keeps its default.

**Results.**
* `ofText_ne_zero`: a document never sets the limit to zero.
-/

namespace RelationLang
namespace Settings

open Yaml

/-- A number of 64 bits, in decimal without leading zeros, or in hexadecimal, octal or binary
after `0x`, `0o`, `0b`. A plus sign may stand in front of either. -/
def numberValue? (text : String) : Option Nat :=
  let digits := Number.dropPlus text.toList
  match digits with
  | '0' :: 'x' :: rest => Number.word64? 16 rest
  | '0' :: 'o' :: rest => Number.word64? 8 rest
  | '0' :: 'b' :: rest => Number.word64? 2 rest
  | '0' :: _ :: _ => none
  | digits => Number.word64? 10 digits

/-- A limit: a number, or a word for none. -/
def limitValue? (node : Node) : Option (Option Nat) :=
  node.plainText?.bind fun text =>
    if text ∈ ["", "~", "null", "Null", "NULL"] then some none
    else (numberValue? text).map some

/-- A truth value: one of the plain words. -/
def boolValue? (node : Node) : Option Bool :=
  node.plainText?.bind fun text =>
    if text ∈ ["true", "True", "TRUE"] then some true
    else if text ∈ ["false", "False", "FALSE"] then some false
    else none

/-- The values that a mapping has set so far. -/
structure Draft where
  logLevel : Option String := none
  limit : Option (Option Nat) := none
  finalNewline : Option Bool := none

/-- Takes in one entry. A known key must have a value of its sort and must not come twice. -/
def Draft.take? (found : Draft) (key : String) (value : Node) : Option Draft :=
  if key = "log_level" then
    if found.logLevel.isSome then none
    else value.text?.map fun text => { found with logLevel := some text }
  else if key = "max_continuations" then
    if found.limit.isSome then none
    else (limitValue? value).map fun limit => { found with limit := some limit }
  else if key = "trailing_newline" then
    if found.finalNewline.isSome then none
    else (boolValue? value).map fun flag => { found with finalNewline := some flag }
  else some found

/-- Takes in the entries of a mapping. -/
def Draft.entries? : Draft → List (Node × Node) → Option Draft
  | found, [] => some found
  | found, (key, value) :: rest =>
    key.text?.bind fun key => (found.take? key value).bind fun found => found.entries? rest

def Draft.settings (found : Draft) : Settings where
  logLevel := found.logLevel.getD "info"
  limit := found.limit.getD none
  finalNewline := found.finalNewline.getD false

def ofNode? : Node → Option Settings
  | .scalar false "" => some {}
  | .mapping entries => (Draft.entries? {} entries).map Draft.settings
  | _ => none

def ofText (text : String) : Except SettingsError Settings :=
  match (document? text).bind ofNode? with
  | none => .error .unreadable
  | some settings => settings.checked

/-- A document never sets the limit to zero. -/
theorem ofText_ne_zero {text : String} {settings : Settings} (h : ofText text = .ok settings) :
    settings.limit ≠ some 0 := by
  unfold ofText at h
  split at h
  · exact nomatch h
  · unfold checked at h
    split at h
    · exact nomatch h
    · injection h with h; subst h; assumption

end Settings
end RelationLang
