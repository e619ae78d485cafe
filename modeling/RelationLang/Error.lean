/-!
# Errors of a run

Why a statement was given up.
-/

namespace RelationLang

/-- The cause for which a statement is given up. -/
inductive Error where
  /-- A verb was used with the wrong number or arrangement of tokens. -/
  | usage (verb form : String)
  | failed (verb message : String)
  | unknownHook (name : String)
  /-- The hooks of one statement continued more often than allowed. -/
  | continuationLimit (limit : Nat)
  | serialization (message : String)
  | other (message : String)
deriving DecidableEq, Repr, Inhabited

namespace Error

def message : Error → String
  | .usage verb form => "Invalid use of '" ++ verb ++ "', expected: " ++ form
  | .failed verb message => "Hook '" ++ verb ++ "' failed: " ++ message
  | .unknownHook name => "Unknown hook: " ++ name
  | .continuationLimit limit => "Continuation limit of " ++ toString limit ++ " exceeded"
  | .serialization message => "Serialization error: " ++ message
  | .other message => message

end Error
end RelationLang
