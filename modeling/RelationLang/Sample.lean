/-!
# Sample programs

Small programs that show the language at work.
-/

namespace RelationLang
namespace Sample

/-- A small taxonomy with one negative statement. -/
def animals : String := "cat is mammal\nmammal is animal\nanimal isnt plant\n"

/-- Two statements about one pair that disagree. -/
def disagreement : String := "sky is blue\nsky isnt blue\n"

/-- Output that depends on what is known. -/
def guarded : String := "cat is animal\nis cat animal say yes\nisnt cat animal say no\n"

/-- A header with a block of statements under it. -/
def headed : String :=
  "facts\n  cat is animal\n  animal isnt plant\nis cat plant say wrong\nisnt cat plant say right\n"

/-- One line of a chain, from the name with a number to the name with the next number. -/
def link (n : Nat) : String := "c" ++ toString n ++ " is c" ++ toString (n + 1) ++ "\n"

/-- A chain of statements from each numbered name to the next. -/
def chain (links : Nat) : String := String.join ((List.range links).map link)

end Sample

def version : String := "0.1.0"

def languageVersion : String := "0.1.0"

end RelationLang
