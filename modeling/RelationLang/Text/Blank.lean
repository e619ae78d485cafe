/-!
# Blank characters

The characters with the Unicode property `White_Space`, and trimming by them.

**Results.**
* `trim_eq_nil_iff`: trimming leaves nothing exactly when every character is blank.
-/

namespace RelationLang
namespace Text

/-- The code points with the property `White_Space`, as closed ranges in increasing order. -/
def blankRanges : List (Nat × Nat) :=
  [(0x09, 0x0D), (0x20, 0x20), (0x85, 0x85), (0xA0, 0xA0), (0x1680, 0x1680), (0x2000, 0x200A),
    (0x2028, 0x2029), (0x202F, 0x202F), (0x205F, 0x205F), (0x3000, 0x3000)]

def isBlank (c : Char) : Bool :=
  blankRanges.any fun range => decide (range.1 ≤ c.toNat) && decide (c.toNat ≤ range.2)

def trimLeft (cs : List Char) : List Char := cs.dropWhile isBlank

def trimRight (cs : List Char) : List Char := (cs.reverse.dropWhile isBlank).reverse

/-- The text without its leading and trailing blanks. -/
def trim (cs : List Char) : List Char := trimRight (trimLeft cs)

/-- Dropping a class of characters from the front leaves nothing only when all are in it. -/
theorem dropWhile_eq_nil_iff {p : Char → Bool} {cs : List Char} :
    cs.dropWhile p = [] ↔ ∀ c ∈ cs, p c = true := by
  induction cs with
  | nil => simp
  | cons c cs ih => by_cases hc : p c = true <;> simp [hc, ih]

/-- Trimming leaves nothing exactly when every character is blank. -/
theorem trim_eq_nil_iff {cs : List Char} : trim cs = [] ↔ ∀ c ∈ cs, isBlank c = true := by
  constructor
  · intro h
    have hleft : ∀ c ∈ trimLeft cs, isBlank c = true := by
      have := List.reverse_eq_nil_iff.mp h
      simpa using dropWhile_eq_nil_iff.mp this
    intro c hc
    by_cases hall : trimLeft cs = []
    · exact dropWhile_eq_nil_iff.mp hall c hc
    · have hne := List.head_dropWhile_not isBlank hall
      have := hleft _ (List.head_mem hall)
      simp only [trimLeft] at this
      rw [this] at hne
      exact absurd hne (by decide)
  · intro h
    have : trimLeft cs = [] := dropWhile_eq_nil_iff.mpr h
    simp [trim, trimRight, this]

end Text
end RelationLang
