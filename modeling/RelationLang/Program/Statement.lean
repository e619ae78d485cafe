import RelationLang.Text.Words

/-!
# Statements

A statement is a line of tokens as the interpreter receives it. A token is a name. The tokens of
an ordinary line are words; the tokens of a block are whole lines, so they may contain spaces.

**Results.**
* `blockShaped_iff`: block-shaped means nonempty with a space in every token.
* `allWords_append`: the words of two blocks are the words of the first, then of the second.
* `length_of_mem_threes`: every group has three tokens.
-/

namespace RelationLang

/-- A name in a program. -/
abbrev Token := String

namespace Program

open Text

/-- How a statement came out of the layout of the program. -/
inductive StatementKind where
  /-- An unindented line. -/
  | plain
  /-- An unindented line with indented lines under it. -/
  | header
  /-- The indented lines under a header, one token for each. -/
  | block
  /-- An indented line with no header above it. -/
  | boxed
deriving DecidableEq, Repr, Inhabited

/-- One statement of a program. -/
structure Statement where
  tokens : List Token
  /-- For a header, the lines of the block it introduces. -/
  block : Option (List Token) := none
  kind : StatementKind := .plain
deriving DecidableEq, Repr, Inhabited

/-- A line is block-shaped when it has a token and every token holds more than one word. -/
def blockShaped (tokens : List Token) : Bool := !tokens.isEmpty && tokens.all hasSpace

/-- The single words of all tokens, in order. -/
def allWords (tokens : List Token) : List Token := tokens.flatMap words

/-- Consecutive groups of three tokens; an incomplete group at the end is dropped. -/
def threes : List Token → List (List Token)
  | s :: r :: o :: rest => [s, r, o] :: threes rest
  | _ => []

namespace Statement

def text (statement : Statement) : String := unwords statement.tokens

/-- An unindented line without a block. -/
def plain (tokens : List Token) : Statement := { tokens }

/-- An indented line without a header. -/
def boxed (token : Token) : Statement := { tokens := [token], kind := .boxed }

/-- A header with the block under it, and that block as a statement of its own. -/
def headed (tokens block : List Token) : List Statement :=
  [{ tokens, block := some block, kind := .header }, { tokens := block, kind := .block }]

end Statement

/-- Block-shaped means nonempty with a space in every token. -/
theorem blockShaped_iff {tokens : List Token} :
    blockShaped tokens = true ↔ tokens ≠ [] ∧ ∀ token ∈ tokens, hasSpace token = true := by
  cases tokens <;> simp [blockShaped]

/-- The words of two blocks are the words of the first, then of the second. -/
theorem allWords_append (as bs : List Token) :
    allWords (as ++ bs) = allWords as ++ allWords bs := by
  simp [allWords]

theorem length_of_mem_threes {tokens group : List Token} (h : group ∈ threes tokens) :
    group.length = 3 := by
  fun_induction threes tokens with
  | case1 s r o rest ih =>
    rcases List.mem_cons.mp h with rfl | h
    · rfl
    · exact ih h
  | case2 => simp at h

end Program
end RelationLang
