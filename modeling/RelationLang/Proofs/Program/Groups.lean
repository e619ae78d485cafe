import RelationLang.Program.Statement
import RelationLang.Proofs.Text.Words

/-!
# The words of a block, three at a time

**Input.**  The lines of a block, as tokens, which may be any texts.

**Algorithm.**  The words of all lines are strung together and cut into groups of three. The cuts
know nothing of the lines, so that one word too many in a line shifts all groups after it. If the
words of every line can be divided by three, the cuts fall on the ends of the lines.

**Results.**
* `words_unwords_eq`: the words of the tokens are the words of their joined text.
* `allWords_allWords`: words do not fall apart any further.
* `flatten_threes`: only an incomplete group at the end is dropped.
* `threes_allWords`: if every line is made of whole groups, these are the groups of the block.
-/

namespace RelationLang
namespace Program

open Text

section Words

variable {tokens : List Token}

theorem allWords_cons (token : Token) (rest : List Token) :
    allWords (token :: rest) = words token ++ allWords rest := List.flatMap_cons

theorem allWords_singleton (token : Token) : allWords [token] = words token :=
  List.flatMap_singleton words token

theorem isWord_of_mem_allWords {word : Token} (h : word ∈ allWords tokens) : IsWord word := by
  obtain ⟨token, _, hword⟩ := List.mem_flatMap.mp h
  exact (mem_splitWords hword).1

/-- The words of the tokens are the words of their joined text, whatever spaces there are at the
ends of the tokens and in them. -/
theorem words_unwords_eq (tokens : List Token) : words (unwords tokens) = allWords tokens := by
  induction tokens with
  | nil => rfl
  | cons token rest ih =>
      by_cases hrest : rest = []
      · rw [hrest, unwords_singleton, allWords_singleton]
      · rw [words, unwords_cons token hrest, splitWords_append_space, allWords_cons, ← ih, words,
          words]

/-- Words do not fall apart any further. -/
theorem allWords_allWords (tokens : List Token) : allWords (allWords tokens) = allWords tokens := by
  rw [← words_unwords_eq (allWords tokens)]
  exact words_unwords fun _ => isWord_of_mem_allWords

end Words

section Groups

variable {tokens : List Token}

/-- Only an incomplete group at the end is dropped. -/
theorem flatten_threes (tokens : List Token) :
    (threes tokens).flatten = tokens.take (3 * (tokens.length / 3)) := by
  fun_induction threes tokens with
  | case1 s r o rest ih =>
      have hlength : 3 * ((s :: r :: o :: rest).length / 3) = 3 * (rest.length / 3) + 3 := by
        simp only [List.length_cons]
        omega
      rw [List.flatten_cons, ih, hlength]
      rfl
  | case2 tokens hshort =>
      have hlength : tokens.length / 3 = 0 := by
        refine Nat.div_eq_of_lt ?_
        rcases tokens with _ | ⟨s, _ | ⟨r, _ | ⟨o, rest⟩⟩⟩
        · decide
        · simp
        · simp
        · exact absurd rfl (hshort s r o rest)
      rw [hlength]
      rfl

/-- No word is dropped if the words can be divided by three. -/
theorem flatten_threes_of_dvd (h : 3 ∣ tokens.length) : (threes tokens).flatten = tokens := by
  rw [flatten_threes, Nat.mul_div_cancel' h, List.take_length]

/-- Groups of three in front of other tokens are groups of the whole. -/
theorem threes_flatten_append {groups : List (List Token)} (h : ∀ group ∈ groups, group.length = 3)
    (rest : List Token) : threes (groups.flatten ++ rest) = groups ++ threes rest := by
  induction groups with
  | nil => rfl
  | cons group groups ih =>
      rw [List.forall_mem_cons] at h
      obtain ⟨s, r, o, rfl⟩ := List.length_eq_three.mp h.1
      calc threes (([s, r, o] :: groups).flatten ++ rest)
          = [s, r, o] :: threes (groups.flatten ++ rest) := by
            rw [List.flatten_cons, List.append_assoc]
            rfl
        _ = [s, r, o] :: groups ++ threes rest := by rw [ih h.2, List.cons_append]

theorem threes_append (h : 3 ∣ tokens.length) (more : List Token) :
    threes (tokens ++ more) = threes tokens ++ threes more := by
  have hgroups : ∀ group ∈ threes tokens, group.length = 3 := fun _ => length_of_mem_threes
  have happend := threes_flatten_append hgroups more
  rwa [flatten_threes_of_dvd h] at happend

/-- If the words of every token can be divided by three, the groups of all words are the groups of
each token in turn. -/
theorem threes_allWords (h : ∀ token ∈ tokens, 3 ∣ (allWords [token]).length) :
    threes (allWords tokens) = tokens.flatMap fun token => threes (allWords [token]) := by
  induction tokens with
  | nil => rfl
  | cons token rest ih =>
      rw [List.forall_mem_cons] at h
      rw [allWords_cons, ← allWords_singleton, threes_append h.1, ih h.2, List.flatMap_cons]

/-- One word too many in the first line shifts all groups after it. -/
example : threes (allWords ["a is b c", "d is e"]) = [["a", "is", "b"], ["c", "d", "is"]] := by
  decide

/-- The words of a block whose lines are made of whole groups can be divided by three. -/
theorem dvd_length_allWords (h : ∀ token ∈ tokens, 3 ∣ (allWords [token]).length) :
    3 ∣ (allWords tokens).length := by
  induction tokens with
  | nil => exact Nat.dvd_zero 3
  | cons token rest ih =>
      rw [List.forall_mem_cons, allWords_singleton] at h
      rw [allWords_cons, List.length_append]
      exact Nat.dvd_add h.1 (ih h.2)

end Groups

end Program
end RelationLang
