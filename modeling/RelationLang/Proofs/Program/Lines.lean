import RelationLang.Program.Line
import RelationLang.Proofs.Text.Words

/-!
# The lines that programs have

**Input.**  The words of a line, and its text: the words joined by single spaces.

**Results.**
* `WordsOfLine.textOfLine`, `TextOfLine.wordsOfLine`: the texts of lines are the joined words of
  lines, and determine them.
* `lines_iff`: lines are those of some program exactly when each has the words of a line,
  whichever of them are indented.
-/

namespace RelationLang
namespace Program

open Text

section Definitions

/-- What the words of a line can be: nonempty names without spaces and line feeds, of which the
first does not begin, and the last does not end, with a blank. -/
structure WordsOfLine (ws : List String) : Prop where
  nonempty : ws ≠ []
  word : ∀ w ∈ ws, IsWord w
  newline : ∀ w ∈ ws, '\n' ∉ w.toList
  start : ∀ w ∈ ws.head?, startsBlank w.toList = false
  stop : ∀ w ∈ ws.getLast?, endsBlank w.toList = false

/-- What the text of a line can be: it is not empty, contains no line feed and no two spaces in a
row, and neither begins nor ends with a blank. -/
structure TextOfLine (text : String) : Prop where
  nonempty : text ≠ ""
  newline : '\n' ∉ text.toList
  start : startsBlank text.toList = false
  stop : endsBlank text.toList = false
  single : ¬ [' ', ' '] <:+: text.toList

instance (ws : List String) : Decidable (WordsOfLine ws) :=
  decidable_of_iff (ws ≠ [] ∧ (∀ w ∈ ws, IsWord w) ∧ (∀ w ∈ ws, '\n' ∉ w.toList) ∧
      (∀ w ∈ ws.head?, startsBlank w.toList = false) ∧
      ∀ w ∈ ws.getLast?, endsBlank w.toList = false)
    ⟨fun ⟨h₁, h₂, h₃, h₄, h₅⟩ => ⟨h₁, h₂, h₃, h₄, h₅⟩,
      fun ⟨h₁, h₂, h₃, h₄, h₅⟩ => ⟨h₁, h₂, h₃, h₄, h₅⟩⟩

instance (text : String) : Decidable (TextOfLine text) :=
  decidable_of_iff (text ≠ "" ∧ '\n' ∉ text.toList ∧ startsBlank text.toList = false ∧
      endsBlank text.toList = false ∧ ¬ [' ', ' '] <:+: text.toList)
    ⟨fun ⟨h₁, h₂, h₃, h₄, h₅⟩ => ⟨h₁, h₂, h₃, h₄, h₅⟩,
      fun ⟨h₁, h₂, h₃, h₄, h₅⟩ => ⟨h₁, h₂, h₃, h₄, h₅⟩⟩

/-- A line as it can be written in a program. -/
def Line.written (line : Line) : String :=
  if line.indented then " " ++ line.text else line.text

end Definitions

section Words

variable {cs : List Char} {ws : List String} {name : String}

theorem ne_space_of_isBlank_eq_false {c : Char} (h : isBlank c = false) : c ≠ ' ' := by
  rintro rfl
  exact absurd h (by decide)

/-- The words of a text without line feeds, and without blanks at its ends, are those of a line. -/
theorem wordsOfLine_splitWords (hne : cs ≠ []) (hnewline : '\n' ∉ cs)
    (hstart : startsBlank cs = false) (hstop : endsBlank cs = false) :
    WordsOfLine (splitWords cs) := by
  have hfirst := startsBlank_eq_false_iff.mp hstart hne
  have hlast := endsBlank_eq_false_iff.mp hstop hne
  obtain ⟨first, hhead, hbegins⟩ := head?_splitWords (List.head?_eq_some_head hne)
    (ne_space_of_isBlank_eq_false hfirst)
  obtain ⟨last, hgetLast, hends⟩ := getLast?_splitWords (List.getLast?_eq_some_getLast hne)
    (ne_space_of_isBlank_eq_false hlast)
  refine ⟨?_, fun w hw => (mem_splitWords hw).1,
    fun w hw hmem => hnewline ((mem_splitWords hw).2 hmem), ?_, ?_⟩
  · intro hnil
    simp [hnil] at hhead
  · intro w hw
    obtain rfl := Option.mem_unique hw hhead
    simpa [startsBlank, hbegins] using hfirst
  · intro w hw
    obtain rfl := Option.mem_unique hw hgetLast
    simpa [endsBlank, hends] using hlast

/-- The joined words of a line are the text of a line. -/
theorem WordsOfLine.textOfLine (h : WordsOfLine ws) : TextOfLine (unwords ws) := by
  obtain ⟨first, rest, hcons⟩ := List.exists_cons_of_ne_nil h.nonempty
  have hfirst : first ≠ "" := (h.word first (by simp [hcons])).1
  have hhead : (unwords ws).toList.head? = first.toList.head? := by
    rw [hcons]
    exact head?_unwords hfirst rest
  have hlast : (unwords ws).toList.getLast? = (ws.getLast h.nonempty).toList.getLast? := by
    conv_lhs => rw [← List.dropLast_append_getLast h.nonempty]
    exact getLast?_unwords (h.word _ (List.getLast_mem _)).1 _
  refine ⟨?_, ?_, ?_, ?_, not_two_spaces_unwords h.word⟩
  · intro hempty
    rw [hempty] at hhead
    exact hfirst (by simpa using List.head?_eq_none_iff.mp hhead.symm)
  · intro hmem
    rcases mem_unwords hmem with hspace | ⟨w, hw, hc⟩
    · exact absurd hspace (by decide)
    · exact h.newline w hw hc
  · rw [startsBlank, hhead]
    exact h.start first (by simp [hcons])
  · rw [endsBlank, hlast]
    exact h.stop _ (List.getLast?_eq_some_getLast h.nonempty)

/-- The text of a line is the joined words of a line. -/
theorem TextOfLine.wordsOfLine (h : TextOfLine name) :
    WordsOfLine (words name) ∧ unwords (words name) = name := by
  have hne : name.toList ≠ [] := by simpa using h.nonempty
  have hhead := ne_space_of_isBlank_eq_false (startsBlank_eq_false_iff.mp h.start hne)
  have hlast := ne_space_of_isBlank_eq_false (endsBlank_eq_false_iff.mp h.stop hne)
  refine ⟨wordsOfLine_splitWords hne h.newline h.start h.stop,
    unwords_words h.nonempty ?_ ?_ h.single⟩
  · rw [List.head?_eq_some_head hne]
    exact fun heq => hhead (Option.some.inj heq)
  · rw [List.getLast?_eq_some_getLast hne]
    exact fun heq => hlast (Option.some.inj heq)

-- Only spaces separate words, so a blank of another kind begins the second word here.
example : TextOfLine "a \tb" ∧ words "a \tb" = ["a", "\tb"] := by decide

end Words

section Lines

variable {source : String} {line : Line}

/-- The words of every line of a program are those of a line. -/
theorem wordsOfLine_of_mem_lines (h : line ∈ lines source) : WordsOfLine line.words := by
  obtain ⟨raw, hraw, hread⟩ := List.mem_filterMap.mp h
  unfold Line.ofChars? at hread
  split at hread
  · exact nomatch hread
  · next hne =>
      injection hread with hread
      subst hread
      exact wordsOfLine_splitWords hne (fun hmem => (mem_splitOn hraw).1 (trim_subset raw hmem))
        (startsBlank_trim raw) (endsBlank_trim raw)

/-- A written line reads as the line. -/
theorem lines_written (h : WordsOfLine line.words) : lines line.written = [line] := by
  have htext : TextOfLine line.text := h.textOfLine
  have htrim : trim line.written.toList = line.text.toList := by
    unfold Line.written
    split
    · rw [String.toList_append]
      exact (trim_cons_space _).trans (trim_eq_self htext.start htext.stop)
    · exact trim_eq_self htext.start htext.stop
  have hindented : line.written.toList.head?.any isBlank = line.indented := by
    unfold Line.written
    split
    · next hindented =>
        rw [String.toList_append, hindented]
        rfl
    · next hindented =>
        rw [Bool.not_eq_true] at hindented
        exact htext.start.trans hindented.symm
  have hnewline : '\n' ∉ line.written.toList := by
    unfold Line.written
    split
    · simpa using htext.newline
    · exact htext.newline
  have hread : Line.ofChars? line.written.toList = some line := by
    have hne : line.text.toList ≠ [] := by simpa using htext.nonempty
    rw [Line.ofChars?, htrim, if_neg hne, hindented]
    exact congrArg (fun ws => some (Line.mk line.indented ws)) (words_unwords h.word)
  simp [lines, linesOfChars, List.splitOn_eq_singleton hnewline, hread]

/-- Lines are those of some program exactly when each has the words of a line. -/
theorem lines_iff {ls : List Line} :
    (∃ source, lines source = ls) ↔ ∀ line ∈ ls, WordsOfLine line.words := by
  constructor
  · rintro ⟨source, rfl⟩ line hline
    exact wordsOfLine_of_mem_lines hline
  · intro h
    induction ls with
    | nil => exact ⟨"", rfl⟩
    | cons line ls ih =>
        rw [List.forall_mem_cons] at h
        obtain ⟨source, rfl⟩ := ih h.2
        refine ⟨line.written ++ "\n" ++ source, ?_⟩
        rw [lines_append, lines_written h.1, List.singleton_append]

end Lines

end Program
end RelationLang
