import RelationLang.Proofs.Program.Layout

/-!
# The outline of a program

**Input.**  The text of a program.

**Algorithm.**  The outline of a text lists, for each line with a character that is not blank,
whether the line begins with a blank, and its words. To read statements back as lines, a plain
statement or a header is the unindented line of its tokens, and each token of a block, or of a
boxed statement, is the indented line of its words. The copy of a block that its header carries is
passed over.

**Results.**
* `lines_ofLines`: the statements made from lines are read back as these lines.
* `lines_insensitive`: spacing that the lines of a text do not show.
* `statements_eq_iff`: two texts have the same statements exactly when they have the same outline.
* `statements_append_of_flush`: the statements of a text whose second part begins with an
  unindented line.
-/

namespace RelationLang
namespace Program

open Text

section Definitions

/-- The lines of a text that hold more than blanks: whether they begin with a blank, and their
words. -/
def outline (source : String) : List Line :=
  ((source.toList.splitOn '\n').filter fun raw => raw.any fun c => !isBlank c).map fun raw =>
    ⟨startsBlank raw, splitWords (trim raw)⟩

/-- The lines that a statement was made from; those of a block belong to the block's own
statement. -/
def Statement.lines (statement : Statement) : List Line :=
  match statement.kind with
  | .plain | .header => [.opening statement.tokens]
  | .block | .boxed => statement.tokens.map .under

/-- A text begins with an unindented line, unless it has no lines at all. -/
def Flush (source : String) : Prop := ∀ line ∈ (outline source).head?, line.indented = false

instance (source : String) : Decidable (Flush source) :=
  inferInstanceAs (Decidable (∀ line ∈ (outline source).head?, line.indented = false))

/-- What is read of a text does not depend on lines of blanks, on blanks at the ends of lines, on
the convention for line ends, on the depth of indentation, and on the number of spaces between
words. -/
structure Insensitive {α : Type} (read : String → α) : Prop where
  start : ∀ a, read ("\n" ++ a) = read a
  stop : ∀ a blanks : String, (∀ c ∈ blanks.toList, isBlank c = true) →
    read (a ++ blanks) = read a
  lineStop : ∀ a b blanks : String, (∀ c ∈ blanks.toList, isBlank c = true) →
    read (a ++ blanks ++ "\n" ++ b) = read (a ++ "\n" ++ b)
  lineEnds : ∀ rows : List String, read ("\r\n".intercalate rows) = read ("\n".intercalate rows)
  depth : ∀ a b blanks : String, blanks ≠ "" → '\n' ∉ blanks.toList →
    (∀ c ∈ blanks.toList, isBlank c = true) →
      read (a ++ "\n" ++ blanks ++ b) = read (a ++ "\n" ++ " " ++ b)
  spaces : ∀ a b, read (a ++ "  " ++ b) = read (a ++ " " ++ b)

end Definitions

section Spacing

variable {cs ds : List Char}

theorem trimLeft_append_of_blank (h : ∀ c ∈ cs, isBlank c = true) (ds : List Char) :
    trimLeft (cs ++ ds) = trimLeft ds := by
  have hnil : cs.dropWhile isBlank = [] := dropWhile_eq_nil_iff.mpr h
  simp [trimLeft, List.dropWhile_append, hnil]

theorem trimRight_append_of_blank (cs : List Char) (h : ∀ c ∈ ds, isBlank c = true) :
    trimRight (cs ++ ds) = trimRight cs := by
  have hnil : ds.reverse.dropWhile isBlank = [] :=
    dropWhile_eq_nil_iff.mpr fun c hc => h c (List.mem_reverse.mp hc)
  simp [trimRight, List.dropWhile_append, hnil]

theorem trimLeft_append_of_ne_nil (h : trimLeft cs ≠ []) (ds : List Char) :
    trimLeft (cs ++ ds) = trimLeft cs ++ ds := by
  have hne : cs.dropWhile isBlank ≠ [] := h
  simp [trimLeft, List.dropWhile_append, hne]

theorem trimRight_append_of_ne_nil (cs : List Char) (h : trimRight ds ≠ []) :
    trimRight (cs ++ ds) = cs ++ trimRight ds := by
  have hne : ds.reverse.dropWhile isBlank ≠ [] := by simpa [trimRight] using h
  simp [trimRight, List.dropWhile_append, hne]

theorem trimRight_eq_nil_iff : trimRight cs = [] ↔ ∀ c ∈ cs, isBlank c = true := by
  rw [trimRight, List.reverse_eq_nil_iff, dropWhile_eq_nil_iff]
  simp

theorem trim_append_of_blank (cs : List Char) (h : ∀ c ∈ ds, isBlank c = true) :
    trim (cs ++ ds) = trim cs := by
  by_cases hcs : trimLeft cs = []
  · have hall : ∀ c ∈ cs ++ ds, isBlank c = true :=
      List.forall_mem_append.mpr ⟨dropWhile_eq_nil_iff.mp hcs, h⟩
    rw [trim_eq_nil_iff.mpr hall, trim_eq_nil_iff.mpr (List.forall_mem_append.mp hall).1]
  · rw [trim, trimLeft_append_of_ne_nil hcs, trimRight_append_of_blank _ h, trim]

/-- Blanks at the end of a line are not seen. -/
theorem Line.ofChars?_append_of_blank (cs : List Char) (h : ∀ c ∈ ds, isBlank c = true) :
    ofChars? (cs ++ ds) = ofChars? cs := by
  unfold ofChars?
  rw [trim_append_of_blank cs h]
  split
  · rfl
  · next hne =>
      have hcs : cs ≠ [] := by
        rintro rfl
        exact hne rfl
      rw [List.head?_append_of_ne_nil _ hcs]

/-- How deep a line is indented is not seen. -/
theorem Line.ofChars?_of_blank_append (hne : cs ≠ []) (h : ∀ c ∈ cs, isBlank c = true)
    (ds : List Char) : ofChars? (cs ++ ds) = ofChars? (' ' :: ds) := by
  have htrim : trim (cs ++ ds) = trim (' ' :: ds) := by
    rw [trim_cons_space, trim, trimLeft_append_of_blank h, trim]
  have hhead : (cs ++ ds).head?.any isBlank = (' ' :: ds).head?.any isBlank := by
    obtain ⟨c, rest, rfl⟩ := List.exists_cons_of_ne_nil hne
    exact h c List.mem_cons_self
  rw [ofChars?, ofChars?, htrim, hhead]

/-- What is read of a line that holds more than blanks on both sides of a place. -/
theorem Line.ofChars?_append_of_ne_nil (hcs : trimLeft cs ≠ []) (hds : trimRight ds ≠ [])
    (mid : List Char) :
    ofChars? (cs ++ (mid ++ ds)) =
      some ⟨startsBlank cs, splitWords (trimLeft cs ++ (mid ++ trimRight ds))⟩ := by
  have htrim : trim (cs ++ (mid ++ ds)) = trimLeft cs ++ (mid ++ trimRight ds) := by
    rw [trim, trimLeft_append_of_ne_nil hcs, ← List.append_assoc,
      trimRight_append_of_ne_nil _ hds, List.append_assoc]
  have hne : cs ≠ [] := by
    rintro rfl
    exact hcs rfl
  rw [ofChars?, htrim, if_neg (by simp [hcs]), List.head?_append_of_ne_nil _ hne]
  rfl

/-- How many spaces stand between two words is not seen. -/
theorem Line.ofChars?_two_spaces (cs ds : List Char) :
    ofChars? (cs ++ ' ' :: ' ' :: ds) = ofChars? (cs ++ ' ' :: ds) := by
  have hblank : isBlank ' ' = true := by decide
  by_cases hds : ∀ c ∈ ds, isBlank c = true
  · rw [ofChars?_append_of_blank cs (by simpa [hblank] using hds),
      ofChars?_append_of_blank cs (by simpa [hblank] using hds)]
  by_cases hcs : ∀ c ∈ cs, isBlank c = true
  · have hspace : ∀ c ∈ cs ++ [' '], isBlank c = true :=
      List.forall_mem_append.mpr ⟨hcs, by simp [hblank]⟩
    rw [List.append_cons, List.append_cons cs ' ' ds, ofChars?_of_blank_append (by simp) hspace,
      ofChars?_of_blank_append (by simp) hspace]
    have htwo : ∀ c ∈ [' ', ' '], isBlank c = true := by simp [hblank]
    exact ofChars?_of_blank_append (by simp) htwo ds
  -- The spaces stand inside the trimmed line, where they separate the same words.
  have hleft : trimLeft cs ≠ [] := fun hnil => hcs (dropWhile_eq_nil_iff.mp hnil)
  have hright : trimRight ds ≠ [] := fun hnil => hds (trimRight_eq_nil_iff.mp hnil)
  have htwo := Line.ofChars?_append_of_ne_nil hleft hright [' ', ' ']
  have hone := Line.ofChars?_append_of_ne_nil hleft hright [' ']
  have hwords : splitWords (' ' :: trimRight ds) = splitWords (trimRight ds) :=
    splitWords_append_space [] _
  simp only [List.cons_append, List.nil_append, splitWords_append_space, hwords] at htwo hone
  exact htwo.trans hone.symm

end Spacing

section Insensitivity

theorem linesOfChars_append (as bs : List Char) :
    linesOfChars (as ++ '\n' :: bs) = linesOfChars as ++ linesOfChars bs := by
  simp [linesOfChars, List.splitOn_append_cons_self]

theorem linesOfChars_of_not_mem {cs : List Char} (h : '\n' ∉ cs) :
    linesOfChars cs = (Line.ofChars? cs).toList := by
  simp only [linesOfChars, List.splitOn_eq_singleton h, List.filterMap_cons, List.filterMap_nil]
  cases Line.ofChars? cs <;> rfl

/-- What follows a text continues the last line of the text. -/
theorem exists_lastLine (as : List Char) :
    ∃ (before : List Line) (last : List Char), '\n' ∉ last ∧
      ∀ cs, linesOfChars (as ++ cs) = before ++ linesOfChars (last ++ cs) := by
  by_cases has : '\n' ∈ as
  · obtain ⟨last, before, hcut, hlast⟩ := List.eq_append_cons_of_mem (List.mem_reverse.mpr has)
    have has : as = before.reverse ++ '\n' :: last.reverse := by
      simpa using congrArg List.reverse hcut
    refine ⟨linesOfChars before.reverse, last.reverse, by simpa using hlast, fun cs => ?_⟩
    rw [has, List.append_assoc, List.cons_append, linesOfChars_append]
  · exact ⟨[], as, has, fun cs => rfl⟩

/-- What precedes a text, on the same line, is continued by the first line of the text. -/
theorem exists_firstLine (bs : List Char) :
    ∃ (first : List Char) (after : List Line),
      ∀ cs, '\n' ∉ cs →
        linesOfChars (cs ++ bs) = (Line.ofChars? (cs ++ first)).toList ++ after := by
  by_cases hbs : '\n' ∈ bs
  · obtain ⟨first, after, rfl, hfirst⟩ := List.eq_append_cons_of_mem hbs
    refine ⟨first, linesOfChars after, fun cs hcs => ?_⟩
    rw [← List.append_assoc, linesOfChars_append, linesOfChars_of_not_mem (by simp [hcs, hfirst])]
  · refine ⟨bs, [], fun cs hcs => ?_⟩
    rw [linesOfChars_of_not_mem (by simp [hcs, hbs]), List.append_nil]

theorem linesOfChars_append_of_blank (as : List Char) {blanks : List Char}
    (h : ∀ c ∈ blanks, isBlank c = true) : linesOfChars (as ++ blanks) = linesOfChars as := by
  induction blanks generalizing as with
  | nil => rw [List.append_nil]
  | cons c blanks ih =>
      rw [List.forall_mem_cons] at h
      rw [List.append_cons, ih _ h.2]
      by_cases hc : c = '\n'
      · rw [hc, linesOfChars_append]
        exact List.append_nil _
      · obtain ⟨before, last, hlast, hbefore⟩ := exists_lastLine as
        have hblank : ∀ d ∈ [c], isBlank d = true := by simpa using h.1
        have hread := Line.ofChars?_append_of_blank last hblank
        have hnil := hbefore []
        rw [List.append_nil, List.append_nil] at hnil
        rw [hbefore, linesOfChars_of_not_mem (by simp [hlast, Ne.symm hc]), hread, hnil,
          linesOfChars_of_not_mem hlast]

/-- The lines of rows, if what stands between the rows separates lines. -/
theorem lines_intercalate {sep : String} (h : ∀ a b, lines (a ++ sep ++ b) = lines a ++ lines b)
    (rows : List String) : lines (sep.intercalate rows) = rows.flatMap lines := by
  induction rows with
  | nil => rfl
  | cons row rows ih =>
      by_cases hrows : rows = []
      · simp [hrows, String.intercalate_singleton]
      · rw [String.intercalate_cons_of_ne_nil hrows, h, ih, List.flatMap_cons]

theorem lines_append_of_blank (a : String) {blanks : String}
    (h : ∀ c ∈ blanks.toList, isBlank c = true) : lines (a ++ blanks) = lines a := by
  simpa [lines] using linesOfChars_append_of_blank a.toList h

/-- What is computed from a reading sees no more than the reading. -/
theorem Insensitive.comp {α β : Type} {read : String → α} (h : Insensitive read) (f : α → β) :
    Insensitive fun source => f (read source) where
  start a := congrArg f (h.start a)
  stop a blanks hblank := congrArg f (h.stop a blanks hblank)
  lineStop a b blanks hblank := congrArg f (h.lineStop a b blanks hblank)
  lineEnds rows := congrArg f (h.lineEnds rows)
  depth a b blanks hne hnewline hblank := congrArg f (h.depth a b blanks hne hnewline hblank)
  spaces a b := congrArg f (h.spaces a b)

/-- Spacing that the lines of a text do not show. -/
theorem lines_insensitive : Insensitive lines where
  start a := by
    have hlines := lines_append "" a
    rwa [String.empty_append] at hlines
  stop a blanks h := lines_append_of_blank a h
  lineStop a b blanks h := by
    rw [lines_append, lines_append, lines_append_of_blank a h]
  lineEnds rows := by
    have hblank : isBlank '\r' = true := by decide
    have hreturn : ∀ a b, lines (a ++ "\r\n" ++ b) = lines a ++ lines b := by
      intro a b
      rw [show a ++ "\r\n" ++ b = a ++ "\r" ++ "\n" ++ b by simp [String.append_assoc],
        lines_append, lines_append_of_blank a (by simpa using hblank)]
    rw [lines_intercalate hreturn, lines_intercalate lines_append]
  depth a b blanks hne hnewline h := by
    obtain ⟨first, after, hafter⟩ := exists_firstLine b.toList
    rw [String.append_assoc, lines_append, String.append_assoc, lines_append]
    simp only [lines, String.toList_append]
    rw [hafter _ hnewline, hafter _ (by decide),
      Line.ofChars?_of_blank_append (by simpa using hne) h]
    rfl
  spaces a b := by
    obtain ⟨before, last, hlast, hbefore⟩ := exists_lastLine a.toList
    obtain ⟨first, after, hafter⟩ := exists_firstLine b.toList
    have hread : ∀ cs, '\n' ∉ cs → linesOfChars (a.toList ++ (cs ++ b.toList)) =
        before ++ ((Line.ofChars? (last ++ cs ++ first)).toList ++ after) := by
      intro cs hcs
      rw [hbefore, ← List.append_assoc, hafter _ (by simp [hlast, hcs])]
    have htwo := hread [' ', ' '] (by decide)
    have hone := hread [' '] (by decide)
    have hspaces := Line.ofChars?_two_spaces last first
    simp only [List.append_assoc, List.cons_append, List.nil_append] at htwo hone
    simpa [lines] using (hspaces ▸ htwo).trans hone.symm

end Insensitivity

section ReadBack

variable {ls : List Line} {heading : Heading}

theorem Line.under_text {line : Line} (hindented : line.indented = true)
    (hwords : WordsOfLine line.words) : under line.text = line := by
  rw [under, text, words_unwords hwords.word, ← hindented]

theorem Line.opening_words {line : Line} (hindented : line.indented = false) :
    opening line.words = line := by
  rw [opening, ← hindented]

theorem lines_release (heading : Heading) :
    heading.release.flatMap Statement.lines =
      .opening heading.words :: heading.block.map .under := by
  obtain ⟨ws, block⟩ := heading
  cases block with
  | nil => rfl
  | cons token block => simp [Heading.release, Statement.headed, Statement.lines]

theorem lines_ofLinesUnder (hls : ∀ line ∈ ls, WordsOfLine line.words) :
    (ofLinesUnder heading ls).flatMap Statement.lines =
      .opening heading.words :: heading.block.map .under ++ ls := by
  -- The heading grows while lines join its block, so the induction is over all headings.
  induction ls generalizing heading with
  | nil => rw [ofLinesUnder, lines_release, List.append_nil]
  | cons line ls ih =>
      rw [List.forall_mem_cons] at hls
      simp only [ofLinesUnder]
      split
      · next hindented =>
          rw [ih hls.2]
          simp [Heading.gather, Line.under_text hindented hls.1]
      · next hindented =>
          rw [Bool.not_eq_true] at hindented
          rw [List.flatMap_append, lines_release, ih hls.2, Line.opening_words hindented]
          simp

/-- The statements made from lines are read back as these lines. -/
theorem lines_ofLines (hls : ∀ line ∈ ls, WordsOfLine line.words) :
    (ofLines ls).flatMap Statement.lines = ls := by
  induction ls with
  | nil => rfl
  | cons line ls ih =>
      rw [List.forall_mem_cons] at hls
      simp only [ofLines]
      split
      · next hindented =>
          have hboxed : (Statement.boxed line.text).lines = [line] := by
            simp [Statement.boxed, Statement.lines, Line.under_text hindented hls.1]
          rw [List.flatMap_cons, hboxed, ih hls.2, List.singleton_append]
      · next hindented =>
          rw [Bool.not_eq_true] at hindented
          rw [lines_ofLinesUnder hls.2, Line.opening_words hindented]
          rfl

end ReadBack

section Outlines

/-- The lines that the layout works on are those of the outline. -/
theorem lines_eq_outline (source : String) : lines source = outline source := by
  unfold lines linesOfChars outline
  induction source.toList.splitOn '\n' with
  | nil => rfl
  | cons raw rows ih =>
      have hblank : (raw.any fun c => !isBlank c) = true ↔ trim raw ≠ [] := by
        simp [trim_eq_nil_iff]
      by_cases h : trim raw = []
      · simp [Line.ofChars?, h, hblank, ih]
      · simp [Line.ofChars?, h, hblank, ih, startsBlank]

/-- Two texts have the same statements exactly when they have the same outline: the statements
can be read back as the outline, and the layout sees nothing but it. Hence spacing is not seen
that the outline does not show. -/
theorem statements_eq_iff :
    (∀ s t, statements s = statements t ↔ outline s = outline t) ∧
      (∀ s, (statements s).flatMap Statement.lines = outline s) ∧ Insensitive statements := by
  have hread : ∀ s, (statements s).flatMap Statement.lines = outline s := by
    intro s
    rw [← lines_eq_outline]
    exact lines_ofLines fun line hline => wordsOfLine_of_mem_lines hline
  refine ⟨fun s t => ⟨fun h => ?_, fun h => ?_⟩, hread, ?_⟩
  · rw [← hread, ← hread, h]
  · rw [← lines_eq_outline, ← lines_eq_outline] at h
    exact congrArg ofLines h
  · exact lines_insensitive.comp ofLines

example : outline "say\r\n\n\t hello   there \n" =
    [⟨false, ["say"]⟩, ⟨true, ["hello", "there"]⟩] := by
  decide

/-- A part that begins with an unindented line is laid out on its own. -/
theorem statements_append_of_flush (a : String) {b : String} (h : Flush b) :
    statements (a ++ "\n" ++ b) = statements a ++ statements b := by
  rw [Flush, ← lines_eq_outline] at h
  rw [statements, lines_append, ofLines_append _ h]
  rfl

end Outlines

end Program
end RelationLang
