import RelationLang.Program.Layout
import RelationLang.Proofs.Program.Lines

/-!
# The statements that programs have

**Input.**  Statements, whether or not a program has them.

**Algorithm.**  To write statements as a program, each is written as the lines it came from: a
boxed statement as an indented line, a plain one as an unindented line, and a header with its
block as an unindented line with indented lines under it.

**Results.**
* `laidOut_ofLines`: the layout makes boxed statements, then plain ones and headers with blocks.
* `LaidOut.exists_lines`: all such statements are made from lines.
* `statements_image`: the statements that programs have, and which of them are block-shaped.
-/

namespace RelationLang
namespace Program

open Text

section Definitions

/-- Plain statements, and headers followed by their blocks, in any order. -/
inductive Items : List Statement → Prop
  | nil : Items []
  | plain {ws : List Token} {rest : List Statement} :
      WordsOfLine ws →
      Items rest →
      Items (.plain ws :: rest)
  | headed {ws block : List Token} {rest : List Statement} :
      WordsOfLine ws →
      block ≠ [] →
      (∀ token ∈ block, TextOfLine token) →
      Items rest →
      Items (Statement.headed ws block ++ rest)

/-- Boxed statements, then items. -/
def LaidOut (ss : List Statement) : Prop :=
  ∃ (boxes : List Token) (items : List Statement), ss = boxes.map .boxed ++ items ∧
    (∀ token ∈ boxes, TextOfLine token) ∧ Items items

/-- The indented line with a text. -/
def Line.under (token : Token) : Line := ⟨true, Text.words token⟩

/-- The unindented line with some words. -/
def Line.opening (ws : List Token) : Line := ⟨false, ws⟩

end Definitions

section Image

variable {ls : List Line} {heading : Heading}

/-- What is held back is released as an item. -/
theorem Items.release {rest : List Statement} (hwords : WordsOfLine heading.words)
    (hblock : ∀ token ∈ heading.block, TextOfLine token) (hrest : Items rest) :
    Items (heading.release ++ rest) := by
  obtain ⟨ws, block⟩ := heading
  cases block with
  | nil => exact .plain hwords hrest
  | cons token block => exact .headed hwords (List.cons_ne_nil _ _) hblock hrest

/-- The lines that follow an open heading make items. -/
theorem items_ofLinesUnder (hls : ∀ line ∈ ls, WordsOfLine line.words)
    (hwords : WordsOfLine heading.words) (hblock : ∀ token ∈ heading.block, TextOfLine token) :
    Items (ofLinesUnder heading ls) := by
  induction ls generalizing heading with
  | nil =>
      have := Items.release hwords hblock .nil
      rwa [List.append_nil] at this
  | cons line ls ih =>
      rw [List.forall_mem_cons] at hls
      simp only [ofLinesUnder]
      split
      · refine ih hls.2 hwords ?_
        intro token htoken
        rcases List.mem_append.mp htoken with htoken | htoken
        · exact hblock token htoken
        · obtain rfl := List.mem_singleton.mp htoken
          exact hls.1.textOfLine
      · exact .release hwords hblock (ih hls.2 hls.1 (by simp))

/-- The layout makes boxed statements, then plain ones and headers with blocks. -/
theorem laidOut_ofLines (hls : ∀ line ∈ ls, WordsOfLine line.words) : LaidOut (ofLines ls) := by
  induction ls with
  | nil => exact ⟨[], [], rfl, by simp, .nil⟩
  | cons line ls ih =>
      rw [List.forall_mem_cons] at hls
      simp only [ofLines]
      split
      · obtain ⟨boxes, items, hss, hboxes, hitems⟩ := ih hls.2
        refine ⟨line.text :: boxes, items, by rw [hss]; rfl, ?_, hitems⟩
        exact List.forall_mem_cons.mpr ⟨hls.1.textOfLine, hboxes⟩
      · exact ⟨[], _, rfl, by simp, items_ofLinesUnder hls.2 hls.1 (by simp)⟩

end Image

section Preimage

variable {ss : List Statement} {block : List Token}

theorem Line.indented_under (token : Token) : (under token).indented = true := rfl

theorem Line.text_under {token : Token} (h : TextOfLine token) : (under token).text = token :=
  h.wordsOfLine.2

/-- Indented lines under a heading join its block. -/
theorem ofLinesUnder_under (heading : Heading) (hblock : ∀ token ∈ block, TextOfLine token) :
    ofLinesUnder heading (block.map .under) =
      Heading.release ⟨heading.words, heading.block ++ block⟩ := by
  induction block generalizing heading with
  | nil => simp [ofLinesUnder]
  | cons token block ih =>
      rw [List.forall_mem_cons] at hblock
      have hgather : heading.gather (.under token) = ⟨heading.words, heading.block ++ [token]⟩ := by
        rw [Heading.gather, Line.text_under hblock.1]
      simp only [List.map_cons, ofLinesUnder]
      rw [if_pos (Line.indented_under token), hgather, ih _ hblock.2, List.append_assoc,
        List.singleton_append]

/-- Items are made from lines of which the first is not indented. -/
theorem Items.exists_lines (h : Items ss) :
    ∃ ls, (∀ line ∈ ls, WordsOfLine line.words) ∧
      (∀ line ∈ ls.head?, line.indented = false) ∧ ofLines ls = ss := by
  induction h with
  | nil => exact ⟨[], by simp, by simp, rfl⟩
  | @plain ws rest hwords _ ih =>
      obtain ⟨ls, hls, hhead, rfl⟩ := ih
      refine ⟨.opening ws :: ls, List.forall_mem_cons.mpr ⟨hwords, hls⟩, by simp [Line.opening], ?_⟩
      exact ofLines_append [.opening ws] hhead
  | @headed ws block rest hwords hne hblock _ ih =>
      obtain ⟨ls, hls, hhead, rfl⟩ := ih
      have hunder : ∀ line ∈ block.map Line.under, WordsOfLine line.words :=
        List.forall_mem_map.mpr fun token htoken => (hblock token htoken).wordsOfLine.1
      have hheaded : ofLines (.opening ws :: block.map .under) = Statement.headed ws block := by
        obtain ⟨token, tokens, rfl⟩ := List.exists_cons_of_ne_nil hne
        exact ofLinesUnder_under ⟨ws, []⟩ hblock
      refine ⟨.opening ws :: (block.map .under ++ ls),
        List.forall_mem_cons.mpr ⟨hwords, List.forall_mem_append.mpr ⟨hunder, hls⟩⟩,
        by simp [Line.opening], ?_⟩
      rw [← hheaded, ← List.cons_append]
      exact ofLines_append _ hhead

/-- Indented lines before any other are boxed statements. -/
theorem ofLines_under (boxes : List Token) (hboxes : ∀ token ∈ boxes, TextOfLine token)
    (ls : List Line) :
    ofLines (boxes.map .under ++ ls) = boxes.map .boxed ++ ofLines ls := by
  induction boxes with
  | nil => rfl
  | cons token boxes ih =>
      rw [List.forall_mem_cons] at hboxes
      simp only [List.map_cons, List.cons_append, ofLines]
      rw [if_pos (Line.indented_under token), Line.text_under hboxes.1, ih hboxes.2]

/-- Boxed statements followed by items are made from lines. -/
theorem LaidOut.exists_lines (h : LaidOut ss) :
    ∃ ls, (∀ line ∈ ls, WordsOfLine line.words) ∧ ofLines ls = ss := by
  obtain ⟨boxes, items, rfl, hboxes, hitems⟩ := h
  obtain ⟨ls, hls, _, rfl⟩ := hitems.exists_lines
  have hunder : ∀ line ∈ boxes.map Line.under, WordsOfLine line.words :=
    List.forall_mem_map.mpr fun token htoken => (hboxes token htoken).wordsOfLine.1
  exact ⟨boxes.map .under ++ ls, List.forall_mem_append.mpr ⟨hunder, hls⟩,
    ofLines_under boxes hboxes ls⟩

end Preimage

section Shape

variable {ss : List Statement} {s : Statement}

/-- Words of a line are not block-shaped. -/
theorem WordsOfLine.not_blockShaped {ws : List Token} (h : WordsOfLine ws) :
    blockShaped ws = false := by
  obtain ⟨first, rest, rfl⟩ := List.exists_cons_of_ne_nil h.nonempty
  have hspace : hasSpace first = false := by
    simpa [hasSpace] using (h.word first List.mem_cons_self).2
  simp [blockShaped, hspace]

/-- An item holds the words of a line, or is a block. -/
theorem Items.mem (h : Items ss) (hs : s ∈ ss) :
    ((s.kind = .plain ∨ s.kind = .header) ∧ WordsOfLine s.tokens) ∨
      s.kind = .block ∧ s.tokens ≠ [] := by
  induction h with
  | nil => simp at hs
  | plain hwords _ ih =>
      rcases List.mem_cons.mp hs with rfl | hs
      · exact .inl ⟨.inl rfl, hwords⟩
      · exact ih hs
  | headed hwords hne _ _ ih =>
      rcases List.mem_append.mp hs with hs | hs
      · rcases List.mem_pair.mp hs with rfl | rfl
        · exact .inl ⟨.inr rfl, hwords⟩
        · exact .inr ⟨rfl, hne⟩
      · exact ih hs

/-- A statement of a program holds the words of a line, or is a block or boxed. -/
theorem LaidOut.mem (h : LaidOut ss) (hs : s ∈ ss) :
    ((s.kind = .plain ∨ s.kind = .header) ∧ WordsOfLine s.tokens) ∨
      (s.kind = .block ∨ s.kind = .boxed) ∧ s.tokens ≠ [] := by
  obtain ⟨boxes, items, rfl, _, hitems⟩ := h
  rcases List.mem_append.mp hs with hs | hs
  · obtain ⟨token, _, rfl⟩ := List.mem_map.mp hs
    exact .inr ⟨.inr rfl, by simp [Statement.boxed]⟩
  · rcases hitems.mem hs with hwords | ⟨hkind, hne⟩
    · exact .inl hwords
    · exact .inr ⟨.inl hkind, hne⟩

end Shape

/-- Statements are those of some program exactly when they are laid out. A statement of a program
is block-shaped exactly when it is a block, or boxed, with a space in every token. -/
theorem statements_image :
    (∀ ss, (∃ source, statements source = ss) ↔ LaidOut ss) ∧
      ∀ source, ∀ s ∈ statements source, blockShaped s.tokens = true ↔
        (s.kind = .block ∨ s.kind = .boxed) ∧ ∀ token ∈ s.tokens, hasSpace token = true := by
  have hlaid : ∀ source, LaidOut (statements source) := fun source =>
    laidOut_ofLines (lines_iff.mp ⟨source, rfl⟩)
  constructor
  · intro ss
    constructor
    · rintro ⟨source, rfl⟩
      exact hlaid source
    · intro h
      obtain ⟨ls, hls, rfl⟩ := h.exists_lines
      obtain ⟨source, rfl⟩ := lines_iff.mpr hls
      exact ⟨source, rfl⟩
  · intro source s hs
    rw [blockShaped_iff]
    rcases (hlaid source).mem hs with ⟨hkind, hwords⟩ | ⟨hkind, hne⟩
    · have hshape := hwords.not_blockShaped
      constructor
      · intro h
        rw [blockShaped_iff.mpr h] at hshape
        exact nomatch hshape
      · rintro ⟨hother, _⟩
        rcases hkind with hkind | hkind <;> simp [hkind] at hother
    · exact ⟨fun h => ⟨hkind, h.2⟩, fun h => ⟨hne, h.2⟩⟩

end Program
end RelationLang
