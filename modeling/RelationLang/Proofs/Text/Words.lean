import Mathlib.Data.List.DropRight
import Mathlib.Data.List.Infix
import Mathlib.Data.List.TakeWhile
import RelationLang.Text.Blank
import RelationLang.Text.Words

/-!
# Trimmed texts and their words

Trimming looks at blanks, splitting at spaces alone. A trimmed text begins with the first letter
of its first word and ends with the last letter of its last word, but its words may still contain
other blanks.

**Results.**
* `trim_eq_self`: a text without blanks at its ends is not changed by trimming.
* `words_unwords`: words joined by single spaces are the words of the joined text.
* `unwords_words`: a text is its words joined by single spaces, if it has no space at its ends and
  no two spaces in a row.
-/

namespace RelationLang
namespace Text

section Definitions

/-- The text begins with a blank. -/
def startsBlank (cs : List Char) : Bool := cs.head?.any isBlank

/-- The text ends with a blank. -/
def endsBlank (cs : List Char) : Bool := cs.getLast?.any isBlank

/-- A nonempty name without spaces. -/
def IsWord (name : String) : Prop := name ≠ "" ∧ ' ' ∉ name.toList

instance (name : String) : Decidable (IsWord name) := inferInstanceAs (Decidable (_ ∧ _))

end Definitions

section Trimming

variable {cs : List Char}

theorem startsBlank_eq_false_iff :
    startsBlank cs = false ↔ ∀ hne : cs ≠ [], isBlank (cs.head hne) = false := by
  cases cs <;> simp [startsBlank]

theorem endsBlank_eq_false_iff :
    endsBlank cs = false ↔ ∀ hne : cs ≠ [], isBlank (cs.getLast hne) = false := by
  by_cases hne : cs = []
  · simp [endsBlank, hne]
  · simp [endsBlank, List.getLast?_eq_some_getLast hne, hne]

theorem trimRight_isPrefix (cs : List Char) : trimRight cs <+: cs :=
  List.rdropWhile_prefix isBlank cs

theorem trim_subset (cs : List Char) : trim cs ⊆ cs :=
  List.Subset.trans (trimRight_isPrefix _).subset (List.dropWhile_subset isBlank)

theorem startsBlank_trim (cs : List Char) : startsBlank (trim cs) = false := by
  rw [startsBlank_eq_false_iff]
  intro hne
  have hright : trim cs <+: trimLeft cs := trimRight_isPrefix _
  have hleft : trimLeft cs ≠ [] := fun hnil => hne (List.prefix_nil.mp (hnil ▸ hright))
  calc isBlank ((trim cs).head hne) = isBlank ((trimLeft cs).head hleft) :=
        congrArg isBlank (hright.head hne)
    _ = false := List.head_dropWhile_not isBlank hleft

theorem endsBlank_trim (cs : List Char) : endsBlank (trim cs) = false := by
  rw [endsBlank_eq_false_iff]
  intro hne
  exact Bool.eq_false_iff.mpr (List.rdropWhile_last_not isBlank (trimLeft cs) hne)

/-- A text without blanks at its ends is not changed by trimming. -/
theorem trim_eq_self (hstart : startsBlank cs = false) (hend : endsBlank cs = false) :
    trim cs = cs := by
  have hleft : trimLeft cs = cs := by
    cases cs with
    | nil => rfl
    | cons c cs =>
        have hc : isBlank c = false := by simpa [startsBlank] using hstart
        simp [trimLeft, hc]
  have hright : trimRight cs = cs := by
    refine List.rdropWhile_eq_self_iff.mpr fun hne => ?_
    simp [endsBlank_eq_false_iff.mp hend hne]
  rw [trim, hleft, hright]

/-- A space in front of a text is trimmed. -/
theorem trim_cons_space (cs : List Char) : trim (' ' :: cs) = trim cs := rfl

end Trimming

section Splitting

variable {cs : List Char}

theorem splitWords_eq_singleton (hne : cs ≠ []) (h : ' ' ∉ cs) :
    splitWords cs = [String.ofList cs] := by
  simp [splitWords, List.splitOn_eq_singleton h, hne]

/-- A piece between separators holds characters of the text other than the separator. -/
theorem mem_splitOn {sep : Char} {piece : List Char} (h : piece ∈ cs.splitOn sep) :
    sep ∉ piece ∧ piece ⊆ cs := by
  induction cs generalizing piece with
  | nil => simp_all [List.splitOn_nil]
  | cons c cs ih =>
      obtain ⟨first, rest, hsplit⟩ := List.exists_cons_of_ne_nil (List.splitOn_ne_nil sep cs)
      rw [List.splitOn_cons_eq_if_modifyHead, hsplit] at h
      rw [hsplit] at ih
      by_cases hc : c = sep
      · simp only [hc, beq_self_eq_true, if_true, List.mem_cons] at h
        rcases h with rfl | hpiece
        · simp
        · obtain ⟨hsep, hsubset⟩ := ih (List.mem_cons.mpr hpiece)
          exact ⟨hsep, List.subset_cons_of_subset c hsubset⟩
      · simp only [beq_iff_eq, hc, if_false, List.modifyHead_cons, List.mem_cons] at h
        rcases h with rfl | hpiece
        · obtain ⟨hsep, hsubset⟩ := ih List.mem_cons_self
          exact ⟨by simp [hsep, Ne.symm hc], List.cons_subset_cons c hsubset⟩
        · obtain ⟨hsep, hsubset⟩ := ih (List.mem_cons_of_mem _ hpiece)
          exact ⟨hsep, List.subset_cons_of_subset c hsubset⟩

/-- A word of a text holds characters of the text other than the space. -/
theorem mem_splitWords {word : String} (h : word ∈ splitWords cs) :
    IsWord word ∧ word.toList ⊆ cs := by
  obtain ⟨piece, hpiece, rfl⟩ := List.mem_map.mp h
  obtain ⟨hmem, hne⟩ := List.mem_filter.mp hpiece
  obtain ⟨hspace, hsubset⟩ := mem_splitOn hmem
  refine ⟨⟨?_, by simpa using hspace⟩, by simpa using hsubset⟩
  intro hempty
  have : piece = [] := by simpa using congrArg String.toList hempty
  simp [this] at hne

/-- A text that begins with another character than a space begins with its first word. -/
theorem head?_splitWords {c : Char} (h : cs.head? = some c) (hc : c ≠ ' ') :
    ∃ word ∈ (splitWords cs).head?, word.toList.head? = some c := by
  by_cases hspace : ' ' ∈ cs
  · obtain ⟨as, bs, rfl, has⟩ := List.eq_append_cons_of_mem hspace
    cases as with
    | nil =>
        have hspace : ' ' = c := by simpa using h
        exact absurd hspace.symm hc
    | cons a as =>
        rw [splitWords_append_space, splitWords_eq_singleton (List.cons_ne_nil a as) has]
        exact ⟨_, rfl, by simpa using h⟩
  · have hne : cs ≠ [] := by rintro rfl; simp at h
    rw [splitWords_eq_singleton hne hspace]
    exact ⟨_, rfl, by simpa using h⟩

/-- A text that ends with another character than a space ends with its last word. -/
theorem getLast?_splitWords {c : Char} (h : cs.getLast? = some c) (hc : c ≠ ' ') :
    ∃ word ∈ (splitWords cs).getLast?, word.toList.getLast? = some c := by
  by_cases hspace : ' ' ∈ cs
  · obtain ⟨bs, as, hreverse, hbs⟩ := List.eq_append_cons_of_mem (List.mem_reverse.mpr hspace)
    have hcs : cs = as.reverse ++ ' ' :: bs.reverse := by
      simpa using congrArg List.reverse hreverse
    have hne : bs.reverse ≠ [] := by
      intro hnil
      simp [hcs, hnil, hc.symm] at h
    rw [hcs, List.getLast?_append_of_ne_nil _ (List.cons_ne_nil _ _),
      List.getLast?_cons_of_ne_nil hne] at h
    rw [hcs, splitWords_append_space, splitWords_eq_singleton hne (by simpa using hbs)]
    exact ⟨String.ofList bs.reverse, by simp, by simpa using h⟩
  · have hne : cs ≠ [] := by rintro rfl; simp at h
    rw [splitWords_eq_singleton hne hspace]
    exact ⟨_, rfl, by simpa using h⟩

end Splitting

section Joining

variable {ws : List String}

theorem unwords_append {as bs : List String} (has : as ≠ []) (hbs : bs ≠ []) :
    (unwords (as ++ bs)).toList = (unwords as).toList ++ ' ' :: (unwords bs).toList := by
  simp [unwords, String.intercalate_append_of_ne_nil has hbs]

theorem unwords_singleton (w : String) : unwords [w] = w := String.intercalate_singleton

theorem unwords_cons (w : String) (hne : ws ≠ []) :
    (unwords (w :: ws)).toList = w.toList ++ ' ' :: (unwords ws).toList := by
  rw [← List.singleton_append, unwords_append (List.cons_ne_nil w []) hne, unwords_singleton]

/-- A joined text begins with its first word. -/
theorem head?_unwords {w : String} (hw : w ≠ "") (rest : List String) :
    (unwords (w :: rest)).toList.head? = w.toList.head? := by
  by_cases hrest : rest = []
  · rw [hrest, unwords_singleton]
  · rw [unwords_cons w hrest]
    exact List.head?_append_of_ne_nil _ (by simpa)

/-- A joined text ends with its last word. -/
theorem getLast?_unwords {w : String} (hw : w ≠ "") (start : List String) :
    (unwords (start ++ [w])).toList.getLast? = w.toList.getLast? := by
  by_cases hstart : start = []
  · rw [hstart, List.nil_append, unwords_singleton]
  · rw [unwords_append hstart (List.cons_ne_nil w []), unwords_singleton,
      List.getLast?_append_of_ne_nil _ (List.cons_ne_nil _ _),
      List.getLast?_cons_of_ne_nil (by simpa)]

/-- A joined text holds the characters of its words and spaces. -/
theorem mem_unwords {c : Char} (h : c ∈ (unwords ws).toList) :
    c = ' ' ∨ ∃ w ∈ ws, c ∈ w.toList := by
  induction ws with
  | nil => simp [unwords] at h
  | cons w ws ih =>
      by_cases hws : ws = []
      · rw [hws, unwords_singleton] at h
        exact .inr ⟨w, List.mem_cons_self, h⟩
      · rw [unwords_cons w hws, List.mem_append, List.mem_cons] at h
        rcases h with hw | hspace | hrest
        · exact .inr ⟨w, List.mem_cons_self, hw⟩
        · exact .inl hspace
        · refine (ih hrest).imp_right ?_
          rintro ⟨other, hother, hc⟩
          exact ⟨other, List.mem_cons_of_mem w hother, hc⟩

/-- Splitting a joined text at spaces gives its words. -/
theorem splitOn_unwords (hne : ws ≠ []) (h : ∀ w ∈ ws, IsWord w) :
    (unwords ws).toList.splitOn ' ' = ws.map String.toList := by
  have hjoin : (unwords ws).toList = [' '].intercalate (ws.map String.toList) :=
    String.toList_intercalate
  have hspace : ∀ piece ∈ ws.map String.toList, ' ' ∉ piece :=
    List.forall_mem_map.mpr fun w hw => (h w hw).2
  rw [hjoin, List.splitOn_intercalate ' ' hspace (by simpa)]

/-- Words joined by single spaces are the words of the joined text. -/
theorem words_unwords (h : ∀ w ∈ ws, IsWord w) : words (unwords ws) = ws := by
  by_cases hne : ws = []
  · subst hne
    rfl
  · have hfilter : (ws.map String.toList).filter (fun piece => !piece.isEmpty) =
        ws.map String.toList :=
      List.filter_eq_self.mpr (List.forall_mem_map.mpr fun w hw => by simpa using (h w hw).1)
    rw [words, splitWords, splitOn_unwords hne h, hfilter, List.map_map]
    simp [Function.comp_def]

/-- A joined text has no two spaces in a row. -/
theorem not_two_spaces_unwords (h : ∀ w ∈ ws, IsWord w) :
    ¬ [' ', ' '] <:+: (unwords ws).toList := by
  rintro ⟨as, bs, hcut⟩
  have hne : ws ≠ [] := by
    rintro rfl
    simp [unwords] at hcut
  have hsplit : [] ∈ (unwords ws).toList.splitOn ' ' := by
    rw [← hcut, List.append_assoc, List.cons_append, List.splitOn_append_cons_self,
      List.cons_append, List.splitOn_cons_eq_if_modifyHead]
    simp
  rw [splitOn_unwords hne h] at hsplit
  obtain ⟨w, hw, hempty⟩ := List.mem_map.mp hsplit
  exact (h w hw).1 (by simpa using hempty)

/-- A text is its words joined by single spaces, if it has no space at its ends and no two spaces
in a row. -/
theorem unwords_words {text : String} (hne : text ≠ "") (hstart : text.toList.head? ≠ some ' ')
    (hend : text.toList.getLast? ≠ some ' ') (hdouble : ¬ [' ', ' '] <:+: text.toList) :
    unwords (words text) = text := by
  let pieces := (text.toList.splitOn ' ').map String.ofList
  have hjoin : unwords pieces = text := by
    rw [← String.toList_inj, unwords, String.toList_intercalate]
    simp [pieces, Function.comp_def]
  -- An empty piece would show as a space at an end or as two spaces in a row.
  have hpieces : "" ∉ pieces := by
    intro hempty
    obtain ⟨as, bs, hcut⟩ := List.append_of_mem hempty
    rw [hcut] at hjoin
    subst hjoin
    by_cases has : as = [] <;> by_cases hbs : bs = []
    · simp [has, hbs, unwords_singleton] at hne
    · rw [has, List.nil_append, unwords_cons "" hbs] at hstart
      simp at hstart
    · rw [hbs, unwords_append has (List.cons_ne_nil _ _), unwords_singleton] at hend
      simp at hend
    · rw [unwords_append has (List.cons_ne_nil _ _), unwords_cons "" hbs] at hdouble
      exact hdouble ⟨(unwords as).toList, (unwords bs).toList, by simp⟩
  have hwords : words text = pieces := by
    have hfilter : (text.toList.splitOn ' ').filter (fun piece => !piece.isEmpty) =
        text.toList.splitOn ' ' := by
      refine List.filter_eq_self.mpr fun piece hpiece => ?_
      have : piece ≠ [] := by
        rintro rfl
        exact hpieces (List.mem_map.mpr ⟨[], hpiece, rfl⟩)
      simpa using this
    rw [words, splitWords, hfilter]
  rw [hwords, hjoin]

end Joining

end Text
end RelationLang
