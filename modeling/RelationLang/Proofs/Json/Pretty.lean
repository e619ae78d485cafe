import Mathlib.Tactic.SplitIfs
import RelationLang.Json.Pretty
import RelationLang.Number.Numeral
import RelationLang.Proofs.Number.Decimal

/-!
# JSON values read back from their text

Indented text can be cut behind the value that it begins with in one way only. Nothing that stands
between quotation marks is taken for the end of a string or for a bracket.

**Input.**  A text that begins with a value and does not go on like a decimal.

**Algorithm.**  The first character shows the sort of the value. Behind a string the text is cut
at the first quotation mark that is not escaped, and behind an item of a container at the comma or
the line end that follows it.

**Results.**
* `unescape_escape_append`: an escaped character is read back.
* `quote_append_inj`: a string is known together with its end.
* `enclose_append_inj`: so is a container, if its items are.
* `told_prettyAt`: so is every value, at any depth.
* `pretty_injective`: different values have different texts.
-/

namespace RelationLang
namespace Json

open Number (ofDigits?)
open Number.Decimal (inText)

variable {α : Type} {rest rest' : List Char}

section Definitions

/-- A value is known, together with the place where it ends, from every text that begins with the
value as it is written and does not go on like a decimal. -/
def Told (write : α → String) (value : α) : Prop :=
  ∀ ⦃other : α⦄ ⦃rest rest' : List Char⦄, Stops inText rest → Stops inText rest' →
    (write value).toList ++ rest = (write other).toList ++ rest' → value = other ∧ rest = rest'

/-- Reads a character back from the text between quotation marks, if the text goes on there. -/
def unescape : List Char → Option (Char × List Char)
  | [] => none
  | '"' :: _ => none
  | '\\' :: 'n' :: rest => some ('\n', rest)
  | '\\' :: 'r' :: rest => some ('\r', rest)
  | '\\' :: 't' :: rest => some ('\t', rest)
  | '\\' :: 'b' :: rest => some (Char.ofNat 8, rest)
  | '\\' :: 'f' :: rest => some (Char.ofNat 12, rest)
  | '\\' :: 'u' :: a :: b :: c :: d :: rest =>
    (ofDigits? 16 [a, b, c, d]).map fun code => (Char.ofNat code, rest)
  | '\\' :: c :: rest => some (c, rest)
  | c :: rest => some (c, rest)

/-- The sorts of values that the first character tells apart. -/
inductive Shape where
  | null
  | bool
  | number
  | string
  | array
  | object

def shape : Json → Shape
  | .null => .null
  | .bool _ => .bool
  | .number _ => .number
  | .string _ => .string
  | .array _ => .array
  | .object _ => .object

/-- The sort of the values that begin with a character. -/
def Shape.ofFirst : Char → Shape
  | 'n' => .null
  | 't' => .bool
  | 'f' => .bool
  | '"' => .string
  | '[' => .array
  | '\x7b' => .object
  | _ => .number

end Definitions

section Strings

theorem ofDigits?_hex4 : ∀ code < 32, ofDigits? 16 (hex4 code) = some code := by decide

/-- An escaped character is read back. -/
theorem unescape_escape_append (c : Char) (rest : List Char) :
    unescape (escape c ++ rest) = some (c, rest) := by
  have hread : ∀ {code : Nat}, c.toNat = code → c = Char.ofNat code := by
    rintro code rfl
    exact (Char.ofNat_toNat c).symm
  unfold escape
  split_ifs with hquote hback hline hreturn htab h8 h12 hcontrol
  · rw [hquote]
    rfl
  · rw [hback]
    rfl
  · rw [hline]
    rfl
  · rw [hreturn]
    rfl
  · rw [htab]
    rfl
  · rw [hread h8]
    rfl
  · rw [hread h12]
    rfl
  · calc unescape (['\\', 'u'] ++ hex4 c.toNat ++ rest)
        = (ofDigits? 16 (hex4 c.toNat)).map fun code => (Char.ofNat code, rest) := rfl
      _ = some (c, rest) := by
          rw [ofDigits?_hex4 c.toNat hcontrol, Option.map_some, Char.ofNat_toNat]
  · simp [unescape, hback]

/-- The text between quotation marks ends at the first one that is not escaped. -/
theorem escaped_append_inj {cs ds : List Char}
    (h : cs.flatMap escape ++ '"' :: rest = ds.flatMap escape ++ '"' :: rest') :
    cs = ds ∧ rest = rest' := by
  have hend : ∀ tail, unescape ('"' :: tail) = none := fun _ => rfl
  -- Both texts are read back character by character; nothing is read where one of them ends.
  induction cs generalizing ds with
  | nil =>
      cases ds with
      | nil => exact ⟨rfl, (List.cons.inj h).2⟩
      | cons d ds =>
          rw [List.flatMap_cons, List.append_assoc] at h
          have hread := congrArg unescape h
          rw [unescape_escape_append] at hread
          exact absurd hread (by simp [hend])
  | cons c cs ih =>
      rw [List.flatMap_cons, List.append_assoc] at h
      have hread := congrArg unescape h
      rw [unescape_escape_append] at hread
      cases ds with
      | nil => exact absurd hread (by simp [hend])
      | cons d ds =>
          rw [List.flatMap_cons, List.append_assoc, unescape_escape_append] at hread
          obtain ⟨rfl, htail⟩ := Prod.mk.inj (Option.some.inj hread)
          obtain ⟨rfl, hrest⟩ := ih htail
          exact ⟨rfl, hrest⟩

/-- A string is known together with its end, whatever the text goes on with. -/
theorem quote_append_inj {text text' : String}
    (h : (quote text).toList ++ rest = (quote text').toList ++ rest') :
    text = text' ∧ rest = rest' := by
  simp only [quote, String.toList_ofList, List.append_assoc, List.singleton_append] at h
  obtain ⟨htext, hrest⟩ := escaped_append_inj (List.cons.inj h).2
  exact ⟨String.toList_inj.mp htext, hrest⟩

end Strings

section Containers

variable {write : α → String} {depth : Nat}

theorem prettyItems_eq_map (items : List Json) :
    prettyItems depth items = items.map (prettyAt depth) := by
  induction items with
  | nil => rfl
  | cons item rest ih => rw [prettyItems, ih, List.map_cons]

theorem prettyFields_eq_map (fields : List (String × Json)) :
    prettyFields depth fields = fields.map (prettyField depth) := by
  induction fields with
  | nil => rfl
  | cons field rest ih => rw [prettyFields, ih, List.map_cons]

/-- The parts of a container behind the first one: each on a new line behind a comma. -/
def following (depth : Nat) (parts : List String) : List Char :=
  parts.flatMap fun part => ',' :: ((newline (depth + 1)).toList ++ part.toList)

theorem toList_intercalate_cons (gap part : String) (parts : List String) :
    (gap.intercalate (part :: parts)).toList =
      part.toList ++ parts.flatMap fun part => gap.toList ++ part.toList := by
  induction parts generalizing part with
  | nil => simp
  | cons next parts ih =>
      rw [String.intercalate_cons_cons, String.toList_append, String.toList_append, ih,
        List.flatMap_cons, List.append_assoc, List.append_assoc]

theorem toList_enclose_cons (opening closing part : String) (parts : List String) :
    (enclose opening closing depth (part :: parts)).toList =
      opening.toList ++ ((newline (depth + 1)).toList ++ (part.toList ++
        (following depth parts ++ ((newline depth).toList ++ closing.toList)))) := by
  simp only [enclose, String.toList_append, toList_intercalate_cons, List.append_assoc]
  rfl

theorem toList_newline (depth : Nat) :
    (newline depth).toList = '\n' :: List.replicate (2 * depth) ' ' := String.toList_ofList

/-- What follows an item is not a part of it. -/
theorem stops_following (parts : List String) (tail : List Char) :
    Stops inText (following depth parts ++ ((newline depth).toList ++ tail)) := by
  cases parts with
  | nil =>
      rw [toList_newline]
      rfl
  | cons part parts => rfl

/-- The items behind the first one are known, up to the line end behind the last one. -/
theorem following_append_inj {values others : List α} (h : ∀ value ∈ values, Told write value)
    {tail tail' : List Char}
    (heq : following depth (values.map write) ++ ((newline depth).toList ++ tail) =
      following depth (others.map write) ++ ((newline depth).toList ++ tail')) :
    values = others ∧ tail = tail' := by
  induction values generalizing others with
  | nil =>
      cases others with
      | nil => exact ⟨rfl, List.append_cancel_left heq⟩
      | cons other others => simp [following, toList_newline] at heq
  | cons value values ih =>
      cases others with
      | nil => simp [following, toList_newline] at heq
      | cons other others =>
          simp only [following, List.map_cons, List.flatMap_cons, List.cons_append,
            List.append_assoc] at heq
          have hitem := List.append_cancel_left (List.cons.inj heq).2
          obtain ⟨rfl, hbehind⟩ := h value List.mem_cons_self (stops_following _ _)
            (stops_following _ _) hitem
          obtain ⟨rfl, htail⟩ := ih (fun v hv => h v (List.mem_cons_of_mem _ hv)) hbehind
          exact ⟨rfl, htail⟩

/-- A container is known together with its end if its items are. -/
theorem enclose_append_inj {opening closing : String} (mark : Char) (hmark : mark ≠ '\n')
    (hclosing : closing.toList = [mark]) {values others : List α}
    (h : ∀ value ∈ values, Told write value)
    (heq : (enclose opening closing depth (values.map write)).toList ++ rest =
      (enclose opening closing depth (others.map write)).toList ++ rest') :
    values = others ∧ rest = rest' := by
  cases values with
  | nil =>
      cases others with
      | nil => exact ⟨rfl, List.append_cancel_left heq⟩
      | cons other others =>
          rw [List.map_cons, toList_enclose_cons, toList_newline] at heq
          simp [enclose, hclosing, hmark] at heq
  | cons value values =>
      cases others with
      | nil =>
          rw [List.map_cons, toList_enclose_cons, toList_newline] at heq
          simp [enclose, hclosing, hmark.symm] at heq
      | cons other others =>
          simp only [List.map_cons, toList_enclose_cons, List.append_assoc] at heq
          have hitem := List.append_cancel_left (List.append_cancel_left heq)
          obtain ⟨rfl, hbehind⟩ := h value List.mem_cons_self (stops_following _ _)
            (stops_following _ _) hitem
          obtain ⟨rfl, htail⟩ :=
            following_append_inj (fun v hv => h v (List.mem_cons_of_mem _ hv)) hbehind
          exact ⟨rfl, List.append_cancel_left htail⟩

/-- A field is known if its value is. -/
theorem told_prettyField {name : String} {value : Json} (h : Told (prettyAt depth) value) :
    Told (prettyField depth) (name, value) := by
  rintro ⟨name', value'⟩ rest rest' hrest hrest' heq
  simp only [prettyField, String.toList_append, List.append_assoc] at heq
  obtain ⟨rfl, hbehind⟩ := quote_append_inj heq
  obtain ⟨rfl, htail⟩ := h hrest hrest' (List.append_cancel_left hbehind)
  exact ⟨rfl, htail⟩

end Containers

section Values

/-- Values from the inside out: a container comes after its items. -/
theorem inductionOn {motive : Json → Prop} (value : Json) (null : motive .null)
    (bool : ∀ truth, motive (.bool truth)) (number : ∀ value, motive (.number value))
    (string : ∀ text, motive (.string text))
    (array : ∀ items, (∀ item ∈ items, motive item) → motive (.array items))
    (object : ∀ fields, (∀ field ∈ fields, motive field.2) → motive (.object fields)) :
    motive value :=
  @Json.rec motive (fun items => ∀ item ∈ items, motive item)
    (fun fields => ∀ field ∈ fields, motive field.2) (fun field => motive field.2)
    null bool number string array object
    (fun _ h => absurd h List.not_mem_nil)
    (fun _ _ hitem hitems => List.forall_mem_cons.mpr ⟨hitem, hitems⟩)
    (fun _ h => absurd h List.not_mem_nil)
    (fun _ _ hfield hfields => List.forall_mem_cons.mpr ⟨hfield, hfields⟩)
    (fun _ _ hvalue => hvalue) value

theorem exists_enclose (opening closing : String) (depth : Nat) (parts : List String) :
    ∃ tail, (enclose opening closing depth parts).toList = opening.toList ++ tail := by
  cases parts with
  | nil => exact ⟨closing.toList, String.toList_append⟩
  | cons part parts => exact ⟨_, toList_enclose_cons opening closing part parts⟩

theorem ofFirst_of_inText {c : Char} (h : inText c = true) : Shape.ofFirst c = .number := by
  unfold Shape.ofFirst
  split <;> first | rfl | exact absurd h (by decide)

/-- The first character shows the sort of the value. -/
theorem exists_first (depth : Nat) (value : Json) :
    ∃ c tail, (prettyAt depth value).toList = c :: tail ∧ Shape.ofFirst c = value.shape := by
  cases value with
  | null => exact ⟨'n', ['u', 'l', 'l'], by simp [prettyAt], rfl⟩
  | bool truth =>
      cases truth
      · exact ⟨'f', ['a', 'l', 's', 'e'], by simp [prettyAt], rfl⟩
      · exact ⟨'t', ['r', 'u', 'e'], by simp [prettyAt], rfl⟩
  | number value =>
      cases htext : value.text.toList with
      | nil => exact absurd htext value.toList_text_ne_nil
      | cons c tail =>
          have hc : inText c = true :=
            Number.Decimal.inText_of_mem_text (htext ▸ List.mem_cons_self)
          exact ⟨c, tail, htext, ofFirst_of_inText hc⟩
  | string text => exact ⟨'"', _, String.toList_ofList, rfl⟩
  | array items =>
      obtain ⟨tail, htail⟩ := exists_enclose "[" "]" depth (prettyItems (depth + 1) items)
      exact ⟨'[', tail, htail, rfl⟩
  | object fields =>
      obtain ⟨tail, htail⟩ := exists_enclose "\x7b" "\x7d" depth (prettyFields (depth + 1) fields)
      exact ⟨'\x7b', tail, htail, rfl⟩

theorem shape_eq_of_append {depth : Nat} {value other : Json}
    (h : (prettyAt depth value).toList ++ rest = (prettyAt depth other).toList ++ rest') :
    value.shape = other.shape := by
  obtain ⟨c, tail, hvalue, hshape⟩ := exists_first depth value
  obtain ⟨c', tail', hother, hshape'⟩ := exists_first depth other
  rw [hvalue, hother] at h
  obtain rfl := (List.cons.inj h).1
  exact hshape.symm.trans hshape'

/-- Every value is known together with its end. -/
theorem told_prettyAt (value : Json) : ∀ depth, Told (prettyAt depth) value := by
  -- In each case the other value is of the same sort, since it begins with the same character.
  induction value using inductionOn with
  | null =>
      intro depth other rest rest' _ _ h
      cases other with
      | null => exact ⟨rfl, List.append_cancel_left h⟩
      | _ => cases shape_eq_of_append h
  | bool truth =>
      intro depth other rest rest' _ _ h
      cases other with
      | bool truth' =>
          cases truth <;> cases truth'
          · exact ⟨rfl, List.append_cancel_left h⟩
          · simp [prettyAt] at h
          · simp [prettyAt] at h
          · exact ⟨rfl, List.append_cancel_left h⟩
      | _ => cases shape_eq_of_append h
  | number value =>
      intro depth other rest rest' hrest hrest' h
      cases other with
      | number value' =>
          simp only [prettyAt] at h
          obtain ⟨rfl, htail⟩ := Number.Decimal.text_append_inj hrest hrest' h
          exact ⟨rfl, htail⟩
      | _ => cases shape_eq_of_append h
  | string text =>
      intro depth other rest rest' _ _ h
      cases other with
      | string text' =>
          simp only [prettyAt] at h
          obtain ⟨rfl, htail⟩ := quote_append_inj h
          exact ⟨rfl, htail⟩
      | _ => cases shape_eq_of_append h
  | array items ih =>
      intro depth other rest rest' _ _ h
      cases other with
      | array items' =>
          simp only [prettyAt, prettyItems_eq_map] at h
          obtain ⟨rfl, htail⟩ :=
            enclose_append_inj ']' (by decide) rfl (fun item hitem => ih item hitem _) h
          exact ⟨rfl, htail⟩
      | _ => cases shape_eq_of_append h
  | object fields ih =>
      intro depth other rest rest' _ _ h
      cases other with
      | object fields' =>
          simp only [prettyAt, prettyFields_eq_map] at h
          obtain ⟨rfl, htail⟩ := enclose_append_inj '\x7d' (by decide) rfl
            (fun field hfield => told_prettyField (ih field hfield _)) h
          exact ⟨rfl, htail⟩
      | _ => cases shape_eq_of_append h

/-- Different values have different texts. -/
theorem pretty_injective : Function.Injective pretty := by
  intro value other h
  have hend : Stops inText [] := rfl
  exact (told_prettyAt value 0 hend hend (congrArg (fun text => text.toList ++ []) h)).1

end Values

end Json
end RelationLang
