import Mathlib.Data.List.DropRight
import RelationLang.Number.Decimal

/-!
# Decimals read back from their text

**Input.**  A text that begins with a decimal and does not go on like one.

**Algorithm.**  The text is cut behind its longest part made of one class of characters: behind the
sign, behind the digits in front of the point, in front of the power of ten, and behind the decimal
as a whole.

**Results.**
* `eq_and_eq_of_stops`: such a cut is unique.
* `fraction_inj`: the text behind the whole part shows the number of places and the value there.
* `scientific_inj`: the digits shown and their power of ten determine the number.
* `text_injective`: different decimals have different texts.
* `text_append_inj`: a decimal at the start of a text is known together with its end.
-/

namespace RelationLang

section Cutting

variable {keep : Char → Bool} {front front' rest rest' : List Char}

/-- The text does not begin with a character of the class. -/
def Stops (keep : Char → Bool) (text : List Char) : Prop := text.head?.any keep = false

theorem Stops.append (hfront : ∀ c ∈ front, keep c = false) (hrest : Stops keep rest) :
    Stops keep (front ++ rest) := by
  cases front with
  | nil => exact hrest
  | cons c front => exact hfront c List.mem_cons_self

theorem takeWhile_append_of_stops (hfront : ∀ c ∈ front, keep c = true)
    (hrest : Stops keep rest) : (front ++ rest).takeWhile keep = front := by
  rw [List.takeWhile_append_of_pos hfront]
  cases rest with
  | nil => simp
  | cons c rest =>
      have hc : keep c = false := hrest
      simp [hc]

/-- There is one way to cut a text behind the characters of a class at its start. -/
theorem eq_and_eq_of_stops (hfront : ∀ c ∈ front, keep c = true)
    (hfront' : ∀ c ∈ front', keep c = true) (hrest : Stops keep rest) (hrest' : Stops keep rest')
    (h : front ++ rest = front' ++ rest') : front = front' ∧ rest = rest' := by
  have heq : front = front' := by
    rw [← takeWhile_append_of_stops hfront hrest, h, takeWhile_append_of_stops hfront' hrest']
  subst heq
  exact ⟨rfl, List.append_cancel_left h⟩

end Cutting

namespace Number
namespace Decimal

section Digits

theorem isDigit_of_mem_toDigits {n : Nat} {c : Char} (h : c ∈ Nat.toDigits 10 n) :
    c.isDigit = true := Nat.isDigit_of_mem_toDigits (by decide) (by decide) h

theorem toDigits_injective : Function.Injective (Nat.toDigits 10) := by
  intro m n h
  calc m
      = Nat.ofDigitChars 10 (Nat.toDigits 10 m) 0 := Nat.ofDigitChars_ten_toDigits.symm
    _ = Nat.ofDigitChars 10 (Nat.toDigits 10 n) 0 := by rw [h]
    _ = n := Nat.ofDigitChars_ten_toDigits

theorem toList_padded (width n : Nat) : (padded width n).toList =
    List.replicate (width - (Nat.toDigits 10 n).length) '0' ++ Nat.toDigits 10 n := by
  simp [padded, ← String.length_toList]

theorem length_padded {width n : Nat} (hwidth : 0 < width) (hn : n < tenTo width) :
    (padded width n).toList.length = width := by
  have hle : (Nat.toDigits 10 n).length ≤ width :=
    (Nat.length_toDigits_le_iff (by decide) hwidth).mpr hn
  rw [toList_padded, List.length_append, List.length_replicate]
  omega

theorem isDigit_of_mem_padded {width n : Nat} {c : Char} (h : c ∈ (padded width n).toList) :
    c.isDigit = true := by
  rw [toList_padded, List.mem_append] at h
  rcases h with h | h
  · rw [List.eq_of_mem_replicate h]
    rfl
  · exact isDigit_of_mem_toDigits h

/-- The zeros in front do not change the number. -/
theorem ofDigitChars_padded (width n : Nat) :
    Nat.ofDigitChars 10 (padded width n).toList 0 = n := by
  rw [toList_padded, Nat.ofDigitChars_append, Nat.ofDigitChars_replicate_zero, Nat.mul_zero,
    Nat.ofDigitChars_ten_toDigits]

end Digits

section Parts

/-- The point and the digits behind it; nothing without places. -/
def fraction (places n : Nat) : List Char :=
  if places = 0 then [] else '.' :: (padded places n).toList

/-- An integer with its sign. -/
def integer (z : Int) : List Char := (minus z).toList ++ Nat.toDigits 10 z.natAbs

/-- The digits that are written of a number whose first digit has the given power of ten. -/
def shown (n : Nat) (power : Int) : List Char :=
  if power < 0 then Nat.toDigits 10 n else dropZeros (Nat.toDigits 10 n)

/-- What is written in front of the power of ten. -/
def front (n places : Nat) : List Char :=
  match power? n places with
  | some power => pointed (shown n power)
  | none => (positional n places).toList

/-- The power of ten, if it is written. -/
def tail (n places : Nat) : List Char :=
  match power? n places with
  | some power => 'e' :: integer power
  | none => []

theorem toList_positional (n places : Nat) : (positional n places).toList =
    Nat.toDigits 10 (n / tenTo places) ++ fraction places (n % tenTo places) := by
  by_cases hplaces : places = 0
  · simp [positional, hplaces, fraction, tenTo]
  · simp [positional, hplaces, fraction]

theorem toList_scientific (n : Nat) (power : Int) :
    (scientific n power).toList = pointed (shown n power) ++ 'e' :: integer power := by
  simp [scientific, shown, integer]

theorem toList_text (d : Decimal) : d.text.toList =
    (minus d.unscaled).toList ++
      (front d.unscaled.natAbs d.places ++ tail d.unscaled.natAbs d.places) := by
  rw [text, front, tail]
  cases power? d.unscaled.natAbs d.places with
  | none => simp
  | some power => simp [toList_scientific]

theorem power?_eq_some_iff {n places : Nat} {power : Int} :
    power? n places = some power ↔
      power = (Nat.toDigits 10 n).length - places - 1 ∧
        (n ≠ 0 ∧ power < -5 ∨ places = 1 ∧ 16 ≤ power) := by
  have hlength : (toString n).length = (Nat.toDigits 10 n).length := by
    simp [← String.length_toList]
  rw [power?, hlength]
  split
  · next h =>
      rw [Option.some.injEq]
      constructor
      · rintro rfl
        exact ⟨rfl, h⟩
      · rintro ⟨rfl, _⟩
        rfl
  · next h =>
      constructor
      · exact nofun
      · rintro ⟨rfl, hsome⟩
        exact absurd hsome h

end Parts

section Classes

/-- The characters in front of the power of ten. -/
def inFront (c : Char) : Bool := c.isDigit || c == '.'

theorem inFront_of_isDigit {c : Char} (h : c.isDigit = true) : inFront c = true := by
  simp [inFront, h]

theorem isMinus_of_mem_minus {z : Int} {c : Char} (h : c ∈ (minus z).toList) :
    (c == '-') = true := by
  rw [minus] at h
  split at h
  · simpa using h
  · simp at h

theorem isMinus_of_inFront {c : Char} (h : inFront c = true) : (c == '-') = false := by
  rw [beq_eq_false_iff_ne]
  rintro rfl
  exact absurd h (by decide)

theorem isDigit_of_mem_dropZeros {digits : List Char} (hdigits : ∀ c ∈ digits, c.isDigit = true)
    {c : Char} (h : c ∈ dropZeros digits) : c.isDigit = true :=
  hdigits c ((List.rdropWhile_prefix (· == '0') digits).subset h)

theorem isDigit_of_mem_shown {n : Nat} {power : Int} {c : Char} (h : c ∈ shown n power) :
    c.isDigit = true := by
  rw [shown] at h
  split at h
  · exact isDigit_of_mem_toDigits h
  · exact isDigit_of_mem_dropZeros (fun _ => isDigit_of_mem_toDigits) h

theorem eq_point_or_mem_of_mem_pointed {digits : List Char} {c : Char} (h : c ∈ pointed digits) :
    c = '.' ∨ c ∈ digits := by
  match digits, h with
  | _ :: _ :: _, h =>
      simp only [pointed, List.mem_cons] at h ⊢
      exact or_left_comm.mp h
  | [], h => exact .inr h
  | [_], h => exact .inr h

theorem inFront_of_mem_fraction {places n : Nat} {c : Char} (h : c ∈ fraction places n) :
    inFront c = true := by
  rw [fraction] at h
  split at h
  · exact absurd h List.not_mem_nil
  · rcases List.mem_cons.mp h with rfl | h
    · rfl
    · exact inFront_of_isDigit (isDigit_of_mem_padded h)

theorem inFront_of_mem_front {n places : Nat} {c : Char} (h : c ∈ front n places) :
    inFront c = true := by
  rw [front] at h
  split at h
  · rcases eq_point_or_mem_of_mem_pointed h with rfl | h
    · rfl
    · exact inFront_of_isDigit (isDigit_of_mem_shown h)
  · rw [toList_positional, List.mem_append] at h
    rcases h with h | h
    · exact inFront_of_isDigit (isDigit_of_mem_toDigits h)
    · exact inFront_of_mem_fraction h

theorem stops_tail (n places : Nat) : Stops inFront (tail n places) := by
  rw [tail]
  split <;> rfl

theorem stops_toDigits (n : Nat) : Stops (· == '-') (Nat.toDigits 10 n) := by
  have hdigits : ∀ c ∈ Nat.toDigits 10 n, (c == '-') = false := fun _ hc =>
    isMinus_of_inFront (inFront_of_isDigit (isDigit_of_mem_toDigits hc))
  simpa using Stops.append hdigits (show Stops (· == '-') [] from rfl)

theorem stops_front_append_tail (n places : Nat) :
    Stops (· == '-') (front n places ++ tail n places) := by
  refine Stops.append (fun _ hc => isMinus_of_inFront (inFront_of_mem_front hc)) ?_
  rw [tail]
  split <;> rfl

theorem stops_fraction (places n : Nat) : Stops Char.isDigit (fraction places n) := by
  rw [fraction]
  split <;> rfl

end Classes

section Reading

theorem nonneg_iff_of_minus {z w : Int} (h : (minus z).toList = (minus w).toList) :
    0 ≤ z ↔ 0 ≤ w := by
  have hnil : ∀ v : Int, (minus v).toList = [] ↔ 0 ≤ v := by
    intro v
    rw [minus]
    split <;> simp <;> omega
  rw [← hnil z, h, hnil w]

theorem integer_injective : Function.Injective integer := by
  intro z w h
  obtain ⟨hsign, hdigits⟩ := eq_and_eq_of_stops (fun _ => isMinus_of_mem_minus)
    (fun _ => isMinus_of_mem_minus) (stops_toDigits _) (stops_toDigits _) h
  have hnonneg := nonneg_iff_of_minus hsign
  have habs := toDigits_injective hdigits
  omega

theorem filter_pointed {digits : List Char} (hdigits : ∀ c ∈ digits, c.isDigit = true) :
    (pointed digits).filter Char.isDigit = digits := by
  match digits, hdigits with
  | [], _ => rfl
  | [c], hdigits => simpa [pointed] using hdigits
  | first :: second :: rest, hdigits =>
      simp only [List.forall_mem_cons] at hdigits
      have hrest : rest.filter Char.isDigit = rest := List.filter_eq_self.mpr hdigits.2.2
      have hpoint : Char.isDigit '.' = false := rfl
      simp [pointed, hdigits, hrest, hpoint]

/-- The zeros that have been dropped are known by how many there are. -/
theorem dropZeros_append (digits : List Char) : digits =
    dropZeros digits ++ List.replicate (digits.length - (dropZeros digits).length) '0' := by
  have hsplit : digits = dropZeros digits ++ digits.rtakeWhile (· == '0') :=
    List.rdropWhile_append_rtakeWhile.symm
  have hzeros : digits.rtakeWhile (· == '0') =
      List.replicate (digits.rtakeWhile (· == '0')).length '0' :=
    List.eq_replicate_of_mem fun c hc => by simpa using List.mem_rtakeWhile_imp hc
  have hlength := congrArg List.length hsplit
  rw [List.length_append] at hlength
  rw [show digits.length - (dropZeros digits).length =
    (digits.rtakeWhile (· == '0')).length by omega, ← hzeros, ← hsplit]

/-- The text behind the whole part shows the number of places and the value there. -/
theorem fraction_inj {places places' n n' : Nat} (hn : n < tenTo places) (hn' : n' < tenTo places')
    (h : fraction places n = fraction places' n') : places = places' ∧ n = n' := by
  rcases Nat.eq_zero_or_pos places with hzero | hpos <;>
    rcases Nat.eq_zero_or_pos places' with hzero' | hpos'
  · subst hzero hzero'
    have hone : tenTo 0 = 1 := rfl
    omega
  · simp [fraction, hzero, Nat.ne_of_gt hpos'] at h
  · simp [fraction, hzero', Nat.ne_of_gt hpos] at h
  · rw [fraction, fraction, if_neg (Nat.ne_of_gt hpos), if_neg (Nat.ne_of_gt hpos')] at h
    have hdigits := (List.cons.inj h).2
    constructor
    · rw [← length_padded hpos hn, hdigits, length_padded hpos' hn']
    · rw [← ofDigitChars_padded places n, hdigits, ofDigitChars_padded]

variable {n n' places places' : Nat}

theorem positional_inj (h : (positional n places).toList = (positional n' places').toList) :
    n = n' ∧ places = places' := by
  rw [toList_positional, toList_positional] at h
  obtain ⟨hwhole, hfraction⟩ := eq_and_eq_of_stops (fun _ => isDigit_of_mem_toDigits)
    (fun _ => isDigit_of_mem_toDigits) (stops_fraction _ _) (stops_fraction _ _) h
  have hscale : ∀ places, 0 < tenTo places := fun places => Nat.pow_pos (by decide)
  obtain ⟨hplaces, hbehind⟩ :=
    fraction_inj (Nat.mod_lt _ (hscale _)) (Nat.mod_lt _ (hscale _)) hfraction
  refine ⟨?_, hplaces⟩
  rw [← Nat.div_add_mod n, toDigits_injective hwhole, hbehind, hplaces, Nat.div_add_mod]

/-- The digits shown and their power of ten determine the number and its places. -/
theorem scientific_inj {power : Int} (hpower : power? n places = some power)
    (hpower' : power? n' places' = some power) (h : shown n power = shown n' power) :
    n = n' ∧ places = places' := by
  obtain ⟨hlength, hform⟩ := power?_eq_some_iff.mp hpower
  obtain ⟨hlength', hform'⟩ := power?_eq_some_iff.mp hpower'
  by_cases hsmall : power < 0
  · rw [shown, shown, if_pos hsmall, if_pos hsmall] at h
    have hn := toDigits_injective h
    exact ⟨hn, by rw [h] at hlength; omega⟩
  · -- With one place for both the power of ten shows how many digits there are.
    have hplaces : places = 1 ∧ places' = 1 := by omega
    have hdigits : Nat.toDigits 10 n = Nat.toDigits 10 n' := by
      rw [shown, shown, if_neg hsmall, if_neg hsmall] at h
      rw [dropZeros_append (Nat.toDigits 10 n), dropZeros_append (Nat.toDigits 10 n'), h,
        show (Nat.toDigits 10 n).length = (Nat.toDigits 10 n').length by omega]
    exact ⟨toDigits_injective hdigits, hplaces.1.trans hplaces.2.symm⟩

theorem front_tail_inj (hfront : front n places = front n' places')
    (htail : tail n places = tail n' places') : n = n' ∧ places = places' := by
  rw [front, front] at hfront
  rw [tail, tail] at htail
  cases hpower : power? n places with
  | none =>
      cases hpower' : power? n' places' with
      | none =>
          rw [hpower, hpower'] at hfront
          exact positional_inj hfront
      | some power' => simp [hpower, hpower'] at htail
  | some power =>
      cases hpower' : power? n' places' with
      | none => simp [hpower, hpower'] at htail
      | some power' =>
          rw [hpower, hpower'] at hfront htail
          obtain rfl := integer_injective (List.cons.inj htail).2
          have hshown := congrArg (List.filter Char.isDigit) hfront
          rw [filter_pointed fun _ => isDigit_of_mem_shown,
            filter_pointed fun _ => isDigit_of_mem_shown] at hshown
          exact scientific_inj hpower hpower' hshown

end Reading

/-- Different decimals have different texts. -/
theorem text_injective : Function.Injective text := by
  intro d e h
  have htext := congrArg String.toList h
  rw [toList_text, toList_text] at htext
  obtain ⟨hsign, hbody⟩ := eq_and_eq_of_stops (fun _ => isMinus_of_mem_minus)
    (fun _ => isMinus_of_mem_minus) (stops_front_append_tail _ _) (stops_front_append_tail _ _) htext
  obtain ⟨hfront, htail⟩ := eq_and_eq_of_stops (fun _ => inFront_of_mem_front)
    (fun _ => inFront_of_mem_front) (stops_tail _ _) (stops_tail _ _) hbody
  obtain ⟨habs, hplaces⟩ := front_tail_inj hfront htail
  have hnonneg := nonneg_iff_of_minus hsign
  have hunscaled : d.unscaled = e.unscaled := by omega
  cases d
  cases e
  cases hunscaled
  cases hplaces
  rfl

/-- Just below `1e-5` and from `1e16` on the power of ten is written. -/
example : [⟨1, 5⟩, ⟨762939453125, 17⟩, ⟨12345678901234560, 1⟩, ⟨123456789012345600, 1⟩].map text =
    ["0.00001", "7.62939453125e-6", "1234567890123456.0", "1.234567890123456e16"] := by decide

/-- The characters that a decimal is written with. -/
def inText (c : Char) : Bool := inFront c || c == '-' || c == 'e'

theorem inText_of_mem_integer {z : Int} {c : Char} (h : c ∈ integer z) : inText c = true := by
  rw [integer, List.mem_append] at h
  rcases h with h | h
  · simp [inText, isMinus_of_mem_minus h]
  · simp [inText, inFront_of_isDigit (isDigit_of_mem_toDigits h)]

theorem inText_of_mem_text {d : Decimal} {c : Char} (h : c ∈ d.text.toList) : inText c = true := by
  rw [toList_text, List.mem_append, List.mem_append] at h
  rcases h with h | h | h
  · simp [inText, isMinus_of_mem_minus h]
  · simp [inText, inFront_of_mem_front h]
  · rw [tail] at h
    split at h
    · rcases List.mem_cons.mp h with rfl | h
      · rfl
      · exact inText_of_mem_integer h
    · exact absurd h List.not_mem_nil

theorem toList_text_ne_nil (d : Decimal) : d.text.toList ≠ [] := by
  rw [toList_text, front, tail]
  split
  · simp
  · rw [toList_positional]
    exact List.append_ne_nil_of_right_ne_nil _ (List.append_ne_nil_of_left_ne_nil
      (List.append_ne_nil_of_left_ne_nil Nat.toDigits_ne_nil _) _)

/-- A decimal at the start of a text is known together with its end. -/
theorem text_append_inj {d e : Decimal} {rest rest' : List Char} (hrest : Stops inText rest)
    (hrest' : Stops inText rest') (h : d.text.toList ++ rest = e.text.toList ++ rest') :
    d = e ∧ rest = rest' := by
  obtain ⟨htext, hrest⟩ := eq_and_eq_of_stops (fun _ => inText_of_mem_text)
    (fun _ => inText_of_mem_text) hrest hrest' h
  exact ⟨text_injective (String.toList_inj.mp htext), hrest⟩

end Decimal
end Number
end RelationLang
