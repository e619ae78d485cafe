import RelationLang.Proofs.Interpreter.Ending
import RelationLang.Proofs.Interpreter.Names

/-!
# What a line of standard words does

**Input.**  A line, the block under it, and a store, without a limit on continuations.

**Algorithm.**  As long as the line begins with a test that succeeds, and there is something behind
the test, the test is taken off. What remains does one thing: it names concepts, emits lines,
records a fact, fails, or does nothing at all.

**Results.**
* `Leftmost.unique`: a line has at most one leftmost reserved word.
* `lineEnds_of_does`: how a line ends that does one of these things.
* `exists_does`, `Does.unique`: a line that does not begin with a test to be taken off does one of
  these things, and no other.
* `exists_lineEnds_of_standard`: a line ends as what remains of it ends, with one invocation and one
  continuation more for each test.
* `guarded_line`: all of it.
-/

namespace RelationLang

open Program Text

section Definitions

/-- The leftmost reserved word of a line, and what stands around it. -/
structure Leftmost (tokens before : List Token) (verb : Verb) (after : List Token) : Prop where
  split : tokens = before ++ verb.word :: after
  free : ∀ token ∈ before, ¬ Reserved token

/-- The group of three tokens with a number is a test that succeeds, and there is something behind
it. -/
def Graph.GuardHolds (g : Graph) (tokens : List Token) (number : Nat) : Prop :=
  ∃ (relation : Relation) (subject object : Token),
    tokens[3 * number]? = some relation.word ∧
      tokens[3 * number + 1]? = some subject ∧
      tokens[3 * number + 2]? = some object ∧
      3 * number + 3 < tokens.length ∧
      g.state? ⟨subject, object⟩ = some relation.truth

/-- What remains of a line when some number of tests are taken off. The block stays with the whole
line. -/
def Clause.skip (clause : Clause) (count : Nat) : Clause where
  tokens := clause.tokens.drop (3 * count)
  block := if count = 0 then clause.block else none

/-- The invocation of the leftmost reserved word of a line, if there is one. -/
def Clause.invocation (clause : Clause) : List Call :=
  ((clause.tokens.find? fun token => decide (Reserved token)).map (⟨·, clause⟩)).toList

/-- What a line can do. -/
inductive Deed where
  | name (names : List Token)
  | emit (lines : List String)
  | record (fact : Fact)
  | nothing
  | misuse (error : Error)
deriving DecidableEq, Repr

namespace Deed

def error? : Deed → Option Error
  | .misuse error => some error
  | _ => none

/-- What the deed makes of a store. -/
def Effect {μ : Type} (store : Store μ) : Deed → Store μ → Prop
  | .name names, after => store.Alters (Graph.AtomsStored names) after
  | .emit lines, after => store.Says lines after
  | .record fact, after => store.Alters (Graph.FactStored fact) after
  | .nothing, after => after = store
  | .misuse _, after => after = store

/-- The deed of a line whose leftmost reserved word belongs to a verb. -/
def ofVerb (clause : Clause) : Verb → Deed
  | .say =>
      match sayLines clause with
      | [] => .misuse (.usage "say" "say <words...>")
      | lines => .emit lines
  | .relation relation =>
      match relation.use clause.tokens with
      | .guard _ _ => .nothing
      | .assertion pair => .record ⟨pair, relation.truth, relation.kind⟩
      | .misuse => .misuse relation.usage

end Deed

/-- What a line does, by its leftmost reserved word and the place of this word. -/
inductive Does (g : Graph) (clause : Clause) : Deed → Prop
  | name :
      (∀ token ∈ clause.tokens, ¬ Reserved token) →
      Does g clause (.name clause.tokens)
  | emit {before after : List Token} {lines : List String} :
      Leftmost clause.tokens before .say after →
      lines = (if after = [] then [] else [unwords after]) ++ clause.block.getD [] →
      lines ≠ [] →
      Does g clause (.emit lines)
  | record {relation : Relation} {subject object : Token} :
      Leftmost clause.tokens [subject] (.relation relation) [object] →
      Does g clause (.record ⟨⟨subject, object⟩, relation.truth, relation.kind⟩)
  | nothing {relation : Relation} {subject object : Token} {rest : List Token} :
      Leftmost clause.tokens [] (.relation relation) (subject :: object :: rest) →
      (rest = [] ∨ g.state? ⟨subject, object⟩ ≠ some relation.truth) →
      Does g clause .nothing
  | silent {before : List Token} :
      Leftmost clause.tokens before .say [] →
      clause.block.getD [] = [] →
      Does g clause (.misuse (.usage "say" "say <words...>"))
  | misplaced {relation : Relation} {before after : List Token} :
      Leftmost clause.tokens before (.relation relation) after →
      (before = [] → after.length < 2) →
      (before.length = 1 → after.length ≠ 1) →
      Does g clause (.misuse relation.usage)

end Definitions

section Leading

variable {tokens before after : List Token} {verb : Verb}

theorem reserved_of_verb (verb : Verb) : Reserved verb.word := by
  rw [Reserved, Verb.ofWord?_word]
  rfl

theorem word_injective {verb verb' : Verb} (h : verb.word = verb'.word) : verb = verb' := by
  have hfound := Verb.ofWord?_word verb
  rw [h, Verb.ofWord?_word] at hfound
  exact (Option.some.inj hfound).symm

/-- A line has a leftmost reserved word, or none at all. -/
theorem free_or_leftmost (tokens : List Token) :
    (∀ token ∈ tokens, ¬ Reserved token) ∨
      ∃ before verb after, Leftmost tokens before verb after := by
  induction tokens with
  | nil => exact .inl (by simp)
  | cons token rest ih =>
      by_cases hreserved : Reserved token
      · obtain ⟨verb, hverb⟩ := Option.isSome_iff_exists.mp hreserved
        obtain rfl := word_of_ofWord? hverb
        exact .inr ⟨[], verb, rest, rfl, by simp⟩
      · rcases ih with hfree | ⟨before, verb, after, rfl, hfree⟩
        · exact .inl (List.forall_mem_cons.mpr ⟨hreserved, hfree⟩)
        · exact .inr ⟨token :: before, verb, after, rfl,
            List.forall_mem_cons.mpr ⟨hreserved, hfree⟩⟩

theorem Leftmost.takeWhile (h : Leftmost tokens before verb after) :
    tokens.takeWhile (fun token => !decide (Reserved token)) = before := by
  rw [h.split, List.takeWhile_append_of_pos (by simpa using h.free),
    List.takeWhile_cons_of_neg (by simp [reserved_of_verb]), List.append_nil]

/-- A line has at most one leftmost reserved word. -/
theorem Leftmost.unique {before' after' : List Token} {verb' : Verb}
    (h : Leftmost tokens before verb after) (h' : Leftmost tokens before' verb' after') :
    before = before' ∧ verb = verb' ∧ after = after' := by
  have hbefore : before = before' := h.takeWhile.symm.trans h'.takeWhile
  subst hbefore
  have hrest := List.append_cancel_left (h.split.symm.trans h'.split)
  obtain ⟨hword, hafter⟩ := List.cons.inj hrest
  exact ⟨rfl, word_injective hword, hafter⟩

theorem Leftmost.not_free (h : Leftmost tokens before verb after) :
    ¬ ∀ token ∈ tokens, ¬ Reserved token := by
  intro hfree
  exact hfree verb.word (by simp [h.split]) (reserved_of_verb verb)

theorem Leftmost.ne_word (h : Leftmost tokens before verb after) :
    ∀ token ∈ before, token ≠ verb.word := by
  rintro _ htoken rfl
  exact h.free _ htoken (reserved_of_verb verb)

/-- The place of the leftmost reserved word is the first place of this word. -/
theorem Leftmost.findIdx? (h : Leftmost tokens before verb after) :
    tokens.findIdx? (· == verb.word) = some before.length := by
  have hnone : before.findIdx? (· == verb.word) = none :=
    List.findIdx?_eq_none_iff.mpr fun token htoken => by simp [h.ne_word token htoken]
  simp [h.split, List.findIdx?_append, hnone, List.findIdx?_cons]

theorem Leftmost.tokensAfter_eq (h : Leftmost tokens before verb after) :
    tokensAfter verb.word tokens = after := by
  rw [tokensAfter, h.split,
    List.dropWhile_append_of_pos (by simpa using h.ne_word)]
  simp

variable {clause : Clause}

theorem Leftmost.invocation (h : Leftmost clause.tokens before verb after) :
    clause.invocation = [⟨verb.word, clause⟩] := by
  have hnone : before.find? (fun token => decide (Reserved token)) = none := by
    simpa using h.free
  rw [Clause.invocation, h.split, List.find?_append, hnone]
  simp [reserved_of_verb]

theorem invocation_of_free (h : ∀ token ∈ clause.tokens, ¬ Reserved token) :
    clause.invocation = [] := by
  have hnone : clause.tokens.find? (fun token => decide (Reserved token)) = none := by
    simpa using h
  rw [Clause.invocation, hnone]
  rfl

end Leading

section Uses

variable {tokens before after rest : List Token} {relation : Relation} {subject object : Token}

theorem Leftmost.use_eq_guard (h : Leftmost tokens [] (.relation relation) (subject :: object :: rest)) :
    relation.use tokens = .guard ⟨subject, object⟩ rest := by
  have hplace : tokens.findIdx? (· == relation.word) = some 0 := h.findIdx?
  unfold Relation.use
  rw [hplace, h.split]
  rfl

theorem Leftmost.use_eq_assertion (h : Leftmost tokens [subject] (.relation relation) [object]) :
    relation.use tokens = .assertion ⟨subject, object⟩ := by
  have hplace : tokens.findIdx? (· == relation.word) = some 1 := h.findIdx?
  unfold Relation.use
  rw [hplace, h.split]
  rfl

/-- A relationship word is misused if too little stands behind it in front of a line, if it is the
second token of a line of more or fewer than three, and if it stands further on. -/
theorem Leftmost.use_eq_misuse (h : Leftmost tokens before (.relation relation) after)
    (hfront : before = [] → after.length < 2) (hmiddle : before.length = 1 → after.length ≠ 1) :
    relation.use tokens = .misuse := by
  have hplace : tokens.findIdx? (· == relation.word) = some before.length := h.findIdx?
  unfold Relation.use
  rw [hplace, h.split]
  match before, after with
  | [], [] => rfl
  | [], [_] => rfl
  | [], _ :: _ :: _ => exact absurd (hfront rfl) (by simp)
  | [_], [] => rfl
  | [_], [_] => exact absurd rfl (hmiddle rfl)
  | [_], _ :: _ :: _ => rfl
  | _ :: _ :: _, _ => rfl

end Uses

section Deeds

variable {g : Graph} {clause : Clause} {deed deed' : Deed} {before after : List Token} {verb : Verb}

theorem Leftmost.sayLines_eq (h : Leftmost clause.tokens before .say after) :
    sayLines clause = (if after = [] then [] else [unwords after]) ++ clause.block.getD [] := by
  have hafter : tokensAfter "say" clause.tokens = after := h.tokensAfter_eq
  rw [sayLines, hafter]

/-- What a line does depends on the verb of its leftmost reserved word. -/
theorem Does.eq_ofVerb (h : Does g clause deed) (hleftmost : Leftmost clause.tokens before verb after) :
    deed = .ofVerb clause verb := by
  cases h with
  | name hfree => exact absurd hfree hleftmost.not_free
  | emit hplace hlines hne =>
      obtain ⟨rfl, rfl, rfl⟩ := hleftmost.unique hplace
      rw [← hplace.sayLines_eq] at hlines
      subst hlines
      obtain ⟨line, rest, hcons⟩ := List.exists_cons_of_ne_nil hne
      rw [Deed.ofVerb, hcons]
  | record hplace =>
      obtain ⟨rfl, rfl, rfl⟩ := hleftmost.unique hplace
      rw [Deed.ofVerb, hplace.use_eq_assertion]
  | nothing hplace =>
      obtain ⟨rfl, rfl, rfl⟩ := hleftmost.unique hplace
      rw [Deed.ofVerb, hplace.use_eq_guard]
  | silent hplace hblock =>
      obtain ⟨rfl, rfl, rfl⟩ := hleftmost.unique hplace
      have hlines : sayLines clause = [] := by rw [hplace.sayLines_eq, hblock]; rfl
      rw [Deed.ofVerb, hlines]
  | misplaced hplace hfront hmiddle =>
      obtain ⟨rfl, rfl, rfl⟩ := hleftmost.unique hplace
      rw [Deed.ofVerb, hplace.use_eq_misuse hfront hmiddle]

/-- A line without reserved words names its tokens, and does nothing else. -/
theorem Does.eq_name (h : Does g clause deed) (hfree : ∀ token ∈ clause.tokens, ¬ Reserved token) :
    deed = .name clause.tokens := by
  cases h with
  | name => rfl
  | emit hplace => exact absurd hfree hplace.not_free
  | record hplace => exact absurd hfree hplace.not_free
  | nothing hplace => exact absurd hfree hplace.not_free
  | silent hplace => exact absurd hfree hplace.not_free
  | misplaced hplace => exact absurd hfree hplace.not_free

/-- A line does no two things. -/
theorem Does.unique (h : Does g clause deed) (h' : Does g clause deed') : deed = deed' := by
  rcases free_or_leftmost clause.tokens with hfree | ⟨before, verb, after, hleftmost⟩
  · exact (h.eq_name hfree).trans (h'.eq_name hfree).symm
  · exact (h.eq_ofVerb hleftmost).trans (h'.eq_ofVerb hleftmost).symm

/-- A line does something, unless it begins with a test that succeeds and goes on behind it. -/
theorem exists_does (h : ¬ g.GuardHolds clause.tokens 0) : ∃ deed, Does g clause deed := by
  rcases free_or_leftmost clause.tokens with hfree | ⟨before, verb, after, hleftmost⟩
  · exact ⟨_, .name hfree⟩
  cases verb with
  | say =>
      by_cases hlines : sayLines clause = []
      · obtain ⟨hafter, hblock⟩ := List.append_eq_nil_iff.mp (hleftmost.sayLines_eq.symm.trans hlines)
        obtain rfl : after = [] := by
          by_contra hne
          simp [hne] at hafter
        exact ⟨_, .silent hleftmost hblock⟩
      · exact ⟨_, .emit hleftmost hleftmost.sayLines_eq hlines⟩
  | relation relation =>
      by_cases hfront : before = [] → after.length < 2
      · by_cases hmiddle : before.length = 1 → after.length ≠ 1
        · exact ⟨_, .misplaced hleftmost hfront hmiddle⟩
        · obtain ⟨hbefore, hafter⟩ := Classical.not_imp.mp hmiddle
          obtain ⟨subject, rfl⟩ := List.length_eq_one_iff.mp hbefore
          obtain ⟨object, rfl⟩ := List.length_eq_one_iff.mp (not_not.mp hafter)
          exact ⟨_, .record hleftmost⟩
      · obtain ⟨rfl, hafter⟩ := Classical.not_imp.mp hfront
        obtain ⟨subject, object, rest, rfl⟩ :
            ∃ subject object rest, after = subject :: object :: rest := by
          match after with
          | [] => exact absurd Nat.zero_lt_two hafter
          | [_] => exact absurd Nat.one_lt_two hafter
          | subject :: object :: rest => exact ⟨subject, object, rest, rfl⟩
        refine ⟨_, .nothing hleftmost ?_⟩
        rw [or_iff_not_imp_left]
        intro hrest hstate
        have hlength := List.length_pos_iff.mpr hrest
        refine h ⟨relation, subject, object, ?_⟩
        simp only [hleftmost.split]
        exact ⟨rfl, rfl, rfl, by simpa using hlength, hstate⟩

end Deeds

namespace Interpreter

section Ending

variable {μ : Type} {limit : Option Nat} {continued : Nat} {store : Store μ}

theorem standard_hook?_of_free {token : Token} (h : ¬ Reserved token) :
    (standard limit : Interpreter μ).vocabulary.hook? token = none := by
  rw [standard_hook?, Option.map_eq_none_iff, ← Option.not_isSome_iff_eq_none]
  exact h

theorem standard_leading?_of_free {tokens : List Token} (h : ∀ token ∈ tokens, ¬ Reserved token) :
    (standard limit : Interpreter μ).vocabulary.leading? tokens = none := by
  rw [Vocabulary.leading?, List.findSome?_eq_none_iff]
  intro token htoken
  rw [standard_hook?_of_free (h token htoken), Option.map_none]

theorem standard_leading?_of_leftmost {tokens before after : List Token} {verb : Verb}
    (h : Leftmost tokens before verb after) :
    (standard limit : Interpreter μ).vocabulary.leading? tokens = some (verb.word, verb.hook) := by
  have hbefore : (standard limit : Interpreter μ).vocabulary.leading? before = none :=
    standard_leading?_of_free h.free
  rw [Vocabulary.leading?] at hbefore
  rw [Vocabulary.leading?, h.split, List.findSome?_append, hbefore, List.findSome?_cons,
    standard_hook?, Verb.ofWord?_word]
  rfl

theorem exists_effect (deed : Deed) (store : Store μ) : ∃ after, deed.Effect store after := by
  cases deed with
  | name names => exact ⟨_, Store.alters_atoms_iff.mpr rfl⟩
  | emit lines => exact ⟨_, Store.says_iff.mpr rfl⟩
  | record fact => exact ⟨_, Store.alters_fact_iff.mpr rfl⟩
  | nothing => exact ⟨store, rfl⟩
  | misuse error => exact ⟨store, rfl⟩

/-- A line that does something ends with this, after the invocation of its leftmost reserved word
if it has one. -/
theorem lineEnds_of_does {clause : Clause} {deed : Deed} {after : Store μ}
    (h : Does store.graph clause deed) (hafter : deed.Effect store after) :
    (standard limit).LineEnds clause continued store
      ⟨deed.error?, clause.invocation, continued, after⟩ := by
  cases h with
  | name hfree =>
      rw [invocation_of_free hfree]
      exact .atoms (standard_leading?_of_free hfree) hafter
  | emit hplace hlines hne =>
      obtain rfl := Store.says_iff.mp hafter
      rw [← hplace.sayLines_eq] at hlines
      subst hlines
      have hrun := ((sayHook_run_cases clause store).resolve_left fun hcase => hne hcase.1).2
      rw [hplace.invocation]
      exact .done (standard_leading?_of_leftmost hplace) hrun rfl
  | @record relation subject object hplace =>
      obtain rfl := Store.alters_fact_iff.mp hafter
      have hrun : relation.hook.run clause store = (.ok .done, store.mapGraph fun g =>
          (g.record ⟨⟨subject, object⟩, relation.truth, relation.kind⟩).2) := by
        simp only [Relation.hook, Relation.hookWithKind, hplace.use_eq_assertion]
      rw [hplace.invocation]
      exact .done (standard_leading?_of_leftmost hplace) hrun rfl
  | @nothing relation subject object rest hplace hends =>
      obtain rfl : after = store := hafter
      have hrun : relation.hook.run clause after = (.ok .done, after) := by
        simp only [Relation.hook, Relation.hookWithKind, hplace.use_eq_guard]
        rcases hends with rfl | hstate
        · simp [Outcome.ofTokens]
        · rw [if_neg hstate]
      rw [hplace.invocation]
      exact .done (standard_leading?_of_leftmost hplace) hrun rfl
  | silent hplace hblock =>
      obtain rfl : after = store := hafter
      have hlines : sayLines clause = [] := by rw [hplace.sayLines_eq, hblock]; rfl
      have hrun := ((sayHook_run_cases clause after).resolve_right fun hcase => hcase.1 hlines).2
      rw [hplace.invocation]
      exact .failed (standard_leading?_of_leftmost hplace) hrun
  | @misplaced relation front behind hplace hfront hmiddle =>
      obtain rfl : after = store := hafter
      have hrun : relation.hook.run clause after = (.error relation.usage, after) := by
        simp only [Relation.hook, Relation.hookWithKind, hplace.use_eq_misuse hfront hmiddle]
      rw [hplace.invocation]
      exact .failed (standard_leading?_of_leftmost hplace) hrun

/-- A test that succeeds is one invocation and one continuation before what stands behind it. -/
theorem lineEnds_of_guard {clause : Clause} {relation : Relation} {subject object first : Token}
    {rest : List Token} {verdict : Verdict μ}
    (htokens : clause.tokens = relation.word :: subject :: object :: first :: rest)
    (hstate : store.graph.state? ⟨subject, object⟩ = some relation.truth)
    (h : (standard none).LineEnds { tokens := first :: rest } (continued + 1) store verdict) :
    (standard none).LineEnds clause continued store
      (verdict.after [⟨relation.word, clause⟩]) := by
  have hplace : Leftmost clause.tokens [] (.relation relation) (subject :: object :: first :: rest) :=
    ⟨htokens, by simp⟩
  have hrun : relation.hook.run clause store = (.ok (.proceed (first :: rest)), store) := by
    simp only [Relation.hook, Relation.hookWithKind, hplace.use_eq_guard, if_pos hstate]
    rfl
  exact .continued (standard_leading?_of_leftmost hplace) hrun rfl
    (refusal?_eq_none_iff.mp rfl) h

end Ending

section Guards

variable {μ : Type} {g : Graph} {tokens rest : List Token} {subject object word : Token}

theorem guardHolds_zero_iff : g.GuardHolds tokens 0 ↔
    ∃ (relation : Relation) (subject object first : Token) (rest : List Token),
      tokens = relation.word :: subject :: object :: first :: rest ∧
        g.state? ⟨subject, object⟩ = some relation.truth := by
  constructor
  · rintro ⟨relation, subject, object, hword, hsubject, hobject, hlength, hstate⟩
    match tokens, hword, hsubject, hobject, hlength with
    | _ :: _ :: _ :: first :: rest, hword, hsubject, hobject, _ =>
        obtain rfl := Option.some.inj hword
        obtain rfl := Option.some.inj hsubject
        obtain rfl := Option.some.inj hobject
        exact ⟨relation, _, _, first, rest, rfl, hstate⟩
  · rintro ⟨relation, subject, object, first, rest, rfl, hstate⟩
    exact ⟨relation, subject, object, rfl, rfl, rfl, by simp, hstate⟩

theorem guardHolds_succ_iff {number : Nat} :
    g.GuardHolds (word :: subject :: object :: rest) (number + 1) ↔ g.GuardHolds rest number := by
  have hword : (word :: subject :: object :: rest)[3 * (number + 1)]? = rest[3 * number]? := rfl
  have hargument : ∀ i, (word :: subject :: object :: rest)[3 * (number + 1) + i]? =
      rest[3 * number + i]? := by
    intro i
    rw [Nat.mul_succ, Nat.add_right_comm]
    rfl
  have hlength : 3 * (number + 1) + 3 < (word :: subject :: object :: rest).length ↔
      3 * number + 3 < rest.length := Nat.add_lt_add_iff_right
  simp only [Graph.GuardHolds, hword, hargument, hlength]

/-- Taking off one test more from a line is taking it off from the line behind the first test. -/
theorem skip_succ {clause : Clause} (h : clause.tokens = word :: subject :: object :: rest)
    (count : Nat) : clause.skip (count + 1) = ({ tokens := rest } : Clause).skip count := by
  simp [Clause.skip, h, Nat.mul_succ]

/-- A test in front that succeeds is one more than those behind it. -/
theorem forall_guardHolds_iff (hguard : g.GuardHolds (word :: subject :: object :: rest) 0)
    {count : Nat} (hcount : ∀ n, (∀ j < n, g.GuardHolds rest j) ↔ n ≤ count) (n : Nat) :
    (∀ j < n, g.GuardHolds (word :: subject :: object :: rest) j) ↔ n ≤ count + 1 := by
  cases n with
  | zero => simp
  | succ n =>
      rw [Nat.forall_lt_succ_left, Nat.succ_le_succ_iff, ← hcount n]
      simp only [hguard, guardHolds_succ_iff, true_and]

/-- A line ends as what remains of it ends when all its tests are taken off that succeed, with one
invocation and one continuation more for each of them. -/
theorem exists_lineEnds_of_standard (clause : Clause) (continued : Nat) (store : Store μ) :
    ∃ (count : Nat) (guards : List Call) (deed : Deed) (after : Store μ),
      (∀ n, (∀ j < n, store.graph.GuardHolds clause.tokens j) ↔ n ≤ count) ∧
        guards.length = count ∧
        Does store.graph (clause.skip count) deed ∧
        deed.Effect store after ∧
        (standard none).LineEnds clause continued store
          ⟨deed.error?, guards ++ (clause.skip count).invocation, continued + count, after⟩ := by
  induction hlength : clause.tokens.length using Nat.strongRecOn generalizing clause continued with
  | ind length ih =>
      by_cases hguard : store.graph.GuardHolds clause.tokens 0
      · obtain ⟨relation, subject, object, first, rest, htokens, hstate⟩ :=
          guardHolds_zero_iff.mp hguard
        have hshorter : (first :: rest).length < length := by
          rw [← hlength, htokens]
          exact Nat.lt_add_of_pos_right (Nat.zero_lt_succ 2)
        obtain ⟨count, guards, deed, after, hcount, hguards, hdoes, hafter, hends⟩ :=
          ih _ hshorter { tokens := first :: rest } (continued + 1) rfl
        refine ⟨count + 1, ⟨relation.word, clause⟩ :: guards, deed, after, ?_,
          by rw [← hguards]; rfl, ?_, hafter, ?_⟩
        · rw [htokens] at hguard ⊢
          exact forall_guardHolds_iff hguard hcount
        · rw [skip_succ htokens]
          exact hdoes
        · rw [skip_succ htokens, Nat.add_comm count 1, ← Nat.add_assoc]
          exact lineEnds_of_guard htokens hstate hends
      · obtain ⟨deed, hdoes⟩ := exists_does hguard
        obtain ⟨after, hafter⟩ := exists_effect deed store
        refine ⟨0, [], deed, after, fun n => ⟨fun hall => ?_, fun hn j hj => ?_⟩, rfl, hdoes, hafter,
          lineEnds_of_does hdoes hafter⟩
        · by_contra hpos
          exact hguard (hall 0 (Nat.not_le.mp hpos))
        · exact absurd (Nat.lt_of_lt_of_le hj hn) (Nat.not_lt_zero j)

/-- Reserved words may be the subjects and objects of tests. -/
example :
    let told : Store Unit := (Store.fresh ()).mapGraph fun g =>
      ((g.record ⟨⟨"say", "is"⟩, true, .identity⟩).2.record ⟨⟨"a", "has"⟩, false, .identity⟩).2
    ((standard none).line 4 { tokens := ["is", "say", "is", "isnt", "a", "has", "say", "hi"] } 0
      told).map (fun verdict => (verdict.continued, verdict.store.said)) = some (2, ["hi"]) := by
  decide

end Guards

end Interpreter

end RelationLang
