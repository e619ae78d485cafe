import RelationLang.Proofs.Interpreter.Failure
import RelationLang.Proofs.Interpreter.Limit
import RelationLang.Proofs.Interpreter.StandardLine

/-!
# How long the standard words can go on

**Input.**  A statement, run with the standard words.

**Algorithm.**  Only a test continues, and it hands back the line without its first three tokens, of
which something must be left. So every continuation takes three tokens, and the last one leaves a
token at least.

**Results.**
* `exists_lineEnds_bounded`: every line ends, after at most one continuation for each three tokens
  but the last one.
* `lineEnds_longest`: there are lines of every length that continue as often as this.
* `standard_terminates`: the same for statements; and what a limit can refuse.
-/

namespace RelationLang
namespace Interpreter

open Program

section Definitions

/-- A line of some length that is made of as many tests as possible. -/
def longestLine : Nat → List Token
  | 0 => []
  | 1 => ["a"]
  | 2 => ["a", "a"]
  | 3 => ["a", "a", "a"]
  | more + 4 => "is" :: "a" :: "b" :: longestLine (more + 1)

/-- The graph in which all these tests succeed. -/
def passingGraph : Graph := (Graph.empty.record ⟨⟨"a", "b"⟩, true, .identity⟩).2

end Definitions

section Lines

variable {μ : Type}

theorem invocation_length_le (clause : Clause) : clause.invocation.length ≤ 1 := by
  rw [Clause.invocation]
  cases clause.tokens.find? fun token => decide (Reserved token) <;> simp

/-- The standard words do not fail with the error of a limit. -/
theorem error?_ne_limit_of_does {g : Graph} {clause : Clause} {deed : Deed} (h : Does g clause deed)
    (limit : Nat) : deed.error? ≠ some (.continuationLimit limit) := by
  cases h <;> simp [Deed.error?, Relation.usage]

/-- The tests at the front of a line that can be taken off are fewer than a third of its tokens. -/
theorem le_of_guardHolds {g : Graph} {tokens : List Token} {count : Nat}
    (h : ∀ j < count, g.GuardHolds tokens j) : count ≤ (tokens.length - 1) / 3 := by
  cases count with
  | zero => exact Nat.zero_le _
  | succ last =>
      obtain ⟨_, _, _, _, _, _, hlength, _⟩ := h last (Nat.lt_succ_self last)
      omega

/-- Every line of standard words ends. It continues at most once for each three of its tokens but
the last one, with at most one invocation more, and does not fail with the error of a limit. -/
theorem exists_lineEnds_bounded (clause : Clause) (continued : Nat) (store : Store μ) :
    ∃ verdict, (standard none).LineEnds clause continued store verdict ∧
      verdict.continued ≤ continued + (clause.tokens.length - 1) / 3 ∧
      verdict.calls.length + continued ≤ verdict.continued + 1 ∧
      ∀ limit, verdict.error? ≠ some (.continuationLimit limit) := by
  obtain ⟨count, guards, deed, after, hcount, hguards, hdoes, _, hends⟩ :=
    exists_lineEnds_of_standard clause continued store
  have hle := le_of_guardHolds ((hcount count).mpr (Nat.le_refl count))
  have hinvocation := invocation_length_le (clause.skip count)
  refine ⟨_, hends, Nat.add_le_add_left hle continued, ?_, error?_ne_limit_of_does hdoes⟩
  simp only [List.length_append, hguards]
  omega

/-- Lines of three tokens at the most do not continue. -/
theorem exists_linesEnd_of_short {clauses : List Clause}
    (hshort : ∀ clause ∈ clauses, clause.tokens.length ≤ 3) {sofar : Verdict μ}
    (hsofar : sofar.error? = none) :
    ∃ verdict, (standard none).LinesEnd clauses sofar verdict ∧
      verdict.continued = sofar.continued ∧
      verdict.calls.length ≤ sofar.calls.length + clauses.length ∧
      ∀ limit, verdict.error? ≠ some (.continuationLimit limit) := by
  induction clauses generalizing sofar with
  | nil => exact ⟨sofar, .nil, rfl, Nat.le_refl _, by simp [hsofar]⟩
  | cons clause rest ih =>
      rw [List.forall_mem_cons] at hshort
      obtain ⟨line, hends, hcontinued, hcalls, hlimit⟩ :=
        exists_lineEnds_bounded clause sofar.continued sofar.store
      have hle := hends.continued_le
      have hshort₁ := hshort.1
      cases herror : line.error? with
      | some error =>
          refine ⟨_, .stopped hends herror, ?_, ?_, hlimit⟩
          · rw [Verdict.continued_after]
            omega
          · rw [Verdict.calls_after, List.length_append, List.length_cons]
            omega
      | none =>
          have hnext : (line.after sofar.calls).error? = none := herror
          obtain ⟨verdict, hrest, hsame, hmore, hlast⟩ := ih hshort.2 hnext
          refine ⟨verdict, .next hends herror hrest, ?_, ?_, hlast⟩
          · rw [hsame, Verdict.continued_after]
            omega
          · rw [Verdict.calls_after, List.length_append] at hmore
            rw [List.length_cons]
            omega

end Lines

section Longest

variable {μ : Type}

theorem length_longestLine (length : Nat) : (longestLine length).length = length := by
  fun_induction longestLine length with
  | case1 => rfl
  | case2 => rfl
  | case3 => rfl
  | case4 => rfl
  | case5 more ih => simp [ih]

theorem not_blockShaped_longestLine (length : Nat) : blockShaped (longestLine length) = false := by
  fun_cases longestLine length with
  | case1 => rfl
  | case2 => rfl
  | case3 => rfl
  | case4 => rfl
  | case5 more => rfl

/-- As long as something is left, the tests at the front of a longest line succeed. -/
theorem guardHolds_longestLine {length number : Nat} (h : 3 * number + 3 < length) :
    passingGraph.GuardHolds (longestLine length) number := by
  fun_induction longestLine length generalizing number with
  | case1 => omega
  | case2 => omega
  | case3 => omega
  | case4 => omega
  | case5 more ih =>
      cases number with
      | zero =>
          obtain ⟨first, rest, hrest⟩ := List.exists_cons_of_length_pos
            (show 0 < (longestLine (more + 1)).length by rw [length_longestLine]; omega)
          exact guardHolds_zero_iff.mpr
            ⟨.is, "a", "b", first, rest, by rw [hrest]; rfl, by decide⟩
      | succ number => exact guardHolds_succ_iff.mpr (ih (by omega))

/-- There are lines of every length that continue as often as a line of this length can. -/
theorem lineEnds_longest (length : Nat) {store : Store μ} (hstore : store.graph = passingGraph) :
    ∃ verdict, (standard none).LineEnds { tokens := longestLine length } 0 store verdict ∧
      verdict.continued = (length - 1) / 3 := by
  obtain ⟨count, guards, deed, after, hcount, _, _, _, hends⟩ :=
    exists_lineEnds_of_standard { tokens := longestLine length } 0 store
  refine ⟨_, hends, ?_⟩
  have hle := le_of_guardHolds ((hcount count).mpr (Nat.le_refl count))
  rw [length_longestLine] at hle
  have hge : (length - 1) / 3 ≤ count := by
    refine (hcount _).mp fun number hnumber => ?_
    rw [hstore]
    exact guardHolds_longestLine (by omega)
  simp only [Nat.zero_add]
  exact Nat.le_antisymm hle hge

end Longest

section Statements

variable {μ : Type}

/-- Every statement ends. A line keeps to the bound for its length, and a block does not
continue. -/
theorem exists_ends (s : Statement) (store : Store μ) :
    ∃ verdict, (standard none).Ends s store verdict ∧
      (blockShaped s.tokens = false →
        verdict.continued ≤ (s.tokens.length - 1) / 3 ∧
          verdict.calls.length ≤ verdict.continued + 1) ∧
      (blockShaped s.tokens = true →
        verdict.continued = 0 ∧ verdict.calls.length ≤ (threes (allWords s.tokens)).length) ∧
      ∀ limit, verdict.error? ≠ some (.continuationLimit limit) := by
  cases hshape : blockShaped s.tokens with
  | false =>
      obtain ⟨verdict, hends, hcontinued, hcalls, hlimit⟩ := exists_lineEnds_bounded
        { tokens := s.tokens, block := s.block } 0 store
      rw [Nat.zero_add] at hcontinued
      obtain ⟨turns, hline⟩ := (line_iff _).mpr hends
      refine ⟨verdict, ⟨turns, ?_⟩, fun _ => ⟨hcontinued, hcalls⟩,
        fun hblock => absurd hblock Bool.false_ne_true, hlimit⟩
      simpa [Interpreter.statement, hshape] using hline
  | true =>
      have hclauses : s.clauses =
          (threes (allWords s.tokens)).map fun group => { tokens := group } := by
        rw [Statement.clauses, if_pos hshape]
      have hshort : ∀ clause ∈ s.clauses, clause.tokens.length ≤ 3 := by
        intro clause hclause
        rw [hclauses] at hclause
        obtain ⟨group, hgroup, rfl⟩ := List.mem_map.mp hclause
        exact Nat.le_of_eq (length_of_mem_threes hgroup)
      let start : Verdict μ := ⟨none, [], 0, opened s store⟩
      have hstart : start.error? = none := rfl
      obtain ⟨verdict, hends, hcontinued, hcalls, hlimit⟩ := exists_linesEnd_of_short hshort hstart
      refine ⟨verdict, (ends_iff _).mpr hends, fun hline => absurd hline.symm Bool.false_ne_true,
        fun _ => ⟨hcontinued, ?_⟩, hlimit⟩
      simpa [hclauses, start] using hcalls

/-- A limit refuses only what continues more often than it allows, which takes a line that is long
enough. -/
theorem long_of_limit_error {s : Statement} {store : Store μ} {limit : Nat} {verdict : Verdict μ}
    (h : (standard (some limit)).Ends s store verdict)
    (herror : verdict.error? = some (.continuationLimit limit)) :
    blockShaped s.tokens = false ∧ 3 * limit + 4 ≤ s.tokens.length := by
  obtain ⟨unlimited, hends, hline, hblock, hlimit⟩ := exists_ends s store
  have hlt : limit < unlimited.continued := by
    by_contra hle
    -- The limit allows all continuations, so that it makes no difference.
    have hlines : ((standard none).withLimit none).LinesEnd s.clauses
        ⟨none, [], 0, opened s store⟩ unlimited := (ends_iff _).mp hends
    have hsame : (standard (some limit)).Ends s store unlimited :=
      (ends_iff _).mpr (hlines.congr fun n hn => refusal?_of_le (by omega))
    rw [h.unique hsame] at herror
    exact hlimit limit herror
  cases hshape : blockShaped s.tokens with
  | false =>
      have hle := (hline hshape).1
      exact ⟨rfl, by omega⟩
  | true =>
      rw [(hblock hshape).1] at hlt
      exact absurd hlt (Nat.not_lt_zero limit)

/-- Without a limit every statement of standard words ends. A line of `n` tokens continues at most
`(n - 1) / 3` times, which lines of every length attain, and makes at most one invocation more; a
block-shaped statement never continues, and makes at most one invocation for each complete group of
three words. So under a limit of `m` continuations a program fails because of the limit only in a
statement that is not block-shaped and has at least `3 * m + 4` tokens. -/
theorem standard_terminates :
    (∀ (s : Statement) (store : Store μ), ∃ verdict, (standard none).Ends s store verdict ∧
      (blockShaped s.tokens = false →
        verdict.continued ≤ (s.tokens.length - 1) / 3 ∧
          verdict.calls.length ≤ verdict.continued + 1) ∧
      (blockShaped s.tokens = true →
        verdict.continued = 0 ∧ verdict.calls.length ≤ (threes (allWords s.tokens)).length)) ∧
    (∀ length, 1 ≤ length → ∃ (s : Statement) (g : Graph), g.Reachable ∧
      s.tokens.length = length ∧ blockShaped s.tokens = false ∧
        ∀ store : Store μ, store.graph = g →
          ∃ verdict, (standard none).Ends s store verdict ∧
            verdict.continued = (length - 1) / 3) ∧
    ∀ (limit turns : Nat) (statements : List Statement) (store : Store μ) (report : Report μ),
      (standard (some limit)).program turns statements store = some report →
      report.error? = some (.continuationLimit limit) →
      ∃ before failing after done last,
        (standard (some limit)).FailsIn turns statements store report before failing after done
            last ∧
          blockShaped failing.tokens = false ∧ 3 * limit + 4 ≤ failing.tokens.length := by
  refine ⟨fun s store => ?_, fun length _ => ?_, fun limit turns statements store report h herror =>
    ?_⟩
  · obtain ⟨verdict, hends, hline, hblock, _⟩ := exists_ends s store
    exact ⟨verdict, hends, hline, hblock⟩
  · have hshape := not_blockShaped_longestLine length
    refine ⟨.plain (longestLine length), passingGraph,
      ⟨[.record ⟨⟨"a", "b"⟩, true, .identity⟩], rfl⟩, length_longestLine length, hshape,
      fun store hstore => ?_⟩
    obtain ⟨verdict, hends, hcontinued⟩ := lineEnds_longest length hstore
    obtain ⟨turns, hline⟩ := (line_iff _).mpr hends
    refine ⟨verdict, ⟨turns, ?_⟩, hcontinued⟩
    simpa [Interpreter.statement, Statement.plain, hshape] using hline
  · obtain ⟨before, failing, after, done, last, hfails⟩ := exists_failsIn h herror
    exact ⟨before, failing, after, done, last, hfails,
      long_of_limit_error ⟨turns, hfails.failing_ends⟩ (hfails.error.trans herror)⟩

/-- A line of seven tokens with two tests, which a limit of one continuation refuses; and a block of
two lines, one of which is a test. -/
theorem seven_tokens_refused :
    let told := Statement.plain ["a", "is", "b"]
    let tests := Statement.plain ["is", "a", "b", "is", "a", "b", "c"]
    let block : Statement := { tokens := ["a is c", "is a b"], kind := .block }
    (∃ verdict : Verdict Unit, (standard none).Ends tests (.fresh ()) verdict ∧
      verdict.continued ≤ (7 - 1) / 3 ∧ verdict.calls.length ≤ verdict.continued + 1) ∧
    (∃ verdict : Verdict Unit, (standard none).Ends block (.fresh ()) verdict ∧
      verdict.continued = 0 ∧ verdict.calls.length ≤ 2) ∧
    (∃ (s : Statement) (g : Graph), g.Reachable ∧ s.tokens.length = 7 ∧
      blockShaped s.tokens = false ∧ ∀ store : Store Unit, store.graph = g →
        ∃ verdict, (standard none).Ends s store verdict ∧ verdict.continued = (7 - 1) / 3) ∧
    ∃ report : Report Unit,
      (standard (some 1)).program 3 [told, tests] (.fresh ()) = some report ∧
      report.error? = some (.continuationLimit 1) ∧
      ∃ before failing after done last,
        (standard (some 1)).FailsIn 3 [told, tests] (.fresh ()) report before failing after done
            last ∧
          blockShaped failing.tokens = false ∧ 3 * 1 + 4 ≤ failing.tokens.length := by
  intro told tests block
  obtain ⟨hends, hattained, hrefused⟩ := standard_terminates (μ := Unit)
  obtain ⟨verdict, htests, hline, _⟩ := hends tests (.fresh ())
  obtain ⟨verdict', hblock, _, hgroups⟩ := hends block (.fresh ())
  obtain ⟨report, hreport, hdecided⟩ := (Option.any_eq_true _ _).mp (show
    ((standard (some 1)).program 3 [told, tests] (.fresh ())).any
      (fun r : Report Unit => decide (r.error? = some (.continuationLimit 1))) = true by decide)
  have herror := of_decide_eq_true hdecided
  exact ⟨⟨verdict, htests, hline (by decide)⟩, ⟨verdict', hblock, hgroups (by decide)⟩,
    hattained 7 (by decide), report, hreport, herror, hrefused 1 3 _ _ report hreport herror⟩

end Statements

end Interpreter
end RelationLang
