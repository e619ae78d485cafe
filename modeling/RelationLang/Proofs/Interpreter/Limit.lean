import RelationLang.Plugin
import RelationLang.Proofs.Interpreter.Noting

/-!
# The continuation limit

**Input.**  An interpreter with any hooks, run with and without a limit on the continuations of a
statement.

**Algorithm.**  The continuations of all lines of a statement are counted together: each answer of a
hook with a line to run next is one. A continuation that makes the count exceed the limit is refused,
and the statement ends there.

**Results.**
* `LinesEnd.congr`: two limits that allow the continuations made lead to the same end.
* `LinesEnd.cut`: a statement that continues more often than the limit allows ends with its error.
* `LinesEnd.calls_length_le`: under a limit lines make one invocation each, and one more for each
  continuation, at the most.
* `limit_cuts_off`: the limit cuts off longer runs, changes nothing about the others, and makes
  every run end.
-/

namespace RelationLang
namespace Interpreter

open Program

variable {μ : Type} (i : Interpreter μ)

section Definitions

/-- The same hooks under another limit. -/
def withLimit (limit : Option Nat) : Interpreter μ := { i with limit }

end Definitions

variable {i} {limit : Nat}

theorem refusal?_of_le {continued : Nat} (h : continued ≤ limit) :
    (i.withLimit (some limit)).refusal? continued = none := by
  simpa [withLimit, refusal?] using h

section Lines

variable {clause : Clause} {continued : Nat} {store : Store μ} {verdict : Verdict μ}

theorem LineEnds.continued_le (h : i.LineEnds clause continued store verdict) :
    continued ≤ verdict.continued := by
  induction h with
  | atoms => exact Nat.le_refl _
  | failed => exact Nat.le_refl _
  | done => exact Nat.le_refl _
  | refused => exact Nat.le_succ _
  | continued _ _ _ _ _ ih => exact Nat.le_trans (Nat.le_succ _) ih

/-- Two limits that agree on the continuations made lead to the same end. -/
theorem LineEnds.congr {old new : Option Nat}
    (h : (i.withLimit old).LineEnds clause continued store verdict)
    (hagree : ∀ n, continued < n → n ≤ verdict.continued →
      (i.withLimit new).refusal? n = (i.withLimit old).refusal? n) :
    (i.withLimit new).LineEnds clause continued store verdict := by
  induction h with
  | atoms hleading hstored => exact .atoms hleading hstored
  | failed hleading hrun => exact .failed hleading hrun
  | done hleading hrun hnext => exact .done hleading hrun hnext
  | refused hleading hrun hnext hlimit hlt =>
      have hrefusal := refusal?_eq_some_iff.mpr ⟨_, hlimit, hlt, rfl⟩
      exact lineEnds_of_refusal? _ hleading hrun hnext
        ((hagree _ (Nat.lt_succ_self _) (Nat.le_refl _)).trans hrefusal)
  | continued hleading hrun hnext hallowed hends ih =>
      have hrefusal := refusal?_eq_none_iff.mpr hallowed
      have hsame := (hagree _ (Nat.lt_succ_self _) hends.continued_le).trans hrefusal
      refine .continued hleading hrun hnext (refusal?_eq_none_iff.mp hsame) (ih ?_)
      exact fun n hn => hagree n (Nat.lt_of_succ_lt hn)

/-- A line that continues more often than the limit allows is ended by the limit. -/
theorem LineEnds.cut (h : (i.withLimit none).LineEnds clause continued store verdict)
    (hcontinued : continued ≤ limit) (hlimit : limit < verdict.continued) :
    ∃ cut, (i.withLimit (some limit)).LineEnds clause continued store cut ∧
      cut.error? = some (.continuationLimit limit) := by
  induction h with
  | atoms => exact absurd hlimit (Nat.not_lt.mpr hcontinued)
  | failed => exact absurd hlimit (Nat.not_lt.mpr hcontinued)
  | done => exact absurd hlimit (Nat.not_lt.mpr hcontinued)
  | refused _ _ _ hnone => exact nomatch hnone
  | @continued _ continued _ _ _ _ _ _ _ _ hleading hrun hnext _ _ ih =>
      by_cases hnow : continued + 1 ≤ limit
      · obtain ⟨cut, hends, herror⟩ := ih hnow hlimit
        exact ⟨_, .continued hleading hrun hnext (refusal?_eq_none_iff.mp (refusal?_of_le hnow))
          hends, herror⟩
      · exact ⟨_, .refused hleading hrun hnext rfl (Nat.not_le.mp hnow), rfl⟩

/-- Under a limit a line makes one invocation, and one more for each continuation left to it. If it
does not fail, it has kept to the limit and made no more invocations than it needed for its
continuations. -/
theorem LineEnds.calls_length_le
    (h : (i.withLimit (some limit)).LineEnds clause continued store verdict)
    (hcontinued : continued ≤ limit) :
    verdict.calls.length + continued ≤ limit + 1 ∧
      (verdict.error? = none →
        verdict.calls.length + continued ≤ verdict.continued + 1 ∧
          verdict.continued ≤ limit) := by
  induction h with
  | atoms => simp; omega
  | failed => simp; omega
  | done => simp; omega
  | refused => simp; omega
  | continued _ _ _ hallowed _ ih =>
      obtain ⟨hall, hsuccess⟩ := ih (hallowed limit rfl)
      refine ⟨by simp; omega, fun herror => ?_⟩
      obtain ⟨hcalls, hlimit⟩ := hsuccess herror
      exact ⟨by simp; omega, hlimit⟩

/-- Under a limit every line ends. -/
theorem exists_lineEnds (clause : Clause) (store : Store μ) (hcontinued : continued ≤ limit) :
    ∃ verdict, (i.withLimit (some limit)).LineEnds clause continued store verdict := by
  -- The induction is on the continuations that the limit leaves to the line.
  induction hleft : limit - continued using Nat.strongRecOn
    generalizing clause continued store with
  | ind left ih =>
      rcases (i.withLimit (some limit)).line_cases clause continued store with
        hends | ⟨call, next, after, hallowed, _, hcontinued⟩
      · exact hends
      · have hnext := hallowed limit rfl
        obtain ⟨verdict, hends⟩ := ih (limit - (continued + 1)) (by omega) next after hnext rfl
        exact ⟨verdict.after [call], hcontinued verdict hends⟩

/-- Under a limit `limit + 2` turns are enough for a line. -/
theorem LineEnds.line (h : (i.withLimit (some limit)).LineEnds clause continued store verdict)
    (hcontinued : continued ≤ limit) {turns : Nat} (hturns : limit + 2 ≤ turns) :
    (i.withLimit (some limit)).line turns clause continued store = some verdict := by
  obtain ⟨enough, henough, hdrain⟩ := h.drain
  have := henough limit rfl hcontinued
  exact line_mono _ (by omega) (hdrain [])

end Lines

section Statements

variable {clauses : List Clause} {sofar verdict : Verdict μ}

theorem LinesEnd.continued_le (h : i.LinesEnd clauses sofar verdict) :
    sofar.continued ≤ verdict.continued := by
  induction h with
  | nil => exact Nat.le_refl _
  | stopped hends => exact hends.continued_le
  | next hends _ _ ih => exact Nat.le_trans hends.continued_le ih

/-- Two limits that agree on the continuations made lead to the same end. -/
theorem LinesEnd.congr {old new : Option Nat}
    (h : (i.withLimit old).LinesEnd clauses sofar verdict)
    (hagree : ∀ n, n ≤ verdict.continued →
      (i.withLimit new).refusal? n = (i.withLimit old).refusal? n) :
    (i.withLimit new).LinesEnd clauses sofar verdict := by
  induction h with
  | nil => exact .nil
  | stopped hends herror => exact .stopped (hends.congr fun n _ => hagree n) herror
  | next hends herror hrest ih =>
      exact .next (hends.congr fun n _ hn => hagree n (Nat.le_trans hn hrest.continued_le)) herror
        (ih hagree)

/-- Lines that continue more often than the limit allows are ended by the limit, in whichever of
them the count exceeds it. -/
theorem LinesEnd.cut (h : (i.withLimit none).LinesEnd clauses sofar verdict)
    (hsofar : sofar.continued ≤ limit) (hlimit : limit < verdict.continued) :
    ∃ cut, (i.withLimit (some limit)).LinesEnd clauses sofar cut ∧
      cut.error? = some (.continuationLimit limit) := by
  induction h with
  | nil => exact absurd hlimit (Nat.not_lt.mpr hsofar)
  | stopped hends =>
      obtain ⟨cut, hcut, herror⟩ := hends.cut hsofar hlimit
      exact ⟨_, .stopped hcut herror, herror⟩
  | @next _ _ _ line _ hends hline _ ih =>
      by_cases hnow : line.continued ≤ limit
      · -- The limit has allowed the first line, and what it has not cut off is the same.
        obtain ⟨cut, hcut, herror⟩ := ih hnow hlimit
        refine ⟨cut, .next (hends.congr fun n _ hn => ?_) hline hcut, herror⟩
        exact refusal?_of_le (Nat.le_trans hn hnow)
      · obtain ⟨cut, hcut, herror⟩ := hends.cut hsofar (Nat.not_le.mp hnow)
        exact ⟨_, .stopped hcut herror, herror⟩

/-- Lines that do not fail have kept to the limit. -/
theorem LinesEnd.continued_le_limit (h : (i.withLimit (some limit)).LinesEnd clauses sofar verdict)
    (hsofar : sofar.continued ≤ limit) (herror : verdict.error? = none) :
    verdict.continued ≤ limit := by
  induction h with
  | nil => exact hsofar
  | stopped _ hline => simp [hline] at herror
  | next hends hline _ ih => exact ih ((hends.calls_length_le hsofar).2 hline).2 herror

/-- Under a limit lines make one invocation each, and one more for each continuation, at the
most. -/
theorem LinesEnd.calls_length_le (h : (i.withLimit (some limit)).LinesEnd clauses sofar verdict)
    (hsofar : sofar.continued ≤ limit) :
    verdict.calls.length + sofar.continued ≤ sofar.calls.length + clauses.length + limit := by
  induction h with
  | nil => simp; omega
  | stopped hends _ =>
      have := (hends.calls_length_le hsofar).1
      simp; omega
  | next hends hline _ ih =>
      obtain ⟨hcalls, hlimit⟩ := (hends.calls_length_le hsofar).2 hline
      have := ih hlimit
      simp at this ⊢; omega

/-- Under a limit all lines end. -/
theorem exists_linesEnd (clauses : List Clause) (sofar : Verdict μ)
    (hsofar : sofar.continued ≤ limit) :
    ∃ verdict, (i.withLimit (some limit)).LinesEnd clauses sofar verdict := by
  induction clauses generalizing sofar with
  | nil => exact ⟨sofar, .nil⟩
  | cons clause rest ih =>
      obtain ⟨line, hends⟩ := exists_lineEnds (i := i) clause sofar.store hsofar
      cases hline : line.error? with
      | some error => exact ⟨_, .stopped hends hline⟩
      | none =>
          have hlimit := ((hends.calls_length_le hsofar).2 hline).2
          obtain ⟨verdict, hrest⟩ := ih (line.after sofar.calls) hlimit
          exact ⟨verdict, .next hends hline hrest⟩

/-- Under a limit `limit + 2` turns are enough for each of the lines. -/
theorem LinesEnd.linesFrom (h : (i.withLimit (some limit)).LinesEnd clauses sofar verdict)
    (hsofar : sofar.continued ≤ limit) {turns : Nat} (hturns : limit + 2 ≤ turns) :
    (i.withLimit (some limit)).linesFrom turns clauses sofar = some verdict := by
  induction h with
  | nil => rfl
  | stopped hends hline =>
      rw [linesFrom_cons, hends.line hsofar hturns, Option.bind_some, hline]
  | next hends hline _ ih =>
      rw [linesFrom_cons, hends.line hsofar hturns, Option.bind_some, hline]
      exact ih ((hends.calls_length_le hsofar).2 hline).2

/-- Under a limit `limit + 2` turns are enough for a statement. -/
theorem Ends.statement {s : Statement} {store : Store μ}
    (h : (i.withLimit (some limit)).Ends s store verdict) {turns : Nat}
    (hturns : limit + 2 ≤ turns) :
    (i.withLimit (some limit)).statement turns s store = some verdict := by
  rw [statement_eq_linesFrom]
  exact ((ends_iff _).mp h).linesFrom (Nat.zero_le _) hturns

/-- A statement that succeeds without a limit has as many continuations as its hooks count answers
with a line to run next. It ends in the same way under a limit that allows these continuations, and
with the error of the limit under any other. What succeeds under a limit comes out the same under
every larger one and without any. Under a limit every statement ends, after one invocation for each
of its lines and one for each continuation at the most. -/
theorem limit_cuts_off (i : Interpreter μ) (s : Statement) (store : Store μ) (limit : Nat) :
    (∀ verdict, (i.withLimit none).Ends s store verdict → verdict.error? = none →
        (i.withLimit none).counted.Ends s (store.withNote 0) (verdict.withNote verdict.continued) ∧
          ∃ limited, (i.withLimit (some limit)).Ends s store limited ∧
            (limited.error? = none ↔ verdict.continued ≤ limit) ∧
            (verdict.continued ≤ limit → limited = verdict) ∧
            (limited.error? = some (.continuationLimit limit) ↔ limit < verdict.continued)) ∧
      (∀ verdict, (i.withLimit (some limit)).Ends s store verdict → verdict.error? = none →
        (i.withLimit none).Ends s store verdict ∧
          ∀ more, limit ≤ more → (i.withLimit (some more)).Ends s store verdict) ∧
      ∃ verdict, verdict.calls.length ≤ s.clauses.length + limit ∧
        ∀ turns, limit + 2 ≤ turns →
          (i.withLimit (some limit)).statement turns s store = some verdict := by
  refine ⟨fun verdict hends herror => ?_, fun verdict hends herror => ?_, ?_⟩
  · have hlines := (ends_iff _).mp hends
    refine ⟨hends.counted, ?_⟩
    by_cases hle : verdict.continued ≤ limit
    · have hsame := hlines.congr fun n hn => refusal?_of_le (Nat.le_trans hn hle)
      exact ⟨verdict, (ends_iff _).mpr hsame, by simp [herror, hle], fun _ => rfl,
        by simp [herror, hle]⟩
    · obtain ⟨cut, hcut, hrefused⟩ := hlines.cut (Nat.zero_le _) (Nat.not_le.mp hle)
      exact ⟨cut, (ends_iff _).mpr hcut, by simp [hrefused, hle], fun h => absurd h hle,
        by simpa [hrefused] using hle⟩
  · have hlines := (ends_iff _).mp hends
    have hle := hlines.continued_le_limit (Nat.zero_le _) herror
    have hallowed : ∀ n, n ≤ verdict.continued →
        (i.withLimit (some limit)).refusal? n = none :=
      fun n hn => refusal?_of_le (Nat.le_trans hn hle)
    refine ⟨(ends_iff _).mpr (hlines.congr fun n hn => (hallowed n hn).symm),
      fun more hmore => (ends_iff _).mpr (hlines.congr fun n hn => ?_)⟩
    rw [hallowed n hn, refusal?_of_le (Nat.le_trans hn (Nat.le_trans hle hmore))]
  · obtain ⟨verdict, hlines⟩ := exists_linesEnd (i := i) s.clauses
      ⟨none, [], 0, opened s store⟩ (Nat.zero_le limit)
    have hcalls := hlines.calls_length_le (Nat.zero_le _)
    simp only [List.length_nil, Nat.add_zero, Nat.zero_add] at hcalls
    exact ⟨verdict, hcalls, fun turns => ((ends_iff _).mpr hlines).statement⟩

/-- A block of two lines, of which each continues twice: the hooks count four answers with a line to
run next, the limit 3 cuts the block off in the second line, and the limit 4 does not. -/
theorem second_line_cut_off :
    let i : Interpreter Unit := ⟨Vocabulary.empty.add (Plugin.droppingLast "more"), none⟩
    let s : Statement := { tokens := ["more a b", "more c d"], kind := .block }
    ∃ verdict, (i.withLimit none).Ends s (.fresh ()) verdict ∧ verdict.error? = none ∧
      (i.withLimit none).counted.Ends s (.withNote (.fresh ()) 0) (verdict.withNote 4) ∧
      (∃ limited, (i.withLimit (some 3)).Ends s (.fresh ()) limited ∧
        limited.error? = some (.continuationLimit 3)) ∧
      (i.withLimit (some 4)).Ends s (.fresh ()) verdict ∧
      verdict.calls.length = s.clauses.length + 4 := by
  intro i s
  obtain ⟨verdict, hverdict, hfacts⟩ := (Option.any_eq_true _ _).mp (show
    ((i.withLimit none).statement 6 s (.fresh ())).any (fun v => decide
      (v.error? = none ∧ v.continued = 4 ∧ v.calls.length = s.clauses.length + 4)) = true by
        decide)
  obtain ⟨herror, hcontinued, hcalls⟩ := of_decide_eq_true hfacts
  obtain ⟨hcounted, limited, hlimited, _, _, hcut⟩ :=
    (limit_cuts_off i s (.fresh ()) 3).1 verdict ⟨6, hverdict⟩ herror
  obtain ⟨_, same, hends, _, hsame, _⟩ :=
    (limit_cuts_off i s (.fresh ()) 4).1 verdict ⟨6, hverdict⟩ herror
  exact ⟨verdict, ⟨6, hverdict⟩, herror, hcontinued ▸ hcounted,
    ⟨limited, hlimited, hcut.mpr (by omega)⟩, hsame (by omega) ▸ hends, hcalls⟩

end Statements

end Interpreter
end RelationLang
