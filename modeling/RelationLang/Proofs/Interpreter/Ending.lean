import RelationLang.Proofs.Interpreter.Effect

/-!
# How statements end

The interpreter takes turns on a queue. The queue never holds more than one line, so a line can be
read as a recursion: its leading word is invoked, and the line that the hook hands back is run
after it. This says how a line ends without counting turns.

**Input.**  An interpreter, and the lines of a statement.

**Algorithm.**  A line without reserved words stores its tokens. Otherwise one hook is invoked. It
fails, ends the line, or hands back tokens; then the next continuation is refused if its number
exceeds the limit, and otherwise these tokens are run as a line with one more continuation to their
account.

**Results.**
* `line_iff`: the queue ends with a verdict, in some number of turns, if and only if the recursion
  does.
* `ends_iff`: a statement ends as its lines do, one after the other.
* `Ends.unique`: there is at most one verdict.
* `linesFrom_cons_cases`, `program_cons_cases`: how several lines, or statements, have come to an
  end.
-/

namespace RelationLang

open Program

section Definitions

variable {μ : Type}

/-- A verdict with invocations that were made before. -/
def Verdict.after (calls : List Call) (verdict : Verdict μ) : Verdict μ :=
  { verdict with calls := calls ++ verdict.calls }

/-- The lines as which a statement is run: its words three at a time if it is block-shaped, and
otherwise the statement itself. -/
def Program.Statement.clauses (statement : Statement) : List Clause :=
  if blockShaped statement.tokens then
    (threes (allWords statement.tokens)).map fun group => { tokens := group }
  else [{ tokens := statement.tokens, block := statement.block }]

namespace Interpreter

variable (i : Interpreter μ)

/-- The store in which the first line of a statement is run: a block is boxed before. -/
def opened (statement : Statement) (store : Store μ) : Store μ :=
  if blockShaped statement.tokens then box statement.tokens store else store

/-- How a line ends that belongs to a statement with some number of continuations so far. -/
inductive LineEnds : Clause → Nat → Store μ → Verdict μ → Prop
  | atoms {clause : Clause} {continued : Nat} {store after : Store μ} :
      i.vocabulary.leading? clause.tokens = none →
      store.Alters (Graph.AtomsStored clause.tokens) after →
      LineEnds clause continued store ⟨none, [], continued, after⟩
  | failed {clause : Clause} {continued : Nat} {store after : Store μ} {word : Token}
      {hook : Hook μ} {error : Error} :
      i.vocabulary.leading? clause.tokens = some (word, hook) →
      hook.run clause store = (.error error, after) →
      LineEnds clause continued store ⟨some error, [⟨word, clause⟩], continued, after⟩
  | done {clause : Clause} {continued : Nat} {store after : Store μ} {word : Token}
      {hook : Hook μ} {outcome : Outcome} :
      i.vocabulary.leading? clause.tokens = some (word, hook) →
      hook.run clause store = (.ok outcome, after) →
      outcome.next = [] →
      LineEnds clause continued store ⟨none, [⟨word, clause⟩], continued, after⟩
  | refused {clause : Clause} {continued limit : Nat} {store after : Store μ} {word first : Token}
      {rest : List Token} {hook : Hook μ} {outcome : Outcome} :
      i.vocabulary.leading? clause.tokens = some (word, hook) →
      hook.run clause store = (.ok outcome, after) →
      outcome.next = first :: rest →
      i.limit = some limit →
      limit < continued + 1 →
      LineEnds clause continued store
        ⟨some (.continuationLimit limit), [⟨word, clause⟩], continued + 1, after⟩
  | continued {clause : Clause} {continued : Nat} {store after : Store μ} {word first : Token}
      {rest : List Token} {hook : Hook μ} {outcome : Outcome} {verdict : Verdict μ} :
      i.vocabulary.leading? clause.tokens = some (word, hook) →
      hook.run clause store = (.ok outcome, after) →
      outcome.next = first :: rest →
      (∀ limit, i.limit = some limit → continued + 1 ≤ limit) →
      LineEnds { tokens := first :: rest } (continued + 1) after verdict →
      LineEnds clause continued store (verdict.after [⟨word, clause⟩])

/-- How the lines of a statement end from what has happened so far; the first line that fails is
the last one. -/
inductive LinesEnd : List Clause → Verdict μ → Verdict μ → Prop
  | nil {sofar : Verdict μ} : LinesEnd [] sofar sofar
  | stopped {clause : Clause} {rest : List Clause} {sofar verdict : Verdict μ} {error : Error} :
      i.LineEnds clause sofar.continued sofar.store verdict →
      verdict.error? = some error →
      LinesEnd (clause :: rest) sofar (verdict.after sofar.calls)
  | next {clause : Clause} {rest : List Clause} {sofar verdict last : Verdict μ} :
      i.LineEnds clause sofar.continued sofar.store verdict →
      verdict.error? = none →
      LinesEnd rest (verdict.after sofar.calls) last →
      LinesEnd (clause :: rest) sofar last

/-- A statement ends with a verdict if enough turns are given. -/
def Ends (statement : Statement) (store : Store μ) (verdict : Verdict μ) : Prop :=
  ∃ turns, i.statement turns statement store = some verdict

end Interpreter

end Definitions

namespace Verdict

variable {μ : Type} (calls : List Call) (verdict : Verdict μ)

@[simp] theorem error?_after : (verdict.after calls).error? = verdict.error? := rfl

@[simp] theorem calls_after : (verdict.after calls).calls = calls ++ verdict.calls := rfl

@[simp] theorem continued_after : (verdict.after calls).continued = verdict.continued := rfl

@[simp] theorem store_after : (verdict.after calls).store = verdict.store := rfl

@[simp] theorem after_nil : verdict.after [] = verdict := rfl

theorem after_after (before : List Call) :
    (verdict.after calls).after before = verdict.after (before ++ calls) := by
  simp [after]

end Verdict

namespace Interpreter

variable {μ : Type} (i : Interpreter μ)

section Lines

variable {clause : Clause} {continued : Nat} {store : Store μ} {verdict : Verdict μ}

/-- A line that a hook continues ends with the refusal, if there is one. -/
theorem lineEnds_of_refusal? {after : Store μ} {word first : Token} {rest : List Token}
    {hook : Hook μ} {outcome : Outcome} {error : Error}
    (hleading : i.vocabulary.leading? clause.tokens = some (word, hook))
    (hrun : hook.run clause store = (.ok outcome, after)) (hnext : outcome.next = first :: rest)
    (hrefusal : i.refusal? (continued + 1) = some error) :
    i.LineEnds clause continued store ⟨some error, [⟨word, clause⟩], continued + 1, after⟩ := by
  obtain ⟨limit, hlimit, hlt, rfl⟩ := refusal?_eq_some_iff.mp hrefusal
  exact .refused hleading hrun hnext hlimit hlt

/-- A line ends with its first invocation, or it goes on with the line that a hook has handed
back. -/
theorem line_cases (clause : Clause) (continued : Nat) (store : Store μ) :
    (∃ verdict, i.LineEnds clause continued store verdict) ∨
      ∃ call next after, (∀ limit, i.limit = some limit → continued + 1 ≤ limit) ∧
        (∀ calls, i.turn ⟨[clause], calls, continued, store⟩ =
          .going ⟨[next], call :: calls, continued + 1, after⟩) ∧
        ∀ verdict, i.LineEnds next (continued + 1) after verdict →
          i.LineEnds clause continued store (verdict.after [call]) := by
  cases hleading : i.vocabulary.leading? clause.tokens with
  | none => exact .inl ⟨_, .atoms hleading (Store.alters_atoms_iff.mpr rfl)⟩
  | some found =>
      obtain ⟨word, hook⟩ := found
      rcases hrun : hook.run clause store with ⟨_ | outcome, after⟩
      · exact .inl ⟨_, .failed hleading hrun⟩
      · cases hnext : outcome.next with
        | nil => exact .inl ⟨_, .done hleading hrun hnext⟩
        | cons first rest =>
            cases hrefusal : i.refusal? (continued + 1) with
            | some error => exact .inl ⟨_, i.lineEnds_of_refusal? hleading hrun hnext hrefusal⟩
            | none =>
                have hallowed := refusal?_eq_none_iff.mp hrefusal
                exact .inr ⟨⟨word, clause⟩, { tokens := first :: rest }, after, hallowed,
                  fun calls => by simp [turn, hleading, hrun, hnext, hrefusal],
                  fun _ hends => .continued hleading hrun hnext hallowed hends⟩

/-- The queue ends as the recursion does. Each turn but the last two is a continuation, so a limit
bounds the turns. -/
theorem LineEnds.drain {i : Interpreter μ} (h : i.LineEnds clause continued store verdict) :
    ∃ turns, (∀ limit, i.limit = some limit → continued ≤ limit → turns + continued ≤ limit + 2) ∧
      ∀ calls, i.drain turns ⟨[clause], calls, continued, store⟩ =
        some (verdict.after calls.reverse) := by
  induction h with
  | atoms hleading hstored =>
      obtain rfl := Store.alters_atoms_iff.mp hstored
      exact ⟨2, fun _ _ _ => by omega,
        fun _ => by simp [Interpreter.drain, turn, hleading, Verdict.after]⟩
  | failed hleading hrun =>
      exact ⟨1, fun _ _ _ => by omega,
        fun _ => by simp [Interpreter.drain, turn, hleading, hrun, Verdict.after]⟩
  | done hleading hrun hnext =>
      exact ⟨2, fun _ _ _ => by omega,
        fun _ => by simp [Interpreter.drain, turn, hleading, hrun, hnext, Verdict.after]⟩
  | refused hleading hrun hnext hlimit hlt =>
      have hrefusal := refusal?_eq_some_iff.mpr ⟨_, hlimit, hlt, rfl⟩
      exact ⟨1, fun _ _ _ => by omega,
        fun _ => by simp [Interpreter.drain, turn, hleading, hrun, hnext, hrefusal, Verdict.after]⟩
  | continued hleading hrun hnext hallowed _ ih =>
      obtain ⟨turns, hturns, hdrain⟩ := ih
      have hrefusal := refusal?_eq_none_iff.mpr hallowed
      refine ⟨turns + 1, fun limit hlimit _ => ?_, fun calls => ?_⟩
      · have := hturns limit hlimit (hallowed limit hlimit)
        omega
      · simp only [Interpreter.drain, turn, hleading, hrun, hnext, hrefusal, List.nil_append,
          hdrain, Verdict.after_after, List.reverse_cons]

/-- The recursion ends as the queue does. -/
theorem lineEnds_of_drain {turns : Nat} {calls : List Call}
    (h : i.drain turns ⟨[clause], calls, continued, store⟩ = some verdict) :
    ∃ line, i.LineEnds clause continued store line ∧ verdict = line.after calls.reverse := by
  induction turns generalizing clause continued store calls with
  | zero => exact nomatch h
  | succ turns ih =>
      rcases i.line_cases clause continued store with
        ⟨line, hends⟩ | ⟨call, next, after, _, hturn, hcontinued⟩
      · -- Two runs of the queue that both end have the same verdict.
        obtain ⟨enough, -, hdrain⟩ := hends.drain
        have hmore := i.drain_mono (Nat.le_max_left _ enough) h
        have hline := i.drain_mono (Nat.le_max_right (turns + 1) _) (hdrain calls)
        exact ⟨line, hends, Option.some.inj (hmore.symm.trans hline)⟩
      · rw [drain, hturn] at h
        obtain ⟨line, hends, rfl⟩ := ih h
        exact ⟨line.after [call], hcontinued line hends, by simp [Verdict.after_after]⟩

/-- A line ends with a verdict, in some number of turns, if and only if the recursion does. -/
theorem line_iff :
    (∃ turns, i.line turns clause continued store = some verdict) ↔
      i.LineEnds clause continued store verdict := by
  constructor
  · rintro ⟨turns, h⟩
    obtain ⟨line, hends, rfl⟩ := i.lineEnds_of_drain h
    exact hends
  · intro h
    obtain ⟨turns, -, hdrain⟩ := h.drain
    exact ⟨turns, hdrain []⟩

theorem line_mono {turns more : Nat} (hle : turns ≤ more)
    (h : i.line turns clause continued store = some verdict) :
    i.line more clause continued store = some verdict :=
  i.drain_mono hle h

end Lines

section Statements

variable {clauses : List Clause} {sofar verdict : Verdict μ}

theorem linesFrom_cons (turns : Nat) (clause : Clause) (rest : List Clause) (sofar : Verdict μ) :
    i.linesFrom turns (clause :: rest) sofar =
      (i.line turns clause sofar.continued sofar.store).bind fun verdict =>
        match verdict.error? with
        | some _ => some (verdict.after sofar.calls)
        | none => i.linesFrom turns rest (verdict.after sofar.calls) := by
  rw [linesFrom]
  cases i.line turns clause sofar.continued sofar.store <;> rfl

/-- The first of several lines ends; if it fails it is the last one, and otherwise the other lines
are run after it. -/
theorem linesFrom_cons_cases {turns : Nat} {clause : Clause} {rest : List Clause}
    (h : i.linesFrom turns (clause :: rest) sofar = some verdict) :
    ∃ line, i.line turns clause sofar.continued sofar.store = some line ∧
      ((∃ error, line.error? = some error ∧ verdict = line.after sofar.calls) ∨
        (line.error? = none ∧
          i.linesFrom turns rest (line.after sofar.calls) = some verdict)) := by
  rw [linesFrom_cons, Option.bind_eq_some_iff] at h
  obtain ⟨line, hline, h⟩ := h
  refine ⟨line, hline, ?_⟩
  cases herror : line.error? with
  | some error =>
      rw [herror] at h
      exact .inl ⟨error, rfl, (Option.some.inj h).symm⟩
  | none =>
      rw [herror] at h
      exact .inr ⟨rfl, h⟩

theorem linesFrom_mono {turns more : Nat} (hle : turns ≤ more)
    (h : i.linesFrom turns clauses sofar = some verdict) :
    i.linesFrom more clauses sofar = some verdict := by
  induction clauses generalizing sofar with
  | nil => exact h
  | cons clause rest ih =>
      obtain ⟨line, hline, ⟨error, herror, rfl⟩ | ⟨herror, hrest⟩⟩ := i.linesFrom_cons_cases h
      · rw [linesFrom_cons, i.line_mono hle hline, Option.bind_some, herror]
      · rw [linesFrom_cons, i.line_mono hle hline, Option.bind_some, herror]
        exact ih hrest

/-- Lines end with a verdict, in some number of turns for each, if and only if the recursion
does. -/
theorem linesFrom_iff :
    (∃ turns, i.linesFrom turns clauses sofar = some verdict) ↔
      i.LinesEnd clauses sofar verdict := by
  constructor
  · rintro ⟨turns, h⟩
    induction clauses generalizing sofar with
    | nil =>
        injection h with h
        exact h ▸ .nil
    | cons clause rest ih =>
        obtain ⟨line, hline, ⟨error, herror, rfl⟩ | ⟨herror, hrest⟩⟩ := i.linesFrom_cons_cases h
        · exact .stopped (i.line_iff.mp ⟨turns, hline⟩) herror
        · exact .next (i.line_iff.mp ⟨turns, hline⟩) herror (ih hrest)
  · intro h
    induction h with
    | nil => exact ⟨0, rfl⟩
    | stopped hends herror =>
        obtain ⟨turns, hline⟩ := i.line_iff.mpr hends
        exact ⟨turns, by rw [linesFrom_cons, hline, Option.bind_some, herror]⟩
    | next hends herror _ ih =>
        obtain ⟨turns, hline⟩ := i.line_iff.mpr hends
        obtain ⟨more, hlines⟩ := ih
        refine ⟨max turns more, ?_⟩
        rw [linesFrom_cons, i.line_mono (Nat.le_max_left _ _) hline, Option.bind_some, herror]
        exact i.linesFrom_mono (Nat.le_max_right _ _) hlines

/-- The words of a block are boxed before its first line is run. -/
theorem boxes_opened {statement : Statement} (hshape : blockShaped statement.tokens = true)
    (store : Store μ) : store.Boxes statement.tokens (opened statement store) :=
  Store.boxes_iff.mpr (if_pos hshape)

/-- A statement is run as its lines. -/
theorem statement_eq_linesFrom (turns : Nat) (statement : Statement) (store : Store μ) :
    i.statement turns statement store =
      i.linesFrom turns statement.clauses ⟨none, [], 0, opened statement store⟩ := by
  rw [Interpreter.statement, Statement.clauses, opened]
  split
  · rfl
  · rw [linesFrom_cons]
    cases i.line turns _ 0 store with
    | none => rfl
    | some verdict => cases herror : verdict.error? <;> simp [herror, linesFrom]

theorem statement_mono {turns more : Nat} (hle : turns ≤ more) {statement : Statement}
    {store : Store μ} (h : i.statement turns statement store = some verdict) :
    i.statement more statement store = some verdict := by
  rw [statement_eq_linesFrom] at h ⊢
  exact i.linesFrom_mono hle h

/-- A statement ends as its lines do, one after the other. -/
theorem ends_iff {statement : Statement} {store : Store μ} :
    i.Ends statement store verdict ↔
      i.LinesEnd statement.clauses ⟨none, [], 0, opened statement store⟩ verdict := by
  rw [← linesFrom_iff]
  exact exists_congr fun turns => by rw [statement_eq_linesFrom]

/-- A statement ends with one verdict at the most. -/
theorem Ends.unique {i : Interpreter μ} {statement : Statement} {store : Store μ}
    {other : Verdict μ} (h : i.Ends statement store verdict) (h' : i.Ends statement store other) :
    verdict = other := by
  obtain ⟨turns, hverdict⟩ := h
  obtain ⟨turns', hother⟩ := h'
  exact Option.some.inj ((i.statement_mono (Nat.le_max_left _ _) hverdict).symm.trans
    (i.statement_mono (Nat.le_max_right turns turns') hother))

end Statements

section Programs

/-- The first of several statements ends; if it fails it is the last one, and otherwise the other
statements are run after it and a completion pass. -/
theorem program_cons_cases {turns : Nat} {first : Statement} {rest : List Statement}
    {store : Store μ} {report : Report μ}
    (h : i.program turns (first :: rest) store = some report) :
    ∃ verdict, i.statement turns first store = some verdict ∧
      ((∃ error, verdict.error? = some error ∧
          report = ⟨some error, 0, verdict.calls, 0, verdict.store⟩) ∨
        (verdict.error? = none ∧ ∃ tail,
          i.program turns rest (verdict.store.mapGraph fun g => g.complete.2) = some tail ∧
            report = { tail with
              statements := 1 + tail.statements
              calls := verdict.calls ++ tail.calls
              inferred := verdict.store.graph.complete.1 + tail.inferred })) := by
  simp only [program] at h
  cases hfirst : i.statement turns first store with
  | none => simp [hfirst] at h
  | some verdict =>
      simp only [hfirst] at h
      refine ⟨verdict, rfl, ?_⟩
      cases herror : verdict.error? with
      | some error =>
          simp only [herror] at h
          exact .inl ⟨error, rfl, (Option.some.inj h).symm⟩
      | none =>
          simp only [herror] at h
          split at h
          · exact nomatch h
          · next tail htail => exact .inr ⟨rfl, tail, htail, (Option.some.inj h).symm⟩

end Programs

end Interpreter
end RelationLang
