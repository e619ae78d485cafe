import RelationLang.Proofs.Graph.Consistency
import RelationLang.Proofs.Interpreter.StandardWords
import RelationLang.Proofs.Program.Layout

/-!
# Names in the graph

Where the names in the pairs of a graph come from, if only the standard words are used.

**Input.**  Statements that are run with the standard words.

**Results.**
* `not_reserved_of_assertion`: the subject of an assertion is not a reserved word.
* `standard_keeps_ends`: what holds of the ends of all pairs asserted holds of the ends of all pairs
  stored.
* `moment_calls`: every line that is invoked is made of names of a statement.
* `StandardMoment.subject_not_reserved`: no stored pair has a reserved word as its subject.
* `ends_of_program`: the ends of every stored pair are names of a statement.
* `names_of_source`: the names of the statements of a text are not empty and contain no line feed.
-/

namespace RelationLang

open Program Text

section Definitions

/-- The word belongs to a verb. -/
def Reserved (name : String) : Prop := (Verb.ofWord? name).isSome = true

instance (name : String) : Decidable (Reserved name) := inferInstanceAs (Decidable (_ = true))

/-- The names that the lines of a statement are made of: the words of a block-shaped statement, and
otherwise its tokens. -/
def Program.Statement.names (statement : Statement) : List Token :=
  if blockShaped statement.tokens then allWords statement.tokens else statement.tokens

/-- Every line that the hook hands back is made of tokens of the line it was called with. -/
def Hook.Selects {μ : Type} (hook : Hook μ) : Prop :=
  ∀ clause store outcome after, hook.run clause store = (.ok outcome, after) →
    outcome.next ⊆ clause.tokens

/-- All tokens of an invoked line have a property. -/
def Call.Within (T : Token → Prop) (call : Call) : Prop := ∀ token ∈ call.clause.tokens, T token

/-- The lines still waiting, and those invoked, are made of tokens with a property. -/
structure Work.Within {μ : Type} (T : Token → Prop) (work : Work μ) : Prop where
  queue : ∀ clause ∈ work.queue, ∀ token ∈ clause.tokens, T token
  calls : ∀ call ∈ work.calls, call.Within T

end Definitions

section Words

variable {μ : Type}

theorem word_of_ofWord? {word : String} {verb : Verb} (h : Verb.ofWord? word = some verb) :
    verb.word = word := by
  simpa using List.find?_some h

/-- An assertion is a line of three tokens with the word in the middle, and not in front. -/
theorem Relation.use_eq_assertion {relation : Relation} {tokens : List Token} {pair : Pair}
    (h : relation.use tokens = .assertion pair) :
    tokens = [pair.subject, relation.word, pair.object] ∧ pair.subject ≠ relation.word := by
  unfold Relation.use at h
  split at h
  · exact nomatch h
  · next subject word object hfind =>
      injection h with h
      subst h
      have hsubject : subject ≠ relation.word := by
        rintro rfl
        simp [List.findIdx?_cons] at hfind
      have hword : word = relation.word := by
        by_contra hne
        simp [List.findIdx?_cons, hsubject, hne] at hfind
      exact ⟨by rw [hword], hsubject⟩
  · exact nomatch h

theorem Relation.use_eq_guard {relation : Relation} {tokens rest : List Token} {pair : Pair}
    (h : relation.use tokens = .guard pair rest) : rest ⊆ tokens := by
  unfold Relation.use at h
  split at h
  · injection h with _ hrest
    subst hrest
    intro token htoken
    simp [htoken]
  · exact nomatch h
  · exact nomatch h

theorem selects_hookWithKind (relation : Relation) (kind : FactKind) :
    (relation.hookWithKind kind : Hook μ).Selects := by
  intro clause store outcome after h
  rcases relation.run_cases kind clause store with
    ⟨pair, rest, huse, hrun⟩ | ⟨_, _, hrun⟩ | ⟨_, hrun⟩
  · rw [hrun] at h
    cases h
    split
    · rw [Outcome.next_ofTokens]
      exact Relation.use_eq_guard huse
    · exact List.nil_subset _
  · rw [hrun] at h
    cases h
    exact List.nil_subset _
  · rw [hrun] at h
    cases h

theorem selects_sayHook : (sayHook : Hook μ).Selects := by
  intro clause store outcome after h
  rcases sayHook_run_cases clause store with ⟨_, hrun⟩ | ⟨_, hrun⟩
  · rw [hrun] at h
    cases h
  · rw [hrun] at h
    cases h
    exact List.nil_subset _

theorem standard_selects {limit : Option Nat} {tokens : List Token} {word : Token} {hook : Hook μ}
    (h : (Interpreter.standard limit).vocabulary.leading? tokens = some (word, hook)) :
    hook.Selects := by
  obtain ⟨verb, _, rfl⟩ := Interpreter.standard_leading h
  cases verb with
  | relation relation => exact selects_hookWithKind relation _
  | say => exact selects_sayHook

theorem Program.subset_of_mem_threes {tokens group : List Token} (h : group ∈ threes tokens) :
    group ⊆ tokens := by
  fun_induction threes tokens with
  | case1 s r o rest ih =>
      rcases List.mem_cons.mp h with rfl | h
      · exact List.subset_append_left [s, r, o] rest
      · exact List.Subset.trans (ih h) (List.subset_append_right [s, r, o] rest)
  | case2 => simp at h

/-- The subject of an assertion stands in front of the leading word, and so is not reserved. -/
theorem not_reserved_of_assertion {limit : Option Nat} {clause : Clause} {word : Token}
    {hook : Hook μ} {signed : SignedPair}
    (h : (Interpreter.standard limit).vocabulary.leading? clause.tokens = some (word, hook))
    (hassertion : (Call.mk word clause).assertion? = some signed) :
    ¬ Reserved signed.pair.subject := by
  obtain ⟨relation, hverb, htokens, hsubject⟩ : ∃ relation : Relation,
      Verb.ofWord? word = some (.relation relation) ∧
        clause.tokens = [signed.pair.subject, relation.word, signed.pair.object] ∧
          signed.pair.subject ≠ relation.word := by
    simp only [Call.assertion?] at hassertion
    split at hassertion
    · next relation hverb =>
        split at hassertion
        · next pair huse =>
            injection hassertion with hassertion
            subst hassertion
            exact ⟨relation, hverb, Relation.use_eq_assertion huse⟩
        · cases hassertion
    · cases hassertion
  -- A reserved subject would be found before the word in the middle.
  intro hreserved
  obtain ⟨verb, hfound⟩ := Option.isSome_iff_exists.mp hreserved
  have hhook : (Interpreter.standard limit : Interpreter μ).vocabulary.hook? signed.pair.subject =
      some verb.hook := by
    rw [Interpreter.standard_hook?, hfound]
    rfl
  rw [htokens, Vocabulary.leading?, List.findSome?_cons, hhook] at h
  obtain ⟨hword, _⟩ := Prod.mk.inj (Option.some.inj h)
  exact hsubject (hword.trans (word_of_ofWord? hverb).symm)

theorem mem_of_assertion {call : Call} {signed : SignedPair} (h : call.assertion? = some signed) :
    signed.pair.subject ∈ call.clause.tokens ∧ signed.pair.object ∈ call.clause.tokens := by
  unfold Call.assertion? at h
  split at h
  · split at h
    · next pair huse =>
        injection h with h
        subst h
        rw [(Relation.use_eq_assertion huse).1]
        simp
    · exact nomatch h
  · exact nomatch h

end Words

namespace Interpreter

section Ends

variable {μ : Type}

/-- Every assertion made has a subject that is not reserved. -/
theorem standard_keeps_asserted (limit : Option Nat) :
    (standard limit : Interpreter μ).Keeps fun calls _ =>
      ∀ signed ∈ assertions calls, ¬ Reserved signed.pair.subject where
  atoms := fun _ h => h
  invoke := fun {calls _ clause word hook} hleading h => by
    rw [assertions_append, List.forall_mem_append]
    refine ⟨h, fun signed hsigned => ?_⟩
    obtain ⟨call, hcall, hassertion⟩ := List.mem_filterMap.mp hsigned
    obtain rfl := List.mem_singleton.mp hcall
    exact not_reserved_of_assertion hleading hassertion
  box := fun _ h => h
  pass := fun _ h => h

/-- If the subjects of all assertions made have one property, and the objects another, so have the
subjects and the objects of all pairs stored. -/
theorem standard_keeps_ends (S O : String → Prop) (limit : Option Nat) :
    (standard limit : Interpreter μ).Keeps fun calls store =>
      (∀ signed ∈ assertions calls, S signed.pair.subject ∧ O signed.pair.object) →
        ∀ pair ∈ store.graph.pairs, S pair.subject ∧ O pair.object where
  atoms := fun {_ store tokens} _ h hcalls => by
    rw [Store.mapGraph, Graph.addAtoms_pairs]
    exact h hcalls
  invoke := fun {calls store clause word hook} hleading h hcalls => by
    rw [assertions_append, List.forall_mem_append] at hcalls
    rcases standard_invoke hleading store with ⟨_, hgraph⟩ | ⟨fact, hasserts, hgraph⟩
    · rw [hgraph]
      exact h hcalls.1
    · intro pair hpair
      rw [hgraph, Graph.record_pairs, Graph.mem_pairs_connect] at hpair
      rcases hpair with hpair | rfl
      · exact h hcalls.1 pair hpair
      · exact hcalls.2 fact.signed (by simp [assertions, hasserts])
  box := fun _ h => h
  pass := fun {_ store} attempted h hcalls => by
    intro pair hpair
    rw [midPass, Store.mapGraph, Graph.mem_pairs_recordAll] at hpair
    rcases hpair with hpair | ⟨fact, hfact, rfl⟩
    · exact h hcalls pair hpair
    -- A suggested pair has its subject from one stored pair and its object from another.
    · obtain ⟨base, hbase, dependent, hdependent, heq⟩ :=
        Graph.mem_passAttempts (List.mem_of_mem_take hfact)
      rw [heq]
      exact ⟨(h hcalls dependent hdependent).1, (h hcalls base hbase).2⟩

/-- No stored pair has a reserved word as its subject. -/
theorem StandardMoment.subject_not_reserved {calls : List Call} {store : Store μ}
    (h : StandardMoment calls store) : ∀ pair ∈ store.graph.pairs, ¬ Reserved pair.subject := by
  have hasserted : ∀ signed ∈ assertions calls, ¬ Reserved signed.pair.subject :=
    h.keeps (standard_keeps_asserted (μ := μ)) fun _ => by simp [assertions]
  intro pair hpair
  exact (h.keeps (standard_keeps_ends (¬ Reserved ·) fun _ => True)
    (fun _ _ => by simp [Store.fresh])
    (fun signed hsigned => ⟨hasserted signed hsigned, trivial⟩) pair hpair).1

end Ends

section Lines

variable {μ : Type} {limit : Option Nat} {T : Token → Prop}

theorem turn_calls_within (limit : Option Nat) {work : Work μ} (h : work.Within T) :
    ∀ call ∈ ((standard limit).turn work).calls, call.Within T := by
  have hcalls : ∀ call ∈ work.calls.reverse, call.Within T :=
    fun call hcall => h.calls call (List.mem_reverse.mp hcall)
  rcases (standard limit).turn_effect work with ⟨_, heq, _⟩ | ⟨_, _, _, _, heq, _⟩ |
    ⟨clause, queue, word, hook, hqueue, _, heq, _⟩
  · rwa [heq]
  · rwa [heq]
  · rw [heq]
    refine List.forall_mem_append.mpr ⟨hcalls, fun call hcall => ?_⟩
    obtain rfl := List.mem_singleton.mp hcall
    exact h.queue clause (by simp [hqueue])

theorem turn_within {work next : Work μ} (h : work.Within T)
    (hturn : (standard limit).turn work = .going next) : next.Within T where
  queue := by
    obtain ⟨clause, queue, hqueue, hnext⟩ := (standard limit).turn_queue hturn
    have hwaiting := h.queue
    rw [hqueue, List.forall_mem_cons] at hwaiting
    rcases hnext with hnext | ⟨word, hook, outcome, after, hleading, hrun, hnext⟩
    · rw [hnext]
      exact hwaiting.2
    · rw [hnext]
      refine List.forall_mem_append.mpr ⟨hwaiting.2, fun line hline => ?_⟩
      obtain rfl := List.mem_singleton.mp hline
      exact fun token htoken =>
        hwaiting.1 token (standard_selects hleading _ _ _ _ hrun htoken)
  calls call hcall := by
    have hcalls := turn_calls_within limit h
    rw [hturn] at hcalls
    exact hcalls call (List.mem_reverse.mpr hcall)

theorem underway_within {start now : Work μ} (h : start.Within T)
    (hnow : (standard limit).Underway start now) : now.Within T := by
  induction hnow with
  | refl => exact h
  | turn _ hturn ih => exact turn_within ih hturn

theorem lineMoment_calls {clause : Clause} {continued : Nat} {store now : Store μ}
    {calls : List Call} (h : (standard limit).LineMoment clause continued store calls now)
    (hclause : ∀ token ∈ clause.tokens, T token) : ∀ call ∈ calls, call.Within T := by
  have hstart : Work.Within T ⟨[clause], [], continued, store⟩ := ⟨by simpa using hclause, by simp⟩
  cases h with
  | going hunder =>
      exact fun call hcall =>
        (underway_within hstart hunder).calls call (List.mem_reverse.mp hcall)
  | ended hunder hturn =>
      have hcalls := turn_calls_within limit (underway_within hstart hunder)
      rwa [hturn] at hcalls

theorem linesMoment_calls {turns : Nat} {clauses : List Clause} {continued : Nat}
    {store now : Store μ} {calls : List Call}
    (h : (standard limit).LinesMoment turns clauses continued store calls now)
    (hclauses : ∀ clause ∈ clauses, ∀ token ∈ clause.tokens, T token) :
    ∀ call ∈ calls, call.Within T := by
  induction h with
  | start => simp
  | within hline => exact lineMoment_calls hline (List.forall_mem_cons.mp hclauses).1
  | later hline _ _ ih =>
      rw [List.forall_mem_cons] at hclauses
      exact List.forall_mem_append.mpr
        ⟨lineMoment_calls ((standard limit).line_moment hline) hclauses.1, ih hclauses.2⟩

theorem statementMoment_calls {turns : Nat} {statement : Statement} {store now : Store μ}
    {calls : List Call} (h : (standard limit).StatementMoment turns statement store calls now) :
    ∀ call ∈ calls, call.Within (· ∈ statement.names) := by
  cases h with
  | line hshape hline =>
      have hnames : statement.names = statement.tokens := by simp [Statement.names, hshape]
      rw [hnames]
      exact lineMoment_calls hline fun token htoken => htoken
  | block hshape hlines =>
      refine linesMoment_calls hlines (List.forall_mem_map.mpr fun group hgroup token htoken => ?_)
      rw [Statement.names, if_pos hshape]
      exact subset_of_mem_threes hgroup htoken

/-- The lines invoked while a program is run are made of names of its statements. -/
theorem moment_calls {turns : Nat} {ss : List Statement} {store now : Store μ} {calls : List Call}
    (h : (standard limit).Moment turns ss store calls now) :
    ∀ call ∈ calls, call.Within fun name => ∃ s ∈ ss, name ∈ s.names := by
  induction h with
  | start => simp
  | within hstatement =>
      exact fun call hcall token htoken =>
        ⟨_, List.mem_cons_self, statementMoment_calls hstatement call hcall token htoken⟩
  | completing attempted hstatement _ =>
      exact fun call hcall token htoken => ⟨_, List.mem_cons_self, statementMoment_calls
        ((standard limit).statement_moment hstatement) call hcall token htoken⟩
  | later hstatement _ _ ih =>
      refine List.forall_mem_append.mpr ⟨fun call hcall token htoken => ⟨_, List.mem_cons_self,
        statementMoment_calls ((standard limit).statement_moment hstatement) call hcall token
          htoken⟩, fun call hcall token htoken => ?_⟩
      obtain ⟨s, hs, hname⟩ := ih call hcall token htoken
      exact ⟨s, List.mem_cons_of_mem _ hs, hname⟩

/-- The ends of the pairs that a program stores from nothing are names of its statements. -/
theorem ends_of_program {turns : Nat} {ss : List Statement} {memory : μ} {report : Report μ}
    (h : (standard limit).program turns ss (.fresh memory) = some report) :
    ∀ pair ∈ report.store.graph.pairs,
      (∃ s ∈ ss, pair.subject ∈ s.names) ∧ ∃ s ∈ ss, pair.object ∈ s.names := by
  have hmoment := (standard limit).program_moment h
  have hcalls := moment_calls hmoment
  refine (standard_keeps_ends (fun name => ∃ s ∈ ss, name ∈ s.names)
    (fun name => ∃ s ∈ ss, name ∈ s.names) limit).moment [] (fun _ => by simp [Store.fresh])
      hmoment ?_
  intro signed hsigned
  obtain ⟨call, hcall, hassertion⟩ := List.mem_filterMap.mp hsigned
  obtain ⟨hsubject, hobject⟩ := mem_of_assertion hassertion
  exact ⟨hcalls call hcall _ hsubject, hcalls call hcall _ hobject⟩

end Lines

end Interpreter

section Sources

variable {ss : List Statement} {s : Statement}

theorem Program.Items.tokens_nonempty (h : Items ss) (hs : s ∈ ss) :
    ∀ token ∈ s.tokens, token ≠ "" ∧ '\n' ∉ token.toList := by
  induction h with
  | nil => exact nomatch hs
  | plain hwords _ ih =>
      rcases List.mem_cons.mp hs with rfl | hs
      · exact fun w hw => ⟨(hwords.word w hw).1, hwords.newline w hw⟩
      · exact ih hs
  | headed hwords _ hblock _ ih =>
      rcases List.mem_append.mp hs with hs | hs
      · rcases List.mem_pair.mp hs with rfl | rfl
        · exact fun w hw => ⟨(hwords.word w hw).1, hwords.newline w hw⟩
        · exact fun token htoken => ⟨(hblock token htoken).nonempty, (hblock token htoken).newline⟩
      · exact ih hs

theorem Program.LaidOut.tokens_nonempty (h : LaidOut ss) (hs : s ∈ ss) :
    ∀ token ∈ s.tokens, token ≠ "" ∧ '\n' ∉ token.toList := by
  obtain ⟨boxes, items, rfl, hboxes, hitems⟩ := h
  rcases List.mem_append.mp hs with hs | hs
  · obtain ⟨box, hbox, rfl⟩ := List.mem_map.mp hs
    intro token htoken
    obtain rfl := List.mem_singleton.mp htoken
    exact ⟨(hboxes token hbox).nonempty, (hboxes token hbox).newline⟩
  · exact hitems.tokens_nonempty hs

/-- The names of the statements of a text are not empty and contain no line feed. -/
theorem names_of_source {source : String} (hs : s ∈ statements source) :
    ∀ name ∈ s.names, name ≠ "" ∧ '\n' ∉ name.toList := by
  have hlaid : LaidOut (statements source) := laidOut_ofLines (lines_iff.mp ⟨source, rfl⟩)
  have htokens := hlaid.tokens_nonempty hs
  unfold Statement.names
  split
  · intro name hname
    obtain ⟨token, htoken, hword⟩ := List.mem_flatMap.mp hname
    obtain ⟨⟨hne, _⟩, hsubset⟩ := mem_splitWords hword
    exact ⟨hne, fun hnewline => (htokens token htoken).2 (hsubset hnewline)⟩
  · exact htokens

end Sources

end RelationLang
