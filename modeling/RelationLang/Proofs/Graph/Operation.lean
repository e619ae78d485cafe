import RelationLang.Graph.Completion

/-!
# Operations on graphs

All that a caller, or a hook, can do to a graph, as data.

**Input.**  A graph and a list of operations.

**Algorithm.**  Operations are performed in order. A completion pass attempts facts of its own,
one after the other; recording a fact attempts that fact.

**Results.**
* `complete_snd`: a pass records what it attempts, and does nothing else.
* `mem_passAttempts`: where the names in an attempted fact come from.
* `complete_induction`: what each application of the completion rule keeps, a pass keeps.
-/

namespace RelationLang

/-- A change that can be made to a graph. -/
inductive Operation where
  | addAtom (name : String)
  | addBox (name : String) (content : List Token)
  | connect (pair : Pair)
  | record (fact : Fact)
  | complete
  | clear
deriving DecidableEq, Repr

namespace Graph

/-- The graph after an operation. -/
def perform (g : Graph) : Operation → Graph
  | .addAtom name => g.addAtom name
  | .addBox name content => g.addBox name content
  | .connect pair => g.connect pair
  | .record fact => (g.record fact).2
  | .complete => g.complete.2
  | .clear => .empty

/-- The graph after operations in order. -/
def performAll (g : Graph) (ops : List Operation) : Graph := ops.foldl perform g

/-- A graph that operations make from nothing. -/
def Reachable (g : Graph) : Prop := ∃ ops, empty.performAll ops = g

/-- The graph after recording facts in order. -/
def recordAll (g : Graph) (facts : List Fact) : Graph :=
  facts.foldl (fun g fact => (g.record fact).2) g

@[simp] theorem performAll_nil (g : Graph) : g.performAll [] = g := rfl

@[simp] theorem performAll_cons (g : Graph) (op : Operation) (ops : List Operation) :
    g.performAll (op :: ops) = (g.perform op).performAll ops := rfl

theorem performAll_append (g : Graph) (before after : List Operation) :
    g.performAll (before ++ after) = (g.performAll before).performAll after :=
  List.foldl_append

@[simp] theorem recordAll_nil (g : Graph) : g.recordAll [] = g := rfl

@[simp] theorem recordAll_cons (g : Graph) (fact : Fact) (facts : List Fact) :
    g.recordAll (fact :: facts) = (g.record fact).2.recordAll facts := rfl

theorem recordAll_append (g : Graph) (before after : List Fact) :
    g.recordAll (before ++ after) = (g.recordAll before).recordAll after :=
  List.foldl_append

/-- What recording a fact keeps, recording any facts keeps. -/
theorem recordAll_induction {P : Graph → Prop}
    (hrecord : ∀ now fact, P now → P (now.record fact).2) {g : Graph} (h : P g)
    (facts : List Fact) : P (g.recordAll facts) :=
  List.foldlRecOn facts _ h fun now hnow fact _ => hrecord now fact hnow

theorem Reachable.performAll {g : Graph} (h : g.Reachable) (ops : List Operation) :
    (g.performAll ops).Reachable := by
  obtain ⟨before, rfl⟩ := h
  exact ⟨before ++ ops, performAll_append _ _ _⟩

section Pass

/-- The facts attempted in the walk over the dependents of one base. -/
def attemptsWith (base : Pair) (latest : Option Fact) : List Pair → Graph → List Fact
  | [], _ => []
  | dependent :: rest, g =>
    match g.suggestion? base latest dependent with
    | none => attemptsWith base latest rest g
    | some fact => fact :: attemptsWith base latest rest (g.record fact).2

/-- The facts attempted in the walk over bases. -/
def attemptsOver (dependents : List Pair) : List Pair → Graph → List Fact
  | [], _ => []
  | base :: rest, g =>
    let here := attemptsWith base (g.chain.latest? base) dependents g
    here ++ attemptsOver dependents rest (g.recordAll here)

/-- The facts that a pass tries to record, in order. -/
def passAttempts (g : Graph) : List Fact := attemptsOver g.pairs g.pairs g

theorem completeWith_snd (base : Pair) (latest : Option Fact) (dependents : List Pair)
    (count : Nat) (g : Graph) :
    (completeWith base latest dependents (count, g)).2 =
      g.recordAll (attemptsWith base latest dependents g) := by
  induction dependents generalizing count g with
  | nil => rfl
  | cons dependent rest ih =>
      cases h : g.suggestion? base latest dependent with
      | none => simpa [completeWith, derive, attemptsWith, h] using ih count g
      | some fact => simpa [completeWith, derive, attemptsWith, h] using ih _ _

theorem completeOver_snd (dependents bases : List Pair) (count : Nat) (g : Graph) :
    (completeOver dependents bases (count, g)).2 =
      g.recordAll (attemptsOver dependents bases g) := by
  induction bases generalizing count g with
  | nil => rfl
  | cons base rest ih =>
      have hhere := completeWith_snd base (g.chain.latest? base) dependents count g
      simp only [completeOver, attemptsOver, recordAll_append, ← hhere]
      exact ih _ _

/-- A pass records what it attempts, and does nothing else. -/
theorem complete_snd (g : Graph) : g.complete.2 = g.recordAll g.passAttempts :=
  completeOver_snd _ _ _ _

/-- A suggested fact is about the subject of the dependent and the object of the base. -/
theorem suggestion?_pair {g : Graph} {base dependent : Pair} {latest : Option Fact} {fact : Fact}
    (h : g.suggestion? base latest dependent = some fact) :
    fact.pair = ⟨dependent.subject, base.object⟩ := by
  obtain ⟨_, _, _, _, _, rfl⟩ := suggestion?_eq_some_iff.mp h
  rfl

theorem mem_attemptsWith {base : Pair} {latest : Option Fact} {dependents : List Pair} {g : Graph}
    {fact : Fact} (h : fact ∈ attemptsWith base latest dependents g) :
    ∃ dependent ∈ dependents, fact.pair = ⟨dependent.subject, base.object⟩ := by
  induction dependents generalizing g with
  | nil => simp [attemptsWith] at h
  | cons dependent rest ih =>
      simp only [attemptsWith] at h
      split at h
      · obtain ⟨other, hother, hpair⟩ := ih h
        exact ⟨other, List.mem_cons_of_mem _ hother, hpair⟩
      · next suggested hsuggestion =>
          rcases List.mem_cons.mp h with rfl | h
          · exact ⟨dependent, List.mem_cons_self, suggestion?_pair hsuggestion⟩
          · obtain ⟨other, hother, hpair⟩ := ih h
            exact ⟨other, List.mem_cons_of_mem _ hother, hpair⟩

theorem mem_attemptsOver {dependents bases : List Pair} {g : Graph} {fact : Fact}
    (h : fact ∈ attemptsOver dependents bases g) :
    ∃ base ∈ bases, ∃ dependent ∈ dependents, fact.pair = ⟨dependent.subject, base.object⟩ := by
  induction bases generalizing g with
  | nil => simp [attemptsOver] at h
  | cons base rest ih =>
      rcases List.mem_append.mp h with h | h
      · exact ⟨base, List.mem_cons_self, mem_attemptsWith h⟩
      · obtain ⟨other, hother, hpair⟩ := ih h
        exact ⟨other, List.mem_cons_of_mem _ hother, hpair⟩

/-- A fact attempted in a pass joins the subject of one stored pair to the object of another. -/
theorem mem_passAttempts {g : Graph} {fact : Fact} (h : fact ∈ g.passAttempts) :
    ∃ base ∈ g.pairs, ∃ dependent ∈ g.pairs, fact.pair = ⟨dependent.subject, base.object⟩ :=
  mem_attemptsOver h

/-- What each application of the completion rule keeps, a pass keeps. The rule is applied to the
graph at hand and to the latest fact of its base in the graph at the start of the base's turn. -/
theorem complete_induction (g : Graph) {P : Graph → Prop} (hg : P g)
    (hderive : ∀ (start now : Graph) (base dependent : Pair), P start → P now →
      base ∈ g.pairs → dependent ∈ g.pairs →
        P (now.derive base (start.chain.latest? base) dependent).2) :
    P g.complete.2 := by
  have hwith : ∀ (start : Graph) (base : Pair) (dependents : List Pair) (count : Nat)
      (now : Graph), P start → P now → base ∈ g.pairs → dependents ⊆ g.pairs →
        P (completeWith base (start.chain.latest? base) dependents (count, now)).2 := by
    intro start base dependents
    induction dependents with
    | nil => exact fun _ _ _ hnow _ _ => hnow
    | cons dependent rest ih =>
        intro count now hstart hnow hbase hsub
        obtain ⟨hdependent, hrest⟩ := List.cons_subset.mp hsub
        exact ih _ _ hstart (hderive _ _ _ _ hstart hnow hbase hdependent) hbase hrest
  have hover : ∀ (bases : List Pair) (count : Nat) (now : Graph), P now → bases ⊆ g.pairs →
      P (completeOver g.pairs bases (count, now)).2 := by
    intro bases
    induction bases with
    | nil => exact fun _ _ hnow _ => hnow
    | cons base rest ih =>
        intro count now hnow hsub
        obtain ⟨hbase, hrest⟩ := List.cons_subset.mp hsub
        exact ih _ _ (hwith now base g.pairs count now hnow hnow hbase (List.Subset.refl _)) hrest
  exact hover g.pairs 0 g hg (List.Subset.refl _)

end Pass

section Attempts

/-- The facts that an operation tries to record, in order. -/
def attempts (g : Graph) : Operation → List Fact
  | .record fact => [fact]
  | .complete => g.passAttempts
  | _ => []

/-- The facts that operations try to record, in order. -/
def attemptsAll (g : Graph) : List Operation → List Fact
  | [] => []
  | op :: ops => g.attempts op ++ (g.perform op).attemptsAll ops

end Attempts

end Graph
end RelationLang
