import RelationLang.Interpreter

/-!
# Running one after the other

A run ends with an error or goes on with another one from the store that it has left. The end of
both is that of the second, with what has happened in the first put in front.

**Results.**
* `goOn_bind`: three runs in a row can be joined from either side.
* `inTurn_append`, `inTurn_flatMap`: what runs in turn can be cut into parts, each of which runs in
  turn.
-/

namespace RelationLang

section Definitions

variable {μ : Type}

/-- Goes on from an end of some kind, unless it is an error, and joins the two ends. -/
def goOn {ε : Type} (error? : ε → Option Error) (store : ε → Store μ) (join : ε → ε → ε)
    (first : ε) (next : Store μ → Option ε) : Option ε :=
  match error? first with
  | some _ => some first
  | none => (next (store first)).map (join first)

/-- Joining ends keeps the error and the store of the last one, and does not depend on which are
joined first. -/
structure JoinsEnds {ε : Type} (error? : ε → Option Error) (store : ε → Store μ)
    (join : ε → ε → ε) : Prop where
  error : ∀ first second, error? (join first second) = error? second
  store : ∀ first second, store (join first second) = store second
  assoc : ∀ first second third, join (join first second) third = join first (join second third)

/-- The verdict of what has succeeded, and of something else run after it. -/
def Verdict.andThen (first second : Verdict μ) : Verdict μ where
  error? := second.error?
  calls := first.calls ++ second.calls
  continued := first.continued + second.continued
  store := second.store

/-- Goes on with something else, unless the first has failed. -/
def Verdict.proceed : Verdict μ → (Store μ → Option (Verdict μ)) → Option (Verdict μ) :=
  goOn Verdict.error? Verdict.store andThen

/-- The verdict of doing nothing. -/
def Verdict.start (store : Store μ) : Verdict μ := ⟨none, [], 0, store⟩

/-- Runs one after the other, until one of them fails. -/
def inTurn {α : Type} (run : α → Store μ → Option (Verdict μ)) :
    List α → Store μ → Option (Verdict μ)
  | [], store => some (.start store)
  | first :: rest, store => (run first store).bind (·.proceed (inTurn run rest))

end Definitions

section GoingOn

variable {μ : Type} {ε : Type} {error? : ε → Option Error} {store : ε → Store μ}
  {join : ε → ε → ε} {first : ε}

theorem goOn_of_error {error : Error} (h : error? first = some error)
    (next : Store μ → Option ε) : goOn error? store join first next = some first := by
  simp [goOn, h]

theorem goOn_of_success (h : error? first = none) (next : Store μ → Option ε) :
    goOn error? store join first next = (next (store first)).map (join first) := by
  simp [goOn, h]

/-- Three runs in a row can be joined from either side. -/
theorem goOn_bind (hjoin : JoinsEnds error? store join) (first : ε)
    (second third : Store μ → Option ε) :
    (goOn error? store join first second).bind (goOn error? store join · third) =
      goOn error? store join first fun now =>
        (second now).bind (goOn error? store join · third) := by
  cases hfirst : error? first with
  | some error => simp only [goOn_of_error hfirst, Option.bind_some]
  | none =>
      rw [goOn_of_success hfirst, goOn_of_success hfirst]
      cases second (store first) with
      | none => rfl
      | some middle =>
          simp only [Option.map_some, Option.bind_some]
          cases hmiddle : error? middle with
          | some error =>
              rw [goOn_of_error hmiddle, goOn_of_error ((hjoin.error first middle).trans hmiddle),
                Option.map_some]
          | none =>
              rw [goOn_of_success hmiddle,
                goOn_of_success ((hjoin.error first middle).trans hmiddle), Option.map_map,
                hjoin.store first middle]
              exact congrArg (Option.map · _) (funext (hjoin.assoc first middle))

end GoingOn

section InTurn

variable {μ α β : Type}

theorem Verdict.joinsEnds_andThen :
    JoinsEnds Verdict.error? (Verdict.store : Verdict μ → Store μ) Verdict.andThen where
  error _ _ := rfl
  store _ _ := rfl
  assoc _ _ _ := by simp [andThen, Nat.add_assoc]

theorem Verdict.map_start_andThen (store : Store μ) (verdict? : Option (Verdict μ)) :
    verdict?.map (Verdict.start store).andThen = verdict? := by
  cases verdict? <;> simp [andThen, start]

theorem inTurn_append (run : α → Store μ → Option (Verdict μ)) (before after : List α)
    (store : Store μ) :
    inTurn run (before ++ after) store =
      (inTurn run before store).bind (·.proceed (inTurn run after)) := by
  induction before generalizing store with
  | nil => exact (Verdict.map_start_andThen store _).symm
  | cons first rest ih =>
      rw [List.cons_append, inTurn, inTurn, Option.bind_assoc, funext ih]
      refine congrArg _ (funext fun verdict => ?_)
      exact (goOn_bind Verdict.joinsEnds_andThen verdict _ _).symm

theorem inTurn_map (run : β → Store μ → Option (Verdict μ)) (f : α → β) (items : List α) :
    inTurn run (items.map f) = inTurn (fun item => run (f item)) items := by
  induction items with
  | nil => rfl
  | cons first rest ih =>
      funext store
      rw [List.map_cons, inTurn, inTurn, ih]

/-- What runs in turn can be cut into parts, each of which runs in turn. -/
theorem inTurn_flatMap (run : β → Store μ → Option (Verdict μ)) (f : α → List β)
    (items : List α) :
    inTurn run (items.flatMap f) = inTurn (fun item => inTurn run (f item)) items := by
  induction items with
  | nil => rfl
  | cons first rest ih =>
      funext store
      rw [List.flatMap_cons, inTurn_append, inTurn, ih]

end InTurn

end RelationLang
