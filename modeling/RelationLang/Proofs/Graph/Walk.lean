import RelationLang.Proofs.Graph.Consistency

/-!
# Walks in a graph

A walk leads from a name to a name along stored pairs, each of which begins where the one before it
ends. It may come through a name more than once.

**Results.**
* `Walk.append`, `Walk.split`: walks can be joined and cut.
* `sign_append`: signs multiply when walks are joined.
* `Walk.exists_simple`: where there is a walk, there is one that is not longer and comes through no
  name twice.
* `Walk.length_lt`: such a walk is shorter than the number of concepts.
-/

namespace RelationLang
namespace Graph

/-- A walk along stored pairs, in order. -/
inductive Walk (g : Graph) : String → List Pair → String → Prop
  | nil (name : String) : Walk g name [] name
  | cons {pair : Pair} {path : List Pair} {finish : String} :
      pair ∈ g.pairs →
      Walk g pair.object path finish →
      Walk g pair.subject (pair :: path) finish

/-- The product of the signs along a path: it is positive if an even number of the pairs do not
hold. -/
def sign (g : Graph) (path : List Pair) : Bool :=
  decide ((path.countP fun pair => g.state? pair == some false) % 2 = 0)

/-- The names that a path from a name comes through. -/
def visited (start : String) (path : List Pair) : List String := start :: path.map Pair.object

variable {g : Graph} {start middle finish : String} {path : List Pair}

section Signs

theorem sign_append (before after : List Pair) :
    g.sign (before ++ after) = (g.sign before == g.sign after) := by
  have hmod : ∀ m n : Nat,
      decide ((m + n) % 2 = 0) = (decide (m % 2 = 0) == decide (n % 2 = 0)) := by
    intro m n
    rcases Nat.mod_two_eq_zero_or_one m with hm | hm <;>
      rcases Nat.mod_two_eq_zero_or_one n with hn | hn <;> simp [Nat.add_mod, hm, hn]
  rw [sign, List.countP_append, hmod]
  rfl

/-- The sign of a single pair is its state. -/
theorem sign_singleton {pair : Pair} {truth : Bool} (h : g.state? pair = some truth) :
    g.sign [pair] = truth := by
  cases truth <;> simp [sign, h]

end Signs

section Joining

/-- Walks that meet can be joined. -/
theorem Walk.append {before after : List Pair} (h : g.Walk start before middle)
    (h' : g.Walk middle after finish) : g.Walk start (before ++ after) finish := by
  induction h with
  | nil => exact h'
  | cons hpair _ ih => exact .cons hpair (ih h')

theorem walk_nil_iff : g.Walk start [] finish ↔ start = finish := by
  constructor
  · intro h
    cases h
    rfl
  · rintro rfl
    exact .nil start

theorem walk_cons_iff {pair : Pair} : g.Walk start (pair :: path) finish ↔
    pair ∈ g.pairs ∧ start = pair.subject ∧ g.Walk pair.object path finish := by
  constructor
  · intro h
    cases h with
    | cons hpair hrest => exact ⟨hpair, rfl, hrest⟩
  · rintro ⟨hpair, rfl, hrest⟩
    exact .cons hpair hrest

theorem walk_singleton {pair : Pair} (h : pair ∈ g.pairs) :
    g.Walk pair.subject [pair] pair.object :=
  .cons h (.nil _)

/-- A walk can be cut anywhere. -/
theorem Walk.split {before after : List Pair} (h : g.Walk start (before ++ after) finish) :
    ∃ middle, g.Walk start before middle ∧ g.Walk middle after finish := by
  induction before generalizing start with
  | nil => exact ⟨start, .nil start, h⟩
  | cons pair before ih =>
      obtain ⟨hpair, rfl, hrest⟩ := walk_cons_iff.mp h
      obtain ⟨middle, hbefore, hafter⟩ := ih hrest
      exact ⟨middle, .cons hpair hbefore, hafter⟩

/-- A walk ends with the object of its last pair. -/
theorem Walk.finish_mem (h : g.Walk start path finish) (hne : path ≠ []) :
    finish ∈ path.map Pair.object := by
  induction h with
  | nil => exact absurd rfl hne
  | @cons pair path _ _ hrest ih =>
      cases path with
      | nil =>
          obtain rfl := walk_nil_iff.mp hrest
          exact List.mem_cons_self
      | cons next path => exact List.mem_cons_of_mem _ (ih (List.cons_ne_nil _ _))

/-- A walk goes on from every name that it comes through. -/
theorem Walk.rest_of_mem (h : g.Walk start path finish) (hmem : middle ∈ visited start path) :
    ∃ rest, g.Walk middle rest finish ∧ visited middle rest <:+ visited start path := by
  induction h with
  | nil name =>
      obtain rfl := List.mem_singleton.mp hmem
      exact ⟨[], .nil _, List.suffix_refl _⟩
  | @cons pair path finish hpair hrest ih =>
      rcases List.mem_cons.mp hmem with rfl | hmem
      · exact ⟨pair :: path, .cons hpair hrest, List.suffix_refl _⟩
      · obtain ⟨rest, hwalk, hsuffix⟩ := ih hmem
        exact ⟨rest, hwalk, hsuffix.trans (List.suffix_cons _ _)⟩

end Joining

section Simple

/-- Where there is a walk, there is one that is not longer and comes through no name twice. -/
theorem Walk.exists_simple (h : g.Walk start path finish) :
    ∃ simple, g.Walk start simple finish ∧ simple.length ≤ path.length ∧
      (visited start simple).Nodup := by
  induction h with
  | nil name => exact ⟨[], .nil name, Nat.le_refl _, by simp [visited]⟩
  | @cons pair path finish hpair hrest ih =>
      obtain ⟨simple, hwalk, hlength, hnodup⟩ := ih
      by_cases hmem : pair.subject ∈ visited pair.object simple
      -- The walk comes back to its start: leave the round out.
      · obtain ⟨rest, hwalk', hsuffix⟩ := hwalk.rest_of_mem hmem
        refine ⟨rest, hwalk', ?_, hnodup.sublist hsuffix.sublist⟩
        have hle := hsuffix.length_le
        simp only [visited, List.length_cons, List.length_map] at hle ⊢
        omega
      · exact ⟨pair :: simple, .cons hpair hwalk, Nat.succ_le_succ hlength,
          List.nodup_cons.mpr ⟨hmem, hnodup⟩⟩

/-- A walk that comes through no name twice passes between its parts through a name that is neither
its start nor its end. -/
theorem Walk.split_simple {before after : List Pair}
    (h : g.Walk start (before ++ after) finish) (hbefore : before ≠ []) (hafter : after ≠ [])
    (hnodup : (visited start (before ++ after)).Nodup) :
    ∃ middle, start ≠ middle ∧ middle ≠ finish ∧ g.Walk start before middle ∧
      g.Walk middle after finish := by
  obtain ⟨middle, hfirst, hsecond⟩ := h.split
  rw [visited, List.map_append, List.nodup_cons, List.nodup_append] at hnodup
  obtain ⟨hstart, _, _, hdisjoint⟩ := hnodup
  have hmiddle := hfirst.finish_mem hbefore
  refine ⟨middle, ?_, hdisjoint _ hmiddle _ (hsecond.finish_mem hafter), hfirst, hsecond⟩
  rintro rfl
  exact hstart (List.mem_append_left _ hmiddle)

/-- A walk that comes through no name twice is shorter than the number of concepts. -/
theorem Walk.length_lt (hg : g.Grounded) (h : g.Walk start path finish) (hne : path ≠ [])
    (hnodup : (visited start path).Nodup) : path.length < g.concepts.length := by
  have hobjects : ∀ {start path finish}, g.Walk start path finish →
      path.map Pair.object ⊆ g.names := by
    intro start path finish h
    induction h with
    | nil => exact List.nil_subset _
    | cons hpair _ ih => exact List.cons_subset.mpr ⟨(hg.ends _ hpair).2, ih⟩
  have hstart : start ∈ g.names := by
    cases h with
    | nil => exact absurd rfl hne
    | cons hpair _ => exact (hg.ends _ hpair).1
  calc path.length
      < (visited start path).length := by simp [visited]
    _ ≤ g.names.length :=
        hnodup.length_le_of_subset (List.cons_subset.mpr ⟨hstart, hobjects h⟩)
    _ = g.concepts.length := by simp [names]

end Simple

end Graph
end RelationLang
