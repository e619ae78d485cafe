import Mathlib.Data.List.Nodup
import RelationLang.Proofs.Graph.Labelling
import RelationLang.Proofs.Graph.Pass
import RelationLang.Proofs.Graph.Walk

/-!
# Repeated completion passes

**Input.**  A graph in which every pair has a known state.

**Algorithm.**  Passes are made one after the other. A pair made in a pass is a base and a dependent
from the next pass on, so that each pass doubles the length of the walks that have become pairs.

**Results.**
* `Traced.complete`: the pairs after one more pass come from walks of twice the length, with the
  signs of these walks as states.
* `Covers.complete`: the ends of all walks of twice the length are pairs after one more pass.
* `complete_eq_of_bound`: as soon as the walks that come through no name twice have become pairs,
  further passes do nothing.
* `passes_close_walks`: all of it, for any number of passes.
-/

namespace RelationLang
namespace Graph

section Definitions

/-- The graph after some number of completion passes. -/
def passes (g : Graph) : Nat → Graph
  | 0 => g
  | count + 1 => (g.passes count).complete.2

/-- Each pair that is not a loop joins the ends of a walk of a bounded length, and has its sign as
its state. -/
def Traced (g : Graph) (bound : Nat) (now : Graph) : Prop :=
  ∀ pair ∈ now.pairs, pair.subject ≠ pair.object →
    ∃ path, g.Walk pair.subject path pair.object ∧ 1 ≤ path.length ∧ path.length ≤ bound ∧
      now.state? pair = some (g.sign path)

/-- The ends of each walk of a bounded length, if they differ, are a pair. -/
def Covers (g : Graph) (bound : Nat) (now : Graph) : Prop :=
  ∀ start path finish, g.Walk start path finish → start ≠ finish → path.length ≤ bound →
    ⟨start, finish⟩ ∈ now.pairs

end Definitions

section Pass

variable {g : Graph}

theorem mem_pairs_complete (hg : g.Grounded) {pair : Pair} :
    pair ∈ g.complete.2.pairs ↔ pair ∈ g.pairs ∨ ∃ fact ∈ g.derivations, fact.pair = pair := by
  rw [(complete_eq_derivations hg).2.2.1, List.mem_append, List.mem_map]

/-- A derived fact gives its pair the state. -/
theorem state?_complete_of_mem_derivations (hg : g.Grounded) {fact : Fact}
    (hfact : fact ∈ g.derivations) : g.complete.2.state? fact.pair = some fact.truth := by
  obtain ⟨_, _, hinferred⟩ := mem_derivations_iff.mp hfact
  have honeSided : g.OneSided fact.pair := by
    intro truth _ hrecords
    obtain ⟨other, hother, hsigned⟩ := List.mem_map.mp hrecords
    have hpair : other.pair = fact.pair := congrArg SignedPair.pair hsigned
    exact absurd (hpair ▸ hg.facts other hother) hinferred.missing
  refine (honeSided.complete hg).state?_eq (List.mem_map_of_mem ?_)
  have hfacts := (complete_eq_derivations hg).2.2.2
  rw [Graph.facts] at hfacts
  rw [hfacts]
  exact List.mem_append_right _ hfact

theorem mem_loops_complete (hg : g.Grounded) (name : String) :
    ⟨name, name⟩ ∈ g.complete.2.pairs ↔ ⟨name, name⟩ ∈ g.pairs := by
  rw [mem_pairs_complete hg, exists_mem_derivations_iff]
  simp

/-- Neither the base nor the dependent of a derived fact is a loop: the other one would be its
pair. -/
theorem Inferred.not_loops {base dependent : Pair} {fact : Fact}
    (h : g.Inferred base dependent fact) :
    base.subject ≠ base.object ∧ dependent.subject ≠ dependent.object := by
  have hmissing := h.missing
  rw [h.pair_eq] at hmissing
  constructor
  · intro hloop
    apply hmissing
    rw [← hloop, ← h.meet]
    exact h.dependent_mem
  · intro hloop
    apply hmissing
    rw [hloop, h.meet]
    exact h.base_mem

end Pass

section Doubling

variable {g now : Graph} {bound : Nat}

/-- The pairs after one more pass come from walks of twice the length. -/
theorem Traced.complete (hnow : now.Grounded) (h : g.Traced bound now) :
    g.Traced (2 * bound) now.complete.2 := by
  intro pair hpair hloop
  rcases (mem_pairs_complete hnow).mp hpair with hold | ⟨fact, hfact, rfl⟩
  · obtain ⟨path, hwalk, hpos, hle, hstate⟩ := h pair hold hloop
    exact ⟨path, hwalk, hpos, by omega, (state?_complete hold).trans hstate⟩
  · obtain ⟨base, dependent, hinferred⟩ := mem_derivations_iff.mp hfact
    obtain ⟨hbaseLoop, hdependentLoop⟩ := hinferred.not_loops
    obtain ⟨after, hafter, _, hafterLe, hbaseState⟩ := h base hinferred.base_mem hbaseLoop
    obtain ⟨before, hbefore, hbeforePos, hbeforeLe, hdependentState⟩ :=
      h dependent hinferred.dependent_mem hdependentLoop
    rw [hinferred.meet] at hbefore
    have htruth : fact.truth = g.sign (before ++ after) := by
      obtain ⟨state, hstate, htruth⟩ := hinferred.truth
      rw [hdependentState] at hstate
      obtain rfl := Option.some.inj hstate
      rw [htruth, hbaseState, sign_append]
      cases g.sign before <;> cases g.sign after <;> rfl
    refine ⟨before ++ after, ?_, by simp; omega, by simp; omega, ?_⟩
    · rw [hinferred.pair_eq]
      exact hbefore.append hafter
    · rw [state?_complete_of_mem_derivations hnow hfact, htruth]

/-- The ends of all walks of twice the length are pairs after one more pass: a longer walk that
comes through no name twice is cut in two. -/
theorem Covers.complete (hnow : now.Grounded) (hstated : now.Stated) (hbound : 1 ≤ bound)
    (h : g.Covers bound now) : g.Covers (2 * bound) now.complete.2 := by
  intro start path finish hwalk hne hle
  obtain ⟨simple, hsimple, hlength, hnodup⟩ := hwalk.exists_simple
  rw [mem_pairs_complete hnow, exists_mem_derivations_iff]
  by_cases hshort : simple.length ≤ bound
  · exact .inl (h start simple finish hsimple hne hshort)
  -- The name where the walk is cut is neither of its ends, so both halves are pairs.
  · rw [← List.take_append_drop bound simple] at hsimple hnodup
    have hbefore : simple.take bound ≠ [] := by
      rw [← List.length_pos_iff, List.length_take]
      omega
    have hafter : simple.drop bound ≠ [] := by
      rw [← List.length_pos_iff, List.length_drop]
      omega
    obtain ⟨middle, hstart, hfinish, hfirst, hsecond⟩ :=
      hsimple.split_simple hbefore hafter hnodup
    have hdependent := h start _ middle hfirst hstart (List.length_take_le _ _)
    have hbase := h middle _ finish hsecond hfinish (by rw [List.length_drop]; omega)
    rw [or_iff_not_imp_left]
    exact fun hmissing =>
      ⟨hne, hmissing, middle, hbase, hdependent, hstated.state?_isSome hdependent⟩

end Doubling

section Passes

variable {g : Graph}

theorem Grounded.passes (hg : g.Grounded) (count : Nat) : (g.passes count).Grounded := by
  induction count with
  | zero => exact hg
  | succ count ih => exact ih.complete

theorem Stated.passes (h : g.Stated) (count : Nat) : (g.passes count).Stated := by
  induction count with
  | zero => exact h
  | succ count ih => exact ih.complete

theorem mem_loops_passes (hg : g.Grounded) (count : Nat) (name : String) :
    ⟨name, name⟩ ∈ (g.passes count).pairs ↔ ⟨name, name⟩ ∈ g.pairs := by
  induction count with
  | zero => rfl
  | succ count ih => exact (mem_loops_complete (hg.passes count) name).trans ih

theorem traced_passes (hg : g.Grounded) (hstated : g.Stated) (count : Nat) :
    g.Traced (2 ^ count) (g.passes count) := by
  induction count with
  | zero =>
      intro pair hpair _
      obtain ⟨state, hstate⟩ := Option.isSome_iff_exists.mp (hstated.state?_isSome hpair)
      exact ⟨[pair], walk_singleton hpair, Nat.le_refl 1, Nat.le_refl 1,
        hstate.trans (congrArg some (sign_singleton hstate).symm)⟩
  | succ count ih =>
      rw [Nat.pow_succ, Nat.mul_comm]
      exact ih.complete (hg.passes count)

theorem covers_passes (hg : g.Grounded) (hstated : g.Stated) (count : Nat) :
    g.Covers (2 ^ count) (g.passes count) := by
  induction count with
  | zero =>
      intro start path finish hwalk hne hle
      match path, hle with
      | [], _ => exact absurd (walk_nil_iff.mp hwalk) hne
      | [pair], _ =>
          obtain ⟨hpair, rfl, hrest⟩ := walk_cons_iff.mp hwalk
          obtain rfl := walk_nil_iff.mp hrest
          exact hpair
  | succ count ih =>
      rw [Nat.pow_succ, Nat.mul_comm]
      exact ih.complete (hg.passes count) (hstated.passes count) Nat.one_le_two_pow

/-- If the passes so far reach all walks that are shorter than the number of concepts, a further
pass does nothing. -/
theorem complete_eq_of_bound (hg : g.Grounded) (hstated : g.Stated) {count : Nat}
    (hcount : g.concepts.length - 1 ≤ 2 ^ count) :
    (g.passes count).complete = (0, g.passes count) := by
  have hgrounded := hg.passes count
  have hnil : (g.passes count).derivations = [] := by
    refine List.eq_nil_iff_forall_not_mem.mpr fun fact hfact => ?_
    -- A derived fact would join the ends of a walk. Without its rounds the walk is so short that
    -- its ends are a pair already.
    obtain ⟨_, _, hinferred⟩ := mem_derivations_iff.mp hfact
    obtain ⟨path, hwalk, hpos, _⟩ := traced_passes hg hstated (count + 1) fact.pair
      ((mem_pairs_complete hgrounded).mpr (.inr ⟨fact, hfact, rfl⟩)) hinferred.not_loop
    obtain ⟨simple, hsimple, _, hnodup⟩ := hwalk.exists_simple
    have hne : simple ≠ [] := by
      rintro rfl
      exact hinferred.not_loop (walk_nil_iff.mp hsimple)
    have hlt := hsimple.length_lt hg hne hnodup
    exact hinferred.missing
      (covers_passes hg hstated count _ simple _ hsimple hinferred.not_loop (by omega))
  obtain ⟨hfst, hconcepts, hpairs, hfacts⟩ := complete_eq_derivations hgrounded
  rw [hnil] at hfst hpairs hfacts
  exact Prod.ext hfst (Graph.ext hconcepts (by simpa using hpairs) (by simpa using hfacts))

/-- Any number of further passes does nothing. -/
theorem passes_add_of_bound (hg : g.Grounded) (hstated : g.Stated) {count : Nat}
    (hcount : g.concepts.length - 1 ≤ 2 ^ count) (more : Nat) :
    g.passes (count + more) = g.passes count := by
  induction more with
  | zero => rfl
  | succ more ih =>
      have hstep : g.passes (count + (more + 1)) = (g.passes (count + more)).complete.2 := rfl
      rw [hstep, ih, complete_eq_of_bound hg hstated hcount]

/-- After some number of passes over a graph with known states, two different names are a pair
exactly when a walk leads from one to the other that has at most two to this power as its length;
there are no new loops; and each new pair has the sign of such a walk as its state. As soon as this
bound has reached the number of concepts less one, further passes answer zero and change nothing. -/
theorem passes_close_walks (hg : g.Reachable)
    (hknown : ∀ pair ∈ g.pairs, (g.state? pair).isSome = true) (count : Nat) :
    (∀ start finish : String, start ≠ finish →
      (⟨start, finish⟩ ∈ (g.passes count).pairs ↔
        ∃ path, g.Walk start path finish ∧ 1 ≤ path.length ∧ path.length ≤ 2 ^ count)) ∧
    (∀ name : String, ⟨name, name⟩ ∈ (g.passes count).pairs ↔ ⟨name, name⟩ ∈ g.pairs) ∧
    (∀ pair ∈ (g.passes count).pairs, pair ∉ g.pairs →
      ∃ path, g.Walk pair.subject path pair.object ∧ 1 ≤ path.length ∧ path.length ≤ 2 ^ count ∧
        (g.passes count).state? pair = some (g.sign path)) ∧
    (g.concepts.length - 1 ≤ 2 ^ count →
      ∀ more, (g.passes (count + more)).complete = (0, g.passes count)) := by
  have hgrounded := hg.consistent.toGrounded
  have hstated : g.Stated := fun pair hpair =>
    g.chain.latest?_isSome_iff.mp (Option.isSome_map.symm.trans (hknown pair hpair))
  have htraced := traced_passes hgrounded hstated count
  have hloops := mem_loops_passes hgrounded count
  refine ⟨fun start finish hne => ⟨fun hpair => ?_, ?_⟩, hloops, fun pair hpair hnew => ?_, ?_⟩
  · obtain ⟨path, hwalk, hpos, hle, _⟩ := htraced _ hpair hne
    exact ⟨path, hwalk, hpos, hle⟩
  · rintro ⟨path, hwalk, _, hle⟩
    exact covers_passes hgrounded hstated count start path finish hwalk hne hle
  · refine htraced pair hpair fun hloop => hnew ?_
    obtain ⟨subject, object⟩ := pair
    obtain rfl : subject = object := hloop
    exact (hloops subject).mp hpair
  · intro hcount more
    rw [passes_add_of_bound hgrounded hstated hcount,
      complete_eq_of_bound hgrounded hstated hcount]

/-- A round of four names with one pair that does not hold, and a loop. The first pass leaves out
the ends of the longest walk, the second one reaches them, and there is nothing left to do. -/
theorem round_closed_after_two_passes :
    ∃ g : Graph, g.Reachable ∧ (∀ pair ∈ g.pairs, (g.state? pair).isSome = true) ∧
      g.pairs = [⟨"a", "b"⟩, ⟨"b", "c"⟩, ⟨"c", "d"⟩, ⟨"d", "a"⟩, ⟨"b", "b"⟩] ∧
      ⟨"a", "d"⟩ ∉ (g.passes 1).pairs ∧ ⟨"a", "d"⟩ ∈ (g.passes 2).pairs ∧
      (g.passes 2).state? ⟨"a", "d"⟩ = some false ∧
      (∃ path, g.Walk "a" path "d" ∧ 1 ≤ path.length ∧ path.length ≤ 2 ^ 2) ∧
      (∀ name : String, ⟨name, name⟩ ∈ (g.passes 2).pairs ↔ ⟨name, name⟩ ∈ g.pairs) ∧
      ∀ more, (g.passes (2 + more)).complete = (0, g.passes 2) := by
  have hreachable : (empty.performAll [.record ⟨⟨"a", "b"⟩, true, .identity⟩,
      .record ⟨⟨"b", "c"⟩, false, .property⟩, .record ⟨⟨"c", "d"⟩, true, .identity⟩,
      .record ⟨⟨"d", "a"⟩, true, .property⟩, .record ⟨⟨"b", "b"⟩, true, .identity⟩]).Reachable :=
    ⟨_, rfl⟩
  obtain ⟨hpairs, hloops, _, hclosed⟩ := passes_close_walks hreachable (by decide) 2
  exact ⟨_, hreachable, by decide, by decide, by decide, by decide, by decide,
    (hpairs "a" "d" (by decide)).mp (by decide), hloops, hclosed (by decide)⟩

end Passes

end Graph
end RelationLang
