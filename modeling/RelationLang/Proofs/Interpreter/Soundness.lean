import RelationLang.Proofs.Graph.Labelling
import RelationLang.Proofs.Interpreter.StandardWords

/-!
# Soundness of the standard words

**Input.**  A labelling of the names, and programs that use the standard words.

**Results.**
* `standard_keeps_labelled`: no turn, box or completion pass leads from facts that fit the
  labelling to one that does not, as long as the assertions made fit it.
* `labelling_sound`: at every moment, whatever was asserted in whatever order and grouping, all
  facts fit a labelling that all assertions fit, so that no two runs disagree on a pair.
-/

namespace RelationLang

open Program

namespace Interpreter

section Soundness

variable {μ ν : Type} {label : String → Bool}

/-- If all assertions made fit a labelling, all facts do. -/
def Sound (label : String → Bool) (calls : List Call) (store : Store μ) : Prop :=
  (∀ signed ∈ assertions calls, signed.Fits label) → store.graph.Labelled label

theorem sound_fresh (memory : μ) : Sound label [] (.fresh memory) :=
  fun _ => Graph.labelled_empty

/-- A change that keeps pairs and facts keeps all facts fitting. -/
theorem Sound.congr {calls : List Call} {store now : Store μ} (h : Sound label calls store)
    (hpairs : now.graph.pairs = store.graph.pairs)
    (hfacts : now.graph.facts = store.graph.facts) : Sound label calls now := by
  intro hfit
  obtain ⟨hfits, hstated⟩ := h hfit
  refine ⟨?_, ?_⟩
  · rw [hfacts]
    exact hfits
  · unfold Graph.Stated
    rw [hpairs, hfacts]
    exact hstated

/-- Nothing in a run with the standard words leads from facts that fit to one that does not. -/
theorem standard_keeps_labelled (label : String → Bool) (limit : Option Nat) :
    (standard limit : Interpreter μ).Keeps (Sound label) where
  atoms := fun _ hsound =>
    hsound.congr (Graph.addAtoms_pairs _ _) (congrArg Chain.facts (Graph.addAtoms_chain _ _))
  invoke := fun {calls store clause word hook} hleading hsound hfit => by
    rw [assertions_append, List.forall_mem_append] at hfit
    have hlabelled := hsound hfit.1
    rcases standard_invoke hleading store with ⟨_, hgraph⟩ | ⟨fact, hasserts, hgraph⟩
    · rw [hgraph]
      exact hlabelled
    · rw [hgraph]
      exact hlabelled.record (hfit.2 fact.signed (by simp [assertions, hasserts]))
  box := fun _ hsound => hsound.congr rfl rfl
  pass := fun attempted hsound hfit => (hsound hfit).midPass attempted

/-- If all assertions made up to a moment fit a labelling, all facts do, inferred ones included.
So no pair is recorded with both truth values, and a state known at two such moments, of any two
runs, is the same. -/
theorem labelling_sound (label : String → Bool) {calls others : List Call} {store : Store μ}
    {other : Store ν} (hmoment : StandardMoment calls store)
    (hfit : ∀ signed ∈ assertions calls, signed.Fits label)
    (hother : StandardMoment others other)
    (hfit' : ∀ signed ∈ assertions others, signed.Fits label) :
    (∀ fact ∈ store.graph.facts, fact.signed.Fits label) ∧
      (∀ pair, ¬ (store.graph.chain.Records ⟨pair, true⟩ ∧
        store.graph.chain.Records ⟨pair, false⟩)) ∧
      ∀ pair truth truth', store.graph.state? pair = some truth →
        other.graph.state? pair = some truth' → truth = truth' := by
  have hlabelled : store.graph.Labelled label :=
    hmoment.keeps (standard_keeps_labelled label) sound_fresh hfit
  have hlabelled' : other.graph.Labelled label :=
    hother.keeps (standard_keeps_labelled label) sound_fresh hfit'
  refine ⟨hlabelled.fits, hlabelled.not_both, ?_⟩
  intro pair truth truth' hstate hstate'
  exact (hlabelled.state?_eq hstate).trans (hlabelled'.state?_eq hstate').symm

/-- The same assertions line by line, and in another order in a block: both runs infer that a cat
is no plant. -/
theorem cat_plant_either_way :
    ∃ report report' : Report Unit,
      (standard none).program 3 [.plain ["cat", "is", "animal"], .plain ["animal", "isnt", "plant"]]
          (.fresh ()) = some report ∧
        (standard (some 0)).program 3
          (Statement.headed ["say", "pets"] ["animal isnt plant", "cat is animal"])
          (.fresh ()) = some report' ∧
        report.store.graph.state? ⟨"cat", "plant"⟩ = some false ∧
        (∀ fact ∈ report.store.graph.facts, fact.signed.Fits (· != "plant")) ∧
        ∀ pair truth truth', report.store.graph.state? pair = some truth →
          report'.store.graph.state? pair = some truth' → truth = truth' := by
  have hlines : ((standard none).program 3
      [.plain ["cat", "is", "animal"], .plain ["animal", "isnt", "plant"]]
      (Store.fresh ())).any (fun r : Report Unit => decide
        ((∀ signed ∈ assertions r.calls, signed.Fits (· != "plant")) ∧
          r.store.graph.state? ⟨"cat", "plant"⟩ = some false)) = true := by decide
  have hblock : ((standard (some 0)).program 3
      (Statement.headed ["say", "pets"] ["animal isnt plant", "cat is animal"])
      (Store.fresh ())).any (fun r : Report Unit => decide
        (∀ signed ∈ assertions r.calls, signed.Fits (· != "plant"))) = true := by decide
  obtain ⟨report, hreport, hdecided⟩ := (Option.any_eq_true _ _).mp hlines
  obtain ⟨report', hreport', hdecided'⟩ := (Option.any_eq_true _ _).mp hblock
  obtain ⟨hfit, hstate⟩ := of_decide_eq_true hdecided
  have hsound := labelling_sound (· != "plant")
    (StandardRun.program none 3 _ (.fresh ()) hreport).moment hfit
    (StandardRun.program (some 0) 3 _ (.fresh ()) hreport').moment (of_decide_eq_true hdecided')
  exact ⟨report, report', hreport, hreport', hstate, hsound.1, hsound.2.2⟩

end Soundness

end Interpreter

end RelationLang
