import RelationLang.Proofs.Graph.Consistency
import RelationLang.Proofs.Graph.Growth

/-!
# Labellings

A labelling gives every name one of two labels. A fact fits it if it says whether the two names
have the same label. The completion rule multiplies signs, so it leads from facts that fit to
facts that fit, as long as every stored pair has a fact: a base without facts would count as one
that does not hold.

**Results.**
* `Stated.record`: recording never leaves a pair without facts.
* `Labelled.derive`: the completion rule keeps all facts fitting.
* `Labelled.complete`, `Labelled.midPass`: so does a pass, also in the middle of it.
* `Labelled.state?_eq`: the labels determine every known state.
-/

namespace RelationLang

/-- The truth value says whether the two names have the same label. -/
def SignedPair.Fits (label : String → Bool) (signed : SignedPair) : Prop :=
  signed.truth = decide (label signed.pair.subject = label signed.pair.object)

instance (label : String → Bool) (signed : SignedPair) : Decidable (signed.Fits label) :=
  inferInstanceAs (Decidable (_ = _))

namespace Graph

/-- Every stored pair has a fact. -/
def Stated (g : Graph) : Prop := ∀ pair ∈ g.pairs, ∃ fact ∈ g.facts, fact.pair = pair

/-- All facts fit a labelling, and every stored pair has a fact. -/
structure Labelled (label : String → Bool) (g : Graph) : Prop where
  fits : ∀ fact ∈ g.facts, fact.signed.Fits label
  stated : g.Stated

section Stating

variable {g : Graph}

theorem stated_empty : empty.Stated := by simp [Stated]

/-- Recording never leaves a pair without facts. -/
theorem Stated.record (h : g.Stated) (fact : Fact) : (g.record fact).2.Stated := by
  intro pair hpair
  rw [record_pairs, mem_pairs_connect] at hpair
  rcases hpair with hpair | rfl
  · obtain ⟨other, hother, hpair⟩ := h pair hpair
    exact ⟨other, (g.grows_record fact).facts.subset hother, hpair⟩
  · have hrecords := (g.chain.records_record fact fact.signed).mpr (.inr rfl)
    obtain ⟨other, hother, hsigned⟩ := List.mem_map.mp hrecords
    exact ⟨other, hother, congrArg SignedPair.pair hsigned⟩

theorem Stated.recordAll (h : g.Stated) (facts : List Fact) : (g.recordAll facts).Stated :=
  recordAll_induction (fun _ fact h => h.record fact) h facts

/-- A pair that is stored has a latest fact. -/
theorem Stated.exists_latest (h : g.Stated) {pair : Pair} (hpair : pair ∈ g.pairs) :
    ∃ fact ∈ g.facts, fact.pair = pair ∧ g.chain.latest? pair = some fact := by
  have hsome := g.chain.latest?_isSome_iff.mpr (h pair hpair)
  obtain ⟨fact, hlatest⟩ := Option.isSome_iff_exists.mp hsome
  obtain ⟨hmem, hfact⟩ := g.chain.mem_of_latest? hlatest
  exact ⟨fact, hmem, hfact, hlatest⟩

theorem Stated.state?_isSome (h : g.Stated) {pair : Pair} (hpair : pair ∈ g.pairs) :
    (g.state? pair).isSome = true := by
  obtain ⟨fact, _, _, hlatest⟩ := h.exists_latest hpair
  simp [state?, Chain.state?, hlatest]

/-- If every pair has a fact, there are at least as many facts as pairs. -/
theorem Stated.pairs_length_le (h : g.Stated) : g.pairs.length ≤ g.facts.length := by
  have hsub : g.pairs ⊆ g.facts.map Fact.pair := fun pair hpair => List.mem_map.mpr (h pair hpair)
  calc g.pairs.length
      ≤ (g.facts.map Fact.pair).length := g.pairs_nodup.length_le_of_subset hsub
    _ = g.facts.length := by simp

theorem Stated.complete (h : g.Stated) : g.complete.2.Stated := by
  rw [complete_snd]
  exact h.recordAll _

end Stating

section Signs

variable {g : Graph} {label : String → Bool}

/-- Signs multiply along two pairs in a row. -/
theorem sign_mul (x a b : Bool) :
    (if decide (a = b) = true then decide (x = a) else !decide (x = a)) = decide (x = b) := by
  cases x <;> cases a <;> cases b <;> rfl

/-- The labels determine every known state. -/
theorem Labelled.state?_eq (h : g.Labelled label) {pair : Pair} {truth : Bool}
    (hstate : g.state? pair = some truth) :
    truth = decide (label pair.subject = label pair.object) := by
  obtain ⟨fact, hfact, hsigned⟩ := List.mem_map.mp (g.chain.records_of_state? hstate)
  have hfits := h.fits fact hfact
  rw [hsigned] at hfits
  exact hfits

/-- No pair is recorded with both truth values. -/
theorem Labelled.not_both (h : g.Labelled label) (pair : Pair) :
    ¬ (g.chain.Records ⟨pair, true⟩ ∧ g.chain.Records ⟨pair, false⟩) := by
  rintro ⟨htrue, hfalse⟩
  obtain ⟨fact, hfact, hsigned⟩ := List.mem_map.mp htrue
  obtain ⟨other, hother, hsigned'⟩ := List.mem_map.mp hfalse
  have hfits := h.fits fact hfact
  have hfits' := h.fits other hother
  rw [hsigned] at hfits
  rw [hsigned'] at hfits'
  exact absurd (show true = false from hfits.trans hfits'.symm) (by decide)

theorem labelled_empty : empty.Labelled label := ⟨by simp, stated_empty⟩

theorem Labelled.record (h : g.Labelled label) {fact : Fact} (hfact : fact.signed.Fits label) :
    (g.record fact).2.Labelled label where
  fits other hother := by
    rcases g.mem_facts_record hother with hother | rfl
    · exact h.fits other hother
    · exact hfact
  stated := h.stated.record fact

/-- The completion rule keeps all facts fitting. Its base is stored at the start of the base's
turn, and so has a latest fact, which fits. -/
theorem Labelled.derive {start now : Graph} (hstart : start.Labelled label)
    (hnow : now.Labelled label) {base : Pair} (hbase : base ∈ start.pairs) (dependent : Pair) :
    (now.derive base (start.chain.latest? base) dependent).2.Labelled label := by
  obtain ⟨latest, hlatest, hpair, heq⟩ := hstart.stated.exists_latest hbase
  rw [heq]
  unfold Graph.derive
  split
  · exact hnow
  · next fact hsuggestion =>
      obtain ⟨hmeet, _, _, state, hstate, rfl⟩ := suggestion?_eq_some_iff.mp hsuggestion
      have hbasefits := hstart.fits latest hlatest
      have hdependent := hnow.state?_eq hstate
      apply hnow.record
      simp only [SignedPair.Fits, Fact.signed, hpair] at hbasefits ⊢
      rw [hmeet] at hdependent
      simp only [inheritedTruth, Option.map_some, hbasefits, hdependent, Option.some.injEq]
      exact sign_mul _ _ _

/-- A completion pass keeps all facts fitting. -/
theorem Labelled.complete (h : g.Labelled label) : g.complete.2.Labelled label := by
  have hpass := g.complete_induction (P := fun now => now.Labelled label ∧ g.pairs ⊆ now.pairs)
    ⟨h, List.Subset.refl _⟩ fun start now base dependent hstart hnow hbase _ =>
      ⟨hstart.1.derive hnow.1 (hstart.2 hbase) dependent,
        List.Subset.trans hnow.2 (now.grows_derive _ _ _).pairs.subset⟩
  exact hpass.1

/-- In the middle of a pass the facts are some of those at its end. -/
theorem Labelled.midPass (h : g.Labelled label) (attempted : Nat) :
    (g.recordAll (g.passAttempts.take attempted)).Labelled label where
  fits fact hfact := by
    have hend := h.complete.fits fact
    rw [complete_snd, ← List.take_append_drop attempted g.passAttempts, recordAll_append] at hend
    exact hend ((grows_recordAll _ _).facts.subset hfact)
  stated := h.stated.recordAll _

end Signs

end Graph
end RelationLang
