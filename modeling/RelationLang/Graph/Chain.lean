import RelationLang.Graph.Fact
import Std.Data.ExtTreeSet

/-!
# Chains

A chain is a list of facts that only grows at its end. Each pair is recorded at most once with
each truth value, and its state is the truth of the fact recorded last. Besides the facts a chain
keeps the set of what it has recorded and the position of the latest fact of each pair.

**Results.**
* `record_eq`: a fact is either refused or stands at the end.
* `latest?_eq_findRev?`: the position of the latest fact finds what a scan from the end finds.
* `latest?_push`: the newest fact is the latest of its pair and of no other.
* `ext`: the facts alone determine the chain.
-/

namespace RelationLang

/-- The last of the facts on a pair is at a position. -/
def LastAt (facts : List Fact) (pair : Pair) (i : Nat) : Prop :=
  (facts[i]?).map Fact.pair = some pair ∧ ∀ j, i < j → (facts[j]?).map Fact.pair ≠ some pair

/-- The facts recorded so far, oldest first. -/
structure Chain where
  facts : List Fact
  seen : Std.ExtTreeSet SignedPair
  /-- The position of the latest fact of each pair. -/
  newest : Std.ExtTreeMap Pair Nat
  /-- Exactly what the facts say has been recorded. -/
  mem_seen_iff : ∀ signed, signed ∈ seen ↔ signed ∈ facts.map Fact.signed
  /-- A pair has exactly the position of its last fact. -/
  newest_iff : ∀ pair i, newest[pair]? = some i ↔ LastAt facts pair i
  /-- No two facts say the same. -/
  signed_nodup : (facts.map Fact.signed).Nodup
deriving Repr

/-- The fact at the end is the last one of its pair. -/
theorem lastAt_concat_self {facts : List Fact} {fact : Fact} {i : Nat} :
    LastAt (facts ++ [fact]) fact.pair i ↔ i = facts.length := by
  constructor
  · rintro ⟨hi, hlast⟩
    have hge : ¬ i < facts.length := fun hlt => hlast facts.length hlt (by simp)
    have hlt : i < (facts ++ [fact]).length := by
      cases hget : (facts ++ [fact])[i]? with
      | none => simp [hget] at hi
      | some _ => exact (List.getElem?_eq_some_iff.mp hget).1
    simp at hlt
    omega
  · rintro rfl
    refine ⟨by simp, fun j hj => ?_⟩
    rw [List.getElem?_eq_none (by simp; omega)]
    simp

/-- A fact at the end does not matter to the other pairs. -/
theorem lastAt_concat_of_ne {facts : List Fact} {fact : Fact} {pair : Pair} {i : Nat}
    (h : fact.pair ≠ pair) : LastAt (facts ++ [fact]) pair i ↔ LastAt facts pair i := by
  have hget : ∀ j : Nat, ((facts ++ [fact])[j]?).map Fact.pair = some pair ↔
      (facts[j]?).map Fact.pair = some pair := by
    intro j
    by_cases hj : j < facts.length
    · rw [List.getElem?_append_left hj]
    · have hnone : facts[j]? = none := List.getElem?_eq_none (by omega)
      rw [List.getElem?_append_right (by omega), hnone]
      cases j - facts.length <;> simp [h]
  simp only [LastAt, hget, ne_eq]

/-- The last fact on a pair stands in front of facts on other pairs. -/
theorem lastAt_of_split {before after : List Fact} {fact : Fact}
    (h : ∀ f ∈ after, f.pair ≠ fact.pair) :
    LastAt (before ++ fact :: after) fact.pair before.length := by
  refine ⟨by simp, fun j hj hpair => ?_⟩
  obtain ⟨f, hf, hpair⟩ := Option.map_eq_some_iff.mp hpair
  rw [List.getElem?_append_right (by omega)] at hf
  obtain ⟨k, hk⟩ : ∃ k, j - before.length = k + 1 := ⟨j - before.length - 1, by omega⟩
  rw [hk, List.getElem?_cons_succ] at hf
  exact h f (List.mem_of_getElem? hf) hpair

namespace Chain

def empty : Chain where
  facts := []
  seen := ∅
  newest := ∅
  mem_seen_iff := by simp
  newest_iff := by simp [LastAt]
  signed_nodup := by simp

instance : EmptyCollection Chain := ⟨empty⟩

instance : Inhabited Chain := ⟨empty⟩

/-- The pair is already recorded with this truth value. -/
def Records (chain : Chain) (signed : SignedPair) : Prop := signed ∈ chain.facts.map Fact.signed

instance (chain : Chain) (signed : SignedPair) : Decidable (chain.Records signed) :=
  decidable_of_iff _ (chain.mem_seen_iff signed)

/-- The chain with a fact at its end that says something new. -/
def push (chain : Chain) (fact : Fact) (h : ¬ chain.Records fact.signed) : Chain where
  facts := chain.facts ++ [fact]
  seen := chain.seen.insert fact.signed
  newest := chain.newest.insert fact.pair chain.facts.length
  mem_seen_iff signed := by
    rw [Std.ExtTreeSet.mem_insert, Std.LawfulEqOrd.compare_eq_iff_eq, chain.mem_seen_iff]
    simp [or_comm, eq_comm]
  newest_iff pair i := by
    simp only [Std.ExtTreeMap.getElem?_insert, Std.LawfulEqOrd.compare_eq_iff_eq]
    by_cases hpair : fact.pair = pair
    · subst hpair
      simp [lastAt_concat_self, eq_comm]
    · simp [hpair, lastAt_concat_of_ne hpair, chain.newest_iff]
  signed_nodup := by
    rw [List.map_append, List.nodup_append]
    refine ⟨chain.signed_nodup, by simp, ?_⟩
    intro a ha b hb heq
    simp at hb
    exact h (hb ▸ heq ▸ ha)

/-- Records a fact, unless its pair is already recorded with its truth value. The answer says
whether the chain has grown. -/
def record (chain : Chain) (fact : Fact) : Bool × Chain :=
  if h : chain.Records fact.signed then (false, chain) else (true, chain.push fact h)

/-- The fact on a pair that was recorded last. -/
def latest? (chain : Chain) (pair : Pair) : Option Fact :=
  chain.newest[pair]?.bind fun i => chain.facts[i]?

/-- The truth of the latest fact on a pair; a pair without facts has none. -/
def state? (chain : Chain) (pair : Pair) : Option Bool := (chain.latest? pair).map (·.truth)

def lines (chain : Chain) : List String := chain.facts.map (·.text)

def text (chain : Chain) : String := "\n".intercalate chain.lines

def isEmpty (chain : Chain) : Bool := chain.facts.isEmpty

@[simp] theorem facts_empty : empty.facts = [] := rfl

@[simp] theorem facts_push (chain : Chain) (fact : Fact) (h : ¬ chain.Records fact.signed) :
    (chain.push fact h).facts = chain.facts ++ [fact] := rfl

/-- The facts alone determine the chain. -/
@[ext] theorem ext {c d : Chain} (h : c.facts = d.facts) : c = d := by
  obtain ⟨facts, seen, newest, hseen, hnewest, _⟩ := c
  obtain ⟨facts', seen', newest', hseen', hnewest', _⟩ := d
  subst h
  have hs : seen = seen' := by
    apply Std.ExtTreeSet.ext_mem
    intro signed
    rw [hseen, hseen']
  have hn : newest = newest' := by
    apply Std.ExtTreeMap.ext_getElem?
    intro pair
    apply Option.ext
    intro i
    rw [hnewest, hnewest']
  subst hs hn
  rfl

instance : DecidableEq Chain := fun c d => decidable_of_iff (c.facts = d.facts)
  ⟨ext, congrArg facts⟩

/-- A fact is either refused or stands at the end. -/
theorem record_eq (chain : Chain) (fact : Fact) :
    (chain.Records fact.signed ∧ chain.record fact = (false, chain)) ∨
      ∃ h : ¬ chain.Records fact.signed, chain.record fact = (true, chain.push fact h) := by
  by_cases h : chain.Records fact.signed
  · exact .inl ⟨h, by simp [record, h]⟩
  · exact .inr ⟨h, by simp [record, h]⟩

/-- The position of the latest fact finds what a scan from the end finds. -/
theorem latest?_eq_findRev? (chain : Chain) (pair : Pair) :
    chain.latest? pair = chain.facts.findRev? fun fact => fact.pair == pair := by
  rw [List.findRev?_eq_find?_reverse]
  cases hscan : chain.facts.reverse.find? fun fact => fact.pair == pair with
  | none =>
      cases hpos : chain.newest[pair]? with
      | none => simp [latest?, hpos]
      | some i =>
          obtain ⟨fact, hfact, hpair⟩ :=
            Option.map_eq_some_iff.mp ((chain.newest_iff pair i).mp hpos).1
          have hmem : fact ∈ chain.facts.reverse := by
            simpa using List.mem_of_getElem? hfact
          have := List.find?_eq_none.mp hscan fact hmem
          simp [hpair] at this
  | some fact =>
      obtain ⟨hpair, after, before, hsplit, hafter⟩ :=
        List.find?_eq_some_iff_append.mp hscan
      have hpair : fact.pair = pair := by simpa using hpair
      subst hpair
      have hfacts : chain.facts = before.reverse ++ fact :: after.reverse := by
        rw [← List.reverse_reverse chain.facts, hsplit]
        simp
      have hlast : LastAt chain.facts fact.pair before.reverse.length := by
        rw [hfacts]
        exact lastAt_of_split fun f hf => by simpa using hafter f (by simpa using hf)
      have hpos := (chain.newest_iff _ _).mpr hlast
      have hget : chain.facts[before.reverse.length]? = some fact := by
        rw [hfacts]
        simp
      simp only [latest?, hpos, Option.bind_some, hget]

/-- The newest fact is the latest of its pair and of no other. -/
theorem latest?_push (chain : Chain) (fact : Fact) (h : ¬ chain.Records fact.signed)
    (pair : Pair) :
    (chain.push fact h).latest? pair =
      if fact.pair = pair then some fact else chain.latest? pair := by
  by_cases hpair : fact.pair = pair <;> simp [latest?_eq_findRev?, hpair]

end Chain
end RelationLang
