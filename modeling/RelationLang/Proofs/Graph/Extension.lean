import RelationLang.Proofs.Graph.Closure

/-!
# Graphs that stay closed

**Input.**  Facts that are told one after the other to an empty graph.

**Algorithm.**  Telling a fact records it and makes one completion pass. If the pair of the fact has
a loose end, at which no stored pair goes on, then what is new joins this end to the names on the
other side of the pair, and nothing can be joined to it in turn. So one pass is enough.

**Results.**
* `Bridged.extend`: one pair with a loose end and one round of joining leave a closed relation
  closed.
* `Closed.tell`: telling a fact with a loose end leaves a closed graph closed.
* `looseEnds_of_links`, `looseEnds_of_links_reverse`: the facts of a chain have loose ends when they
  are told from its start or from its end.
* `closed_after_each`: all of it for facts with loose ends, and for chains in either order.
-/

namespace RelationLang
namespace Graph

section Definitions

/-- What two steps join, one step joins. -/
def Bridged {α : Type} (R : α → α → Prop) : Prop :=
  ∀ start middle finish, R start middle → R middle finish → start ≠ finish → R start finish

/-- The relation with one more pair, and with the different ends of two steps joined. -/
def Extend {α : Type} (R : α → α → Prop) (subject object start finish : α) : Prop :=
  let more := fun a b => R a b ∨ a = subject ∧ b = object
  more start finish ∨ start ≠ finish ∧ ∃ middle, more start middle ∧ more middle finish

/-- Where two stored pairs meet, the pair of their outer ends is stored, unless it is a loop. -/
def Closed (g : Graph) : Prop :=
  Bridged fun subject object => ⟨subject, object⟩ ∈ g.pairs

/-- The graph after recording a fact, and a completion pass. -/
def tell (g : Graph) (fact : Fact) : Graph := (g.record fact).2.complete.2

/-- The graph after telling facts in order. -/
def tellAll (g : Graph) (facts : List Fact) : Graph := facts.foldl tell g

/-- The object of the pair is not the subject of a stored pair, or its subject is not the object of
one. -/
def LooseEnd (g : Graph) (pair : Pair) : Prop :=
  (∀ other ∈ g.pairs, other.subject ≠ pair.object) ∨
    ∀ other ∈ g.pairs, other.object ≠ pair.subject

instance (g : Graph) (pair : Pair) : Decidable (g.LooseEnd pair) :=
  inferInstanceAs (Decidable (_ ∨ _))

/-- The pair of each fact has a loose end when it is told. -/
def LooseEnds (g : Graph) : List Fact → Prop
  | [] => True
  | fact :: rest => g.LooseEnd fact.pair ∧ (g.tell fact).LooseEnds rest

instance decidableLooseEnds (g : Graph) (facts : List Fact) : Decidable (g.LooseEnds facts) :=
  match facts with
  | [] => .isTrue trivial
  | _ :: rest => @instDecidableAnd _ _ _ (decidableLooseEnds _ rest)

/-- The pairs of neighbours in a chain of names. -/
def links : List String → List Pair
  | [] => []
  | [_] => []
  | first :: second :: rest => ⟨first, second⟩ :: links (second :: rest)

end Definitions

section Relations

variable {α : Type} {R : α → α → Prop} {subject object : α}

theorem bridged_flip (h : Bridged R) : Bridged (flip R) :=
  fun start middle finish hfirst hsecond hne => h finish middle start hsecond hfirst hne.symm

theorem extend_flip (start finish : α) :
    Extend (flip R) object subject finish start ↔ Extend R subject object start finish := by
  simp only [Extend, flip, and_comm, ne_comm]

/-- If nothing goes on from the object, what is new leads to the object, from the subject or from
what leads to the subject. -/
theorem extend_iff (h : Bridged R) (hloose : ∀ finish, ¬ R object finish) {start finish : α} :
    Extend R subject object start finish ↔
      R start finish ∨ finish = object ∧ (start = subject ∨ R start subject) := by
  constructor
  · rintro ((hold | ⟨rfl, rfl⟩) | ⟨hne, middle, hfirst, hsecond⟩)
    · exact .inl hold
    · exact .inr ⟨rfl, .inl rfl⟩
    · rcases hfirst with hfirst | ⟨rfl, rfl⟩
      · rcases hsecond with hsecond | ⟨rfl, rfl⟩
        · exact .inl (h _ _ _ hfirst hsecond hne)
        · exact .inr ⟨rfl, .inr hfirst⟩
      · rcases hsecond with hsecond | ⟨_, rfl⟩
        · exact absurd hsecond (hloose finish)
        · exact .inr ⟨rfl, .inl rfl⟩
  · rintro (hold | ⟨rfl, rfl | hsubject⟩)
    · exact .inl (.inl hold)
    · exact .inl (.inr ⟨rfl, rfl⟩)
    · have hne : start ≠ finish := by
        rintro rfl
        exact hloose subject hsubject
      exact .inr ⟨hne, subject, .inl hsubject, .inr ⟨rfl, rfl⟩⟩

/-- One pair from whose object nothing goes on, and one round of joining, leave a closed relation
closed. -/
theorem Bridged.extend (h : Bridged R) (hloose : ∀ finish, ¬ R object finish) :
    Bridged (Extend R subject object) := by
  intro start middle finish hfirst hsecond hne
  rw [extend_iff h hloose] at hfirst hsecond ⊢
  rcases hfirst with hfirst | ⟨rfl, hstart⟩
  · rcases hsecond with hsecond | ⟨rfl, hmiddle⟩
    · exact .inl (h _ _ _ hfirst hsecond hne)
    -- The new step ends at the object, so the way through the subject is new in the same round.
    · refine .inr ⟨rfl, ?_⟩
      rcases hmiddle with rfl | hmiddle
      · exact .inr hfirst
      · by_cases hstart : start = subject
        · exact .inl hstart
        · exact .inr (h _ _ _ hfirst hmiddle hstart)
  · rcases hsecond with hsecond | ⟨rfl, _⟩
    · exact absurd hsecond (hloose finish)
    · exact .inr ⟨rfl, hstart⟩

/-- The same if nothing leads to the subject: the relation is read backwards. -/
theorem Bridged.extend_of_subject (h : Bridged R) (hloose : ∀ start, ¬ R start subject) :
    Bridged (Extend R subject object) := by
  have hback : Bridged (Extend (flip R) object subject) := (bridged_flip h).extend hloose
  intro start middle finish hfirst hsecond hne
  rw [← extend_flip] at hfirst hsecond ⊢
  exact hback _ _ _ hsecond hfirst hne.symm

end Relations

section Steps

variable {g : Graph} {fact : Fact}

theorem mem_pairs_tell (hg : g.Grounded) (hstated : g.Stated) {start finish : String} :
    ⟨start, finish⟩ ∈ (g.tell fact).pairs ↔
      Extend (fun subject object => ⟨subject, object⟩ ∈ g.pairs) fact.pair.subject
        fact.pair.object start finish := by
  have hrecord : ∀ {subject object : String}, ⟨subject, object⟩ ∈ (g.record fact).2.pairs ↔
      ⟨subject, object⟩ ∈ g.pairs ∨ subject = fact.pair.subject ∧ object = fact.pair.object := by
    intro subject object
    rw [record_pairs, mem_pairs_connect, ← Pair.mk.injEq]
  rw [tell, mem_pairs_complete (hg.record fact), exists_mem_derivations_iff]
  simp only [Extend, ← hrecord]
  constructor
  · rintro (hold | ⟨hne, _, middle, hbase, hdependent, _⟩)
    · exact .inl hold
    · exact .inr ⟨hne, middle, hdependent, hbase⟩
  · rintro (hold | ⟨hne, middle, hdependent, hbase⟩)
    · exact .inl hold
    · rw [or_iff_not_imp_left]
      exact fun hmissing =>
        ⟨hne, hmissing, middle, hbase, hdependent, (hstated.record fact).state?_isSome hdependent⟩

/-- Telling a fact with a loose end leaves a closed graph closed. -/
theorem Closed.tell (hg : g.Grounded) (hstated : g.Stated) (h : g.Closed)
    (hloose : g.LooseEnd fact.pair) : (g.tell fact).Closed := by
  have hpairs : (fun subject object => (⟨subject, object⟩ : Pair) ∈ (g.tell fact).pairs) =
      Extend (fun subject object => ⟨subject, object⟩ ∈ g.pairs) fact.pair.subject
        fact.pair.object :=
    funext fun _ => funext fun _ => propext (mem_pairs_tell hg hstated)
  rw [Closed, hpairs]
  rcases hloose with hobject | hsubject
  · exact Bridged.extend h fun _ hmem => hobject _ hmem rfl
  · exact Bridged.extend_of_subject h fun _ hmem => hsubject _ hmem rfl

theorem Grounded.tell (h : g.Grounded) (fact : Fact) : (g.tell fact).Grounded :=
  (h.record fact).complete

theorem Stated.tell (h : g.Stated) (fact : Fact) : (g.tell fact).Stated :=
  (h.record fact).complete

theorem grows_tell (g : Graph) (fact : Fact) : g.Grows (g.tell fact) :=
  (g.grows_record fact).trans (grows_complete _)

end Steps

section Runs

variable {g : Graph} {facts : List Fact}

@[simp] theorem tellAll_cons (g : Graph) (fact : Fact) (facts : List Fact) :
    g.tellAll (fact :: facts) = (g.tell fact).tellAll facts := rfl

theorem Closed.tellAll (hg : g.Grounded) (hstated : g.Stated) (h : g.Closed)
    (hloose : g.LooseEnds facts) : (g.tellAll facts).Closed := by
  induction facts generalizing g with
  | nil => exact h
  | cons fact rest ih =>
      exact ih (hg.tell fact) (hstated.tell fact) (h.tell hg hstated hloose.1) hloose.2

theorem LooseEnds.take (h : g.LooseEnds facts) (count : Nat) : g.LooseEnds (facts.take count) := by
  induction facts generalizing g count with
  | nil => simpa using h
  | cons fact rest ih =>
      cases count with
      | zero => trivial
      | succ count => exact ⟨h.1, ih h.2 count⟩

theorem grows_tellAll (g : Graph) (facts : List Fact) : g.Grows (g.tellAll facts) := by
  induction facts generalizing g with
  | nil => exact .refl g
  | cons fact rest ih => exact (g.grows_tell fact).trans (ih _)

theorem mem_pairs_tellAll {fact : Fact} (h : fact ∈ facts) :
    fact.pair ∈ (g.tellAll facts).pairs := by
  induction facts generalizing g with
  | nil => exact nomatch h
  | cons first rest ih =>
      rcases List.mem_cons.mp h with rfl | h
      · have hrecord : fact.pair ∈ (g.record fact).2.pairs := by
          rw [record_pairs, mem_pairs_connect]
          exact .inr rfl
        exact ((grows_complete _).trans (grows_tellAll _ rest)).pairs.subset hrecord
      · exact ih h

/-- What holds of all stored pairs, of the pair of a fact, and of the outer ends of two pairs if it
holds of these, holds of all pairs after telling the fact. -/
theorem pairs_tell_induction {P : Pair → Prop} {fact : Fact} (h : ∀ pair ∈ g.pairs, P pair)
    (hfact : P fact.pair)
    (hjoin : ∀ base dependent, P base → P dependent → P ⟨dependent.subject, base.object⟩) :
    ∀ pair ∈ (g.tell fact).pairs, P pair := by
  have hrecord : ∀ pair ∈ (g.record fact).2.pairs, P pair := by
    intro pair hpair
    rw [record_pairs, mem_pairs_connect] at hpair
    rcases hpair with hpair | rfl
    · exact h pair hpair
    · exact hfact
  intro pair hpair
  rw [tell, complete_snd, mem_pairs_recordAll] at hpair
  rcases hpair with hpair | ⟨attempt, hattempt, rfl⟩
  · exact hrecord pair hpair
  · obtain ⟨base, hbase, dependent, hdependent, hpair⟩ := mem_passAttempts hattempt
    rw [hpair]
    exact hjoin base dependent (hrecord base hbase) (hrecord dependent hdependent)

/-- Facts have loose ends if each has one with respect to the pairs of those told before it, in a
sense that joining pairs respects. -/
theorem looseEnds_of_pairwise (Apart : Pair → Pair → Prop)
    (hapart : ∀ (now : Graph) pair, (∀ other ∈ now.pairs, Apart other pair) → now.LooseEnd pair)
    (hjoin : ∀ base dependent pair, Apart base pair → Apart dependent pair →
      Apart ⟨dependent.subject, base.object⟩ pair)
    (hg : ∀ other ∈ g.pairs, ∀ pair ∈ facts.map Fact.pair, Apart other pair)
    (h : (facts.map Fact.pair).Pairwise Apart) : g.LooseEnds facts := by
  induction facts generalizing g with
  | nil => trivial
  | cons fact rest ih =>
      rw [List.map_cons] at hg h
      obtain ⟨hfact, hrest⟩ := List.pairwise_cons.mp h
      refine ⟨hapart g _ fun other hother => hg other hother _ List.mem_cons_self, ih ?_ hrest⟩
      exact pairs_tell_induction
        (fun other hother pair hpair => hg other hother pair (List.mem_cons_of_mem _ hpair))
        hfact fun base dependent hbase hdependent pair hpair =>
          hjoin base dependent pair (hbase pair hpair) (hdependent pair hpair)

end Runs

section Chains

variable {names : List String}

theorem mem_links {pair : Pair} (h : pair ∈ links names) :
    pair.subject ∈ names ∧ pair.object ∈ names.tail := by
  fun_induction links names with
  | case1 => exact nomatch h
  | case2 => exact nomatch h
  | case3 first second rest ih =>
      rcases List.mem_cons.mp h with rfl | h
      · exact ⟨List.mem_cons_self, List.mem_cons_self⟩
      · obtain ⟨hsubject, hobject⟩ := ih h
        exact ⟨List.mem_cons_of_mem _ hsubject, List.mem_cons_of_mem _ hobject⟩

theorem length_links : (links names).length = names.length - 1 := by
  fun_induction links names with
  | case1 => rfl
  | case2 => rfl
  | case3 first second rest ih => simp [ih]

theorem take_links (count : Nat) :
    (links names).take count = links (names.take (count + 1)) := by
  fun_induction links names generalizing count with
  | case1 => simp [links]
  | case2 => simp [links]
  | case3 first second rest ih =>
      cases count with
      | zero => rfl
      | succ count => simp [links, ih]

theorem drop_links (count : Nat) : (links names).drop count = links (names.drop count) := by
  fun_induction links names generalizing count with
  | case1 => simp [links]
  | case2 => cases count <;> simp [links]
  | case3 first second rest ih =>
      cases count with
      | zero => rfl
      | succ count => simp [ih]

/-- In a chain of different names no pair begins where a later one ends. -/
theorem links_pairwise (h : names.Nodup) :
    (links names).Pairwise fun earlier later => earlier.subject ≠ later.object := by
  fun_induction links names with
  | case1 => exact .nil
  | case2 => exact .nil
  | case3 first second rest ih =>
      obtain ⟨hfirst, hrest⟩ := List.nodup_cons.mp h
      refine List.pairwise_cons.mpr ⟨fun later hlater => ?_, ih hrest⟩
      rintro rfl
      exact hfirst (List.mem_cons_of_mem _ (mem_links hlater).2)

/-- A closed graph that has the pairs of neighbours in a chain of different names has the pairs of
all names in it. -/
theorem Closed.pairwise {g : Graph} (h : g.Closed) (hnodup : names.Nodup)
    (hlinks : ∀ pair ∈ links names, pair ∈ g.pairs) :
    names.Pairwise fun start finish => ⟨start, finish⟩ ∈ g.pairs := by
  fun_induction links names with
  | case1 => exact .nil
  | case2 => exact List.pairwise_singleton _ _
  | case3 first second rest ih =>
      obtain ⟨hfirst, hrest⟩ := List.nodup_cons.mp hnodup
      rw [List.forall_mem_cons] at hlinks
      have hpairs := ih hrest hlinks.2
      refine List.pairwise_cons.mpr ⟨fun finish hfinish => ?_, hpairs⟩
      rcases List.mem_cons.mp hfinish with rfl | hlater
      · exact hlinks.1
      · have hsecond := (List.pairwise_cons.mp hpairs).1 finish hlater
        refine h first second finish hlinks.1 hsecond ?_
        rintro rfl
        exact hfirst hfinish

variable {facts : List Fact}

/-- The facts of a chain of different names have loose ends when they are told in order: no pair
begins yet where the next one ends. -/
theorem looseEnds_of_links (hnodup : names.Nodup) (hfacts : facts.map Fact.pair = links names) :
    empty.LooseEnds facts := by
  refine looseEnds_of_pairwise (fun other pair => other.subject ≠ pair.object)
    (fun _ _ => .inl) (fun _ _ _ _ hdependent => hdependent) (by simp) ?_
  rw [hfacts]
  exact links_pairwise hnodup

/-- They have loose ends in the reverse order as well: no pair ends yet where the next one
begins. -/
theorem looseEnds_of_links_reverse (hnodup : names.Nodup)
    (hfacts : facts.map Fact.pair = (links names).reverse) : empty.LooseEnds facts := by
  refine looseEnds_of_pairwise (fun other pair => other.object ≠ pair.subject)
    (fun _ _ => .inr) (fun _ _ _ hbase _ => hbase) (by simp) ?_
  rw [hfacts, List.pairwise_reverse]
  exact (links_pairwise hnodup).imp Ne.symm

/-- If facts with loose ends are told one after the other to an empty graph, then it is closed after
each of them. So a chain of different names is closed completely as far as it has been told, from
its start or from its end, whatever the truth values and kinds of its facts. -/
theorem closed_after_each :
    (∀ facts, empty.LooseEnds facts → ∀ count, (empty.tellAll (facts.take count)).Closed) ∧
      ∀ (names : List String) (facts : List Fact), names.Nodup →
        (facts.map Fact.pair = links names → ∀ count,
          (empty.tellAll (facts.take count)).Closed ∧
            (names.take (count + 1)).Pairwise fun start finish =>
              ⟨start, finish⟩ ∈ (empty.tellAll (facts.take count)).pairs) ∧
        (facts.map Fact.pair = (links names).reverse → ∀ count,
          (empty.tellAll (facts.take count)).Closed ∧
            (names.drop (names.length - 1 - count)).Pairwise fun start finish =>
              ⟨start, finish⟩ ∈ (empty.tellAll (facts.take count)).pairs) := by
  have hclosed : ∀ facts, empty.LooseEnds facts → ∀ count,
      (empty.tellAll (facts.take count)).Closed := fun facts hloose count =>
    Closed.tellAll grounded_empty stated_empty (fun _ _ _ hpair => nomatch hpair)
      (hloose.take count)
  have hstored : ∀ (facts : List Fact) (pair : Pair), pair ∈ facts.map Fact.pair →
      pair ∈ (empty.tellAll facts).pairs := by
    intro facts pair hpair
    obtain ⟨fact, hfact, rfl⟩ := List.mem_map.mp hpair
    exact mem_pairs_tellAll hfact
  refine ⟨hclosed, fun names facts hnodup => ⟨fun hfacts count => ?_, fun hfacts count => ?_⟩⟩
  · have hnow := hclosed facts (looseEnds_of_links hnodup hfacts) count
    refine ⟨hnow, hnow.pairwise (hnodup.sublist (List.take_sublist _ _)) fun pair hpair => ?_⟩
    rw [← take_links, ← hfacts, ← List.map_take] at hpair
    exact hstored _ pair hpair
  · have hnow := hclosed facts (looseEnds_of_links_reverse hnodup hfacts) count
    refine ⟨hnow, hnow.pairwise (hnodup.sublist (List.drop_sublist _ _)) fun pair hpair => ?_⟩
    rw [← drop_links, ← length_links, ← List.mem_reverse, ← List.take_reverse, ← hfacts,
      ← List.map_take] at hpair
    exact hstored _ pair hpair

/-- Facts with loose ends, among them one that is stated again with the other truth value, and a
loop; and a chain told in order and from its end. -/
theorem loop_and_chains_closed :
    let facts : List Fact := [⟨⟨"a", "b"⟩, true, .identity⟩, ⟨⟨"b", "c"⟩, false, .property⟩,
      ⟨⟨"b", "c"⟩, true, .identity⟩, ⟨⟨"c", "c"⟩, true, .identity⟩, ⟨⟨"x", "a"⟩, true, .property⟩]
    let names := ["c0", "c1", "c2", "c3"]
    let chain : List Fact := [⟨⟨"c0", "c1"⟩, true, .identity⟩, ⟨⟨"c1", "c2"⟩, false, .property⟩,
      ⟨⟨"c2", "c3"⟩, true, .identity⟩]
    empty.LooseEnds facts ∧ (empty.tellAll (facts.take 5)).Closed ∧
      ⟨"x", "c"⟩ ∈ (empty.tellAll (facts.take 5)).pairs ∧
      names.Nodup ∧ chain.map Fact.pair = links names ∧
      (names.take (3 + 1)).Pairwise (fun start finish =>
        ⟨start, finish⟩ ∈ (empty.tellAll (chain.take 3)).pairs) ∧
      chain.reverse.map Fact.pair = (links names).reverse ∧
      (names.drop (names.length - 1 - 2)).Pairwise fun start finish =>
        ⟨start, finish⟩ ∈ (empty.tellAll (chain.reverse.take 2)).pairs := by
  intro facts names chain
  have hloose : empty.LooseEnds facts := by decide
  have hnodup : names.Nodup := by decide
  obtain ⟨hclosed, hchains⟩ := closed_after_each
  obtain ⟨hforward, _⟩ := hchains names chain hnodup
  obtain ⟨_, hreverse⟩ := hchains names chain.reverse hnodup
  exact ⟨hloose, hclosed facts hloose 5, by decide, hnodup, rfl, (hforward rfl 3).2, rfl,
    (hreverse rfl 2).2⟩

/-- A pair that joins two others in the middle has no loose end. One pass does not reach from the
start of the first one to the end of the last one. -/
example :
    let told := empty.tellAll [⟨⟨"a", "b"⟩, true, .identity⟩, ⟨⟨"c", "d"⟩, true, .identity⟩]
    ¬ told.LooseEnd ⟨"b", "c"⟩ ∧
      ⟨"a", "d"⟩ ∉ (told.tell ⟨⟨"b", "c"⟩, true, .identity⟩).pairs := by
  decide

end Chains

end Graph
end RelationLang
