import RangeQuery.Predicate.Split
import RangeQuery.Proofs.Graph.References
import RangeQuery.Proofs.Graph.Searches
import RangeQuery.Proofs.Predicate.Conjunctions

/-!
The two sides of a predicate. Splitting takes the conjuncts apart without losing or repeating one;
where both sides hold some, a conjunct is inside if all it reads is live.
-/

namespace RangeQuery

namespace Graph

variable {g h : Graph} {live : List String}

theorem classify_eq_inner {conjunct : NodeId} (a : g.Acyclic conjunct) :
    g.classify live conjunct = .inner ↔
      ∀ range, g.Reads conjunct range → g.rangeName range ∈ live := by
  have names : ((g.referencedNames conjunct).all fun name => live.contains name) = true ↔
      ∀ range, g.Reads conjunct range → g.rangeName range ∈ live := by
    simp only [List.all_eq_true, List.contains_iff_mem, a.mem_referencedNames]
    constructor
    · intro each range reads
      exact each _ ⟨range, reads, rfl⟩
    · rintro each name ⟨range, reads, rfl⟩
      exact each range reads
  rw [← names, classify]
  split
  · simp_all
  · split <;> simp_all

theorem hasOr_iff {predicate : NodeId} (a : g.Acyclic predicate) :
    g.hasOr predicate = true ↔ ∃ id, g.Below predicate id ∧ (g.node id).isOr = true := by
  rw [hasOr, ← Bool.not_eq_false, a.contains_eq_false]
  simp

/-- A conjunct is mixed if it reads live and other names, and holds a disjunction. -/
theorem classify_eq_mixed {conjunct : NodeId} (a : g.Acyclic conjunct) :
    g.classify live conjunct = .mixed ↔
      (∃ range, g.Reads conjunct range ∧ g.rangeName range ∈ live) ∧
      (∃ range, g.Reads conjunct range ∧ g.rangeName range ∉ live) ∧
      ∃ id, g.Below conjunct id ∧ (g.node id).isOr = true := by
  have names : ((g.referencedNames conjunct).any fun name => live.contains name) = true ↔
      ∃ range, g.Reads conjunct range ∧ g.rangeName range ∈ live := by
    simp only [List.any_eq_true, List.contains_iff_mem, a.mem_referencedNames]
    constructor
    · rintro ⟨name, ⟨range, reads, rfl⟩, isLive⟩
      exact ⟨range, reads, isLive⟩
    · rintro ⟨range, reads, isLive⟩
      exact ⟨_, ⟨range, reads, rfl⟩, isLive⟩
  have others : (∃ range, g.Reads conjunct range ∧ g.rangeName range ∉ live) ↔
      g.classify live conjunct ≠ .inner := by
    rw [Ne, classify_eq_inner a]
    simp
  rw [← names, others, ← hasOr_iff a, classify]
  cases (g.referencedNames conjunct).all fun name => live.contains name <;>
    cases (g.referencedNames conjunct).any fun name => live.contains name <;>
      cases g.hasOr conjunct <;> simp

/-- The sides that a predicate was split into: what each of them lists, and what divides them. -/
structure Sides (g : Graph) (live : List String) (predicate : Option NodeId) (h : Graph)
    (parts : SplitPredicate) (inside : NodeId → Bool) : Prop where
  keeps : Same id g h
  acyclic : (∀ id ∈ parts.inner, h.Acyclic id) ∧ ∀ id ∈ parts.correlation, h.Acyclic id
  inner : h.conjunctsOf parts.inner = (g.conjunctsOf predicate).filter inside
  outer : h.conjunctsOf parts.correlation =
    (g.conjunctsOf predicate).filter fun id => !inside id
  divided : parts.inner.isSome → parts.correlation.isSome → ∀ id ∈ g.conjunctsOf predicate,
    inside id = true ↔ ∀ range, g.Reads id range → g.rangeName range ∈ live

theorem Sides.inside {predicate : NodeId} (a : g.Acyclic predicate) :
    Sides g live (some predicate) g { inner := some predicate, correlation := none }
      (fun _ => true) where
  keeps := .refl id g
  acyclic := ⟨by simpa using a, by simp⟩
  inner := by simp
  outer := by simp
  divided _ some := by cases some

theorem Sides.outside {predicate : NodeId} (a : g.Acyclic predicate) :
    Sides g live (some predicate) g { inner := none, correlation := some predicate }
      (fun _ => false) where
  keeps := .refl id g
  acyclic := ⟨by simp, by simpa using a⟩
  inner := by simp
  outer := by simp
  divided some := by cases some

/-- Without a mixed conjunct, what is not inner leads out. -/
theorem filter_correlation {conjuncts : List NodeId}
    (pure : (conjuncts.any fun id => g.classify live id = .mixed) = false) :
    conjuncts.filter (fun id => g.classify live id = .correlation) =
      conjuncts.filter fun id => !decide (g.classify live id = .inner) := by
  refine List.filter_congr fun id mem => ?_
  have unmixed : g.classify live id ≠ .mixed := by simpa using List.any_eq_false.mp pure id mem
  cases kind : g.classify live id <;> simp_all

theorem Sides.both {predicate : NodeId} (a : g.Acyclic predicate)
    (pure : ((g.conjuncts predicate).any fun id => g.classify live id = .mixed) = false)
    {inner outer : List NodeId}
    (isInner : inner = (g.conjuncts predicate).filter fun id => g.classify live id = .inner)
    (isOuter : outer = (g.conjuncts predicate).filter fun id => g.classify live id = .correlation) :
    Sides g live (some predicate) ((g.conjoin inner).1.conjoin outer).1
      { inner := (g.conjoin inner).2, correlation := ((g.conjoin inner).1.conjoin outer).2 }
      (fun id => g.classify live id = .inner) := by
  have first := Same.conjoin id g inner
  have second := Same.conjoin id (g.conjoin inner).1 outer
  obtain ⟨acyclic, lists⟩ := conjunctsOf_conjoin_of_conjuncts a
    (isInner ▸ List.filter_subset_self _ : inner ⊆ g.conjuncts predicate)
  have a' := a.of_same first
  have among : outer ⊆ (g.conjoin inner).1.conjuncts predicate := by
    rw [a.conjuncts_of_same first, isOuter]
    exact List.filter_subset_self _
  obtain ⟨acyclic', lists'⟩ := conjunctsOf_conjoin_of_conjuncts a' among
  refine ⟨first.trans second, ⟨fun id found => (acyclic id found).of_same second, acyclic'⟩, ?_, ?_,
    fun _ _ id mem => ?_⟩
  · rw [conjunctsOf_of_same acyclic second, lists, isInner, conjunctsOf_some]
  · rw [lists', isOuter, filter_correlation pure, conjunctsOf_some]
  · rw [conjunctsOf_some] at mem
    obtain ⟨-, trail, way, -⟩ := a.mem_conjuncts.mp mem
    rw [decide_eq_true_iff]
    exact classify_eq_inner (a.below ⟨trail, way⟩)

/-- Splitting a predicate divides its conjuncts. -/
theorem exists_sides {predicate : NodeId} (a : g.Acyclic predicate) (live : List String) :
    ∃ inside, Sides g live (some predicate) (g.split live predicate).1 (g.split live predicate).2
      inside := by
  unfold split
  dsimp only
  split
  · exact ⟨_, .inside a⟩
  · next pure =>
    unfold splitConjuncts
    split
    · exact ⟨_, .inside a⟩
    · split
      · exact ⟨_, .outside a⟩
      · exact ⟨_, .both a (by simpa using pure) rfl rfl⟩

theorem exists_sides? {predicate : Option NodeId} (acyclic : ∀ id ∈ predicate, g.Acyclic id)
    (live : List String) :
    ∃ inside, Sides g live predicate (g.split? live predicate).1 (g.split? live predicate).2
      inside := by
  cases predicate with
  | some predicate => exact exists_sides (acyclic predicate rfl) live
  | none => exact ⟨fun _ => true, .refl id g, by simp [split?], rfl, rfl, by simp⟩

end Graph

end RangeQuery
