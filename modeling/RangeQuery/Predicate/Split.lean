import RangeQuery.Predicate.Conjuncts

/-!
A predicate seen from a subquery: what reads the ranges of the subquery alone stays inside, what
reads other ranges correlates it with the query around it. A conjunction comes apart on that
line, a disjunction does not.
-/

namespace RangeQuery

/-- Where a conjunct belongs. -/
inductive PredicateClass where
  /-- It reads live ranges only, or none. -/
  | inner
  /-- It reads a range that is not live. -/
  | correlation
  /-- It reads live and other ranges, and holds a disjunction. -/
  | mixed
deriving DecidableEq

/-- The two sides of a predicate. -/
structure SplitPredicate where
  inner : Option NodeId
  correlation : Option NodeId
deriving DecidableEq

namespace Graph

/-- The class of a conjunct, given the names of the live ranges. -/
def classify (g : Graph) (live : List String) (conjunct : NodeId) : PredicateClass :=
  let names := g.referencedNames conjunct
  if names.all fun name => live.contains name then .inner
  else if (names.any fun name => live.contains name) && g.hasOr conjunct then .mixed
  else .correlation

/-- Join the conjuncts of each side again; a side that has them all is the predicate itself. -/
def splitConjuncts (g : Graph) (predicate : NodeId) (inner outer : List NodeId) :
    Graph × SplitPredicate :=
  if outer.isEmpty then (g, { inner := some predicate, correlation := none })
  else if inner.isEmpty then (g, { inner := none, correlation := some predicate })
  else
    let (g, inner) := g.conjoin inner
    let (g, correlation) := g.conjoin outer
    (g, { inner, correlation })

/-- Split a predicate along the live ranges. A side that takes every conjunct keeps the predicate
itself, and a mixed conjunct keeps all of it inside. -/
def split (g : Graph) (live : List String) (predicate : NodeId) : Graph × SplitPredicate :=
  let conjuncts := g.conjuncts predicate
  if conjuncts.any fun id => g.classify live id = .mixed then
    (g, { inner := some predicate, correlation := none })
  else
    g.splitConjuncts predicate (conjuncts.filter fun id => g.classify live id = .inner)
      (conjuncts.filter fun id => g.classify live id = .correlation)

/-- Split a predicate that may be missing; what is missing has no sides. -/
def split? (g : Graph) (live : List String) : Option NodeId → Graph × SplitPredicate
  | some predicate => g.split live predicate
  | none => (g, { inner := none, correlation := none })

end Graph

end RangeQuery
