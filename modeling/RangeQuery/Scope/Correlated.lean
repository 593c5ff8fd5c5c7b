import RangeQuery.Predicate.Split
import RangeQuery.Scope.Anchor

/-!
The scope of a subquery that takes the place of an aggregate: copies of the ranges the aggregate
reads, with the predicates that lead out of them in its filter. Everything is built beside the
query, which stays as it is.
-/

namespace RangeQuery

/-- Copies of ranges with the filter over them, and which copy stands for which range. -/
structure CorrelatedScope where
  /-- The copies, the anchor first. -/
  ranges : List NodeId
  condition : Option NodeId
  copies : Renaming

namespace Graph

/-- The ranges that an expression and a condition read. Where their names tell none, it is the
ranges the expression is bound to, and where there are none either, the first range. -/
def liveRanges (g : Graph) (usage : RangeUsage) (ranges : List NodeId) (expression : NodeId) :
    List NodeId :=
  let live := ranges.filter fun id => usage.isLive (g.rangeName id)
  if live.isEmpty then
    let bound := ranges.filter (g.referencedRanges expression).contains
    if bound.isEmpty then ranges.take 1 else bound
  else live

/-- Copy the ranges of a list one after the other; answers the copies in order. -/
def copyRanges : Graph → List NodeId → Graph × List (NodeId × NodeId)
  | g, [] => (g, [])
  | g, id :: rest =>
    let (g, copy) := g.copy id
    let (g, pairs) := copyRanges g rest
    (g, (id, copy) :: pairs)

/-- Point the join predicates of some copies at each other. -/
def rebindJoins (g : Graph) (names : Renaming) (copies : List NodeId) : Graph :=
  copies.foldl (fun g copy =>
    match g.join? copy with
    | some join => (g.rebind join names).1
    | none => g) g

/-- Leave each copy the part of its join predicate that reads live ranges only; answers the other
parts, in the order of the copies. -/
def splitJoins (live : List String) : Graph → List NodeId → Graph × List NodeId
  | g, [] => (g, [])
  | g, copy :: rest =>
    let (g, parts) := g.split? live (g.join? copy)
    let (g, outer) := splitJoins live (g.setJoin copy parts.inner) rest
    (g, parts.correlation.toList ++ outer)

/-- Copy a condition that may be missing, under a renaming. -/
def copyCondition (g : Graph) (names : Renaming) : Option NodeId → Graph × Option NodeId
  | some condition =>
    let (g, copy) := g.copyWith condition names
    (g, some copy)
  | none => (g, none)

/-- The scope of a subquery for an expression and a condition over some ranges, unless there are
no ranges or none of the copies can start its join. -/
def correlate (g : Graph) (metadata : Metadata) (ranges : List NodeId) (expression : NodeId)
    (condition : Option NodeId) : Graph × Option CorrelatedScope :=
  if ranges.isEmpty then (g, none)
  else
    let usage := g.usage metadata [expression] condition ranges
    let live := g.liveRanges usage ranges expression
    let names := live.map g.rangeName
    let (g, pairs) := g.copyRanges live
    let copies := pairs.map (·.2)
    let copyOf := Renaming.ofList pairs
    let g := g.rebindJoins copyOf copies
    let (g, outer) := splitJoins names g copies
    let (g, own) := g.copyCondition copyOf condition
    let (g, filter) := g.conjoin (own.toList ++ outer)
    let (g, copies, filter) := g.withAnchor copies filter usage
    match g.anchor? copies with
    | some anchor =>
      (g, some { ranges := anchorFirst copies anchor, condition := filter, copies := copyOf })
    | none => (g, none)

end Graph

end RangeQuery
