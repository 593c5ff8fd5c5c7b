import RangeQuery.Scope.Basic

/-!
Predicates as conjunctions. The conjuncts of a predicate are the leaves of its AND-tree from left
to right; `Graph.conjoin` joins a list of them again.
-/

namespace RangeQuery

namespace Graph

/-- The conjuncts of a predicate, from left to right. -/
def conjuncts (g : Graph) (predicate : NodeId) : List NodeId :=
  (g.walk predicate (fun out id =>
    if (g.node id).isAnd then (.descend, out) else (.skip, id :: out)) []).2.reverse

/-- Whether there is a disjunction at a node or below. -/
def hasOr (g : Graph) (root : NodeId) : Bool := g.contains root Node.isOr

/-- The two identifiers that a predicate sets equal. -/
def identifierEquality? (g : Graph) (predicate : NodeId) : Option (Identifier × Identifier) :=
  match g.node predicate with
  | .binary .eq left right =>
    match g.identifier? left, g.identifier? right with
    | some l, some r => some (l, r)
    | _, _ => none
  | _ => none

/-- The distinct ranges tested for NULL under the AND/OR skeleton of a condition. -/
def nullTested (g : Graph) (condition : NodeId) : List NodeId :=
  ((g.walk condition (fun out id =>
    match g.node id with
    | .binary op _ _ => (if op.isConnective then .descend else .skip, out)
    | .nullCheck operand false => (.skip, g.referencedRanges operand ++ out)
    | _ => (.skip, out)) []).2).eraseDups

end Graph

end RangeQuery
