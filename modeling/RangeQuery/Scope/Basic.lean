import RangeQuery.Graph.Copy

/-!
Queries and their scopes. A scope is the root of a query or a query that a range reads from; the
ranges of a scope that still take part in its join are the included ones.
-/

namespace RangeQuery

namespace Graph

/-- The ranges of a scope that take part in its join, as they were declared. -/
def includedRanges (g : Graph) (scope : NodeId) : List NodeId :=
  (g.scope scope).ranges.filter fun id => (g.range? id).any (·.included)

/-- The query a range reads from. -/
def nested? (g : Graph) (range : NodeId) : Option NodeId := (g.range? range).bind (·.nested)

/-- The scopes from a node as far as a number of levels, those behind its ranges first. -/
def scopesWithin (g : Graph) : Nat → NodeId → List NodeId
  | 0, _ => []
  | depth + 1, id =>
    match g.node id with
    | .retrieve r => (r.ranges.filterMap g.nested?).flatMap (g.scopesWithin depth) ++ [id]
    | _ => []

end Graph

/-- A graph with the scope at its root. -/
structure Query where
  graph : Graph
  root : NodeId
deriving DecidableEq, Inhabited

namespace Query

/-- The clauses of the root. -/
def clauses (q : Query) : Retrieve := q.graph.scope q.root

/-- Every scope, the innermost first and the root last. -/
def scopes (q : Query) : List NodeId := q.graph.scopesWithin q.graph.size q.root

/-- The first range of the root with a name. -/
def rangeNamed? (q : Query) (name : String) : Option NodeId :=
  q.clauses.ranges.find? fun id => q.graph.rangeName id == name

end Query

end RangeQuery
