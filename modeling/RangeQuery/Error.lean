import RangeQuery.Node.Basic

/-!
Why a query is refused. Each cause carries what its message names.
-/

namespace RangeQuery

/-- The clause of a scope in which something was found. -/
inductive Clause where
  | join (range : String)
  | values
  | sort
  | filter
deriving DecidableEq

/-- How a message names a clause. -/
def Clause.describe : Clause → String
  | .join range => "join predicate of range '" ++ range ++ "'"
  | .values => "retrieve"
  | .sort => "sort"
  | .filter => "where"

/-- The causes for which a query is refused. -/
inductive QueryError where
  /-- Two ranges of a scope share a name. -/
  | duplicateRange (name : String)
  /-- Every range of a scope is joined to another one. -/
  | noAnchor
  /-- A clause reads from a range that its scope does not declare. -/
  | undeclaredRange (clause : Clause) (range : String)
  /-- A filter computes over the rows that it is to choose. -/
  | aggregateInFilter (function : AggregateFn)
  /-- A join predicate computes over the rows that it is to join. -/
  | aggregateInJoin (range : String) (function : AggregateFn)
  /-- A sort key asks whether there is a row. -/
  | anyInSort
  /-- An ANY, given by its text, has no range to start its subquery from. -/
  | unresolvedAny (text : String)
  /-- A range is joined over a relation that nothing declares. -/
  | unknownRelation (range relation : String)
  /-- A placeholder has no template, or its templates go round in a circle. -/
  | unknownTemplate (name : String)
  /-- A scope was expected. -/
  | noScope
deriving DecidableEq

/-- The message that goes with a cause. -/
def QueryError.message : QueryError → String
  | .duplicateRange name => "duplicate range name: " ++ name
  | .noAnchor => "query has no range without a join predicate"
  | .undeclaredRange clause range =>
    clause.describe ++ " references undeclared range '" ++ range ++ "'"
  | .aggregateInFilter function =>
    "aggregate function " ++ function.name ++ " is not allowed directly in WHERE"
  | .aggregateInJoin range function =>
    "aggregate function " ++ function.name ++ " is not allowed in the join predicate of range '" ++
      range ++ "'"
  | .anyInSort => "ANY is not allowed in ORDER BY"
  | .unresolvedAny text => text ++ " could not be rewritten: no range can anchor its subquery"
  | .unknownRelation range relation =>
    "range '" ++ range ++ "' uses unknown relation '" ++ relation ++ "'"
  | .unknownTemplate name => "unknown macro: " ++ name
  | .noScope => "query root is not a retrieve statement"

end RangeQuery
