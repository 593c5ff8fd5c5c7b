import RangeQuery.Error
import RangeQuery.Render

/-!
The rules a query keeps before it is optimised, and the one it keeps afterwards. A check answers
with the first fault, in the order of the rules.
-/

namespace RangeQuery

namespace Graph

/-- The first name of a list that was met before. -/
def repeatedName? : List String → List String → Option String
  | _, [] => none
  | met, name :: rest =>
    if name ∈ met then some name else repeatedName? (name :: met) rest

/-- The first range read from a node, outside subqueries, that is not among the declared ones. -/
def undeclared? (g : Graph) (declared : List NodeId) (root : NodeId) : Option NodeId :=
  (g.rangesOf (g.identifiersUnder root false)).find? fun range => !declared.contains range

/-- The fault of reading a range that is not declared. -/
def undeclaredFault? (g : Graph) (declared : List NodeId) (clause : Clause) (root : NodeId) :
    Option QueryError :=
  (g.undeclared? declared root).map fun range => .undeclaredRange clause (g.rangeName range)

/-- How the search for an aggregate goes on after a node: subqueries are not entered, and neither
is an ANY that is allowed. -/
def seekAggregate (allowAny : Bool) : Node → Visit
  | .aggregate a => if allowAny && a.function == .any then .skip else .stop
  | .subquery _ => .skip
  | _ => .descend

/-- The function of the first aggregate from a node outside subqueries. -/
def firstAggregate? (g : Graph) (root : NodeId) (allowAny : Bool) : Option AggregateFn :=
  ((g.walk root (fun _ id => (seekAggregate allowAny (g.node id), ())) ()).1.bind
    g.aggregate?).map (·.function)

/-- A scope that declares ranges needs an included one without a join predicate. -/
def anchorFault? (g : Graph) (ranges : List NodeId) : Option QueryError :=
  if ranges.isEmpty || ranges.any (fun id => (g.range? id).any fun r => r.included && r.isAnchor)
  then none
  else some .noAnchor

/-- A join predicate is no bare relation, reads declared ranges and holds no aggregate. -/
def joinFault? (g : Graph) (declared : List NodeId) (name : String) (join : NodeId) :
    Option QueryError :=
  match g.identifier? join with
  | some i =>
    some (.unknownRelation name (g.rangeName i.range ++ "." ++ ".".intercalate i.path))
  | none =>
    (g.undeclaredFault? declared (.join name) join).or
      ((g.firstAggregate? join false).map (.aggregateInJoin name))

/-- The fault of one declared range: in its join predicate, else in the query it reads from. -/
def rangeFault? (g : Graph) (nestedFault? : NodeId → Option QueryError) (declared : List NodeId)
    (id : NodeId) : Option QueryError :=
  match g.range? id with
  | some r => (r.join.bind (g.joinFault? declared r.name)).or (r.nested.bind nestedFault?)
  | none => none

/-- A sort key reads declared ranges and holds no ANY. -/
def sortFault? (g : Graph) (declared : List NodeId) (item : SortItem) : Option QueryError :=
  (g.undeclaredFault? declared .sort item.expression).or
    (if g.contains item.expression Node.isAny then some .anyInSort else none)

/-- A filter reads declared ranges and holds no aggregate but ANY. -/
def filterFault? (g : Graph) (declared : List NodeId) (condition : NodeId) : Option QueryError :=
  (g.undeclaredFault? declared .filter condition).or
    ((g.firstAggregate? condition true).map .aggregateInFilter)

/-- The first fault of a scope and of those behind its ranges, as far as a number of levels. -/
def faultWithin? (g : Graph) : Nat → NodeId → Option QueryError
  | 0, _ => none
  | depth + 1, id =>
    match g.node id with
    | .retrieve r =>
      ((repeatedName? [] (r.ranges.map g.rangeName)).map .duplicateRange).or <|
      (g.anchorFault? r.ranges).or <|
      (r.ranges.findSome? (g.rangeFault? (g.faultWithin? depth) r.ranges)).or <|
      (r.values.findSome? (g.undeclaredFault? r.ranges .values)).or <|
      (r.sort.findSome? (g.sortFault? r.ranges)).or <|
      r.condition.bind (g.filterFault? r.ranges)
    | _ => some .noScope

end Graph

namespace Query

/-- The query over a root that is a scope. -/
def ofRoot (graph : Graph) (root : NodeId) : Except QueryError Query :=
  if (graph.node root).isRetrieve then .ok { graph, root } else .error .noScope

/-- The first rule that the query breaks. -/
def fault? (q : Query) : Option QueryError := q.graph.faultWithin? q.graph.size q.root

/-- A query passes if it breaks no rule. -/
def validate (q : Query) : Except QueryError Unit :=
  match q.fault? with
  | some fault => .error fault
  | none => .ok ()

/-- An optimised query passes if no ANY is left in it. -/
def checkNoAny (q : Query) : Except QueryError Unit :=
  match q.graph.find? q.root Node.isAny with
  | some any => .error (.unresolvedAny (q.graph.render any))
  | none => .ok ()

theorem validate_eq_ok_iff (q : Query) : q.validate = .ok () ↔ q.fault? = none := by
  unfold validate
  cases q.fault? <;> simp

end Query

end RangeQuery
