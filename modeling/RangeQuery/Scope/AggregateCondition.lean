import RangeQuery.Scope.AnyTest

/-!
Aggregates over some rows only. The condition of an aggregate becomes the filter of its scope, a
choice inside the aggregated value, or the filter of a subquery, so no aggregate keeps one.
-/

namespace RangeQuery

/-- Whether an aggregate with a condition is to become a subquery. -/
abbrev AggregateStrategy := Graph → NodeId → Bool

/-- The strategy that keeps every aggregate in its scope. -/
def keepInScope : AggregateStrategy := fun _ _ => false

/-- The strategy that makes subqueries of the aggregates with one of some functions. -/
def wrapFunctions (functions : List AggregateFn) : AggregateStrategy := fun g id =>
  match g.aggregate? id with
  | some a => functions.contains a.function
  | none => false

namespace Graph

/-- The aggregates with a condition from a node, outside subqueries, an outer one before those
inside it. -/
def conditionalAggregates (g : Graph) (root : NodeId) : List NodeId :=
  (g.walk root (fun out id =>
    match g.node id with
    | .aggregate a => (.descend, if a.condition.isSome then id :: out else out)
    | .subquery _ => (.skip, out)
    | _ => (.descend, out)) []).2.reverse

/-- Aggregate the operand where the condition holds and NULL elsewhere; answers whether there was
a condition. -/
def foldCondition (g : Graph) (id : NodeId) : Graph × Bool :=
  match g.node id with
  | .aggregate { operand, condition := some condition, .. } =>
    let (g, otherwise) := (g.setCondition id none).add .null
    let (g, choice) :=
      g.add (.caseWhen { condition, result := operand, otherwise := some otherwise })
    ((g.replaceChild id operand choice).1, true)
  | _ => (g, false)

/-! ## One range -/

/-- The expression of a retrieved value. -/
def valueExpression (g : Graph) (value : NodeId) : NodeId :=
  match g.node value with
  | .projection p => p.expression
  | _ => value

/-- The aggregate, other than ANY, that is all a scope without a filter retrieves, and its
condition. -/
def soleConditional? (g : Graph) (r : Retrieve) : Option (NodeId × NodeId) :=
  match r.values, r.condition with
  | [value], none =>
    let expression := g.valueExpression value
    match g.aggregate? expression with
    | some a => if a.function = .any then none else a.condition.map fun c => (expression, c)
    | none => none
  | _, _ => none

/-- Let a scope without a filter take over the condition of all it retrieves. -/
def promoteCondition (g : Graph) (scope : NodeId) : Graph × Bool :=
  match g.soleConditional? (g.scope scope) with
  | some (aggregate, condition) =>
    ((g.setCondition aggregate none).setCondition scope (some condition), true)
  | none => (g, false)

/-- Fold the conditions of the aggregates from a node, the inner ones first. -/
def foldConditionsUnder (g : Graph) (root : NodeId) : Graph × Bool :=
  changeEach foldCondition g (g.conditionalAggregates root).reverse

/-- Free the aggregates of a scope over one range of their conditions; answers whether one had
a condition. -/
def freeAggregatesOfOne (g : Graph) (scope : NodeId) : Graph × Bool :=
  let outputs := (g.scope scope).outputs
  let (g, promoted) := g.promoteCondition scope
  let (g, folded) := changeEach foldConditionsUnder g outputs
  (g, promoted || folded)

/-! ## Several ranges -/

/-- The conditional aggregates of a scope, each with its clause. -/
def aggregateSites (g : Graph) (r : Retrieve) : List (NodeId × ExpressionSite) :=
  (r.values.flatMap g.conditionalAggregates).map (·, .values) ++
    (r.condition.toList.flatMap g.conditionalAggregates).map (·, .filter) ++
    ((r.sort.map (·.expression)).flatMap g.conditionalAggregates).map (·, .sort)

/-- Put a subquery over a correlated scope in the place of an aggregate. -/
def aggregateSubquery (g : Graph) (id : NodeId) (site : ExpressionSite) (a : Aggregate)
    (sub : CorrelatedScope) : Graph :=
  if a.function = .any then g.replaceBySubquery id (anyKind site) none sub
  else
    let (g, operand) := g.copyWith a.operand sub.copies
    let (g, value) := g.add (.aggregate { function := a.function, operand, condition := none })
    g.replaceBySubquery id .scalar (some value) sub

/-- Move an aggregate into a subquery over the ranges it reads; answers whether it could be. -/
def wrapAggregate (g : Graph) (metadata : Metadata) (ranges : List NodeId) (id : NodeId)
    (site : ExpressionSite) : Graph × Bool :=
  match g.aggregate? id with
  | none => (g, false)
  | some a =>
    let used := ranges.filter (g.referencedRanges id).contains
    match g.correlate metadata used a.operand a.condition with
    | (g, none) => (g, false)
    | (g, some sub) => (g.aggregateSubquery id site a sub, true)

/-- Free one aggregate of its condition, by a subquery if the strategy wants one. -/
def freeAggregate (metadata : Metadata) (strategy : AggregateStrategy) (ranges : List NodeId) :
    Graph → List (NodeId × ExpressionSite) → Graph × Bool
  | g, [] => (g, false)
  | g, (id, site) :: rest =>
    let (g, wrapped) :=
      if strategy g id then g.wrapAggregate metadata ranges id site else (g, false)
    let (g, freed) := if wrapped then (g, true) else g.foldCondition id
    let (g, others) := freeAggregate metadata strategy ranges g rest
    (g, freed || others)

/-- Free the aggregates of a scope of their conditions, those written last first; answers whether
one had a condition. -/
def freeAggregates (g : Graph) (metadata : Metadata) (strategy : AggregateStrategy)
    (scope : NodeId) : Graph × Bool :=
  let ranges := g.includedRanges scope
  if ranges.length ≤ 1 then g.freeAggregatesOfOne scope
  else freeAggregate metadata strategy ranges g (g.aggregateSites (g.scope scope)).reverse

end Graph

end RangeQuery
