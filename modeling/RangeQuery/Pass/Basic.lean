import RangeQuery.Scope.AggregateCondition
import RangeQuery.Scope.DeadJoin
import RangeQuery.Scope.ExistenceMarker
import RangeQuery.Scope.Requiredness
import RangeQuery.Scope.SelfJoin

/-!
The passes of the optimiser. A pass changes one scope of a graph and tells whether it changed
anything; where a change is not known to be safe, the pass leaves the scope as it is.
-/

namespace RangeQuery

/-- The passes, in the order in which they run. -/
inductive Pass where
  | existenceMarkers
  | anyTests
  | aggregates
  | selfJoins
  | requiredness
  | anchors
  | deadJoins
deriving DecidableEq

namespace Pass

/-- The name under which a pass is reported and switched. -/
def name : Pass → String
  | .existenceMarkers => "exists_extraction"
  | .anyTests => "any_optimizer"
  | .aggregates => "aggregate_optimizer"
  | .selfJoins => "self_join_optimizer"
  | .requiredness => "join_optimizer"
  | .anchors => "anchor_normalization"
  | .deadJoins => "dead_join_elimination"

/-- All passes, in the order in which they run. -/
def all : List Pass :=
  [.existenceMarkers, .anyTests, .aggregates, .selfJoins, .requiredness, .anchors, .deadJoins]

/-- The pass with a name. -/
def ofName? (name : String) : Option Pass := all.find? fun pass => pass.name == name

theorem mem_all (pass : Pass) : pass ∈ all := by
  cases pass <;> decide

end Pass

/-- What the passes over a query share. -/
structure PassContext where
  metadata : Metadata
  strategy : AggregateStrategy
  /-- The ranges that a marker made required; they are never freed again. -/
  pinned : List NodeId

/-- The context at the start. -/
def PassContext.fresh (metadata : Metadata) (strategy : AggregateStrategy) : PassContext :=
  { metadata, strategy, pinned := [] }

/-- Pin more ranges, each once. -/
def PassContext.pin (context : PassContext) (ranges : List NodeId) : PassContext :=
  { context with pinned := (context.pinned ++ ranges).eraseDups }

namespace Graph

/-- Give a scope an anchor if none of its included ranges is one. -/
def addAnchor (g : Graph) (metadata : Metadata) (scope : NodeId) : Graph × Bool :=
  let included := g.includedRanges scope
  let r := g.scope scope
  if (g.anchor? included).isSome then (g, false)
  else
    let usage := g.usage metadata r.outputs r.condition included
    let (g, _, condition) := g.withAnchor included r.condition usage
    let g := if condition = r.condition then g else g.setCondition scope condition
    (g, (g.anchor? included).isSome)

/-- Put the anchor of a scope in front of its ranges. -/
def putAnchorFirst (g : Graph) (scope : NodeId) : Graph × Bool :=
  match g.anchor? (g.includedRanges scope) with
  | none => (g, false)
  | some anchor =>
    let ordered := anchorFirst (g.scope scope).ranges anchor
    if ordered = (g.scope scope).ranges then (g, false) else (g.setRanges scope ordered, true)

/-- Let a scope start with an anchor, if it includes a range. -/
def normalizeAnchor (g : Graph) (metadata : Metadata) (scope : NodeId) : Graph × Bool :=
  if (g.includedRanges scope).isEmpty then (g, false)
  else
    let (g, added) := g.addAnchor metadata scope
    let (g, moved) := g.putAnchorFirst scope
    (g, added || moved)

end Graph

namespace Pass

/-- Change one scope; answers the graph, the context and whether anything changed. -/
def apply (pass : Pass) (context : PassContext) (g : Graph) (scope : NodeId) :
    Graph × PassContext × Bool :=
  match pass with
  | .existenceMarkers =>
    let (g, marked) := g.extractMarkers scope
    (g, context.pin marked, !marked.isEmpty)
  | .anyTests =>
    let (g, changed) := g.resolveAnys context.metadata scope
    (g, context, changed)
  | .aggregates =>
    let (g, changed) := g.freeAggregates context.metadata context.strategy scope
    (g, context, changed)
  | .selfJoins =>
    let (g, changed) := g.mergeSelfJoins scope
    (g, context, changed)
  | .requiredness =>
    let (g, changed) := g.decideRequired context.metadata context.pinned scope
    (g, context, changed)
  | .anchors =>
    let (g, changed) := g.normalizeAnchor context.metadata scope
    (g, context, changed)
  | .deadJoins =>
    let (g, changed) := g.dropDeadJoins scope
    (g, context, changed)

/-- Change some scopes one after the other. -/
def applyAll (pass : Pass) : PassContext → Graph → List NodeId → Graph × PassContext × Bool
  | context, g, [] => (g, context, false)
  | context, g, scope :: rest =>
    let (g, context, first) := pass.apply context g scope
    let (g, context, others) := applyAll pass context g rest
    (g, context, first || others)

end Pass

end RangeQuery
