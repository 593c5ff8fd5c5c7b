import RangeQuery.Predicate.RangeUsage

/-!
Which joined ranges must have a partner row. A declared relation can promise one, and a filter can
reject the rows without one; a range that is only tested for NULL must not be required.
-/

namespace RangeQuery

namespace Graph

/-! ## By declared relations -/

/-- The two sides of an equality from a range: its own identifier and the other one. -/
def ownAndOther? (range : NodeId) (left right : Identifier) : Option (Identifier × Identifier) :=
  if left.range = range ∧ right.range ≠ range then some (left, right)
  else if right.range = range ∧ left.range ≠ range then some (right, left)
  else none

/-- Whether a relation leads from a column to a field of an entity, and promises a partner. -/
def promisesPartner (entity : String) (own other : Identifier) (r : Relation) : Bool :=
  r.required && r.isToOne && r.targetEntity == entity && r.relationColumn == other.field &&
    r.inversedBy == own.field

/-- Whether a declared relation promises a partner row over the equality of two columns. -/
def isPromised (g : Graph) (metadata : Metadata) (entity : String) (own other : Identifier) :
    Bool :=
  match g.entity? other.range with
  | some owner =>
    own.isDirect && other.isDirect && (metadata.relations owner).any (promisesPartner entity own other)
  | none => false

/-- Whether a range that is not required has a partner row all the same. -/
def requiredByRelation (g : Graph) (metadata : Metadata) (range : NodeId) : Bool :=
  match g.range? range with
  | some { entity := some entity, join := some join, required := false, .. } =>
    match g.identifierEquality? join with
    | some (left, right) =>
      match ownAndOther? range left right with
      | some (own, other) => g.isPromised metadata entity own other
      | none => false
    | none => false
  | _ => false

/-- Require the included ranges for which a relation promises a partner row, but none that the
filter tests for NULL; answers whether there were any. -/
def requireByRelation (g : Graph) (metadata : Metadata) (scope : NodeId) : Graph × Bool :=
  let tested := (g.scope scope).condition.toList.flatMap g.nullTested
  let promised := (g.includedRanges scope).filter fun id =>
    !tested.contains id && g.requiredByRelation metadata id
  (promised.foldl (fun g id => g.setRequired id true) g, !promised.isEmpty)

/-! ## By the filter -/

/-- Whether a missing row can satisfy a predicate with such a node in it. -/
def toleratesMissing : Node → Bool
  | .binary .or _ _ | .not _ | .nullCheck _ false | .caseWhen _ | .rowExists _ => true
  | _ => false

/-- The ranges read by conjuncts that no missing row satisfies. -/
def rejectingRanges (g : Graph) (condition : NodeId) : List NodeId :=
  ((g.conjuncts condition).filter fun id => !g.contains id toleratesMissing).flatMap fun id =>
    g.rangesOf (g.identifiersUnder id false)

/-- Whether a test for NULL stands between a node and a root above it, as far as a number of
nodes. -/
def underNullTest (g : Graph) (root : NodeId) : Nat → NodeId → Bool
  | 0, _ => false
  | steps + 1, id =>
    match g.node id with
    | .nullCheck _ false => true
    | _ =>
      if id = root then false
      else match g.parent id with
        | some owner => g.underNullTest root steps owner
        | none => false

/-- Whether a filter reads a range, and only in tests for NULL. -/
def onlyNullTested (g : Graph) (condition range : NodeId) : Bool :=
  let reads := (g.identifiersUnder condition false).filter fun id =>
    (g.identifier? id).any fun i => i.range == range
  !reads.isEmpty && reads.all (g.underNullTest condition g.size)

/-- Whether a range is joined by a predicate. -/
def isJoined (g : Graph) (id : NodeId) : Bool := (g.range? id).any fun r => !r.isAnchor

/-- Whether a joined range becomes required, given the ranges that a filter tests for NULL and
those whose missing rows it rejects. -/
def isPromoted (g : Graph) (tested rejecting : List NodeId) (id : NodeId) : Bool :=
  g.isJoined id && !tested.contains id && (g.range? id).any (fun r => !r.required) &&
    rejecting.contains id

/-- Whether a required range becomes optional, given the ranges that a filter tests for NULL. -/
def isDemoted (g : Graph) (pinned tested : List NodeId) (condition id : NodeId) : Bool :=
  g.isJoined id && tested.contains id && (g.range? id).any (·.required) &&
    !pinned.contains id && g.onlyNullTested condition id

/-- Require the included ranges whose missing rows the filter rejects, and free those that it only
tests for NULL, apart from the pinned ones; answers whether there were any. -/
def requireByFilter (g : Graph) (pinned : List NodeId) (scope : NodeId) : Graph × Bool :=
  match (g.scope scope).condition with
  | none => (g, false)
  | some condition =>
    let ranges := g.includedRanges scope
    let tested := g.nullTested condition
    let promoted := ranges.filter (g.isPromoted tested (g.rejectingRanges condition))
    let demoted := ranges.filter (g.isDemoted pinned tested condition)
    let h := promoted.foldl (fun g id => g.setRequired id true) g
    (demoted.foldl (fun g id => g.setRequired id false) h,
      !promoted.isEmpty || !demoted.isEmpty)

/-- Decide which ranges of a scope must have a partner row; answers whether one changed. -/
def decideRequired (g : Graph) (metadata : Metadata) (pinned : List NodeId) (scope : NodeId) :
    Graph × Bool :=
  let (g, byRelation) := g.requireByRelation metadata scope
  let (g, byFilter) := g.requireByFilter pinned scope
  (g, byRelation || byFilter)

end Graph

end RangeQuery
