import RangeQuery.Metadata
import RangeQuery.Scope.Check

/-!
What is written short is written out before the checks: a placeholder becomes a copy of its
template, and a relation that joins a range becomes the equality of the columns behind it.
-/

namespace RangeQuery

namespace Graph

/-! ## Templates -/

/-- How many rounds of templates inside templates are written out. -/
def maxTemplateRounds : Nat := 16

/-- The name a placeholder stands for. -/
def placeholder? (g : Graph) (id : NodeId) : Option String :=
  match g.node id with
  | .placeholder name => some name
  | _ => none

/-- The placeholders from a root, with their names. -/
def placeholders (g : Graph) (root : NodeId) : List (NodeId × String) :=
  (g.descendants root).filterMap fun id => (g.placeholder? id).map fun name => (id, name)

/-- Put a copy of its template in the place of each placeholder, up to the first without one. The
templates are those of the root. -/
def fillPlaceholders (root : NodeId) :
    Graph → List (NodeId × String) → Graph × Except QueryError Unit
  | g, [] => (g, .ok ())
  | g, (id, name) :: rest =>
    match (g.scope root).templates.get? name with
    | none => (g, .error (.unknownTemplate name))
    | some body =>
      let (g, copy) := g.copy body
      fillPlaceholders root (g.replace id copy).1 rest

/-- Fill the placeholders in rounds, until a round finds none; one that is left after the last
round comes from a circle of templates. -/
def expandRounds (root : NodeId) : Nat → Graph → Bool → Graph × Except QueryError Bool
  | 0, g, expanded =>
    match g.placeholders root with
    | [] => (g, .ok expanded)
    | (_, name) :: _ => (g, .error (.unknownTemplate name))
  | rounds + 1, g, expanded =>
    match g.placeholders root with
    | [] => (g, .ok expanded)
    | first :: rest =>
      match fillPlaceholders root g (first :: rest) with
      | (g, .error fault) => (g, .error fault)
      | (g, .ok ()) => expandRounds root rounds g true

/-! ## Relations -/

/-- The relation that joins a range: a bare property of another range. -/
def joinRelation? (g : Graph) (range : NodeId) : Option Identifier :=
  match (g.join? range).bind g.identifier? with
  | some i => if i.range ≠ range && i.isDirect then some i else none
  | none => none

/-- The declared relation behind a property of one range that leads to the entity of another. -/
def declaredRelation? (g : Graph) (metadata : Metadata) (range : NodeId) (relation : Identifier) :
    Option Relation :=
  match g.entity? relation.range, g.entity? range with
  | some owner, some target =>
    (metadata.relations owner).find? fun r =>
      r.property == relation.field && r.targetEntity == target
  | _, _ => none

/-- Join a range by the equality of the columns of a relation. -/
def joinByColumns (g : Graph) (range owner : NodeId) (relation : Relation) : Graph :=
  let (g, left) := g.addIdentifier range [relation.inversedBy]
  let (g, right) := g.addIdentifier owner [relation.relationColumn]
  let (g, predicate) := g.addBinary .eq left right
  g.setJoin range (some predicate)

/-- Write out the relations that join the given ranges, up to the first that is not declared. -/
def expandJoins (metadata : Metadata) :
    Graph → List NodeId → Bool → Graph × Except QueryError Bool
  | g, [], expanded => (g, .ok expanded)
  | g, range :: rest, expanded =>
    match g.joinRelation? range with
    | none => expandJoins metadata g rest expanded
    | some relation =>
      match g.declaredRelation? metadata range relation with
      | none =>
        (g, .error (.unknownRelation (g.rangeName range)
          (g.rangeName relation.range ++ "." ++ relation.field)))
      | some declared =>
        expandJoins metadata (g.joinByColumns range relation.range declared) rest true

end Graph

namespace Query

/-- Put a copy of its template in the place of every placeholder; answers whether there was one. -/
def expandTemplates (q : Query) : Query × Except QueryError Bool :=
  let (graph, outcome) := Graph.expandRounds q.root Graph.maxTemplateRounds q.graph false
  ({ q with graph }, outcome)

/-- Write out the relations that join the ranges of the root; answers whether there was one. -/
def expandRelations (q : Query) (metadata : Metadata) : Query × Except QueryError Bool :=
  let (graph, outcome) := Graph.expandJoins metadata q.graph q.clauses.ranges false
  ({ q with graph }, outcome)

end Query

end RangeQuery
