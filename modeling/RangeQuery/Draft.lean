import RangeQuery.Scope.Check

/-!
Scopes under construction. A draft gathers the clauses of one scope over a graph that may already
hold other nodes, and ends as a node of that graph.
-/

namespace RangeQuery

/-- The clauses gathered so far and the graph that holds their nodes. -/
structure Draft where
  graph : Graph
  clauses : Retrieve

namespace Draft

/-- A scope without clauses over a graph. -/
def ofGraph (graph : Graph) : Draft := { graph, clauses := .empty }

/-- Declare a range. -/
def declare (d : Draft) (range : Range) : Draft × NodeId :=
  let (graph, id) := d.graph.add (.range range)
  ({ graph, clauses := { d.clauses with ranges := d.clauses.ranges ++ [id] } }, id)

/-- Declare a range over an entity, joined to nothing. -/
def entityRange (d : Draft) (name entity : String) : Draft × NodeId :=
  d.declare { name, entity := some entity, join := none, required := false, included := true,
              nested := none }

/-- Declare a range over a nested query, joined to nothing. -/
def nestedRange (d : Draft) (name : String) (query : NodeId) : Draft × NodeId :=
  d.declare { name, entity := none, join := none, required := false, included := true,
              nested := some query }

/-- Join a declared range by a predicate. -/
def via (d : Draft) (range predicate : NodeId) (required : Bool) : Draft :=
  { d with graph := (d.graph.setJoin range (some predicate)).setRequired range required }

/-- Retrieve a value under a name. -/
def selectAs (d : Draft) (name : String) (expression : NodeId) (visible : Bool) : Draft × NodeId :=
  let (graph, id) := d.graph.add (.projection { name, expression, visible })
  ({ graph, clauses := { d.clauses with values := d.clauses.values ++ [id] } }, id)

/-- Retrieve a visible value under the name of its position. -/
def select (d : Draft) (expression : NodeId) : Draft × NodeId :=
  d.selectAs (defaultName d.clauses.values.length) expression true

/-- Demand one more predicate of the retrieved rows. -/
def filter (d : Draft) (predicate : NodeId) : Draft :=
  let (graph, condition) := d.graph.conjoinWith d.clauses.condition predicate
  { graph, clauses := { d.clauses with condition := some condition } }

/-- Sort by one more key. -/
def sortBy (d : Draft) (expression : NodeId) (descending : Bool) : Draft :=
  { d with clauses := { d.clauses with
      sort := d.clauses.sort ++ [{ expression, descending }] } }

/-- Want a slice of the result only. -/
def window (d : Draft) (offset size : UInt64) : Draft :=
  { d with clauses := { d.clauses with window := some { offset, size } } }

/-- Want distinct rows only. -/
def unique (d : Draft) : Draft := { d with clauses := { d.clauses with unique := true } }

/-- Give a placeholder the body that stands for it. -/
def template (d : Draft) (name : String) (body : NodeId) : Draft :=
  { d with clauses := { d.clauses with templates := d.clauses.templates.insert name body } }

/-- Set a directive. -/
def directive (d : Draft) (name : String) (value : Directive) : Draft :=
  { d with clauses := { d.clauses with directives := d.clauses.directives.insert name value } }

/-- Put the scope into its graph. -/
def finish (d : Draft) : Graph × NodeId := d.graph.add (.retrieve d.clauses)

end Draft

end RangeQuery
