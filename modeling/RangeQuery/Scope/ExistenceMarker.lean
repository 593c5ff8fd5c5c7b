import RangeQuery.Predicate.Conjuncts

/-!
A conjunct of a filter that only demands a row of a declared range is no predicate: it leaves the
filter and the range becomes required.
-/

namespace RangeQuery

namespace Graph

/-- The declared range that a conjunct demands a row of. -/
def markedRange? (g : Graph) (declared : List NodeId) (conjunct : NodeId) : Option NodeId :=
  match g.node conjunct with
  | .rowExists target =>
    match g.identifier? target with
    | some i => if declared.contains i.range then some i.range else none
    | none => none
  | _ => none

/-- Require the ranges of a list. -/
def requireAll (g : Graph) (ranges : List NodeId) : Graph :=
  ranges.foldl (fun g id => g.setRequired id true) g

/-- Turn the markers of a filter into required ranges; answers these ranges, each once. -/
def extractMarkersOf (g : Graph) (scope condition : NodeId) : Graph × List NodeId :=
  let declared := (g.scope scope).ranges
  let conjuncts := g.conjuncts condition
  let marked := (conjuncts.filterMap (g.markedRange? declared)).eraseDups
  if marked.isEmpty then (g, [])
  else
    let remaining := conjuncts.filter fun id => (g.markedRange? declared id).isNone
    let (g, filter) := (g.requireAll marked).conjoin remaining
    (g.setCondition scope filter, marked)

/-- Turn the markers of a scope into required ranges; answers these ranges, each once. -/
def extractMarkers (g : Graph) (scope : NodeId) : Graph × List NodeId :=
  match (g.scope scope).condition with
  | some condition => g.extractMarkersOf scope condition
  | none => (g, [])

end Graph

end RangeQuery
