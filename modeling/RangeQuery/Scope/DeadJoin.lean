import RangeQuery.Scope.Basic

/-!
A joined range that nobody reads and that drops no row need not be joined. Excluding one can leave
another without a reader, so the search is repeated until it finds none.
-/

namespace RangeQuery

/-- What a search for readers of a range has met. -/
structure Readers where
  /-- How many identifiers outside subqueries read the range. -/
  direct : Nat
  /-- The subqueries met, whose readers count apart. -/
  subqueries : List NodeId

namespace Graph

/-- One step of the search for readers of a range: its own join predicate and excluded ranges are
not entered. -/
def seekReaders (g : Graph) (range : NodeId) (found : Readers) (id : NodeId) : Visit × Readers :=
  if g.join? range = some id then (.skip, found)
  else match g.node id with
    | .range r => (if r.included then .descend else .skip, found)
    | .subquery _ => (.skip, { found with subqueries := id :: found.subqueries })
    | .identifier i => (.skip, if i.range = range then { found with direct := found.direct + 1 } else found)
    | _ => (.descend, found)

/-- How many identifiers inside a subquery read a range from outside it. -/
def correlatedReads (g : Graph) (range subquery : NodeId) : Nat :=
  let declared := match g.subquery? subquery with
    | some s => s.ranges
    | none => []
  if declared.contains range then 0
  else (g.rangesOf (g.identifiersUnder subquery true)).countP fun id => id == range

/-- How many identifiers of a scope read a range, those of its own join predicate apart. -/
def readCount (g : Graph) (scope range : NodeId) : Nat :=
  let found := (g.walk scope (g.seekReaders range) { direct := 0, subqueries := [] }).2
  found.direct + total (found.subqueries.map (g.correlatedReads range))

/-- Whether a joined range drops no row and nobody reads it. -/
def isDead (g : Graph) (scope range : NodeId) : Bool :=
  ((g.range? range).any fun r => !r.required && !r.isAnchor) && g.readCount scope range == 0

/-- Exclude dead ranges of a scope one by one, at most a number of times. -/
def dropRounds : Nat → Graph → NodeId → Graph × Bool
  | 0, g, _ => (g, false)
  | rounds + 1, g, scope =>
    match (g.includedRanges scope).find? (g.isDead scope) with
    | some dead => ((dropRounds rounds (g.exclude dead) scope).1, true)
    | none => (g, false)

/-- Exclude the dead ranges of a scope until there is none left; each round excludes one. Answers
whether there were any. -/
def dropDeadJoins (g : Graph) (scope : NodeId) : Graph × Bool :=
  dropRounds (g.includedRanges scope).length g scope

end Graph

end RangeQuery
