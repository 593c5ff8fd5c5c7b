import RangeQuery.Pass.Report
import RangeQuery.Scope.Expansion

/-!
From a query as it was written to one that can be turned into a statement of the database: write
out what is short, check the rules, optimise, and see that no ANY is left. The query is changed as
far as the first error.
-/

namespace RangeQuery

/-- What a compiler knows besides the query. -/
structure Compiler where
  metadata : Metadata
  settings : Settings
  strategy : AggregateStrategy

namespace Compiler

/-- Optimise a query that keeps the rules. -/
def optimize (c : Compiler) (q : Query) : Query × Except QueryError Report :=
  let (q, _, report) := q.runPasses Pass.all c.settings (.fresh c.metadata c.strategy)
  if c.settings.enables .anyTests then
    match q.checkNoAny with
    | .ok () => (q, .ok report)
    | .error fault => (q, .error fault)
  else (q, .ok report)

/-- Check a query and optimise it. -/
def checkAndOptimize (c : Compiler) (q : Query) : Query × Except QueryError Report :=
  match q.validate with
  | .ok () => c.optimize q
  | .error fault => (q, .error fault)

/-- Compile a query; answers the query as it is in the end, and the report or the first error. -/
def compile (c : Compiler) (q : Query) : Query × Except QueryError Report :=
  match q.expandTemplates with
  | (q, .error fault) => (q, .error fault)
  | (q, .ok _) =>
    match q.expandRelations c.metadata with
    | (q, .error fault) => (q, .error fault)
    | (q, .ok _) => c.checkAndOptimize q

end Compiler

end RangeQuery
