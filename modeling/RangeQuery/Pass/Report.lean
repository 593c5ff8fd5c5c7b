import RangeQuery.Render
import RangeQuery.Settings.Basic

/-!
A run of the passes over all scopes of a query, and the report of it.
-/

namespace RangeQuery

/-- The text of a query around one pass. -/
structure PassTrace where
  pass : Pass
  before : String
  after : String
  changed : Bool
deriving DecidableEq

/-- The lines that tell of one pass. -/
def PassTrace.format (t : PassTrace) : String :=
  "[" ++ t.pass.name ++ "] " ++ (if t.changed then "changed" else "unchanged") ++
    "\n  before: " ++ t.before ++ "\n  after:  " ++ t.after

/-- What a run did. -/
structure Report where
  /-- The passes that changed the query, in the order they ran. -/
  applied : List Pass
  trace : List PassTrace
deriving DecidableEq, Inhabited

namespace Report

/-- The report of a run without passes. -/
def empty : Report := { applied := [], trace := [] }

/-- Whether a pass of this name changed the query. -/
def hasApplied (r : Report) (name : String) : Bool := r.applied.any fun pass => pass.name == name

/-- The trace as text. -/
def formatTrace (r : Report) : String := "\n".intercalate (r.trace.map PassTrace.format)

/-- Tell of one more pass. -/
def record (r : Report) (settings : Settings) (pass : Pass) (before after : String)
    (changed : Bool) : Report where
  applied := if changed then r.applied ++ [pass] else r.applied
  trace := if settings.trace then r.trace ++ [{ pass, before, after, changed }] else r.trace

end Report

/-- The state of a run. -/
structure Run where
  graph : Graph
  context : PassContext
  report : Report

namespace Run

/-- Let a pass change the scopes, if the settings let it run. -/
def step (settings : Settings) (root : NodeId) (scopes : List NodeId) (run : Run) (pass : Pass) :
    Run :=
  if settings.enables pass then
    let text := fun g : Graph => if settings.trace then g.render root else ""
    let before := text run.graph
    let (graph, context, changed) := pass.applyAll run.context run.graph scopes
    { graph, context
      report := run.report.record settings pass before (text graph) changed }
  else run

end Run

/-- Run passes in order over the scopes that the query has at the start. -/
def Query.runPasses (q : Query) (passes : List Pass) (settings : Settings)
    (context : PassContext) : Query × PassContext × Report :=
  let run := passes.foldl (Run.step settings q.root q.scopes)
    { graph := q.graph, context, report := .empty }
  ({ q with graph := run.graph }, run.context, run.report)

end RangeQuery
