import RangeQuery.Scope.Correlated

/-!
ANY asks whether there is a row. Each ANY of a scope becomes a subquery over copies of the ranges
it reads; where no copy can start the join of the subquery, the ANY stays.
-/

namespace RangeQuery

/-- The clause of a scope that an expression belongs to. -/
inductive ExpressionSite where
  | values | filter | sort
deriving DecidableEq

/-- Where an ANY stands. -/
structure AnySite where
  site : ExpressionSite
  /-- Whether it is a retrieved value by itself. -/
  isValue : Bool
deriving DecidableEq

namespace Graph

/-- The clause of a scope that a child of it belongs to. A value asked for its truth counts as a
filter. -/
def siteOf? (r : Retrieve) (truth : Bool) (child : NodeId) : Option ExpressionSite :=
  if r.values.contains child then some (if truth then .filter else .values)
  else if r.condition = some child then some .filter
  else if r.sort.any fun item => item.expression == child then some .sort
  else none

/-- Whether a node asks a child of it for its truth. -/
def asksTruth (child : NodeId) : Node → Bool
  | .aggregate a => a.condition == some child
  | .caseWhen c => c.condition == child
  | _ => false

/-- Whether an ANY below a node belongs to another scope than the one searched from. -/
def closesScope : Node → Bool
  | .range _ | .subquery _ | .retrieve _ => true
  | _ => false

/-- Whether a node is a retrieved value. -/
def isProjection (g : Graph) (id : NodeId) : Bool :=
  match g.node id with
  | .projection _ => true
  | _ => false

/-- Climb from a child of the ANY's way up to the scope, as far as a number of nodes. -/
def locateFrom (g : Graph) (scope any : NodeId) : Nat → NodeId → Bool → Option AnySite
  | 0, _, _ => none
  | steps + 1, child, truth =>
    match g.parent child with
    | none => none
    | some owner =>
      if owner = scope then
        match g.retrieve? scope with
        | some r => (siteOf? r truth child).map fun site =>
            { site, isValue := !truth && g.parent any == some child && g.isProjection child }
        | none => none
      else if asksTruth child (g.node owner) then g.locateFrom scope any steps owner true
      else if closesScope (g.node owner) then none
      else g.locateFrom scope any steps owner truth

/-- Where an ANY stands in a scope, if it does. -/
def locate? (g : Graph) (scope any : NodeId) : Option AnySite :=
  g.locateFrom scope any g.size any false

/-- Put 1 in the place of an ANY that is all a scope retrieves, and want one row only. -/
def inlineAny (g : Graph) (scope any : NodeId) : Graph :=
  let (g, one) := g.add (.number "1")
  let g := (g.replace any one).1
  if (g.scope scope).window.isNone then g.setWindow scope (some { offset := 0, size := 1 }) else g

/-- Put a subquery over a correlated scope in the place of a node. -/
def replaceBySubquery (g : Graph) (old : NodeId) (kind : SubqueryKind)
    (expression : Option NodeId) (sub : CorrelatedScope) : Graph :=
  let (g, subquery) :=
    g.add (.subquery { kind, ranges := sub.ranges, expression, condition := sub.condition })
  (g.replace old subquery).1

/-- How the subquery of an ANY answers: as a truth value in a filter, as 1 or 0 elsewhere. -/
def anyKind : ExpressionSite → SubqueryKind
  | .filter => .existence
  | .values | .sort => .flag

/-- Whether an ANY over a correlated scope holds for every row, and is all the scope retrieves. -/
def inlinesAny (site : AnySite) (sub : CorrelatedScope) (values : List NodeId) : Bool :=
  anyKind site.site == .flag && sub.condition.isNone && sub.ranges.length == 1 && site.isValue &&
    values.length == 1

/-- Resolve one ANY of a scope; answers whether it could be. -/
def resolveAny (g : Graph) (metadata : Metadata) (scope any : NodeId) (site : AnySite) :
    Graph × Bool :=
  match g.aggregate? any with
  | none => (g, false)
  | some aggregate =>
    let values := (g.scope scope).values
    match g.correlate metadata (g.includedRanges scope) aggregate.operand aggregate.condition with
    | (g, none) => (g, false)
    | (g, some sub) =>
      if inlinesAny site sub values then (g.inlineAny scope any, true)
      else (g.replaceBySubquery any (anyKind site.site) none sub, true)

/-- Resolve an ANY where it stands; one that sorts, or stands outside the scope, is left. -/
def resolveAnyAt (g : Graph) (metadata : Metadata) (scope any : NodeId) : Graph × Bool :=
  match g.locate? scope any with
  | some site => if site.site = .sort then (g, false) else g.resolveAny metadata scope any site
  | none => (g, false)

/-- Change the listed nodes in order; answers whether one was changed. -/
def changeEach (change : Graph → NodeId → Graph × Bool) :
    Graph → List NodeId → Graph × Bool
  | g, [] => (g, false)
  | g, id :: rest =>
    let (g, first) := change g id
    let (g, others) := changeEach change g rest
    (g, first || others)

/-- Resolve every ANY of a scope, the innermost first; answers whether one was. -/
def resolveAnys (g : Graph) (metadata : Metadata) (scope : NodeId) : Graph × Bool :=
  changeEach (fun g any => g.resolveAnyAt metadata scope any) g
    ((g.postOrder scope).filter fun id => (g.node id).isAny)

end Graph

end RangeQuery
