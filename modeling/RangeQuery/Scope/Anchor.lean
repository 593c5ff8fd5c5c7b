import RangeQuery.Predicate.RangeUsage

/-!
Anchors. The join of a scope starts from a range without a join predicate; where every range has
one, a range is chosen whose predicate can move into the filter.
-/

namespace RangeQuery

namespace Graph

/-- Whether a range has no join predicate. -/
def isAnchor (g : Graph) (id : NodeId) : Bool := (g.range? id).any (·.isAnchor)

/-- The first range of a list without a join predicate. -/
def anchor? (g : Graph) (ranges : List NodeId) : Option NodeId := ranges.find? g.isAnchor

/-- A list with one range in front and the others behind it in their order. -/
def anchorFirst (ranges : List NodeId) (anchor : NodeId) : List NodeId :=
  anchor :: ranges.filter fun id => id ≠ anchor

/-- Whether a range that an expression reads may become the anchor. -/
def isReadCandidate (g : Graph) (usage : RangeUsage) (id : NodeId) : Bool :=
  (g.range? id).any fun r => usage.expression.has r.name && usage.isCollapsible r.name r.required

/-- Whether a range is required. -/
def isRequired (g : Graph) (id : NodeId) : Bool := (g.range? id).any (·.required)

/-- Whether a range that is not required may become the anchor. -/
def isOptionalCandidate (g : Graph) (usage : RangeUsage) (id : NodeId) : Bool :=
  (g.range? id).any fun r => !r.required && usage.isCollapsible r.name false

/-- The range to make an anchor of: one that an expression reads comes first, then a required one,
then any that may be required. -/
def anchorCandidate? (g : Graph) (usage : RangeUsage) (ranges : List NodeId) : Option NodeId :=
  (ranges.find? (g.isReadCandidate usage)).or <|
    (ranges.find? g.isRequired).or (ranges.find? (g.isOptionalCandidate usage))

/-- Move the join predicate of a range into a condition, and require the range. -/
def promote (g : Graph) (anchor : NodeId) (condition : Option NodeId) : Graph × Option NodeId :=
  match g.join? anchor with
  | some join =>
    let (g, condition) := (g.setJoin anchor none).conjoinWith condition join
    (g.setRequired anchor true, some condition)
  | none => (g.setRequired anchor true, condition)

/-- Make sure that one of the ranges is an anchor: answers the ranges and the condition, with a
new anchor in front and its join predicate in the condition. Nothing changes where there is an
anchor already, or no range to make one of. -/
def withAnchor (g : Graph) (ranges : List NodeId) (condition : Option NodeId)
    (usage : RangeUsage) : Graph × List NodeId × Option NodeId :=
  if ranges.any g.isAnchor then (g, ranges, condition)
  else match g.anchorCandidate? usage ranges with
    | none => (g, ranges, condition)
    | some anchor =>
      let (g, condition) := g.promote anchor condition
      (g, anchorFirst ranges anchor, condition)

end Graph

end RangeQuery
