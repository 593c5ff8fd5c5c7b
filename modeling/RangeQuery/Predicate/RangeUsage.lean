import RangeQuery.Metadata
import RangeQuery.Predicate.Conjuncts

/-!
How the ranges of a scope are used by some expressions and a condition. The flags are filed under
the names of the ranges.
-/

namespace RangeQuery

/-- Flags filed under names; a name without a flag counts as not flagged. -/
abbrev Flags := NameTable Bool

/-- Whether a name is flagged. -/
def Flags.has (flags : Flags) (name : String) : Bool := (flags.get? name).getD false

/-- Flag a list of names. -/
def Flags.raise (flags : Flags) (names : List String) : Flags :=
  names.foldl (fun flags name => flags.insert name true) flags

/-- What is known of the use of each range. -/
structure RangeUsage where
  /-- An expression reads it. -/
  expression : Flags
  /-- The condition reads it. -/
  condition : Flags
  /-- The condition tests it for NULL. -/
  nullTested : Flags
  /-- The condition reads a column of it that never holds NULL. -/
  nonNullable : Flags
deriving DecidableEq

namespace RangeUsage

/-- A live range is read by an expression or the condition. -/
def isLive (u : RangeUsage) (name : String) : Bool := u.expression.has name || u.condition.has name

/-- Whether every row must have a partner in the range without a change to the result: it is
required anyway, or nothing tests it for NULL. -/
def isCollapsible (u : RangeUsage) (name : String) (required : Bool) : Bool :=
  if required then true
  else if u.nullTested.has name then false
  else u.expression.has name || u.condition.has name || u.nonNullable.has name ||
    !u.condition.has name

end RangeUsage

namespace Graph

/-- The names of those ranges of a list that some of the given ones are. -/
def namesAmong (g : Graph) (candidates ranges : List NodeId) : List String :=
  (ranges.filter candidates.contains).map g.rangeName

/-- Whether an identifier names a column of its range that never holds NULL. -/
def isNonNullable (g : Graph) (metadata : Metadata) (i : Identifier) : Bool :=
  match g.entity? i.range with
  | some entity => i.isDirect && !metadata.nullable entity i.field
  | none => false

/-- The use of some ranges by expressions and a condition. -/
def usage (g : Graph) (metadata : Metadata) (expressions : List NodeId) (condition : Option NodeId)
    (ranges : List NodeId) : RangeUsage :=
  let unused : Flags := .ofList (ranges.map fun id => (g.rangeName id, false))
  let read := condition.toList.flatMap fun id => g.identifiersUnder id true
  let certain := (read.filterMap g.identifier?).filter (g.isNonNullable metadata)
  { expression := unused.raise <| g.namesAmong ranges <|
      g.rangesOf (expressions.flatMap fun id => g.identifiersUnder id true)
    condition := unused.raise (g.namesAmong ranges (g.rangesOf read))
    nullTested := unused.raise (g.namesAmong ranges (condition.toList.flatMap g.nullTested))
    nonNullable := unused.raise (g.namesAmong ranges (certain.map (·.range))) }

end Graph

end RangeQuery
