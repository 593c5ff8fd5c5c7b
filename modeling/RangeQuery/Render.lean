import RangeQuery.Scope.Basic

/-!
Queries as one line of text. The text depends on the reachable nodes alone, so it is the same for
the same query however its graph was built.
-/

namespace RangeQuery

/-- A literal between single quotes, a quote inside written twice. -/
def quoted (text : String) : String := "'" ++ text.replace "'" "''" ++ "'"

/-- Whether an operand stands in parentheses: below a connective only the other connective does,
below any other operator every binary node does. -/
def needsParens (outer : BinaryOp) : Node → Bool
  | .binary op _ _ => if outer.isConnective then op.isConnective && op != outer else true
  | _ => false

/-- The name a retrieved value has at its position when it is given none. -/
def defaultName (position : Nat) : String := "value" ++ toString position

namespace Graph

/-- One operand of a binary node. -/
def renderOperand (g : Graph) (inner : NodeId → String) (outer : BinaryOp) (id : NodeId) :
    String :=
  if needsParens outer (g.node id) then "(" ++ inner id ++ ")" else inner id

/-- What a range reads from. -/
def renderSource (inner : NodeId → String) (r : Range) : String :=
  match r.nested, r.entity with
  | some query, _ => "(" ++ inner query ++ ")"
  | none, some entity => entity
  | none, none => "?"

/-- The declaration of a range. -/
def renderRange (inner : NodeId → String) (r : Range) : String :=
  let join := match r.join with
    | some predicate => " via " ++ inner predicate ++ (if r.required then " [required]" else "")
    | none => ""
  "range " ++ r.name ++ " = " ++ renderSource inner r ++ join ++
    (if r.included then "" else " [excluded]")

/-- The declaration behind a handle; what is no range is not declared. -/
def renderDeclaration (g : Graph) (inner : NodeId → String) (id : NodeId) : String :=
  match g.node id with
  | .range r => renderRange inner r
  | _ => ""

/-- A retrieved value, under its name unless it is the one its position gives. -/
def renderValue (g : Graph) (inner : NodeId → String) (value : NodeId) (position : Nat) : String :=
  match g.node value with
  | .projection p =>
    (if p.name = defaultName position then "" else p.name ++ " = ") ++ inner value
  | _ => inner value

/-- One sort key. -/
def renderSortItem (inner : NodeId → String) (item : SortItem) : String :=
  inner item.expression ++ (if item.descending then " desc" else "")

/-- A scope with all its clauses. -/
def renderRetrieve (g : Graph) (inner : NodeId → String) (r : Retrieve) : String :=
  String.join (r.ranges.map fun range => g.renderDeclaration inner range ++ "; ") ++
    "retrieve " ++ (if r.unique then "unique " else "") ++
    "(" ++ ", ".intercalate (r.values.mapIdx fun i value => g.renderValue inner value i) ++ ")" ++
    (match r.condition with
      | some condition => " where " ++ inner condition
      | none => "") ++
    (if r.sort.isEmpty then ""
      else " sort by " ++ ", ".intercalate (r.sort.map (renderSortItem inner))) ++
    (match r.window with
      | some w => " window " ++ toString w.offset.toNat ++ "," ++ toString w.size.toNat
      | none => "")

/-- The ranges and the filter of a subquery. -/
def renderBody (g : Graph) (inner : NodeId → String) (s : Subquery) : String :=
  "; ".intercalate (s.ranges.map (g.renderDeclaration inner) ++
    (s.condition.map fun condition => "where " ++ inner condition).toList)

/-- A subquery, in the form of its kind. -/
def renderSubquery (g : Graph) (inner : NodeId → String) (s : Subquery) : String :=
  let body := g.renderBody inner s
  match s.kind with
  | .existence => "EXISTS(" ++ body ++ ")"
  | .flag => "CASE WHEN EXISTS(" ++ body ++ ") THEN 1 ELSE 0 END"
  | .scalar =>
    "(SELECT " ++ (match s.expression with
      | some expression => inner expression
      | none => "1") ++
      (if s.ranges.isEmpty && s.condition.isNone then "" else "; ") ++ body ++ ")"

/-- A node, given the text of the nodes below it. -/
def renderNode (g : Graph) (inner : NodeId → String) : Node → String
  | .retrieve r => g.renderRetrieve inner r
  | .range r => renderRange inner r
  | .identifier i => g.rangeName i.range ++ String.join (i.path.map fun part => "." ++ part)
  | .binary op left right =>
    g.renderOperand inner op left ++ " " ++ op.symbol ++ " " ++ g.renderOperand inner op right
  | .not operand => "NOT (" ++ inner operand ++ ")"
  | .nullCheck operand negated => inner operand ++ (if negated then " IS NOT NULL" else " IS NULL")
  | .rowExists target => "EXISTS(" ++ inner target ++ ")"
  | .aggregate a =>
    a.function.name ++ "(" ++ inner a.operand ++ (match a.condition with
      | some condition => " WHERE " ++ inner condition
      | none => "") ++ ")"
  | .caseWhen c =>
    "CASE WHEN " ++ inner c.condition ++ " THEN " ++ inner c.result ++ (match c.otherwise with
      | some otherwise => " ELSE " ++ inner otherwise
      | none => "") ++ " END"
  | .subquery s => g.renderSubquery inner s
  | .projection p => inner p.expression
  | .number text => text
  | .string text => quoted text
  | .bool value => if value then "true" else "false"
  | .null => "NULL"
  | .parameter name => ":" ++ name
  | .placeholder name => "@" ++ name

/-- A node and what is below it, as far as a number of levels. -/
def renderLevels (g : Graph) : Nat → NodeId → String
  | 0, _ => ""
  | depth + 1, id => g.renderNode (g.renderLevels depth) (g.node id)

/-- The text of a node and all below it. -/
def render (g : Graph) (id : NodeId) : String := g.renderLevels g.size id

end Graph

end RangeQuery
