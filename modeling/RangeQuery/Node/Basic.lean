import RangeQuery.NameTable

/-!
The nodes of a query. A node holds the handles of the nodes it owns, so a query is a graph of
nodes; an identifier also names the range it reads from, which it does not own.
-/

namespace RangeQuery

/-- A handle: the place of a node in its graph. -/
structure NodeId where
  index : Nat
deriving DecidableEq, Inhabited

/-- The operators that join two operands. -/
inductive BinaryOp where
  | and | or | eq | ne | lt | le | gt | ge | add | sub | mul | div | like
deriving DecidableEq

/-- How an operator is written. -/
def BinaryOp.symbol : BinaryOp → String
  | .and => "AND"
  | .or => "OR"
  | .eq => "="
  | .ne => "<>"
  | .lt => "<"
  | .le => "<="
  | .gt => ">"
  | .ge => ">="
  | .add => "+"
  | .sub => "-"
  | .mul => "*"
  | .div => "/"
  | .like => "LIKE"

/-- The operators that join truth values. -/
def BinaryOp.isConnective : BinaryOp → Bool
  | .and | .or => true
  | _ => false

/-- The functions over the rows of a scope; `any` asks whether there is a row at all. -/
inductive AggregateFn where
  | count | countUnique | sum | sumUnique | avg | avgUnique | min | max | any
deriving DecidableEq

/-- How an aggregate function is written. -/
def AggregateFn.name : AggregateFn → String
  | .count => "COUNT"
  | .countUnique => "COUNTU"
  | .sum => "SUM"
  | .sumUnique => "SUMU"
  | .avg => "AVG"
  | .avgUnique => "AVGU"
  | .min => "MIN"
  | .max => "MAX"
  | .any => "ANY"

/-- All aggregate functions. -/
def AggregateFn.all : List AggregateFn :=
  [.count, .countUnique, .sum, .sumUnique, .avg, .avgUnique, .min, .max, .any]

/-- The aggregate function that is written so. -/
def AggregateFn.ofName? (name : String) : Option AggregateFn :=
  AggregateFn.all.find? fun function => function.name == name

theorem AggregateFn.mem_all (function : AggregateFn) : function ∈ AggregateFn.all := by
  cases function <;> decide

/-- What a subquery answers with. -/
inductive SubqueryKind where
  /-- A selected value. -/
  | scalar
  /-- Whether there is a row, as a truth value. -/
  | existence
  /-- Whether there is a row, as 1 or 0. -/
  | flag
deriving DecidableEq

/-- The value of a compiler directive. -/
inductive Directive where
  | flag (value : Bool)
  | text (value : String)
deriving DecidableEq

/-- The slice of the result that is wanted. -/
structure Window where
  offset : UInt64
  size : UInt64
deriving DecidableEq

/-- One sort key. -/
structure SortItem where
  expression : NodeId
  descending : Bool
deriving DecidableEq

/-- A scope: the ranges it declares and what it retrieves from them. -/
structure Retrieve where
  ranges : List NodeId
  /-- What is retrieved, in order. -/
  values : List NodeId
  /-- The filter over the joined ranges. -/
  condition : Option NodeId
  sort : List SortItem
  window : Option Window
  unique : Bool
  /-- Bodies to put in the place of placeholders; they are not part of the query itself. -/
  templates : NameTable NodeId
  directives : NameTable Directive
deriving DecidableEq

/-- The scope without any clause. -/
def Retrieve.empty : Retrieve where
  ranges := []
  values := []
  condition := none
  sort := []
  window := none
  unique := false
  templates := .empty
  directives := .empty

/-- The expressions a scope computes for each row: its values, then its sort keys. -/
def Retrieve.outputs (r : Retrieve) : List NodeId := r.values ++ r.sort.map (·.expression)

/-- A named source of rows. -/
structure Range where
  name : String
  /-- The entity read from; a range over a nested query has none. -/
  entity : Option String
  /-- The predicate that joins the range to the others; a range without one is an anchor. -/
  join : Option NodeId
  /-- Whether a row of the other ranges without a partner in this range is dropped. -/
  required : Bool
  /-- Whether the range still takes part in the join. -/
  included : Bool
  /-- The query whose result the range reads. -/
  nested : Option NodeId
deriving DecidableEq

/-- An anchor starts the join: it has no join predicate. -/
def Range.isAnchor (r : Range) : Bool := r.join.isNone

/-- A property of a range, reached over a path of names. -/
structure Identifier where
  range : NodeId
  path : List String
deriving DecidableEq

/-- The last name of the path, empty if there is none. -/
def Identifier.field (i : Identifier) : String := i.path.getLast?.getD ""

/-- A direct identifier is a column of the range's own entity. -/
def Identifier.isDirect (i : Identifier) : Bool := i.path.length == 1

/-- A function over the rows for which the condition holds. -/
structure Aggregate where
  function : AggregateFn
  operand : NodeId
  condition : Option NodeId
deriving DecidableEq

/-- A choice between two values. -/
structure CaseWhen where
  condition : NodeId
  result : NodeId
  otherwise : Option NodeId
deriving DecidableEq

/-- A query inside an expression. -/
structure Subquery where
  kind : SubqueryKind
  ranges : List NodeId
  /-- The value a scalar subquery selects; without one it selects 1. -/
  expression : Option NodeId
  condition : Option NodeId
deriving DecidableEq

/-- A retrieved value under its name. -/
structure Projection where
  name : String
  expression : NodeId
  /-- Whether the caller asked for the value. -/
  visible : Bool
deriving DecidableEq

/-- One node of a query. -/
inductive Node where
  | retrieve (r : Retrieve)
  | range (r : Range)
  | identifier (i : Identifier)
  | binary (op : BinaryOp) (left right : NodeId)
  | not (operand : NodeId)
  /-- The test for NULL, or against it when negated. -/
  | nullCheck (operand : NodeId) (negated : Bool)
  /-- The demand that a range has a row. -/
  | rowExists (target : NodeId)
  | aggregate (a : Aggregate)
  | caseWhen (c : CaseWhen)
  | subquery (s : Subquery)
  | projection (p : Projection)
  | number (text : String)
  | string (text : String)
  | bool (value : Bool)
  | null
  | parameter (name : String)
  /-- A name that stands for a template of the root. -/
  | placeholder (name : String)
deriving DecidableEq

instance : Inhabited Node := ⟨.null⟩

/-- A disjunction. -/
def Node.isOr : Node → Bool
  | .binary .or _ _ => true
  | _ => false

/-- A conjunction. -/
def Node.isAnd : Node → Bool
  | .binary .and _ _ => true
  | _ => false

/-- An ANY aggregate. -/
def Node.isAny : Node → Bool
  | .aggregate a => a.function == .any
  | _ => false

/-- A scope. -/
def Node.isRetrieve : Node → Bool
  | .retrieve _ => true
  | _ => false

/-- The condition embedded in a scope, an aggregate or a subquery. -/
def Node.condition? : Node → Option NodeId
  | .retrieve r => r.condition
  | .aggregate a => a.condition
  | .subquery s => s.condition
  | _ => none

/-- The node with another embedded condition, if it can hold one. -/
def Node.withCondition? (condition : Option NodeId) : Node → Option Node
  | .retrieve r => some (.retrieve { r with condition })
  | .aggregate a => some (.aggregate { a with condition })
  | .subquery s => some (.subquery { s with condition })
  | _ => none

/-- The ranges declared by a scope or a subquery. -/
def Node.ranges? : Node → Option (List NodeId)
  | .retrieve r => some r.ranges
  | .subquery s => some s.ranges
  | _ => none

/-- The node with another list of declared ranges. -/
def Node.withRanges (ranges : List NodeId) : Node → Node
  | .retrieve r => .retrieve { r with ranges }
  | .subquery s => .subquery { s with ranges }
  | node => node

end RangeQuery
