import RangeQuery.Node.Children

/-!
Queries as graphs. A graph is a row of slots, each with a node and the node it hangs below. Slots
are only ever added: a node that was swapped out keeps its slot and is no longer reached. The
setters of this module keep the recorded parents in step with the children.
-/

namespace RangeQuery

/-- A node and the node that owns it. -/
structure Slot where
  node : Node
  parent : Option NodeId
deriving DecidableEq, Inhabited

/-- The nodes of a query, each behind its handle. -/
structure Graph where
  slots : Array Slot
deriving DecidableEq, Inhabited

namespace Graph

/-- The graph without nodes. -/
def empty : Graph := ⟨#[]⟩

/-- The number of slots. -/
def size (g : Graph) : Nat := g.slots.size

/-- The node behind a handle; a handle of no slot reads as NULL. -/
def node (g : Graph) (id : NodeId) : Node :=
  match g.slots[id.index]? with
  | some slot => slot.node
  | none => .null

/-- The recorded owner of a node. -/
def parent (g : Graph) (id : NodeId) : Option NodeId :=
  match g.slots[id.index]? with
  | some slot => slot.parent
  | none => none

/-- The handles a node owns. -/
def children (g : Graph) (id : NodeId) : List NodeId := (g.node id).children

/-- Write a node into a slot, whose parent stays. -/
def setNode (g : Graph) (id : NodeId) (node : Node) : Graph :=
  ⟨g.slots.modify id.index fun slot => { slot with node }⟩

/-- Record the owner of a node. -/
def setParent (g : Graph) (id : NodeId) (parent : Option NodeId) : Graph :=
  ⟨g.slots.modify id.index fun slot => { slot with parent }⟩

/-- Record one owner for several nodes. -/
def adopt (g : Graph) (owner : NodeId) (ids : List NodeId) : Graph :=
  ids.foldl (fun g id => g.setParent id (some owner)) g

/-- Forget the owner of nodes that still record this one; the others keep theirs. -/
def release (g : Graph) (owner : NodeId) (ids : List NodeId) : Graph :=
  ids.foldl (fun g id => if g.parent id = some owner then g.setParent id none else g) g

/-- Put a node into a new slot, without a parent, and let it adopt its children. -/
def add (g : Graph) (node : Node) : Graph × NodeId :=
  let id : NodeId := ⟨g.size⟩
  (adopt ⟨g.slots.push { node, parent := none }⟩ id node.children, id)

/-! ## Views by kind -/

/-- The range behind a handle. -/
def range? (g : Graph) (id : NodeId) : Option Range :=
  match g.node id with
  | .range r => some r
  | _ => none

/-- The name of a range, empty for any other node. -/
def rangeName (g : Graph) (id : NodeId) : String :=
  match g.node id with
  | .range r => r.name
  | _ => ""

/-- The entity of a range. -/
def entity? (g : Graph) (id : NodeId) : Option String := (g.range? id).bind (·.entity)

/-- The join predicate of a range. -/
def join? (g : Graph) (id : NodeId) : Option NodeId := (g.range? id).bind (·.join)

/-- The identifier behind a handle. -/
def identifier? (g : Graph) (id : NodeId) : Option Identifier :=
  match g.node id with
  | .identifier i => some i
  | _ => none

/-- The aggregate behind a handle. -/
def aggregate? (g : Graph) (id : NodeId) : Option Aggregate :=
  match g.node id with
  | .aggregate a => some a
  | _ => none

/-- The subquery behind a handle. -/
def subquery? (g : Graph) (id : NodeId) : Option Subquery :=
  match g.node id with
  | .subquery s => some s
  | _ => none

/-- The scope behind a handle. -/
def retrieve? (g : Graph) (id : NodeId) : Option Retrieve :=
  match g.node id with
  | .retrieve r => some r
  | _ => none

/-- The clauses of a scope; any other node has none. -/
def scope (g : Graph) (id : NodeId) : Retrieve :=
  match g.node id with
  | .retrieve r => r
  | _ => .empty

/-- The condition embedded in a node. -/
def condition? (g : Graph) (id : NodeId) : Option NodeId := (g.node id).condition?

/-! ## Setters -/

/-- Change the label of a range: its name, entity or flags, not its slots. -/
def updateRange (g : Graph) (id : NodeId) (change : Range → Range) : Graph :=
  match g.node id with
  | .range r => g.setNode id (.range (change r))
  | _ => g

/-- Set whether a range must have a partner row. -/
def setRequired (g : Graph) (id : NodeId) (required : Bool) : Graph :=
  g.updateRange id fun r => { r with required }

/-- Take a range out of the join; it stays in the list of its scope. -/
def exclude (g : Graph) (id : NodeId) : Graph :=
  g.updateRange id fun r => { r with included := false }

/-- Exchange what hangs in one slot: the old node is released and the new one adopted. -/
def relink (g : Graph) (owner : NodeId) (old new : Option NodeId) : Graph :=
  if old = new then g else (g.release owner old.toList).adopt owner new.toList

/-- Set the join predicate of a range. -/
def setJoin (g : Graph) (id : NodeId) (join : Option NodeId) : Graph :=
  match g.node id with
  | .range r => (g.setNode id (.range { r with join })).relink id r.join join
  | _ => g

/-- Set the condition embedded in a scope, an aggregate or a subquery. -/
def setCondition (g : Graph) (id : NodeId) (condition : Option NodeId) : Graph :=
  match (g.node id).withCondition? condition with
  | some node => (g.setNode id node).relink id (g.condition? id) condition
  | none => g

/-- Set the declared ranges of a scope or a subquery. -/
def setRanges (g : Graph) (id : NodeId) (ranges : List NodeId) : Graph :=
  match (g.node id).ranges? with
  | some old =>
    ((g.setNode id ((g.node id).withRanges ranges)).release id
      (old.filter fun range => !ranges.contains range)).adopt id ranges
  | none => g

/-- Set the window of a scope. -/
def setWindow (g : Graph) (id : NodeId) (window : Option Window) : Graph :=
  match g.node id with
  | .retrieve r => g.setNode id (.retrieve { r with window })
  | _ => g

/-- Swap a child for another node in the first slot that holds it; answers whether one did. -/
def replaceChild (g : Graph) (owner old new : NodeId) : Graph × Bool :=
  let node := g.node owner
  if node.children.contains old then
    let swapped := g.setNode owner (node.withChildren (node.children.replace old new))
    ((swapped.release owner [old]).setParent new (some owner), true)
  else (g, false)

/-- Swap a node for another below its recorded owner; answers whether that owner held it. -/
def replace (g : Graph) (old new : NodeId) : Graph × Bool :=
  match g.parent old with
  | some owner => g.replaceChild owner old new
  | none => (g, false)

/-! ## New nodes -/

/-- Add a property of a range. -/
def addIdentifier (g : Graph) (range : NodeId) (path : List String) : Graph × NodeId :=
  g.add (.identifier { range, path })

/-- Join two operands. -/
def addBinary (g : Graph) (op : BinaryOp) (left right : NodeId) : Graph × NodeId :=
  g.add (.binary op left right)

/-- The conjunction of predicates from left to right, if there are any. -/
def conjoinOnto (g : Graph) (first : NodeId) : List NodeId → Graph × NodeId
  | [] => (g, first)
  | next :: rest =>
    let (g, both) := g.addBinary .and first next
    g.conjoinOnto both rest

/-- The conjunction of a list of predicates, none for the empty list. -/
def conjoin (g : Graph) : List NodeId → Graph × Option NodeId
  | [] => (g, none)
  | first :: rest =>
    let (g, all) := g.conjoinOnto first rest
    (g, some all)

/-- A predicate added to a condition that may be missing. -/
def conjoinWith (g : Graph) (condition : Option NodeId) (extra : NodeId) : Graph × NodeId :=
  match condition with
  | some existing => g.addBinary .and existing extra
  | none => (g, extra)

/-! ## Reading what was written -/

theorem size_setNode (g : Graph) (id : NodeId) (node : Node) :
    (g.setNode id node).size = g.size := by
  simp [setNode, size]

theorem size_setParent (g : Graph) (id : NodeId) (parent : Option NodeId) :
    (g.setParent id parent).size = g.size := by
  simp [setParent, size]

/-- Recording an owner leaves every node as it is. -/
theorem node_setParent (g : Graph) (id other : NodeId) (parent : Option NodeId) :
    (g.setParent id parent).node other = g.node other := by
  simp only [setParent, node, Array.getElem?_modify]
  by_cases same : id.index = other.index
  · rw [if_pos same]; cases g.slots[other.index]? <;> rfl
  · rw [if_neg same]

/-- Writing a node leaves the nodes behind the other handles. -/
theorem node_setNode_of_ne (g : Graph) {id other : NodeId} (ne : id ≠ other) (node : Node) :
    (g.setNode id node).node other = g.node other := by
  have apart : id.index ≠ other.index := fun same => ne (by cases id; cases other; simp_all)
  simp only [setNode, Graph.node, Array.getElem?_modify, if_neg apart]

/-- A written node is read back, as long as its slot exists. -/
theorem node_setNode_self (g : Graph) {id : NodeId} (bound : id.index < g.size) (node : Node) :
    (g.setNode id node).node id = node := by
  have inside : id.index < g.slots.size := bound
  simp only [setNode, Graph.node, Array.getElem?_modify, if_pos]
  rw [Array.getElem?_eq_getElem inside]
  rfl

/-- Writing a node leaves every recorded owner. -/
theorem parent_setNode (g : Graph) (id other : NodeId) (node : Node) :
    (g.setNode id node).parent other = g.parent other := by
  simp only [setNode, parent, Array.getElem?_modify]
  by_cases same : id.index = other.index
  · rw [if_pos same]; cases g.slots[other.index]? <;> rfl
  · rw [if_neg same]

theorem node_adopt (g : Graph) (owner other : NodeId) (ids : List NodeId) :
    (g.adopt owner ids).node other = g.node other := by
  induction ids generalizing g with
  | nil => rfl
  | cons id rest ih =>
    simp only [adopt, List.foldl_cons] at ih ⊢
    rw [ih, node_setParent]

theorem node_release (g : Graph) (owner other : NodeId) (ids : List NodeId) :
    (g.release owner ids).node other = g.node other := by
  induction ids generalizing g with
  | nil => rfl
  | cons id rest ih =>
    simp only [release, List.foldl_cons] at ih ⊢
    rw [ih]
    split
    · rw [node_setParent]
    · rfl

end Graph

end RangeQuery
