import RangeQuery.Graph.Basic

/-!
Walks over a graph. A walk keeps the nodes it has still to meet on a stack, each with the number
of levels that may be opened below it: no path of distinct nodes is longer than the graph, so a
walk that starts with the size of the graph opens every level of a graph without circles. A walk
opens a node only when it comes to it, so one that ends early or skips a part costs nothing there.
-/

namespace RangeQuery

/-- What a visitor asks for after it has seen a node. -/
inductive Visit where
  /-- Go on with the children. -/
  | descend
  /-- Go on without the children. -/
  | skip
  /-- End the walk. -/
  | stop
deriving DecidableEq

/-- The sum of some counts. -/
def total : List Nat → Nat
  | [] => 0
  | count :: rest => count + total rest

theorem total_append (front rest : List Nat) : total (front ++ rest) = total front + total rest := by
  induction front with
  | nil => simp [total]
  | cons count front ih =>
    simp only [List.cons_append, total, ih]
    omega

namespace Graph

variable {σ : Type}

/-- How many nodes a walk over some levels meets at most; a shared node counts once per way. -/
def reach (g : Graph) : Nat → NodeId → Nat
  | 0, _ => 1
  | depth + 1, id => 1 + total ((g.children id).map (g.reach depth))

/-- The children of a node as entries of the stack, none below the last level. -/
def opened (g : Graph) : Nat → NodeId → List (Nat × NodeId)
  | 0, _ => []
  | depth + 1, id => (g.children id).map fun child => (depth, child)

/-- How many nodes a walk has still to meet at most; it bounds the walk and is never computed. -/
def pending (g : Graph) (stack : List (Nat × NodeId)) : Nat :=
  total (stack.map fun entry => g.reach entry.1 entry.2)

theorem pending_cons (g : Graph) (depth : Nat) (id : NodeId) (rest : List (Nat × NodeId)) :
    g.pending ((depth, id) :: rest) = g.reach depth id + g.pending rest := rfl

theorem pending_append (g : Graph) (front rest : List (Nat × NodeId)) :
    g.pending (front ++ rest) = g.pending front + g.pending rest := by
  simp only [pending, List.map_append, total_append]

/-- Opening a node leaves one node less to meet. -/
theorem pending_opened (g : Graph) (depth : Nat) (id : NodeId) :
    g.pending (g.opened depth id) + 1 = g.reach depth id := by
  cases depth with
  | zero => rfl
  | succ depth =>
    simp only [pending, opened, reach, List.map_map, Function.comp_def]
    exact Nat.add_comm _ _

/-- Visit the entries of the stack in order, the children of a node before what was below it. -/
@[semireducible, specialize] def drain (g : Graph) (visit : σ → NodeId → Visit × σ)
    (stack : List (Nat × NodeId)) (state : σ) : Option NodeId × σ :=
  match stack with
  | [] => (none, state)
  | (depth, id) :: rest =>
    match visit state id with
    | (.stop, state) => (some id, state)
    | (.skip, state) => g.drain visit rest state
    | (.descend, state) => g.drain visit (g.opened depth id ++ rest) state
termination_by g.pending stack
decreasing_by
  all_goals
    have step := g.pending_opened depth id
    simp only [pending_cons, pending_append]
    omega

/-- Show the nodes from a root to a visitor with a state, a node before its children and these in
slot order; the answer is the node at which the visitor ended the walk, and the last state. -/
@[inline] def walk (g : Graph) (root : NodeId) (visit : σ → NodeId → Visit × σ) (state : σ) :
    Option NodeId × σ :=
  g.drain visit [(g.size, root)] state

/-- The first node from a root of a kind. -/
def find? (g : Graph) (root : NodeId) (p : Node → Bool) : Option NodeId :=
  (g.walk root (fun _ id => (if p (g.node id) then .stop else .descend, ())) ()).1

/-- Whether there is a node of a kind at a root or below. -/
def contains (g : Graph) (root : NodeId) (p : Node → Bool) : Bool := (g.find? root p).isSome

/-- The root and all below it, a node before its children. -/
def descendants (g : Graph) (root : NodeId) : List NodeId :=
  (g.walk root (fun out id => (.descend, id :: out)) []).2.reverse

/-- An entry of the stack of a walk that lists a node after its children. -/
inductive Task where
  | enter (depth : Nat) (id : NodeId)
  | leave (id : NodeId)

/-- How many entries and exits a task stands for at most. -/
def Task.weight (g : Graph) : Task → Nat
  | .enter depth id => 2 * g.reach depth id
  | .leave _ => 1

/-- The tasks to enter the entries of a stack. -/
def enterAll (stack : List (Nat × NodeId)) : List Task :=
  stack.map fun entry => .enter entry.1 entry.2

theorem weight_enterAll (g : Graph) (stack : List (Nat × NodeId)) :
    total ((enterAll stack).map (Task.weight g)) = 2 * g.pending stack := by
  induction stack with
  | nil => rfl
  | cons entry rest ih =>
    have first : g.pending (entry :: rest) = g.reach entry.1 entry.2 + g.pending rest :=
      g.pending_cons entry.1 entry.2 rest
    simp only [enterAll, List.map_cons, total, Task.weight] at ih ⊢
    omega

/-- List the nodes to leave, opening the nodes to enter; the latest comes first. -/
@[semireducible] def drainTasks (g : Graph) (tasks : List Task) (out : List NodeId) :
    List NodeId :=
  match tasks with
  | [] => out
  | .leave id :: rest => g.drainTasks rest (id :: out)
  | .enter depth id :: rest =>
    g.drainTasks (enterAll (g.opened depth id) ++ .leave id :: rest) out
termination_by total (tasks.map (Task.weight g))
decreasing_by
  · simp [total, Task.weight]
  · have step := g.pending_opened depth id
    have inner := g.weight_enterAll (g.opened depth id)
    simp only [List.map_append, List.map_cons, total_append, total, Task.weight]
    omega

/-- The root and all below it, a node after its children. -/
def postOrder (g : Graph) (root : NodeId) : List NodeId :=
  (g.drainTasks [.enter g.size root] []).reverse

/-- The first node of a kind on the way up, as far as a number of nodes. -/
def climb (g : Graph) (p : Node → Bool) : Nat → NodeId → Option NodeId
  | 0, _ => none
  | steps + 1, id =>
    if p (g.node id) then some id
    else match g.parent id with
      | some owner => g.climb p steps owner
      | none => none

/-- The nearest node of a kind among a node and its recorded owners. -/
def ancestorWhere (g : Graph) (id : NodeId) (p : Node → Bool) : Option NodeId :=
  g.climb p g.size id

/-! ## References -/

/-- The identifiers from a root, in order; the inside of a subquery below it counts on demand. -/
def identifiersUnder (g : Graph) (root : NodeId) (enterSubqueries : Bool) : List NodeId :=
  (g.walk root (fun out id =>
    match g.node id with
    | .identifier _ => (.skip, id :: out)
    | .subquery _ => (if enterSubqueries || id == root then .descend else .skip, out)
    | _ => (.descend, out)) []).2.reverse

/-- The ranges that identifiers are bound to. -/
def rangesOf (g : Graph) (identifiers : List NodeId) : List NodeId :=
  identifiers.filterMap fun id => (g.identifier? id).map (·.range)

/-- The distinct ranges that the identifiers from a root read, subqueries included. -/
def referencedRanges (g : Graph) (root : NodeId) : List NodeId :=
  (g.rangesOf (g.identifiersUnder root true)).eraseDups

/-- The distinct names of the ranges read from a root, in order. -/
def referencedNames (g : Graph) (root : NodeId) : List String :=
  sortedNames ((g.referencedRanges root).map g.rangeName)

end Graph

end RangeQuery
