import RangeQuery.Graph.Renaming
import RangeQuery.Graph.Walk

/-!
Copies of parts of a graph. A copy takes new slots only; the identifiers in it follow the ranges
that were copied with them, and others may be pointed elsewhere by a renaming.
-/

namespace RangeQuery

namespace Graph

/-- Point an identifier at the range that stands for its own, and count it if that is another. -/
def rebindOne (names : Renaming) (state : Graph × Nat) (id : NodeId) : Graph × Nat :=
  let (g, changed) := state
  match g.node id with
  | .identifier i =>
    match names.get? i.range with
    | some range =>
      if range = i.range then (g, changed)
      else (g.setNode id (.identifier { i with range }), changed + 1)
    | none => (g, changed)
  | _ => (g, changed)

/-- Point the identifiers from a root at the ranges that stand for theirs; answers how many moved. -/
def rebind (g : Graph) (root : NodeId) (names : Renaming) : Graph × Nat :=
  (g.descendants root).foldl (rebindOne names) (g, 0)

/-- Copy a list of nodes one after the other. -/
def copyEach (copy : Graph → Renaming → NodeId → Graph × Renaming × NodeId) :
    Graph → Renaming → List NodeId → Graph × Renaming × List NodeId
  | g, names, [] => (g, names, [])
  | g, names, id :: rest =>
    let (g, names, first) := copy g names id
    let (g, names, others) := copyEach copy g names rest
    (g, names, first :: others)

/-- Copy a node, its children and the templates it holds, as far as a number of levels; the
children come first, and each copied node is entered into the renaming. What lies deeper is cut
off: a NULL of its own stands there. With as many levels as the graph has slots that happens only
where slots and templates lead in a circle (`Founded.copyLevels_eq`), so that a copy would have no
end. -/
def copyLevels : Nat → Graph → Renaming → NodeId → Graph × Renaming × NodeId
  | 0, g, names, _ =>
    let (g, cut) := g.add .null
    (g, names, cut)
  | depth + 1, g, names, id =>
    let node := g.node id
    let (g, names, children) := copyEach (copyLevels depth) g names node.children
    let (g, names, bodies) := copyEach (copyLevels depth) g names node.templateBodies
    let (g, copy) := g.add ((node.withChildren children).withTemplateBodies bodies)
    (g, names.insert id copy, copy)

/-- An independent copy of a node and all below it. Identifiers in the copy follow copied ranges,
and else the given renaming. -/
def copyWith (g : Graph) (root : NodeId) (names : Renaming) : Graph × NodeId :=
  let (g, names, copy) := copyLevels g.size g names root
  ((g.rebind copy names).1, copy)

/-- An independent copy of a node and all below it. -/
def copy (g : Graph) (root : NodeId) : Graph × NodeId := g.copyWith root .empty

end Graph

end RangeQuery
