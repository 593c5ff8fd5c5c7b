import RangeQuery.Graph.Copy
import RangeQuery.Proofs.Graph.Frames
import RangeQuery.Proofs.Graph.Walks

/-!
Rebinding. Identifiers from a root are pointed at other ranges; every slot and every recorded owner
stays.
-/

namespace RangeQuery

/-- The same node, reading the range that stands for its own. -/
def Node.renamed (names : Renaming) : Node → Node
  | .identifier i => .identifier { i with range := (names.get? i.range).getD i.range }
  | node => node

theorem Node.children_renamed (names : Renaming) (node : Node) :
    (node.renamed names).children = node.children := by
  cases node <;> rfl

theorem Unbound.renamed {α : Type} {view : Node → α} (unbound : Unbound view) (names : Renaming)
    (node : Node) : view (node.renamed names) = view node := by
  cases node with
  | identifier i => exact unbound.range i _
  | _ => rfl

namespace Graph

variable {g : Graph}

theorem fst_rebindOne (names : Renaming) (state : Graph × Nat) (id : NodeId) :
    (rebindOne names state id).1 = state.1.setNode id ((state.1.node id).renamed names) := by
  obtain ⟨g, changed⟩ := state
  cases node : g.node id with
  | identifier i =>
    cases found : names.get? i.range with
    | none =>
      simp only [rebindOne, node, found, Node.renamed, Option.getD_none]
      exact ((congrArg (g.setNode id) node.symm).trans (g.setNode_self id)).symm
    | some range =>
      by_cases same : range = i.range
      · subst same
        simp only [rebindOne, node, found, Node.renamed, Option.getD_some, if_true]
        exact ((congrArg (g.setNode id) node.symm).trans (g.setNode_self id)).symm
      · simp only [rebindOne, node, found, Node.renamed, Option.getD_some, if_neg same]
  | _ =>
    simp only [rebindOne, node, Node.renamed]
    exact ((congrArg (g.setNode id) node.symm).trans (g.setNode_self id)).symm

theorem fst_foldl_rebindOne (names : Renaming) (ids : List NodeId) (g : Graph) (changed : Nat) :
    (ids.foldl (rebindOne names) (g, changed)).1 =
      ids.foldl (fun g id => g.setNode id ((g.node id).renamed names)) g := by
  induction ids generalizing g changed with
  | nil => rfl
  | cons id rest ih =>
    rw [List.foldl_cons, List.foldl_cons, ← fst_rebindOne names (g, changed) id]
    exact ih _ _

/-- Rebinding writes the renamed node at each node from the root. -/
theorem fst_rebind (g : Graph) (root : NodeId) (names : Renaming) :
    (g.rebind root names).1 =
      (g.descendants root).foldl (fun g id => g.setNode id ((g.node id).renamed names)) g :=
  fst_foldl_rebindOne names _ g 0

section

variable (names : Renaming) (ids : List NodeId) (g : Graph)

theorem node_renameAll {ids : List NodeId} (nodup : ids.Nodup) (id : NodeId) :
    (ids.foldl (fun g id => g.setNode id ((g.node id).renamed names)) g).node id =
      if id ∈ ids then (g.node id).renamed names else g.node id := by
  induction ids generalizing g with
  | nil => simp
  | cons first rest ih =>
    rw [List.nodup_cons] at nodup
    rw [List.foldl_cons, ih _ nodup.2]
    by_cases same : first = id
    · subst same
      rw [if_neg nodup.1, if_pos (by simp)]
      by_cases has : g.Has first
      · exact node_setNode_self g has _
      · rw [node_of_not_has has, node_of_not_has]
        · rfl
        · rw [Has, size_setNode]
          exact has
    · simp only [node_setNode_of_ne g same, List.mem_cons, Ne.symm same, false_or]

theorem node_renameAll_of_not_mem {ids : List NodeId} {id : NodeId} (out : id ∉ ids) :
    (ids.foldl (fun g id => g.setNode id ((g.node id).renamed names)) g).node id = g.node id := by
  induction ids generalizing g with
  | nil => rfl
  | cons first rest ih =>
    rw [List.mem_cons, not_or] at out
    rw [List.foldl_cons, ih _ out.2, node_setNode_of_ne g (Ne.symm out.1)]

theorem renameAll_frame :
    let h := ids.foldl (fun g id => g.setNode id ((g.node id).renamed names)) g
    h.size = g.size ∧ (∀ id, h.parent id = g.parent id) ∧ (∀ id, h.children id = g.children id) ∧
      ∀ {α : Type} {view : Node → α}, Unbound view → Same view g h := by
  induction ids generalizing g with
  | nil => exact ⟨rfl, fun _ => rfl, fun _ => rfl, fun _ => .refl _ _⟩
  | cons first rest ih =>
    obtain ⟨size, parent, slots, same⟩ := ih (g.setNode first ((g.node first).renamed names))
    refine ⟨size.trans (size_setNode ..), fun id => (parent id).trans (parent_setNode ..),
      fun id => (slots id).trans ?_, fun unbound => ?_⟩
    · by_cases here : first = id
      · subst here
        by_cases has : g.Has first
        · rw [children, node_setNode_self g has, Node.children_renamed, children]
        · rw [children, children, node_of_not_has has, node_of_not_has]
          rw [Has, size_setNode]
          exact has
      · exact children_setNode_of_ne g here _
    · exact (Same.setNode (unbound.renamed names _)).trans (same unbound)

end

/-- Rebinding writes identifiers only. -/
theorem node_rebind_of_renamed (g : Graph) (root : NodeId) (names : Renaming) {id : NodeId}
    (same : (g.node id).renamed names = g.node id) :
    (g.rebind root names).1.node id = g.node id := by
  rw [fst_rebind]
  generalize g.descendants root = ids
  induction ids generalizing g with
  | nil => rfl
  | cons first rest ih =>
    have step : (g.setNode first ((g.node first).renamed names)).node id = g.node id := by
      by_cases here : first = id
      · subst here
        rw [same, setNode_self]
      · exact node_setNode_of_ne g here _
    rw [List.foldl_cons, ih _ (by rw [step, same]), step]

theorem node_rebind_of_isRange (g : Graph) (root : NodeId) (names : Renaming) {id : NodeId}
    (isRange : (g.node id).isRange = true) : (g.rebind root names).1.node id = g.node id := by
  obtain ⟨r, node⟩ := Node.exists_of_isRange isRange
  exact g.node_rebind_of_renamed root names (by rw [node]; rfl)

theorem Relabels.rebind (g : Graph) (root : NodeId) (names : Renaming) :
    Relabels g (g.rebind root names).1 := by
  rw [fst_rebind]
  obtain ⟨size, parent, children, same⟩ := renameAll_frame names (g.descendants root) g
  refine ⟨size, children, parent, fun id => ?_⟩
  by_cases has : g.Has id
  · exact (same Node.formal_opensScope.toUnbound).node has
  · rw [node_of_not_has has, node_of_not_has]
    rwa [Has, size]

/-! ## From a well-linked root -/

theorem descendants_eq (g : Graph) (root : NodeId) :
    g.descendants root = g.preorder (fun _ => true) g.size root := by
  rw [descendants, walk_list (fun _ => true) (fun _ => true) (by simp)]
  simp

variable {root : NodeId}

theorem Linked.mem_descendants (l : g.Linked root) {start id : NodeId}
    (above : g.Below root start) : id ∈ g.descendants start ↔ g.Below start id := by
  rw [descendants_eq, l.mem_preorder above]
  simp [Below]

theorem Linked.nodup_descendants (l : g.Linked root) {start : NodeId}
    (above : g.Below root start) : (g.descendants start).Nodup := by
  rw [descendants_eq]
  exact l.nodup_preorder _ _ above

/-- Below a well-linked node, rebinding renames exactly what is reached from the start. -/
theorem Linked.node_rebind (l : g.Linked root) {start : NodeId} (above : g.Below root start)
    (names : Renaming) (id : NodeId) [Decidable (g.Below start id)] :
    (g.rebind start names).1.node id =
      if g.Below start id then (g.node id).renamed names else g.node id := by
  rw [fst_rebind, node_renameAll names g (l.nodup_descendants above)]
  simp only [l.mem_descendants above]

end Graph

open RangeQuery.Graph

theorem Unbound.rebind {α : Type} {view : Node → α} (unbound : Unbound view) (g : Graph)
    (root : NodeId) (names : Renaming) : Same view g (g.rebind root names).1 := by
  rw [fst_rebind]
  exact (renameAll_frame names _ g).2.2.2 unbound

end RangeQuery
