import RangeQuery.Proofs.Graph.PlacedCopies

/-!
Copies are apart from their templates. Whatever is copied, and however often its nodes are shared,
each node of the copy is made for one slot or one template, so no part of a template of the copy
hangs below its root.
-/

namespace RangeQuery

namespace Node

variable (node : Node) {kids bodies : List NodeId}

/-- The slots of a copy are the copies of the children. -/
theorem children_filled (length : kids.length = node.children.length) (bodies : List NodeId) :
    ((node.withChildren kids).withTemplateBodies bodies).children = kids := by
  rw [children_withTemplateBodies, children_withChildren _ length]

/-- The templates of a copy are the copies of the templates. -/
theorem templateBodies_filled (kids : List NodeId)
    (length : bodies.length = node.templateBodies.length) :
    ((node.withChildren kids).withTemplateBodies bodies).templateBodies = bodies := by
  rw [templateBodies_withTemplateBodies]
  rw [length, formal_templateBodies.children]

end Node

namespace Graph

variable {g h k : Graph} {root id : NodeId} {names : Renaming}

theorem held_add {node : Node} (has : g.Has id) : (g.add node).1.held id = g.held id := by
  rw [held, held, children, children, node_add has]

/-- A new node adds nothing within the old ones. -/
theorem within_add_iff {node : Node} (whole : g.Whole root) :
    (g.add node).1.Within root id ↔ g.Within root id := by
  constructor <;> intro within
  · induction within with
    | here => exact .here
    | down _ mem ih => exact ih.down (held_add (whole _ ih) ▸ mem)
  · exact within.along fun owner has => held_add has

/-- What is within a new node is the node, or within what it holds. -/
theorem within_add_next {node : Node} {trees : List NodeId}
    (holds : node.children ++ node.templateBodies = trees) (whole : ∀ tree ∈ trees, g.Whole tree)
    (within : (g.add node).1.Within g.next id) :
    id = g.next ∨ ∃ tree ∈ trees, g.Within tree id := by
  induction within with
  | here => exact .inl rfl
  | down _ mem ih =>
    rcases ih with rfl | ⟨tree, among, above⟩
    · rw [held, children, node_add_next, holds] at mem
      exact .inr ⟨_, mem, .here⟩
    · rw [held_add (whole tree among _ above)] at mem
      exact .inr ⟨tree, among, above.down mem⟩

/-- Rebinding leaves what a node holds. -/
theorem held_rebind (g : Graph) (root : NodeId) (names : Renaming) (id : NodeId) :
    (g.rebind root names).1.held id = g.held id := by
  have relabels := Relabels.rebind g root names
  by_cases has : g.Has id
  · rw [held, held, relabels.children,
      (Node.formal_templateBodies.toUnbound.rebind g root names).node has]
  · rw [held, held, relabels.children, node_of_not_has has,
      node_of_not_has fun has' => has (relabels.has.mp has')]

theorem within_rebind {start : NodeId} :
    (g.rebind start names).1.Within root id ↔ g.Within root id :=
  ⟨fun within => within.along fun owner _ => (held_rebind g start names owner).symm,
    fun within => within.along fun owner _ => held_rebind g start names owner⟩

theorem Clear.rebind (c : g.Clear root) (start : NodeId) (names : Renaming) :
    (g.rebind start names).1.Clear root where
  linked := (Relabels.rebind g start names).linked c.linked
  whole id within := (Relabels.rebind g start names).has.mpr (c.whole id (within_rebind.mp within))
  apart {owner body id} within mem inside below := by
    have above := within_rebind.mp within
    rw [(Node.formal_templateBodies.toUnbound.rebind g start names).node (c.whole _ above)] at mem
    exact c.apart above mem (within_rebind.mp inside)
      ((Relabels.rebind g start names).below.mp below)

/-! ## Trees side by side -/

/-- A graph grew beside what it held by trees of new nodes, of which none shares anything with
another one or with a template. -/
structure Grove (g h : Graph) (trees : List NodeId) : Prop where
  beside : Extends g h
  clear : ∀ tree ∈ trees, h.Clear tree
  new : ∀ tree ∈ trees, ∀ {id}, h.Within tree id → ¬ g.Has id
  nodup : trees.Nodup
  apart : ∀ {a b id}, a ∈ trees → b ∈ trees → h.Within a id → h.Within b id → a = b

namespace Grove

theorem nil (g : Graph) : Grove g g [] := ⟨.refl g, by simp, by simp, .nil, by simp⟩

theorem whole {trees : List NodeId} (c : Grove g h trees) {tree : NodeId} (mem : tree ∈ trees) :
    h.Whole tree := (c.clear tree mem).whole

theorem forest {trees : List NodeId} (c : Grove g h trees) : Forest g h trees where
  beside := c.beside
  linked tree mem := (c.clear tree mem).linked
  fresh tree mem _ below := c.new tree mem below.within
  nodup := c.nodup

/-- More trees after the others. -/
theorem append {front back : List NodeId} (c : Grove g h front) (d : Grove h k back) :
    Grove g k (front ++ back) := by
  have earlier {tree id : NodeId} (mem : tree ∈ front) : k.Within tree id ↔ h.Within tree id :=
    d.beside.within_iff (c.whole mem)
  -- What is within the first trees had a slot before the others were made.
  have disjoint {a b id : NodeId} (ma : a ∈ front) (mb : b ∈ back) (within : k.Within a id) :
      ¬ k.Within b id := fun within' => d.new b mb within' (c.whole ma id ((earlier ma).mp within))
  refine ⟨c.beside.trans d.beside, ?_, ?_, (c.forest.append d.forest).nodup, ?_⟩
  · intro tree mem
    rcases List.mem_append.mp mem with mem | mem
    · exact (c.clear tree mem).grow d.beside
    · exact d.clear tree mem
  · intro tree mem id within had
    rcases List.mem_append.mp mem with mem | mem
    · exact c.new tree mem ((earlier mem).mp within) had
    · exact d.new tree mem within (c.beside.has had)
  · intro a b id ma mb within within'
    rcases List.mem_append.mp ma with ma | ma <;> rcases List.mem_append.mp mb with mb | mb
    · exact c.apart ma mb ((earlier ma).mp within) ((earlier mb).mp within')
    · exact absurd within' (disjoint ma mb within)
    · exact absurd within (disjoint mb ma within')
    · exact d.apart ma mb within within'

/-- A new node takes over all trees, the first ones as children and the others as templates. -/
theorem add {front back : List NodeId} {node : Node} (c : Grove g h (front ++ back))
    (children : node.children = front) (bodies : node.templateBodies = back) :
    Grove g (h.add node).1 [h.next] := by
  have holds : node.children ++ node.templateBodies = front ++ back := by rw [children, bodies]
  have forest := c.forest.add children
  have inside {id : NodeId} : (h.add node).1.Within h.next id →
      id = h.next ∨ ∃ tree ∈ front ++ back, h.Within tree id :=
    within_add_next holds fun tree mem => c.whole mem
  have below {id : NodeId} (below : (h.add node).1.Below h.next id) :
      id = h.next ∨ ∃ child ∈ front, h.Below child id := by
    rw [← children]
    refine below_add_next (fun child slot => ?_) below
    exact (c.whole (List.mem_append_left back (children ▸ slot))).grounded
  refine ⟨forest.beside, ?_, ?_, by simp, ?_⟩
  · intro tree mem
    obtain rfl := List.mem_singleton.mp mem
    refine ⟨forest.linked _ (by simp), fun id within => ?_, ?_⟩
    · rcases inside within with rfl | ⟨tree, mem, within⟩
      · exact h.has_add_next node
      · exact has_add (c.whole mem id within) node
    · intro owner body id above held within reached
      -- A template of the new node is one of the last trees, any other part of one of the trees.
      have part : (body ∈ back ∧ h.Within body id) ∨ ∃ tree ∈ front ++ back, h.Within tree id ∧
          ¬ h.Below tree id := by
        rcases inside above with rfl | ⟨tree, mem, above⟩
        · rw [node_add_next, bodies] at held
          exact .inl ⟨held, (within_add_iff (c.whole (List.mem_append_right front held))).mp within⟩
        · rw [node_add (c.whole mem _ above)] at held
          have lower : h.Within tree body := above.down (List.mem_append_right _ held)
          have within := (within_add_iff ((c.whole mem).within lower)).mp within
          exact .inr ⟨tree, mem, lower.trans within, (c.clear tree mem).apart above held within⟩
      rcases part with ⟨last, within⟩ | ⟨tree, mem, within, apart⟩
      · have last' := List.mem_append_right front last
        rcases below reached with rfl | ⟨child, first, reached⟩
        · exact h.not_has_next (c.whole last' _ within)
        · have same := c.apart (List.mem_append_left back first) last' reached.within within
          exact (List.nodup_append.mp c.nodup).2.2 child first body last same
      · rcases below reached with rfl | ⟨child, first, reached⟩
        · exact h.not_has_next (c.whole mem _ within)
        · obtain rfl := c.apart (List.mem_append_left back first) mem reached.within within
          exact apart reached
  · intro tree mem id within had
    obtain rfl := List.mem_singleton.mp mem
    rcases inside within with rfl | ⟨tree, mem, within⟩
    · exact h.not_has_next (c.beside.has had)
    · exact c.new tree mem within had
  · intro a b id ma mb _ _
    rw [List.mem_singleton.mp ma, List.mem_singleton.mp mb]

end Grove

theorem grove_copyEach {copy : Graph → Renaming → NodeId → Graph × Renaming × NodeId}
    (one : ∀ g names id, Grove g (copy g names id).1 [(copy g names id).2.2]) (g : Graph)
    (names : Renaming) (ids : List NodeId) :
    Grove g (copyEach copy g names ids).1 (copyEach copy g names ids).2.2 := by
  induction ids generalizing g names with
  | nil => exact .nil g
  | cons id rest ih => exact (one g names id).append (ih _ _)

theorem grove_copyLevels (depth : Nat) (g : Graph) (names : Renaming) (id : NodeId) :
    Grove g (copyLevels depth g names id).1 [(copyLevels depth g names id).2.2] := by
  induction depth generalizing g names id with
  | zero => exact Grove.add (Grove.nil g) (rfl : Node.null.children = []) rfl
  | succ depth ih =>
    have children := grove_copyEach ih g names (g.node id).children
    have bodies := grove_copyEach ih (copyEach (copyLevels depth) g names (g.node id).children).1
      (copyEach (copyLevels depth) g names (g.node id).children).2.1 (g.node id).templateBodies
    exact (children.append bodies).add (Node.children_filled _ (length_copyEach ..) _)
      (Node.templateBodies_filled _ _ (length_copyEach ..))

/-- A copy is apart from its templates, and all within it is new. -/
theorem grove_copyWith (g : Graph) (root : NodeId) (names : Renaming) :
    Grove g (g.copyWith root names).1 [(g.copyWith root names).2] := by
  have grove := grove_copyLevels g.size g names root
  have forest := g.forest_copyWith root names
  refine ⟨forest.beside, ?_, ?_, by simp, ?_⟩
  · intro tree mem
    obtain rfl := List.mem_singleton.mp mem
    exact (grove.clear _ (List.mem_singleton_self _)).rebind _ _
  · intro tree mem id within
    obtain rfl := List.mem_singleton.mp mem
    exact grove.new _ (List.mem_singleton_self _) (within_rebind.mp within)
  · intro a b id ma mb _ _
    rw [List.mem_singleton.mp ma, List.mem_singleton.mp mb]

end Graph

end RangeQuery
