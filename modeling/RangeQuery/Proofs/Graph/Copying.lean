import RangeQuery.Proofs.Graph.Rebinding

/-!
Copies. A copy is a well-linked tree of new nodes only: the old nodes and their owners stay as
they were. The renaming that a copy builds up leads from the old nodes to new ones of the same
label.
-/

namespace RangeQuery

theorem Node.children_withTemplateBodies (node : Node) (bodies : List NodeId) :
    (node.withTemplateBodies bodies).children = node.children := by
  cases node <;> rfl

theorem Node.label_withTemplateBodies (node : Node) (bodies : List NodeId) :
    (node.withTemplateBodies bodies).label = node.label := by
  cases node <;> rfl

namespace Graph

variable {g h k : Graph}

namespace Extends

theorem children (e : Extends g h) {id : NodeId} (has : g.Has id) :
    h.children id = g.children id := by
  rw [Graph.children, e.node has, Graph.children]

theorem trail_iff (e : Extends g h) {root id : NodeId} {trail : List NodeId}
    (grounded : g.Grounded root) : h.Trail root trail id ↔ g.Trail root trail id := by
  constructor
  · intro way
    induction way with
    | here => exact .here
    | down _ slot ih => exact ih.down (e.children (grounded _ ⟨_, ih⟩) ▸ slot)
  · intro way
    induction way with
    | here => exact .here
    | down way slot ih => exact ih.down (e.children (grounded _ ⟨_, way⟩) ▸ slot)

theorem below_iff (e : Extends g h) {root id : NodeId} (grounded : g.Grounded root) :
    h.Below root id ↔ g.Below root id :=
  exists_congr fun _ => e.trail_iff grounded

theorem grounded (e : Extends g h) {root : NodeId} (grounded : g.Grounded root) :
    h.Grounded root :=
  fun _ below => e.has (grounded _ ((e.below_iff grounded).mp below))

theorem linked (e : Extends g h) {root : NodeId} (l : g.Linked root) : h.Linked root := by
  have grounded : g.Grounded root := l.grounded (Below.refl g root)
  refine ⟨e.has l.has, (e.parent l.has).trans l.parent_root, ?_, ?_⟩
  · intro owner child below slot
    have above := (e.below_iff grounded).mp below
    rw [e.children (grounded _ above)] at slot
    rw [e.parent (grounded _ (above.child slot)), l.parent_child above slot]
  · intro owner below
    have above := (e.below_iff grounded).mp below
    rw [e.children (grounded _ above)]
    exact l.nodup above

end Extends

/-- What is reached from a new node. -/
theorem below_add_next {node : Node} (grounded : ∀ child ∈ node.children, g.Grounded child)
    {id : NodeId} (below : (g.add node).1.Below g.next id) :
    id = g.next ∨ ∃ child ∈ node.children, g.Below child id := by
  have new : (g.add node).1.children g.next = node.children := by rw [children, node_add_next]
  have old : ∀ {owner}, g.Has owner → (g.add node).1.children owner = g.children owner := by
    intro owner has
    rw [children, node_add has, children]
  refine below.induction (.inl rfl) fun owner child _ ih slot => ?_
  rcases ih with rfl | ⟨top, mem, above⟩
  · rw [new] at slot
    exact .inr ⟨child, slot, Below.refl g child⟩
  · rw [old (grounded top mem _ above)] at slot
    exact .inr ⟨top, mem, above.child slot⟩

/-- A zone stays one while the graph grows beside it. -/
theorem Extends.zone (e : Extends g h) {roots zone : Set NodeId} {loose : Set (NodeId × NodeId)}
    {level : NodeId → List NodeId} (z : g.Zone roots loose zone level) :
    h.Zone roots loose zone level :=
  z.relabel (fun _ mem => e.has (z.has mem)) (fun _ mem => e.children (z.has mem))
    (fun _ mem => by rw [e.node (z.has mem)]) fun _ mem => e.parent (z.has mem)

/-- A new node over the roots of well-linked trees is the root of one. -/
theorem linked_add {node : Node} (trees : ∀ child ∈ node.children, g.Linked child)
    (nodup : node.children.Nodup) : (g.add node).1.Linked g.next := by
  have grounded : ∀ child ∈ node.children, g.Grounded child := fun child slot =>
    (trees child slot).grounded (Below.refl g child)
  have new : (g.add node).1.children g.next = node.children := by rw [children, node_add_next]
  have old : ∀ {owner}, g.Has owner → (g.add node).1.children owner = g.children owner := by
    intro owner has
    rw [children, node_add has, children]
  have notOwn : g.next ∉ node.children := fun slot => g.not_has_next (trees _ slot).has
  refine ⟨g.has_add_next node, parent_add_next notOwn, ?_, ?_⟩
  · intro owner child below slot
    rcases below_add_next grounded below with rfl | ⟨top, mem, above⟩
    · rw [new] at slot
      exact parent_add_of_mem (trees child slot).has slot
    · rw [old (grounded top mem _ above)] at slot
      have recorded := (trees top mem).parent_child above slot
      rw [parent_add_of_not_mem (ne_next_of_has (grounded top mem _ (above.child slot))), recorded]
      intro taken
      rw [(trees child taken).parent_root] at recorded
      cases recorded
  · intro owner below
    rcases below_add_next grounded below with rfl | ⟨top, mem, above⟩
    · rw [new]
      exact nodup
    · rw [old (grounded top mem _ above)]
      exact (trees top mem).nodup above

/-! ## Copies of lists of nodes -/

/-- A renaming was built up while nodes were copied from one graph into another. -/
structure Renames (g : Graph) (names : Renaming) (h : Graph) (names' : Renaming) : Prop where
  new : ∀ {id copy}, names'.get? id = some copy → names.get? id = some copy ∨
    ¬ g.Has copy ∧ h.Has copy ∧ (g.Has id → (h.node copy).label = (g.node id).label)
  kept : ∀ {id}, (names.get? id).isSome → (names'.get? id).isSome

/-- A graph grew beside what it held by well-linked trees of new nodes. -/
structure Forest (g h : Graph) (trees : List NodeId) : Prop where
  beside : Extends g h
  linked : ∀ tree ∈ trees, h.Linked tree
  fresh : ∀ tree ∈ trees, ∀ {id}, h.Below tree id → ¬ g.Has id
  nodup : trees.Nodup

/-- Nodes were copied from one graph into another, and the copies are such trees. -/
structure Copying (g : Graph) (names : Renaming) (h : Graph) (names' : Renaming)
    (copies : List NodeId) : Prop extends Forest g h copies where
  renames : Renames g names h names'

variable {names names' names'' : Renaming}

theorem Renames.refl (g : Graph) (names : Renaming) : Renames g names g names :=
  ⟨.inl, id⟩

theorem Renames.trans (e : Extends g h) (f : Extends h k) (r : Renames g names h names')
    (s : Renames h names' k names'') : Renames g names k names'' where
  new {id copy} found := by
    rcases s.new found with before | ⟨new, has, label⟩
    · rcases r.new before with old | ⟨new, has, label⟩
      · exact .inl old
      · exact .inr ⟨new, f.has has, fun had => by rw [f.node has, label had]⟩
    · refine .inr ⟨fun had => new (e.has had), has, fun had => ?_⟩
      rw [label (e.has had), e.node had]
  kept found := s.kept (r.kept found)

namespace Forest

theorem nil (g : Graph) : Forest g g [] := ⟨.refl g, by simp, by simp, by simp⟩

/-- More trees after the others. -/
theorem append {front back : List NodeId} (c : Forest g h front) (d : Forest h k back) :
    Forest g k (front ++ back) where
  beside := c.beside.trans d.beside
  linked tree mem := by
    rcases List.mem_append.mp mem with mem | mem
    · exact d.beside.linked (c.linked tree mem)
    · exact d.linked tree mem
  fresh tree mem id below had := by
    rcases List.mem_append.mp mem with mem | mem
    · have l := c.linked tree mem
      exact c.fresh tree mem ((d.beside.below_iff (l.grounded (Below.refl h tree))).mp below) had
    · exact d.fresh tree mem below (c.beside.has had)
  nodup := by
    refine List.nodup_append.mpr ⟨c.nodup, d.nodup, ?_⟩
    rintro one mem other mem' rfl
    exact d.fresh one mem' (Below.refl k one) (c.linked one mem).has

/-- A new node takes over the first trees. -/
theorem add {front back : List NodeId} {node : Node} (c : Forest g h (front ++ back))
    (children : node.children = front) : Forest g (h.add node).1 [h.next] where
  beside := c.beside.add node fun child slot =>
    c.fresh child (by rw [children] at slot; simp [slot]) (Below.refl h child)
  linked tree mem := by
    rw [List.mem_singleton.mp mem]
    refine linked_add (fun child slot => c.linked child ?_) ?_
    · rw [children] at slot; simp [slot]
    · rw [children]; exact c.nodup.sublist (List.sublist_append_left front back)
  fresh tree mem other below had := by
    rw [List.mem_singleton.mp mem] at below
    have taken : ∀ child ∈ node.children, child ∈ front ++ back := by
      intro child slot
      rw [children] at slot; simp [slot]
    rcases below_add_next (fun child slot => (c.linked child (taken child slot)).grounded
      (Below.refl h child)) below with rfl | ⟨child, slot, below⟩
    · exact h.not_has_next (c.beside.has had)
    · exact c.fresh child (taken child slot) below had
  nodup := by simp

end Forest

namespace Copying

theorem nil (g : Graph) (names : Renaming) : Copying g names g names [] :=
  { Forest.nil g with renames := .refl g names }

/-- A list of copies after the others. -/
theorem append {front back : List NodeId} (c : Copying g names h names' front)
    (d : Copying h names' k names'' back) : Copying g names k names'' (front ++ back) :=
  { c.toForest.append d.toForest with
    renames := c.renames.trans c.beside d.beside d.renames }

theorem addUnnamed {front back : List NodeId} {node : Node}
    (c : Copying g names h names' (front ++ back)) (children : node.children = front) :
    Copying g names (h.add node).1 names' [h.next] := by
  refine { c.toForest.add children with renames := ⟨fun {other copy} found => ?_, c.renames.kept⟩ }
  rcases c.renames.new found with old | ⟨new, has, label⟩
  · exact .inl old
  · exact .inr ⟨new, has_add has node, fun had => by rw [node_add has, label had]⟩

/-- A new node takes over the first copies and is entered into the renaming. -/
theorem add {front back : List NodeId} {node : Node} {id : NodeId}
    (c : Copying g names h names' (front ++ back)) (children : node.children = front)
    (label : g.Has id → node.label = (g.node id).label) :
    Copying g names (h.add node).1 (names'.insert id h.next) [h.next] := by
  have unnamed := c.addUnnamed children
  refine { unnamed with renames := ⟨fun {other copy} found => ?_, fun {other} found => ?_⟩ }
  · by_cases same : id = other
    · subst same
      rw [Renaming.get?_insert_same] at found
      cases found
      refine .inr ⟨fun had => h.not_has_next (c.beside.has had), h.has_add_next node, ?_⟩
      intro had
      rw [node_add_next, label had]
    · rw [Renaming.get?_insert_other names' same] at found
      exact unnamed.renames.new found
  · by_cases same : id = other
    · subst same
      simp [Renaming.get?_insert_same]
    · rw [Renaming.get?_insert_other names' same]
      exact c.renames.kept found

end Copying

theorem length_copyEach (copy : Graph → Renaming → NodeId → Graph × Renaming × NodeId) (g : Graph)
    (names : Renaming) (ids : List NodeId) : (copyEach copy g names ids).2.2.length = ids.length := by
  induction ids generalizing g names with
  | nil => rfl
  | cons id rest ih => simp [copyEach, ih]

theorem copying_copyEach {copy : Graph → Renaming → NodeId → Graph × Renaming × NodeId}
    (one : ∀ g names id, Copying g names (copy g names id).1 (copy g names id).2.1
      [(copy g names id).2.2]) (g : Graph) (names : Renaming) (ids : List NodeId) :
    Copying g names (copyEach copy g names ids).1 (copyEach copy g names ids).2.1
      (copyEach copy g names ids).2.2 := by
  induction ids generalizing g names with
  | nil => exact .nil g names
  | cons id rest ih => exact (one g names id).append (ih _ _)

/-- A copy of a node is a copy of all below it. -/
theorem copying_copyLevels (depth : Nat) (g : Graph) (names : Renaming) (id : NodeId) :
    Copying g names (copyLevels depth g names id).1 (copyLevels depth g names id).2.1
      [(copyLevels depth g names id).2.2] := by
  induction depth generalizing g names id with
  | zero =>
    exact (Copying.nil g names).addUnnamed (rfl : Node.null.children = [])
  | succ depth ih =>
    have children := copying_copyEach ih g names (g.node id).children
    have bodies := copying_copyEach ih (copyEach (copyLevels depth) g names (g.node id).children).1
      (copyEach (copyLevels depth) g names (g.node id).children).2.1 (g.node id).templateBodies
    refine (children.append bodies).add ?_ fun _ => ?_
    · rw [Node.children_withTemplateBodies, Node.children_withChildren]
      exact length_copyEach ..
    · rw [Node.label_withTemplateBodies, Node.slotless_label.children]

/-! ## What is copied -/

/-- A node is a copy of another one, as far as a number of levels below it; what lies deeper was
cut off. -/
def Copies (g h : Graph) : Nat → NodeId → NodeId → Prop
  | 0, _, copy => h.node copy = .null
  | depth + 1, id, copy =>
    (∃ bodies,
      h.node copy = ((g.node id).withChildren (h.children copy)).withTemplateBodies bodies) ∧
      List.Forall₂ (Copies g h depth) (g.children id) (h.children copy)

theorem forall₂_imp_of_mem {α β : Type} {R S : α → β → Prop} {as : List α} {bs : List β}
    (h : List.Forall₂ R as bs) (imp : ∀ a ∈ as, ∀ b ∈ bs, R a b → S a b) :
    List.Forall₂ S as bs := by
  induction h with
  | nil => exact .nil
  | cons first _ ih =>
    exact .cons (imp _ (by simp) _ (by simp) first) <| ih fun a ma b mb =>
      imp a (List.mem_cons_of_mem _ ma) b (List.mem_cons_of_mem _ mb)

theorem exists_of_forall₂ {α β : Type} {R : α → β → Prop} {as : List α} {bs : List β}
    (h : List.Forall₂ R as bs) {b : β} (mem : b ∈ bs) : ∃ a ∈ as, R a b := by
  induction h with
  | nil => simp at mem
  | @cons a _ as _ first _ ih =>
    rcases List.mem_cons.mp mem with rfl | later
    · exact ⟨a, by simp, first⟩
    · obtain ⟨a, among, related⟩ := ih later
      exact ⟨a, List.mem_cons_of_mem _ among, related⟩

namespace Copies

variable {depth : Nat} {id copy : NodeId}

theorem label (c : Copies g h (depth + 1) id copy) :
    (h.node copy).label = (g.node id).label := by
  obtain ⟨⟨bodies, node⟩, -⟩ := c
  rw [node, Node.label_withTemplateBodies, Node.slotless_label.children]

/-- A copy stays one while its nodes do. -/
theorem grow (c : Copies g h depth id copy) (same : ∀ id, h.Has id → k.node id = h.node id)
    (grounded : h.Grounded copy) : Copies g k depth id copy := by
  induction depth generalizing id copy with
  | zero =>
    rw [Copies] at c ⊢
    rw [same copy (grounded _ (Below.refl h copy)), c]
  | succ depth ih =>
    obtain ⟨node, each⟩ := c
    have written := same copy (grounded _ (Below.refl h copy))
    have slots : k.children copy = h.children copy := by rw [children, written, children]
    rw [Copies, written, slots]
    refine ⟨node, forall₂_imp_of_mem each fun old _ new slot c => ?_⟩
    exact ih c fun _ below => grounded _ ((below_of_child slot).trans below)

/-- A copy of a node in a grown graph is one of the old node. -/
theorem shrink (c : Copies h k depth id copy) (e : Extends g h) (grounded : g.Grounded id) :
    Copies g k depth id copy := by
  induction depth generalizing id copy with
  | zero => exact c
  | succ depth ih =>
    obtain ⟨node, each⟩ := c
    have has := grounded _ (Below.refl g id)
    rw [e.node has] at node
    rw [e.children has] at each
    refine ⟨node, forall₂_imp_of_mem each fun old slot new _ c => ?_⟩
    exact ih c fun _ below => grounded _ ((below_of_child slot).trans below)

/-- What is reached from a copy is a copy, and so are the nodes above it. -/
theorem source (c : Copies g h depth id copy) {below : NodeId} {trail : List NodeId}
    (way : h.Trail copy trail below) :
    ∃ origin trail', g.Trail id trail' origin ∧ trail.length ≤ depth ∧
      Copies g h (depth - trail.length) origin below ∧
      List.Forall₂ (fun old new => ∃ rest, Copies g h (rest + 1) old new) trail' trail := by
  induction way with
  | here => exact ⟨id, [], .here, by simp, c, .nil⟩
  | @down trail owner child way slot ih =>
    obtain ⟨origin, trail', way', short, above, each⟩ := ih
    cases left : depth - trail.length with
    | zero =>
      rw [left, Copies] at above
      rw [children, above] at slot
      simp [Node.children] at slot
    | succ rest =>
      rw [left] at above
      obtain ⟨index, inside, rfl⟩ := List.mem_iff_getElem.mp slot
      have pairs := above.2
      have within : index < (g.children origin).length := by
        rw [pairs.length_eq]; exact inside
      refine ⟨(g.children origin)[index], origin :: trail', way'.down (List.getElem_mem within),
        by simp only [List.length_cons]; omega, ?_, .cons ⟨rest, above⟩ each⟩
      have remaining : depth - (owner :: trail).length = rest := by
        simp only [List.length_cons]; omega
      rw [remaining]
      exact pairs.get within inside

end Copies

theorem copies_copyEach {copy : Graph → Renaming → NodeId → Graph × Renaming × NodeId}
    {depth : Nat}
    (one : ∀ g names id, Copying g names (copy g names id).1 (copy g names id).2.1
      [(copy g names id).2.2])
    (copies : ∀ g names id, g.Grounded id →
      Copies g (copy g names id).1 depth id (copy g names id).2.2)
    (g : Graph) (names : Renaming) {ids : List NodeId} (grounded : ∀ id ∈ ids, g.Grounded id) :
    List.Forall₂ (Copies g (copyEach copy g names ids).1 depth) ids
      (copyEach copy g names ids).2.2 := by
  induction ids generalizing g names with
  | nil => exact .nil
  | cons id rest ih =>
    have first := one g names id
    have others := copying_copyEach one (copy g names id).1 (copy g names id).2.1 rest
    have tree := first.linked (copy g names id).2.2 (by simp)
    refine .cons ((copies g names id (grounded id (by simp))).grow
      (fun _ => others.beside.node) (tree.grounded (Below.refl _ _))) ?_
    have grounded' : ∀ old ∈ rest, g.Grounded old := fun old mem => grounded old (by simp [mem])
    refine forall₂_imp_of_mem (ih _ _ fun old mem => ?_) fun old mem new _ c =>
      c.shrink first.beside (grounded' old mem)
    exact first.beside.grounded (grounded' old mem)

/-- The copy of a node is one as far as the levels go. -/
theorem copies_copyLevels (depth : Nat) (g : Graph) (names : Renaming) {id : NodeId}
    (grounded : g.Grounded id) :
    Copies g (copyLevels depth g names id).1 depth id (copyLevels depth g names id).2.2 := by
  induction depth generalizing g names id with
  | zero => exact g.node_add_next .null
  | succ depth ih =>
    have lower : ∀ child ∈ g.children id, g.Grounded child := fun child slot _ below =>
      grounded _ ((below_of_child slot).trans below)
    have each := copies_copyEach (copying_copyLevels depth) (fun g names id => ih g names) g names
      lower
    have children := copying_copyEach (copying_copyLevels depth) g names (g.node id).children
    have bodies := copying_copyEach (copying_copyLevels depth)
      (copyEach (copyLevels depth) g names (g.node id).children).1
      (copyEach (copyLevels depth) g names (g.node id).children).2.1 (g.node id).templateBodies
    have slots : (copyLevels (depth + 1) g names id).1.children
        (copyLevels (depth + 1) g names id).2.2 =
          (copyEach (copyLevels depth) g names (g.node id).children).2.2 := by
      refine (congrArg Node.children (node_add_next _ _)).trans ?_
      rw [Node.children_withTemplateBodies, Node.children_withChildren]
      exact length_copyEach ..
    rw [Copies, slots]
    refine ⟨⟨_, node_add_next _ _⟩, forall₂_imp_of_mem each fun old _ new slot c => ?_⟩
    refine c.grow (fun other has => ?_) ((children.linked new slot).grounded (Below.refl _ new))
    exact (node_add (bodies.beside.has has) _).trans (bodies.beside.node has)

/-- Every node within the levels of a copy is renamed. -/
theorem met_copyEach {copy : Graph → Renaming → NodeId → Graph × Renaming × NodeId} {depth : Nat}
    (one : ∀ g names id, Copying g names (copy g names id).1 (copy g names id).2.1
      [(copy g names id).2.2])
    (met : ∀ g names id, g.Grounded id → ∀ trail other, g.Trail id trail other →
      trail.length < depth → ((copy g names id).2.1.get? other).isSome)
    (g : Graph) (names : Renaming) {ids : List NodeId} (grounded : ∀ id ∈ ids, g.Grounded id)
    {id other : NodeId} {trail : List NodeId} (mem : id ∈ ids) (way : g.Trail id trail other)
    (short : trail.length < depth) : ((copyEach copy g names ids).2.1.get? other).isSome := by
  induction ids generalizing g names with
  | nil => simp at mem
  | cons first rest ih =>
    have head := one g names first
    have others := copying_copyEach one (copy g names first).1 (copy g names first).2.1 rest
    rcases List.mem_cons.mp mem with rfl | mem
    · exact others.renames.kept (met g names id (grounded id (by simp)) trail other way short)
    · have grounded' : ∀ old ∈ rest, g.Grounded old := fun old mem => grounded old (by simp [mem])
      refine ih _ _ (fun old mem => head.beside.grounded (grounded' old mem)) mem ?_
      exact (head.beside.trail_iff (grounded' id mem)).mpr way

theorem met_copyLevels (depth : Nat) (g : Graph) (names : Renaming) {id other : NodeId}
    {trail : List NodeId} (grounded : g.Grounded id) (way : g.Trail id trail other)
    (short : trail.length < depth) : ((copyLevels depth g names id).2.1.get? other).isSome := by
  induction depth generalizing g names id other trail with
  | zero => simp at short
  | succ depth ih =>
    have bodies := copying_copyEach (copying_copyLevels depth)
      (copyEach (copyLevels depth) g names (g.node id).children).1
      (copyEach (copyLevels depth) g names (g.node id).children).2.1 (g.node id).templateBodies
    rw [copyLevels]
    by_cases same : id = other
    · subst same
      simp [Renaming.get?_insert_same]
    · rw [Renaming.get?_insert_other _ same]
      rcases way.top with ⟨_, rfl⟩ | ⟨child, slot, rest, below, rfl⟩
      · exact absurd rfl same
      · have lower : ∀ child ∈ g.children id, g.Grounded child := fun child slot _ below =>
          grounded _ ((below_of_child slot).trans below)
        exact bodies.renames.kept (met_copyEach (copying_copyLevels depth)
          (fun g names id grounded trail other way short => ih g names grounded way short)
          g names lower slot below (by simpa using short))

theorem label_copyLevels (depth : Nat) (g : Graph) (names : Renaming) (id : NodeId) :
    ((copyLevels (depth + 1) g names id).1.node (copyLevels (depth + 1) g names id).2.2).label =
      (g.node id).label := by
  refine (congrArg Node.label (node_add_next _ _)).trans ?_
  rw [Node.label_withTemplateBodies, Node.slotless_label.children]

/-! ## Copies that follow a renaming -/

/-- Rebinding new nodes leaves the old ones. -/
theorem Extends.rebind (e : Extends g h) {start : NodeId}
    (fresh : ∀ id, h.Below start id → ¬ g.Has id) (names : Renaming) :
    Extends g (h.rebind start names).1 where
  size := by rw [(Relabels.rebind ..).size]; exact e.size
  node {id} has := by
    have out : id ∉ h.descendants start := by
      rw [descendants_eq, mem_preorder]
      rintro ⟨trail, way, -⟩
      exact fresh id ⟨trail, way⟩ has
    rw [fst_rebind, node_renameAll_of_not_mem names h out, e.node has]
  parent has := by rw [(Relabels.rebind ..).parent, e.parent has]

/-- The copy of a node before its identifiers are pointed at copied ranges, with the renaming that
tells the copies. -/
structure Drafted (g : Graph) (root : NodeId) (names : Renaming) (draft : Graph)
    (names' : Renaming) (copy : NodeId) : Prop where
  copying : Copying g names draft names' [copy]
  label : g.Has root → (draft.node copy).label = (g.node root).label
  copies : g.Grounded root → Copies g draft g.size root copy
  met : g.Grounded root → ∀ {trail other}, g.Trail root trail other → trail.length < g.size →
    (names'.get? other).isSome

namespace Drafted

variable {draft : Graph} {root copy : NodeId} (d : Drafted g root names draft names' copy)

include d

theorem linked : draft.Linked copy := d.copying.linked copy (by simp)

theorem fresh {id : NodeId} (below : draft.Below copy id) : ¬ g.Has id :=
  d.copying.fresh copy (by simp) below

theorem beside_rebind : Extends g (draft.rebind copy names').1 :=
  d.copying.beside.rebind (fun _ => d.fresh) names'

theorem linked_rebind : (draft.rebind copy names').1.Linked copy :=
  (Relabels.rebind ..).linked d.linked

end Drafted

theorem Drafted.forest {draft : Graph} {root copy : NodeId} {names names' : Renaming}
    (d : Drafted g root names draft names' copy) :
    Forest g (draft.rebind copy names').1 [copy] where
  beside := d.beside_rebind
  linked tree mem := by
    rw [List.mem_singleton.mp mem]
    exact d.linked_rebind
  fresh tree mem id below := by
    rw [List.mem_singleton.mp mem] at below
    exact d.fresh ((Relabels.rebind ..).below.mp below)
  nodup := by simp

/-- A copy is drafted and rebound. -/
theorem copyWith_eq (g : Graph) (root : NodeId) (names : Renaming) :
    ∃ draft names', Drafted g root names draft names' (g.copyWith root names).2 ∧
      (g.copyWith root names).1 = (draft.rebind (g.copyWith root names).2 names').1 :=
  ⟨_, _, ⟨copying_copyLevels g.size g names root, fun has => by
      obtain ⟨depth, size⟩ := Nat.exists_eq_succ_of_ne_zero (Nat.ne_zero_of_lt has)
      have top := label_copyLevels depth g names root
      rw [← Nat.succ_eq_add_one, ← size] at top
      exact top, copies_copyLevels g.size g names,
    fun grounded _ _ way short => met_copyLevels g.size g names grounded way short⟩, rfl⟩

theorem stamp_copyWith {root : NodeId} (has : g.Has root) (names : Renaming) :
    ((g.copyWith root names).1.node (g.copyWith root names).2).stamp = (g.node root).stamp := by
  obtain ⟨draft, names', drafted, same⟩ := g.copyWith_eq root names
  rw [same, (Node.formal_stamp.toUnbound.rebind draft _ names').node drafted.linked.has, Node.stamp,
    drafted.label has, Node.stamp]

theorem forest_copyWith (g : Graph) (root : NodeId) (names : Renaming) :
    Forest g (g.copyWith root names).1 [(g.copyWith root names).2] := by
  obtain ⟨draft, names', drafted, same⟩ := g.copyWith_eq root names
  rw [same]
  exact drafted.forest

/-! ## What copied identifiers read -/

/-- What an identifier in a copy of a node reads, by what the copied identifier reads: a range that
was not copied, what the renaming tells, or a new range with the label of the old one. -/
inductive Follows (g h : Graph) (names : Renaming) (root : NodeId) (old new : NodeId) : Prop
  | outside : (∀ owner, g.Below root owner → old ∉ g.children owner) → new = old →
      Follows g h names root old new
  | given : names.get? old = some new → Follows g h names root old new
  | copied : ¬ g.Has new → ((g.node old).isRange = true → (h.node new).label = (g.node old).label) →
      Follows g h names root old new

theorem Node.isRange_label (node : Node) : node.label.isRange = node.isRange := by
  cases node <;> rfl

theorem Node.label_eq_identifier {node : Node} {i : Identifier} (h : node.label = .identifier i) :
    node = .identifier i := by
  cases node <;> simp_all [Node.label]

theorem Drafted.follows {draft : Graph} {top root copy : NodeId} {names names' : Renaming}
    (d : Drafted g root names draft names' copy) (l : g.Linked top) (above : g.Below top root)
    {id : NodeId} {i : Identifier} (below : draft.Below copy id)
    (node : (draft.rebind copy names').1.node id = .identifier i) :
    ∃ origin i', g.Below root origin ∧ g.node origin = .identifier i' ∧
      i = { i' with range := i.range } ∧
      Follows g (draft.rebind copy names').1 names root i'.range i.range := by
  classical
  have grounded := l.grounded above
  obtain ⟨trail, way⟩ := below
  obtain ⟨origin, trail', way', short, copies, -⟩ := (d.copies grounded).source way
  rw [d.linked.node_rebind (Below.refl draft copy), if_pos ⟨trail, way⟩] at node
  cases left : g.size - trail.length with
  | zero =>
    rw [left, Copies] at copies
    rw [copies] at node
    cases node
  | succ rest =>
    rw [left] at copies
    obtain ⟨i', was⟩ : ∃ i', draft.node id = .identifier i' := by
      cases kind : draft.node id <;> simp_all [Node.renamed]
    have same := copies.label
    rw [was] at same node
    have from' := Node.label_eq_identifier same.symm
    obtain rfl : _ = i := Node.identifier.inj node
    refine ⟨origin, i', ⟨trail', way'⟩, from', rfl, ?_⟩
    cases found : names'.get? i'.range with
    | none =>
      refine .outside (fun owner above' slot => ?_) (by simp)
      obtain ⟨trail'', way''⟩ := above'.child slot
      obtain ⟨front, start⟩ := above
      have short := l.length_trail_lt (start.append way'')
      have met := d.met grounded way'' (by rw [List.length_append] at short; omega)
      rw [found] at met
      cases met
    | some range =>
      rcases d.copying.renames.new found with given | ⟨new, has, label⟩
      · exact .given given
      · refine .copied new fun isRange => ?_
        have had : g.Has i'.range := has_of_isRange isRange
        have kept := label had
        have isRange' : (draft.node range).isRange = true := by
          rw [← Node.isRange_label, kept, Node.isRange_label, isRange]
        simp only [Option.getD_some]
        rw [node_rebind_of_isRange _ _ _ isRange', kept]

/-- A range in a copy has the label of a node below the copied one. -/
theorem label_below_copyWith {top root : NodeId} (l : g.Linked top) (above : g.Below top root)
    (names : Renaming) {id : NodeId}
    (below : (g.copyWith root names).1.Below (g.copyWith root names).2 id)
    (isRange : ((g.copyWith root names).1.node id).isRange = true) :
    ∃ origin, g.Below root origin ∧
      ((g.copyWith root names).1.node id).label = (g.node origin).label := by
  obtain ⟨draft, names', drafted, same⟩ := g.copyWith_eq root names
  rw [same] at below isRange ⊢
  obtain ⟨trail, way⟩ := (Relabels.rebind ..).below.mp below
  have has := drafted.linked.has_of_below ⟨trail, way⟩
  obtain ⟨origin, trail', way', -, copies, -⟩ := (drafted.copies (l.grounded above)).source way
  have stamp := (Node.formal_stamp.toUnbound.rebind draft (g.copyWith root names).2 names').node has
  have isRange' : (draft.node id).isRange = true := by
    rw [← Node.isRange_stamp, ← stamp, Node.isRange_stamp, isRange]
  rw [node_rebind_of_isRange _ _ _ isRange']
  cases left : g.size - trail.length with
  | zero =>
    rw [left, Copies] at copies
    rw [copies] at isRange'
    cases isRange'
  | succ rest =>
    rw [left] at copies
    exact ⟨origin, ⟨trail', way'⟩, copies.label⟩

/-- An identifier in a copy follows one below the copied node. -/
theorem follows_copyWith {top root : NodeId} (l : g.Linked top) (above : g.Below top root)
    (names : Renaming) {id : NodeId} {i : Identifier}
    (below : (g.copyWith root names).1.Below (g.copyWith root names).2 id)
    (node : (g.copyWith root names).1.node id = .identifier i) :
    ∃ origin i', g.Below root origin ∧ g.node origin = .identifier i' ∧
      i = { i' with range := i.range } ∧
      Follows g (g.copyWith root names).1 names root i'.range i.range := by
  obtain ⟨draft, names', drafted, same⟩ := g.copyWith_eq root names
  rw [same] at below node ⊢
  exact drafted.follows l above ((Relabels.rebind ..).below.mp below) node

/-! ## Zones side by side -/

/-- The levels of a zone, with others for all nodes to come. -/
noncomputable def levelBeside (g : Graph) (level new : NodeId → List NodeId) (id : NodeId) :
    List NodeId :=
  open Classical in if g.Has id then level id else new id

section

variable {roots zone zone' : Set NodeId} {level level' : NodeId → List NodeId}

theorem levelBeside_of_has {id : NodeId} (has : g.Has id) :
    g.levelBeside level level' id = level id := if_pos has

theorem levelBeside_of_not_has {id : NodeId} (new : ¬ g.Has id) :
    g.levelBeside level level' id = level' id := if_neg new

/-- A zone of new nodes beside a zone makes one with it. -/
theorem Zone.beside (z : g.Zone roots ∅ zone level) (e : Extends g h)
    (z' : h.Zone ∅ ∅ zone' level') (fresh : ∀ id ∈ zone', ¬ g.Has id) :
    h.Zone roots ∅ (zone ∪ zone') (g.levelBeside level level') := by
  have old : ∀ id ∈ zone, g.levelBeside level level' id = level id := fun _ mem =>
    levelBeside_of_has (z.has mem)
  have new : ∀ id ∈ zone', g.levelBeside level level' id = level' id := fun id mem =>
    levelBeside_of_not_has (fresh id mem)
  have both := ((e.zone z).relevel old).union (z'.relevel new)
  rwa [Set.union_empty] at both

/-- What was ready in either zone is ready in both. -/
theorem Ready.beside (z : g.Zone roots ∅ zone level) (e : Extends g h)
    (z' : h.Zone ∅ ∅ zone' level') (fresh : ∀ id ∈ zone', ¬ g.Has id) {scopes : List NodeId}
    {id : NodeId} (ready : g.Ready roots ∅ zone level scopes id) :
    h.Ready roots ∅ (zone ∪ zone') (g.levelBeside level level') scopes id where
  mem := .inl ready.mem
  free := by
    have had := z.has ready.mem
    rintro owner (mem | mem) slot
    · rw [e.children (z.has mem)] at slot
      exact ready.free owner mem slot
    · exact absurd had (fresh id (z'.closed mem slot (Set.notMem_empty _)))
  nonroot := ready.nonroot
  level := by
    rw [levelBeside_of_has (z.has ready.mem), ready.level, enter, enter, e.node (z.has ready.mem)]

theorem Ready.besideNew (z : g.Zone roots ∅ zone level) (e : Extends g h)
    (fresh : ∀ id ∈ zone', ¬ g.Has id) {scopes : List NodeId} {id : NodeId}
    (ready : h.Ready ∅ ∅ zone' level' scopes id) :
    h.Ready roots ∅ (zone ∪ zone') (g.levelBeside level level') scopes id where
  mem := .inr ready.mem
  free := by
    rintro owner (mem | mem) slot
    · rw [e.children (z.has mem)] at slot
      exact absurd (z.has (z.closed mem slot (Set.notMem_empty _))) (fresh id ready.mem)
    · exact ready.free owner mem slot
  nonroot root := fresh id ready.mem (z.has (z.root root).1)
  level := by rw [levelBeside_of_not_has (fresh id ready.mem), ready.level]

/-- A tree of new nodes is a zone in which its root is ready. -/
theorem Forest.inOrder {tree : NodeId} (forest : Forest g h [tree]) :
    h.Zone ∅ ∅ {id | h.Below tree id} (h.levelFrom {tree}) ∧
      h.Ready ∅ ∅ {id | h.Below tree id} (h.levelFrom {tree}) [] tree := by
  have linked : ∀ root ∈ ({tree} : Set NodeId), h.Linked root := fun root mem =>
    forest.linked root (by simpa using mem)
  have z := Zone.of_linked linked
  have same : {id | ∃ root ∈ ({tree} : Set NodeId), h.Below root id} = {id | h.Below tree id} := by
    ext id
    simp
  rw [same] at z
  exact ⟨z.fewerRoots (Set.empty_subset _), Below.refl h tree,
    z.free_of_root (linked tree rfl).parent_root, Set.notMem_empty _, levelFrom_root linked rfl⟩

end

end Graph

end RangeQuery
