import RangeQuery.Graph.Basic

/-!
What each setter of a graph writes: the node and the recorded owner behind every handle
afterwards. Later modules quote these equations and do not open the setters again.
-/

namespace RangeQuery

theorem NodeId.ext_index {a b : NodeId} (same : a.index = b.index) : a = b := by
  cases a; cases b; simpa using same

namespace Graph

/-- The handle that the next new node gets. -/
def next (g : Graph) : NodeId := ⟨g.size⟩

/-- Whether a handle has a slot. -/
def Has (g : Graph) (id : NodeId) : Prop := id.index < g.size

instance (g : Graph) (id : NodeId) : Decidable (g.Has id) :=
  inferInstanceAs (Decidable (id.index < g.size))

theorem not_has_next (g : Graph) : ¬ g.Has g.next := Nat.lt_irrefl _

theorem not_has_next_of_le {g h : Graph} (size : g.size ≤ h.size) : ¬ g.Has h.next :=
  Nat.not_lt_of_le size

theorem ne_next_of_has {g : Graph} {id : NodeId} (has : g.Has id) : id ≠ g.next := by
  rintro rfl
  exact g.not_has_next has

theorem parent_eq_none_of_not_has {g : Graph} {id : NodeId} (h : ¬ g.Has id) :
    g.parent id = none := by
  have none : g.slots[id.index]? = .none := Array.getElem?_eq_none (Nat.le_of_not_lt h)
  simp [parent, none]

theorem has_of_parent {g : Graph} {id owner : NodeId} (h : g.parent id = some owner) :
    g.Has id := by
  by_cases has : g.Has id
  · exact has
  · rw [parent_eq_none_of_not_has has] at h
    cases h

/-! ## One slot -/

theorem parent_setParent_self {g : Graph} {id : NodeId} (has : g.Has id)
    (parent : Option NodeId) : (g.setParent id parent).parent id = parent := by
  have inside : id.index < g.slots.size := has
  simp [setParent, Graph.parent, Array.getElem?_modify, Array.getElem?_eq_getElem inside]

theorem parent_setParent_of_ne (g : Graph) {id other : NodeId} (ne : id ≠ other)
    (parent : Option NodeId) : (g.setParent id parent).parent other = g.parent other := by
  have apart : id.index ≠ other.index := fun same => ne (NodeId.ext_index same)
  simp only [setParent, Graph.parent, Array.getElem?_modify, if_neg apart]

theorem children_setNode_of_ne (g : Graph) {id other : NodeId} (ne : id ≠ other) (node : Node) :
    (g.setNode id node).children other = g.children other := by
  rw [children, node_setNode_of_ne g ne, children]

/-! ## Several recorded owners -/

theorem size_adopt (g : Graph) (owner : NodeId) (ids : List NodeId) :
    (g.adopt owner ids).size = g.size := by
  induction ids generalizing g with
  | nil => rfl
  | cons id rest ih =>
    simp only [adopt, List.foldl_cons] at ih ⊢
    rw [ih, size_setParent]

theorem parent_adopt_of_not_mem (g : Graph) (owner : NodeId) {ids : List NodeId} {id : NodeId}
    (h : id ∉ ids) : (g.adopt owner ids).parent id = g.parent id := by
  induction ids generalizing g with
  | nil => rfl
  | cons first rest ih =>
    simp only [List.mem_cons, not_or] at h
    simp only [adopt, List.foldl_cons] at ih ⊢
    rw [ih _ h.2, parent_setParent_of_ne g (Ne.symm h.1)]

theorem parent_adopt_of_mem {g : Graph} (owner : NodeId) {ids : List NodeId} {id : NodeId}
    (has : g.Has id) (h : id ∈ ids) : (g.adopt owner ids).parent id = some owner := by
  induction ids generalizing g with
  | nil => simp at h
  | cons first rest ih =>
    have has' : (g.setParent first (some owner)).Has id := by
      rw [Has, size_setParent]; exact has
    by_cases later : id ∈ rest
    · exact ih has' later
    · have same : id = first := by simpa [later] using h
      subst same
      have last := parent_adopt_of_not_mem (g.setParent id (some owner)) owner later
      simp only [adopt, List.foldl_cons] at last ⊢
      rw [last, parent_setParent_self has]

theorem size_release (g : Graph) (owner : NodeId) (ids : List NodeId) :
    (g.release owner ids).size = g.size := by
  induction ids generalizing g with
  | nil => rfl
  | cons id rest ih =>
    simp only [release, List.foldl_cons] at ih ⊢
    rw [ih]
    split
    · rw [size_setParent]
    · rfl

theorem parent_release_of_not_mem (g : Graph) (owner : NodeId) {ids : List NodeId} {id : NodeId}
    (h : id ∉ ids) : (g.release owner ids).parent id = g.parent id := by
  induction ids generalizing g with
  | nil => rfl
  | cons first rest ih =>
    simp only [List.mem_cons, not_or] at h
    simp only [release, List.foldl_cons] at ih ⊢
    rw [ih _ h.2]
    split
    · rw [parent_setParent_of_ne g (Ne.symm h.1)]
    · rfl

/-- Releasing changes a recorded owner to none or not at all. -/
theorem parent_release_or (g : Graph) (owner : NodeId) (ids : List NodeId) (id : NodeId) :
    (g.release owner ids).parent id = g.parent id ∨
      (g.release owner ids).parent id = none ∧ g.parent id = some owner := by
  induction ids generalizing g with
  | nil => exact .inl rfl
  | cons first rest ih =>
    simp only [release, List.foldl_cons] at ih ⊢
    split
    case isFalse => exact ih g
    case isTrue held =>
      by_cases same : first = id
      · subst same
        have gone : (g.setParent first none).parent first = none :=
          parent_setParent_self (has_of_parent held) none
        rcases ih (g.setParent first none) with kept | lost
        · exact .inr ⟨kept.trans gone, held⟩
        · exact .inr ⟨lost.1, held⟩
      · have kept := parent_setParent_of_ne g same none
        rw [← kept]
        exact ih (g.setParent first none)

/-! ## New nodes -/

theorem size_add (g : Graph) (node : Node) : (g.add node).1.size = g.size + 1 := by
  rw [add, size_adopt]
  simp [size]

theorem has_add {g : Graph} {id : NodeId} (has : g.Has id) (node : Node) :
    (g.add node).1.Has id := by
  rw [Has, size_add]
  exact Nat.lt_succ_of_lt has

theorem has_add_next (g : Graph) (node : Node) : (g.add node).1.Has g.next := by
  rw [Has, size_add]
  exact Nat.lt_succ_self _

theorem has_add_iff {g : Graph} {node : Node} {id : NodeId} :
    (g.add node).1.Has id ↔ g.Has id ∨ id = g.next := by
  rw [Has, Has, size_add]
  constructor
  · intro h
    rcases Nat.lt_succ_iff_lt_or_eq.mp h with old | new
    · exact .inl old
    · exact .inr (NodeId.ext_index new)
  · rintro (old | rfl)
    · exact Nat.lt_succ_of_lt old
    · exact Nat.lt_succ_self _

theorem node_add_next (g : Graph) (node : Node) : (g.add node).1.node g.next = node := by
  rw [add, node_adopt]
  simp [Graph.node, next, size]

theorem node_add {g : Graph} {id : NodeId} (has : g.Has id) (node : Node) :
    (g.add node).1.node id = g.node id := by
  have inside : id.index < g.slots.size := has
  rw [add, node_adopt]
  simp [Graph.node, Array.getElem?_push_lt inside, inside]

theorem parent_push {g : Graph} {id : NodeId} (ne : id ≠ g.next) (slot : Slot) :
    Graph.parent ⟨g.slots.push slot⟩ id = g.parent id := by
  by_cases inside : id.index < g.slots.size
  · simp [Graph.parent, Array.getElem?_push_lt inside, inside]
  · have beyond : id.index ≠ g.slots.size := fun same => ne (NodeId.ext_index same)
    have outside : g.slots.size + 1 ≤ id.index := by omega
    have before : g.slots[id.index]? = none := Array.getElem?_eq_none (by omega)
    have after : (g.slots.push slot)[id.index]? = none :=
      Array.getElem?_eq_none (by simpa using outside)
    simp [Graph.parent, before, after]

theorem parent_add_of_not_mem {g : Graph} {node : Node} {id : NodeId} (ne : id ≠ g.next)
    (h : id ∉ node.children) : (g.add node).1.parent id = g.parent id := by
  rw [add, parent_adopt_of_not_mem _ _ h, parent_push ne]

theorem parent_add_next {g : Graph} {node : Node} (h : g.next ∉ node.children) :
    (g.add node).1.parent g.next = none := by
  rw [add, parent_adopt_of_not_mem _ _ h]
  simp [Graph.parent, next, size]

theorem parent_add_of_mem {g : Graph} {node : Node} {id : NodeId} (has : g.Has id)
    (h : id ∈ node.children) : (g.add node).1.parent id = some g.next := by
  have has' : Graph.Has ⟨g.slots.push { node, parent := none }⟩ id := by
    simpa [Has, size] using Nat.lt_succ_of_lt has
  exact parent_adopt_of_mem g.next has' h

/-! ## Exchanged slots -/

theorem size_relink (g : Graph) (owner : NodeId) (old new : Option NodeId) :
    (g.relink owner old new).size = g.size := by
  unfold relink
  split
  · rfl
  · rw [size_adopt, size_release]

theorem node_relink (g : Graph) (owner other : NodeId) (old new : Option NodeId) :
    (g.relink owner old new).node other = g.node other := by
  unfold relink
  split
  · rfl
  · rw [node_adopt, node_release]

/-- Only what hung in the slot before or after can record another owner. -/
theorem parent_relink_of_ne (g : Graph) (owner : NodeId) {old new : Option NodeId} {id : NodeId}
    (before : old ≠ some id) (after : new ≠ some id) :
    (g.relink owner old new).parent id = g.parent id := by
  unfold relink
  split
  · rfl
  · rw [parent_adopt_of_not_mem _ _ (by simpa using after),
      parent_release_of_not_mem _ _ (by simpa using before)]

theorem parent_relink_or (g : Graph) (owner : NodeId) (old : Option NodeId) {new : Option NodeId}
    {id : NodeId} (after : new ≠ some id) :
    (g.relink owner old new).parent id = g.parent id ∨
      (g.relink owner old new).parent id = none ∧ g.parent id = some owner := by
  unfold relink
  split
  · exact .inl rfl
  · rw [parent_adopt_of_not_mem _ _ (by simpa using after)]
    exact parent_release_or g owner old.toList id

theorem parent_relink_new {g : Graph} {owner : NodeId} {old : Option NodeId} {id : NodeId}
    (has : g.Has id) (ne : old ≠ some id) :
    (g.relink owner old (some id)).parent id = some owner := by
  have has' : (g.release owner old.toList).Has id := by
    rw [Has, size_release]; exact has
  simp only [relink, if_neg ne]
  exact parent_adopt_of_mem owner has' (by simp)

end Graph

end RangeQuery
