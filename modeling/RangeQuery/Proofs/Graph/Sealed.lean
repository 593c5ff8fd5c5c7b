import RangeQuery.Proofs.Graph.Copying

/-!
Work beside a graph. What was there keeps its nodes and owners, and what is new owns new nodes only,
so that whatever is reached from a new node may be written without touching the old ones.
-/

namespace RangeQuery

namespace Graph

variable {g h : Graph}

/-- A graph grew beside what it held: no new node owns an old one. -/
structure Sealed (g h : Graph) : Prop extends Extends g h where
  closed : ∀ {owner child}, ¬ g.Has owner → child ∈ h.children owner → ¬ g.Has child

theorem children_of_not_has {id : NodeId} (absent : ¬ g.Has id) : g.children id = [] := by
  rw [children, node_of_not_has absent]
  rfl

/-- Where the graph lists a slot, it lists it after as before. -/
theorem Extends.prefix_slots (e : Extends g h) : g.slots.toList <+: h.slots.toList := by
  refine List.prefix_iff_getElem?.mpr fun index inside => ?_
  have bound : index < g.slots.size := by simpa using inside
  have bound' : index < h.slots.size := Nat.lt_of_lt_of_le bound e.size
  have node : h.node ⟨index⟩ = g.node ⟨index⟩ := e.node bound
  have parent : h.parent ⟨index⟩ = g.parent ⟨index⟩ := e.parent bound
  simp only [Graph.node, Graph.parent, Array.getElem?_eq_getElem bound,
    Array.getElem?_eq_getElem bound'] at node parent
  rw [Array.getElem?_toList, Array.getElem?_eq_getElem bound', Array.getElem_toList]
  cases new : h.slots[index]
  cases old : g.slots[index]
  simp_all

namespace Sealed

theorem refl (g : Graph) : Sealed g g where
  toExtends := .refl g
  closed new slot := by simp [children_of_not_has new] at slot

variable (s : Sealed g h)

include s

/-- Whatever is reached from a new node is new. -/
theorem below {root id : NodeId} (new : ¬ g.Has root) (below : h.Below root id) : ¬ g.Has id :=
  below.induction new fun _ _ _ ih slot => s.closed ih slot

theorem not_has_next : ¬ g.Has h.next := fun had => h.not_has_next (s.has had)

theorem add {node : Node} (new : ∀ child ∈ node.children, ¬ g.Has child) :
    Sealed g (h.add node).1 where
  toExtends := s.toExtends.add node new
  closed {owner child} absent slot := by
    by_cases has : (h.add node).1.Has owner
    · rcases has_add_iff.mp has with old | rfl
      · rw [children, node_add old] at slot
        exact s.closed absent slot
      · rw [children, node_add_next] at slot
        exact new child slot
    · simp [children_of_not_has has] at slot

/-- Rebinding from a new node writes new nodes only. -/
theorem rebind {root : NodeId} (new : ¬ g.Has root) (names : Renaming) :
    Sealed g (h.rebind root names).1 where
  toExtends := s.toExtends.rebind (fun _ => s.below new) names
  closed absent slot := by
    rw [(Relabels.rebind h root names).children] at slot
    exact s.closed absent slot

/-! ## Copies -/

theorem copyEach {copy : Graph → Renaming → NodeId → Graph × Renaming × NodeId}
    (one : ∀ {h} names id, Sealed g h →
      Sealed g (copy h names id).1 ∧ ¬ g.Has (copy h names id).2.2)
    (names : Renaming) (ids : List NodeId) :
    Sealed g (Graph.copyEach copy h names ids).1 ∧
      ∀ id ∈ (Graph.copyEach copy h names ids).2.2, ¬ g.Has id := by
  induction ids generalizing h names with
  | nil => exact ⟨s, by simp [Graph.copyEach]⟩
  | cons id rest ih =>
    obtain ⟨first, new⟩ := one names id s
    obtain ⟨others, news⟩ := ih first (copy h names id).2.1
    exact ⟨others, List.forall_mem_cons.mpr ⟨new, news⟩⟩

/-- A copy of any part of the graph takes new nodes, however deep it goes. -/
theorem copyLevels (depth : Nat) (names : Renaming) (id : NodeId) :
    Sealed g (Graph.copyLevels depth h names id).1 ∧
      ¬ g.Has (Graph.copyLevels depth h names id).2.2 := by
  induction depth generalizing h names id with
  | zero => exact ⟨s.add (by simp [Node.children]), s.not_has_next⟩
  | succ depth ih =>
    obtain ⟨children, news⟩ := s.copyEach (fun names id s => ih s names id) names
      (h.node id).children
    obtain ⟨bodies, -⟩ := children.copyEach (fun names id s => ih s names id) _
      (h.node id).templateBodies
    refine ⟨bodies.add fun child slot => news child ?_, bodies.not_has_next⟩
    rwa [Node.children_withTemplateBodies, Node.children_withChildren _ (length_copyEach ..)] at slot

theorem copyWith (root : NodeId) (names : Renaming) :
    Sealed g (h.copyWith root names).1 ∧ ¬ g.Has (h.copyWith root names).2 := by
  obtain ⟨draft, new⟩ := s.copyLevels h.size names root
  exact ⟨draft.rebind new _, new⟩

end Sealed

end Graph

end RangeQuery
