import RangeQuery.Proofs.Graph.Walks

/-!
References as sets. Below a well-linked node, the identifiers that a search finds are all there
are, so the ranges it tells are those that some identifier below reads.
-/

namespace RangeQuery

namespace Graph

variable {g : Graph} {top root id : NodeId}

/-- Whether a search for identifiers goes on below a node. -/
def opensReads (g : Graph) (root : NodeId) (enterSubqueries : Bool) (id : NodeId) : Bool :=
  match g.node id with
  | .identifier _ => false
  | .subquery _ => enterSubqueries || id == root
  | _ => true

theorem identifiersUnder_eq (g : Graph) (root : NodeId) (enterSubqueries : Bool) :
    g.identifiersUnder root enterSubqueries =
      (g.preorder (g.opensReads root enterSubqueries) g.size root).filter fun id =>
        (g.identifier? id).isSome := by
  refine walk_list _ _ (fun out id => ?_) root
  cases node : g.node id <;> simp [opensReads, identifier?, node]

theorem node_of_identifier? {i : Identifier} (h : g.identifier? id = some i) :
    g.node id = .identifier i := by
  unfold identifier? at h
  split at h
  · cases h; assumption
  · cases h

theorem identifier?_eq {i : Identifier} (node : g.node id = .identifier i) :
    g.identifier? id = some i := by
  simp only [identifier?, node]

/-- The identifiers from an acyclic root, subqueries included, are those below it. -/
theorem Acyclic.mem_identifiersUnder (a : g.Acyclic root) :
    id ∈ g.identifiersUnder root true ↔ g.Below root id ∧ ∃ i, g.node id = .identifier i := by
  rw [identifiersUnder_eq, List.mem_filter, a.mem_preorder]
  constructor
  · rintro ⟨⟨trail, way, -⟩, some⟩
    obtain ⟨i, found⟩ := Option.isSome_iff_exists.mp some
    exact ⟨⟨trail, way⟩, i, node_of_identifier? found⟩
  · rintro ⟨⟨trail, way⟩, i, node⟩
    refine ⟨⟨trail, way, fun owner on => ?_⟩, by simp [identifier?_eq node]⟩
    -- Only identifiers are not opened, and those own nothing.
    obtain ⟨child, slot⟩ := way.exists_child on
    cases kind : g.node owner <;> simp_all [opensReads, children, Node.children]

theorem Linked.mem_identifiersUnder (l : g.Linked top) (above : g.Below top root) :
    id ∈ g.identifiersUnder root true ↔ g.Below root id ∧ ∃ i, g.node id = .identifier i :=
  (l.acyclic above).mem_identifiersUnder

theorem mem_rangesOf {identifiers : List NodeId} {range : NodeId} :
    range ∈ g.rangesOf identifiers ↔
      ∃ id ∈ identifiers, ∃ i, g.node id = .identifier i ∧ i.range = range := by
  simp only [rangesOf, List.mem_filterMap, Option.map_eq_some_iff]
  constructor
  · rintro ⟨id, mem, i, found, same⟩
    exact ⟨id, mem, i, node_of_identifier? found, same⟩
  · rintro ⟨id, mem, i, node, same⟩
    exact ⟨id, mem, i, identifier?_eq node, same⟩

/-- A range is read from a root if an identifier below the root reads it. -/
def Reads (g : Graph) (root range : NodeId) : Prop :=
  ∃ id i, g.Below root id ∧ g.node id = .identifier i ∧ i.range = range

/-- What a node reads that is no identifier, one of its children reads. -/
theorem Reads.child {range : NodeId} (reads : g.Reads id range)
    (other : ∀ i, g.node id ≠ .identifier i) :
    ∃ child ∈ g.children id, g.Reads child range := by
  obtain ⟨lower, i, below, node, same⟩ := reads
  rcases below.eq_or_child with rfl | ⟨child, slot, below⟩
  · exact absurd node (other i)
  · exact ⟨child, slot, lower, i, below, node, same⟩

theorem Acyclic.mem_rangesOf_identifiersUnder (a : g.Acyclic root) {range : NodeId} :
    range ∈ g.rangesOf (g.identifiersUnder root true) ↔ g.Reads root range := by
  rw [mem_rangesOf]
  constructor
  · rintro ⟨id, mem, i, node, same⟩
    exact ⟨id, i, (a.mem_identifiersUnder.mp mem).1, node, same⟩
  · rintro ⟨id, i, below, node, same⟩
    exact ⟨id, a.mem_identifiersUnder.mpr ⟨below, i, node⟩, i, node, same⟩

theorem Linked.mem_rangesOf_identifiersUnder (l : g.Linked top) (above : g.Below top root)
    {range : NodeId} :
    range ∈ g.rangesOf (g.identifiersUnder root true) ↔ g.Reads root range :=
  (l.acyclic above).mem_rangesOf_identifiersUnder

theorem Acyclic.mem_referencedRanges (a : g.Acyclic root) {range : NodeId} :
    range ∈ g.referencedRanges root ↔ g.Reads root range := by
  rw [referencedRanges, List.mem_eraseDups, a.mem_rangesOf_identifiersUnder]

theorem Linked.mem_referencedRanges (l : g.Linked top) (above : g.Below top root) {range : NodeId} :
    range ∈ g.referencedRanges root ↔ g.Reads root range :=
  (l.acyclic above).mem_referencedRanges

/-- The names told from an acyclic root are those of the ranges read from it. -/
theorem Acyclic.mem_referencedNames (a : g.Acyclic root) {name : String} :
    name ∈ g.referencedNames root ↔ ∃ range, g.Reads root range ∧ g.rangeName range = name := by
  simp only [referencedNames, mem_sortedNames, List.mem_map, a.mem_referencedRanges]

end Graph

end RangeQuery
