import RangeQuery.Proofs.Scope.ReadersInUse
import RangeQuery.Proofs.Scope.RequiredRanges

/-!
Several exclusions at once. Excluding ranges writes their marks and nothing else, so a graph without
some of its ranges is told by the set of them. A range counts as unread beside a set if its readers
lie below other ranges of the set, and as many exclusions as one likes only ever exclude what every
set closed under this contains.
-/

namespace RangeQuery

theorem Node.children_excluded (node : Node) : node.excluded.children = node.children := by
  cases node <;> rfl

theorem Node.excluded_excluded (node : Node) : node.excluded.excluded = node.excluded := by
  cases node <;> rfl

theorem Node.isOptional_excluded (node : Node) : node.excluded.isOptional = node.isOptional := by
  cases node <;> rfl

theorem Node.isSubquery_excluded (node : Node) : node.excluded.isSubquery = node.isSubquery := by
  cases node <;> rfl

theorem Node.isExcluded_of_excluded {node : Node} (h : node.excluded.isExcluded = false) :
    node.isExcluded = false := by
  cases node <;> simp_all [excluded, isExcluded]

namespace Graph

variable {g h k : Graph} {root scope range dead id : NodeId} {dropped dropped' : Set NodeId}

/-- A graph is told by its nodes and their owners. -/
theorem eq_of_nodes (size : h.size = g.size) (node : ∀ id, h.node id = g.node id)
    (parent : ∀ id, h.parent id = g.parent id) : h = g := by
  obtain ⟨slots⟩ := g
  obtain ⟨slots'⟩ := h
  congr 1
  refine Array.ext size fun index inside' inside => ?_
  have node := node ⟨index⟩
  have parent := parent ⟨index⟩
  simp only [Graph.node, Graph.parent, Array.getElem?_eq_getElem inside,
    Array.getElem?_eq_getElem inside'] at node parent
  cases slot : slots[index]
  cases slot' : slots'[index]
  simp_all

/-! ## Graphs without some ranges -/

/-- The graph with some ranges taken out of the join and nothing else changed. -/
structure Excludes (g : Graph) (dropped : Set NodeId) (h : Graph) : Prop where
  size : h.size = g.size
  parent : ∀ id, h.parent id = g.parent id
  taken : ∀ id ∈ dropped, h.node id = (g.node id).excluded
  others : ∀ id, id ∉ dropped → h.node id = g.node id

namespace Excludes

theorem refl (g : Graph) : g.Excludes ∅ g :=
  ⟨rfl, fun _ => rfl, fun _ out => out.elim, fun _ _ => rfl⟩

theorem eq (e : g.Excludes dropped h) (e' : g.Excludes dropped k) : h = k := by
  refine eq_of_nodes (e.size.trans e'.size.symm) (fun id => ?_)
    fun id => (e.parent id).trans (e'.parent id).symm
  by_cases mem : id ∈ dropped
  · exact (e.taken id mem).trans (e'.taken id mem).symm
  · exact (e.others id mem).trans (e'.others id mem).symm

theorem exclude (e : g.Excludes dropped h) (dead : NodeId) :
    g.Excludes (insert dead dropped) (h.exclude dead) where
  size := (Relabels.exclude h dead).size.trans e.size
  parent id := ((Relabels.exclude h dead).parent id).trans (e.parent id)
  taken id mem := by
    rw [node_exclude]
    by_cases before : id ∈ dropped
    · rw [e.taken id before, Node.excluded_excluded, ite_self]
    · rw [if_pos (mem.resolve_right before), e.others id before]
  others id out := by
    rw [Set.mem_insert_iff, not_or] at out
    rw [node_exclude, if_neg out.1, e.others id out.2]

variable (e : g.Excludes dropped h)

include e

/-- What an excluded mark does not show, no exclusion changes. -/
theorem view {α : Type} (view : Node → α) (blind : ∀ node, view node.excluded = view node)
    (id : NodeId) : view (h.node id) = view (g.node id) := by
  by_cases mem : id ∈ dropped
  · rw [e.taken id mem, blind]
  · rw [e.others id mem]

theorem children (id : NodeId) : h.children id = g.children id :=
  e.view _ Node.children_excluded id

theorem linked (l : g.Linked root) : h.Linked root :=
  l.congr (Nat.le_of_eq e.size.symm) e.children e.parent

theorem below : h.Below scope id ↔ g.Below scope id := below_congr e.children

theorem join?_eq (id : NodeId) : h.join? id = g.join? id := by
  by_cases mem : id ∈ dropped
  · cases node : g.node id <;> simp [join?, range?, e.taken id mem, node, Node.excluded]
  · simp only [join?, range?, e.others id mem]

theorem identifier {i : Identifier} : h.node id = .identifier i ↔ g.node id = .identifier i := by
  by_cases mem : id ∈ dropped
  · rw [e.taken id mem]
    exact Node.excluded_eq_identifier
  · rw [e.others id mem]

theorem includedRanges_eq (isRetrieve : (g.node scope).isRetrieve = true)
    [DecidablePred (· ∈ dropped)] :
    h.includedRanges scope = (g.includedRanges scope).filter (· ∉ dropped) := by
  have isRetrieve' : (h.node scope).isRetrieve = true :=
    (e.view Node.isRetrieve (by rintro ⟨⟩ <;> rfl) scope).trans isRetrieve
  rw [includedRanges, includedRanges, ranges_scope isRetrieve', ranges_scope isRetrieve,
    e.view Node.declared (by rintro ⟨⟩ <;> rfl) scope, List.filter_filter]
  refine List.filter_congr fun id _ => ?_
  rw [any_included, any_included]
  by_cases mem : id ∈ dropped
  · simp [e.taken id mem, Node.isIncluded_excluded, mem]
  · simp [e.others id mem, mem]

theorem mem_includedRanges (isRetrieve : (g.node scope).isRetrieve = true) :
    id ∈ h.includedRanges scope ↔ id ∈ g.includedRanges scope ∧ id ∉ dropped := by
  classical
  rw [e.includedRanges_eq isRetrieve, List.mem_filter, decide_eq_true_eq]

/-! ## What is regarded and counted -/

theorem regards {top : NodeId} (r : h.Regards top id) : g.Regards top id := by
  have kept : ∀ {id}, (h.node id).isExcluded = false → (g.node id).isExcluded = false := by
    intro id kept
    by_cases mem : id ∈ dropped
    · exact Node.isExcluded_of_excluded (e.taken id mem ▸ kept)
    · rwa [← e.others id mem]
  induction r with
  | here open' => exact .here (kept open')
  | @inside subquery _ sub below =>
    exact .inside (e.view _ Node.isSubquery_excluded subquery ▸ sub) (e.below.mp below)
  | @down owner _ _ open' slot _ ih => exact .down (kept open') (e.children owner ▸ slot) ih

theorem regards_of_apart {top : NodeId} (r : g.Regards top id)
    (apart : ∀ range ∈ dropped, ¬ g.Below range id) : h.Regards top id := by
  have others : ∀ {owner}, g.Below owner id → h.node owner = g.node owner := fun below =>
    e.others _ fun mem => apart _ mem below
  induction r with
  | here kept => exact .here (others (.refl g _) ▸ kept)
  | inside sub below => exact .inside (others below ▸ sub) (e.below.mpr below)
  | @down owner _ _ kept slot rest ih =>
    exact .down (others ((below_of_child slot).trans rest.reached) ▸ kept)
      (e.children owner ▸ slot) (ih apart others)

/-- A search without some ranges of its scope regards what it regarded before and what lies below
none of them. -/
theorem regards_iff (l : g.Linked root) (above : g.Below root scope)
    (isRetrieve : (g.node scope).isRetrieve = true)
    (among : ∀ range ∈ dropped, range ∈ g.includedRanges scope) :
    h.Regards scope id ↔ g.Regards scope id ∧ ∀ range ∈ dropped, ¬ g.Below range id := by
  refine ⟨fun r => ⟨e.regards r, fun range mem below => ?_⟩,
    fun ⟨r, apart⟩ => e.regards_of_apart r apart⟩
  have slot : range ∈ g.children scope :=
    declared_subset_children _ (isIncluded_of_mem (among range mem)).1
  cases r with
  | here _ => exact l.not_below_of_child above slot below
  | inside sub _ =>
    rw [e.view _ Node.isSubquery_excluded] at sub
    cases node : g.node scope <;> simp_all [Node.isSubquery, Node.isRetrieve]
  | @down _ child _ _ slot' rest =>
    rw [e.children] at slot'
    obtain rfl := l.child_unique above slot' slot (e.below.mp rest.reached) below
    have taken := rest.isExcluded_eq_false
    obtain ⟨r, node⟩ := Node.exists_of_isRange (isRange_includedRanges g scope child (among child mem))
    rw [e.taken child mem, node] at taken
    cases taken

/-- What a search without some ranges counts. -/
theorem counts_iff (l : g.Linked root) (above : g.Below root scope)
    (isRetrieve : (g.node scope).isRetrieve = true)
    (among : ∀ range ∈ dropped, range ∈ g.includedRanges scope) :
    h.Counts scope range id ↔ g.Counts scope range id ∧ ∀ range ∈ dropped, ¬ g.Below range id := by
  have reads : (∃ i, h.node id = .identifier i ∧ i.range = range) ↔
      ∃ i, g.node id = .identifier i ∧ i.range = range :=
    exists_congr fun _ => and_congr_left fun _ => e.identifier
  constructor
  · rintro ⟨regarded, isReader, apart⟩
    obtain ⟨regarded', outside⟩ := (e.regards_iff l above isRetrieve among).mp regarded
    refine ⟨⟨regarded', reads.mp isReader, fun join held below => ?_⟩, outside⟩
    exact apart join (e.join?_eq range ▸ held) (e.below.mpr below)
  · rintro ⟨⟨regarded, isReader, apart⟩, outside⟩
    refine ⟨(e.regards_iff l above isRetrieve among).mpr ⟨regarded, outside⟩, reads.mpr isReader,
      fun join held below => ?_⟩
    exact apart join (e.join?_eq range ▸ held) (e.below.mp below)

end Excludes

end Graph

end RangeQuery
