import RangeQuery.Proofs.Graph.References
import RangeQuery.Proofs.Scope.Binding

/-!
Readers in use. The search for readers of a range regards all that a scope reaches, apart from what
lies below an excluded range; inside a subquery it regards everything. It finds none exactly if each
identifier that it regards and that reads the range lies below the join predicate of the range.
-/

namespace RangeQuery

theorem total_eq_zero {counts : List Nat} : total counts = 0 ↔ ∀ count ∈ counts, count = 0 := by
  induction counts with
  | nil => simp [total]
  | cons first rest ih => simp [total, ih]

/-- A range that takes no part in the join. -/
def Node.isExcluded : Node → Bool
  | .range r => !r.included
  | _ => false

theorem Node.isExcluded_label (node : Node) : node.label.isExcluded = node.isExcluded := by
  cases node <;> rfl

theorem Node.isExcluded_of_range {node : Node} (h : node.isRange = true) :
    node.isExcluded = !node.isIncluded := by
  cases node <;> simp_all [isRange, isExcluded, isIncluded]

theorem Node.isExcluded_of_isRetrieve {node : Node} (h : node.isRetrieve = true) :
    node.isExcluded = false := by
  cases node <;> simp_all [isRetrieve, isExcluded]

theorem Node.isExcluded_of_isSubquery {node : Node} (h : node.isSubquery = true) :
    node.isExcluded = false := by
  cases node <;> simp_all [isSubquery, isExcluded]

namespace Graph

variable {g h : Graph} {root scope range id : NodeId}

/-! ## The search for readers -/

/-- Whether the search for readers of a range goes on below a node. -/
def opensReaders (g : Graph) (range id : NodeId) : Bool :=
  g.join? range != some id &&
    match g.node id with
    | .range r => r.included
    | .subquery _ | .identifier _ => false
    | _ => true

/-- Whether a node counts as a reader outside subqueries. -/
def isReader (g : Graph) (range id : NodeId) : Bool :=
  g.join? range != some id && (g.identifier? id).any fun i => i.range == range

/-- Whether the search puts a node aside as a subquery. -/
def isAside (g : Graph) (range id : NodeId) : Bool :=
  g.join? range != some id && (g.subquery? id).isSome

theorem foldl_seekReaders (range : NodeId) (ids : List NodeId) (found : Readers) :
    ids.foldl (fun found id => (g.seekReaders range found id).2) found =
      { direct := found.direct + ids.countP (g.isReader range)
        subqueries := (ids.filter (g.isAside range)).reverse ++ found.subqueries } := by
  induction ids generalizing found with
  | nil => simp
  | cons id rest ih =>
    rw [List.foldl_cons, ih, List.countP_cons, List.filter_cons]
    by_cases own : g.join? range = some id
    · simp [seekReaders, isReader, isAside, own]
    · cases node : g.node id with
      | identifier i =>
        by_cases reads : i.range = range <;>
          simp [seekReaders, isReader, isAside, own, node, identifier?, subquery?, reads]
        omega
      | _ => simp [seekReaders, isReader, isAside, own, node, identifier?, subquery?]

theorem readCount_eq (g : Graph) (scope range : NodeId) :
    g.readCount scope range =
      (g.preorder (g.opensReaders range) g.size scope).countP (g.isReader range) +
        total (((g.preorder (g.opensReaders range) g.size scope).filter
          (g.isAside range)).reverse.map (g.correlatedReads range)) := by
  have step : ∀ found id, g.seekReaders range found id =
      (if g.opensReaders range id then .descend else .skip,
        (g.seekReaders range found id).2) := by
    intro found id
    by_cases own : g.join? range = some id
    · simp [seekReaders, opensReaders, own]
    · cases node : g.node id <;> simp [seekReaders, opensReaders, own, node]
  unfold readCount
  rw [walk_eq_foldl (fun found id => (g.seekReaders range found id).2) step, foldl_seekReaders]
  simp

/-! ## What is between two nodes -/

/-- Between a node and one that it reaches there are only those that the trail comes through. -/
theorem Linked.mem_of_between (l : g.Linked root) {start between : NodeId} {trail : List NodeId}
    (above : g.Below root start) (way : g.Trail start trail id) (upper : g.Below start between)
    (lower : g.Below between id) : between ∈ id :: trail := by
  obtain ⟨top, first⟩ := above
  obtain ⟨front, upper⟩ := upper
  obtain ⟨back, lower⟩ := lower
  have same := l.trail_unique (first.append way) (first.append (upper.append lower))
  rw [List.append_cancel_right same, ← List.cons_append]
  exact List.mem_append_left _ (lower.getLast ▸ List.getLast_mem _)

/-! ## What the search regards -/

/-- What the search for readers regards from a node: it enters no excluded range, and inside a
subquery it regards everything. -/
inductive Regards (g : Graph) : NodeId → NodeId → Prop
  | here {id : NodeId} : (g.node id).isExcluded = false → Regards g id id
  | inside {subquery id : NodeId} : (g.node subquery).isSubquery = true → g.Below subquery id →
      Regards g subquery id
  | down {owner child id : NodeId} : (g.node owner).isExcluded = false →
      child ∈ g.children owner → Regards g child id → Regards g owner id

namespace Regards

variable {top middle : NodeId}

theorem reached (r : g.Regards top id) : g.Below top id := by
  induction r with
  | here _ => exact .refl g _
  | inside _ below => exact below
  | down _ slot _ ih => exact (below_of_child slot).trans ih

theorem isExcluded_eq_false (r : g.Regards top id) : (g.node top).isExcluded = false := by
  cases r with
  | here kept => exact kept
  | inside sub _ => exact Node.isExcluded_of_isSubquery sub
  | down kept _ _ => exact kept

theorem child (r : g.Regards top middle) {child : NodeId} (slot : child ∈ g.children middle)
    (kept : (g.node child).isExcluded = false) : g.Regards top child := by
  induction r with
  | here kept' => exact .down kept' slot (.here kept)
  | inside sub below => exact .inside sub (below.child slot)
  | down kept' slot' _ ih => exact .down kept' slot' (ih slot)

theorem below_subquery (r : g.Regards top middle) (sub : (g.node middle).isSubquery = true)
    (below : g.Below middle id) : g.Regards top id := by
  induction r with
  | here _ => exact .inside sub below
  | inside sub' below' => exact .inside sub' (below'.trans below)
  | down kept slot _ ih => exact .down kept slot (ih sub below)

end Regards

/-- What is reached is regarded or lies below an excluded range. -/
theorem Below.regards_or {top : NodeId} (below : g.Below top id) : g.Regards top id ∨
    ∃ other, g.Below top other ∧ g.Below other id ∧ (g.node other).isExcluded = true := by
  refine below.induction ?_ fun owner child reached ih slot => ?_
  · cases excluded : (g.node top).isExcluded with
    | true => exact .inr ⟨top, .refl g top, .refl g top, excluded⟩
    | false => exact .inl (.here excluded)
  · rcases ih with regarded | ⟨other, upper, lower, excluded⟩
    · cases excluded : (g.node child).isExcluded with
      | true => exact .inr ⟨child, reached.child slot, .refl g child, excluded⟩
      | false => exact .inl (regarded.child slot excluded)
    · exact .inr ⟨other, upper, lower.child slot, excluded⟩

/-- An identifier that the search from a scope counts as a reader of a range. -/
structure Counts (g : Graph) (scope range id : NodeId) : Prop where
  regarded : g.Regards scope id
  reads : ∃ i, g.node id = .identifier i ∧ i.range = range
  apart : ∀ join ∈ g.join? range, ¬ g.Below join id

theorem isExcluded_of_opensReaders (opened : g.opensReaders range id = true) :
    (g.node id).isExcluded = false := by
  cases node : g.node id <;> simp_all [opensReaders, Node.isExcluded]

theorem opensReaders_of_child {owner child : NodeId} (free : (g.join? range != some owner) = true)
    (kept : (g.node owner).isExcluded = false) (other : (g.node owner).isSubquery = false)
    (slot : child ∈ g.children owner) : g.opensReaders range owner = true := by
  rw [opensReaders, free, Bool.true_and]
  rw [children] at slot
  cases node : g.node owner with
  | range r => simpa [node, Node.isExcluded] using kept
  | subquery s =>
    rw [node] at other
    cases other
  | identifier i =>
    rw [node] at slot
    cases slot
  | _ => rfl

theorem regards_of_trail {top : NodeId} {trail : List NodeId} (way : g.Trail top trail id)
    (opened : ∀ owner ∈ trail, g.opensReaders range owner = true)
    (kept : (g.node id).isExcluded = false) : g.Regards top id := by
  induction way with
  | here => exact .here kept
  | down _ slot ih =>
    have above := ih (fun owner on => opened owner (List.mem_cons_of_mem _ on))
      (isExcluded_of_opensReaders (opened _ (by simp)))
    exact above.child slot kept

/-- What is regarded is met itself, unless it lies below the join predicate of the range or in a
subquery that is met. -/
theorem Regards.met {top : NodeId} (r : g.Regards top id)
    (apart : ∀ join ∈ g.join? range, ¬ g.Below join id) :
    (∃ trail, g.Trail top trail id ∧ ∀ owner ∈ trail, g.opensReaders range owner = true) ∨
      ∃ subquery trail, g.Trail top trail subquery ∧
        (∀ owner ∈ trail, g.opensReaders range owner = true) ∧
        g.isAside range subquery = true ∧ g.Below subquery id := by
  have free : ∀ {owner}, g.Below owner id → (g.join? range != some owner) = true :=
    fun below => bne_iff_ne.mpr fun held => apart _ held below
  have aside : ∀ {owner}, (g.node owner).isSubquery = true → g.Below owner id →
      g.isAside range owner = true := fun sub below => by
    obtain ⟨s, node⟩ := Node.exists_of_isSubquery sub
    simp [isAside, free below, subquery?, node]
  induction r with
  | here _ => exact .inl ⟨[], .here, by simp⟩
  | inside sub below => exact .inr ⟨_, [], .here, by simp, aside sub below, below⟩
  | @down owner child id kept slot inner ih =>
    have below := (below_of_child slot).trans inner.reached
    cases sub : (g.node owner).isSubquery with
    | true => exact .inr ⟨owner, [], .here, by simp, aside sub below, below⟩
    | false =>
      have opens := opensReaders_of_child (free below) kept sub slot
      have onward : ∀ {trail : List NodeId}, (∀ other ∈ trail, g.opensReaders range other = true) →
          ∀ other ∈ trail ++ [owner], g.opensReaders range other = true := by
        intro trail opened other on
        rcases List.mem_append.mp on with on | on
        · exact opened other on
        · rw [List.mem_singleton.mp on, opens]
      rcases ih apart free aside with ⟨trail, way, opened⟩ | ⟨subquery, trail, way, opened, rest⟩
      · exact .inl ⟨_, (Trail.here.down slot).append way, onward opened⟩
      · exact .inr ⟨subquery, _, (Trail.here.down slot).append way, onward opened, rest⟩

/-- A subquery that is no scope of the range has correlated readers exactly if something below it
reads the range. -/
theorem Linked.correlatedReads_eq_zero (l : g.Linked root) {subquery : NodeId}
    (above : g.Below root subquery) (sub : (g.node subquery).isSubquery = true)
    (foreign : range ∉ (g.node subquery).declared) :
    g.correlatedReads range subquery = 0 ↔ ¬ g.Reads subquery range := by
  obtain ⟨s, node⟩ := Node.exists_of_isSubquery sub
  rw [node] at foreign
  have out : s.ranges.contains range = false := by
    rw [← Bool.not_eq_true, List.contains_iff_mem]
    exact foreign
  simp only [correlatedReads, subquery?, node, out, Bool.false_eq_true, if_false,
    List.countP_eq_zero, beq_iff_eq, ← l.mem_rangesOf_identifiersUnder above]
  exact ⟨fun none mem => none range mem rfl, fun out other mem same => out (same ▸ mem)⟩

/-- What lies below a node that the search comes to does not lie below the join predicate of the
range, unless the predicate lies below the node. -/
theorem Linked.apart_of_opened (l : g.Linked root) (above : g.Below root scope) {middle : NodeId}
    {trail : List NodeId} (way : g.Trail scope trail middle)
    (opened : ∀ owner ∈ trail, g.opensReaders range owner = true) (owned : g.Below scope range)
    (outside : ∀ join ∈ g.join? range, ¬ g.Below middle join) (below : g.Below middle id) :
    ∀ join ∈ g.join? range, ¬ g.Below join id := by
  intro join held lower
  have upper := owned.child (mem_children_of_join? held)
  obtain ⟨rest, further⟩ := below
  have on := l.mem_of_between above (way.append further) upper lower
  rw [← List.cons_append, List.mem_append, List.mem_cons] at on
  rcases on with (rfl | on) | on
  · exact outside join held ⟨rest, further⟩
  · exact outside join held (further.below_of_mem on).1
  · have opens := opened join on
    simp [opensReaders, Option.mem_def.mp held] at opens

/-- The search from a scope counts no reader exactly if there is none. -/
theorem Linked.readCount_eq_zero (l : g.Linked root) (above : g.Below root scope)
    (isRetrieve : (g.node scope).isRetrieve = true) (declared : range ∈ (g.node scope).declared) :
    g.readCount scope range = 0 ↔ ∀ id, ¬ g.Counts scope range id := by
  have owned : g.Below scope range := below_of_child (declared_subset_children _ declared)
  have foreign : ∀ {subquery}, g.Below scope subquery → (g.node subquery).isSubquery = true →
      range ∉ (g.node subquery).declared := by
    intro subquery below sub again
    have same := l.declared_unique above (above.trans below) declared again
    subst same
    obtain ⟨s, node⟩ := Node.exists_of_isSubquery sub
    rw [node] at isRetrieve
    cases isRetrieve
  have isSub : ∀ {subquery}, g.isAside range subquery = true →
      (g.node subquery).isSubquery = true ∧ g.join? range ≠ some subquery := by
    intro subquery aside
    simp only [isAside, Bool.and_eq_true, bne_iff_ne] at aside
    refine ⟨?_, aside.1⟩
    cases node : g.node subquery <;> simp_all [subquery?, Node.isSubquery]
  simp only [readCount_eq, Nat.add_eq_zero_iff, List.countP_eq_zero, total_eq_zero, List.mem_map,
    List.mem_reverse, List.mem_filter, l.mem_preorder above]
  constructor
  · rintro ⟨direct, aside⟩ id ⟨regarded, ⟨i, node, reads⟩, apart⟩
    rcases regarded.met apart with ⟨trail, way, opened⟩ | ⟨subquery, trail, way, opened, met, below⟩
    · refine direct id ⟨trail, way, opened⟩ ?_
      have own : g.join? range ≠ some id := fun held => apart id held (.refl g id)
      simp [isReader, own, identifier?_eq node, reads]
    · have none := aside _ ⟨subquery, ⟨⟨trail, way, opened⟩, met⟩, rfl⟩
      have reached : g.Below scope subquery := ⟨trail, way⟩
      rw [l.correlatedReads_eq_zero (above.trans reached) (isSub met).1
        (foreign reached (isSub met).1)] at none
      exact none ⟨id, i, below, node, reads⟩
  · intro none
    constructor
    · rintro id ⟨trail, way, opened⟩ reader
      simp only [isReader, Bool.and_eq_true, bne_iff_ne, Option.any_eq_true, beq_iff_eq] at reader
      obtain ⟨other, i, found, reads⟩ := reader
      have node := node_of_identifier? found
      refine none id ⟨regards_of_trail way opened (by rw [node]; rfl), ⟨i, node, reads⟩,
        l.apart_of_opened above way opened owned (fun join held below => ?_) (.refl g id)⟩
      rcases below.eq_or_child with rfl | ⟨child, slot, -⟩
      · exact other held
      · simp [children, node, Node.children] at slot
    · rintro _ ⟨subquery, ⟨⟨trail, way, opened⟩, met⟩, rfl⟩
      obtain ⟨sub, other⟩ := isSub met
      have reached : g.Below scope subquery := ⟨trail, way⟩
      rw [l.correlatedReads_eq_zero (above.trans reached) sub (foreign reached sub)]
      rintro ⟨id, i, below, node, reads⟩
      have regarded := regards_of_trail way opened (Node.isExcluded_of_isSubquery sub)
      refine none id ⟨regarded.below_subquery sub below, ⟨i, node, reads⟩,
        l.apart_of_opened above way opened owned (fun join held lower => ?_) below⟩
      -- The scope and the range are all that lies above the predicate in the scope.
      have ofScope := declared_subset_children _ declared
      have ofRange := mem_children_of_join? held
      have on := l.mem_of_between above ((Trail.here.down ofScope).down ofRange) reached lower
      simp only [List.mem_cons, List.not_mem_nil, or_false] at on
      rcases on with rfl | rfl | rfl
      · exact other held
      · obtain ⟨s, node'⟩ := Node.exists_of_isSubquery sub
        simp [join?, range?, node'] at held
      · obtain ⟨s, node'⟩ := Node.exists_of_isSubquery sub
        rw [node'] at isRetrieve
        cases isRetrieve

end Graph

end RangeQuery
