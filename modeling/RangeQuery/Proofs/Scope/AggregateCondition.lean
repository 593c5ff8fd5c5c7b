import RangeQuery.Proofs.Scope.AnyTest
import RangeQuery.Proofs.Scope.ConditionFolding

/-!
Aggregates that lose their conditions. An aggregate that becomes a subquery leaves its place to one
over copies of the ranges it reads; the value of a scalar subquery is a copy of its operand.
-/

namespace RangeQuery

namespace Graph

variable {g h : Graph} {roots zone : Set NodeId} {level : NodeId → List NodeId}

/-- A scalar subquery is built over a correlated scope and an aggregate without a condition. -/
structure Valued (g : Graph) (metadata : Metadata) (ranges : List NodeId) (a : Aggregate)
    (h : Graph) (sub : CorrelatedScope) (zone : Set NodeId) (level : NodeId → List NodeId)
    (k : Graph) (value : NodeId) : Prop where
  correlated : Correlated g metadata ranges a.operand a.condition h sub zone level
  graph_eq : k = ((h.copyWith a.operand sub.copies).1.add (.aggregate
    { function := a.function, operand := (h.copyWith a.operand sub.copies).2, condition := none })).1
  value_eq : value = (h.copyWith a.operand sub.copies).1.next

namespace Valued

variable {metadata : Metadata} {ranges : List NodeId} {a : Aggregate} {sub : CorrelatedScope}
  {k : Graph} {value : NodeId} (v : Valued g metadata ranges a h sub zone level k value)

include v

/-- The operand is copied and aggregated beside the correlated scope. -/
theorem grown : Extends h k := by
  have tree := h.forest_copyWith a.operand sub.copies
  rw [v.graph_eq]
  refine tree.beside.add _ fun child slot had => ?_
  obtain rfl : child = (h.copyWith a.operand sub.copies).2 := by simpa [Node.children] using slot
  exact tree.fresh _ (by simp) (Below.refl _ _) had

theorem beside : Extends g k := v.correlated.beside.trans v.grown

/-- The parts of the scalar subquery are in order: those of the correlated scope, on the levels that
they have there, the copied operand and the aggregate over it. -/
theorem inOrder : ∃ level', k.Zone ∅ ∅ (insert value (zone ∪
      {id | (h.copyWith a.operand sub.copies).1.Below (h.copyWith a.operand sub.copies).2 id}))
      level' ∧
    (∀ id ∈ insert value (zone ∪
      {id | (h.copyWith a.operand sub.copies).1.Below (h.copyWith a.operand sub.copies).2 id}),
      ¬ g.Has id) ∧
    (∀ id ∈ sub.ranges ++ [value] ++ sub.condition.toList, k.Ready ∅ ∅ (insert value (zone ∪
      {id | (h.copyWith a.operand sub.copies).1.Below (h.copyWith a.operand sub.copies).2 id}))
      level' [] id) ∧
    (sub.ranges ++ [value] ++ sub.condition.toList).Nodup ∧ (∀ id ∈ zone, level' id = level id) ∧
    ∀ {trail id}, (h.copyWith a.operand sub.copies).1.Trail (h.copyWith a.operand sub.copies).2 trail id →
      level' id = (h.copyWith a.operand sub.copies).1.scopesAmong (id :: trail) := by
  have tree := h.forest_copyWith a.operand sub.copies
  obtain ⟨z', top⟩ := tree.inOrder
  have fresh : ∀ id ∈ {id | (h.copyWith a.operand sub.copies).1.Below
      (h.copyWith a.operand sub.copies).2 id}, ¬ h.Has id := fun _ below =>
    tree.fresh _ (by simp) below
  have z := v.correlated.inOrder
  have both := (z.beside tree.beside z' fresh).levelWith []
  have operand := (z.beside tree.beside z' fresh).readyWith []
    (top.besideNew z tree.beside fresh)
  generalize copied : h.copyWith a.operand sub.copies = result at *
  obtain ⟨h', copy⟩ := result
  have on : h'.levelWith (h.levelBeside level (h'.levelFrom {copy})) [] h'.next = [] :=
    levelWith_of_not_has h'.not_has_next []
  have slots : ∀ {child}, child ∈ (Node.aggregate
      { function := a.function, operand := copy, condition := none }).children → child = copy := by
    simp [Node.children]
  have ready : ∀ child ∈ (Node.aggregate
      { function := a.function, operand := copy, condition := none }).children,
      h'.Ready ∅ ∅ (zone ∪ {id | h'.Below copy id})
        (h'.levelWith (h.levelBeside level (h'.levelFrom {copy})) [])
        (h'.levelWith (h.levelBeside level (h'.levelFrom {copy})) [] h'.next) child := by
    intro child slot
    rw [on, slots slot]
    exact operand
  have graph := v.graph_eq
  rw [copied] at graph
  have parts : (sub.ranges ++ [value] ++ sub.condition.toList).Perm
      (value :: (sub.ranges ++ sub.condition.toList)) := by
    rw [List.append_assoc]
    exact List.perm_middle
  have isNext : value = h'.next := by rw [v.value_eq, copied]
  have old : ∀ {id}, id ∈ sub.ranges ++ sub.condition.toList → h.Has id := fun mem =>
    z.has (v.correlated.ready mem).mem
  subst isNext
  refine ⟨_, graph ▸ both.add _ ready (by simp [Node.children]), ?_, fun id mem => ?_, ?_,
    fun id mem => ?_, fun {trail id} way => ?_⟩
  · rintro id (rfl | mem | mem) had
    · exact h'.not_has_next (tree.beside.has (v.correlated.beside.has had))
    · exact v.correlated.fresh mem had
    · exact fresh id mem (v.correlated.beside.has had)
  · rw [graph]
    rcases List.mem_cons.mp (parts.mem_iff.mp mem) with rfl | mem
    · exact both.ready_next _ [] (fun child slot => (ready child slot).mem) (by rw [on]; rfl)
    · have part := (v.correlated.ready mem).beside z tree.beside z' fresh
      refine both.ready_add _ ((z.beside tree.beside z' fresh).readyWith [] part) fun slot => ?_
      exact fresh copy top.mem (slots slot ▸ old mem)
  · refine parts.nodup_iff.mpr (List.nodup_cons.mpr ⟨fun mem => ?_, v.correlated.nodup⟩)
    exact h'.not_has_next (tree.beside.has (old mem))
  · rw [levelWith_of_has (tree.beside.has (z.has mem)), levelBeside_of_has (z.has mem)]
  · have linked := tree.linked copy (by simp)
    rw [levelWith_of_has (linked.has_of_below ⟨trail, way⟩),
      levelBeside_of_not_has (fresh id ⟨trail, way⟩)]
    exact linked.level_of_trail way

end Valued

/-- What may become of an aggregate that a subquery is wanted for: one over the ranges that it reads. -/
inductive Wrapped (g : Graph) (metadata : Metadata) (ranges : List NodeId) (id : NodeId) :
    Graph → Bool → Prop
  | left {h : Graph} : Extends g h → Wrapped g metadata ranges id h false
  | tested {h : Graph} {a : Aggregate} {sub : CorrelatedScope} {zone : Set NodeId}
      {level : NodeId → List NodeId} {used : List NodeId} (kind : SubqueryKind) :
      g.node id = .aggregate a → used = ranges.filter (g.referencedRanges id).contains →
      Correlated g metadata used a.operand a.condition h sub zone level →
      Wrapped g metadata ranges id (h.replaceBySubquery id kind none sub) true
  | valued {h k : Graph} {a : Aggregate} {sub : CorrelatedScope} {zone : Set NodeId}
      {level : NodeId → List NodeId} {used : List NodeId} {value : NodeId} :
      g.node id = .aggregate a → used = ranges.filter (g.referencedRanges id).contains →
      Valued g metadata used a h sub zone level k value →
      Wrapped g metadata ranges id (k.replaceBySubquery id .scalar (some value) sub) true

theorem wrapped_wrapAggregate (metadata : Metadata) {ranges : List NodeId}
    (isRange : ∀ range ∈ ranges, (g.node range).isRange = true) (id : NodeId)
    (site : ExpressionSite) : Wrapped g metadata ranges id
      (g.wrapAggregate metadata ranges id site).1 (g.wrapAggregate metadata ranges id site).2 := by
  unfold wrapAggregate
  split
  · exact .left (.refl g)
  · next a found =>
    have node := node_of_aggregate? found
    dsimp only
    obtain ⟨beside, found⟩ := g.correlate_cases metadata
      (fun range mem => isRange range (List.mem_filter.mp mem).1) a.operand a.condition
    split
    · next correlated =>
      rw [correlated] at beside
      exact .left beside
    · next h sub correlated =>
      rw [correlated] at beside found
      obtain ⟨zone, level, c⟩ := found sub rfl
      dsimp only [aggregateSubquery]
      split
      · exact .tested _ node rfl c
      · exact .valued node rfl ⟨c, rfl, rfl⟩

/-- What becomes of an aggregate widens a zone. -/
theorem Zone.wrapped (z : g.Zone roots ∅ zone level) {metadata : Metadata} {ranges : List NodeId}
    {id : NodeId} {wrapped : Bool} (w : Wrapped g metadata ranges id h wrapped) :
    Widens g h roots zone level := by
  cases w with
  | left beside => exact beside.widens z
  | tested kind node _ c =>
    exact z.widensBySubquery c.beside c.inOrder (fun _ => c.fresh) node
      (by simpa using fun id => c.ready) (by simpa using c.nodup)
  | valued node _ v =>
    obtain ⟨level', z', fresh, ready, nodup, -⟩ := v.inOrder
    exact z.widensBySubquery v.beside z' fresh node ready nodup

end Graph

open RangeQuery.Graph

theorem Placed.wrapped {α : Type} {view : Node → α} (placed : Placed view) {g h : Graph}
    {metadata : Metadata} {ranges : List NodeId} {id : NodeId} {wrapped : Bool}
    (w : Wrapped g metadata ranges id h wrapped) : Same view g h := by
  cases w with
  | left beside => exact beside.same
  | tested kind _ _ c => exact c.beside.same.trans (placed.replaceBySubquery _ id _ _ _)
  | valued _ _ v => exact v.beside.same.trans (placed.replaceBySubquery _ id _ _ _)

namespace Graph

variable {g h : Graph} {roots zone : Set NodeId} {level : NodeId → List NodeId}

theorem Keeps.wrapped {metadata : Metadata} {ranges : List NodeId} {id : NodeId} {wrapped : Bool}
    (w : Wrapped g metadata ranges id h wrapped) : Keeps g h := by
  cases w with
  | left beside => exact .of_extends beside
  | @tested h a sub zone level used kind node _ c =>
    refine (Keeps.of_extends c.beside).trans (.replaceBySubquery (a := a) ?_ kind none sub)
    rw [c.beside.node (has_of_aggregate node), node]
  | @valued h k a sub zone level used value node _ v =>
    refine (Keeps.of_extends v.beside).trans
      (.replaceBySubquery (a := a) ?_ .scalar (some value) sub)
    rw [v.beside.node (has_of_aggregate node), node]

/-! ## All aggregates of a scope -/

/-- What becomes of one aggregate: a subquery, if one is wanted and can be built, else its
condition is folded. -/
def freeOne (g : Graph) (metadata : Metadata) (strategy : AggregateStrategy)
    (ranges : List NodeId) (id : NodeId) (site : ExpressionSite) : Graph × Bool :=
  let (g, wrapped) :=
    if strategy g id then g.wrapAggregate metadata ranges id site else (g, false)
  if wrapped then (g, true) else g.foldCondition id

theorem freeAggregate_cons (g : Graph) (metadata : Metadata) (strategy : AggregateStrategy)
    (ranges : List NodeId) (id : NodeId) (site : ExpressionSite)
    (rest : List (NodeId × ExpressionSite)) :
    (freeAggregate metadata strategy ranges g ((id, site) :: rest)).1 =
      (freeAggregate metadata strategy ranges
        (g.freeOne metadata strategy ranges id site).1 rest).1 := rfl

/-- What becomes of one aggregate, by what may. -/
theorem freeOne_cases (metadata : Metadata) (strategy : AggregateStrategy) {ranges : List NodeId}
    (isRange : ∀ range ∈ ranges, (g.node range).isRange = true) (id : NodeId)
    (site : ExpressionSite) :
    Wrapped g metadata ranges id (g.freeOne metadata strategy ranges id site).1 true ∨
      ∃ h, Wrapped g metadata ranges id h false ∧
        (g.freeOne metadata strategy ranges id site).1 = (h.foldCondition id).1 := by
  have result : Wrapped g metadata ranges id
      (if strategy g id then g.wrapAggregate metadata ranges id site else (g, false)).1
      (if strategy g id then g.wrapAggregate metadata ranges id site else (g, false)).2 := by
    split
    · exact wrapped_wrapAggregate metadata isRange id site
    · exact .left (.refl g)
  unfold freeOne
  generalize (if strategy g id then g.wrapAggregate metadata ranges id site else (g, false)) =
    pair at result
  obtain ⟨h, wrapped⟩ := pair
  cases wrapped with
  | true => exact .inl result
  | false => exact .inr ⟨h, result, rfl⟩

section

variable (metadata : Metadata) (strategy : AggregateStrategy) {ranges : List NodeId}

theorem same_freeOne {α : Type} {view : Node → α} (placed : Placed view)
    (isRange : ∀ range ∈ ranges, (g.node range).isRange = true) (id : NodeId)
    (site : ExpressionSite) : Same view g (g.freeOne metadata strategy ranges id site).1 := by
  rcases freeOne_cases metadata strategy isRange id site with wrapped | ⟨h, wrapped, same⟩
  · exact placed.wrapped wrapped
  · rw [same]
    exact (placed.wrapped wrapped).trans (placed.foldCondition h id)

theorem Zone.freeOne (z : g.Zone roots ∅ zone level)
    (isRange : ∀ range ∈ ranges, (g.node range).isRange = true) {id : NodeId} (mem : id ∈ zone)
    (site : ExpressionSite) :
    Widens g (g.freeOne metadata strategy ranges id site).1 roots zone level := by
  rcases freeOne_cases metadata strategy isRange id site with wrapped | ⟨h, wrapped, same⟩
  · exact z.wrapped wrapped
  · rw [same]
    exact (z.wrapped wrapped).trans (Node.formal_stamp.toPlaced.wrapped wrapped).size
      (Node.formal_stamp.toPlaced.foldCondition h id) fun z' larger =>
        (z'.foldCondition (larger mem)).widens

theorem Keeps.freeOne (isRange : ∀ range ∈ ranges, (g.node range).isRange = true) (id : NodeId)
    (site : ExpressionSite) : Keeps g (g.freeOne metadata strategy ranges id site).1 := by
  rcases freeOne_cases metadata strategy isRange id site with wrapped | ⟨h, wrapped, same⟩
  · exact .wrapped wrapped
  · rw [same]
    exact (Keeps.wrapped wrapped).trans (.foldCondition h id)

theorem same_freeAggregate {α : Type} {view : Node → α} (placed : Placed view)
    (isRange : ∀ range ∈ ranges, (g.node range).isRange = true)
    (sites : List (NodeId × ExpressionSite)) :
    Same view g (freeAggregate metadata strategy ranges g sites).1 := by
  induction sites generalizing g with
  | nil => exact .refl view g
  | cons first rest ih =>
    have stamp := same_freeOne metadata strategy Node.formal_stamp.toPlaced isRange first.1 first.2
    exact (same_freeOne metadata strategy placed isRange first.1 first.2).trans
      (ih fun range mem => stamp.isRange_mono (isRange range mem))

theorem Zone.freeAggregate (z : g.Zone roots ∅ zone level)
    (isRange : ∀ range ∈ ranges, (g.node range).isRange = true)
    {sites : List (NodeId × ExpressionSite)} (mem : ∀ site ∈ sites, site.1 ∈ zone) :
    Widens g (Graph.freeAggregate metadata strategy ranges g sites).1 roots zone level := by
  induction sites generalizing g zone level with
  | nil => exact (Enlarges.refl z).widens
  | cons first rest ih =>
    have stamp := same_freeOne metadata strategy Node.formal_stamp.toPlaced isRange first.1 first.2
    have isRange' : ∀ range ∈ ranges,
        ((g.freeOne metadata strategy ranges first.1 first.2).1.node range).isRange = true :=
      fun range mem => stamp.isRange_mono (isRange range mem)
    exact (z.freeOne metadata strategy isRange (mem first (by simp)) first.2).trans stamp.size
      (same_freeAggregate metadata strategy Node.formal_stamp.toPlaced isRange' rest)
      fun z' larger => ih z' isRange' fun site later => larger (mem site (by simp [later]))

theorem Keeps.freeAggregate (isRange : ∀ range ∈ ranges, (g.node range).isRange = true)
    (sites : List (NodeId × ExpressionSite)) :
    Keeps g (Graph.freeAggregate metadata strategy ranges g sites).1 := by
  induction sites generalizing g with
  | nil => exact .refl g
  | cons first rest ih =>
    have keeps := Keeps.freeOne metadata strategy isRange first.1 first.2
    exact keeps.trans (ih fun range mem => keeps.stamp.isRange_mono (isRange range mem))

end

/-- The sites of the aggregates of a scope are found from its clauses. -/
theorem exists_clause_of_mem_aggregateSites {r : Retrieve} {site : NodeId × ExpressionSite}
    (mem : site ∈ g.aggregateSites r) :
    ∃ start ∈ r.values ++ r.condition.toList ++ r.sort.map (·.expression),
      site.1 ∈ g.conditionalAggregates start := by
  simp only [aggregateSites, List.mem_append, List.mem_map, List.mem_flatMap] at mem
  rcases mem with (⟨id, ⟨start, value, found⟩, rfl⟩ | ⟨id, ⟨start, filter, found⟩, rfl⟩) |
    ⟨id, ⟨start, ⟨item, sort, rfl⟩, found⟩, rfl⟩
  · exact ⟨start, by simp [value], found⟩
  · exact ⟨start, by simp [Option.mem_toList.mp filter], found⟩
  · exact ⟨item.expression, List.mem_append_right _ (List.mem_map.mpr ⟨item, sort, rfl⟩), found⟩

/-- The sites of the aggregates of a scope lie below it. -/
theorem below_of_mem_aggregateSites {scope : NodeId} {site : NodeId × ExpressionSite}
    (mem : site ∈ g.aggregateSites (g.scope scope)) : g.Below scope site.1 := by
  obtain ⟨start, clause, found⟩ := exists_clause_of_mem_aggregateSites mem
  have slot : start ∈ (Node.retrieve (g.scope scope)).children := by
    simp only [Node.children, List.append_assoc] at clause ⊢
    exact List.mem_append_right _ clause
  exact (below_of_child (g.children_scope_subset scope slot)).trans
    (below_of_mem_conditionalAggregates found)

theorem isConditional_of_mem_aggregateSites {r : Retrieve} {site : NodeId × ExpressionSite}
    (mem : site ∈ g.aggregateSites r) : (g.node site.1).isConditional = true := by
  obtain ⟨start, -, found⟩ := exists_clause_of_mem_aggregateSites mem
  rw [conditionalAggregates_eq] at found
  exact (List.mem_filter.mp found).2

/-- Freeing the aggregates of a scope widens a zone. -/
theorem Zone.freeAggregates (z : g.Zone roots ∅ zone level) (metadata : Metadata)
    (strategy : AggregateStrategy) {scope : NodeId} (mem : scope ∈ zone) :
    Widens g (g.freeAggregates metadata strategy scope).1 roots zone level := by
  unfold Graph.freeAggregates
  dsimp only
  split
  · exact (z.freeAggregatesOfOne mem).widens
  · exact z.freeAggregate metadata strategy
      (g.isRange_includedRanges scope) fun site found =>
        z.mem_of_below mem (below_of_mem_aggregateSites (List.mem_reverse.mp found))

theorem Keeps.freeAggregates (g : Graph) (metadata : Metadata) (strategy : AggregateStrategy)
    (scope : NodeId) : Keeps g (g.freeAggregates metadata strategy scope).1 := by
  unfold Graph.freeAggregates
  dsimp only
  split
  · exact .freeAggregatesOfOne g scope
  · exact .freeAggregate metadata strategy
      (g.isRange_includedRanges scope) _

end Graph

theorem Placed.freeAggregates {α : Type} {view : Node → α} (placed : Placed view) (g : Graph)
    (metadata : Metadata) (strategy : AggregateStrategy) (scope : NodeId) :
    Same view g (g.freeAggregates metadata strategy scope).1 := by
  unfold Graph.freeAggregates
  dsimp only
  split
  · exact placed.freeAggregatesOfOne g scope
  · exact same_freeAggregate metadata strategy placed
      (g.isRange_includedRanges scope) _

end RangeQuery
