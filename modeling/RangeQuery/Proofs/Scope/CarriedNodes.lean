import RangeQuery.Proofs.Scope.AggregateCondition
import RangeQuery.Proofs.Scope.JoinedCopies
import RangeQuery.Proofs.Scope.MetNodes
import RangeQuery.Proofs.Scope.StandingAnys

/-!
What is copied into the subquery that takes the place of an aggregate: the ranges that the aggregate
reads, its condition and its operand. Nothing with a condition is met in the parts of the subquery, if
nothing is in what was copied.
-/

namespace RangeQuery

namespace Graph

variable {g h : Graph} {closed closed' : Set NodeId} {live : List NodeId} {a : Aggregate}
  {id copy : NodeId}

/-- For a subquery in the place of an aggregate a node is copied, in a range that is live there, in the
condition, or in the operand, which is copied after all else was built. -/
inductive CopiedFor (g h : Graph) (live : List NodeId) (a : Aggregate) (old new : NodeId) : Prop
  | range {range copy : NodeId} : (range, copy) ∈ (g.copyRanges live).2 →
      SamePlace g (g.copyRanges live).1 range copy old new → CopiedFor g h live a old new
  | condition {filter copy : NodeId} : a.condition = some filter →
      (g.ownCopied live a.condition).2 = some copy →
      SamePlace g (g.ownCopied live a.condition).1 filter copy old new →
      CopiedFor g h live a old new
  | operand : a.function ≠ .any →
      SamePlace g (h.copyWith a.operand (g.copyOf live)).1 a.operand
        (h.copyWith a.operand (g.copyOf live)).2 old new →
      CopiedFor g h live a old new

/-- Some node with a condition is met from one of some nodes. -/
def MeetsConditional (g : Graph) (closed : Set NodeId) (tops : List NodeId) : Prop :=
  ∃ top ∈ tops, ∃ id, g.Meets closed top id ∧ (g.node id).isConditional = true

theorem MeetsConditional.mono {tops tops' : List NodeId} (meets : g.MeetsConditional closed tops)
    (sub : tops ⊆ tops') : g.MeetsConditional closed tops' := by
  obtain ⟨top, mem, met⟩ := meets
  exact ⟨top, sub mem, met⟩

/-- The join predicates of two ranges are in the same place. -/
theorem zip_children_of_join? {range join join' : NodeId} (held : g.join? range = some join)
    (held' : h.join? copy = some join') :
    (join, join') ∈ (g.children range).zip (h.children copy) := by
  obtain ⟨r, node⟩ := Node.exists_of_isRange (isRange_of_join? held)
  obtain ⟨r', node'⟩ := Node.exists_of_isRange (isRange_of_join? held')
  rw [join?_eq node] at held
  rw [join?_eq node'] at held'
  simp [children, node, node', Node.children, held, held']

/-! ## Copied ranges and conditions -/

theorem mirrors_copyRanges (acyclic : ∀ id ∈ live, g.Acyclic id) {range : NodeId}
    (pair : (range, copy) ∈ (g.copyRanges live).2) :
    ∃ target, Mirrors g (g.copyRanges live).1 target range copy := by
  have each : List.Forall₂ (fun range copy => ∃ target,
      Echoes g (g.copyRanges live).1 target range copy) ((g.copyRanges live).2.map (·.1))
      ((g.copyRanges live).2.map (·.2)) := by
    rw [fst_copyRanges]
    exact exists_echo_copyRanges live acyclic
  rw [List.forall₂_map_left_iff, List.forall₂_map_right_iff, List.forall₂_same] at each
  obtain ⟨target, echo⟩ := each _ pair
  exact ⟨target, echo.mirrors⟩

section

variable (isRange : ∀ id ∈ live, (g.node id).isRange = true) (acyclic : ∀ id ∈ live, g.Acyclic id)
  (carry : ∀ old new, CopiedFor g h live a old new → old ∈ closed → new ∈ closed')

include isRange acyclic carry

/-- What is met in the join predicate of a copied range is met in the range. -/
theorem meetsConditional_of_rebound {join : NodeId} (mem : copy ∈ g.liveCopies live)
    (held : (g.rebound live).join? copy = some join) (met : (g.rebound live).Meets closed' join id)
    (conditional : ((g.rebound live).node id).isConditional = true) :
    g.MeetsConditional closed live := by
  obtain ⟨⟨range, _⟩, pair, rfl⟩ := List.mem_map.mp mem
  have among : range ∈ live := by
    rw [← g.fst_copyRanges live]
    exact List.mem_map.mpr ⟨_, pair, rfl⟩
  obtain ⟨r, node⟩ := Node.exists_of_isRange (isRange range among)
  obtain ⟨target, mirrors⟩ := mirrors_copyRanges acyclic pair
  have forest := g.forest_copyRanges live
  obtain ⟨joins, -⟩ := mirrors.rebindJoins forest.linked (isRange_copyRanges isRange) (g.copyOf live)
    forest.nodup mem node
  obtain ⟨old, held', mirror⟩ := exists_of_forall₂ joins (Option.mem_toList.mpr held)
  obtain ⟨origin, met, same⟩ := mirror.exists_met met fun origin image place inClosed => by
    have labels := Relabels.rebindJoins (g.copyRanges live).1 (g.copyOf live) (g.liveCopies live)
    have slots := zip_children_of_join? ((join?_eq node).trans (Option.mem_toList.mp held')) held
    have inRange := ((SamePlace.down .top slots).trans place).of_children fun id =>
      (labels.children id).symm
    exact carry origin image (.range pair inRange) inClosed
  refine ⟨range, among, origin, .of_child ?_ ?_ met, same ▸ conditional⟩
  · rw [node]
    rfl
  · rwa [node]

omit isRange acyclic in
/-- What is met in the copied condition is met in the condition. -/
theorem meetsConditional_of_ownCopied {filter : NodeId} (held : a.condition = some filter)
    (acyclic : g.Acyclic filter) (own : (g.ownCopied live a.condition).2 = some copy)
    (met : (g.ownCopied live a.condition).1.Meets closed' copy id)
    (conditional : ((g.ownCopied live a.condition).1.node id).isConditional = true) :
    g.MeetsConditional closed a.condition.toList := by
  have beside := (Sealed.splitCopies g live).1.toExtends
  have mirrors := (mirrors_copyWith (acyclic.of_same beside.same) (g.copyOf live)).shrink beside
    acyclic.grounded
  have copied : g.ownCopied live a.condition =
      (((g.splitCopies live).1.copyWith filter (g.copyOf live)).1,
        some ((g.splitCopies live).1.copyWith filter (g.copyOf live)).2) := by
    rw [ownCopied, held]
    rfl
  obtain rfl : _ = copy := Option.some.inj ((congrArg Prod.snd copied).symm.trans own)
  have graph := congrArg Prod.fst copied
  rw [← graph] at mirrors
  obtain ⟨origin, met, same⟩ := mirrors.exists_met met fun origin image place inClosed =>
    carry origin image (.condition held own place) inClosed
  exact ⟨filter, Option.mem_toList.mpr held, origin, met, same ▸ conditional⟩

end

/-! ## The parts of the subquery -/

section

variable (isRange : ∀ id ∈ live, (g.node id).isRange = true)
  (acyclic : ∀ id ∈ live ++ a.condition.toList, g.Acyclic id)
  (carry : ∀ old new, CopiedFor g h live a old new → old ∈ closed → new ∈ closed')
  {usage : RangeUsage}

include isRange acyclic carry

/-- Nothing with a condition is met in the predicates that were built, if nothing is in what was
copied. -/
theorem meetsConditional_of_predicate {predicate : NodeId}
    (mem : predicate ∈ (g.built live a.condition usage).1.predicatesOf (g.liveCopies live)
      (g.built live a.condition usage).2.2.toList)
    (met : (g.built live a.condition usage).1.Meets closed' predicate id)
    (conditional : ((g.built live a.condition usage).1.node id).isConditional = true) :
    g.MeetsConditional closed (live ++ a.condition.toList) := by
  have regroups := regroups_built isRange a.condition usage
  have leaf : ((g.built live a.condition usage).1.node id).isAnd = false := by
    generalize (g.built live a.condition usage).1.node id = node at conditional
    cases node <;> simp_all [Node.isConditional, Node.isAnd]
  obtain ⟨conjunct, listed, met⟩ :=
    (regroups.gathered.apart predicate mem).acyclic.exists_meeting_conjunct met leaf
  have origin := (perm_built isRange a.condition usage).mem_iff.mp
    (List.mem_flatMap.mpr ⟨predicate, mem, listed⟩)
  rcases List.mem_append.mp origin with inJoin | inCondition
  · obtain ⟨join, mem, listed⟩ := List.mem_flatMap.mp inJoin
    have apart := (gathered_rebound isRange).apart join mem
    have nodes := (apart.below (apart.acyclic.below_of_mem_conjuncts listed)).nodes
      (writes_built isRange a.condition usage)
    have met' := met.of_nodes nodes (Set.Subset.refl closed')
    rw [nodes id met'.reached] at conditional
    obtain ⟨copy, among, held⟩ := (mem_predicatesOf.mp mem).resolve_right (by simp)
    exact (meetsConditional_of_rebound isRange (fun id mem => acyclic id (by simp [mem])) carry among
      held ((apart.acyclic.meets_conjunct listed).trans met') conditional).mono
        (List.subset_append_left _ _)
  · obtain ⟨own, held, listed⟩ := List.mem_flatMap.mp inCondition
    have apart := (gathered_ownCopied isRange a.condition).1.apart own
      (mem_predicatesOf.mpr (.inr (List.mem_append_left _ held)))
    have nodes := (apart.below (apart.acyclic.below_of_mem_conjuncts listed)).nodes regroups.writes
    have met' := met.of_nodes nodes (Set.Subset.refl closed')
    rw [nodes id met'.reached] at conditional
    cases condition : a.condition with
    | none => simp [ownCopied, copyCondition, condition] at held
    | some filter =>
      rw [← condition]
      exact (meetsConditional_of_ownCopied carry condition (acyclic filter (by simp [condition]))
        (Option.mem_toList.mp held) ((apart.acyclic.meets_conjunct listed).trans met')
        conditional).mono (List.subset_append_right _ _)

/-- Nothing with a condition is met in the parts that were built, if nothing is in what was copied. -/
theorem meetsConditional_of_part {part : NodeId}
    (mem : part ∈ g.liveCopies live ++ (g.built live a.condition usage).2.2.toList)
    (met : (g.built live a.condition usage).1.Meets closed' part id)
    (conditional : ((g.built live a.condition usage).1.node id).isConditional = true) :
    g.MeetsConditional closed (live ++ a.condition.toList) := by
  rcases List.mem_append.mp mem with copy | filter
  · have range := (regroups_built isRange a.condition usage).gathered.isRange part copy
    obtain ⟨r, node⟩ := Node.exists_of_isRange range
    rcases met.eq_or_child with rfl | ⟨join, slot, met⟩
    · rw [node] at conditional
      cases conditional
    · rw [node] at slot
      refine meetsConditional_of_predicate isRange acyclic carry
        (mem_predicatesOf.mpr (.inl ⟨part, copy, ?_⟩)) met conditional
      exact (join?_eq node).trans (Option.mem_toList.mp slot)
  · exact meetsConditional_of_predicate isRange acyclic carry (mem_predicatesOf.mpr (.inr filter)) met
      conditional

end

/-- Nothing with a condition is met in the parts of a correlated scope, if nothing is in what was
copied. -/
theorem Correlated.meetsConditional {metadata : Metadata} {used : List NodeId}
    {sub : CorrelatedScope} {zone : Set NodeId} {level : NodeId → List NodeId}
    (c : Correlated g metadata used a.operand a.condition h sub zone level)
    (isRange : ∀ id ∈ used, (g.node id).isRange = true)
    (acyclic : ∀ id ∈ used ++ a.condition.toList, g.Acyclic id)
    (carry : ∀ old new, CopiedFor g h (g.liveFor metadata used a.operand a.condition) a old new →
      old ∈ closed → new ∈ closed')
    {part : NodeId} (mem : part ∈ sub.ranges ++ sub.condition.toList)
    (met : h.Meets closed' part id) (conditional : (h.node id).isConditional = true) :
    g.MeetsConditional closed (used ++ a.condition.toList) := by
  have sub : g.liveFor metadata used a.operand a.condition ⊆ used := fun _ => mem_of_mem_liveFor
  have copies := perm_fst_withAnchor
    (g := (g.filterJoined (g.liveFor metadata used a.operand a.condition) a.condition).1)
    (g.forest_copyRanges (g.liveFor metadata used a.operand a.condition)).nodup
    (g.filterJoined (g.liveFor metadata used a.operand a.condition) a.condition).2
    (g.usage metadata [a.operand] a.condition used)
  have among := (c.parts.trans (copies.append_right _)).mem_iff.mp mem
  have read := List.append_subset_of_subset_of_subset
    (List.subset_append_of_subset_left a.condition.toList sub) (List.subset_append_right used _)
  obtain rfl := c.graph_eq
  exact (meetsConditional_of_part (fun id live => isRange id (sub live))
    (fun id mem => acyclic id (read mem)) carry among met conditional).mono read

/-- Nothing with a condition is met in a copied operand, if nothing is in the operand. -/
theorem meetsConditional_of_operand (beside : Extends g h) (acyclic : g.Acyclic a.operand)
    (function : a.function ≠ .any)
    (carry : ∀ old new, CopiedFor g h live a old new → old ∈ closed → new ∈ closed')
    (met : (h.copyWith a.operand (g.copyOf live)).1.Meets closed'
      (h.copyWith a.operand (g.copyOf live)).2 id)
    (conditional :
      ((h.copyWith a.operand (g.copyOf live)).1.node id).isConditional = true) :
    g.MeetsConditional closed [a.operand] := by
  have mirrors := (mirrors_copyWith (acyclic.of_same beside.same) (g.copyOf live)).shrink beside
    acyclic.grounded
  obtain ⟨origin, met, same⟩ := mirrors.exists_met met fun origin image place inClosed =>
    carry origin image (.operand function place) inClosed
  exact ⟨a.operand, by simp, origin, met, same ▸ conditional⟩

/-! ## The subquery in its place -/

section

variable {k : Graph} {old owner : NodeId} {kind : SubqueryKind} {expression : Option NodeId}
  {sub : CorrelatedScope} (e : Extends g k)
  (parts : ∀ id ∈ sub.ranges ++ expression.toList ++ sub.condition.toList, ¬ g.Has id)
  (slot : old ∈ g.children owner) (owned : g.parent old = some owner)

include e parts slot owned

theorem takesPlace_replaceBySubquery (scope : NodeId) :
    TakesPlace g (k.replaceBySubquery old kind expression sub) scope old owner k.next :=
  have beside := e.add (.subquery
    { kind, ranges := sub.ranges, expression, condition := sub.condition }) parts
  .of_replace beside (k.has_add_next _) (fun had => k.not_has_next (e.has had))
    (.inl (by rw [node_add_next]; rfl)) slot owned scope

/-- The swap for a subquery leaves what was added beside the old nodes. -/
theorem node_replaceBySubquery_of_fresh (fresh : ¬ g.Has id)
    (has : (k.add (.subquery
      { kind, ranges := sub.ranges, expression, condition := sub.condition })).1.Has id) :
    (k.replaceBySubquery old kind expression sub).node id = (k.add (.subquery
      { kind, ranges := sub.ranges, expression, condition := sub.condition })).1.node id := by
  have beside := e.add (.subquery
    { kind, ranges := sub.ranges, expression, condition := sub.condition }) parts
  have owned' := (beside.parent (has_of_parent owned)).trans owned
  have apart : id ≠ owner := fun same => fresh (same ▸ has_of_slot slot)
  show ((k.add _).1.replace old k.next).1.node id = (k.add _).1.node id
  rw [replace, owned', node_replaceChild has, if_neg apart]

theorem node_replaceBySubquery_of_part (fresh : ¬ g.Has id) (has : k.Has id) :
    (k.replaceBySubquery old kind expression sub).node id = k.node id :=
  (node_replaceBySubquery_of_fresh e parts slot owned fresh (has_add has _)).trans (node_add has _)

theorem node_next_replaceBySubquery : (k.replaceBySubquery old kind expression sub).node k.next =
    .subquery { kind, ranges := sub.ranges, expression, condition := sub.condition } :=
  (node_replaceBySubquery_of_fresh e parts slot owned (fun had => k.not_has_next (e.has had))
    (k.has_add_next _)).trans (node_add_next ..)

/-- Nothing with a condition is met in the subquery, if nothing is in its parts. -/
theorem meetsConditional_of_subquery {tops : List NodeId}
    (fresh : ∀ part ∈ sub.ranges ++ expression.toList ++ sub.condition.toList,
      ∀ id, k.Below part id → k.Has id ∧ ¬ g.Has id)
    (each : ∀ part ∈ sub.ranges ++ expression.toList ++ sub.condition.toList,
      ∀ id, k.Meets closed' part id → (k.node id).isConditional = true →
        g.MeetsConditional closed tops)
    (met : (k.replaceBySubquery old kind expression sub).Meets closed' k.next id)
    (conditional :
      ((k.replaceBySubquery old kind expression sub).node id).isConditional = true) :
    g.MeetsConditional closed tops := by
  have placed : (k.replaceBySubquery old kind expression sub).node k.next = _ :=
    node_next_replaceBySubquery e parts slot owned
  rcases met.eq_or_child with rfl | ⟨part, mem, met⟩
  · rw [placed] at conditional
    cases conditional
  · rw [placed] at mem
    have nodes : ∀ id, k.Below part id →
        (k.replaceBySubquery old kind expression sub).node id = k.node id := fun id below =>
      have ⟨has, new⟩ := fresh part mem id below
      node_replaceBySubquery_of_part e parts slot owned new has
    have met' := met.of_nodes nodes (Set.Subset.refl closed')
    exact each part mem id met' (nodes id met'.reached ▸ conditional)

end

section

variable {metadata : Metadata} {used : List NodeId} {sub : CorrelatedScope} {zone : Set NodeId}
  {level : NodeId → List NodeId} {old owner scope : NodeId}
  (isRange : ∀ id ∈ used, (g.node id).isRange = true)
  (acyclic : ∀ id ∈ used ++ a.operand :: a.condition.toList, g.Acyclic id)
  (carry : ∀ old new, CopiedFor g h (g.liveFor metadata used a.operand a.condition) a old new →
    old ∈ closed → new ∈ closed')
  (slot : old ∈ g.children owner) (owned : g.parent old = some owner)

include isRange acyclic carry

/-- Nothing with a condition is met in the parts that all subqueries have. -/
theorem Correlated.meetsConditional_of_below
    (c : Correlated g metadata used a.operand a.condition h sub zone level) {k : Graph}
    (beside : Extends h k) {part : NodeId} (mem : part ∈ sub.ranges ++ sub.condition.toList)
    (met : k.Meets closed' part id) (conditional : (k.node id).isConditional = true) :
    g.MeetsConditional closed (used ++ a.operand :: a.condition.toList) := by
  have nodes : ∀ id, h.Below part id → k.node id = h.node id := fun id below =>
    beside.node (c.inOrder.has (c.inOrder.mem_of_below (c.ready mem).mem below))
  have met' := met.of_nodes nodes (Set.Subset.refl closed')
  have acyclic' : ∀ id ∈ used ++ a.condition.toList, g.Acyclic id := fun id mem =>
    acyclic id (by simp only [List.mem_append, List.mem_cons] at mem ⊢; tauto)
  refine (c.meetsConditional isRange acyclic' carry mem met'
    (nodes id met'.reached ▸ conditional)).mono ?_
  exact List.append_subset_of_subset_of_subset (List.subset_append_left _ _)
    (List.subset_append_of_subset_right _ (List.subset_cons_self _ _))

include slot owned

theorem Correlated.exists_takesPlace
    (c : Correlated g metadata used a.operand a.condition h sub zone level) (kind : SubqueryKind) :
    ∃ new, TakesPlace g (h.replaceBySubquery old kind none sub) scope old owner new ∧
      ∀ id, (h.replaceBySubquery old kind none sub).Meets closed' new id →
        ((h.replaceBySubquery old kind none sub).node id).isConditional = true →
          g.MeetsConditional closed (used ++ a.operand :: a.condition.toList) := by
  have parts : sub.ranges ++ (none : Option NodeId).toList ++ sub.condition.toList =
      sub.ranges ++ sub.condition.toList := by simp
  have fresh : ∀ part ∈ sub.ranges ++ (none : Option NodeId).toList ++ sub.condition.toList,
      ∀ id, h.Below part id → h.Has id ∧ ¬ g.Has id := fun part mem id below =>
    have within := c.inOrder.mem_of_below (c.ready (parts ▸ mem)).mem below
    ⟨c.inOrder.has within, c.fresh within⟩
  have new := fun part mem => (fresh part mem part (.refl h part)).2
  refine ⟨_, takesPlace_replaceBySubquery c.beside new slot owned scope, fun id =>
    meetsConditional_of_subquery c.beside new slot owned fresh fun part mem id met conditional => ?_⟩
  exact c.meetsConditional_of_below isRange acyclic carry (.refl h) (parts ▸ mem) met conditional

theorem Valued.exists_takesPlace {k : Graph} {value : NodeId}
    (v : Valued g metadata used a h sub zone level k value) (function : a.function ≠ .any) :
    ∃ new, TakesPlace g (k.replaceBySubquery old .scalar (some value) sub) scope old owner new ∧
      ∀ id, (k.replaceBySubquery old .scalar (some value) sub).Meets closed' new id →
        ((k.replaceBySubquery old .scalar (some value) sub).node id).isConditional = true →
          g.MeetsConditional closed (used ++ a.operand :: a.condition.toList) := by
  have c := v.correlated
  obtain ⟨level', z, unseen, ready, -⟩ := v.inOrder
  have fresh : ∀ part ∈ sub.ranges ++ (some value).toList ++ sub.condition.toList,
      ∀ id, k.Below part id → k.Has id ∧ ¬ g.Has id := fun part mem id below =>
    have within := z.mem_of_below (ready part mem).mem below
    ⟨z.has within, unseen id within⟩
  have new := fun part mem => (fresh part mem part (.refl k part)).2
  refine ⟨_, takesPlace_replaceBySubquery v.beside new slot owned scope, fun id =>
    meetsConditional_of_subquery v.beside new slot owned fresh fun part mem id met conditional => ?_⟩
  have tree := h.forest_copyWith a.operand sub.copies
  have copy := tree.linked _ (List.mem_singleton_self _)
  obtain ⟨-, rfl, rfl⟩ := v
  by_cases isValue : part = (h.copyWith a.operand sub.copies).1.next
  · subst isValue
    rcases met.eq_or_child with rfl | ⟨operand, slot, met⟩
    · rw [node_add_next] at conditional
      cases conditional
    · rw [node_add_next] at slot
      obtain rfl := List.mem_singleton.mp slot
      have nodes := fun id (below : (h.copyWith a.operand sub.copies).1.Below _ id) =>
        node_add (copy.has_of_below below)
        (.aggregate { function := a.function, operand := (h.copyWith a.operand sub.copies).2
                      condition := none })
      have met' := met.of_nodes nodes (Set.Subset.refl closed')
      rw [nodes id met'.reached] at conditional
      rw [c.copies_eq] at met' conditional
      refine (meetsConditional_of_operand c.beside (acyclic a.operand (by simp)) function carry met'
        conditional).mono fun id mem => ?_
      simp_all
  · have among : part ∈ sub.ranges ++ sub.condition.toList := by simp_all
    refine c.meetsConditional_of_below isRange acyclic carry ?_ among met conditional
    refine tree.beside.add _ fun child slot had => ?_
    obtain rfl : child = _ := List.mem_singleton.mp slot
    exact tree.fresh _ (List.mem_singleton_self _) (.refl _ _) had

end

/-- While an aggregate becomes a subquery over some ranges, a node is copied. -/
def CopiedInto (g : Graph) (metadata : Metadata) (ranges : List NodeId) (id old new : NodeId) :
    Prop :=
  ∃ a, g.node id = .aggregate a ∧
    let used := ranges.filter (g.referencedRanges id).contains
    CopiedFor g (g.correlate metadata used a.operand a.condition).1
      (g.liveFor metadata used a.operand a.condition) a old new

/-- A subquery takes the place of an aggregate. Nothing with a condition is met in it, if nothing is
in the ranges and in the aggregate. -/
theorem exists_takesPlace_wrapAggregate {metadata : Metadata} {ranges : List NodeId}
    {site : ExpressionSite} {owner : NodeId}
    (isRange : ∀ range ∈ ranges, (g.node range).isRange = true)
    (acyclic : ∀ top ∈ ranges ++ g.children id, g.Acyclic top)
    (carry : ∀ old new, g.CopiedInto metadata ranges id old new → old ∈ closed → new ∈ closed')
    (told : (g.wrapAggregate metadata ranges id site).2 = true) (slot : id ∈ g.children owner)
    (owned : g.parent id = some owner) (scope : NodeId) :
    ∃ new, TakesPlace g (g.wrapAggregate metadata ranges id site).1 scope id owner new ∧
      ∀ inner, (g.wrapAggregate metadata ranges id site).1.Meets closed' new inner →
        ((g.wrapAggregate metadata ranges id site).1.node inner).isConditional = true →
          g.MeetsConditional closed (ranges ++ g.children id) := by
  unfold wrapAggregate at told ⊢
  split at told
  · cases told
  · next a found =>
    have node := node_of_aggregate? found
    have slots : g.children id = a.operand :: a.condition.toList := by
      rw [children, node]
      rfl
    rw [slots] at acyclic ⊢
    have used : ranges.filter (g.referencedRanges id).contains ⊆ ranges := fun _ mem =>
      (List.mem_filter.mp mem).1
    obtain ⟨-, correlated⟩ := g.correlate_cases metadata
      (fun range mem => isRange range (used mem)) a.operand a.condition
    have carry' := fun old new copied => carry old new ⟨a, node, copied⟩
    dsimp only at told carry' ⊢
    split at told
    · cases told
    · next h sub same =>
      rw [same] at correlated carry'
      obtain ⟨zone, level, c⟩ := correlated sub rfl
      have read : ranges.filter (g.referencedRanges id).contains ++
          a.operand :: a.condition.toList ⊆ ranges ++ a.operand :: a.condition.toList :=
        List.append_subset_of_subset_of_subset (List.subset_append_of_subset_left _ used)
          (List.subset_append_right _ _)
      have isRange' := fun range mem => isRange range (used mem)
      have acyclic' := fun top mem => acyclic top (read mem)
      have placed : ∃ new, TakesPlace g (h.aggregateSubquery id site a sub) scope id owner new ∧
          ∀ inner, (h.aggregateSubquery id site a sub).Meets closed' new inner →
            ((h.aggregateSubquery id site a sub).node inner).isConditional = true →
              g.MeetsConditional closed (ranges.filter (g.referencedRanges id).contains ++
                a.operand :: a.condition.toList) := by
        dsimp only [aggregateSubquery]
        split
        · exact c.exists_takesPlace isRange' acyclic' carry' slot owned _
        · next function =>
          have valued : Valued g metadata _ a h sub zone level _ _ := ⟨c, rfl, rfl⟩
          exact valued.exists_takesPlace isRange' acyclic' carry' slot owned function
      obtain ⟨new, place, meets⟩ := placed
      exact ⟨new, place, fun inner met conditional => (meets inner met conditional).mono read⟩

end Graph

end RangeQuery
