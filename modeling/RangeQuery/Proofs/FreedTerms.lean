import RangeQuery.Proofs.ClosedSubqueries
import RangeQuery.Proofs.Revalidation
import RangeQuery.Proofs.Scope.CarriedNodes

/-!
No condition is left. Over several ranges the aggregates of a scope are freed of their conditions one
after the other, the inner ones first. After that no aggregate with a condition is met from a value,
the filter or a sort key, also in the subqueries that were made; only the subqueries of before, and
their copies, are not entered.
-/

namespace RangeQuery

/-- The expressions of a scope: its values, its filter and its sort keys. -/
def Node.clauses : Node → List NodeId
  | .retrieve r => r.values ++ r.condition.toList ++ r.sort.map (·.expression)
  | _ => []

namespace Graph

variable {g h : Graph} {root scope top id owner old new : NodeId} {closed closed' : Set NodeId}

theorem clauses_scope (g : Graph) (scope : NodeId) :
    (g.node scope).clauses = (g.scope scope).values ++ (g.scope scope).condition.toList ++
      (g.scope scope).sort.map (·.expression) := by
  cases node : g.node scope <;> simp [Graph.scope, Node.clauses, node, Retrieve.empty]

/-- The clauses of a scope are what it owns, apart from the ranges that it declares. -/
theorem Linked.mem_clauses (l : g.Linked root) (isScope : g.ScopeIn root scope) :
    id ∈ (g.node scope).clauses ↔ id ∈ g.children scope ∧ id ∉ (g.node scope).declared := by
  refine ⟨fun mem => l.clause_apart isScope (g.clauses_scope scope ▸ mem), fun ⟨slot, apart⟩ => ?_⟩
  obtain ⟨r, node⟩ := Node.exists_of_isRetrieve isScope.isRetrieve
  rw [children, node] at slot
  rw [node] at apart ⊢
  simp only [Node.children, Node.clauses, Node.declared, Node.ranges?, Option.getD_some,
    List.mem_append] at slot apart ⊢
  tauto

theorem Linked.below_clause (l : g.Linked root) (isScope : g.ScopeIn root scope)
    (mem : id ∈ (g.node scope).clauses) : g.Below root id :=
  isScope.reached.child ((l.mem_clauses isScope).mp mem).1

theorem Linked.not_below_own_clause (l : g.Linked root) (isScope : g.ScopeIn root scope)
    (mem : id ∈ (g.node scope).clauses) : ¬ g.Below id scope :=
  l.not_below_of_child isScope.reached ((l.mem_clauses isScope).mp mem).1

/-! ## What a turn leaves to be met -/

/-- After a swap a node is met where it was met before, or through the new one. -/
theorem TakesPlace.meets (t : TakesPlace g h scope old owner new) (l : g.Linked root)
    (above : g.Below root top) (apart : ¬ g.Below top scope) (ne : top ≠ old)
    (above' : g.Below root owner) (sub : closed ⊆ closed') (met : h.Meets closed' top id) :
    (g.Meets closed top id ∧ id ≠ old) ∨ (g.Meets closed top old ∧ h.Meets closed' new id) := by
  induction met with
  | here => exact .inl ⟨.here, ne⟩
  | @down upper child _ enters slot ih =>
    rcases ih with ⟨met, -⟩ | ⟨met, further⟩
    · have within := above.trans met.reached
      have has := l.has_of_below within
      have swap := t.others has fun is => apart (is ▸ met.reached)
      unfold swapped at swap
      split at swap
      · next isOwner =>
        rw [swap, Node.isSubquery_withChildren] at enters
        have enters' := fun subquery mem => enters subquery (sub mem)
        rw [swap] at slot
        have slot' := Node.entered_subset_children _ slot
        rw [Node.children_withChildren _ (by simp)] at slot'
        rcases Node.mem_entered_replace slot with had | ⟨rfl, held⟩
        · have slot := Node.entered_subset_children _ had
          have other := (mem_replace_of_nodup (l.nodup within) slot').resolve_left fun is =>
            t.fresh (is ▸ l.has_of_below (within.child slot))
          exact .inl ⟨met.down enters' had, other.2⟩
        · exact .inr ⟨met.down enters' held, .here⟩
      · next other =>
        rw [swap] at enters slot
        refine .inl ⟨met.down (fun subquery mem => enters subquery (sub mem)) slot, ?_⟩
        rintro rfl
        exact other (l.owner_unique within above' (Node.entered_subset_children _ slot) t.slot)
    · exact .inr ⟨met, further.down enters slot⟩

/-- The same from the clauses of a scope. -/
theorem TakesPlace.meets_clause (t : TakesPlace g h scope old owner new) (l : g.Linked root)
    (l' : h.Linked root) (isScope : g.ScopeIn root scope) (isScope' : h.ScopeIn root scope)
    (above : g.Below root owner) (undeclared : old ∉ (g.node scope).declared) (sub : closed ⊆ closed')
    {clause : NodeId} (mem : clause ∈ (h.node scope).clauses) (met : h.Meets closed' clause id) :
    ∃ clause ∈ (g.node scope).clauses, (g.Meets closed clause id ∧ id ≠ old) ∨
      (g.Meets closed clause old ∧ h.Meets closed' new id) := by
  have has := l.has_of_below isScope.reached
  have other : clause ∈ (g.node scope).clauses → clause ≠ old →
      ∃ clause ∈ (g.node scope).clauses, (g.Meets closed clause id ∧ id ≠ old) ∨
        (g.Meets closed clause old ∧ h.Meets closed' new id) := fun clauses ne =>
    ⟨clause, clauses, t.meets l (l.below_clause isScope clauses)
      (l.not_below_own_clause isScope clauses) ne above sub met⟩
  obtain ⟨slot, apart⟩ := (l'.mem_clauses isScope').mp mem
  rw [t.declared has undeclared] at apart
  rw [t.children has] at slot
  split at slot
  · next isOwner =>
    rcases mem_replace_of_nodup (l.nodup isScope.reached) slot with rfl | ⟨held, ne⟩
    · exact ⟨old, (l.mem_clauses isScope).mpr ⟨isOwner ▸ t.slot, undeclared⟩, .inr ⟨.here, met⟩⟩
    · exact other ((l.mem_clauses isScope).mpr ⟨held, apart⟩) ne
  · next elsewhere =>
    refine other ((l.mem_clauses isScope).mpr ⟨slot, apart⟩) ?_
    rintro rfl
    exact elsewhere (l.owner_unique isScope.reached above slot t.slot)

theorem TakesPlace.isConditional (t : TakesPlace g h scope old owner new) (has : g.Has id)
    (ne : id ≠ scope) : (h.node id).isConditional = (g.node id).isConditional := by
  rw [t.others has ne, swapped]
  split
  · exact Node.isConditional_withChildren _ _
  · rfl

section

variable {operand condition : NodeId} {function : AggregateFn}
  (node : g.node old = .aggregate { function, operand, condition := some condition })

include node

/-- After a condition was folded a node is met where it was met before, or belongs to the choice. -/
theorem Meets.of_folded (grounded : g.Grounded top) (sub : closed ⊆ closed')
    (met : (g.folded old operand condition).Meets closed' top id) :
    g.Meets closed top id ∨ g.Meets closed top old ∧
      (id = ((g.setCondition old none).add .null).1.next ∨ id = (g.setCondition old none).next) := by
  have enters' : (g.node old).isSubquery = false := by rw [node]; rfl
  have slots : (g.node old).entered = [operand, condition] := by rw [node]; rfl
  induction met with
  | here => exact .inl .here
  | @down owner child _ enters slot ih =>
    rcases ih with met | ⟨met, rfl | rfl⟩
    · by_cases same : owner = old
      · subst same
        rw [node_folded_self node] at slot
        exact .inr ⟨met, .inl (by simpa [Node.entered, Node.children] using slot)⟩
      · rw [node_folded_of_ne (grounded _ met.reached) same] at enters slot
        exact .inl (met.down (fun subquery mem => enters subquery (sub mem)) slot)
    · rw [node_folded_choice node] at slot
      simp only [Node.entered, Node.children, Option.toList_some, List.mem_cons, List.not_mem_nil,
        or_false] at slot
      rcases slot with rfl | rfl | rfl
      · exact .inl (met.down (by simp [enters']) (by simp [slots]))
      · exact .inl (met.down (by simp [enters']) (by simp [slots]))
      · exact .inr ⟨met, .inr rfl⟩
    · rw [node_folded_null node] at slot
      cases slot

end

theorem node_foldCondition_of_ne (has : g.Has id) (ne : id ≠ old) :
    (g.foldCondition old).1.node id = g.node id := by
  by_cases folds : ∀ a, g.node old = .aggregate a → a.condition = none
  · rw [foldCondition_eq_self folds]
  · obtain ⟨⟨function, operand, condition⟩, node, some⟩ := not_forall₂.mp folds
    obtain ⟨condition, rfl⟩ := Option.ne_none_iff_exists'.mp some
    rw [fst_foldCondition node, node_folded_of_ne has ne]

/-- After the condition of an aggregate was folded, a node with a condition is met only where it was
met before, and it is another one. -/
theorem Meets.of_foldCondition (grounded : g.Grounded top) (sub : closed ⊆ closed')
    (met : (g.foldCondition old).1.Meets closed' top id)
    (conditional : ((g.foldCondition old).1.node id).isConditional = true) :
    g.Meets closed top id ∧ (g.node id).isConditional = true ∧ id ≠ old := by
  by_cases folds : ∀ a, g.node old = .aggregate a → a.condition = none
  · rw [foldCondition_eq_self folds] at met conditional
    refine ⟨met.of_nodes (fun _ _ => rfl) sub, conditional, ?_⟩
    rintro rfl
    cases node : g.node id with
    | aggregate a => simp [node, Node.isConditional, folds a node] at conditional
    | _ => simp [node, Node.isConditional] at conditional
  · obtain ⟨⟨function, operand, condition⟩, node, some⟩ := not_forall₂.mp folds
    obtain ⟨condition, rfl⟩ := Option.ne_none_iff_exists'.mp some
    rw [fst_foldCondition node] at met conditional
    rcases met.of_folded node grounded sub with met | ⟨-, rfl | rfl⟩
    · by_cases same : id = old
      · subst same
        rw [node_folded_self node] at conditional
        cases conditional
      · rw [node_folded_of_ne (grounded _ met.reached) same] at conditional
        exact ⟨met, conditional, same⟩
    · rw [node_folded_choice node] at conditional
      cases conditional
    · rw [node_folded_null node] at conditional
      cases conditional

/-- Folding the condition of an aggregate of a scope leaves the ways down to the others. -/
theorem leavesTo_foldCondition (l : g.Linked root) (isScope : g.ScopeIn root scope)
    (outside : ∀ range ∈ (g.node scope).declared, ¬ g.Below range old) {sites : List NodeId}
    (apart : ∀ later ∈ sites, ¬ g.Below old later) :
    LeavesTo g (g.foldCondition old).1 scope sites := by
  have kept : (g.foldCondition old).1.node scope = g.node scope :=
    node_foldCondition_of_isRetrieve isScope.isRetrieve
  have along : ∀ {top later trail}, later ∈ sites → g.Trail top trail later → ∀ owner ∈ trail,
      (g.foldCondition old).1.node owner = g.node owner := by
    intro top later trail mem way owner on
    refine node_foldCondition_of_ne (way.has_of_mem on) ?_
    rintro rfl
    exact way.not_mem (apart later mem) (List.mem_cons_of_mem _ on)
  refine ⟨(Node.formal_stamp.toPlaced.foldCondition g old).size, by rw [kept],
    fun range declared id below => node_foldCondition_of_ne ?_ ?_, fun later mem trail way =>
    way.along fun owner on => congrArg Node.children (along mem way owner on), ?_⟩
  · have slot := declared_subset_children _ declared
    exact l.has_of_below ((isScope.reached.child slot).trans below)
  · rintro rfl
    exact outside range declared below
  · rintro later mem ⟨start, clause, trail, way, opened⟩
    refine ⟨start, kept ▸ clause, trail, way.along fun owner on =>
      congrArg Node.children (along mem way owner on), fun owner on => ?_⟩
    rw [along mem way owner on, opened owner on]

/-! ## Turns -/

/-- Only an aggregate becomes a subquery. -/
theorem aggregate_of_wrapAggregate {metadata : Metadata} {ranges : List NodeId}
    {location : ExpressionSite}
    (told : (g.wrapAggregate metadata ranges id location).2 = true) :
    ∃ a, g.node id = .aggregate a := by
  unfold wrapAggregate at told
  split at told
  · cases told
  · next a found => exact ⟨a, node_of_aggregate? found⟩

/-- Some aggregates of a scope still have their conditions, none of them below one that comes earlier.
There are no others to be met in the clauses, and none at all in the ranges. -/
structure Awaits (g : Graph) (root scope : NodeId) (ranges : List NodeId) (closed : Set NodeId)
    (sites : List NodeId) : Prop where
  linked : g.Linked root
  isScope : g.ScopeIn root scope
  ranges_eq : g.includedRanges scope = ranges
  free : ¬ g.MeetsConditional closed ranges
  below : ∀ site ∈ sites, g.Below scope site
  outside : ∀ site ∈ sites, ∀ range ∈ (g.node scope).declared, ¬ g.Below range site
  ordered : sites.Pairwise fun first later => ¬ g.Below first later
  listed : ∀ clause ∈ (g.node scope).clauses, ∀ id, g.Meets closed clause id →
    (g.node id).isConditional = true → id ∈ sites

namespace Awaits

variable {ranges sites sites' : List NodeId} {site : NodeId}

theorem declared (t : g.Awaits root scope ranges closed sites) {range : NodeId}
    (mem : range ∈ ranges) : range ∈ (g.node scope).declared :=
  (mem_includedRanges (t.ranges_eq ▸ mem)).1

/-- A change that leaves the way down to what awaits its turn leaves the turns. -/
theorem keep (t : g.Awaits root scope ranges closed sites) (k : LeavesTo g h scope sites')
    (subset : sites'.Sublist sites) (l : h.Linked root) (isScope : h.ScopeIn root scope)
    (sub : closed ⊆ closed')
    (listed : ∀ clause ∈ (h.node scope).clauses, ∀ id, h.Meets closed' clause id →
      (h.node id).isConditional = true → id ∈ sites') :
    h.Awaits root scope ranges closed' sites' where
  linked := l
  isScope := isScope
  ranges_eq := (k.includedRanges t.isScope.isRetrieve isScope.isRetrieve).trans t.ranges_eq
  free := by
    rintro ⟨range, mem, id, met, conditional⟩
    have nodes := k.sources range (t.declared mem)
    have met' := met.of_nodes nodes sub
    exact t.free ⟨range, mem, id, met', nodes id met'.reached ▸ conditional⟩
  below site mem := by
    obtain ⟨trail, way⟩ := t.below site (subset.subset mem)
    exact ⟨trail, k.trails site mem trail way⟩
  outside site mem range declared := by
    rw [k.ranges] at declared
    have slots := fun id below => congrArg Node.children (k.sources range declared id below)
    rw [below_iff_of_children slots]
    exact t.outside site (subset.subset mem) range declared
  ordered := by
    refine (t.ordered.sublist subset).imp_of_mem fun {first later} mem mem' apart again => apart ?_
    obtain ⟨trail, way⟩ := t.below later (subset.subset mem')
    obtain ⟨trail', way'⟩ := t.below first (subset.subset mem)
    exact l.below_of_trail isScope.reached way (k.trails later mem' trail way)
      ⟨trail', k.trails first mem trail' way'⟩ again
  listed := listed

/-- Work beside the graph leaves the turns. -/
theorem grow (t : g.Awaits root scope ranges closed sites) (e : Extends g h) :
    h.Awaits root scope ranges closed sites := by
  have same := e.node (t.linked.has_of_below t.isScope.reached)
  refine t.keep (e.leavesTo t.linked t.isScope.reached sites) (List.Sublist.refl _)
    (e.linked t.linked) ((Keeps.of_extends e).scopeIn t.linked t.isScope) (Set.Subset.refl closed)
    fun clause mem id met conditional => ?_
  rw [same] at mem
  have above := t.linked.below_clause t.isScope mem
  have nodes : ∀ id, g.Below clause id → h.node id = g.node id := fun id below =>
    e.node (t.linked.has_of_below (above.trans below))
  have met' := met.of_nodes nodes (Set.Subset.refl closed)
  exact t.listed clause mem id met' (nodes id met'.reached ▸ conditional)

/-- A turn in which a condition is folded. -/
theorem fold (t : g.Awaits root scope ranges closed (site :: sites)) (sub : closed ⊆ closed') :
    (g.foldCondition site).1.Awaits root scope ranges closed' sites := by
  have l := t.linked
  have apart := (List.pairwise_cons.mp t.ordered).1
  have within := t.isScope.reached.trans (t.below site (by simp))
  obtain ⟨zone, level, reshaped, -⟩ := l.zone.foldCondition within
  refine t.keep (leavesTo_foldCondition l t.isScope (t.outside site (by simp)) apart)
    (List.sublist_cons_self _ _) (reshaped.inOrder.linked (Set.mem_singleton root))
    ((Keeps.foldCondition g site).scopeIn l t.isScope) sub fun clause mem id met conditional => ?_
  rw [node_foldCondition_of_isRetrieve t.isScope.isRetrieve] at mem
  obtain ⟨met, conditional, ne⟩ :=
    met.of_foldCondition (l.grounded (l.below_clause t.isScope mem)) sub conditional
  exact (List.mem_cons.mp (t.listed clause mem id met conditional)).resolve_left ne

/-- Nothing with a condition is met in the ranges, nor inside an aggregate whose turn has come. -/
theorem not_meetsConditional (t : g.Awaits root scope ranges closed (site :: sites)) {a : Aggregate}
    (node : g.node site = .aggregate a) {clause : NodeId} (mem : clause ∈ (g.node scope).clauses)
    (met : g.Meets closed clause site) :
    ¬ g.MeetsConditional closed (ranges ++ g.children site) := by
  rintro ⟨start, held, id, further, conditional⟩
  rcases List.mem_append.mp held with range | slot
  · exact t.free ⟨start, range, id, further, conditional⟩
  · have deeper : g.Meets closed site id :=
      .of_child (by rw [node]; rfl) (by rw [node]; rwa [children, node] at slot) further
    rcases List.mem_cons.mp (t.listed clause mem id (met.trans deeper) conditional) with rfl | later
    · have above := (t.linked.below_clause t.isScope mem).trans met.reached
      exact t.linked.not_below_of_child above slot further.reached
    · exact (List.pairwise_cons.mp t.ordered).1 id later deeper.reached

/-- A turn in which a subquery takes the place of an aggregate. -/
theorem wrap (t : g.Awaits root scope ranges closed (site :: sites)) {metadata : Metadata}
    {location : ExpressionSite} (sub : closed ⊆ closed')
    (carry : ∀ old new, g.CopiedInto metadata ranges site old new → old ∈ closed → new ∈ closed')
    (told : (g.wrapAggregate metadata ranges site location).2 = true) :
    (g.wrapAggregate metadata ranges site location).1.Awaits root scope ranges closed' sites := by
  have l := t.linked
  have isScope := t.isScope
  have isRange : ∀ range ∈ ranges, (g.node range).isRange = true :=
    t.ranges_eq ▸ g.isRange_includedRanges scope
  obtain ⟨a, node⟩ := aggregate_of_wrapAggregate told
  obtain ⟨owner, above, slot⟩ := isScope.exists_owner (t.below site (by simp)) (by rw [node]; rfl)
  have acyclic : ∀ top ∈ ranges ++ g.children site, g.Acyclic top := by
    intro top mem
    rcases List.mem_append.mp mem with range | child
    · exact l.acyclic (isScope.reached.child (declared_subset_children _ (t.declared range)))
    · exact l.acyclic ((above.child slot).child child)
  obtain ⟨new, place, meets⟩ := exists_takesPlace_wrapAggregate isRange acyclic carry told slot
    (l.parent_child above slot) scope
  have apart := (List.pairwise_cons.mp t.ordered).1
  have outside := t.outside site (by simp)
  have wrapped := wrapped_wrapAggregate metadata isRange site location
  obtain ⟨zone, level, reshaped, -⟩ := l.zone.wrapped wrapped
  have l' := reshaped.inOrder.linked (Set.mem_singleton root)
  have isScope' := (Keeps.wrapped wrapped).scopeIn l isScope
  have undeclared : site ∉ (g.node scope).declared := fun declared =>
    outside site declared (.refl g site)
  refine t.keep (place.leavesTo l isScope outside apart) (List.sublist_cons_self _ _) l' isScope' sub
    fun clause mem id met conditional => ?_
  obtain ⟨clause, mem, ⟨met, ne⟩ | ⟨met, further⟩⟩ :=
    place.meets_clause l l' isScope isScope' above undeclared sub mem met
  · have within := (l.below_clause isScope mem).trans met.reached
    rw [place.isConditional (l.has_of_below within) fun is =>
      l.not_below_own_clause isScope mem (is ▸ met.reached)] at conditional
    exact (List.mem_cons.mp (t.listed clause mem id met conditional)).resolve_left ne
  · exact absurd (meets id further conditional) (t.not_meetsConditional node mem met)

end Awaits

/-! ## The run -/

section

variable (metadata : Metadata) (strategy : AggregateStrategy) (ranges : List NodeId)

/-- What a node becomes while one aggregate is freed: it stays, and if a subquery takes the place of the
aggregate, it may be copied into that. -/
def Becomes (g : Graph) (site : NodeId × ExpressionSite) (old new : NodeId) : Prop :=
  new = old ∨ strategy g site.1 = true ∧
    (g.wrapAggregate metadata ranges site.1 site.2).2 = true ∧
      g.CopiedInto metadata ranges site.1 old new

/-- What a node becomes while some aggregates are freed, one after the other. -/
def BecomesAfter : Graph → List (NodeId × ExpressionSite) → NodeId → NodeId → Prop
  | _, [], old, new => new = old
  | g, site :: rest, old, new => ∃ between, Becomes metadata strategy ranges g site old between ∧
    BecomesAfter (g.freeOne metadata strategy ranges site.1 site.2).1 rest between new

variable {metadata strategy ranges}

/-- One turn. -/
theorem Awaits.next {site : NodeId × ExpressionSite} {sites : List NodeId}
    (t : g.Awaits root scope ranges closed (site.1 :: sites))
    (carry : ∀ old new, Becomes metadata strategy ranges g site old new → old ∈ closed →
      new ∈ closed') :
    (g.freeOne metadata strategy ranges site.1 site.2).1.Awaits root scope ranges closed' sites := by
  have sub : closed ⊆ closed' := fun id mem => carry id id (.inl rfl) mem
  by_cases wanted : strategy g site.1 = true
  · cases told : (g.wrapAggregate metadata ranges site.1 site.2).2 with
    | true =>
      have same : (g.freeOne metadata strategy ranges site.1 site.2).1 =
          (g.wrapAggregate metadata ranges site.1 site.2).1 := by
        simp only [freeOne, if_pos wanted, told, if_true]
      rw [same]
      exact t.wrap sub (fun old new copied => carry old new (.inr ⟨wanted, told, copied⟩)) told
    | false =>
      have same : (g.freeOne metadata strategy ranges site.1 site.2).1 =
          ((g.wrapAggregate metadata ranges site.1 site.2).1.foldCondition site.1).1 := by
        simp only [freeOne, if_pos wanted, told, Bool.false_eq_true, if_false]
      have isRange : ∀ range ∈ ranges, (g.node range).isRange = true :=
        t.ranges_eq ▸ g.isRange_includedRanges scope
      have left := wrapped_wrapAggregate metadata isRange site.1 site.2
      rw [told] at left
      rw [same]
      generalize (g.wrapAggregate metadata ranges site.1 site.2).1 = h at left ⊢
      cases left with
      | left beside => exact (t.grow beside).fold sub
  · have same : (g.freeOne metadata strategy ranges site.1 site.2).1 =
        (g.foldCondition site.1).1 := by
      simp only [freeOne, if_neg wanted, Bool.false_eq_true, if_false]
    rw [same]
    exact t.fold sub

/-- After all turns nothing with a condition is met in a clause. -/
theorem Awaits.not_isConditional {sites : List (NodeId × ExpressionSite)}
    (t : g.Awaits root scope ranges closed (sites.map (·.1))) {clause : NodeId}
    (mem : clause ∈ ((freeAggregate metadata strategy ranges g sites).1.node scope).clauses)
    (met : (freeAggregate metadata strategy ranges g sites).1.Meets
      {new | ∃ old ∈ closed, BecomesAfter metadata strategy ranges g sites old new} clause id) :
    ((freeAggregate metadata strategy ranges g sites).1.node id).isConditional = false := by
  induction sites generalizing g closed with
  | nil =>
    have same : {new | ∃ old ∈ closed, BecomesAfter metadata strategy ranges g [] old new} =
        closed := by
      ext new
      simp [BecomesAfter]
    rw [same] at met
    refine Bool.eq_false_iff.mpr fun conditional => ?_
    exact List.not_mem_nil (t.listed clause mem id met conditional)
  | cons site rest ih =>
    have next : (g.freeOne metadata strategy ranges site.1 site.2).1.Awaits root scope ranges
        {between | ∃ old ∈ closed, Becomes metadata strategy ranges g site old between}
        (rest.map (·.1)) := t.next fun old new becomes inClosed => ⟨old, inClosed, becomes⟩
    refine ih next mem (met.of_nodes (fun _ _ => rfl) ?_)
    rintro new ⟨between, ⟨old, inClosed, first⟩, later⟩
    exact ⟨old, inClosed, between, first, later⟩

end

/-! ## The start -/

theorem fst_aggregateSites (g : Graph) (scope : NodeId) :
    (g.aggregateSites (g.scope scope)).map (·.1) =
      (g.node scope).clauses.flatMap g.conditionalAggregates := by
  simp [aggregateSites, clauses_scope, Function.comp_def]

theorem Linked.nodup_clauses (l : g.Linked root) (isScope : g.ScopeIn root scope) :
    (g.node scope).clauses.Nodup := by
  have nodup := l.nodup isScope.reached
  obtain ⟨r, node⟩ := Node.exists_of_isRetrieve isScope.isRetrieve
  rw [children, node, Node.children, List.append_assoc, List.append_assoc] at nodup
  rw [node, Node.clauses, List.append_assoc]
  exact nodup.of_append_right

/-- No site of a scope lies above one that comes before it. -/
theorem Linked.pairwise_aggregateSites (l : g.Linked root) (isScope : g.ScopeIn root scope) :
    ((g.aggregateSites (g.scope scope)).map (·.1)).Pairwise fun entered later =>
      ¬ g.Below later entered := by
  rw [fst_aggregateSites, List.pairwise_flatMap]
  refine ⟨fun clause mem => ?_, (l.nodup_clauses isScope).imp_of_mem fun {one other} mem mem' ne => ?_⟩
  · rw [conditionalAggregates_eq]
    exact (l.pairwise_preorder _ _ (l.below_clause isScope mem)).filter _
  · intro entered found later found' below
    have below' := (below_of_mem_conditionalAggregates found').trans below
    have slot := ((l.mem_clauses isScope).mp mem).1
    have slot' := ((l.mem_clauses isScope).mp mem').1
    exact ne (l.child_unique isScope.reached slot slot'
      (below_of_mem_conditionalAggregates found) below')

/-- Where a search finds no aggregate, none with a condition is met outside subqueries. -/
theorem FreeOfAggregates.not_isConditional (free : g.FreeOfAggregates false top)
    (met : g.Meets {sub | (g.node sub).isSubquery = true} top id) :
    (g.node id).isConditional = false := by
  have sought : g.Sought false top id := by
    induction met with
    | here => exact ⟨[], .here, by simp⟩
    | @down owner child _ enters slot ih =>
      obtain ⟨trail, way, descends⟩ := ih
      have goes : seekAggregate false (g.node owner) = .descend := by
        have stays := (free owner ⟨trail, way, descends⟩).2
        cases node : g.node owner with
        | aggregate a => simp [node, seekAggregate] at stays
        | subquery s =>
          have isSubquery : (g.node owner).isSubquery = true := by rw [node]; rfl
          exact absurd isSubquery (enters isSubquery)
        | _ => rfl
      refine ⟨owner :: trail, way.down (Node.entered_subset_children _ slot), ?_⟩
      simpa [goes] using descends
  have stays := (free id sought).2
  cases node : g.node id with
  | aggregate a => simp [node, seekAggregate] at stays
  | _ => rfl

/-- Nothing with a condition is met in a range with a free join predicate. -/
theorem not_meetsConditional_of_freeJoins (freeJoins : g.FreeJoins [scope]) :
    ¬ g.MeetsConditional {sub | (g.node sub).isSubquery = true} (g.includedRanges scope) := by
  rintro ⟨range, mem, id, met, conditional⟩
  obtain ⟨r, node⟩ := Node.exists_of_isRange (g.isRange_includedRanges scope range mem)
  rcases met.eq_or_child with rfl | ⟨join, slot, met⟩
  · rw [node] at conditional
    cases conditional
  · have joined : (g.node range).joined? = some join := by
      rw [node] at slot ⊢
      exact Option.mem_toList.mp slot
    have free := (freeJoins scope (by simp) range (mem_includedRanges mem).1 join joined).2
    rw [free.not_isConditional met] at conditional
    cases conditional

/-- At the start all aggregates of a scope await their turns, the inner ones first. -/
theorem Linked.awaits (l : g.Linked root) (isScope : g.ScopeIn root scope)
    (freeJoins : g.FreeJoins [scope]) :
    g.Awaits root scope (g.includedRanges scope) {sub | (g.node sub).isSubquery = true}
      ((g.aggregateSites (g.scope scope)).reverse.map (·.1)) := by
  have found : ∀ {id}, id ∈ (g.aggregateSites (g.scope scope)).reverse.map (·.1) ↔
      ∃ clause ∈ (g.node scope).clauses, g.ConditionalIn clause id := by
    intro id
    rw [List.map_reverse, List.mem_reverse, fst_aggregateSites, List.mem_flatMap]
    refine exists_congr fun clause => and_congr_right fun mem => ?_
    exact l.mem_conditionalAggregates (l.below_clause isScope mem)
  refine ⟨l, isScope, rfl, not_meetsConditional_of_freeJoins freeJoins, fun site mem => ?_,
    fun site mem range declared below => ?_, ?_, fun clause mem id met conditional => ?_⟩
  · obtain ⟨clause, clauses, held⟩ := found.mp mem
    exact (below_of_child ((l.mem_clauses isScope).mp clauses).1).trans held.1.below
  · obtain ⟨clause, clauses, held⟩ := found.mp mem
    obtain ⟨slot, apart⟩ := (l.mem_clauses isScope).mp clauses
    have same := l.child_unique isScope.reached slot (declared_subset_children _ declared)
      held.1.below below
    exact apart (same ▸ declared)
  · rw [List.map_reverse, List.pairwise_reverse]
    exact l.pairwise_aggregateSites isScope
  · exact found.mpr ⟨clause, mem, met.outside, conditional⟩

/-! ## The pass -/

/-- The subqueries of a graph, and their copies after the aggregates of a scope over several ranges were
freed. -/
def carriedOver (g : Graph) (metadata : Metadata) (strategy : AggregateStrategy) (scope : NodeId) :
    Set NodeId :=
  {new | ∃ old, (g.node old).isSubquery = true ∧
    BecomesAfter metadata strategy (g.includedRanges scope) g
      (g.aggregateSites (g.scope scope)).reverse old new}

end Graph

open RangeQuery.Graph

namespace Query

variable {q : Query} {scope : NodeId}

/-- In a query that passed the checks, the pass over aggregates leaves no condition in a scope over
several ranges, whatever the strategy asks for. No aggregate with a condition is met from a value, the
filter or a sort key, be it in another aggregate or in a subquery that the pass made. Only the
subqueries that were there already, and their copies, are not entered. -/
theorem freeAggregates_frees_all (l : q.graph.Linked q.root) (valid : q.validate = .ok ())
    (mem : scope ∈ q.scopes) (several : 2 ≤ (q.graph.includedRanges scope).length)
    (metadata : Metadata) (strategy : AggregateStrategy) :
    let h := (q.graph.freeAggregates metadata strategy scope).1
    ∀ clause ∈ (h.node scope).clauses, ∀ id a,
      h.Meets (q.graph.carriedOver metadata strategy scope) clause id →
        h.node id = .aggregate a → a.condition = none := by
  intro h clause inClause id a met node
  have isScope := scopeIn_of_mem_scopes mem
  have freeJoins : q.graph.FreeJoins [scope] := freeJoins_of_not_breaks l (by simpa using isScope)
    (by simpa using not_breaks_of_validate valid mem)
  have turns := l.awaits isScope freeJoins
  have all : h = (freeAggregate metadata strategy (q.graph.includedRanges scope) q.graph
      (q.graph.aggregateSites (q.graph.scope scope)).reverse).1 :=
    congrArg Prod.fst (if_neg (by omega))
  rw [all] at inClause met node
  have freed := turns.not_isConditional inClause met
  rw [node] at freed
  exact Option.not_isSome_iff_eq_none.mp (by simpa [Node.isConditional] using freed)

/-- For each customer the total of the orders, on the condition that some order is open. -/
def openOrderTotals : Query where
  graph := ⟨#[
    ⟨.range { name := "c", entity := some "Customer", join := none, required := false
              included := true, nested := none }, some ⟨11⟩⟩,
    ⟨.range { name := "o", entity := some "Order", join := some ⟨4⟩, required := false
              included := true, nested := none }, some ⟨11⟩⟩,
    ⟨.identifier { range := ⟨1⟩, path := ["customerId"] }, some ⟨4⟩⟩,
    ⟨.identifier { range := ⟨0⟩, path := ["id"] }, some ⟨4⟩⟩,
    ⟨.binary .eq ⟨2⟩ ⟨3⟩, some ⟨1⟩⟩,
    ⟨.identifier { range := ⟨1⟩, path := ["total"] }, some ⟨9⟩⟩,
    ⟨.identifier { range := ⟨1⟩, path := ["id"] }, some ⟨8⟩⟩,
    ⟨.identifier { range := ⟨1⟩, path := ["open"] }, some ⟨8⟩⟩,
    ⟨.aggregate { function := .any, operand := ⟨6⟩, condition := some ⟨7⟩ }, some ⟨9⟩⟩,
    ⟨.aggregate { function := .sum, operand := ⟨5⟩, condition := some ⟨8⟩ }, some ⟨10⟩⟩,
    ⟨.projection { name := "value0", expression := ⟨9⟩, visible := true }, some ⟨11⟩⟩,
    ⟨.retrieve { Retrieve.empty with ranges := [⟨0⟩, ⟨1⟩], values := [⟨10⟩] }, none⟩]⟩
  root := ⟨11⟩

/-- The ANY is folded first. The sum becomes a subquery then, and a copy of the ANY is met in the filter
of that. -/
theorem freeAggregates_frees_openOrderTotals :
    let h := (openOrderTotals.graph.freeAggregates noMetadata (wrapFunctions [.sum]) ⟨11⟩).1
    let carried := openOrderTotals.graph.carriedOver noMetadata (wrapFunctions [.sum]) ⟨11⟩
    (openOrderTotals.graph.Linked ⟨11⟩ ∧ openOrderTotals.validate = .ok () ∧
      ⟨11⟩ ∈ openOrderTotals.scopes ∧ 2 ≤ (openOrderTotals.graph.includedRanges ⟨11⟩).length) ∧
    ⟨10⟩ ∈ (h.node ⟨11⟩).clauses ∧ h.Meets carried ⟨10⟩ ⟨26⟩ ∧ (h.node ⟨26⟩).isSubquery = true ∧
    h.Meets carried ⟨26⟩ ⟨22⟩ ∧ (h.node ⟨22⟩).isAny = true ∧
    ∀ a, h.node ⟨22⟩ = .aggregate a → a.condition = none := by
  intro h carried
  have linked : openOrderTotals.graph.Linked ⟨11⟩ :=
    .of_closed [⟨11⟩, ⟨0⟩, ⟨1⟩, ⟨2⟩, ⟨3⟩, ⟨4⟩, ⟨5⟩, ⟨6⟩, ⟨7⟩, ⟨8⟩, ⟨9⟩, ⟨10⟩] (by decide) (by decide)
      (by decide) (by decide) (by decide)
  have valid : openOrderTotals.validate = .ok () := by decide +kernel
  have mem : ⟨11⟩ ∈ openOrderTotals.scopes := by decide +kernel
  have several : 2 ≤ (openOrderTotals.graph.includedRanges ⟨11⟩).length := by decide
  -- There was no subquery, so none is carried over.
  have enters : ∀ sub, sub ∉ carried := by
    rintro sub ⟨old, isSubquery, -⟩
    have none : ∀ index < 12, (openOrderTotals.graph.node ⟨index⟩).isSubquery = false := by decide
    by_cases has : openOrderTotals.graph.Has old
    · rw [none old.index has] at isSubquery
      cases isSubquery
    · rw [node_of_not_has has] at isSubquery
      cases isSubquery
  have clause : ⟨10⟩ ∈ (h.node ⟨11⟩).clauses := by decide +kernel
  have made : h.Meets carried ⟨10⟩ ⟨26⟩ := Meets.here.down (fun _ => enters ⟨10⟩) (by decide +kernel)
  have filter : h.Meets carried ⟨26⟩ ⟨23⟩ := Meets.here.down (fun _ => enters ⟨26⟩) (by decide +kernel)
  have copy : h.Meets carried ⟨26⟩ ⟨22⟩ := filter.down (fun _ => enters ⟨23⟩) (by decide +kernel)
  exact ⟨⟨linked, valid, mem, several⟩, clause, made, by decide +kernel, copy, by decide +kernel,
    fun a node => freeAggregates_frees_all linked valid mem several noMetadata (wrapFunctions [.sum])
      ⟨10⟩ clause ⟨22⟩ a (made.trans copy) node⟩

end Query

end RangeQuery
