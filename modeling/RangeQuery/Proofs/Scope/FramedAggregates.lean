import RangeQuery.Proofs.Scope.ClauseFrame

/-!
Aggregates leave the clauses of every scope. An ANY that is resolved was found on the way up to a
clause, and the other aggregates were searched for from the clauses, so neither stands where a
scope declares a range; values are projections and never aggregates. An ANY that asks for a window
is all that its scope retrieves, and was so when the pass began: until its turn comes nothing else
takes its slot.
-/

namespace RangeQuery

namespace Graph

variable {g h k : Graph} {root scope other any : NodeId} {scopes : List NodeId}

/-! ## Where an ANY stands -/

/-- An ANY that is a value by itself hangs below a projection among the values. -/
theorem mem_values_of_locateFrom {steps : Nat} {child : NodeId} {truth : Bool} {site : AnySite}
    (located : g.locateFrom scope any steps child truth = some site)
    (among : site.site = .values) (isValue : site.isValue = true) :
    ∃ value ∈ (g.node scope).values, g.parent any = some value ∧ g.isProjection value = true := by
  induction steps generalizing child truth with
  | zero => cases located
  | succ steps ih =>
    unfold locateFrom at located
    split at located
    · cases located
    next owner _ =>
    split at located
    · split at located
      · next r found =>
        obtain ⟨place, sited, rfl⟩ := Option.map_eq_some_iff.mp located
        simp only [Bool.and_eq_true, Bool.not_eq_true', beq_iff_eq] at isValue among
        obtain ⟨⟨rfl, parent⟩, projection⟩ := isValue
        subst among
        refine ⟨child, ?_, parent, projection⟩
        have values : (g.node scope).values = r.values := by
          cases node : g.node scope <;> simp_all [retrieve?, Node.values]
        rw [values]
        unfold siteOf? at sited
        split at sited
        · next held => simpa using held
        · split at sited
          · cases sited
          · split at sited <;> cases sited
      · cases located
    · split at located
      · exact ih located
      · split at located
        · cases located
        · exact ih located

/-- What a scope declares belongs to none of its clauses. -/
theorem Linked.siteOf?_of_declared (l : g.Linked root) (isScope : g.ScopeIn root scope) {r : Retrieve}
    (node : g.node scope = .retrieve r) (declared : any ∈ (g.node scope).declared) (truth : Bool) :
    siteOf? r truth any = none := by
  have apart : any ∉ r.values ++ r.condition.toList ++ r.sort.map (·.expression) := fun clause =>
    (l.clause_apart isScope (by rw [Graph.scope, node]; exact clause)).2 declared
  simp only [List.mem_append, Option.mem_toList, List.mem_map, not_or, not_exists, not_and] at apart
  have unsorted : (r.sort.any fun item => item.expression == any) = false := by
    simpa using apart.2
  simp [siteOf?, apart.1.1, apart.1.2, unsorted]

/-- What a scope declares stands in no clause of any scope. -/
theorem Linked.locate?_of_declared (l : g.Linked root) (isScope : g.ScopeIn root scope)
    (declared : any ∈ (g.node scope).declared) : g.locate? other any = none := by
  have owned := l.parent_child isScope.reached (declared_subset_children _ declared)
  obtain ⟨r, node⟩ := Node.exists_of_isRetrieve isScope.isRetrieve
  unfold locate?
  cases g.size with
  | zero => rfl
  | succ steps =>
    simp only [locateFrom, owned]
    split
    · next here =>
      subst here
      simp [retrieve?, node, l.siteOf?_of_declared isScope node declared]
    · simp [node, asksTruth, closesScope]

/-! ## Recorded owners -/

/-- Old nodes keep their recorded owner or have none. -/
structure Releases (g h : Graph) : Prop where
  size : g.size ≤ h.size
  parent : ∀ {id}, g.Has id → h.parent id = g.parent id ∨ h.parent id = none

namespace Releases

theorem refl (g : Graph) : Releases g g := ⟨Nat.le_refl _, fun _ => .inl rfl⟩

theorem trans (a : Releases g h) (b : Releases h k) : Releases g k where
  size := a.size.trans b.size
  parent {id} has := by
    rcases b.parent (Nat.lt_of_lt_of_le has a.size) with same | none
    · rw [same]
      exact a.parent has
    · exact .inr none

theorem beside (e : Extends g h) : Releases g h := ⟨e.size, fun has => .inl (e.parent has)⟩

/-- A swap for a new node releases the old one at most. -/
theorem replace (old : NodeId) {new : NodeId} (fresh : ¬ g.Has new) (e : Extends g h) :
    Releases g (h.replace old new).1 := by
  have size := (Node.formal_stamp.toPlaced.replace h old new).size
  refine ⟨e.size.trans size, fun {id} has => ?_⟩
  have ne : new ≠ id := fun same => fresh (same ▸ has)
  rw [← e.parent has]
  unfold Graph.replace
  split
  · next owner _ =>
    by_cases slot : old ∈ h.children owner
    · rw [replaceChild_of_mem slot, parent_setParent_of_ne _ ne]
      rcases parent_release_or (h.setNode owner ((h.node owner).withChildren
        ((h.children owner).replace old new))) owner [old] id with same | ⟨none, -⟩
      · rw [same, parent_setNode]
        exact .inl rfl
      · exact .inr none
    · rw [replaceChild_of_not_mem slot]
      exact .inl rfl
  · exact .inl rfl

theorem of_swapsIn {id : NodeId} (s : SwapsIn g id h) : Releases g h := by
  obtain ⟨h', new, beside, fresh, labels⟩ := s
  have released := replace id fresh beside
  refine ⟨released.size.trans (Nat.le_of_eq labels.size.symm), fun has => ?_⟩
  rw [labels.parent]
  exact released.parent has

end Releases

/-! ## Swapped aggregates -/

namespace Framed

variable (framed : Framed g h scope) (l : g.Linked root) (isScope : g.ScopeIn root scope)

include framed l isScope

section

variable {old : NodeId} (apart : old ∉ (g.node scope).declared)
  (apart' : old ∉ (g.node scope).values)

include apart apart'

/-- A subquery in the place of what is neither range nor value of a scope leaves the clauses. -/
theorem replaceBySubquery (kind : SubqueryKind) (expression : Option NodeId)
    (sub : CorrelatedScope) : Framed g (h.replaceBySubquery old kind expression sub) scope := by
  have added := framed.unbound l isScope (fun _ => Same.add _ h _) (.add _ h
    (.subquery { kind, ranges := sub.ranges, expression, condition := sub.condition }))
  exact added.replace l isScope (h.has_add_next _) (congrArg Node.isAny (node_add_next h _)) apart apart'

/-- An ANY by itself that is inlined adds a window at most. -/
theorem inlineAny {value : NodeId} (sole : (g.node other).values = [value])
    (test : g.isTest value = true) : Framed g (h.inlineAny other old) scope := by
  have added := framed.unbound l isScope (fun _ => Same.add _ h _) (.add _ h (.number "1"))
  have swapped := added.replace l isScope (h.has_add_next _)
    (congrArg Node.isAny (node_add_next h _)) apart apart'
  unfold Graph.inlineAny
  dsimp only
  split
  · next none => exact swapped.setWindow l isScope (Option.isNone_iff_eq_none.mp none) sole test
  · exact swapped

theorem wrapped {metadata : Metadata} {ranges : List NodeId} {wrapped : Bool}
    (w : Wrapped h metadata ranges old k wrapped) : Framed g k scope := by
  cases w with
  | left beside => exact framed.beside l isScope beside
  | tested kind _ _ c =>
    exact (framed.beside l isScope c.beside).replaceBySubquery l isScope apart apart' ..
  | valued _ _ v =>
    exact (framed.beside l isScope v.beside).replaceBySubquery l isScope apart apart' ..

end

end Framed

/-! ## Folded conditions -/

theorem Framed.foldCondition (framed : Framed g h scope) (l : g.Linked root)
    (isScope : g.ScopeIn root scope) (id : NodeId) : Framed g (h.foldCondition id).1 scope :=
  framed.same l isScope (Node.formal_stamp.toPlaced.foldCondition h id)
    (.foldCondition (fun _ _ => rfl) h id) (.foldCondition (fun _ _ => rfl) h id)
    (.foldCondition (fun _ _ => rfl) h id) (.foldCondition (fun _ _ => rfl) h id)

theorem Framed.freeAggregatesOfOne (framed : Framed g h scope) (l : g.Linked root)
    (isScope : g.ScopeIn root scope) (other : NodeId) :
    Framed g (h.freeAggregatesOfOne other).1 scope := by
  have promoted : Framed g (h.promoteCondition other).1 scope := by
    unfold Graph.promoteCondition
    split
    · exact framed.unbound l isScope
        (fun unbound => (unbound.setCondition h _ _).trans (unbound.setCondition _ _ _))
        ((Node.lasting_terms?.setCondition h _ _).trans (Node.lasting_terms?.setCondition _ _ _))
    · exact framed
  exact changeEach_induction (motive := fun k => Framed g k scope)
    (fun _ _ framed => changeEach_induction (motive := fun k => Framed g k scope)
      (fun id _ framed => framed.foldCondition l isScope id) framed) promoted

section

variable (metadata : Metadata) (strategy : AggregateStrategy) {ranges : List NodeId}

theorem Framed.freeOne (framed : Framed g h scope) (l : g.Linked root)
    (isScope : g.ScopeIn root scope) (isRange : ∀ range ∈ ranges, (h.node range).isRange = true)
    {id : NodeId} (site : ExpressionSite) (apart : id ∉ (g.node scope).declared)
    (apart' : id ∉ (g.node scope).values) :
    Framed g (h.freeOne metadata strategy ranges id site).1 scope := by
  rcases freeOne_cases metadata strategy isRange id site with wrapped | ⟨k, wrapped, same⟩
  · exact framed.wrapped l isScope apart apart' wrapped
  · rw [same]
    exact (framed.wrapped l isScope apart apart' wrapped).foldCondition l isScope id

theorem Framed.freeAggregate (framed : Framed g h scope) (l : g.Linked root)
    (isScope : g.ScopeIn root scope) (isRange : ∀ range ∈ ranges, (h.node range).isRange = true)
    {sites : List (NodeId × ExpressionSite)}
    (apart : ∀ site ∈ sites, site.1 ∉ (g.node scope).declared ∧ site.1 ∉ (g.node scope).values) :
    Framed g (Graph.freeAggregate metadata strategy ranges h sites).1 scope := by
  induction sites generalizing h with
  | nil => exact framed
  | cons first rest ih =>
    obtain ⟨undeclared, other⟩ := apart first (by simp)
    have stamp := same_freeOne metadata strategy Node.formal_stamp.toPlaced isRange first.1 first.2
    exact ih (framed.freeOne metadata strategy l isScope isRange first.2 undeclared other)
      (fun range mem => stamp.isRange_mono (isRange range mem))
      fun site later => apart site (by simp [later])

end

/-! ## Passes -/

/-- Scopes below a well-linked root, all of whose values are projections. -/
structure Named (g : Graph) (root : NodeId) (scopes : List NodeId) : Prop where
  linked : g.Linked root
  isScope : ∀ scope ∈ scopes, g.ScopeIn root scope
  projections : ∀ scope ∈ scopes, ∀ value ∈ (g.node scope).values, g.isProjection value = true

theorem isProjection_eq (g : Graph) (id : NodeId) :
    g.isProjection id = (g.node id).stamp.projected?.isSome := by
  unfold isProjection
  cases g.node id <;> rfl

theorem Same.isProjection (same : Same Node.stamp g h) {id : NodeId} (has : g.Has id) :
    h.isProjection id = g.isProjection id := by
  rw [isProjection_eq, same.node has, ← isProjection_eq]

theorem isAggregate_of_isAny {node : Node} (isAny : node.isAny = true) :
    ∃ a, node = .aggregate a := by
  cases node <;> simp_all [Node.isAny]

theorem isAggregate_of_isConditional {node : Node} (conditional : node.isConditional = true) :
    ∃ a, node = .aggregate a := by
  cases node <;> simp_all [Node.isConditional]

namespace Named

variable (named : Named g root scopes) (framed : ∀ scope ∈ scopes, Framed g h scope)

include named framed

/-- An aggregate is no value of a scope. -/
theorem not_mem_values {a : Aggregate} {id : NodeId} (mem : scope ∈ scopes)
    (node : h.node id = .aggregate a) : id ∉ (g.node scope).values := fun value => by
  have has := Framed.has_value named.linked (named.isScope scope mem) value
  have projection := named.projections scope mem id value
  rw [← (framed scope mem).stamp.isProjection has] at projection
  simp [isProjection, node] at projection

/-- Freeing the aggregates of one scope leaves the clauses of all. -/
theorem freeAggregates (l : h.Linked root) (isScope : ∀ scope ∈ scopes, h.ScopeIn root scope)
    (metadata : Metadata) (strategy : AggregateStrategy) (mem : other ∈ scopes) :
    ∀ scope ∈ scopes, Framed g (h.freeAggregates metadata strategy other).1 scope := by
  intro scope mem'
  unfold Graph.freeAggregates
  dsimp only
  split
  · exact (framed scope mem').freeAggregatesOfOne named.linked (named.isScope scope mem') other
  · -- The sites lie below clauses of the scope and so are none of the ranges of another one.
    have apart : ∀ site ∈ (h.aggregateSites (h.scope other)).reverse,
        site.1 ∉ (g.node scope).declared ∧ site.1 ∉ (g.node scope).values := by
      intro site found
      have found := List.mem_reverse.mp found
      obtain ⟨start, clause, from_⟩ := exists_clause_of_mem_aggregateSites found
      obtain ⟨slot, undeclared⟩ := l.clause_apart (isScope other mem) clause
      obtain ⟨a, node⟩ := isAggregate_of_isConditional (isConditional_of_mem_aggregateSites found)
      refine ⟨fun declared => ?_, named.not_mem_values framed mem' node⟩
      rw [← ((framed scope mem').declared named.linked (named.isScope scope mem')).mem_iff] at declared
      exact l.not_below_slot_of_declared (isScope scope mem') (isScope other mem) slot undeclared
        declared (below_of_mem_conditionalAggregates from_)
    exact (framed scope mem').freeAggregate metadata strategy named.linked (named.isScope scope mem')
      (h.isRange_includedRanges other) apart

/-- Resolving an ANY of one scope leaves the clauses of all, if it hangs where it hung when the pass
began or nowhere. -/
theorem resolveAnyAt {start : Graph} (begun : ∀ scope ∈ scopes, Framed g start scope)
    (began : start.Linked root) (releases : Releases start h) (l : h.Linked root)
    (isScope : ∀ scope ∈ scopes, h.ScopeIn root scope) (metadata : Metadata) (mem : other ∈ scopes)
    {owner : NodeId} (above : start.Below root owner) (slot : any ∈ start.children owner)
    (isAny : (start.node any).isAny = true) :
    ∀ scope ∈ scopes, Framed g (h.resolveAnyAt metadata other any).1 scope := by
  intro scope mem'
  have framedHere := framed scope mem'
  have isScopeHere := named.isScope scope mem'
  rcases h.resolveAnyAt_cases metadata other any with
    ⟨-, beside⟩ | ⟨-, h', site, beside, located, outcome⟩
  · exact framedHere.beside named.linked isScopeHere beside
  · have apart : any ∉ (g.node scope).declared := fun declared => by
      rw [← (framedHere.declared named.linked isScopeHere).mem_iff] at declared
      rw [l.locate?_of_declared (isScope scope mem') declared] at located
      cases located
    obtain ⟨a, node⟩ := isAggregate_of_isAny isAny
    have apart' := named.not_mem_values begun mem' node
    have framedBeside := framedHere.beside named.linked isScopeHere beside
    rcases outcome with ⟨inlined, among, isValue, sole⟩ | ⟨kind, sub, replaced, -⟩
    · obtain ⟨value, held, recorded, -⟩ := mem_values_of_locateFrom located among isValue
      have sole' : (g.node other).values = [value] := by
        rw [values_scope, (framed other mem).values] at sole
        rw [(framed other mem).values] at held
        obtain ⟨only, is⟩ := List.length_eq_one_iff.mp sole
        rw [is] at held ⊢
        rw [List.mem_singleton.mp held]
      -- Nothing takes the slot of an ANY before its turn.
      have owned := began.parent_child above slot
      have same : value = owner := by
        rcases releases.parent (has_of_parent owned) with kept | none
        · rw [kept, owned] at recorded
          exact (Option.some.inj recorded).symm
        · rw [none] at recorded
          cases recorded
      have test : start.isTest value = true := by
        subst same
        have within : value ∈ (g.node other).values := by simp [sole']
        have has := Framed.has_value named.linked (named.isScope other mem) within
        have projection := named.projections other mem value within
        rw [← (begun other mem).stamp.isProjection has] at projection
        cases kind : start.node value <;>
          simp_all [isProjection, children, Node.children, isTest, Node.projected?]
      rw [inlined]
      exact framedBeside.inlineAny named.linked isScopeHere apart apart' sole'
        ((begun other mem).isTest named.linked (named.isScope other mem) (by simp [sole']) test)
    · rw [replaced]
      exact framedBeside.replaceBySubquery named.linked isScopeHere apart apart' kind none sub

/-- Resolving the ANYs of one scope leaves the clauses of all. -/
theorem resolveAnys (l : h.Linked root) (isScope : ∀ scope ∈ scopes, h.ScopeIn root scope)
    (metadata : Metadata) (mem : other ∈ scopes) :
    ∀ scope ∈ scopes, Framed g (h.resolveAnys metadata other).1 scope := by
  refine (changeEach_induction (motive := fun k => k.Linked root ∧
    (∀ scope ∈ scopes, k.ScopeIn root scope) ∧ Releases h k ∧ ∀ scope ∈ scopes, Framed g k scope)
    (fun {k} any found ⟨l', isScope', releases, framed'⟩ => ?_)
    ⟨l, isScope, .refl h, framed⟩).2.2.2
  obtain ⟨reached, isAny⟩ := List.mem_filter.mp found
  obtain ⟨owner, above, slot⟩ := (isScope other mem).exists_owner (below_of_mem_postOrder reached)
    (isRetrieve_of_isAny isAny)
  have resolved := k.resolved_resolveAnyAt metadata other any
  refine ⟨(l'.zone.resolved resolved).linked (Set.mem_singleton root), fun scope mem' =>
    (Keeps.resolved resolved).scopeIn l' (isScope' scope mem'), ?_,
    named.resolveAnyAt framed' framed l releases l' isScope' metadata mem above slot isAny⟩
  rcases k.resolveAnyAt_cases metadata other any with ⟨-, beside⟩ | ⟨told, -⟩
  · exact releases.trans (.beside beside)
  · exact releases.trans (.of_swapsIn (swapsIn_resolveAnyAt told))

end Named

end Graph

end RangeQuery
