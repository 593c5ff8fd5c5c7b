import RangeQuery.Proofs.Scope.ClauseReads
import RangeQuery.Proofs.Scope.Grafts

/-!
Clauses without aggregates. A filter holds no aggregate but ANYs, a join predicate none at all. The
passes keep it so: what they put into a clause is closed, a filter that loses its markers is made of
its other conjuncts, and the condition that a scope takes over from all it retrieves becomes its
filter.
-/

namespace RangeQuery

namespace Graph

variable {g h : Graph} {root scope top id : NodeId} {scopes : List NodeId} {allowAny : Bool}
  {moved refilled : Set NodeId}

/-! ## Searches for aggregates -/

theorem seekAggregate_stamp (allowAny : Bool) (node : Node) :
    seekAggregate allowAny node.stamp = seekAggregate allowAny node := by
  cases node <;> rfl

theorem Same.seekAggregate (same : Same Node.stamp g h) (has : g.Has id) (allowAny : Bool) :
    Graph.seekAggregate allowAny (h.node id) = Graph.seekAggregate allowAny (g.node id) := by
  rw [← seekAggregate_stamp, same.node has, seekAggregate_stamp]

/-- A search does not stop at a closed node, and does not get further. -/
theorem seekAggregate_of_isClosed {node : Node} (closed : node.isClosed = true) (allowAny : Bool) :
    seekAggregate allowAny node ≠ .stop ∧
      (seekAggregate allowAny node = .descend → node.children = []) := by
  cases node <;> simp_all [Node.isClosed, seekAggregate, Node.children]

namespace Sought

theorem refl (g : Graph) (allowAny : Bool) (top : NodeId) : g.Sought allowAny top top :=
  ⟨[], .here, by simp⟩

theorem child {owner child : NodeId} (sought : g.Sought allowAny top owner)
    (descends : seekAggregate allowAny (g.node owner) = .descend)
    (slot : child ∈ g.children owner) : g.Sought allowAny top child := by
  obtain ⟨trail, way, opened⟩ := sought
  exact ⟨owner :: trail, way.down slot, List.forall_mem_cons.mpr ⟨descends, opened⟩⟩

theorem trans {middle : NodeId} (sought : g.Sought allowAny top middle)
    (further : g.Sought allowAny middle id) : g.Sought allowAny top id := by
  obtain ⟨trail, way, opened⟩ := sought
  obtain ⟨trail', way', opened'⟩ := further
  exact ⟨trail' ++ trail, way.append way', List.forall_mem_append.mpr ⟨opened', opened⟩⟩

/-- Where closed nodes were put into old ones, a search comes to a node that it came to before or to
a closed one. -/
theorem of_grafts (grafts : Grafts g h moved refilled) (free : g.FreeOfAggregates allowAny top)
    (apart : ∀ owner ∈ moved, ¬ h.Below top owner) (sought : h.Sought allowAny top id) :
    g.Sought allowAny top id ∨ h.Has id ∧ (h.node id).isClosed = true := by
  obtain ⟨trail, way, opened⟩ := sought
  induction way with
  | here => exact .inl (.refl g allowAny top)
  | @down trail owner child way slot ih =>
    have descends := opened owner (by simp)
    rcases ih fun other on => opened other (by simp [on]) with before | ⟨-, closed⟩
    · have has := (free owner before).1
      have descends' := (grafts.stamp.seekAggregate has allowAny).symm.trans descends
      refine (grafts.terms has (fun out => apart owner out ⟨trail, way⟩) ?_ slot).imp_left
        (before.child descends')
      intro a node
      rw [node, Graph.seekAggregate] at descends'
      split at descends' <;> cases descends'
    · rw [children, (seekAggregate_of_isClosed closed allowAny).2 descends] at slot
      cases slot

end Sought

namespace FreeOfAggregates

theorem of_isClosed (has : g.Has top) (closed : (g.node top).isClosed = true)
    (allowAny : Bool) : g.FreeOfAggregates allowAny top := by
  obtain ⟨stays, ends⟩ := seekAggregate_of_isClosed closed allowAny
  rintro id ⟨trail, way, opened⟩
  rcases way.top with ⟨-, rfl⟩ | ⟨child, slot, rest, -, rfl⟩
  · exact ⟨has, stays⟩
  · rw [children, ends (opened top (by simp))] at slot
    cases slot

theorem of_children (has : g.Has top) (stays : seekAggregate allowAny (g.node top) ≠ .stop)
    (children : ∀ child ∈ g.children top, g.FreeOfAggregates allowAny child) :
    g.FreeOfAggregates allowAny top := by
  rintro id ⟨trail, way, opened⟩
  rcases way.top with ⟨-, rfl⟩ | ⟨child, slot, rest, way', rfl⟩
  · exact ⟨has, stays⟩
  · exact children child slot id ⟨rest, way', fun owner on => opened owner (by simp [on])⟩

variable (free : g.FreeOfAggregates allowAny top)

include free

theorem of_sought (sought : g.Sought allowAny top id) : g.FreeOfAggregates allowAny id :=
  fun other further => free other (sought.trans further)

/-- What is free of aggregates stays so when closed nodes are put into it. -/
theorem grafted (grafts : Grafts g h moved refilled)
    (apart : ∀ owner ∈ moved, ¬ h.Below top owner) : h.FreeOfAggregates allowAny top := by
  intro id sought
  rcases sought.of_grafts grafts free apart with before | ⟨has, closed⟩
  · obtain ⟨has, stays⟩ := free id before
    exact ⟨grafts.stamp.has has, (grafts.stamp.seekAggregate has allowAny).symm ▸ stays⟩
  · exact ⟨has, (seekAggregate_of_isClosed closed allowAny).1⟩

omit free

/-- Predicates that are free of aggregates are so together. -/
theorem conjoinOnto {first : NodeId} {rest : List NodeId}
    (free : ∀ id ∈ first :: rest, g.FreeOfAggregates allowAny id) :
    (g.conjoinOnto first rest).1.FreeOfAggregates allowAny (g.conjoinOnto first rest).2 := by
  induction rest generalizing g first with
  | nil => exact free first (by simp)
  | cons next rest ih =>
    have grafts : Grafts g (g.add (.binary .and first next)).1 ∅ ∅ := .add g _
    have kept : ∀ id ∈ first :: next :: rest,
        (g.add (.binary .and first next)).1.FreeOfAggregates allowAny id := fun id mem =>
      (free id mem).grafted grafts (by simp)
    have both : (g.add (.binary .and first next)).1.FreeOfAggregates allowAny g.next := by
      refine .of_children (g.has_add_next _) (by rw [node_add_next]; simp [seekAggregate]) ?_
      rw [children, node_add_next]
      intro child slot
      rcases List.mem_pair.mp slot with rfl | rfl <;> exact kept _ (by simp)
    exact ih (List.forall_mem_cons.mpr ⟨both, fun id mem => kept id (by simp [mem])⟩)

/-- The conjuncts of a predicate that is free of aggregates are so. -/
theorem conjunct (l : g.Linked root) (above : g.Below root top)
    (free : g.FreeOfAggregates allowAny top) (mem : id ∈ g.conjuncts top) :
    g.FreeOfAggregates allowAny id := by
  obtain ⟨-, trail, way, ands⟩ := (mem_conjuncts l above).mp mem
  refine free.of_sought ⟨trail, way, fun owner on => ?_⟩
  obtain ⟨left, right, node⟩ := Node.exists_of_isAnd (ands owner on)
  rw [node]
  rfl

end FreeOfAggregates

/-! ## Clauses -/

theorem InClause.of_condition? {condition : NodeId}
    (held : (g.node scope).condition? = some condition)
    (isRetrieve : (g.node scope).isRetrieve = true) : g.InClause scope .filter condition := by
  obtain ⟨r, node⟩ := Node.exists_of_isRetrieve isRetrieve
  rw [node] at held
  exact .filter (by rwa [Graph.scope, node])

theorem InClause.of_joined? {range join : NodeId} (declared : range ∈ (g.node scope).declared)
    (held : (g.node range).joined? = some join) : ∃ name, g.InClause scope (.join name) join := by
  cases node : g.node range with
  | range r =>
    rw [node] at held
    exact ⟨r.name, .join declared node held⟩
  | _ => simp [node, Node.joined?] at held

/-- What is only moved in scopes and in the ranges that they declare is not moved below a clause. -/
theorem InClause.apart {clause : Clause} (inClause : g.InClause scope clause top)
    (l : g.Linked root) (isScope : ∀ scope ∈ scopes, g.ScopeIn root scope) (mem : scope ∈ scopes)
    (within : ∀ id ∈ moved, ∃ other ∈ scopes, id = other ∨ id ∈ (g.node other).declared) :
    ∀ id ∈ moved, ¬ g.Below top id := by
  intro id out below
  obtain ⟨other, mem', rfl | declared⟩ := within id out
  · exact l.not_below_clause (isScope id mem') (isScope scope mem) inClause below
  · exact l.not_below_clause_of_declared (isScope other mem') (isScope scope mem) inClause declared
      below

/-- The join predicates of declared ranges are no bare relations and free of aggregates. -/
def FreeJoins (g : Graph) (scopes : List NodeId) : Prop :=
  ∀ scope ∈ scopes, ∀ range ∈ (g.node scope).declared, ∀ join,
    (g.node range).joined? = some join →
      (∀ i, g.node join ≠ .identifier i) ∧ g.FreeOfAggregates false join

/-- Filters are free of aggregates but ANYs, and so are the conditions of retrieved aggregates,
which may become filters. -/
structure FreeFilters (g : Graph) (scopes : List NodeId) : Prop where
  filter : ∀ scope ∈ scopes, ∀ condition, (g.node scope).condition? = some condition →
    g.FreeOfAggregates true condition
  retrieved : ∀ scope ∈ scopes, ∀ value ∈ (g.node scope).values, ∀ aggregate a condition,
    (g.node value).projected? = some aggregate → g.node aggregate = .aggregate a →
      a.function ≠ .any → a.condition = some condition → g.FreeOfAggregates true condition

section

variable (grafts : Grafts g h moved refilled) (l : h.Linked root)
  (isScope : ∀ scope ∈ scopes, h.ScopeIn root scope)
  (within : ∀ id ∈ moved, ∃ scope ∈ scopes, id = scope ∨ id ∈ (h.node scope).declared)

include grafts l isScope within

/-- Join predicates that come from ranges of the scopes, or are closed, stay free of aggregates. -/
theorem FreeJoins.kept (free : g.FreeJoins scopes)
    (sources : ∀ scope ∈ scopes, ∀ range ∈ (h.node scope).declared, ∀ join,
      (h.node range).joined? = some join →
        (∃ other ∈ scopes, ∃ source ∈ (g.node other).declared,
          (g.node source).joined? = some join) ∨ h.Has join ∧ (h.node join).isClosed = true) :
    h.FreeJoins scopes := by
  intro scope mem range declared join held
  rcases sources scope mem range declared join held with
    ⟨other, mem', source, declared', before⟩ | ⟨has, closed⟩
  · obtain ⟨relation, free⟩ := free other mem' source declared' join before
    obtain ⟨name, inClause⟩ := InClause.of_joined? declared held
    refine ⟨fun i node => ?_, free.grafted grafts (inClause.apart l isScope mem within)⟩
    have stamp := grafts.stamp.node (free join (.refl g false join)).1
    rw [node] at stamp
    cases was : g.node join <;> simp_all [Node.stamp, Node.label]
  · refine ⟨fun i node => ?_, .of_isClosed has closed false⟩
    rw [node] at closed
    cases closed

/-- Filters that are not filled anew stay free of aggregates but ANYs. -/
theorem FreeFilters.kept (free : g.FreeFilters scopes) (l' : g.Linked root)
    (isScope' : ∀ scope ∈ scopes, g.ScopeIn root scope)
    (values : ∀ scope ∈ scopes, (h.node scope).values = (g.node scope).values)
    (projections : ∀ scope ∈ scopes, ∀ value ∈ (g.node scope).values, value ∉ moved ∧
      ∃ p, g.node value = .projection p)
    (filled : ∀ scope ∈ scopes, scope ∈ refilled → ∀ condition,
      (h.node scope).condition? = some condition → h.FreeOfAggregates true condition)
    (aggregates : ∀ {id a}, g.node id = .aggregate a → id ∉ refilled) : h.FreeFilters scopes where
  filter scope mem condition held := by
    by_cases again : scope ∈ refilled
    · exact filled scope mem again condition held
    · have reached := (isScope' scope mem).reached
      rcases grafts.conditions (l'.has_of_below reached) again held with before | ⟨has, closed⟩
      · have inClause := InClause.of_condition? held (isScope scope mem).isRetrieve
        exact (free.filter scope mem condition before).grafted grafts
          (inClause.apart l isScope mem within)
      · exact .of_isClosed has closed true
  retrieved scope mem value held aggregate a condition projected node function conditional := by
    have slot : aggregate ∈ h.children value := projected?_mem_children projected
    have slot' : condition ∈ h.children aggregate := by
      simp [children, node, Node.children, conditional]
    have inClause : h.InClause scope .values value := .value (by rwa [values_scope])
    rw [values scope mem] at held
    obtain ⟨out, p, was⟩ := projections scope mem value held
    have above := (isScope' scope mem).reached.child (values_subset_children _ held)
    -- The aggregate was computed there before, and its condition is old or closed.
    rcases grafts.terms (l'.has_of_below above) out (by simp [was]) slot with before | ⟨-, closed⟩
    · have projected' : (g.node value).projected? = some aggregate := by
        rw [children, was] at before
        rw [was, Node.projected?, ← List.mem_singleton.mp before]
      have has := l'.has_of_below (above.child before)
      have stamp := grafts.stamp.node has
      rw [node] at stamp
      cases was' : g.node aggregate with
      | aggregate a' =>
        rw [was'] at stamp
        simp only [Node.stamp, Node.label, Node.aggregate.injEq, Aggregate.mk.injEq] at stamp
        have conditional' : (h.node aggregate).condition? = some condition := by
          rw [node]
          exact conditional
        rcases grafts.conditions has (aggregates was') conditional' with kept | ⟨has, closed⟩
        · rw [was'] at kept
          refine (free.retrieved scope mem value held aggregate a' condition projected' was'
            (stamp.1 ▸ function) kept).grafted grafts fun owner out below => ?_
          exact inClause.apart l isScope mem within owner out
            ((below_of_child slot).trans ((below_of_child slot').trans below))
        · exact .of_isClosed has closed true
      | _ => simp [was', Node.stamp, Node.label] at stamp
    · rw [node] at closed
      cases closed

end

/-! ## Passes -/

/-- After a merge a range has the join predicate that it had, or the kept one that of the removed
one. -/
theorem joined?_mergePair {pair : IdentityPair} (p : g.IsPair (g.includedRanges scope) pair)
    {range join : NodeId} (isRange : (g.node range).isRange = true)
    (held : ((g.mergePair scope pair).node range).joined? = some join) :
    (g.node range).joined? = some join ∨
      range = pair.kept ∧ (g.node pair.removed).joined? = some join := by
  have rejoined : ((g.rejoined pair).node range).joined? = some join := by
    rw [node_mergePair_of_isRange isRange] at held
    split at held
    · rwa [Node.joined?_excluded] at held
    · exact held
  by_cases same : range = pair.removed
  · left
    obtain ⟨-, r, node, -⟩ := mem_includedRanges p.removed
    obtain ⟨kept, removed, holder⟩ := pair
    cases holder with
    | removed => exact rejoined
    | kept =>
      subst same
      have has : g.Has range := has_of_isRange isRange
      have apart : range ≠ kept := Ne.symm p.ne
      simp only [Graph.rejoined, inheritJoin, range?, node, setRequired] at rejoined
      rw [node_updateRange_of_ne _ apart, node_setJoin_of_ne _ apart, node_setJoin_self has node]
        at rejoined
      cases rejoined
  · have moved : ((g.rejoined pair).node range).joined? =
        (g.node (pair.heir range)).joined? := view_rejoined p (fun _ _ _ _ => rfl) same
    rw [moved] at rejoined
    obtain ⟨kept, removed, holder⟩ := pair
    cases holder with
    | removed => exact .inl rejoined
    | kept =>
      by_cases isKept : range = kept
      · rw [IdentityPair.heir, isKept, Equiv.swap_apply_left] at rejoined
        exact .inr ⟨isKept, rejoined⟩
      · rw [IdentityPair.heir, Equiv.swap_apply_of_ne_of_ne isKept same] at rejoined
        exact .inl rejoined

/-- After the merges in a scope a range has the join predicate that it had, or one that a range of
the scope had. -/
theorem Linked.joined?_mergeSelfJoins (l : g.Linked root) (isScope : g.ScopeIn root scope)
    {range join : NodeId} (isRange : (g.node range).isRange = true)
    (held : ((g.mergeSelfJoins scope).1.node range).joined? = some join) :
    (g.node range).joined? = some join ∨
      ∃ source ∈ (g.node scope).declared, (g.node source).joined? = some join := by
  refine l.mergeSelfJoins_induction isScope (motive := fun h => ∀ {range},
    (g.node range).isRange = true → (h.node range).joined? = some join →
      (g.node range).joined? = some join ∨
        ∃ source ∈ (g.node scope).declared, (g.node source).joined? = some join)
    (fun {h pair} l' unbound found before range isRange held => ?_) (fun _ held => .inl held)
      isRange held
  have p := isPair_of_findIdentity? found
  have stamp := unbound Node.formal_stamp.toUnbound
  rcases joined?_mergePair p (stamp.isRange_mono isRange) held with here | ⟨-, there⟩
  · exact before isRange here
  · have declared := (mem_includedRanges p.removed).1
    have same := (unbound Node.unbound_declared).node (l.has_of_below isScope.reached)
    rw [same] at declared
    have above := isScope.reached.child (declared_subset_children _ declared)
    obtain ⟨-, r, node, -⟩ := mem_includedRanges p.removed
    have isRange' : (g.node pair.removed).isRange = true := by
      rw [← stamp.isRange (l.has_of_below above), node]
      rfl
    exact .inr ((before isRange' there).elim (fun here => ⟨_, declared, here⟩) id)

variable {bodies : List NodeId}

section

variable (o : InOrder root bodies scopes g) (pass : Pass) (context : PassContext)
  (mem : scope ∈ scopes) (anchored : g.Anchored scope)
  (declared : ∀ other ∈ scopes,
    ((pass.apply context g scope).1.node other).declared.Perm (g.node other).declared)

include o mem anchored declared

/-- A pass over one of the scopes leaves the join predicates free of aggregates. -/
theorem FreeJoins.apply (free : g.FreeJoins scopes) :
    (pass.apply context g scope).1.FreeJoins scopes := by
  have o' := o.apply pass context mem
  have l := o.linked root (by simp)
  have grafts := Grafts.apply l (o.scopes scope mem) anchored pass context
  refine free.kept grafts (o'.linked root (by simp)) o'.scopes ?_ ?_
  · rintro id (rfl | ⟨-, moved⟩)
    · exact ⟨id, mem, .inl rfl⟩
    · exact ⟨scope, mem, .inr ((declared scope mem).mem_iff.mpr moved)⟩
  · intro other mem' range declared' join held
    rw [(declared other mem').mem_iff] at declared'
    have has := l.has_of_below
      ((o.scopes other mem').reached.child (declared_subset_children _ declared'))
    have isRange : (g.node range).isRange = true := by
      rw [← grafts.stamp.isRange has]
      cases node : (pass.apply context g scope).1.node range <;>
        simp_all [Node.joined?, Node.isRange]
    by_cases merges : pass = .selfJoins
    · subst merges
      left
      rcases l.joined?_mergeSelfJoins (o.scopes scope mem) isRange held with here | ⟨source, from_⟩
      · exact ⟨other, mem', range, declared', here⟩
      · exact ⟨scope, mem, source, from_⟩
    · have out : ¬ (range = scope ∨ pass = .selfJoins ∧ range ∈ (g.node scope).declared) := by
        rintro (rfl | ⟨merges', -⟩)
        · have kind := (o.scopes range mem).isRetrieve
          obtain ⟨r, node⟩ := Node.exists_of_isRange isRange
          rw [node] at kind
          cases kind
        · exact merges merges'
      exact (grafts.joins has out held).imp_left fun here => ⟨other, mem', range, declared', here⟩

end

theorem condition_scope (isRetrieve : (g.node scope).isRetrieve = true) :
    (g.scope scope).condition = (g.node scope).condition? := by
  obtain ⟨r, node⟩ := Node.exists_of_isRetrieve isRetrieve
  simp only [Graph.scope, node, Node.condition?]

theorem condition?_setCondition (isRetrieve : (g.node scope).isRetrieve = true)
    (condition : Option NodeId) :
    ((g.setCondition scope condition).node scope).condition? = condition := by
  obtain ⟨r, node⟩ := Node.exists_of_isRetrieve isRetrieve
  have has : g.Has scope := has_of_node node (by simp)
  have written : (g.node scope).withCondition? condition =
      some (.retrieve { r with condition }) := by
    rw [node]
    rfl
  rw [node_setCondition_self has written]
  rfl

namespace FreeFilters

variable (free : g.FreeFilters scopes) (l : g.Linked root) (isScope : g.ScopeIn root scope)
  (mem : scope ∈ scopes) {condition : NodeId}

include free l isScope mem

/-- A filter that markers have left is free of aggregates but ANYs. -/
theorem extractMarkers
    (held : ((g.extractMarkers scope).1.node scope).condition? = some condition) :
    ∃ k, k.FreeOfAggregates true condition ∧
      Grafts k (g.extractMarkers scope).1 {scope} {scope} := by
  have isRetrieve := isScope.isRetrieve
  unfold Graph.extractMarkers at held ⊢
  cases found : (g.scope scope).condition with
  | none =>
    simp only [found] at held ⊢
    exact ⟨g, free.filter scope mem condition held, .refl g⟩
  | some before =>
    rw [condition_scope isRetrieve] at found
    have whole := free.filter scope mem before found
    simp only [condition_scope isRetrieve, found] at held ⊢
    unfold Graph.extractMarkersOf at held ⊢
    dsimp only at held ⊢
    split at held
    · next unmarked =>
      rw [if_pos unmarked]
      exact ⟨g, free.filter scope mem condition held, .refl g⟩
    · next marked =>
      rw [if_neg marked]
      generalize ((g.conjuncts before).filterMap
        (g.markedRange? (g.scope scope).ranges)).eraseDups = ranges at *
      have kept : ∀ id ∈ (g.conjuncts before).filter
          fun id => (g.markedRange? (g.scope scope).ranges id).isNone,
          (g.requireAll ranges).FreeOfAggregates true id := fun id mem =>
        (whole.conjunct l (isScope.reached.child (condition?_mem_children found))
          (List.mem_filter.mp mem).1).grafted
            (Grafts.requireAll g ranges : Grafts g _ ∅ ∅) (by simp)
      generalize ((g.conjuncts before).filter
        fun id => (g.markedRange? (g.scope scope).ranges id).isNone) = remaining at *
      have stamp := (Grafts.requireAll g ranges : Grafts g _ ∅ ∅).stamp.trans
        (.conjoin Node.stamp (g.requireAll ranges) remaining)
      rw [condition?_setCondition ((stamp.isRetrieve (l.has_of_below isScope.reached)).trans
        isRetrieve)] at held
      refine ⟨_, ?_, .setCondition _ _ _⟩
      cases remaining with
      | nil => cases held
      | cons first rest =>
        obtain rfl := Option.some.inj held
        exact .conjoinOnto kept

/-- The filter of a scope over one range whose aggregates are freed is free of aggregates but ANYs.
-/
theorem freeAggregatesOfOne (projections : ∀ value ∈ (g.node scope).values, ∃ p,
      g.node value = .projection p)
    (held : ((g.freeAggregatesOfOne scope).1.node scope).condition? = some condition) :
    ∃ k, k.FreeOfAggregates true condition ∧
      Grafts k (g.freeAggregatesOfOne scope).1 {scope} {scope} := by
  have grafts := Grafts.freeAggregatesOfOne g scope
  have folds : Grafts (g.promoteCondition scope).1 (g.freeAggregatesOfOne scope).1 ∅ ∅ :=
    .changeEach (fun g _ => .changeEach .foldCondition g _) _ _
  have hasScope := l.has_of_below isScope.reached
  have has := (Node.formal_stamp.toCalm.promoteCondition g scope).has hasScope
  rcases folds.conditions has (by simp) held with before | ⟨has, closed⟩
  · refine ⟨g, ?_, grafts⟩
    unfold Graph.promoteCondition at before
    cases found : g.soleConditional? (g.scope scope) with
    | none =>
      simp only [found] at before
      exact free.filter scope mem condition before
    | some promoted =>
      obtain ⟨aggregate, promoted⟩ := promoted
      obtain ⟨value, a, values, -, is, node, conditional, function⟩ :=
        soleConditional?_eq_some found
      simp only [found] at before
      have stamp := Node.formal_stamp.toCalm.setCondition g aggregate none
      rw [condition?_setCondition ((stamp.isRetrieve hasScope).trans isScope.isRetrieve)] at before
      obtain rfl := Option.some.inj before
      rw [values_scope] at values
      have held : value ∈ (g.node scope).values := by simp [values]
      obtain ⟨p, projection⟩ := projections value held
      refine free.retrieved scope mem value held aggregate a promoted ?_ node function conditional
      rw [is, projection, valueExpression, projection]
      rfl
  · exact ⟨_, .of_isClosed has closed true, .refl _⟩

/-- The filter of a scope whose aggregates are freed is free of aggregates but ANYs. -/
theorem freeAggregates (metadata : Metadata) (strategy : AggregateStrategy)
    (projections : ∀ value ∈ (g.node scope).values, ∃ p, g.node value = .projection p)
    (held : ((g.freeAggregates metadata strategy scope).1.node scope).condition? = some condition) :
    ∃ k, k.FreeOfAggregates true condition ∧
      Grafts k (g.freeAggregates metadata strategy scope).1 {scope} {scope} := by
  unfold Graph.freeAggregates at held ⊢
  dsimp only at held ⊢
  split at held
  · next one =>
    rw [if_pos one]
    exact free.freeAggregatesOfOne l isScope mem projections held
  · next several =>
    rw [if_neg several]
    have grafts : Grafts g (Graph.freeAggregate metadata strategy (g.includedRanges scope) g
        (g.aggregateSites (g.scope scope)).reverse).1 ∅ ∅ :=
      .freeAggregate metadata strategy (g.isRange_includedRanges scope) _
    rcases grafts.conditions (l.has_of_below isScope.reached) (by simp) held with
      before | ⟨has, closed⟩
    · exact ⟨g, free.filter scope mem condition before,
        grafts.mono (Set.empty_subset _) (Set.empty_subset _)⟩
    · exact ⟨_, .of_isClosed has closed true, .refl _⟩

/-- A pass over one of the scopes leaves the filters free of aggregates but ANYs. -/
theorem apply {bodies : List NodeId} (o : InOrder root bodies scopes g) (pass : Pass)
    (context : PassContext) (anchored : g.Anchored scope)
    (declared : ∀ other ∈ scopes,
      ((pass.apply context g scope).1.node other).declared.Perm (g.node other).declared)
    (values : ∀ other ∈ scopes,
      ((pass.apply context g scope).1.node other).values = (g.node other).values)
    (projections : ∀ other ∈ scopes, ∀ value ∈ (g.node other).values,
      ∃ p, g.node value = .projection p) :
    (pass.apply context g scope).1.FreeFilters scopes := by
  have o' := o.apply pass context mem
  have l' := o'.linked root (by simp)
  have filled : ∀ {condition}, (pass = .existenceMarkers ∨ pass = .aggregates) →
      ((pass.apply context g scope).1.node scope).condition? = some condition →
      ∃ k, k.FreeOfAggregates true condition ∧
        Grafts k (pass.apply context g scope).1 {scope} {scope} := by
    rintro condition (rfl | rfl) held
    · exact free.extractMarkers l isScope mem held
    · exact free.freeAggregates l isScope mem context.metadata context.strategy
        (projections scope mem) held
  refine free.kept (Grafts.apply l isScope anchored pass context) l' o'.scopes ?_ l o.scopes values
    (fun other mem' value held => ⟨?_, projections other mem' value held⟩) ?_ ?_
  · rintro id (rfl | ⟨-, moved⟩)
    · exact ⟨id, mem, .inl rfl⟩
    · exact ⟨scope, mem, .inr ((declared scope mem).mem_iff.mpr moved)⟩
  · obtain ⟨p, projection⟩ := projections other mem' value held
    rintro (rfl | ⟨-, moved⟩)
    · cases isScope.isRetrieve_of_node projection
    · exact l.not_declared_clause isScope (o.scopes other mem') (by simp [values_scope, held]) moved
  · rintro other mem' ⟨rfl, which⟩ condition held
    obtain ⟨k, whole, grafts⟩ := filled which held
    have inClause := InClause.of_condition? held (o'.scopes other mem').isRetrieve
    exact whole.grafted grafts
      (inClause.apart l' o'.scopes mem' fun id here => ⟨other, mem', .inl here⟩)
  · rintro id a node ⟨rfl, -⟩
    cases isScope.isRetrieve_of_node node

end FreeFilters

end Graph

end RangeQuery
