import RangeQuery.Proofs.Scope.AnchorCount
import RangeQuery.Proofs.Scope.ConditionalAggregates
import RangeQuery.Proofs.Scope.DroppedJoin

/-!
Where excluded ranges are. Outside subqueries a range is excluded only where a scope declares it, so
no excluded range hides a reader in the filter of a scope: the search for readers finds every range
that the filter reads there.
-/

namespace RangeQuery

namespace Graph

variable {g h : Graph} {root scope range top id : NodeId} {scopes : List NodeId}

/-! ## Outside subqueries, by levels -/

theorem Outside.trans {middle : NodeId} (first : g.Outside top middle)
    (second : g.Outside middle id) : g.Outside top id :=
  second.induction first fun _ _ reached enters slot => reached.child enters slot

theorem not_isSubquery_of_isRange (isRange : (g.node id).isRange = true) :
    (g.node id).isSubquery = false := by
  cases node : g.node id <;> simp_all [Node.isRange, Node.isSubquery]

theorem not_isSubquery_of_isRetrieve (isRetrieve : (g.node id).isRetrieve = true) :
    (g.node id).isSubquery = false := by
  cases node : g.node id <;> simp_all [Node.isRetrieve, Node.isSubquery]

/-- No subquery is on the way to a scope. -/
theorem ScopeIn.outside (isScope : g.ScopeIn root scope) : g.Outside root scope := by
  induction isScope with
  | root _ => exact .refl g root
  | nested outer declared nested _ ih =>
    exact (ih.child (not_isSubquery_of_isRetrieve outer.isRetrieve)
      (declared_subset_children _ declared)).child
        (not_isSubquery_of_isRange (isRange_of_nested? nested)) (nested?_mem_children nested)

/-- What is no subquery is reached outside subqueries if there is none on its level. -/
theorem Linked.outside_iff (l : g.Linked root) (below : g.Below root id)
    (other : (g.node id).isSubquery = false) :
    g.Outside root id ↔ ∀ sub ∈ g.levelFrom {root} id, (g.node sub).isSubquery = false := by
  obtain ⟨trail, way⟩ := below
  rw [l.level_of_trail way]
  constructor
  · rintro ⟨trail', way', outside⟩ sub mem
    rw [l.trail_unique way' way] at outside
    rcases List.mem_cons.mp (List.mem_filter.mp mem).1 with rfl | on
    · exact other
    · exact outside sub on
  · intro none
    refine ⟨trail, way, fun owner on => ?_⟩
    by_contra subquery
    rw [Bool.not_eq_false] at subquery
    have opens : (g.node owner).opensScope = true := by
      cases node : g.node owner <;>
        simp_all [Node.isSubquery, Node.opensScope, Node.ranges?]
    rw [none owner (List.mem_filter.mpr ⟨List.mem_cons_of_mem _ on, opens⟩)] at subquery
    cases subquery

/-- A search that does not enter subqueries goes on below none, apart from its root. -/
theorem not_isSubquery_of_opensReads (other : (g.node top).isSubquery = false)
    (opens : g.opensReads top false id = true) : (g.node id).isSubquery = false := by
  cases node : g.node id with
  | subquery s =>
    have same : id = top := by simpa [opensReads, node] using opens
    rw [← same, node] at other
    exact other
  | _ => rfl

/-! ## Excluded ranges -/

theorem isRange_of_isExcluded (excluded : (g.node id).isExcluded = true) :
    (g.node id).isRange = true := by
  cases node : g.node id <;> simp_all [Node.isExcluded, Node.isRange]

/-- Outside subqueries, every excluded range is declared by one of the scopes. -/
def ExcludedDeclared (g : Graph) (root : NodeId) (scopes : List NodeId) : Prop :=
  ∀ range, g.Outside root range → (g.node range).isExcluded = true →
    ∃ scope ∈ scopes, range ∈ (g.node scope).declared

/-- Where no range is excluded, none has to be declared. -/
theorem excludedDeclared_of_included
    (included : ∀ range, g.Below root range → (g.node range).isExcluded = false) :
    g.ExcludedDeclared root scopes := fun range reached excluded => by
  rw [included range reached.below] at excluded
  cases excluded

namespace ExcludedDeclared

variable (e : g.ExcludedDeclared root scopes) (l : g.Linked root)
  (isScope : ∀ scope ∈ scopes, g.ScopeIn root scope)

include e l isScope

/-- A change that adds ranges in subqueries only, and excludes only what a scope declares, leaves the
excluded ranges declared. -/
theorem reshaped {zone : Set NodeId} {level : NodeId → List NodeId} (keeps : Keeps g h)
    (r : Reshaped g h {root} {id | g.Below root id} (g.levelFrom {root}) zone level)
    (hidden : ∀ {id}, id ∈ zone → ¬ g.Has id → (h.node id).isRange = true →
      ∃ sub ∈ level id, (h.node sub).isSubquery = true)
    (old : ∀ range, g.Has range → (h.node range).isExcluded = true →
      (g.node range).isExcluded = true ∨ ∃ scope ∈ scopes, range ∈ (g.node scope).declared) :
    h.ExcludedDeclared root scopes := by
  intro range reached excluded
  have isRange := isRange_of_isExcluded excluded
  have l' := r.inOrder.linked (Set.mem_singleton root)
  obtain ⟨mem, on⟩ := r.level_eq l keeps.stamp reached.below
  have none := (l'.outside_iff reached.below (not_isSubquery_of_isRange isRange)).mp reached
  rw [← on] at none
  by_cases had : g.Has range
  · obtain ⟨was, same⟩ := r.old mem had
    have isRange' := (keeps.stamp.isRange had).symm.trans isRange
    have reached' := (l.outside_iff was (not_isSubquery_of_isRange isRange')).mpr fun sub around => by
      by_contra subquery
      have still := keeps.stamp.isSubquery (Bool.not_eq_false _ ▸ subquery)
      rw [none sub (same ▸ around)] at still
      cases still
    obtain ⟨scope, mem', declared⟩ := (old range had excluded).elim (e range reached')
      fun declared => declared
    exact ⟨scope, mem', (keeps.mem_declared_iff l (isScope scope mem') isRange).mpr declared⟩
  · obtain ⟨sub, around, subquery⟩ := hidden mem had isRange
    rw [none sub around] at subquery
    cases subquery

/-- What changes no label and adds ranges in subqueries only leaves the excluded ranges declared. -/
theorem sheltered {zone : Set NodeId} {level : NodeId → List NodeId} (keeps : Keeps g h)
    (label : Same Node.label g h)
    (r : Reshaped g h {root} {id | g.Below root id} (g.levelFrom {root}) zone level)
    (sheltered : Sheltered g h zone level) : h.ExcludedDeclared root scopes := by
  refine e.reshaped l isScope keeps r (hidden_of_sheltered sheltered) fun range had excluded => .inl ?_
  rwa [← Node.isExcluded_label, label.node had, Node.isExcluded_label] at excluded

theorem enriched (keeps : Keeps g h) (label : Same Node.label g h)
    (enriches : Enriches g h {root} {id | g.Below root id} (g.levelFrom {root})) :
    h.ExcludedDeclared root scopes := by
  obtain ⟨zone, level, reshaped, none, -⟩ := enriches
  refine e.reshaped l isScope keeps reshaped (fun mem new isRange => ?_) fun range had excluded => ?_
  · rw [none mem new] at isRange
    cases isRange
  · rw [← Node.isExcluded_label, label.node had, Node.isExcluded_label] at excluded
    exact .inl excluded

/-- Excluding what a scope declares leaves the excluded ranges declared. -/
theorem exclude (mem : scope ∈ scopes) {dead : NodeId} (declared : dead ∈ (g.node scope).declared) :
    (g.exclude dead).ExcludedDeclared root scopes := by
  obtain ⟨zone, level, reshaped, glued, -⟩ :=
    l.zone.enlarges ((Relabels.exclude g dead).zone l.zone)
  refine e.reshaped l isScope (.of_unbound fun unbound => unbound.exclude g dead) reshaped
    glued.hidden fun range _ excluded => ?_
  by_cases same : range = dead
  · exact .inr ⟨scope, mem, same ▸ declared⟩
  · rw [node_exclude, if_neg same] at excluded
    exact .inl excluded

theorem dropDeadJoins (mem : scope ∈ scopes) :
    (g.dropDeadJoins scope).1.ExcludedDeclared root scopes := by
  refine (l.dropDeadJoins_induction (motive := fun h => h.ExcludedDeclared root scopes)
    (fun l' unbound among _ e => ?_) e)
  exact e.exclude l' (fun other mem' => (Keeps.of_unbound unbound).scopeIn l (isScope other mem')) mem
    (mem_includedRanges among).1

theorem mergePair (mem : scope ∈ scopes) {pair : IdentityPair}
    (p : g.IsPair (g.includedRanges scope) pair) :
    (g.mergePair scope pair).ExcludedDeclared root scopes := by
  have keeps : Keeps g (g.mergePair scope pair) := .of_unbound fun unbound =>
    unbound.mergePair g scope pair
  obtain ⟨zone, level, reshaped, glued, -⟩ :=
    l.zone.enlarges (l.zone.mergePair (isScope scope mem).reached p)
  refine e.reshaped l isScope keeps reshaped glued.hidden fun range had excluded => ?_
  have isRange := (keeps.stamp.isRange had).symm.trans (isRange_of_isExcluded excluded)
  by_cases same : range = pair.removed
  · exact .inr ⟨scope, mem, same ▸ (mem_includedRanges p.removed).1⟩
  · rw [node_mergePair_of_isRange isRange, if_neg same] at excluded
    rw [← Node.isExcluded_label, (Node.slotless_label.toRigid.rejoined g pair).node had,
      Node.isExcluded_label] at excluded
    exact .inl excluded

theorem mergeSelfJoins (mem : scope ∈ scopes) :
    (g.mergeSelfJoins scope).1.ExcludedDeclared root scopes :=
  l.mergeSelfJoins_induction (isScope scope mem)
    (motive := fun h => h.ExcludedDeclared root scopes)
    (fun l' unbound found e => e.mergePair l'
      (fun other mem' => (Keeps.of_unbound unbound).scopeIn l (isScope other mem')) mem
      (isPair_of_findIdentity? found)) e

end ExcludedDeclared

/-- A pass reshapes a query and adds ranges and identifiers in new subqueries only. -/
theorem InOrder.sheltered_apply {bodies : List NodeId} (o : InOrder root bodies scopes g) (pass : Pass)
    (context : PassContext) (mem : scope ∈ scopes) :
    ∃ zone level, Reshaped g (pass.apply context g scope).1 {root} {id | g.Below root id}
      (g.levelFrom {root}) zone level ∧ Sheltered g (pass.apply context g scope).1 zone level := by
  have l := o.linked root (by simp)
  have reached := (o.scopes scope mem).reached
  have of_widens : ∀ {h : Graph}, Widens g h {root} {id | g.Below root id} (g.levelFrom {root}) →
      ∃ zone level, Reshaped g h {root} {id | g.Below root id} (g.levelFrom {root}) zone level ∧
        Sheltered g h zone level := fun ⟨zone, level, reshaped, sheltered, _⟩ =>
    ⟨zone, level, reshaped, sheltered⟩
  cases pass with
  | existenceMarkers =>
    obtain ⟨zone, level, reshaped, glued⟩ := l.zone.extractMarkers l reached reached
    exact ⟨zone, level, reshaped, glued.sheltered⟩
  | anyTests => exact of_widens (l.zone.resolveAnys context.metadata scope)
  | aggregates => exact of_widens (l.zone.freeAggregates context.metadata context.strategy reached)
  | selfJoins => exact of_widens (l.zone.enlarges (l.zone.mergeSelfJoins reached)).widens
  | requiredness =>
    have r := Relabels.decideRequired g context.metadata context.pinned scope
    exact of_widens (l.zone.enlarges (r.zone l.zone)).widens
  | anchors => exact of_widens (l.zone.normalizeAnchor context.metadata reached).widens
  | deadJoins =>
    exact of_widens (l.zone.enlarges ((Relabels.dropDeadJoins g scope).zone l.zone)).widens

/-- Merges and dropped joins apart, a pass changes no label. -/
theorem Same.label_apply {pass : Pass} (merges : pass ≠ .selfJoins) (drops : pass ≠ .deadJoins)
    (context : PassContext) (g : Graph) (scope : NodeId) :
    Same Node.label g (pass.apply context g scope).1 := by
  have label := Node.slotless_label
  cases pass with
  | existenceMarkers => exact label.toRigid.extractMarkers g scope
  | anyTests => exact label.resolveAnys g context.metadata scope
  | aggregates => exact label.freeAggregates g context.metadata context.strategy scope
  | selfJoins => exact absurd rfl merges
  | requiredness => exact label.toRigid.decideRequired g context.metadata context.pinned scope
  | anchors => exact label.normalizeAnchor g context.metadata scope
  | deadJoins => exact absurd rfl drops

/-- A pass over one of the scopes leaves the excluded ranges declared. -/
theorem ExcludedDeclared.apply {bodies : List NodeId} (e : g.ExcludedDeclared root scopes)
    (o : InOrder root bodies scopes g) (pass : Pass) (context : PassContext) (mem : scope ∈ scopes) :
    (pass.apply context g scope).1.ExcludedDeclared root scopes := by
  have l := o.linked root (by simp)
  by_cases merges : pass = .selfJoins
  · subst merges
    exact e.mergeSelfJoins l o.scopes mem
  by_cases drops : pass = .deadJoins
  · subst drops
    exact e.dropDeadJoins l o.scopes mem
  obtain ⟨zone, level, reshaped, sheltered⟩ := o.sheltered_apply pass context mem
  exact e.sheltered l o.scopes (.apply pass context g scope)
    (.label_apply merges drops context g scope) reshaped sheltered

/-! ## Readers in the filter of a scope -/

/-- The filter of a scope hangs in a slot of its own, apart from the ranges that the scope
declares. -/
theorem Linked.filter_apart (l : g.Linked root) (isScope : g.ScopeIn root scope) {filter : NodeId}
    (is : (g.scope scope).condition = some filter) :
    filter ∈ g.children scope ∧ filter ∉ (g.node scope).declared :=
  l.clause_apart isScope (by simp [is])

section

variable (l : g.Linked root) (isScope : ∀ scope ∈ scopes, g.ScopeIn root scope)
  (mem : scope ∈ scopes) {filter : NodeId} (is : (g.scope scope).condition = some filter)

include l isScope mem is

/-- The search from a scope regards what its filter reaches outside subqueries: an excluded range
would be declared by a scope, and none declares what is below a filter. -/
theorem ExcludedDeclared.regards (e : g.ExcludedDeclared root scopes)
    (outside : g.Outside filter id) : g.Regards scope id := by
  have isScope' := isScope scope mem
  obtain ⟨slot, apart⟩ := l.filter_apart isScope' is
  have kept : ∀ {id}, g.Outside filter id → (g.node id).isExcluded = false := by
    intro id outside
    by_contra excluded
    have reached : g.Outside root id :=
      (isScope'.outside.child (not_isSubquery_of_isRetrieve isScope'.isRetrieve) slot).trans outside
    obtain ⟨other, mem', declared'⟩ := e id reached (by simpa using excluded)
    exact l.not_below_slot_of_declared (isScope other mem') isScope' slot apart declared'
      outside.below
  have regarded : g.Regards scope filter :=
    .down (Node.isExcluded_of_isRetrieve isScope'.isRetrieve) slot (.here (kept (.refl g filter)))
  refine (outside.induction (motive := fun id => g.Outside filter id ∧ g.Regards scope id)
    ⟨.refl g filter, regarded⟩ fun owner child ih enters slot => ?_).2
  have reached := ih.1.child enters slot
  exact ⟨reached, ih.2.child slot (kept reached)⟩

/-- The search for readers of a declared range finds every one that the filter of the scope has
outside subqueries, or inside, if the filter is a subquery. -/
theorem ExcludedDeclared.readCount_ne_zero (e : g.ExcludedDeclared root scopes)
    (declared : range ∈ (g.node scope).declared) {id : NodeId} {i : Identifier}
    (found : id ∈ g.identifiersUnder filter false) (node : g.node id = .identifier i)
    (reads : i.range = range) : g.readCount scope range ≠ 0 := by
  have isScope' := isScope scope mem
  obtain ⟨slot, apart⟩ := l.filter_apart isScope' is
  have above := isScope'.reached.child slot
  rw [identifiersUnder_eq, List.mem_filter, l.mem_preorder above] at found
  obtain ⟨⟨trail, way, opened⟩, -⟩ := found
  have regarded : g.Regards scope id := by
    by_cases subquery : (g.node filter).isSubquery = true
    · exact .down (Node.isExcluded_of_isRetrieve isScope'.isRetrieve) slot
        (.inside subquery ⟨trail, way⟩)
    · exact e.regards l isScope mem is ⟨trail, way, fun owner on =>
        not_isSubquery_of_opensReads (Bool.eq_false_iff.mpr subquery) (opened owner on)⟩
  intro none
  refine (l.readCount_eq_zero isScope'.reached isScope'.isRetrieve declared).mp none id
    ⟨regarded, ⟨i, node, reads⟩, fun join held lower => ?_⟩
  -- Below the predicate of the range is below the range, which is another slot of the scope.
  have ofRange := (below_of_child (mem_children_of_join? held)).trans lower
  have same := l.child_unique isScope'.reached slot (declared_subset_children _ declared)
    ⟨trail, way⟩ ofRange
  exact apart (same ▸ declared)

end

end Graph

end RangeQuery
