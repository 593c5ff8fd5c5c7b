import RangeQuery.Proofs.Scope.Expansion

/-!
Changes that leave the scopes of a query where they are. The list of scopes holds exactly what is
reached from the root through ranges and the queries they read from; so it stays the same as long as
each scope goes on declaring its ranges and each range goes on reading from its query.
-/

namespace RangeQuery

/-- Whether a range reads from a query. -/
def Node.readsQuery (node : Node) : Bool := node.nested?.isSome

theorem Node.formal_readsQuery : Formal Node.readsQuery where
  join _ _ := rfl
  required _ _ := rfl
  window _ _ := rfl
  ranges node _ := by cases node <;> rfl
  children node _ := by
    cases node <;> simp [withChildren, Range.withChildren, readsQuery, Node.nested?]
  condition {node _ _} h := by
    cases node <;> simp only [withCondition?, Option.some.injEq, reduceCtorEq] at h <;> subst h <;>
      rfl
  range _ _ := rfl
  included _ _ := rfl

theorem Node.stamp_eq_placeholder {node : Node} {name : String}
    (h : node.stamp = .placeholder name) : node = .placeholder name := by
  cases node <;> simp_all [stamp, label]

namespace Graph

variable {g h : Graph} {root scope : NodeId}

/-! ## The list of scopes -/

theorem scopesWithin_mono {depth : Nat} {top : NodeId} (mem : scope ∈ g.scopesWithin depth top) :
    scope ∈ g.scopesWithin (depth + 1) top := by
  induction depth generalizing top with
  | zero => simp [scopesWithin] at mem
  | succ depth ih =>
    obtain ⟨isRetrieve, here | ⟨range, declared, inner, nested, deeper⟩⟩ :=
      mem_scopesWithin_succ.mp mem
    · exact mem_scopesWithin_succ.mpr ⟨isRetrieve, .inl here⟩
    · exact mem_scopesWithin_succ.mpr ⟨isRetrieve, .inr ⟨range, declared, inner, nested, ih deeper⟩⟩

theorem mem_scopesWithin_of_le {few many : Nat} (le : few ≤ many) {top : NodeId}
    (mem : scope ∈ g.scopesWithin few top) : scope ∈ g.scopesWithin many top := by
  induction le with
  | refl => exact mem
  | step _ ih => exact scopesWithin_mono ih

/-- What a declared range of a listed scope reads from is listed one level deeper. -/
theorem mem_scopesWithin_nested {depth : Nat} {top range inner : NodeId}
    (mem : scope ∈ g.scopesWithin depth top) (declared : range ∈ (g.node scope).declared)
    (nested : (g.node range).nested? = some inner) (isRetrieve : (g.node inner).isRetrieve = true) :
    inner ∈ g.scopesWithin (depth + 1) top := by
  induction depth generalizing top with
  | zero => simp [scopesWithin] at mem
  | succ depth ih =>
    obtain ⟨above, rfl | ⟨other, declared', outer, reads, deeper⟩⟩ := mem_scopesWithin_succ.mp mem
    · exact mem_scopesWithin_succ.mpr ⟨above, .inr ⟨range, declared, inner, nested,
        mem_scopesWithin_succ.mpr ⟨isRetrieve, .inl rfl⟩⟩⟩
    · exact mem_scopesWithin_succ.mpr ⟨above, .inr ⟨other, declared', outer, reads, ih deeper⟩⟩

/-- A scope is listed as soon as there are as many levels as nodes above it, and one more. -/
theorem ScopeIn.mem_scopesWithin (isScope : g.ScopeIn root scope) :
    ∃ trail, g.Trail root trail scope ∧ scope ∈ g.scopesWithin (trail.length + 1) root := by
  induction isScope with
  | root isRetrieve =>
    exact ⟨[], .here, mem_scopesWithin_succ.mpr ⟨isRetrieve, .inl rfl⟩⟩
  | @nested scope range inner _ declared nested isRetrieve ih =>
    obtain ⟨trail, way, mem⟩ := ih
    have way' := (way.down (declared_subset_children _ declared)).down (nested?_mem_children nested)
    exact ⟨_, way', scopesWithin_mono (mem_scopesWithin_nested mem declared nested isRetrieve)⟩

/-- The scopes of a well-linked query are those that are reached through ranges. -/
theorem mem_scopes_iff {q : Query} (l : q.graph.Linked q.root) {scope : NodeId} :
    scope ∈ q.scopes ↔ q.graph.ScopeIn q.root scope := by
  refine ⟨scopeIn_of_mem_scopes, fun isScope => ?_⟩
  obtain ⟨trail, way, mem⟩ := isScope.mem_scopesWithin
  exact mem_scopesWithin_of_le (l.length_trail_lt way) mem

/-! ## Kept scopes -/

/-- Nothing that a scope from a root declares is a placeholder, and the query that a declared range
reads from is a scope. -/
def PlainScopes (g : Graph) (root : NodeId) : Prop :=
  ∀ {scope range}, g.ScopeIn root scope → range ∈ (g.node scope).declared →
    g.placeholder? range = none ∧
      ∀ inner ∈ (g.node range).nested?, (g.node inner).isRetrieve = true

/-- The scopes from a root declare the ranges that they declared, and these read from the queries
that they read from. -/
structure SameScopes (g h : Graph) (root : NodeId) : Prop where
  stamp : Same Node.stamp g h
  declared : ∀ {scope id}, g.ScopeIn root scope → (h.node id).isRange = true →
    (id ∈ (h.node scope).declared ↔ id ∈ (g.node scope).declared)
  nested : ∀ {scope range}, g.ScopeIn root scope → range ∈ (g.node scope).declared →
    (h.node range).nested? = (g.node range).nested?

theorem SameScopes.scopeIn_iff (same : SameScopes g h root) (l : g.Linked root) :
    h.ScopeIn root scope ↔ g.ScopeIn root scope := by
  constructor <;> intro isScope
  · induction isScope with
    | root isRetrieve => exact .root ((same.stamp.isRetrieve l.has).symm.trans isRetrieve)
    | @nested scope range inner _ declared nested isRetrieve ih =>
      have declared' := (same.declared ih (isRange_of_nested? nested)).mp declared
      rw [same.nested ih declared'] at nested
      have has := l.has_of_below <|
        (ih.reached.child (declared_subset_children _ declared')).child (nested?_mem_children nested)
      exact ih.nested declared' nested ((same.stamp.isRetrieve has).symm.trans isRetrieve)
  · induction isScope with
    | root isRetrieve => exact .root ((same.stamp.isRetrieve l.has).trans isRetrieve)
    | @nested scope range inner outer declared nested isRetrieve ih =>
      have nested' := (same.nested outer declared).trans nested
      have has := l.has_of_below <|
        (outer.reached.child (declared_subset_children _ declared)).child (nested?_mem_children nested)
      exact ih.nested ((same.declared outer (isRange_of_nested? nested')).mpr declared) nested'
        ((same.stamp.isRetrieve has).trans isRetrieve)

/-- Where scopes declare nothing that they did not declare, they stay plain. -/
theorem PlainScopes.same (plain : PlainScopes g root) (same : SameScopes g h root)
    (l : g.Linked root) (declared : ∀ {scope}, g.ScopeIn root scope →
      (h.node scope).declared ⊆ (g.node scope).declared) : PlainScopes h root := by
  intro scope range isScope mem
  rw [same.scopeIn_iff l] at isScope
  replace mem := declared isScope mem
  obtain ⟨plain, scopes⟩ := plain isScope mem
  have above := isScope.reached.child (declared_subset_children _ mem)
  refine ⟨?_, fun inner nested => ?_⟩
  · have stamp := same.stamp.node (l.has_of_below above)
    cases found : h.placeholder? range with
    | none => rfl
    | some name =>
      rw [node_of_placeholder? found] at stamp
      rw [placeholder?, Node.stamp_eq_placeholder stamp.symm] at plain
      cases plain
  · rw [same.nested isScope mem] at nested
    have has := l.has_of_below (above.child (nested?_mem_children nested))
    exact (same.stamp.isRetrieve has).trans (scopes inner nested)

theorem Same.nested?_eq_none (reads : Same Node.readsQuery g h) {range : NodeId}
    (has : g.Has range) (none : (g.node range).nested? = none) :
    (h.node range).nested? = .none := by
  have same := reads.node has
  rw [Node.readsQuery, Node.readsQuery, none] at same
  exact Option.not_isSome_iff_eq_none.mp (by rw [same]; simp)

/-- What keeps the nesting keeps the ranges that a scope declares, and adds none. -/
theorem Keeps.mem_declared_iff (keeps : Keeps g h) (l : g.Linked root)
    (isScope : g.ScopeIn root scope) {id : NodeId} (isRange : (h.node id).isRange = true) :
    id ∈ (h.node scope).declared ↔ id ∈ (g.node scope).declared := by
  have has := l.has_of_below isScope.reached
  constructor
  · intro mem
    rcases keeps.foreign has mem with before | ⟨-, -, noRange⟩
    · exact before
    · rw [isRange] at noRange
      cases noRange
  · intro mem
    have has' := l.has_of_below (isScope.reached.child (declared_subset_children _ mem))
    exact (keeps.declared has has' ((keeps.stamp.isRange has').symm.trans isRange)).mpr mem

/-- What keeps the nesting leaves plain scopes where they are. -/
theorem Keeps.sameScopes (keeps : Keeps g h) (reads : Same Node.readsQuery g h) (l : g.Linked root)
    (plain : PlainScopes g root) : SameScopes g h root where
  stamp := keeps.stamp
  declared isScope isRange := keeps.mem_declared_iff l isScope isRange
  nested {scope range} isScope mem := by
    have above := isScope.reached.child (declared_subset_children _ mem)
    have has := l.has_of_below above
    cases nested : (g.node range).nested? with
    | none => exact reads.nested?_eq_none has nested
    | some inner =>
      exact keeps.nested has (l.has_of_below (above.child (nested?_mem_children nested))) nested
        ((plain isScope mem).2 inner nested)

/-! ## Expansion -/

/-- What changes neither the declared ranges nor the queries behind ranges leaves the scopes where
they are. -/
theorem SameScopes.of_unbound (l : g.Linked root)
    (same : ∀ {α : Type} {view : Node → α}, Unbound view → Same view g h) : SameScopes g h root where
  stamp := same Node.formal_stamp.toUnbound
  declared isScope _ := by
    rw [(same Node.unbound_declared).node (l.has_of_below isScope.reached)]
  nested isScope mem := (same Node.unbound_nested?).node <|
    l.has_of_below (isScope.reached.child (declared_subset_children _ mem))

theorem declared_replace_of_not_mem {node : Node} {old : NodeId} (new : NodeId)
    (other : old ∉ node.declared) :
    (node.withChildren (node.children.replace old new)).declared = node.declared := by
  cases node with
  | retrieve r =>
    have apart : old ∉ r.ranges := other
    simp [Node.withChildren, Retrieve.withChildren, Node.declared, Node.ranges?, Node.children,
      List.append_assoc, List.replace_append, apart]
  | subquery s =>
    have apart : old ∉ s.ranges := other
    simp [Node.withChildren, Subquery.withChildren, Node.declared, Node.ranges?, Node.children,
      List.append_assoc, List.replace_append, apart]
  | _ => rfl

section

variable (l : g.Linked root) (plain : PlainScopes g root) {id : NodeId}
  (found : (g.placeholder? id).isSome = true) (body : NodeId)

include l plain found

/-- Filling a placeholder leaves the lists of declared ranges. -/
theorem PlainScopes.declared_fill (isScope : g.ScopeIn root scope) :
    (((g.copy body).1.replace id (g.copy body).2).1.node scope).declared =
      (g.node scope).declared := by
  have has := l.has_of_below isScope.reached
  have beside := (g.forest_copyWith body .empty).beside
  have other : id ∉ (g.node scope).declared := fun mem => by
    rw [(plain isScope mem).1] at found
    cases found
  rcases node_replace_or (beside.has has) id (g.copyWith body .empty).2 with same | same <;>
    refine (congrArg Node.declared same).trans ?_
  · rw [beside.node has]
  · rw [beside.node has, declared_replace_of_not_mem _ other]

theorem PlainScopes.sameScopes_fill :
    SameScopes g ((g.copy body).1.replace id (g.copy body).2).1 root where
  stamp := same_fill Node.formal_stamp.toPlaced g id body
  declared isScope _ := by rw [plain.declared_fill l found body isScope]
  nested {scope range} isScope mem := by
    have has := l.has_of_below (isScope.reached.child (declared_subset_children _ mem))
    cases nested : (g.node range).nested? with
    | none => exact (same_fill Node.formal_readsQuery.toPlaced g id body).nested?_eq_none has nested
    | some inner =>
      have beside := (g.forest_copyWith body .empty).beside
      have other : inner ≠ id := by
        rintro rfl
        have scopes := (plain isScope mem).2 inner nested
        obtain ⟨name, found⟩ := Option.isSome_iff_exists.mp found
        rw [node_of_placeholder? found] at scopes
        cases scopes
      rcases node_replace_or (beside.has has) id (g.copyWith body .empty).2 with same | same <;>
        refine (congrArg Node.nested? same).trans ?_
      · rw [beside.node has, nested]
      · rw [beside.node has, Keeps.nested?_replace other nested]

end

end Graph

end RangeQuery
