import RangeQuery.Proofs.Scope.BrokenRules

/-!
Where the clauses of a scope are. No scope lies below a clause, so what is reached from a clause
outside subqueries lies directly in the scope; and what lies directly in a scope is reached so from
a clause of it. Hence a scope whose clauses read declared ranges outside subqueries is one in which
all that lies directly reads them.
-/

namespace RangeQuery

namespace Graph

variable {g : Graph} {root scope other top id : NodeId} {scopes : List NodeId} {clause : Clause}

/-! ## Upper and lower nodes -/

/-- Between a node and one that is reached from it outside subqueries there is none. -/
theorem Outside.not_isSubquery (outside : g.Outside top id) (l : g.Linked root)
    (above : g.Below root top) {between : NodeId} (down : g.Below top between)
    (up : g.Below between id) (ne : between ≠ id) : (g.node between).isSubquery = false := by
  -- Both ways down to the next node come through the same owner, which is no subquery.
  suffices reached : ∀ {id}, g.Outside top id → g.Below root id ∧
      (g.Below between id → between ≠ id → (g.node between).isSubquery = false) from
    (reached outside).2 up ne
  intro id outside
  refine outside.induction ⟨above, fun up ne => absurd ((l.acyclic above).below_antisymm down up) ne⟩ ?_
  rintro owner child ⟨reached, ih⟩ enters slot
  refine ⟨reached.child slot, fun up ne => ?_⟩
  rcases up.eq_or_owner with same | ⟨owner', inside, slot'⟩
  · exact absurd same.symm ne
  · have same := l.owner_unique reached ((above.trans down).trans inside) slot slot'
    subst same
    by_cases here : between = owner
    · exact here ▸ enters
    · exact ih inside here

/-! ## Clauses -/

/-- The clauses of a scope hang in it or in the ranges that it declares. -/
theorem InClause.exists_owner (isScope : g.ScopeIn root scope)
    (inClause : g.InClause scope clause top) :
    ∃ owner, top ∈ g.children owner ∧
      (owner = scope ∨ owner ∈ (g.node scope).declared ∧ (g.node owner).isRange = true) := by
  obtain ⟨r, node⟩ := Node.exists_of_isRetrieve isScope.isRetrieve
  have clauses : g.scope scope = r := by simp only [Graph.scope, node]
  cases inClause with
  | @join range join source declared range' joined =>
    refine ⟨range, ?_, .inr ⟨declared, by rw [range']; rfl⟩⟩
    simp [children, range', Node.children, joined]
  | value held =>
    rw [clauses] at held
    exact ⟨scope, by simp [children, node, Node.children, held], .inl rfl⟩
  | @sort item held =>
    rw [clauses] at held
    refine ⟨scope, ?_, .inl rfl⟩
    simp only [children, node, Node.children, List.mem_append, List.mem_map]
    exact .inr ⟨item, held, rfl⟩
  | filter held =>
    rw [clauses] at held
    exact ⟨scope, by simp [children, node, Node.children, held], .inl rfl⟩

theorem InClause.reached (isScope : g.ScopeIn root scope) (inClause : g.InClause scope clause top) :
    g.Below root top := by
  obtain ⟨owner, slot, same | ⟨declared, -⟩⟩ := inClause.exists_owner isScope
  · exact (same ▸ isScope.reached).child slot
  · exact (isScope.reached.child (declared_subset_children _ declared)).child slot

/-- No scope lies below the join predicate of a declared range. -/
theorem Linked.not_below_join (l : g.Linked root) (isScope : g.ScopeIn root scope)
    (isScope' : g.ScopeIn root other) {range join : NodeId} {r : Range}
    (declared : range ∈ (g.node other).declared) (node : g.node range = .range r)
    (joined : r.join = some join) : ¬ g.Below join scope := by
  have above := isScope'.reached.child (declared_subset_children _ declared)
  have slot : join ∈ g.children range := by simp [children, node, Node.children, joined]
  have reached := above.child slot
  have nodup := l.nodup above
  induction isScope with
  | root _ =>
    intro below
    rcases below.eq_or_owner with same | ⟨owner, inside, slot'⟩
    · exact l.child_ne_root above slot same.symm
    · exact l.child_ne_root (reached.trans inside) slot' rfl
  | @nested outer range' inner isOuter declared' nested isRetrieve ih =>
    intro below
    have ofRange := nested?_mem_children nested
    have toRange := isOuter.reached.child (declared_subset_children _ declared')
    -- The way down to a nested scope leads through its range and the scope that declares it.
    rcases below.eq_or_owner with same | ⟨owner, inside, slot'⟩
    · subst same
      have same := l.owner_unique above toRange slot ofRange
      subst same
      rw [node, Node.nested?] at nested
      simp [children, node, Node.children, joined, nested] at nodup
    · have same := l.owner_unique (reached.trans inside) toRange slot' ofRange
      subst same
      rcases inside.eq_or_owner with same | ⟨owner', inside', slot''⟩
      · subst same
        have same := l.owner_unique above isOuter.reached slot
          (declared_subset_children _ declared')
        have kind := isOuter.isRetrieve
        rw [← same, node] at kind
        cases kind
      · have same := l.owner_unique (reached.trans inside') isOuter.reached slot''
          (declared_subset_children _ declared')
        exact ih (same ▸ inside')

/-- What hangs in a clause of a scope is no range that a scope declares. -/
theorem Linked.not_declared_clause (l : g.Linked root) (isScope : g.ScopeIn root scope)
    (isScope' : g.ScopeIn root other) (mem : top ∈ (g.scope other).values ++
      (g.scope other).condition.toList ++ (g.scope other).sort.map (·.expression)) :
    top ∉ (g.node scope).declared := fun declared =>
  have hangs := l.clause_apart isScope' mem
  l.not_below_slot_of_declared isScope isScope' hangs.1 hangs.2 declared (.refl g top)

/-- No scope lies below a clause. -/
theorem Linked.not_below_clause (l : g.Linked root) (isScope : g.ScopeIn root scope)
    (isScope' : g.ScopeIn root other) (inClause : g.InClause other clause top) :
    ¬ g.Below top scope := by
  have apart : top ∈ (g.scope other).values ++ (g.scope other).condition.toList ++
      (g.scope other).sort.map (·.expression) → ¬ g.Below top scope := fun mem =>
    have hangs := l.clause_apart isScope' mem
    l.not_below_slot isScope isScope' hangs.1 hangs.2
  cases inClause with
  | join declared node joined => exact l.not_below_join isScope isScope' declared node joined
  | value held => exact apart (by simp [held])
  | @sort item held =>
    refine apart (List.mem_append_right _ (List.mem_map.mpr ⟨item, held, rfl⟩))
  | filter held => exact apart (by simp [held])

/-- Nothing that a scope declares lies below a clause either. -/
theorem Linked.not_below_clause_of_declared (l : g.Linked root) (isScope : g.ScopeIn root scope)
    (isScope' : g.ScopeIn root other) (inClause : g.InClause other clause top)
    (declared : id ∈ (g.node scope).declared) : ¬ g.Below top id := by
  intro below
  have slot := declared_subset_children _ declared
  have reached := inClause.reached isScope'
  rcases below.eq_or_owner with rfl | ⟨owner, inside, slot'⟩
  · cases inClause with
    | @join range _ r declared' node joined =>
      -- A declared range hangs in a scope, and a join predicate in a range.
      have above := isScope'.reached.child (declared_subset_children _ declared')
      have same := l.owner_unique above isScope.reached
        (by simp [children, node, Node.children, joined]) slot
      cases isScope.isRetrieve_of_node (same ▸ node)
    | value held => exact l.not_declared_clause isScope isScope' (by simp [held]) declared
    | @sort item held =>
      exact l.not_declared_clause isScope isScope'
        (List.mem_append_right _ (List.mem_map.mpr ⟨item, held, rfl⟩)) declared
    | filter held => exact l.not_declared_clause isScope isScope' (by simp [held]) declared
  · have same := l.owner_unique (reached.trans inside) isScope.reached slot' slot
    exact l.not_below_clause isScope isScope' inClause (same ▸ inside)

/-! ## What lies directly in a scope -/

section

variable (l : g.Linked root) (isScope : ∀ scope ∈ scopes, g.ScopeIn root scope)
  (mem : scope ∈ scopes)

include l isScope mem

/-- What a clause reaches outside subqueries lies directly in its scope. -/
theorem InClause.directlyIn (inClause : g.InClause scope clause top)
    (outside : g.Outside top id) (leaf : (g.node id).isSubquery = false) :
    g.DirectlyIn scopes scope id := by
  have isScope' := isScope scope mem
  obtain ⟨owner, slot, hangs⟩ := inClause.exists_owner isScope'
  have toOwner : g.Below scope owner := by
    rcases hangs with rfl | ⟨declared, -⟩
    · exact .refl g owner
    · exact below_of_child (declared_subset_children _ declared)
  have above := isScope'.reached.trans (toOwner.child slot)
  refine ⟨(toOwner.child slot).trans outside.below, fun between upper inside ne => ?_⟩
  have inner : g.Below top between → (g.node between).isSubquery = false ∧ between ∉ scopes := by
    intro down
    refine ⟨?_, fun listed => l.not_below_clause (isScope between listed) isScope' inClause down⟩
    by_cases here : between = id
    · exact here ▸ leaf
    · exact outside.not_isSubquery l above down inside here
  have outer : ¬ g.Below between scope := fun up =>
    ne ((l.acyclic isScope'.reached).below_antisymm upper up)
  rcases l.below_total above (isScope'.reached.trans upper) outside.below inside with down | up
  · exact inner down
  · -- Above the clause there is at most the range that it joins.
    rcases up.eq_or_owner with rfl | ⟨owner', inside', slot'⟩
    · exact inner (.refl g _)
    · have same := l.owner_unique (isScope'.reached.trans (upper.trans inside'))
        (isScope'.reached.trans toOwner) slot' slot
      subst same
      rcases hangs with rfl | ⟨declared, isRange⟩
      · exact absurd inside' outer
      · rcases inside'.eq_or_owner with rfl | ⟨owner, inside'', slot''⟩
        · refine ⟨not_isSubquery_of_isRange isRange, fun listed => ?_⟩
          have kind := (isScope _ listed).isRetrieve
          obtain ⟨r, node⟩ := Node.exists_of_isRange isRange
          rw [node] at kind
          cases kind
        · have same := l.owner_unique (isScope'.reached.trans (upper.trans inside''))
            isScope'.reached slot'' (declared_subset_children _ declared)
          exact absurd (same ▸ inside'') outer

/-- An identifier that lies directly in a scope is reached outside subqueries from a clause of it
that is none. -/
theorem DirectlyIn.exists_clause (direct : g.DirectlyIn scopes scope id) {i : Identifier}
    (node : g.node id = .identifier i)
    (ranges : ∀ range ∈ (g.node scope).declared, (g.node range).isRange = true)
    (listed : ∀ range ∈ (g.node scope).declared, ∀ inner ∈ (g.node range).nested?, inner ∈ scopes) :
    ∃ clause top, g.InClause scope clause top ∧ (g.node top).isSubquery = false ∧
      g.Outside top id := by
  have isScope' := isScope scope mem
  have reach : ∀ {clause top}, g.InClause scope clause top → g.Below scope top → g.Below top id →
      ∃ clause top, g.InClause scope clause top ∧ (g.node top).isSubquery = false ∧
        g.Outside top id := by
    intro clause top inClause down below
    have apart : ∀ {between}, g.Below top between → between ≠ scope := by
      rintro between inside rfl
      exact l.not_below_clause isScope' isScope' inClause inside
    refine ⟨clause, top, inClause, (direct.2 top down below (apart (.refl g top))).1, ?_⟩
    obtain ⟨trail, way⟩ := below
    refine ⟨trail, way, fun owner on => ?_⟩
    obtain ⟨upper, lower⟩ := way.below_of_mem on
    exact (direct.2 owner (down.trans upper) lower (apart upper)).1
  obtain ⟨r, scope'⟩ := Node.exists_of_isRetrieve isScope'.isRetrieve
  have clauses : g.scope scope = r := by simp only [Graph.scope, scope']
  rcases direct.1.eq_or_child with same | ⟨child, slot, below⟩
  · rw [← same, node] at scope'
    cases scope'
  · have hangs := slot
    simp only [children, scope', Node.children, List.mem_append, Option.mem_toList,
      List.mem_map] at hangs
    rcases hangs with ((declared | held) | held) | ⟨item, held, same⟩
    · have declared' : child ∈ (g.node scope).declared := by rw [scope']; exact declared
      obtain ⟨source, range⟩ := Node.exists_of_isRange (ranges child declared')
      have down := below_of_child slot
      rcases below.eq_or_child with same | ⟨inner, slot', below'⟩
      · rw [← same, node] at range
        cases range
      · have hangs := slot'
        simp only [children, range, Node.children, List.mem_append, Option.mem_toList] at hangs
        rcases hangs with joined | nested
        · exact reach (.join declared' range joined) (down.child slot') below'
        · -- The query that a range reads from is a scope of its own.
          have nested' : (g.node child).nested? = some inner := by rw [range]; exact nested
          have listed' := listed child declared' inner nested'
          refine absurd listed' (direct.2 inner (down.child slot') below' ?_).2
          rintro rfl
          have same := (l.acyclic isScope'.reached).below_antisymm down (below_of_child slot')
          rw [same, scope'] at range
          cases range
    · exact reach (.value (clauses.symm ▸ held)) (below_of_child slot) below
    · exact reach (.filter (clauses.symm ▸ held)) (below_of_child slot) below
    · rw [← same] at slot below
      exact reach (.sort (clauses.symm ▸ held)) (below_of_child slot) below

end

/-! ## Scopes that keep the rules -/

variable (l : g.Linked root) (isScope : ∀ scope ∈ scopes, g.ScopeIn root scope)

include l isScope

/-- Where no scope breaks a rule, what lies directly in a scope reads ranges of it. -/
theorem ownReads_of_not_breaks
    (ranges : ∀ scope ∈ scopes, ∀ range ∈ (g.node scope).declared, (g.node range).isRange = true)
    (listed : ∀ scope ∈ scopes, ∀ range ∈ (g.node scope).declared,
      ∀ inner ∈ (g.node range).nested?, inner ∈ scopes)
    (keeps : ∀ scope ∈ scopes, ∀ fault, ¬ g.Breaks scope fault) : g.OwnReads scopes := by
  intro scope mem id i direct node
  obtain ⟨clause, top, inClause, other, outside⟩ :=
    direct.exists_clause l isScope mem node (ranges scope mem) (listed scope mem)
  have read : g.undeclared? (g.node scope).declared top = none :=
    Option.eq_none_iff_forall_ne_some.mpr fun range read =>
      keeps scope mem _ (.undeclaredRange inClause read)
  exact (l.undeclared?_eq_none (inClause.reached (isScope scope mem)) other).mp read id i outside
    node

/-- Where what lies directly in a scope reads ranges of it, a clause reads no other ones unless it
is a subquery itself. -/
theorem OwnReads.undeclared?_eq_none (own : g.OwnReads scopes) (mem : scope ∈ scopes)
    (inClause : g.InClause scope clause top) (other : (g.node top).isSubquery = false) :
    g.undeclared? (g.node scope).declared top = none :=
  (l.undeclared?_eq_none (inClause.reached (isScope scope mem)) other).mpr fun id i outside node =>
    own scope mem id i (inClause.directlyIn l isScope mem outside (by rw [node]; rfl)) node

end Graph

end RangeQuery
