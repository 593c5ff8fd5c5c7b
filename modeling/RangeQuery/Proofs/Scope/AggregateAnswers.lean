import RangeQuery.Proofs.Scope.ConditionalAggregates
import RangeQuery.Proofs.Scope.Intact

/-!
The answers of the passes that take aggregates apart. Each change they report puts a new node into
the slot of a node of the query, and a slot that once got a new node never gets an old one back.
-/

namespace RangeQuery

namespace Graph

variable {g h k : Graph} {root scope id : NodeId}

/-! ## Nodes that are swapped -/

/-- Work beside the old nodes, after which a new node takes the place of an old one. -/
def SwapsIn (g : Graph) (old : NodeId) (k : Graph) : Prop :=
  ∃ h new, Extends g h ∧ ¬ g.Has new ∧ Relabels (h.replace old new).1 k

theorem swapsIn_replaceBySubquery (e : Extends g h) (old : NodeId) (kind : SubqueryKind)
    (expression : Option NodeId) (sub : CorrelatedScope)
    (fresh : ∀ id ∈ sub.ranges ++ expression.toList ++ sub.condition.toList, ¬ g.Has id) :
    SwapsIn g old (h.replaceBySubquery old kind expression sub) :=
  ⟨(h.add (.subquery { kind, ranges := sub.ranges, expression, condition := sub.condition })).1,
    h.next, e.add _ fresh, fun had => h.not_has_next (e.has had), .refl _⟩

theorem swapsIn_inlineAny (e : Extends g h) (scope any : NodeId) :
    SwapsIn g any (h.inlineAny scope any) := by
  refine ⟨(h.add (.number "1")).1, h.next, e.add _ (by simp [Node.children]),
    fun had => h.not_has_next (e.has had), ?_⟩
  unfold inlineAny
  dsimp only
  split
  · exact .setWindow ..
  · exact .refl _

/-- A node below the root that is swapped leaves a new child. -/
theorem SwapsIn.regrown (s : SwapsIn h id k) (e : Extends g h) (l : g.Linked root)
    {owner : NodeId} (above : g.Below root owner) (slot : id ∈ g.children owner) :
    Regrown root g k := by
  obtain ⟨h', new, beside, fresh, labels⟩ := s
  exact ((e.trans beside).regrown_replace l above slot fun had => fresh (e.has had)).relabels labels

/-- Swapping a node for a new one leaves new children where there are some. -/
theorem Regrown.swapped (regrown : Regrown root g h) (s : SwapsIn h id k) (l : g.Linked root) :
    Regrown root g k := by
  obtain ⟨h', new, beside, fresh, labels⟩ := s
  exact ((regrown.beside l beside).replace l id
    fun had => fresh (Nat.lt_of_lt_of_le had regrown.1)).relabels labels

/-! ## ANY -/

/-- An ANY that is not resolved leaves the query. One that is stands in a clause of the scope: it is
inlined where it is all the scope retrieves, or a subquery over new nodes takes its place. -/
theorem resolveAnyAt_cases (g : Graph) (metadata : Metadata) (scope any : NodeId) :
    (g.resolveAnyAt metadata scope any).2 = false ∧
        Extends g (g.resolveAnyAt metadata scope any).1 ∨
      (g.resolveAnyAt metadata scope any).2 = true ∧
        ∃ h site, Extends g h ∧ g.locate? scope any = some site ∧
          ((g.resolveAnyAt metadata scope any).1 = h.inlineAny scope any ∧ site.site = .values ∧
              site.isValue = true ∧ (g.scope scope).values.length = 1 ∨
            ∃ kind sub, (g.resolveAnyAt metadata scope any).1 =
                h.replaceBySubquery any kind none sub ∧
              ∀ id ∈ sub.ranges ++ sub.condition.toList, ¬ g.Has id) := by
  unfold resolveAnyAt
  split
  case h_2 => exact .inl ⟨rfl, .refl g⟩
  next site located =>
  split
  · exact .inl ⟨rfl, .refl g⟩
  next sorts =>
  unfold resolveAny
  split
  · exact .inl ⟨rfl, .refl g⟩
  next a found =>
  obtain ⟨beside, found⟩ := g.correlate_cases metadata (g.isRange_includedRanges scope)
    a.operand a.condition
  split
  · next correlated =>
    rw [correlated] at beside
    exact .inl ⟨rfl, beside⟩
  · next h sub correlated =>
    rw [correlated] at beside found
    obtain ⟨zone, level, c⟩ := found sub rfl
    dsimp only
    split
    · next inlines =>
      simp only [inlinesAny, Bool.and_eq_true, beq_iff_eq] at inlines
      obtain ⟨⟨⟨⟨kind, -⟩, -⟩, isValue⟩, sole⟩ := inlines
      refine .inr ⟨rfl, h, site, beside, located, .inl ⟨rfl, ?_, isValue, sole⟩⟩
      cases place : site.site <;> simp_all [anyKind]
    · exact .inr ⟨rfl, h, site, beside, located, .inr ⟨_, sub, rfl, fun id mem =>
        c.fresh (c.ready mem).mem⟩⟩

/-- An ANY that is resolved gives its place to a new node. -/
theorem swapsIn_resolveAnyAt {metadata : Metadata} {any : NodeId}
    (told : (g.resolveAnyAt metadata scope any).2 = true) :
    SwapsIn g any (g.resolveAnyAt metadata scope any).1 := by
  rcases g.resolveAnyAt_cases metadata scope any with
    ⟨quiet, -⟩ | ⟨-, h, site, beside, -, ⟨inlined, -⟩ | ⟨kind, sub, replaced, fresh⟩⟩
  · rw [quiet] at told
    cases told
  · rw [inlined]
    exact swapsIn_inlineAny beside scope any
  · rw [replaced]
    exact swapsIn_replaceBySubquery beside any kind none sub (by simpa using fresh)

theorem ScopeIn.exists_owner (isScope : g.ScopeIn root scope)
    (below : g.Below scope id) (other : (g.node id).isRetrieve = false) :
    ∃ owner, g.Below root owner ∧ id ∈ g.children owner := by
  rcases below.eq_or_owner with rfl | ⟨owner, above, slot⟩
  · rw [isScope.isRetrieve] at other
    cases other
  · exact ⟨owner, isScope.reached.trans above, slot⟩

theorem isRetrieve_of_isAny {node : Node} (isAny : node.isAny = true) : node.isRetrieve = false := by
  cases node <;> simp_all [Node.isAny, Node.isRetrieve]

theorem Linked.answers_resolveAnys (l : g.Linked root) (isScope : g.ScopeIn root scope)
    (metadata : Metadata) :
    Answers g (Regrown root g) (g.resolveAnys metadata scope).1 (g.resolveAnys metadata scope).2 := by
  refine .changeEach (fun {h} e any mem => ?_) (fun {h any} regrown => ?_) (.refl g)
  · obtain ⟨found, isAny⟩ := List.mem_filter.mp mem
    obtain ⟨owner, above, slot⟩ := isScope.exists_owner (below_of_mem_postOrder found)
      (isRetrieve_of_isAny isAny)
    rcases h.resolveAnyAt_cases metadata scope any with ⟨quiet, beside⟩ | ⟨told, -⟩
    · rw [quiet]
      exact .no (e.trans beside)
    · rw [told]
      exact .yes ((swapsIn_resolveAnyAt told).regrown e l above slot)
  · rcases h.resolveAnyAt_cases metadata scope any with ⟨-, beside⟩ | ⟨told, -⟩
    · exact regrown.beside l beside
    · exact regrown.swapped (swapsIn_resolveAnyAt told) l

/-! ## Folded conditions -/

theorem snd_foldCondition (g : Graph) (id : NodeId) :
    (g.foldCondition id).2 = (g.node id).isConditional := by
  unfold foldCondition
  split
  · next node =>
    rw [node]
    rfl
  · next other =>
    cases node : g.node id with
    | aggregate a =>
      obtain ⟨function, operand, condition⟩ := a
      cases condition with
      | none => rfl
      | some condition => exact absurd node (other function operand condition)
    | _ => rfl

/-- Either there is no condition to fold, or the aggregate gets a new child. -/
theorem foldCondition_cases (g : Graph) (id : NodeId) :
    g.foldCondition id = (g, false) ∨
      ((g.foldCondition id).2 = true ∧ g.size ≤ (g.foldCondition id).1.size ∧
        (∃ child ∈ (g.foldCondition id).1.children id, ¬ g.Has child) ∧
        ∀ other, g.Has other → other ≠ id →
          (g.foldCondition id).1.node other = g.node other) := by
  by_cases folds : ∀ a, g.node id = .aggregate a → a.condition = none
  · exact .inl (foldCondition_eq_self folds)
  · obtain ⟨⟨function, operand, condition⟩, node, some⟩ := not_forall₂.mp folds
    obtain ⟨condition, rfl⟩ := Option.ne_none_iff_exists'.mp some
    refine .inr ⟨by rw [snd_foldCondition, node]; rfl,
      (Node.formal_stamp.toPlaced.foldCondition g id).size, ?_⟩
    rw [fst_foldCondition node]
    refine ⟨⟨((g.setCondition id none).add .null).1.next, ?_,
      not_has_next_of_le (le_size_withNull g id)⟩, fun other has ne => node_folded_of_ne has ne⟩
    rw [children, node_folded_self node]
    simp [Node.children]

theorem Regrown.foldCondition (regrown : Regrown root g h) (l : g.Linked root) (id : NodeId) :
    Regrown root g (h.foldCondition id).1 := by
  rcases h.foldCondition_cases id with same | ⟨-, size, ⟨child, slot, fresh⟩, others⟩
  · rw [same]
    exact regrown
  · obtain ⟨larger, owner, above, child', slot', fresh'⟩ := regrown
    refine ⟨larger.trans size, owner, above, ?_⟩
    by_cases same : owner = id
    · exact ⟨child, same ▸ slot, fun had => fresh (Nat.lt_of_lt_of_le had larger)⟩
    · refine ⟨child', ?_, fresh'⟩
      rwa [children, others owner (Nat.lt_of_lt_of_le (l.has_of_below above) larger) same]

theorem Extends.answers_foldCondition (e : Extends g h) (below : g.Below root id) :
    Answers g (Regrown root g) (h.foldCondition id).1 (h.foldCondition id).2 := by
  rcases h.foldCondition_cases id with same | ⟨told, size, ⟨child, slot, fresh⟩, -⟩
  · rw [same]
    exact .no e
  · rw [told]
    exact .yes ⟨e.size.trans size, id, below, child, slot, fun had => fresh (e.has had)⟩

theorem Extends.answers_foldConditionsUnder (e : Extends g h) (l : g.Linked root) {start : NodeId}
    (below : g.Below root start) :
    Answers g (Regrown root g) (h.foldConditionsUnder start).1 (h.foldConditionsUnder start).2 := by
  refine .changeEach (fun e' id mem => e'.answers_foldCondition (below.trans ?_))
    (fun regrown => regrown.foldCondition l _) e
  exact (e.below_iff (l.grounded below)).mp
    (below_of_mem_conditionalAggregates (List.mem_reverse.mp mem))

theorem changeEach_induction {change : Graph → NodeId → Graph × Bool} {motive : Graph → Prop}
    {ids : List NodeId} (step : ∀ {h}, ∀ id ∈ ids, motive h → motive (change h id).1)
    (start : motive g) : motive (changeEach change g ids).1 := by
  induction ids generalizing g with
  | nil => exact start
  | cons id rest ih => exact ih (fun other mem => step other (by simp [mem])) (step id (by simp) start)

/-! ## One range -/

/-- The filter that a scope takes over, which it had not before. -/
theorem promoteCondition_cases (g : Graph) (scope : NodeId) (isRetrieve : (g.node scope).isRetrieve = true) :
    g.promoteCondition scope = (g, false) ∨
      ((g.promoteCondition scope).2 = true ∧
        ((g.promoteCondition scope).1.node scope).isRetrieve = true ∧
        (g.promoteCondition scope).1.node scope ≠ g.node scope) := by
  unfold promoteCondition
  cases found : g.soleConditional? (g.scope scope) with
  | none => exact .inl rfl
  | some pair =>
    obtain ⟨aggregate, condition⟩ := pair
    obtain ⟨value, a, -, none, -, node, -⟩ := soleConditional?_eq_some found
    cases kind : g.node scope with
    | retrieve r =>
      have ne : scope ≠ aggregate := by
        rintro rfl
        rw [kind] at node
        cases node
      have has : g.Has scope := has_of_node kind (by simp)
      have before : (g.setCondition aggregate .none).node scope = .retrieve r := by
        rw [node_setCondition_of_ne g ne, kind]
      have has' : (g.setCondition aggregate .none).Has scope := by rwa [Has, size_setCondition]
      have after : ((g.setCondition aggregate .none).setCondition scope (some condition)).node scope =
          .retrieve { r with condition := some condition } :=
        node_setCondition_self has' (by rw [before]; rfl)
      refine .inr ⟨rfl, by rw [after]; rfl, ?_⟩
      rw [after]
      intro same
      have held : some condition = r.condition := congrArg Node.condition? same
      have none' : r.condition = .none := by simpa [Graph.scope, kind] using none
      rw [none'] at held
      cases held
    | _ =>
      rw [kind] at isRetrieve
      cases isRetrieve

theorem Linked.answers_freeAggregatesOfOne (l : g.Linked root) (isScope : g.ScopeIn root scope) :
    Answers g (Altered root g) (g.freeAggregatesOfOne scope).1 (g.freeAggregatesOfOne scope).2 := by
  -- The new filter stays, as folding leaves the scope; else some aggregate got a new child.
  let marked (h : Graph) : Prop := Regrown root g h ∨
    (h.node scope).isRetrieve = true ∧ h.node scope ≠ g.node scope
  have kept : ∀ {h start}, marked h → marked (h.foldConditionsUnder start).1 := by
    rintro h start (regrown | ⟨isRetrieve, other⟩)
    · exact .inl (changeEach_induction (fun id _ regrown => regrown.foldCondition l id) regrown)
    · refine .inr (changeEach_induction (motive := fun k => (k.node scope).isRetrieve = true ∧
        k.node scope ≠ g.node scope) (fun {k} id _ held => ?_) ⟨isRetrieve, other⟩)
      rwa [node_foldCondition_of_isRetrieve held.1]
  have freed : Answers g marked (g.freeAggregatesOfOne scope).1 (g.freeAggregatesOfOne scope).2 := by
    refine (?_ : Answers g marked (g.promoteCondition scope).1 (g.promoteCondition scope).2).or
      (fun e => ?_) fun held => changeEach_induction (fun _ _ => kept) held
    · rcases g.promoteCondition_cases scope isScope.isRetrieve with same | ⟨told, held⟩
      · rw [same]
        exact .no (.refl g)
      · rw [told]
        exact .yes (.inr held)
    · refine .changeEach (fun e' output mem => ?_) kept e
      refine (e'.answers_foldConditionsUnder l (isScope.reached.child ?_)).map .inl
      refine (g.node scope).outputs_subset_children ?_
      cases node : g.node scope <;>
        simp_all [Graph.scope, Retrieve.empty, Retrieve.outputs, Node.outputs]
  refine freed.map ?_
  rintro (regrown | ⟨-, other⟩)
  · exact regrown.altered l
  · exact ⟨scope, isScope.reached, other⟩

/-! ## Several ranges -/

section

variable (metadata : Metadata) (strategy : AggregateStrategy) {ranges : List NodeId}

/-- One aggregate gives its place to a subquery, or its condition is folded after some work beside
the query. -/
theorem freeOne_answer (isRange : ∀ range ∈ ranges, (g.node range).isRange = true) (id : NodeId)
    (site : ExpressionSite) :
    (g.freeOne metadata strategy ranges id site).2 = true ∧
        SwapsIn g id (g.freeOne metadata strategy ranges id site).1 ∨
      ∃ h, Extends g h ∧ g.freeOne metadata strategy ranges id site = h.foldCondition id := by
  have result : Wrapped g metadata ranges id
      (if strategy g id then g.wrapAggregate metadata ranges id site else (g, false)).1
      (if strategy g id then g.wrapAggregate metadata ranges id site else (g, false)).2 := by
    split
    · exact wrapped_wrapAggregate metadata isRange id site
    · exact .left (.refl g)
  unfold freeOne
  generalize (if strategy g id then g.wrapAggregate metadata ranges id site else (g, false)) =
    pair at result
  obtain ⟨h, wrapped⟩ := pair
  cases result with
  | left beside => exact .inr ⟨h, beside, rfl⟩
  | tested kind _ _ c =>
    exact .inl ⟨rfl, swapsIn_replaceBySubquery c.beside id kind none _
      (by simpa using fun id mem => c.fresh (c.ready mem).mem)⟩
  | valued _ _ v =>
    obtain ⟨level, -, fresh, ready, -⟩ := v.inOrder
    exact .inl ⟨rfl, swapsIn_replaceBySubquery v.beside id .scalar _ _
      fun id mem => fresh id (ready id mem).mem⟩

theorem Linked.answers_freeAggregate (l : g.Linked root) {sites : List (NodeId × ExpressionSite)}
    (below : ∀ site ∈ sites, ∃ owner, g.Below root owner ∧ site.1 ∈ g.children owner)
    (isRange : ∀ range ∈ ranges, (h.node range).isRange = true) (e : Extends g h) :
    Answers g (Regrown root g) (freeAggregate metadata strategy ranges h sites).1
      (freeAggregate metadata strategy ranges h sites).2 := by
  have isRange' : ∀ {h : Graph}, (∀ range ∈ ranges, (h.node range).isRange = true) →
      ∀ id site, ∀ range ∈ ranges,
        ((h.freeOne metadata strategy ranges id site).1.node range).isRange = true :=
    fun isRange id site range mem =>
      (same_freeOne metadata strategy Node.formal_stamp.toPlaced isRange id site).isRange_mono
        (isRange range mem)
  have kept : ∀ {h : Graph}, (∀ range ∈ ranges, (h.node range).isRange = true) → ∀ id site,
      Regrown root g h → Regrown root g (h.freeOne metadata strategy ranges id site).1 := by
    intro h isRange id site regrown
    rcases freeOne_answer metadata strategy isRange id site with ⟨-, swaps⟩ | ⟨k, beside, same⟩
    · exact regrown.swapped swaps l
    · rw [same]
      exact (regrown.beside l beside).foldCondition l id
  have still : ∀ {rest : List (NodeId × ExpressionSite)} {h : Graph},
      (∀ range ∈ ranges, (h.node range).isRange = true) → Regrown root g h →
        Regrown root g (freeAggregate metadata strategy ranges h rest).1 := by
    intro rest
    induction rest with
    | nil => exact fun _ regrown => regrown
    | cons first rest ih =>
      exact fun isRange regrown => ih (isRange' isRange first.1 first.2)
        (kept isRange first.1 first.2 regrown)
  induction sites generalizing h with
  | nil => exact .no e
  | cons first rest ih =>
    have next := isRange' isRange first.1 first.2
    refine (?_ : Answers g (Regrown root g) (h.freeOne metadata strategy ranges first.1 first.2).1
      (h.freeOne metadata strategy ranges first.1 first.2).2).or
      (ih (fun site mem => below site (by simp [mem])) next) (still next)
    obtain ⟨owner, above, slot⟩ := below first (by simp)
    rcases freeOne_answer metadata strategy isRange first.1 first.2 with
      ⟨told, swaps⟩ | ⟨k, beside, same⟩
    · rw [told]
      exact .yes (swaps.regrown e l above slot)
    · rw [same]
      exact (e.trans beside).answers_foldCondition (above.child slot)

theorem Linked.answers_freeAggregates (l : g.Linked root) (isScope : g.ScopeIn root scope) :
    Answers g (Altered root g) (g.freeAggregates metadata strategy scope).1
      (g.freeAggregates metadata strategy scope).2 := by
  unfold freeAggregates
  dsimp only
  split
  · exact l.answers_freeAggregatesOfOne isScope
  · refine (l.answers_freeAggregate metadata strategy (fun site mem => ?_)
      (g.isRange_includedRanges scope) (.refl g)).map fun regrown => regrown.altered l
    have found := List.mem_reverse.mp mem
    refine isScope.exists_owner (below_of_mem_aggregateSites found) ?_
    have conditional := isConditional_of_mem_aggregateSites found
    cases node : g.node site.1 <;> simp_all [Node.isConditional, Node.isRetrieve]

end

end Graph

end RangeQuery
