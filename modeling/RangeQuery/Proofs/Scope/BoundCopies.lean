import RangeQuery.Proofs.Scope.Binding
import RangeQuery.Proofs.Scope.CopiedReads

/-!
Bindings while aggregates become subqueries. The identifiers of such a subquery read new ranges, or
ranges that an identifier below the copied nodes read from outside; those lie around the aggregate,
so the scopes that declare them are around the subquery, too.
-/

namespace RangeQuery

namespace Graph

variable {g h : Graph} {root : NodeId} {scopes : List NodeId}

/-- Of two nodes above a third one is above the other. -/
theorem Linked.below_total (l : g.Linked root) {one other id : NodeId} (above : g.Below root one)
    (above' : g.Below root other) (below : g.Below one id) (below' : g.Below other id) :
    g.Below one other ∨ g.Below other one := by
  refine Below.induction below' (motive := fun id => g.Below one id →
    g.Below one other ∨ g.Below other one) .inl ?_ below
  intro owner child inside ih slot below
  rcases below.eq_or_owner with rfl | ⟨owner', inside', slot'⟩
  · exact .inr (inside.child slot)
  · have same := l.owner_unique (above.trans inside') (above'.trans inside) slot' slot
    exact ih (same ▸ inside')

/-- The subquery in the place of a node is no identifier. -/
theorem not_identifier_next (h : Graph) (old : NodeId) (kind : SubqueryKind)
    (expression : Option NodeId) (sub : CorrelatedScope) (i : Identifier) :
    (h.replaceBySubquery old kind expression sub).node h.next ≠ .identifier i := by
  intro node
  have kept := (Node.slotless_label.replace (h.add (.subquery
    { kind, ranges := sub.ranges, expression, condition := sub.condition })).1 old h.next).node
    (h.has_add_next _)
  rw [node_add_next] at kept
  have label := (congrArg Node.label node).symm.trans kept
  cases label

namespace Bound

variable (b : Bound g root scopes)

include b

/-- A scope that declares what an identifier below a child reads, but not from below that child, is
around the owner of the child. -/
theorem below_owner {owner top origin scope : NodeId} {i : Identifier}
    (above : g.Below root owner) (slot : top ∈ g.children owner) (below : g.Below top origin)
    (node : g.node origin = .identifier i) (mem : scope ∈ scopes)
    (declared : i.range ∈ (g.node scope).declared)
    (apart : ∀ other, g.Below top other → i.range ∉ g.children other) : g.Below scope owner := by
  have reached := (b.isScope scope mem).reached
  have inside := b.within ((above.child slot).trans below) node scope mem declared
  have notBelow : ¬ g.Below top scope := fun lower =>
    apart scope lower (declared_subset_children _ declared)
  have around := (b.linked.below_total reached (above.child slot) inside below).resolve_right
    notBelow
  rcases around.eq_or_owner with rfl | ⟨owner', inside', slot'⟩
  · exact absurd (Below.refl g _) notBelow
  · rwa [b.linked.owner_unique above (reached.trans inside') slot slot']

/-- A subquery over new nodes that takes the place of a node outside the query keeps the bindings. -/
theorem replacedOutside {old : NodeId} (outside : ¬ g.Below root old) (has : g.Has old)
    (e : Extends g h) {kind : SubqueryKind} {expression : Option NodeId} {sub : CorrelatedScope}
    (fresh : ∀ id ∈ sub.ranges ++ expression.toList ++ sub.condition.toList, ¬ g.Has id)
    (keeps : Keeps g (h.replaceBySubquery old kind expression sub)) :
    Bound (h.replaceBySubquery old kind expression sub) root scopes :=
  b.reshaped keeps (e.same.trans (Node.slotless_label.replaceBySubquery h old kind expression sub))
    (b.linked.reshapedOutside outside has e kind fresh) fun mem new =>
      absurd (b.linked.has_of_below mem) new

/-- A subquery over new nodes takes the place of an aggregate. -/
theorem replacedBySubquery {scope old : NodeId} (above : g.Below root scope)
    (inside : g.Below scope old) {a : Aggregate} (node : g.node old = .aggregate a)
    (e : Extends g h) {zone : Set NodeId} {level : NodeId → List NodeId}
    (z : h.Zone ∅ ∅ zone level) (fresh : ∀ id ∈ zone, ¬ g.Has id) (kind : SubqueryKind)
    {expression : Option NodeId} {sub : CorrelatedScope}
    (ready : ∀ id ∈ sub.ranges ++ expression.toList ++ sub.condition.toList,
      h.Ready ∅ ∅ zone level [] id)
    (nodup : (sub.ranges ++ expression.toList ++ sub.condition.toList).Nodup) {tops : Set NodeId}
    (isTop : ∀ top ∈ tops, top ∈ g.children scope ∨ top ∈ g.children old)
    (reads : ∀ {id i}, id ∈ zone → h.node id = .identifier i → ReadsLike g h tops i.range)
    (keeps : Keeps g (h.replaceBySubquery old kind expression sub)) :
    Bound (h.replaceBySubquery old kind expression sub) root scopes := by
  have reached := above.trans inside
  have swap := Node.slotless_label.replaceBySubquery h old kind expression sub
  have label := e.same.trans swap
  have r := b.linked.zone.reshapedBySubquery e z fresh node kind ready nodup
  have owner : ∀ top ∈ tops, ∃ owner, g.Below root owner ∧ top ∈ g.children owner ∧
      g.Below owner old := by
    intro top mem
    rcases isTop top mem with slot | slot
    · exact ⟨scope, above, slot, inside⟩
    · exact ⟨old, reached, slot, Below.refl g old⟩
  -- All new nodes lie within the subquery, and no old scope does.
  have around : ∀ id ∈ insert h.next ({id | g.Below root id} ∪ zone), ¬ g.Has id →
      h.next ∈ g.levelAround h (g.levelFrom {root}) level old id := by
    rintro id (rfl | was | mem) new
    · rw [levelAround_next e.size]
      exact List.mem_cons_self
    · exact absurd (b.linked.has_of_below was) new
    · rw [levelAround_of_new new (z.has mem)]
      simp
  have apart : ∀ scope ∈ scopes, h.next ∉ g.levelFrom {root} scope := fun scope mem on => by
    have reached := (b.isScope scope mem).reached
    exact h.not_has_next (e.has (b.linked.has_of_below ((b.linked.mem_levelFrom reached).mp on).2.1))
  refine b.reshaped keeps label r fun {id i} mem new node' => ?_
  have isNew : id ∈ zone := by
    rcases mem with rfl | was | mem
    · exact absurd node' (h.not_identifier_next old kind expression sub i)
    · exact absurd (b.linked.has_of_below was) new
    · exact mem
  have was := swap.node (z.has isNew)
  rw [node'] at was
  rw [levelAround_of_new new (z.has isNew)]
  cases reads isNew (Node.label_eq_identifier was.symm) with
  | @kept top origin i' mem below node same apart =>
    obtain ⟨owner, above, slot, inside⟩ := owner top mem
    have included := b.included ((above.child slot).trans below) node
    rw [← same] at apart ⊢
    refine ⟨label.isIncluded included, fun other isScope declared => ?_⟩
    have reached' := (b.isScope other isScope).reached
    have declared' := (keeps.declared (b.linked.has_of_below reached')
      (has_of_isIncluded included) (Node.isRange_of_isIncluded included)).mp declared
    have within := (b.below_owner above slot below node isScope declared' apart).trans inside
    have on := (b.linked.mem_levelFrom reached).mpr
      ⟨opensScope_of_isRetrieve (b.isScope other isScope).isRetrieve, reached', within⟩
    simp [on]
  | @fresh top origin i' mem below node absent like =>
    obtain ⟨owner, above, slot, inside⟩ := owner top mem
    have included := b.included ((above.child slot).trans below) node
    have included' : (h.node i.range).isIncluded = true := by
      rw [← Node.isIncluded_label, like (Node.isRange_of_isIncluded included),
        Node.isIncluded_label, included]
    have included'' := swap.isIncluded included'
    refine ⟨included'', fun other isScope declared => ?_⟩
    have reached' := (b.isScope other isScope).reached
    have link := r.inOrder.link (show other ∈ _ from .inr (.inl reached'))
      (declared_subset_children _ declared) (Set.notMem_empty _)
    have on := around i.range link.mem absent
    rw [link.level, enter_of_false (Node.opensScope_of_isRange
      (Node.isRange_of_isIncluded included'')),
      levelAround_of_has (b.linked.has_of_below reached')] at on
    exact absurd on (apart other isScope)

/-- Work beside the query keeps the bindings. -/
theorem beside (e : Extends g h) : Bound h root scopes :=
  b.reshaped (.of_extends e) e.same ⟨e.zone b.linked.zone, fun mem _ => ⟨mem, rfl⟩⟩ fun mem new =>
    absurd (b.linked.has_of_below mem) new

theorem inlined (scope : NodeId) {any : NodeId} {a : Aggregate}
    (node : g.node any = .aggregate a) : Bound (g.inlineAny scope any) root scopes := by
  have label := Node.slotless_label.inlineAny g scope any
  refine b.reshaped (.inlineAny scope node) label (b.linked.zone.reshapedInline scope node)
    fun {id i} mem new node' => ?_
  have isNext : id = g.next := mem.resolve_right fun was => new (b.linked.has_of_below was)
  subst isNext
  have kept := g.label_inlineAny_next scope any
  rw [node'] at kept
  cases kept

/-- A subquery without a value over a correlated scope takes the place of an aggregate. -/
theorem tested {metadata : Metadata} {scope old : NodeId} {ranges : List NodeId} {a : Aggregate}
    {sub : CorrelatedScope} {zone : Set NodeId} {level : NodeId → List NodeId} (mem : scope ∈ scopes)
    (declared : ∀ range ∈ ranges, range ∈ (g.node scope).declared ∧ (g.node range).isRange = true)
    (inside : g.Below root old → g.Below scope old) (node : g.node old = .aggregate a)
    (c : Correlated g metadata ranges a.operand a.condition h sub zone level) (kind : SubqueryKind)
    (keeps : Keeps g (h.replaceBySubquery old kind none sub)) :
    Bound (h.replaceBySubquery old kind none sub) root scopes := by
  have above := (b.isScope scope mem).reached
  by_cases reached : g.Below root old
  · have slots : ∀ top ∈ {id | id ∈ ranges ++ a.condition.toList},
        top ∈ g.children scope ∨ top ∈ g.children old := by
      intro top among
      rcases List.mem_append.mp among with range | filter
      · exact .inl (declared_subset_children _ (declared top range).1)
      · exact .inr (by simp [children, node, Node.children, Option.mem_toList.mp filter])
    refine b.replacedBySubquery above (inside reached) node c.beside c.inOrder (fun _ => c.fresh)
      kind (by simpa using fun id => c.ready) (by simpa using c.nodup) slots
      (fun mem node => c.readsLike b.linked (fun range mem => (declared range mem).2)
        (fun top among => ?_) mem node) keeps
    exact (slots top among).elim above.child reached.child
  · exact b.replacedOutside reached (has_of_aggregate node) c.beside
      (by simpa using fun id mem => c.fresh (c.ready mem).mem) keeps

/-- A scalar subquery takes the place of an aggregate. -/
theorem valued {metadata : Metadata} {scope old : NodeId} {ranges : List NodeId} {a : Aggregate}
    {sub : CorrelatedScope} {zone : Set NodeId} {level : NodeId → List NodeId} {k : Graph}
    {value : NodeId} (mem : scope ∈ scopes)
    (declared : ∀ range ∈ ranges, range ∈ (g.node scope).declared ∧ (g.node range).isRange = true)
    (inside : g.Below root old → g.Below scope old) (node : g.node old = .aggregate a)
    (v : Valued g metadata ranges a h sub zone level k value)
    (keeps : Keeps g (k.replaceBySubquery old .scalar (some value) sub)) :
    Bound (k.replaceBySubquery old .scalar (some value) sub) root scopes := by
  have above := (b.isScope scope mem).reached
  obtain ⟨level', z, fresh, ready, nodup, -⟩ := v.inOrder
  by_cases reached : g.Below root old
  · have slots : ∀ top ∈ {id | id ∈ ranges ++ a.condition.toList} ∪ {a.operand},
        top ∈ g.children scope ∨ top ∈ g.children old := by
      rintro top (among | rfl)
      · rcases List.mem_append.mp among with range | filter
        · exact .inl (declared_subset_children _ (declared top range).1)
        · exact .inr (by simp [children, node, Node.children, Option.mem_toList.mp filter])
      · exact .inr (by simp [children, node, Node.children])
    have reach : ∀ top ∈ {id | id ∈ ranges ++ a.condition.toList} ∪ {a.operand},
        g.Below root top := fun top among => (slots top among).elim above.child reached.child
    have isRange : ∀ range ∈ ranges, (g.node range).isRange = true := fun range mem =>
      (declared range mem).2
    have tree := h.forest_copyWith a.operand sub.copies
    have later : ∀ {id}, (h.copyWith a.operand sub.copies).1.Has id →
        k.node id = (h.copyWith a.operand sub.copies).1.node id := fun has => by
      rw [v.graph_eq, node_add has]
    refine b.replacedBySubquery above (inside reached) node v.beside z fresh .scalar ready nodup
      slots (fun {id i} mem node => ?_) keeps
    rcases mem with rfl | mem | mem
    · rw [v.value_eq, v.graph_eq, node_add_next] at node
      cases node
    · have has := v.correlated.inOrder.has mem
      rw [later (tree.beside.has has), tree.beside.node has] at node
      have reads := v.correlated.readsLike b.linked isRange
        (fun top among => reach top (.inl among)) mem node
      refine (reads.after fun other isRange => ?_).mono Set.subset_union_left
      have had := has_of_isRange isRange
      rw [later (tree.beside.has had), tree.beside.node had]
    · have has := (tree.linked _ (List.mem_singleton_self _)).has_of_below mem
      rw [later has] at node
      have reads := readsLike_operand v.correlated b.linked isRange (reach _ (.inr rfl)) mem node
      refine (reads.after fun other isRange => ?_).mono Set.subset_union_right
      rw [later (has_of_isRange isRange)]
  · exact b.replacedOutside reached (has_of_aggregate node) v.beside
      (fun id mem => fresh id (ready id mem).mem) keeps

/-- What becomes of an ANY of a scope keeps the bindings. -/
theorem resolved {metadata : Metadata} {scope any : NodeId} (mem : scope ∈ scopes)
    (inside : g.Below root any → g.Below scope any) (r : Resolved g metadata scope any h) :
    Bound h root scopes := by
  have keeps := Keeps.resolved r
  cases r with
  | left beside => exact b.beside beside
  | @inlined h a node beside =>
    refine (b.beside beside).inlined scope (a := a) ?_
    rw [beside.node (has_of_aggregate node), node]
  | replaced kind node c =>
    exact b.tested mem (fun range among => ⟨(isIncluded_of_mem among).1,
      g.isRange_includedRanges scope range among⟩) inside node c kind keeps

/-- What becomes of an aggregate that a subquery is wanted for keeps the bindings. -/
theorem wrapped {metadata : Metadata} {scope id : NodeId} {ranges : List NodeId} {wrapped : Bool}
    (mem : scope ∈ scopes)
    (declared : ∀ range ∈ ranges, range ∈ (g.node scope).declared ∧ (g.node range).isRange = true)
    (inside : g.Below root id → g.Below scope id) (w : Wrapped g metadata ranges id h wrapped) :
    Bound h root scopes := by
  have keeps := Keeps.wrapped w
  cases w with
  | left beside => exact b.beside beside
  | tested kind node used c =>
    subst used
    exact b.tested mem (fun range mem => declared range (List.mem_filter.mp mem).1) inside node c kind
      keeps
  | valued node used v =>
    subst used
    exact b.valued mem (fun range mem => declared range (List.mem_filter.mp mem).1) inside node v keeps

end Bound

/-! ## One aggregate after the other -/

/-- The old nodes that are still reached were reached before, on the same level. -/
def Stays (g h : Graph) (root : NodeId) : Prop :=
  ∀ id, h.Below root id → g.Has id →
    g.Below root id ∧ h.levelFrom {root} id = g.levelFrom {root} id

theorem Reshaped.stays {zone : Set NodeId} {level : NodeId → List NodeId} (l : g.Linked root)
    (stamp : Same Node.stamp g h)
    (r : Reshaped g h {root} {id | g.Below root id} (g.levelFrom {root}) zone level) :
    Stays g h root := by
  intro id below had
  obtain ⟨within, on⟩ := r.level_eq l stamp below
  obtain ⟨was, same⟩ := r.old within had
  exact ⟨was, on.symm.trans same⟩

theorem Widens.stays (l : g.Linked root) (stamp : Same Node.stamp g h)
    (w : Widens g h {root} {id | g.Below root id} (g.levelFrom {root})) : Stays g h root := by
  obtain ⟨zone, level, reshaped, -⟩ := w
  exact reshaped.stays l stamp

theorem Rearranges.stays (l : g.Linked root) (stamp : Same Node.stamp g h)
    (r : Rearranges g h {root} {id | g.Below root id} (g.levelFrom {root})) : Stays g h root := by
  obtain ⟨zone, level, reshaped, -⟩ := r
  exact reshaped.stays l stamp

theorem Stays.trans {k : Graph} (size : g.size ≤ h.size) (a : Stays g h root)
    (c : Stays h k root) : Stays g k root := by
  intro id below had
  obtain ⟨was, same⟩ := c id below (Nat.lt_of_lt_of_le had size)
  obtain ⟨was', same'⟩ := a id was had
  exact ⟨was', same.trans same'⟩

/-- What lay within a scope, and is still reached, lies within it. -/
theorem Stays.inside (s : Stays g h root) (l : g.Linked root) (l' : h.Linked root)
    {scope id : NodeId} (isScope : g.ScopeIn root scope) (has : g.Has id)
    (inside : g.Below root id → g.Below scope id) (below : h.Below root id) :
    h.Below scope id := by
  obtain ⟨was, same⟩ := s id below has
  have on := (l.mem_levelFrom was).mpr
    ⟨opensScope_of_isRetrieve isScope.isRetrieve, isScope.reached, inside was⟩
  rw [← same] at on
  exact ((l'.mem_levelFrom below).mp on).2.2

/-- Resolving the ANYs of a scope keeps the bindings. -/
theorem Bound.resolveAnys (b : Bound g root scopes) (metadata : Metadata) {scope : NodeId}
    (mem : scope ∈ scopes) : Bound (g.resolveAnys metadata scope).1 root scopes := by
  have run : ∀ (anys : List NodeId) {g : Graph}, Bound g root scopes →
      (∀ any ∈ anys, g.Has any ∧ (g.Below root any → g.Below scope any)) →
      Bound (changeEach (fun g any => g.resolveAnyAt metadata scope any) g anys).1 root scopes := by
    intro anys
    induction anys with
    | nil => exact fun b _ => b
    | cons any rest ih =>
      intro g b inside
      have r := g.resolved_resolveAnyAt metadata scope any
      have label := Node.slotless_label.resolved r
      have stays := (b.linked.zone.resolved r).stays b.linked
        (Node.formal_stamp.toSlotless.resolved r)
      have bound := b.resolved mem (inside any (by simp)).2 r
      refine ih bound fun other later => ?_
      obtain ⟨has, within⟩ := inside other (by simp [later])
      exact ⟨label.has has, stays.inside b.linked bound.linked (b.isScope scope mem) has within⟩
  refine run _ b fun any listed => ?_
  have below := below_of_mem_postOrder (List.mem_filter.mp listed).1
  exact ⟨b.linked.has_of_below ((b.isScope scope mem).reached.trans below), fun _ => below⟩

/-! ## Folded conditions -/

/-- Folding the condition of a node outside the query leaves the query, if what the node owns is
owned by it alone. -/
theorem Zone.foldOutside {roots zone : Set NodeId} {level : NodeId → List NodeId}
    (z : g.Zone roots ∅ zone level) {id : NodeId} (outside : id ∉ zone)
    (owned : ∀ child ∈ g.children id, child ∉ zone) :
    (g.foldCondition id).1.Zone roots ∅ zone level := by
  by_cases folds : ∀ a, g.node id = .aggregate a → a.condition = none
  · rw [foldCondition_eq_self folds]
    exact z
  · obtain ⟨⟨function, operand, condition⟩, node, some⟩ := not_forall₂.mp folds
    obtain ⟨condition, rfl⟩ := Option.ne_none_iff_exists'.mp some
    have slots : g.children id = [operand, condition] := by rw [children, node]; rfl
    rw [fst_foldCondition node, Graph.folded, withChoice]
    have size : (g.setCondition id none).size = g.size := size_setCondition g id none
    generalize released : g.setCondition id none = h at size
    have has : ∀ {other}, other ∈ zone → h.Has other := fun mem => by
      rw [Has, size]
      exact z.has mem
    have fresh : ∀ {k : Graph} {other}, g.size ≤ k.size → other ∈ zone → other ≠ k.next :=
      fun size mem => ne_next_of_has (Nat.lt_of_lt_of_le (z.has mem) size)
    have apart : ∀ {other}, other ∈ zone → other ≠ id ∧ other ≠ operand ∧ other ≠ condition := by
      intro other mem
      refine ⟨?_, ?_, ?_⟩ <;> rintro rfl
      · exact outside mem
      · exact owned other (by simp [slots]) mem
      · exact owned other (by simp [slots]) mem
    refine z.elsewhere (fun other mem => ?_) (fun other mem => ?_) fun other mem => .inl ?_
    · have swap := Node.slotless_label.replaceChild ((h.add .null).1.add (.caseWhen
        { condition, result := operand, otherwise := Option.some h.next })).1 id operand
        (h.add .null).1.next
      exact swap.has (has_add (has_add (has mem) _) _)
    · rw [node_replaceChild (has_add (has_add (has mem) _) _), if_neg (apart mem).1,
        node_add (has_add (has mem) _), node_add (has mem), ← released,
        node_setCondition_of_ne g (apart mem).1]
    · have kept : h.parent other = g.parent other := by
        rw [← released]
        refine parent_setCondition (fun held => (apart mem).2.2 ?_) (by simp)
        rw [condition?, node] at held
        exact (Option.some.inj held).symm
      have notNull : other ≠ h.next := fresh (Nat.le_of_eq size.symm) mem
      have notChoice : other ≠ (h.add .null).1.next := fresh (by rw [size_add]; omega) mem
      rw [parent_replaceChild (apart mem).2.1 notChoice,
        parent_add_of_not_mem notChoice (by simp [Node.children, apart mem, notNull]),
        parent_add_of_not_mem notNull (by simp [Node.children]), kept]

section

variable {zone : Set NodeId} {level : NodeId → List NodeId}

/-- Folding the condition of a node that a zone around the query holds rearranges the query, whether
that still reaches the node or not. -/
theorem Zone.rearrangesFold (z : g.Zone {root} ∅ zone level) {id : NodeId} (mem : id ∈ zone) :
    Rearranges g (g.foldCondition id).1 {root} {id | g.Below root id} (g.levelFrom {root}) := by
  have l := z.linked (Set.mem_singleton root)
  by_cases reached : g.Below root id
  · exact (l.zone.foldCondition reached).rearranges
  · have z' := l.zone.foldOutside reached fun child slot below => reached ?_
    · exact ⟨_, _, ⟨z', fun mem _ => ⟨mem, rfl⟩⟩, fun mem new => absurd (l.has_of_below mem) new⟩
    -- A reached child has one owner, which is reached.
    · have recorded := z.owned mem slot (Set.notMem_empty _)
      rcases below.eq_or_owner with rfl | ⟨owner, above, slot'⟩
      · rw [l.parent_root] at recorded
        cases recorded
      · rw [l.parent_child above slot'] at recorded
        exact Option.some.inj recorded ▸ above

variable (metadata : Metadata) (strategy : AggregateStrategy) {ranges : List NodeId}
  {scope : NodeId}

/-- Freeing an aggregate leaves the old nodes that are still reached where they are. -/
theorem Linked.stays_freeOne (l : g.Linked root) (z : g.Zone {root} ∅ zone level)
    (isRange : ∀ range ∈ ranges, (g.node range).isRange = true) {id : NodeId} (within : id ∈ zone)
    (site : ExpressionSite) :
    (g.freeOne metadata strategy ranges id site).1.Linked root ∧
      Stays g (g.freeOne metadata strategy ranges id site).1 root := by
  obtain ⟨_, _, reshaped, -, larger⟩ := z.freeOne metadata strategy isRange within site
  refine ⟨reshaped.inOrder.linked rfl, ?_⟩
  have stamp : ∀ {h wrapped}, Wrapped g metadata ranges id h wrapped → Same Node.stamp g h :=
    fun wrapped => Node.formal_stamp.toSlotless.wrapped wrapped
  rcases freeOne_cases metadata strategy isRange id site with wrapped | ⟨h, wrapped, same⟩
  · exact (l.zone.wrapped wrapped).stays l (stamp wrapped)
  · rw [same]
    obtain ⟨_, _, reshaped, -, larger⟩ := z.wrapped wrapped
    have first := (l.zone.wrapped wrapped).stays l (stamp wrapped)
    exact first.trans (stamp wrapped).size <|
      (reshaped.inOrder.rearrangesFold (larger within)).stays (reshaped.inOrder.linked rfl)
        (Node.formal_stamp.toSlotless.foldCondition h id)

theorem Bound.freeOne (b : Bound g root scopes) (mem : scope ∈ scopes)
    (z : g.Zone {root} ∅ zone level)
    (declared : ∀ range ∈ ranges, range ∈ (g.node scope).declared ∧ (g.node range).isRange = true)
    {id : NodeId} (within : id ∈ zone) (inside : g.Below root id → g.Below scope id)
    (site : ExpressionSite) :
    Bound (g.freeOne metadata strategy ranges id site).1 root scopes := by
  rcases freeOne_cases metadata strategy (fun range mem => (declared range mem).2) id site with
    wrapped | ⟨h, wrapped, same⟩
  · exact b.wrapped mem declared inside wrapped
  · obtain ⟨_, _, reshaped, -, larger⟩ := z.wrapped wrapped
    rw [same]
    exact (b.wrapped mem declared inside wrapped).rearranged (.foldCondition h id)
      (Node.slotless_label.foldCondition h id) (reshaped.inOrder.rearrangesFold (larger within))

theorem Bound.freeAggregate (b : Bound g root scopes) (mem : scope ∈ scopes)
    (z : g.Zone {root} ∅ zone level)
    (declared : ∀ range ∈ ranges, range ∈ (g.node scope).declared ∧ (g.node range).isRange = true)
    {sites : List (NodeId × ExpressionSite)}
    (inside : ∀ site ∈ sites, site.1 ∈ zone ∧ (g.Below root site.1 → g.Below scope site.1)) :
    Bound (Graph.freeAggregate metadata strategy ranges g sites).1 root scopes := by
  induction sites generalizing g zone level with
  | nil => exact b
  | cons first rest ih =>
    rw [freeAggregate_cons]
    obtain ⟨within, below⟩ := inside first (by simp)
    have isRange : ∀ range ∈ ranges, (g.node range).isRange = true := fun range mem =>
      (declared range mem).2
    have bound := b.freeOne metadata strategy mem z declared within below first.2
    obtain ⟨-, stays⟩ := b.linked.stays_freeOne metadata strategy z isRange within first.2
    have keeps := Keeps.freeOne metadata strategy isRange first.1 first.2
    obtain ⟨zone', level', reshaped, -, larger⟩ := z.freeOne metadata strategy isRange within first.2
    have reached := (b.isScope scope mem).reached
    refine ih bound reshaped.inOrder (fun range used => ?_) fun site later => ?_
    · obtain ⟨is, isRange⟩ := declared range used
      exact ⟨(keeps.declared (b.linked.has_of_below reached) (has_of_isRange isRange) isRange).mpr is,
        keeps.stamp.isRange_mono isRange⟩
    · obtain ⟨within, below⟩ := inside site (by simp [later])
      exact ⟨larger within,
        stays.inside b.linked bound.linked (b.isScope scope mem) (z.has within) below⟩

/-- Freeing the aggregates of a scope of their conditions keeps the bindings. -/
theorem Bound.freeAggregates (b : Bound g root scopes) (mem : scope ∈ scopes) :
    Bound (g.freeAggregates metadata strategy scope).1 root scopes := by
  unfold Graph.freeAggregates
  dsimp only
  split
  · exact b.freeAggregatesOfOne mem
  · refine b.freeAggregate metadata strategy mem b.linked.zone (fun range among =>
      ⟨(isIncluded_of_mem among).1, g.isRange_includedRanges scope range among⟩) fun site listed => ?_
    have below := below_of_mem_aggregateSites (List.mem_reverse.mp listed)
    exact ⟨(b.isScope scope mem).reached.trans below, fun _ => below⟩

end

end Graph

end RangeQuery
