import Mathlib.Data.List.Forall2
import RangeQuery.Proofs.Scope.Binding

/-!
Aggregates that a scope computes under a condition. Freeing one of them of its condition, or putting a
subquery in its place, takes it out of what the values and sort keys of a scope reach outside
subqueries, and puts no other one in. So none is left when each had its turn.
-/

namespace RangeQuery

/-- The expressions that a scope computes for each row. -/
def Node.outputs : Node → List NodeId
  | .retrieve r => r.outputs
  | _ => []

theorem Node.isSubquery_withChildren (node : Node) (handles : List NodeId) :
    (node.withChildren handles).isSubquery = node.isSubquery := by
  cases node <;> rfl

theorem Node.isConditional_withChildren (node : Node) (handles : List NodeId) :
    (node.withChildren handles).isConditional = node.isConditional := by
  cases node with
  | aggregate a => cases condition : a.condition <;> simp [withChildren, isConditional, condition]
  | _ => rfl

theorem Node.isConditional_of_isSubquery {node : Node} (subquery : node.isSubquery = true) :
    node.isConditional = false := by
  cases node <;> simp_all [isSubquery, isConditional]

/-- Whether an aggregate has a condition can be told by what it owns. -/
theorem Node.isConditional_congr {node other : Node} (kind : other.stamp = node.stamp)
    (slots : other.children = node.children) : other.isConditional = node.isConditional := by
  cases node with
  | aggregate a =>
    cases other with
    | aggregate b =>
      obtain ⟨_, _, condition⟩ := a
      obtain ⟨_, _, condition'⟩ := b
      cases condition <;> cases condition' <;> simp_all [children, isConditional]
    | _ => cases kind
  | _ => cases other <;> simp_all [stamp, label, isConditional]

theorem Node.outputs_subset_children (node : Node) : node.outputs ⊆ node.children := by
  intro id mem
  cases node with
  | retrieve r =>
    simp only [outputs, Retrieve.outputs, children, List.mem_append] at mem ⊢
    tauto
  | _ => cases mem

/-! ## Swapped outputs -/

theorem forall₂_replace (ids : List NodeId) (old new : NodeId) :
    List.Forall₂ (fun before after => after = before ∨ after = new) ids (ids.replace old new) := by
  induction ids with
  | nil => exact .nil
  | cons first rest ih =>
    rw [List.replace_cons]
    split
    · exact .cons (.inr rfl) (List.forall₂_same.mpr fun _ _ => .inl rfl)
    · exact .cons (.inl rfl) ih

theorem mem_of_forall₂_swap {ids changed : List NodeId} {new id : NodeId}
    (swap : List.Forall₂ (fun before after => after = before ∨ after = new) ids changed)
    (mem : id ∈ changed) : id = new ∨ id ∈ ids := by
  induction swap with
  | nil => cases mem
  | cons first _ ih =>
    rcases List.mem_cons.mp mem with rfl | later
    · exact first.elim (fun same => .inr (by simp [same])) .inl
    · exact (ih later).imp_right (List.mem_cons_of_mem _)

/-- What a list without repetition holds after a swap it held before, the new member apart. -/
theorem mem_replace_of_nodup {ids : List NodeId} (nodup : ids.Nodup) {old new id : NodeId}
    (mem : id ∈ ids.replace old new) : id = new ∨ id ∈ ids ∧ id ≠ old := by
  by_cases held : old ∈ ids
  · obtain ⟨front, back, before, after⟩ := replace_eq_append new held
    rw [after] at mem
    rw [before] at nodup ⊢
    simp only [Option.toList_some, List.append_assoc, List.singleton_append, List.mem_append,
      List.mem_cons] at mem ⊢
    rcases mem with front | rfl | back
    · refine .inr ⟨.inl front, ?_⟩
      rintro rfl
      exact List.disjoint_of_nodup_append nodup.of_append_left front (by simp)
    · exact .inl rfl
    · refine .inr ⟨.inr (.inr back), ?_⟩
      rintro rfl
      exact List.disjoint_of_nodup_append nodup (by simp) back
  · rw [List.replace_of_not_mem held] at mem
    exact .inr ⟨mem, fun same => held (same ▸ mem)⟩

/-- What a node computes after a swap of its children it computed before, the new child apart. -/
theorem Node.mem_outputs_replace {node : Node} {old new id : NodeId}
    (mem : id ∈ (node.withChildren (node.children.replace old new)).outputs) :
    id = new ∨ id ∈ node.outputs := by
  cases node with
  | retrieve r =>
    have swap := forall₂_replace (Node.retrieve r).children old new
    have length := swap.length_eq
    have behind := List.forall₂_drop r.ranges.length swap
    simp only [children, List.length_append, List.length_map] at length
    simp only [withChildren, Retrieve.withChildren, outputs, Retrieve.outputs, List.mem_append] at mem
    rw [map_expression_zipWith (by simp only [children, List.length_drop, ← length]; omega)] at mem
    rcases mem with mem | mem
    · have values := List.forall₂_take r.values.length behind
      refine (mem_of_forall₂_swap values mem).imp_right fun held => ?_
      simp only [children, List.append_assoc, List.drop_left, List.take_left] at held
      exact List.mem_append_left _ held
    · have keys := List.forall₂_drop r.condition.toList.length
        (List.forall₂_drop r.values.length behind)
      refine (mem_of_forall₂_swap keys mem).imp_right fun held => ?_
      simp only [children, List.append_assoc, List.drop_left] at held
      exact List.mem_append_right _ held
  | _ => cases mem

namespace Graph

variable {g h : Graph} {root top id : NodeId}

/-! ## Outside subqueries -/

/-- A node is reached from another one without entering a subquery. -/
def Outside (g : Graph) (top id : NodeId) : Prop :=
  ∃ trail, g.Trail top trail id ∧ ∀ owner ∈ trail, (g.node owner).isSubquery = false

theorem Outside.refl (g : Graph) (top : NodeId) : g.Outside top top := ⟨[], .here, by simp⟩

theorem Outside.child {owner child : NodeId} (reached : g.Outside top owner)
    (enters : (g.node owner).isSubquery = false) (slot : child ∈ g.children owner) :
    g.Outside top child := by
  obtain ⟨trail, way, outside⟩ := reached
  exact ⟨owner :: trail, way.down slot, by simpa [enters] using outside⟩

theorem Outside.below (reached : g.Outside top id) : g.Below top id := by
  obtain ⟨trail, way, -⟩ := reached
  exact ⟨trail, way⟩

@[elab_as_elim]
theorem Outside.induction {motive : NodeId → Prop} (reached : g.Outside top id) (here : motive top)
    (down : ∀ owner child, motive owner → (g.node owner).isSubquery = false →
      child ∈ g.children owner → motive child) : motive id := by
  obtain ⟨trail, way, outside⟩ := reached
  induction way with
  | here => exact here
  | @down trail owner child _ slot ih =>
    simp only [List.mem_cons, forall_eq_or_imp] at outside
    exact down owner child (ih outside.2) outside.1 slot

/-- An aggregate with a condition is reached outside subqueries. -/
def ConditionalIn (g : Graph) (top id : NodeId) : Prop :=
  g.Outside top id ∧ (g.node id).isConditional = true

/-- The search for aggregates with a condition finds those outside subqueries. -/
theorem Linked.mem_conditionalAggregates (l : g.Linked root) (above : g.Below root top) :
    id ∈ g.conditionalAggregates top ↔ g.ConditionalIn top id := by
  rw [conditionalAggregates_eq, List.mem_filter, l.mem_preorder above, ConditionalIn, Outside]
  simp only [Bool.not_eq_true']

/-- Where nothing gets more children, and no aggregate a condition, there is nothing new. -/
theorem ConditionalIn.mono (less : ∀ owner, g.Below top owner →
      (h.node owner).isSubquery = (g.node owner).isSubquery ∧ h.children owner ⊆ g.children owner ∧
        ((h.node owner).isConditional = true → (g.node owner).isConditional = true))
    (held : h.ConditionalIn top id) : g.ConditionalIn top id := by
  have before : g.Outside top id := by
    refine held.1.induction (.refl g top) fun owner child before enters slot => ?_
    obtain ⟨kind, slots, -⟩ := less owner before.below
    exact before.child (kind ▸ enters) (slots slot)
  exact ⟨before, (less id before.below).2.2 held.2⟩

/-! ## Folded conditions -/

section

variable {changed operand condition : NodeId} {function : AggregateFn}
  (node : g.node changed = .aggregate { function, operand, condition := some condition })

theorem has_withChoice (has : g.Has id) : (g.withChoice changed operand condition).Has id :=
  has_add (has_add (by rwa [Has, size_setCondition]) _) _

theorem node_folded_of_ne (has : g.Has id) (ne : id ≠ changed) :
    (g.folded changed operand condition).node id = g.node id := by
  have has' : (g.setCondition changed none).Has id := by rwa [Has, size_setCondition]
  rw [folded, node_replaceChild (has_withChoice has), if_neg ne, withChoice,
    node_add (has_add has' _), node_add has', node_setCondition_of_ne g ne]

include node

theorem node_folded_self : (g.folded changed operand condition).node changed =
    .aggregate { function, operand := ((g.setCondition changed none).add .null).1.next
                 condition := none } := by
  have has := has_of_aggregate node
  have has' : (g.setCondition changed none).Has changed := by rwa [Has, size_setCondition]
  have emptied : (g.setCondition changed none).node changed =
      .aggregate { function, operand, condition := none } :=
    node_setCondition_self has (by rw [node]; rfl)
  rw [folded, node_replaceChild (has_withChoice has), if_pos rfl, withChoice,
    node_add (has_add has' _), node_add has', emptied]
  simp [Node.withChildren, Node.children]

theorem node_folded_choice :
    (g.folded changed operand condition).node ((g.setCondition changed none).add .null).1.next =
      .caseWhen { condition, result := operand
                  otherwise := some (g.setCondition changed none).next } := by
  have has := has_of_aggregate node
  have has' : (g.setCondition changed none).Has changed := by rwa [Has, size_setCondition]
  have added : (g.withChoice changed operand condition).Has
      ((g.setCondition changed none).add .null).1.next := has_add_next ..
  rw [folded, node_replaceChild added, if_neg (ne_next_of_has (has_add has' _)).symm, withChoice,
    node_add_next]

theorem node_folded_null :
    (g.folded changed operand condition).node (g.setCondition changed none).next = .null := by
  have has := has_of_aggregate node
  have has' : (g.setCondition changed none).Has changed := by rwa [Has, size_setCondition]
  have added : (g.withChoice changed operand condition).Has (g.setCondition changed none).next :=
    has_add (has_add_next ..) _
  rw [folded, node_replaceChild added, if_neg (ne_next_of_has has').symm, withChoice,
    node_add (has_add_next ..), node_add_next]

/-- What is reached after a condition was folded was reached before, or belongs to the choice. -/
theorem Outside.of_folded (grounded : g.Grounded top)
    (reached : (g.folded changed operand condition).Outside top id) :
    g.Outside top id ∨ g.Outside top changed ∧
      (id = ((g.setCondition changed none).add .null).1.next ∨
        id = (g.setCondition changed none).next) := by
  have slots : g.children changed = [operand, condition] := by rw [children, node]; rfl
  have open' : (g.node changed).isSubquery = false := by rw [node]; rfl
  refine reached.induction (.inl (.refl g top)) fun owner child ih enters slot => ?_
  rcases ih with before | ⟨within, rfl | rfl⟩
  · by_cases same : owner = changed
    · subst same
      rw [children, node_folded_self node, Node.children] at slot
      exact .inr ⟨before, .inl (by simpa using slot)⟩
    · have kept : (g.folded changed operand condition).node owner = g.node owner :=
        node_folded_of_ne (grounded _ before.below) same
      rw [kept] at enters
      rw [children, kept] at slot
      exact .inl (before.child enters slot)
  · rw [children, node_folded_choice node, Node.children] at slot
    simp only [Option.toList_some, List.mem_cons, List.not_mem_nil, or_false] at slot
    rcases slot with rfl | rfl | rfl
    · exact .inl (within.child open' (by simp [slots]))
    · exact .inl (within.child open' (by simp [slots]))
    · exact .inr ⟨within, .inr rfl⟩
  · rw [children, node_folded_null node, Node.children] at slot
    cases slot

end

/-- Folding the condition of an aggregate takes it out of what has one, and puts nothing in. -/
theorem ConditionalIn.of_foldCondition (grounded : g.Grounded top) {changed : NodeId}
    (held : (g.foldCondition changed).1.ConditionalIn top id) :
    g.ConditionalIn top id ∧ id ≠ changed := by
  by_cases folds : ∀ a, g.node changed = .aggregate a → a.condition = none
  · rw [foldCondition_eq_self folds] at held
    refine ⟨held, ?_⟩
    rintro rfl
    have conditional := held.2
    cases node : g.node id with
    | aggregate a => simp [node, Node.isConditional, folds a node] at conditional
    | _ => simp [node, Node.isConditional] at conditional
  · obtain ⟨⟨function, operand, condition⟩, node, some⟩ := not_forall₂.mp folds
    obtain ⟨condition, rfl⟩ := Option.ne_none_iff_exists'.mp some
    rw [fst_foldCondition node] at held
    obtain ⟨reached, conditional⟩ := held
    rcases reached.of_folded node grounded with before | ⟨-, rfl | rfl⟩
    · by_cases same : id = changed
      · subst same
        rw [node_folded_self node] at conditional
        cases conditional
      · rw [node_folded_of_ne (grounded _ before.below) same] at conditional
        exact ⟨⟨before, conditional⟩, same⟩
    · rw [node_folded_choice node] at conditional
      cases conditional
    · rw [node_folded_null node] at conditional
      cases conditional

/-- A view that does not look into aggregates does not see a condition folded. -/
theorem Same.foldCondition {α : Type} {view : Node → α}
    (blind : ∀ a a', view (.aggregate a) = view (.aggregate a')) (g : Graph) (id : NodeId) :
    Same view g (g.foldCondition id).1 := by
  by_cases folds : ∀ a, g.node id = .aggregate a → a.condition = none
  · rw [foldCondition_eq_self folds]
    exact .refl view g
  · obtain ⟨⟨function, operand, condition⟩, node, some⟩ := not_forall₂.mp folds
    obtain ⟨condition, rfl⟩ := Option.ne_none_iff_exists'.mp some
    refine ⟨(Node.formal_stamp.toPlaced.foldCondition g id).size, fun {other} has => ?_⟩
    rw [fst_foldCondition node]
    by_cases same : other = id
    · rw [same, node_folded_self node, node]
      exact blind _ _
    · rw [node_folded_of_ne has same]

/-- Folding a condition leaves every scope as it is. -/
theorem node_foldCondition_of_isRetrieve {changed : NodeId}
    (isRetrieve : (g.node id).isRetrieve = true) :
    (g.foldCondition changed).1.node id = g.node id := by
  by_cases folds : ∀ a, g.node changed = .aggregate a → a.condition = none
  · rw [foldCondition_eq_self folds]
  · obtain ⟨⟨function, operand, condition⟩, node, some⟩ := not_forall₂.mp folds
    obtain ⟨condition, rfl⟩ := Option.ne_none_iff_exists'.mp some
    rw [fst_foldCondition node]
    refine node_folded_of_ne (has_of_isRetrieve isRetrieve) ?_
    · rintro rfl
      rw [node] at isRetrieve
      cases isRetrieve

/-! ## Subqueries in the place of aggregates -/

/-- Nothing is reached from a subquery without entering it. -/
theorem Outside.eq_of_isSubquery (reached : g.Outside top id)
    (subquery : (g.node top).isSubquery = true) : id = top := by
  refine reached.induction (motive := fun id => id = top) rfl fun owner child same enters _ => ?_
  rw [same, subquery] at enters
  cases enters

/-- A swap leaves a subquery one. -/
theorem isSubquery_replace {old new : NodeId} (subquery : (g.node id).isSubquery = true) :
    ((g.replace old new).1.node id).isSubquery = true :=
  (Node.formal_stamp.toSeated.replace g old new).isSubquery subquery

section

variable {changed new : NodeId} (l : g.Linked root) (e : Extends g h)

include l e

/-- After a swap for a new node, what a reached node owns it owned before, and the node that was
swapped out is not among it. -/
theorem mem_children_swapped (above : g.Below root top)
    (slot : id ∈ (h.replace changed new).1.children top) :
    id = new ∨ id ∈ g.children top ∧ id ≠ changed := by
  have has := l.has_of_below above
  have slots := e.children has
  have recorded : ∀ {child}, child ∈ g.children top → h.parent child = some top := fun mem =>
    (e.parent (l.has_of_below (above.child mem))).trans (l.parent_child above mem)
  unfold replace at slot
  cases owner : h.parent changed with
  | none =>
    simp only [owner] at slot
    rw [slots] at slot
    refine .inr ⟨slot, ?_⟩
    rintro rfl
    rw [recorded slot] at owner
    cases owner
  | some owner =>
    simp only [owner] at slot
    rw [children, node_replaceChild (e.has has)] at slot
    split at slot
    · have swap := forall₂_replace (h.node top).children changed new
      rw [Node.children_withChildren _ swap.length_eq.symm, ← children, slots] at slot
      exact mem_replace_of_nodup (l.nodup above) slot
    · next other =>
      rw [← children, slots] at slot
      refine .inr ⟨slot, ?_⟩
      rintro rfl
      rw [recorded slot] at owner
      exact other (Option.some.inj owner)

variable (subquery : (h.node new).isSubquery = true)

include subquery

/-- What is reached outside subqueries after a subquery was swapped in was reached before, but for
the subquery itself. -/
theorem Outside.of_swapped (above : g.Below root top) (ne : top ≠ changed)
    (reached : (h.replace changed new).1.Outside top id) :
    id = new ∨ g.Outside top id ∧ id ≠ changed := by
  refine reached.induction (.inr ⟨.refl g top, ne⟩) fun owner child ih enters slot => ?_
  rcases ih with rfl | ⟨before, -⟩
  · rw [isSubquery_replace subquery] at enters
    cases enters
  · have above' := above.trans before.below
    refine (mem_children_swapped l e above' slot).imp_right fun held => ⟨?_, held.2⟩
    refine before.child ?_ held.1
    have has := l.has_of_below above'
    rcases node_replace_or (e.has has) changed new with same | same
    · rwa [same, e.node has] at enters
    · rwa [same, Node.isSubquery_withChildren, e.node has] at enters

/-- A subquery that is swapped in takes the swapped node out of what has a condition, and puts
nothing in. -/
theorem ConditionalIn.of_swapped {scope : NodeId} (isScope : g.ScopeIn root scope)
    {output : NodeId} (mem : output ∈ ((h.replace changed new).1.node scope).outputs)
    (held : (h.replace changed new).1.ConditionalIn output id) :
    ∃ before ∈ (g.node scope).outputs, g.ConditionalIn before id ∧ id ≠ changed := by
  obtain ⟨reached, conditional⟩ := held
  have notNew : id ≠ new := by
    rintro rfl
    rw [Node.isConditional_of_isSubquery (isSubquery_replace subquery)] at conditional
    cases conditional
  rcases mem_children_swapped l e isScope.reached (Node.outputs_subset_children _ mem) with
    rfl | ⟨slot, ne⟩
  · exact absurd (reached.eq_of_isSubquery (isSubquery_replace subquery)) notNew
  · have has := l.has_of_below isScope.reached
    have mem' : output ∈ (g.node scope).outputs ∨ output = new := by
      rcases node_replace_or (e.has has) changed new with same | same
      · rw [same, e.node has] at mem
        exact .inl mem
      · rw [same, e.node has] at mem
        exact (Node.mem_outputs_replace mem).symm
    obtain ⟨before, other⟩ := (reached.of_swapped l e subquery (isScope.reached.child slot) ne).resolve_left
      notNew
    have has' := l.has_of_below ((isScope.reached.child slot).trans before.below)
    refine ⟨output, mem'.resolve_right ?_, ⟨before, ?_⟩, other⟩
    · rintro rfl
      exact notNew (reached.eq_of_isSubquery (isSubquery_replace subquery))
    · rcases node_replace_or (e.has has') changed new with same | same
      · rwa [same, e.node has'] at conditional
      · rwa [same, Node.isConditional_withChildren, e.node has'] at conditional

end

theorem ConditionalIn.of_replaceBySubquery (l : g.Linked root) (e : Extends g h)
    {kind : SubqueryKind} {expression : Option NodeId} {sub : CorrelatedScope}
    (parts : ∀ id ∈ sub.ranges ++ expression.toList ++ sub.condition.toList, ¬ g.Has id)
    {scope changed output : NodeId} (isScope : g.ScopeIn root scope)
    (mem : output ∈ ((h.replaceBySubquery changed kind expression sub).node scope).outputs)
    (held : (h.replaceBySubquery changed kind expression sub).ConditionalIn output id) :
    ∃ before ∈ (g.node scope).outputs, g.ConditionalIn before id ∧ id ≠ changed := by
  have added := e.add (.subquery
    { kind, ranges := sub.ranges, expression, condition := sub.condition }) parts
  have subquery : ((h.add (.subquery { kind, ranges := sub.ranges, expression
                                       condition := sub.condition })).1.node h.next).isSubquery =
      true := by
    rw [node_add_next]
    rfl
  exact held.of_swapped l added subquery isScope mem

/-! ## One aggregate after the other -/

section

variable {metadata : Metadata} {strategy : AggregateStrategy} {ranges : List NodeId}
  {scope changed : NodeId}

/-- What becomes of an aggregate that a subquery is wanted for takes it out of what has a condition,
if it is replaced, and puts nothing in. -/
theorem ConditionalIn.of_wrapped (l : g.Linked root) (isScope : g.ScopeIn root scope)
    {wrapped : Bool} (w : Wrapped g metadata ranges changed h wrapped) {output : NodeId}
    (mem : output ∈ (h.node scope).outputs) (held : h.ConditionalIn output id) :
    ∃ before ∈ (g.node scope).outputs, g.ConditionalIn before id ∧
      (wrapped = true → id ≠ changed) := by
  have has := l.has_of_below isScope.reached
  cases w with
  | left beside =>
    rw [beside.node has] at mem
    have above := isScope.reached.child (Node.outputs_subset_children _ mem)
    refine ⟨output, mem, held.mono fun owner below => ?_, by simp⟩
    have has' := l.has_of_below (above.trans below)
    rw [beside.node has', beside.children has']
    exact ⟨rfl, fun _ mem => mem, fun conditional => conditional⟩
  | tested kind _ _ c =>
    obtain ⟨before, among, held, other⟩ := held.of_replaceBySubquery l c.beside
      (fun id part => c.fresh (c.ready (by simpa using part)).mem) isScope mem
    exact ⟨before, among, held, fun _ => other⟩
  | valued _ _ v =>
    obtain ⟨level', -, fresh, ready, -⟩ := v.inOrder
    obtain ⟨before, among, held, other⟩ := held.of_replaceBySubquery l v.beside
      (fun id part => fresh id (ready id part).mem) isScope mem
    exact ⟨before, among, held, fun _ => other⟩

/-- What becomes of an aggregate of a scope takes it out of what has a condition. -/
theorem ConditionalIn.of_freeOne (l : g.Linked root) (isScope : g.ScopeIn root scope)
    (isRange : ∀ range ∈ ranges, (g.node range).isRange = true) (site : ExpressionSite)
    {output : NodeId}
    (mem : output ∈ ((g.freeOne metadata strategy ranges changed site).1.node scope).outputs)
    (held : (g.freeOne metadata strategy ranges changed site).1.ConditionalIn output id) :
    ∃ before ∈ (g.node scope).outputs, g.ConditionalIn before id ∧ id ≠ changed := by
  rcases freeOne_cases metadata strategy isRange changed site with wrapped | ⟨h, wrapped, same⟩
  · obtain ⟨before, among, held, other⟩ := held.of_wrapped l isScope wrapped mem
    exact ⟨before, among, held, other rfl⟩
  · rw [same] at mem held
    have keeps := Keeps.wrapped wrapped
    obtain ⟨zone, level, reshaped, -⟩ := l.zone.wrapped wrapped
    have l' := reshaped.inOrder.linked (Set.mem_singleton root)
    have isScope' := keeps.scopeIn l isScope
    rw [node_foldCondition_of_isRetrieve isScope'.isRetrieve] at mem
    have above := isScope'.reached.child (Node.outputs_subset_children _ mem)
    obtain ⟨held', other⟩ := held.of_foldCondition (l'.grounded above)
    obtain ⟨before, among, held, -⟩ := held'.of_wrapped l isScope wrapped mem
    exact ⟨before, among, held, other⟩

/-- What is left of the aggregates of a scope with a condition has none of those that had their
turn. -/
theorem ConditionalIn.of_freeAggregate {zone : Set NodeId} {level : NodeId → List NodeId}
    (z : g.Zone {root} ∅ zone level) (isScope : g.ScopeIn root scope)
    (isRange : ∀ range ∈ ranges, (g.node range).isRange = true)
    {sites : List (NodeId × ExpressionSite)} (within : ∀ site ∈ sites, site.1 ∈ zone)
    {output : NodeId}
    (mem : output ∈ ((freeAggregate metadata strategy ranges g sites).1.node scope).outputs)
    (held : (freeAggregate metadata strategy ranges g sites).1.ConditionalIn output id) :
    ∃ before ∈ (g.node scope).outputs, g.ConditionalIn before id ∧ ∀ site ∈ sites, id ≠ site.1 := by
  induction sites generalizing g zone level with
  | nil => exact ⟨output, mem, held, by simp⟩
  | cons first rest ih =>
    rw [freeAggregate_cons] at mem held
    have l := z.linked (Set.mem_singleton root)
    have keeps := Keeps.freeOne metadata strategy isRange first.1 first.2
    obtain ⟨zone', level', reshaped, -, larger⟩ :=
      z.freeOne metadata strategy isRange (within first (by simp)) first.2
    obtain ⟨before, among, held, others⟩ := ih reshaped.inOrder (keeps.scopeIn l isScope)
      (fun range used => keeps.stamp.isRange_mono (isRange range used))
      (fun site later => larger (within site (by simp [later]))) mem held
    obtain ⟨before, among, held, other⟩ := held.of_freeOne l isScope isRange first.2 among
    exact ⟨before, among, held, by simpa [other] using others⟩

end

/-! ## A scope over one range -/

theorem Zone.grounded {roots zone : Set NodeId} {level : NodeId → List NodeId}
    (z : g.Zone roots ∅ zone level) (mem : top ∈ zone) : g.Grounded top := fun _ below =>
  z.has (z.mem_of_below mem below)

theorem ConditionalIn.of_foldEach {roots zone : Set NodeId} {level : NodeId → List NodeId}
    (z : g.Zone roots ∅ zone level) {ids : List NodeId} (mem : ∀ id ∈ ids, id ∈ zone)
    (within : top ∈ zone) (held : (changeEach foldCondition g ids).1.ConditionalIn top id) :
    g.ConditionalIn top id ∧ id ∉ ids := by
  induction ids generalizing g zone level with
  | nil => exact ⟨held, by simp⟩
  | cons first rest ih =>
    obtain ⟨zone', level', reshaped, -, larger⟩ := z.foldCondition (mem first (by simp))
    obtain ⟨held, others⟩ := ih reshaped.inOrder
      (fun id later => larger (mem id (by simp [later]))) (larger within) held
    obtain ⟨held, other⟩ := held.of_foldCondition (z.grounded within)
    exact ⟨held, by simp [other, others]⟩

theorem node_changeEach {change : Graph → NodeId → Graph × Bool}
    (each : ∀ g changed, (g.node id).isRetrieve = true →
      (change g changed).1.node id = g.node id)
    (isRetrieve : (g.node id).isRetrieve = true) (ids : List NodeId) :
    (changeEach change g ids).1.node id = g.node id := by
  induction ids generalizing g with
  | nil => rfl
  | cons first rest ih =>
    have same := each g first isRetrieve
    exact (ih (same ▸ isRetrieve)).trans same

/-- Folding the conditions below a node leaves every scope as it is. -/
theorem node_foldConditionsUnder_of_isRetrieve (isRetrieve : (g.node id).isRetrieve = true)
    (start : NodeId) : (g.foldConditionsUnder start).1.node id = g.node id :=
  node_changeEach (fun _ _ => node_foldCondition_of_isRetrieve) isRetrieve _

/-- Folding the conditions below a node leaves none there. -/
theorem ConditionalIn.of_foldConditionsUnder (l : g.Linked root) {start : NodeId}
    (above : g.Below root start) (above' : g.Below root top)
    (held : (g.foldConditionsUnder start).1.ConditionalIn top id) :
    g.ConditionalIn top id ∧ ¬ g.ConditionalIn start id := by
  have listed : ∀ {id}, id ∈ (g.conditionalAggregates start).reverse ↔ g.ConditionalIn start id := by
    intro id
    rw [List.mem_reverse, l.mem_conditionalAggregates above]
  obtain ⟨held, other⟩ := held.of_foldEach l.zone
    (fun id mem => above.trans (listed.mp mem).1.below) above'
  exact ⟨held, fun had => other (listed.mpr had)⟩

/-- Folding the conditions below some outputs of a scope leaves none there. -/
theorem ConditionalIn.of_foldOutputs (l : g.Linked root) {scope other : NodeId}
    (isScope : g.ScopeIn root scope) (isScope' : g.ScopeIn root other) {outputs : List NodeId}
    (sub : outputs ⊆ (g.node scope).outputs) (mem : top ∈ (g.node other).outputs)
    (held : (changeEach foldConditionsUnder g outputs).1.ConditionalIn top id) :
    g.ConditionalIn top id ∧ top ∉ outputs := by
  induction outputs generalizing g with
  | nil => exact ⟨held, by simp⟩
  | cons first rest ih =>
    have reach : ∀ {scope output}, g.ScopeIn root scope → output ∈ (g.node scope).outputs →
        g.Below root output := fun isScope mem =>
      isScope.reached.child (Node.outputs_subset_children _ mem)
    have below := reach isScope (sub List.mem_cons_self)
    have same := node_foldConditionsUnder_of_isRetrieve isScope.isRetrieve first
    have same' := node_foldConditionsUnder_of_isRetrieve isScope'.isRetrieve first
    have keeps := Keeps.foldConditionsUnder g first
    obtain ⟨zone', level', reshaped, -⟩ := l.zone.foldConditionsUnder below
    obtain ⟨held, others⟩ := ih (reshaped.inOrder.linked (Set.mem_singleton root))
      (keeps.scopeIn l isScope) (keeps.scopeIn l isScope')
      (fun output later => by
        rw [same]
        exact sub (List.mem_cons_of_mem _ later))
      (by rwa [same']) held
    obtain ⟨held, none⟩ := held.of_foldConditionsUnder l below (reach isScope' mem)
    refine ⟨held, ?_⟩
    rw [List.mem_cons, not_or]
    exact ⟨fun is => none (is ▸ held), others⟩

end Graph

end RangeQuery
