import RangeQuery.Proofs.Scope.Reshaping
import RangeQuery.Scope.AggregateCondition

/-!
Freeing aggregates of their conditions inside their scope. A condition moves into a choice inside
the aggregate or into the filter of the scope; both only put nodes of the query elsewhere in the
same scope.
-/

namespace RangeQuery

/-- An aggregate with a condition. -/
def Node.isConditional : Node → Bool
  | .aggregate a => a.condition.isSome
  | _ => false

namespace Graph

variable {g : Graph}

/-- The graph with the choice that the condition of an aggregate is folded into. -/
def withChoice (g : Graph) (id operand condition : NodeId) : Graph :=
  let released := g.setCondition id none
  ((released.add .null).1.add
    (.caseWhen { condition, result := operand, otherwise := some released.next })).1

/-- The graph after folding the condition of an aggregate. -/
def folded (g : Graph) (id operand condition : NodeId) : Graph :=
  ((g.withChoice id operand condition).replaceChild id operand
    ((g.setCondition id none).add .null).1.next).1

theorem fst_foldCondition {id operand condition : NodeId} {function : AggregateFn}
    (node : g.node id = .aggregate { function, operand, condition := some condition }) :
    (g.foldCondition id).1 = g.folded id operand condition := by
  simp only [foldCondition, node]
  rfl

/-- Every other node has no condition to fold. -/
theorem foldCondition_eq_self {id : NodeId}
    (none : ∀ a, g.node id = .aggregate a → a.condition = none) : g.foldCondition id = (g, false) := by
  cases node : g.node id with
  | aggregate a =>
    obtain ⟨function, operand, condition⟩ := a
    obtain rfl : condition = .none := none _ node
    simp only [foldCondition, node]
  | _ => simp only [foldCondition, node]

theorem soleConditional?_eq_some {r : Retrieve} {aggregate condition : NodeId}
    (h : g.soleConditional? r = some (aggregate, condition)) :
    ∃ value a, r.values = [value] ∧ r.condition = none ∧ aggregate = g.valueExpression value ∧
      g.node aggregate = .aggregate a ∧ a.condition = some condition ∧ a.function ≠ .any := by
  obtain ⟨ranges, values, filter, sort, window, unique, templates, directives⟩ := r
  unfold soleConditional? at h
  split at h
  · next value values filter =>
    dsimp only at values filter h
    split at h
    · next a found =>
      split at h
      · cases h
      · next function =>
        obtain ⟨c, held, same⟩ := Option.map_eq_some_iff.mp h
        cases same
        exact ⟨value, a, values, filter, rfl, node_of_aggregate? found, held, function⟩
    · cases h
  · cases h

theorem conditionalAggregates_eq (g : Graph) (root : NodeId) :
    g.conditionalAggregates root =
      (g.preorder (fun id => !(g.node id).isSubquery) g.size root).filter fun id =>
        (g.node id).isConditional := by
  refine walk_list _ _ (fun out id => ?_) root
  cases node : g.node id with
  | aggregate a => cases held : a.condition <;> simp [Node.isSubquery, Node.isConditional, held]
  | _ => simp [Node.isSubquery, Node.isConditional]

theorem below_of_mem_conditionalAggregates {start id : NodeId}
    (found : id ∈ g.conditionalAggregates start) : g.Below start id := by
  rw [conditionalAggregates_eq] at found
  obtain ⟨trail, way, -, -⟩ := mem_preorder.mp (List.mem_filter.mp found).1
  exact ⟨trail, way⟩

end Graph

open RangeQuery.Graph

theorem Calm.promoteCondition {α : Type} {view : Node → α} (calm : Calm view) (g : Graph)
    (scope : NodeId) : Same view g (g.promoteCondition scope).1 := by
  unfold Graph.promoteCondition
  split
  · exact (calm.setCondition g _ _).trans (calm.setCondition _ _ _)
  · exact .refl view g

namespace Placed

variable {α : Type} {view : Node → α} (placed : Placed view)

include placed

theorem foldCondition (g : Graph) (id : NodeId) : Same view g (g.foldCondition id).1 := by
  by_cases folds : ∀ a, g.node id = .aggregate a → a.condition = none
  · rw [foldCondition_eq_self folds]
    exact .refl view g
  · obtain ⟨⟨function, operand, condition⟩, node, some⟩ := not_forall₂.mp folds
    obtain ⟨condition, rfl⟩ := Option.ne_none_iff_exists'.mp some
    rw [fst_foldCondition node]
    exact (((placed.setCondition g id none).trans (.add view _ _)).trans (.add view _ _)).trans
      (placed.replaceChild _ _ _ _)

theorem foldConditionsUnder (g : Graph) (root : NodeId) :
    Same view g (g.foldConditionsUnder root).1 :=
  .changeEach (fun g id => placed.foldCondition g id) g _

theorem freeAggregatesOfOne (g : Graph) (scope : NodeId) :
    Same view g (g.freeAggregatesOfOne scope).1 :=
  (placed.promoteCondition g scope).trans
    (.changeEach (fun g id => placed.foldConditionsUnder g id) _ _)

end Placed

namespace Graph

variable {g : Graph} {roots zone : Set NodeId} {level : NodeId → List NodeId}

namespace Keeps

theorem foldCondition (g : Graph) (id : NodeId) : Keeps g (g.foldCondition id).1 := by
  by_cases folds : ∀ a, g.node id = .aggregate a → a.condition = none
  · rw [foldCondition_eq_self folds]
    exact .refl g
  · obtain ⟨⟨function, operand, condition⟩, node, some⟩ := not_forall₂.mp folds
    obtain ⟨condition, rfl⟩ := Option.ne_none_iff_exists'.mp some
    rw [fst_foldCondition node]
    have has := has_of_aggregate node
    have emptied : (g.setCondition id none).node id =
        .aggregate { function, operand, condition := none } :=
      node_setCondition_self has (by rw [node]; rfl)
    have has' : (g.setCondition id none).Has id := by rwa [Has, size_setCondition]
    have added : Keeps g (g.withChoice id operand condition) := of_rigid fun rigid =>
      ((rigid.setCondition g id none).trans (.add _ _ _)).trans (.add _ _ _)
    refine added.trans (replaceChild_of_aggregate (a := { function, operand, condition := none }) ?_)
    rw [withChoice, node_add (has_add has' _), node_add has', emptied]

theorem foldConditionsUnder (g : Graph) (root : NodeId) :
    Keeps g (g.foldConditionsUnder root).1 :=
  changeEach foldCondition g _

theorem promoteCondition (g : Graph) (scope : NodeId) : Keeps g (g.promoteCondition scope).1 := by
  unfold Graph.promoteCondition
  split
  · exact of_rigid fun rigid => (rigid.setCondition g _ _).trans (rigid.setCondition _ _ _)
  · exact .refl g

theorem freeAggregatesOfOne (g : Graph) (scope : NodeId) :
    Keeps g (g.freeAggregatesOfOne scope).1 :=
  (promoteCondition g scope).trans (changeEach foldConditionsUnder _ _)

end Keeps

section

variable {id operand condition : NodeId} {function : AggregateFn}

/-- Once the condition of an aggregate is released and the link to its operand is loosened, both are
ready to be hung elsewhere on the level of the aggregate. -/
theorem Zone.releaseParts (z : g.Zone roots ∅ zone level) (mem : id ∈ zone)
    (node : g.node id = .aggregate { function, operand, condition := some condition }) :
    (g.setCondition id none).Zone roots {(id, operand)} zone (g.levelWith level (level id)) ∧
      ∀ part, part = condition ∨ part = operand →
        (g.setCondition id none).Ready roots {(id, operand)} zone (g.levelWith level (level id))
          (level id) part := by
  have slots : g.children id = [operand, condition] := by rw [children, node]; rfl
  have slots' : (g.setCondition id none).children id = [operand] := by
    rw [children, node_setCondition_self (z.has mem) (by rw [node]; rfl)]
    rfl
  have distinct : operand ≠ condition := by
    have nodup := z.nodup mem
    rw [slots] at nodup
    simpa using nodup
  have released := (z.levelWith (level id)).setCondition none mem (by simp)
  refine ⟨released.looser (Set.empty_subset _), ?_⟩
  rintro part (rfl | rfl)
  · have slot : part ∈ g.children id := by simp [slots]
    have hangs := z.link mem slot (Set.notMem_empty _)
    refine ⟨hangs.mem, ?_, z.not_mem_roots mem slot (Set.notMem_empty _), ?_⟩
    · refine (z.free_of_released mem slot (Set.notMem_empty _)
        (fun other _ ne => children_setCondition_of_ne g ne none) ?_).mono subset_rfl
          (Set.empty_subset _)
      rw [slots']
      simpa using Ne.symm distinct
    · rw [levelWith_of_has (z.has hangs.mem), hangs.level, enter, enter,
        (Node.formal_opensScope.toRigid.setCondition g _ _).node (z.has hangs.mem)]
  · have ready : (g.setCondition id none).Ready roots {(id, part)} zone _
        (g.levelWith level (level id) id) part :=
      released.ready_of_loose mem (by simp [slots']) (Set.notMem_empty _) (by simp)
    rwa [levelWith_of_has (z.has mem)] at ready

theorem le_size_withNull (g : Graph) (id : NodeId) :
    g.size ≤ ((g.setCondition id none).add .null).1.size := by
  rw [size_add, size_setCondition]
  exact Nat.le_succ _

/-- A NULL and the choice are added on the level of the aggregate; the choice is ready to take the place
of the operand. -/
theorem Zone.growByChoice (z : g.Zone roots ∅ zone level) (mem : id ∈ zone)
    (node : g.node id = .aggregate { function, operand, condition := some condition }) :
    let choice := ((g.setCondition id none).add .null).1.next
    let zone' := insert choice (insert (g.setCondition id none).next zone)
    (g.withChoice id operand condition).Zone roots {(id, operand)} zone'
        (g.levelWith level (level id)) ∧
      (g.withChoice id operand condition).Ready roots {(id, operand)} zone'
        (g.levelWith level (level id)) (level id) choice := by
  obtain ⟨released, parts⟩ := z.releaseParts mem node
  have size : g.size ≤ (g.setCondition id none).size := Nat.le_of_eq (size_setCondition g id none).symm
  have onFresh : ∀ {h : Graph}, g.size ≤ h.size →
      g.levelWith level (level id) h.next = level id := fun size =>
    levelWith_of_not_has (not_has_next_of_le size) _
  have old : ∀ {other}, other = condition ∨ other = operand → other ≠ (g.setCondition id none).next :=
    fun part same => not_has_next_of_le size (same ▸ z.has (parts _ part).mem)
  have withNull := released.add .null (by simp [Node.children]) (by simp [Node.children])
  have slots : ∀ child ∈ (Node.caseWhen { condition, result := operand
                                          otherwise := some (g.setCondition id none).next }).children,
      ((g.setCondition id none).add .null).1.Ready roots {(id, operand)}
        (insert (g.setCondition id none).next zone) (g.levelWith level (level id)) (level id)
          child := by
    intro child slot
    simp only [Node.children, Option.toList, List.mem_cons, List.not_mem_nil, or_false] at slot
    rcases slot with rfl | rfl | rfl
    · exact released.ready_add .null (parts _ (.inl rfl)) (by simp [Node.children])
    · exact released.ready_add .null (parts _ (.inr rfl)) (by simp [Node.children])
    · exact released.ready_next .null (level id) (by simp [Node.children])
        (onFresh size)
  have distinct : condition ≠ operand := by
    have nodup := z.nodup mem
    rw [children, node] at nodup
    simpa [Node.children, eq_comm] using nodup
  have on := onFresh (le_size_withNull g id)
  refine ⟨withNull.add _ (by rw [on]; exact slots) ?_,
    withNull.ready_next _ (level id) (fun child slot => (slots child slot).mem) on⟩
  simp [Node.children, distinct, old]

/-- Folding the condition of an aggregate enlarges a zone. -/
theorem Zone.folded (z : g.Zone roots ∅ zone level) (mem : id ∈ zone)
    (node : g.node id = .aggregate { function, operand, condition := some condition }) :
    Enlarges g (g.folded id operand condition) roots zone level := by
  obtain ⟨chosen, ready⟩ := z.growByChoice mem node
  have new : ¬ g.Has (g.setCondition id none).next :=
    not_has_next_of_le (Nat.le_of_eq (size_setCondition g id none).symm)
  have new' : ¬ g.Has ((g.setCondition id none).add .null).1.next :=
    not_has_next_of_le (le_size_withNull g id)
  have has : (g.setCondition id none).Has id := by
    rw [Has, size_setCondition]
    exact z.has mem
  have slots : (g.withChoice id operand condition).children id = [operand] := by
    rw [children, withChoice, node_add (has_add has _), node_add has,
      node_setCondition_self (z.has mem) (by rw [node]; rfl)]
    rfl
  have slot : operand ∈ (g.withChoice id operand condition).children id := by rw [slots]; simp
  have hadOperand : g.Has operand :=
    z.has (z.closed mem (by simp [children, node, Node.children]) (Set.notMem_empty _))
  have swapped := chosen.replaceChild ∅ (.inr (.inr mem)) slot
    (fun (same : operand = ((g.setCondition id none).add .null).1.next) => new' (same ▸ hadOperand))
    (by rw [slots]; simp +contextual) (by simp) (by rw [levelWith_of_has (z.has mem)]; exact ready)
  refine ⟨_, _, ⟨swapped, ?_⟩, ?_, fun _ within => .inr (.inr within)⟩
  · rintro other (rfl | rfl | within) had
    · exact absurd had new'
    · exact absurd had new
    · exact ⟨within, levelWith_of_has had _⟩
  · have stamp := Node.formal_stamp.toSlotless.replaceChild (g.withChoice id operand condition) id
      operand ((g.setCondition id none).add .null).1.next
    have glue : ∀ {other}, (g.withChoice id operand condition).Has other →
        ((g.withChoice id operand condition).node other).isGlue = true →
        ((g.folded id operand condition).node other).isGlue = true := by
      intro other had glue
      rw [← Node.isGlue_stamp] at glue ⊢
      exact (congrArg Node.isGlue (stamp.node had)).trans glue
    rintro other (rfl | rfl | within) fresh
    · exact glue (has_add_next ..) (by rw [withChoice, node_add_next]; rfl)
    · exact glue (has_add (has_add_next ..) _) (by
        rw [withChoice, node_add (has_add_next ..), node_add_next]
        rfl)
    · exact absurd (z.has within) fresh

end

theorem Zone.foldCondition (z : g.Zone roots ∅ zone level) {id : NodeId} (mem : id ∈ zone) :
    Enlarges g (g.foldCondition id).1 roots zone level := by
  by_cases folds : ∀ a, g.node id = .aggregate a → a.condition = none
  · rw [foldCondition_eq_self folds]
    exact .refl z
  · obtain ⟨⟨function, operand, condition⟩, node, some⟩ := not_forall₂.mp folds
    obtain ⟨condition, rfl⟩ := Option.ne_none_iff_exists'.mp some
    rw [fst_foldCondition node]
    exact z.folded mem node

/-- What a value of a scope computes lies within the scopes around that scope. -/
theorem Zone.level_valueExpression (z : g.Zone roots ∅ zone level) {scope value : NodeId}
    (mem : scope ∈ zone) (slot : value ∈ g.children scope) :
    g.valueExpression value ∈ zone ∧
      level (g.valueExpression value) = g.enter (g.valueExpression value) (level scope) := by
  have ofValue := z.link mem slot (Set.notMem_empty _)
  cases node : g.node value with
  | projection p =>
    have slot : p.expression ∈ g.children value := by simp [children, node, Node.children]
    have inner := z.link ofValue.mem slot (Set.notMem_empty _)
    simp only [valueExpression, node]
    refine ⟨inner.mem, ?_⟩
    rw [inner.level, ofValue.level, enter_of_false (show (g.node value).opensScope = false by rw [node]; rfl)]
  | _ =>
    simp only [valueExpression, node]
    exact ⟨ofValue.mem, ofValue.level⟩

/-- Promoting the condition of the only value enlarges a zone. -/
theorem Zone.promoteCondition (z : g.Zone roots ∅ zone level) {scope : NodeId}
    (mem : scope ∈ zone) : Enlarges g (g.promoteCondition scope).1 roots zone level := by
  unfold Graph.promoteCondition
  cases found : g.soleConditional? (g.scope scope) with
  | none => exact .refl z
  | some pair =>
    obtain ⟨aggregate, condition⟩ := pair
    obtain ⟨value, a, values, -, rfl, node, held, -⟩ := soleConditional?_eq_some found
    have slot : value ∈ g.children scope := by
      cases kind : g.node scope <;>
        simp_all [Graph.scope, Retrieve.empty, children, Node.children]
    obtain ⟨inside, on⟩ := z.level_valueExpression mem slot
    have plain : level (g.valueExpression value) = level scope := by
      rw [on, enter_of_false (by rw [node]; rfl)]
    have slot' : condition ∈ g.children (g.valueExpression value) := by
      simp [children, node, Node.children, held]
    have hangs := z.link inside slot' (Set.notMem_empty _)
    have distinct := z.nodup inside
    rw [children, node, Node.children, held] at distinct
    have z' := z.setCondition none inside (by simp)
    refine z.enlarges (z'.setCondition _ mem fun child is => ?_)
    obtain rfl : condition = child := Option.some.inj is
    refine ⟨hangs.mem, ?_, z.not_mem_roots inside
      (by simp [children, node, Node.children, held]) (Set.notMem_empty _), ?_⟩
    · refine z.free_of_released inside (by simp [children, node, Node.children, held])
        (Set.notMem_empty _) (fun other _ ne => children_setCondition_of_ne g ne none) ?_
      rw [children, node_setCondition_self (z.has inside) (by rw [node]; rfl)]
      simpa [Node.children, eq_comm] using distinct
    · rw [hangs.level, plain, enter, enter,
        (Node.formal_opensScope.toRigid.setCondition g _ _).node (z.has hangs.mem)]

theorem Zone.foldConditionsUnder (z : g.Zone roots ∅ zone level) {start : NodeId}
    (mem : start ∈ zone) : Enlarges g (g.foldConditionsUnder start).1 roots zone level :=
  z.changeEach (fun g id => Node.formal_stamp.toSlotless.foldCondition g id)
    (fun z mem => z.foldCondition mem) fun _ found =>
      z.mem_of_below mem (below_of_mem_conditionalAggregates (List.mem_reverse.mp found))

theorem Zone.freeAggregatesOfOne (z : g.Zone roots ∅ zone level) {scope : NodeId}
    (mem : scope ∈ zone) : Enlarges g (g.freeAggregatesOfOne scope).1 roots zone level := by
  have promoted := z.promoteCondition mem
  refine promoted.trans (Node.formal_stamp.toSlotless.promoteCondition g scope).size
    (.changeEach (fun g id => Node.formal_stamp.toSlotless.foldConditionsUnder g id) _ _) ?_
  intro zone' level' z' larger
  refine z'.changeEach (fun g id => Node.formal_stamp.toSlotless.foldConditionsUnder g id)
    (fun z mem => z.foldConditionsUnder mem) fun _ output => larger ?_
  refine z.closed mem ?_ (Set.notMem_empty _)
  cases node : g.node scope with
  | retrieve r =>
    simp only [Graph.scope, node, Retrieve.outputs, List.mem_append] at output
    simp only [children, node, Node.children, List.mem_append]
    tauto
  | _ => simp [Graph.scope, node, Retrieve.outputs, Retrieve.empty] at output

end Graph

end RangeQuery
