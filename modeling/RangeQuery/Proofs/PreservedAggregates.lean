import RangeQuery.Proofs.FreedAggregates
import RangeQuery.Proofs.NullRejection
import RangeQuery.Proofs.Rows.Formulas
import RangeQuery.Proofs.Scope.AggregateAnswers

/-!
Freeing the aggregates of a scope over one range keeps what it retrieves. A condition that is folded
makes the operand NULL in the rows that it kept out, and no function counts NULL; a condition that is
promoted keeps these rows out of the scope, where nothing but the aggregate is computed from them.
-/

namespace RangeQuery

/-- A node, unless it is an aggregate. -/
def Node.unlessAggregate : Node → Option Node
  | .aggregate _ => none
  | node => some node

theorem Node.unlessAggregate_eq_none {node : Node} :
    node.unlessAggregate = none ↔ node.isAggregate = true := by
  cases node <;> simp [isAggregate, unlessAggregate]

theorem Node.eq_of_unlessAggregate {node other : Node}
    (same : other.unlessAggregate = node.unlessAggregate) (plain : node.isAggregate = false) :
    other = node := by
  have shown : node.unlessAggregate = some node := by cases node <;> first | rfl | cases plain
  rw [shown] at same
  cases other <;> simp_all [unlessAggregate]

namespace Graph

variable {α ρ : Type} {g h : Graph} {m : Meaning ρ α} {rows : List ρ} {scope id value : NodeId}
  {v : Value α}

/-! ## Folded conditions -/

theorem KeepsFormulas.of_same (same : Same Node.unlessAggregate g h) : KeepsFormulas g h where
  size := same.size
  node {id} has := by
    by_cases aggregate : (g.node id).isAggregate = true
    · refine .inr (.inl ⟨aggregate, Node.unlessAggregate_eq_none.mp ?_⟩)
      rw [same.node has, Node.unlessAggregate_eq_none.mpr aggregate]
    · exact .inl (Node.eq_of_unlessAggregate (same.node has) (Bool.eq_false_of_not_eq_true aggregate))

theorem keepsFormulas_foldCondition (g : Graph) (changed : NodeId) :
    KeepsFormulas g (g.foldCondition changed).1 :=
  .of_same (.foldCondition (fun _ _ => rfl) g changed)

/-- Folding a condition leaves a node that is not the aggregate with it. -/
theorem node_foldCondition {changed : NodeId} (has : g.Has id)
    (stays : id = changed → (g.node id).isConditional = false) :
    (g.foldCondition changed).1.node id = g.node id := by
  by_cases folds : ∀ a, g.node changed = .aggregate a → a.condition = none
  · rw [foldCondition_eq_self folds]
  · obtain ⟨⟨function, operand, condition⟩, node, some⟩ := not_forall₂.mp folds
    obtain ⟨condition, rfl⟩ := Option.ne_none_iff_exists'.mp some
    rw [fst_foldCondition node]
    refine node_folded_of_ne has ?_
    rintro rfl
    simp [node, Node.isConditional] at stays

/-- Where a condition was folded, the operand is chosen where it is true. -/
theorem rowFormula_choice {operand condition : NodeId} {function : AggregateFn}
    (node : g.node id = .aggregate { function, operand, condition := some condition })
    {f c : Formula} (ofOperand : g.RowFormula operand f) (ofCondition : g.RowFormula condition c) :
    (g.folded id operand condition).RowFormula ((g.setCondition id none).add .null).1.next
      (.choose c f .null) := by
  have keeps : KeepsFormulas g (g.folded id operand condition) := by
    rw [← fst_foldCondition node]
    exact g.keepsFormulas_foldCondition id
  obtain ⟨inner, plain⟩ := keeps.rowFormula ofOperand
  obtain ⟨inner', plain'⟩ := keeps.rowFormula ofCondition
  have added : (g.withChoice id operand condition).Has (g.setCondition id none).next :=
    has_add (has_add_next ..) _
  have has := (Node.formal_stamp.toSlotless.replaceChild (g.withChoice id operand condition) id
    operand ((g.setCondition id none).add .null).1.next).has added
  refine ⟨.chooseOr (node_folded_choice node) inner' inner (.null (node_folded_null node) has), ?_⟩
  intro part mem
  simp only [Formula.leaves, List.append_nil, List.mem_append] at mem
  exact mem.elim (plain' part) (plain part)

/-- A leaf has the value it had when a condition was folded. -/
theorem LeafValue.foldCondition (leaf : g.LeafValue m rows id v) (has : g.Has id) (changed : NodeId) :
    (g.foldCondition changed).1.LeafValue m rows id v := by
  have keeps := g.keepsFormulas_foldCondition changed
  cases leaf with
  | plain other => exact .plain ((keeps.kind has).2.1.trans other)
  | @aggregate a f c node function ofOperand ofCondition =>
    by_cases folds : id = changed ∧ (g.node id).isConditional = true
    · obtain ⟨rfl, some⟩ := folds
      obtain ⟨name, operand, slot⟩ := a
      cases ofCondition with
      | none => simp [node, Node.isConditional] at some
      | some ofCondition =>
        rw [fst_foldCondition node]
        rw [← m.totalOf_choose]
        exact .unconditional (node_folded_self node) function
          (rowFormula_choice node ofOperand ofCondition)
    · have same : (g.foldCondition changed).1.node id = g.node id :=
        node_foldCondition has fun same => Bool.eq_false_of_not_eq_true fun some => folds ⟨same, some⟩
      exact .aggregate (same.trans node) function (keeps.rowFormula ofOperand)
        (optionRel_map (fun _ _ => keeps.rowFormula) ofCondition)

/-- A value over some rows is the one it was when a condition was folded. -/
theorem ValueOver.foldCondition (value : g.ValueOver m rows id v) (changed : NodeId) :
    (g.foldCondition changed).1.ValueOver m rows id v :=
  (g.keepsFormulas_foldCondition changed).valueOver value fun _ _ has leaf =>
    leaf.foldCondition has changed

/-- What a scope retrieves is what it was when a condition was folded. -/
theorem Retrieves.foldCondition (retrieves : g.Retrieves m rows scope id v)
    (isRetrieve : (g.node scope).isRetrieve = true) (changed : NodeId) :
    (g.foldCondition changed).1.Retrieves m rows scope id v := by
  obtain ⟨filter, holds, value⟩ := retrieves
  refine ⟨filter, ?_, value.foldCondition changed⟩
  rw [Graph.scope, node_foldCondition_of_isRetrieve isRetrieve, ← Graph.scope]
  exact optionRel_map (fun _ _ => (g.keepsFormulas_foldCondition changed).composes) holds

/-! ## A promoted condition -/

/-- A value that is an aggregate, under a name or not, composes the aggregate alone. -/
theorem composes_valueExpression {a : Aggregate}
    (node : g.node (g.valueExpression value) = .aggregate a) :
    g.Composes value (.leaf (g.valueExpression value)) := by
  have leaf : g.Composes (g.valueExpression value) (.leaf (g.valueExpression value)) :=
    .leaf (by rw [node]; rfl)
  unfold valueExpression at leaf ⊢
  split at leaf
  · next p is => exact .projection is leaf
  · exact leaf

section

variable {aggregate : NodeId} {a : Aggregate} (condition : NodeId)
  (isRetrieve : (g.node scope).isRetrieve = true) (node : g.node aggregate = .aggregate a)

include isRetrieve node

theorem node_promoted :
    let k := (g.setCondition aggregate none).setCondition scope (some condition)
    k.node scope = .retrieve { g.scope scope with condition := some condition } ∧
      k.node aggregate = .aggregate { a with condition := none } ∧
      ∀ id, id ≠ scope → id ≠ aggregate → k.node id = g.node id := by
  obtain ⟨r, is⟩ := Node.exists_of_isRetrieve isRetrieve
  have ne : scope ≠ aggregate := by
    rintro rfl
    rw [is] at node
    cases node
  have before : (g.setCondition aggregate none).node scope = .retrieve r :=
    (node_setCondition_of_ne g ne none).trans is
  have has : (g.setCondition aggregate none).Has scope := has_of_node before (by simp)
  refine ⟨?_, ?_, fun id other other' => ?_⟩
  · rw [Graph.scope, is]
    exact node_setCondition_self has (by rw [before]; rfl)
  · rw [node_setCondition_of_ne _ ne.symm]
    exact node_setCondition_self (has_of_aggregate node) (by rw [node]; rfl)
  · rw [node_setCondition_of_ne _ other, node_setCondition_of_ne _ other']

theorem keepsFormulas_promoted :
    KeepsFormulas g ((g.setCondition aggregate none).setCondition scope (some condition)) where
  size := by rw [size_setCondition, size_setCondition]
  node {id} _ := by
    obtain ⟨ofScope, ofAggregate, others⟩ := node_promoted condition isRetrieve node
    by_cases same : id = scope
    · subst same
      exact .inr (.inr ⟨isRetrieve, by rw [ofScope]; rfl⟩)
    · by_cases same' : id = aggregate
      · subst same'
        exact .inr (.inl ⟨by rw [node]; rfl, by rw [ofAggregate]; rfl⟩)
      · exact .inl (others id same same')

end

/-- A scope retrieves what it did when it took over the condition of all it retrieves. -/
theorem Retrieves.promoteCondition (retrieves : g.Retrieves m rows scope value v)
    (isRetrieve : (g.node scope).isRetrieve = true) (mem : value ∈ (g.scope scope).values) :
    (g.promoteCondition scope).1.Retrieves m rows scope value v := by
  unfold Graph.promoteCondition
  split
  · next aggregate condition found =>
    obtain ⟨sole, ⟨name, operand, slot⟩, values, unfiltered, rfl, node, held, -⟩ :=
      soleConditional?_eq_some found
    obtain rfl : value = sole := by simpa [values] using mem
    obtain rfl : slot = some condition := held
    have keeps := keepsFormulas_promoted condition isRetrieve node
    obtain ⟨ofScope, ofAggregate, -⟩ := node_promoted condition isRetrieve node
    obtain ⟨filter, holds, f, leaf, c, leaves, rfl⟩ := retrieves
    obtain rfl : f = .leaf (g.valueExpression value) := c.unique (composes_valueExpression node)
    rw [unfiltered] at holds
    cases holds
    have whole := leaves (g.valueExpression value) (by simp [Formula.leaves])
    rw [m.filter_passes_none] at whole
    -- The condition goes over from the aggregate, where it tells the same rows from the others.
    generalize is : leaf (g.valueExpression value) = total at whole
    cases whole with
    | plain other => simp [node, Node.isAggregate] at other
    | aggregate node' function ofOperand ofCondition =>
      cases node.symm.trans node'
      cases ofCondition with
      | @some _ filter ofCondition =>
        refine ⟨some filter, ?_, _, leaf, keeps.composes c, fun part mem => ?_, rfl⟩
        · rw [Graph.scope, ofScope]
          exact .some (keeps.composes ofCondition.1)
        · obtain rfl := List.mem_singleton.mp mem
          rw [is]
          exact .unconditional ofAggregate function (keeps.rowFormula ofOperand)
  · exact retrieves

/-! ## All aggregates of a scope -/

/-- What a scope retrieves is what it was when the conditions below some nodes were folded. -/
theorem Retrieves.foldEach (retrieves : g.Retrieves m rows scope id v)
    (isRetrieve : (g.node scope).isRetrieve = true) (starts : List NodeId) :
    (changeEach foldConditionsUnder g starts).1.Retrieves m rows scope id v := by
  let kept (h : Graph) : Prop := (h.node scope).isRetrieve = true ∧ h.Retrieves m rows scope id v
  have step : ∀ {h} changed, kept h → kept (h.foldCondition changed).1 := by
    rintro h changed ⟨isRetrieve, retrieves⟩
    exact ⟨(node_foldCondition_of_isRetrieve isRetrieve).symm ▸ isRetrieve,
      retrieves.foldCondition isRetrieve changed⟩
  exact (changeEach_induction (motive := kept)
    (fun start _ => changeEach_induction (motive := kept) fun changed _ => step changed)
    ⟨isRetrieve, retrieves⟩).2

/-- Promoting a condition changes the scope's filter and the aggregate. -/
theorem promoteCondition_changes (isRetrieve : (g.node scope).isRetrieve = true) :
    (∃ condition, (g.promoteCondition scope).1.node scope =
      .retrieve { g.scope scope with condition }) ∧
    ∀ id, id ≠ scope → (g.node id).isAggregate = false →
      (g.promoteCondition scope).1.node id = g.node id := by
  unfold Graph.promoteCondition
  split
  · next aggregate condition found =>
    obtain ⟨_, a, -, -, -, node, -⟩ := soleConditional?_eq_some found
    obtain ⟨ofScope, -, others⟩ := node_promoted condition isRetrieve node
    refine ⟨⟨_, ofScope⟩, fun id other plain => others id other ?_⟩
    rintro rfl
    simp [node, Node.isAggregate] at plain
  · obtain ⟨r, is⟩ := Node.exists_of_isRetrieve isRetrieve
    exact ⟨⟨r.condition, by rw [Graph.scope, is]⟩, fun _ _ _ => rfl⟩

/-- Whatever leaves and functions mean, and over any rows, freeing the aggregates of a scope over one
range of their conditions leaves each value that the scope retrieves. It leaves all nodes but the
scope and aggregates. -/
theorem Acyclic.freeAggregatesOfOne_sameValues (a : g.Acyclic scope)
    (mem : value ∈ (g.scope scope).values) (plain : g.PlainAggregates value) (m : Meaning ρ α)
    (rows : List ρ) :
    let h := (g.freeAggregatesOfOne scope).1
    (h.scope scope).values = (g.scope scope).values ∧
      (∀ id, g.Has id → id ≠ scope → (g.node id).isAggregate = false → h.node id = g.node id) ∧
      ∃ v, (∀ u, g.Retrieves m rows scope value u ↔ u = v) ∧
        ∀ u, h.Retrieves m rows scope value u ↔ u = v := by
  intro h
  have isRetrieve : (g.node scope).isRetrieve = true := by
    cases node : g.node scope <;> simp_all [Graph.scope, Retrieve.empty, Node.isRetrieve]
  obtain ⟨⟨condition, promoted⟩, others⟩ := promoteCondition_changes isRetrieve
  have isRetrieve' : ((g.promoteCondition scope).1.node scope).isRetrieve = true := by
    rw [promoted]
    rfl
  have folded : Same Node.unlessAggregate (g.promoteCondition scope).1 h :=
    .changeEach (fun g start => .changeEach (fun g id => .foldCondition (fun _ _ => rfl) g id) g _) _ _
  obtain ⟨v, before⟩ := a.exists_retrieves mem plain m rows
  have after : h.Retrieves m rows scope value v :=
    (before.promoteCondition isRetrieve mem).foldEach isRetrieve' _
  have has : ∀ {id}, g.Has id → (g.promoteCondition scope).1.Has id := fun has =>
    (Node.slotless_label.toCalm.promoteCondition g scope).has has
  refine ⟨?_, fun id had other noAggregate => ?_, v,
    fun u => ⟨fun is => is.unique before, ?_⟩, fun u => ⟨fun is => is.unique after, ?_⟩⟩
  · have same : h.node scope = (g.promoteCondition scope).1.node scope :=
      node_changeEach (fun _ start isRetrieve => node_foldConditionsUnder_of_isRetrieve isRetrieve start)
        isRetrieve' _
    rw [Graph.scope, same, promoted]
  · have same := folded.node (has had)
    rw [others id other noAggregate] at same
    exact Node.eq_of_unlessAggregate same noAggregate
  · rintro rfl
    exact before
  · rintro rfl
    exact after

/-- Orders as pairs of what is paid and the total; equality compares data, and all functions add. -/
def paidAndTotal : Meaning (Nat × Nat) Nat where
  reading := equalityReading
  cell id order := .datum (if id = ⟨1⟩ then order.2 else if id = ⟨2⟩ then order.1 else 1)
  common _ _ := .null
  total _ values := .datum (values.foldl (fun | n, .datum m => n + m | n, _ => n) 0)

/-- The total of the paid orders stays, whether the aggregate or the scope leaves out the others. -/
theorem freeAggregatesOfOne_sameValues_totalOfPaidOrders :
    let g := totalOfPaidOrders.graph
    let h := (g.freeAggregatesOfOne ⟨7⟩).1
    let rows := [(1, 10), (0, 5), (1, 2)]
    (g.Acyclic ⟨7⟩ ∧ ⟨6⟩ ∈ (g.scope ⟨7⟩).values ∧ g.PlainAggregates ⟨6⟩) ∧
      (g.scope ⟨7⟩).condition = none ∧ (h.scope ⟨7⟩).condition = some ⟨4⟩ ∧
      g.Retrieves paidAndTotal rows ⟨7⟩ ⟨6⟩ (.datum 12) ∧
      h.Retrieves paidAndTotal rows ⟨7⟩ ⟨6⟩ (.datum 12) := by
  intro g h rows
  have isSum : g.node ⟨5⟩ = .aggregate { function := .sum, operand := ⟨1⟩, condition := some ⟨4⟩ } := rfl
  have acyclic : g.Acyclic ⟨7⟩ := wellLinked_totalOfPaidOrders.tree.acyclic (.refl g _)
  have mem : (⟨6⟩ : NodeId) ∈ (g.scope ⟨7⟩).values := by decide
  have plain : g.PlainAggregates ⟨6⟩ := by
    intro id a reached node
    have among : id ∈ [⟨6⟩, ⟨5⟩, ⟨1⟩, ⟨4⟩, ⟨2⟩, ⟨3⟩] :=
      reached.below.mem_of_closed (by decide) (by decide)
    have only : ∀ id ∈ [⟨6⟩, ⟨5⟩, ⟨1⟩, ⟨4⟩, ⟨2⟩, ⟨3⟩], (g.node id).isAggregate = true → id = ⟨5⟩ := by
      decide
    obtain rfl := only id among (by rw [node]; rfl)
    obtain rfl := Node.aggregate.inj (isSum.symm.trans node)
    refine ⟨by decide, fun part slot lower below => ?_⟩
    have top : ∀ part ∈ g.children ⟨5⟩, part ∈ [⟨1⟩, ⟨4⟩, ⟨2⟩, ⟨3⟩] := by decide
    have within : lower ∈ [⟨1⟩, ⟨4⟩, ⟨2⟩, ⟨3⟩] := below.mem_of_closed (top part slot) (by decide)
    have noneThere : ∀ lower ∈ [⟨1⟩, ⟨4⟩, ⟨2⟩, ⟨3⟩],
        (g.node lower).isAggregate = false ∧ (g.node lower).isSubquery = false := by decide
    exact noneThere lower within
  obtain ⟨-, -, v, before, after⟩ := acyclic.freeAggregatesOfOne_sameValues mem plain paidAndTotal rows
  have operand : g.RowFormula ⟨1⟩ (.leaf ⟨1⟩) := ⟨.leaf rfl, by decide⟩
  have condition : g.RowFormula ⟨4⟩ (.binary .eq (.leaf ⟨2⟩) (.leaf ⟨3⟩)) :=
    ⟨.binary rfl (.leaf rfl) (.leaf rfl), by decide⟩
  have retrieves : g.Retrieves paidAndTotal rows ⟨7⟩ ⟨6⟩ (.datum 12) := by
    refine ⟨none, .none, .leaf ⟨5⟩, fun _ => .datum 12, .projection rfl (.leaf rfl), fun part mem => ?_, rfl⟩
    obtain rfl := List.mem_singleton.mp mem
    exact .aggregate isSum (by decide) operand (.some condition)
  have same := (before _).mp retrieves
  exact ⟨⟨acyclic, mem, plain⟩, rfl, by decide +kernel, retrieves, (after _).mpr same⟩

end Graph

end RangeQuery
