import RangeQuery.Proofs.ClosedSubqueries
import RangeQuery.Proofs.PreservedAggregates
import RangeQuery.Proofs.Scope.FreeClauses

/-!
What the pass over aggregates makes of a filter that holds no aggregate but ANYs. Whatever it folds or
puts into a subquery leaves the filter so; a condition that the scope takes over from all it
retrieves becomes the filter as it is, with every aggregate in it.
-/

namespace RangeQuery

theorem seekAggregate_descend {allowAny : Bool} {node : Node}
    (descends : Graph.seekAggregate allowAny node = .descend) : node.isAggregate = false := by
  cases node with
  | aggregate a =>
    rw [Graph.seekAggregate] at descends
    split at descends <;> cases descends
  | _ => rfl

namespace Graph

variable {g h : Graph} {root scope top id : NodeId} {allowAny : Bool}

/-! ## Searches where only aggregates change -/

/-- A graph keeps a term but for what its aggregates compute. -/
structure KeepsPlain (g h : Graph) (top : NodeId) : Prop where
  grounded : g.Grounded top
  size : g.size ≤ h.size
  stamp : ∀ id, g.Below top id → (h.node id).stamp = (g.node id).stamp
  plain : ∀ id, g.Below top id → (g.node id).isAggregate = false → h.node id = g.node id

namespace KeepsPlain

variable (keeps : KeepsPlain g h top)

include keeps

theorem seek (below : g.Below top id) :
    seekAggregate allowAny (h.node id) = seekAggregate allowAny (g.node id) := by
  rw [← seekAggregate_stamp, keeps.stamp id below, seekAggregate_stamp]

/-- No search passes an aggregate, so it comes to the same nodes. -/
theorem sought_iff : h.Sought allowAny top id ↔ g.Sought allowAny top id := by
  constructor
  · rintro ⟨trail, way, opened⟩
    induction way with
    | here => exact .refl g allowAny top
    | @down trail owner child way slot ih =>
      have before := ih fun other on => opened other (by simp [on])
      have below : g.Below top owner := let ⟨_, way, _⟩ := before; ⟨_, way⟩
      have descends := keeps.seek below ▸ opened owner (by simp)
      rw [children, keeps.plain owner below (seekAggregate_descend descends)] at slot
      exact before.child descends slot
  · rintro ⟨trail, way, opened⟩
    induction way with
    | here => exact .refl h allowAny top
    | @down trail owner child way slot ih =>
      have descends := opened owner (by simp)
      have below : g.Below top owner := ⟨_, way⟩
      have same := keeps.plain owner below (seekAggregate_descend descends)
      refine (ih fun other on => opened other (by simp [on])).child ?_ ?_
      · rw [same, descends]
      · rwa [children, same]

/-- So aggregates are found where they were found before. -/
theorem freeOfAggregates_iff :
    h.FreeOfAggregates allowAny top ↔ g.FreeOfAggregates allowAny top := by
  refine forall_congr' fun id => ?_
  rw [keeps.sought_iff]
  refine imp_congr_right fun ⟨trail, way, _⟩ => ?_
  have has := keeps.grounded id ⟨trail, way⟩
  rw [keeps.seek ⟨trail, way⟩]
  exact and_congr_left fun _ => iff_of_true (Nat.lt_of_lt_of_le has keeps.size) has

end KeepsPlain

/-! ## The filter of a scope -/

/-- A scope takes over a condition if it includes no second range and has no filter, and all that it
retrieves is an aggregate with that condition, which is no ANY. -/
def TakesOver (g : Graph) (scope condition : NodeId) : Prop :=
  (g.includedRanges scope).length ≤ 1 ∧ (g.scope scope).condition = none ∧
    ∃ value a, (g.scope scope).values = [value] ∧
      g.node (g.valueExpression value) = .aggregate a ∧ a.function ≠ .any ∧
      a.condition = some condition

theorem takesOver_iff {condition : NodeId} : g.TakesOver scope condition ↔
    (g.includedRanges scope).length ≤ 1 ∧
      ∃ aggregate, g.soleConditional? (g.scope scope) = some (aggregate, condition) := by
  refine and_congr_right fun _ => ⟨?_, ?_⟩
  · rintro ⟨unfiltered, value, a, values, node, function, held⟩
    refine ⟨g.valueExpression value, ?_⟩
    simp [soleConditional?, values, unfiltered, aggregate?, node, function, held]
  · rintro ⟨aggregate, found⟩
    obtain ⟨value, a, values, unfiltered, rfl, node, held, function⟩ := soleConditional?_eq_some found
    exact ⟨unfiltered, value, a, values, node, function, held⟩

/-- The filter of a scope holds no aggregate but ANYs, outside ANYs and subqueries. -/
def CleanFilter (g : Graph) (scope : NodeId) : Prop :=
  ∀ condition, (g.scope scope).condition = some condition → g.firstAggregate? condition true = none

theorem Linked.below_filter (l : g.Linked root) (isScope : g.ScopeIn root scope)
    {condition : NodeId} (slot : (g.scope scope).condition = some condition) :
    g.Below root condition :=
  isScope.reached.child (l.clause_apart isScope (by simp [slot])).1

theorem Linked.cleanFilter_iff (l : g.Linked root) (isScope : g.ScopeIn root scope) :
    g.CleanFilter scope ↔ ∀ condition, (g.scope scope).condition = some condition →
      g.FreeOfAggregates true condition :=
  forall₂_congr fun _ slot => l.firstAggregate?_eq_none (l.below_filter isScope slot) true

/-- A condition that a scope may take over lies below it, and the scope not below the condition. -/
theorem Linked.below_sole (l : g.Linked root) (isScope : g.ScopeIn root scope)
    {aggregate condition : NodeId}
    (found : g.soleConditional? (g.scope scope) = some (aggregate, condition)) :
    g.Below root condition ∧ ¬ g.Below condition scope := by
  obtain ⟨value, a, values, -, rfl, node, held, -⟩ := soleConditional?_eq_some found
  have slot : value ∈ g.children scope := (l.clause_apart isScope (by simp [values])).1
  have inside : g.Below value (g.valueExpression value) := by
    unfold valueExpression
    split
    · next p projection => exact below_of_child (by simp [children, projection, Node.children])
    · exact .refl g value
  have above := (below_of_child slot).trans inside
  have child : condition ∈ g.children (g.valueExpression value) := by
    simp [children, node, Node.children, held]
  refine ⟨(isScope.reached.trans above).child child, fun back => ?_⟩
  exact l.not_below_of_child (isScope.reached.trans above) child (back.trans above)

/-! ## A scope over one range -/

/-- Once a scope took over what it may, only conditions are folded. -/
theorem folded_freeAggregatesOfOne (g : Graph) (scope : NodeId) :
    Same Node.unlessAggregate (g.promoteCondition scope).1 (g.freeAggregatesOfOne scope).1 :=
  .changeEach (fun g _ => .changeEach (fun g id => .foldCondition (fun _ _ => rfl) g id) g _) _ _

/-- A term that the scope is not below keeps all but its aggregates. -/
theorem Linked.keepsPlain_freeAggregatesOfOne (l : g.Linked root) (isScope : g.ScopeIn root scope)
    (above : g.Below root top) (apart : ¬ g.Below top scope) :
    KeepsPlain g (g.freeAggregatesOfOne scope).1 top where
  grounded := l.grounded above
  size := (Node.formal_stamp.toPlaced.freeAggregatesOfOne g scope).size
  stamp id below :=
    (Node.formal_stamp.toPlaced.freeAggregatesOfOne g scope).node (l.has_of_below (above.trans below))
  plain id below plain := by
    have ne : id ≠ scope := fun same => apart (same ▸ below)
    have promoted := (promoteCondition_changes isScope.isRetrieve).2 id ne plain
    have has := (Node.formal_stamp.toCalm.promoteCondition g scope).has
      (l.has_of_below (above.trans below))
    rw [Node.eq_of_unlessAggregate ((g.folded_freeAggregatesOfOne scope).node has)
      (by rw [promoted, plain]), promoted]

/-- The scope has the filter that it had, or one that it took over. -/
theorem condition_freeAggregatesOfOne (isRetrieve : (g.node scope).isRetrieve = true) :
    ((g.freeAggregatesOfOne scope).1.scope scope).condition =
      ((g.soleConditional? (g.scope scope)).map (·.2)).or (g.scope scope).condition := by
  have promoted : ((g.promoteCondition scope).1.scope scope).condition =
      ((g.soleConditional? (g.scope scope)).map (·.2)).or (g.scope scope).condition := by
    unfold promoteCondition
    cases found : g.soleConditional? (g.scope scope) with
    | none => rfl
    | some promoted =>
      obtain ⟨_, a, -, -, -, node, -⟩ := soleConditional?_eq_some found
      rw [Graph.scope, (node_promoted _ isRetrieve node).1]
      rfl
  obtain ⟨⟨condition, scopeNode⟩, -⟩ := promoteCondition_changes isRetrieve
  have kept := Node.eq_of_unlessAggregate
    ((g.folded_freeAggregatesOfOne scope).node (has_of_node scopeNode (by simp)))
    (by rw [scopeNode]; rfl)
  rw [Graph.scope, kept, ← Graph.scope, promoted]

theorem Linked.free_freeAggregatesOfOne (l : g.Linked root) (isScope : g.ScopeIn root scope)
    (clean : g.CleanFilter scope) :
    (∀ condition, ((g.freeAggregatesOfOne scope).1.scope scope).condition = some condition →
      (g.freeAggregatesOfOne scope).1.FreeOfAggregates true condition) ↔
    ∀ aggregate condition, g.soleConditional? (g.scope scope) = some (aggregate, condition) →
      g.FreeOfAggregates true condition := by
  have filter := condition_freeAggregatesOfOne isScope.isRetrieve
  cases found : g.soleConditional? (g.scope scope) with
  | none =>
    rw [found] at filter
    refine iff_of_true (fun condition held => ?_) (by simp)
    have slot := filter.symm.trans held
    have keeps := l.keepsPlain_freeAggregatesOfOne isScope (l.below_filter isScope slot)
      (l.not_below_of_child isScope.reached (l.clause_apart isScope (by simp_all)).1)
    exact keeps.freeOfAggregates_iff.mpr ((l.cleanFilter_iff isScope).mp clean condition slot)
  | some sole =>
    obtain ⟨aggregate, condition⟩ := sole
    rw [found] at filter
    obtain ⟨above, apart⟩ := l.below_sole isScope found
    have keeps := l.keepsPlain_freeAggregatesOfOne isScope above apart
    constructor
    · rintro free _ _ ⟨⟩
      exact keeps.freeOfAggregates_iff.mp (free condition filter)
    · rintro free other held
      obtain rfl := Option.some.inj (filter.symm.trans held)
      exact keeps.freeOfAggregates_iff.mpr (free aggregate condition rfl)

/-! ## The pass -/

/-- A scope whose filter holds no aggregate but ANYs has such a filter again once its aggregates are
freed, unless it takes over a condition with another aggregate in it: that becomes the filter. -/
theorem Linked.cleanFilter_freeAggregates (l : g.Linked root) (isScope : g.ScopeIn root scope)
    (metadata : Metadata) (strategy : AggregateStrategy) (clean : g.CleanFilter scope) :
    let h := (g.freeAggregates metadata strategy scope).1
    (∀ condition, g.TakesOver scope condition → (h.scope scope).condition = some condition) ∧
    (h.CleanFilter scope ↔
      ∀ condition, g.TakesOver scope condition → g.firstAggregate? condition true = none) := by
  intro h
  obtain ⟨zone, level, reshaped, -, -⟩ := l.zone.freeAggregates metadata strategy isScope.reached
  have l' : h.Linked root := reshaped.inOrder.linked (Set.mem_singleton root)
  have isScope' : h.ScopeIn root scope :=
    (Keeps.freeAggregates g metadata strategy scope).scopeIn l isScope
  simp only [l'.cleanFilter_iff isScope', takesOver_iff]
  by_cases one : (g.includedRanges scope).length ≤ 1
  · have pass : h = (g.freeAggregatesOfOne scope).1 :=
      congrArg Prod.fst (if_pos one)
    refine ⟨?_, ?_⟩
    · rintro condition ⟨-, aggregate, found⟩
      rw [pass, condition_freeAggregatesOfOne isScope.isRetrieve, found]
      rfl
    · rw [pass, l.free_freeAggregatesOfOne isScope clean]
      constructor
      · rintro free condition ⟨-, aggregate, found⟩
        exact (l.firstAggregate?_eq_none (l.below_sole isScope found).1 true).mpr
          (free aggregate condition found)
      · intro free aggregate condition found
        exact (l.firstAggregate?_eq_none (l.below_sole isScope found).1 true).mp
          (free condition ⟨one, aggregate, found⟩)
  · refine ⟨fun _ taken => absurd taken.1 one, iff_of_true (fun condition held => ?_)
      fun _ taken => absurd taken.1 one⟩
    have pass : h = (freeAggregate metadata strategy (g.includedRanges scope) g
        (g.aggregateSites (g.scope scope)).reverse).1 := congrArg Prod.fst (if_neg one)
    have grafts : Grafts g h ∅ ∅ :=
      pass ▸ .freeAggregate metadata strategy (g.isRange_includedRanges scope) _
    rw [condition_scope isScope'.isRetrieve] at held
    rcases grafts.conditions (l.has_of_below isScope.reached) (by simp) held with
      before | ⟨has, closed⟩
    · rw [← condition_scope isScope.isRetrieve] at before
      exact ((l.cleanFilter_iff isScope).mp clean condition before).grafted grafts (by simp)
    · exact .of_isClosed has closed true

/-- The total of the orders, on the condition that more than three items were sold in all. -/
def totalOfBusyDays : Graph := ⟨#[
  ⟨.range { name := "o", entity := some "Order", join := none, required := false
            included := true, nested := none }, some ⟨8⟩⟩,
  ⟨.identifier { range := ⟨0⟩, path := ["total"] }, some ⟨6⟩⟩,
  ⟨.identifier { range := ⟨0⟩, path := ["qty"] }, some ⟨3⟩⟩,
  ⟨.aggregate { function := .sum, operand := ⟨2⟩, condition := none }, some ⟨5⟩⟩,
  ⟨.number "3", some ⟨5⟩⟩,
  ⟨.binary .gt ⟨3⟩ ⟨4⟩, some ⟨6⟩⟩,
  ⟨.aggregate { function := .sum, operand := ⟨1⟩, condition := some ⟨5⟩ }, some ⟨7⟩⟩,
  ⟨.projection { name := "value0", expression := ⟨6⟩, visible := true }, some ⟨8⟩⟩,
  ⟨.retrieve { Retrieve.empty with ranges := [⟨0⟩], values := [⟨7⟩] }, none⟩]⟩

/-- The scope has no filter at first, and one with a sum in it when its aggregates are freed. -/
theorem Linked.cleanFilter_freeAggregates_totalOfBusyDays :
    let h := (totalOfBusyDays.freeAggregates noMetadata keepInScope ⟨8⟩).1
    (totalOfBusyDays.Linked ⟨8⟩ ∧ totalOfBusyDays.ScopeIn ⟨8⟩ ⟨8⟩ ∧
      totalOfBusyDays.CleanFilter ⟨8⟩) ∧
    (h.scope ⟨8⟩).condition = some ⟨5⟩ ∧ ¬ h.CleanFilter ⟨8⟩ := by
  have linked : totalOfBusyDays.Linked ⟨8⟩ :=
    .of_closed [⟨8⟩, ⟨0⟩, ⟨1⟩, ⟨2⟩, ⟨3⟩, ⟨4⟩, ⟨5⟩, ⟨6⟩, ⟨7⟩] (by decide) (by decide) (by decide)
      (by decide) (by decide)
  have isScope : totalOfBusyDays.ScopeIn ⟨8⟩ ⟨8⟩ := .root (by decide)
  have clean : totalOfBusyDays.CleanFilter ⟨8⟩ := fun condition held => by
    have unfiltered : (totalOfBusyDays.scope ⟨8⟩).condition = none := by decide
    rw [unfiltered] at held
    cases held
  have taken : totalOfBusyDays.TakesOver ⟨8⟩ ⟨5⟩ :=
    ⟨by decide, by decide, ⟨7⟩, { function := .sum, operand := ⟨1⟩, condition := some ⟨5⟩ }, by decide,
      by decide, by decide, rfl⟩
  obtain ⟨filter, iff⟩ := linked.cleanFilter_freeAggregates isScope noMetadata keepInScope clean
  refine ⟨⟨linked, isScope, clean⟩, filter ⟨5⟩ taken, fun freed => ?_⟩
  have found : totalOfBusyDays.firstAggregate? ⟨5⟩ true = some .sum := by decide
  rw [iff.mp freed ⟨5⟩ taken] at found
  cases found

end Graph

end RangeQuery
