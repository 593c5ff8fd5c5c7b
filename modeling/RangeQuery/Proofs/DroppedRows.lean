import RangeQuery.Proofs.DeadJoins
import RangeQuery.Proofs.Rows.Interpretation

/-!
The rows of a scope without its dead joins. An optional join loses no combination of rows, and the
value of an expression tells two of them apart only by ranges that it consults. No expression in use
consults a dropped range, so the scope answers with the same rows of values.
-/

namespace RangeQuery

namespace Graph

variable {g h : Graph} {root scope range : NodeId} {dropped : Set NodeId}

/-- An identifier of an expression reads a range and does not lie below an excluded one, unless in a
subquery. -/
def Consults (g : Graph) (expression range : NodeId) : Prop :=
  ∃ id i, g.Regards expression id ∧ g.node id = .identifier i ∧ i.range = range

theorem consults_of_child {expression child : NodeId} {i : Identifier}
    (kept : (g.node expression).isExcluded = false) (slot : child ∈ g.children expression)
    (node : g.node child = .identifier i) : g.Consults expression i.range :=
  ⟨child, i, .down kept slot (.here (by rw [node]; rfl)), node, rfl⟩

namespace Dropping

variable (l : g.Linked root) (above : g.Below root scope)
  (isRetrieve : (g.node scope).isRetrieve = true) (d : g.Dropping scope dropped h)

include l above isRetrieve d

/-- What a scope owns and keeps consults no dropped range. -/
theorem not_mem_of_consults {slot : NodeId} (owned : slot ∈ g.children scope) (out : slot ∉ dropped)
    (consults : g.Consults slot range) : range ∉ dropped := by
  intro mem
  obtain ⟨id, i, regarded, node, reads⟩ := consults
  have ofDropped : ∀ {other}, other ∈ dropped → ¬ g.Below other id := fun {other} mem below =>
    have declared := (isIncluded_of_mem (d.droppable mem).1).1
    out (l.child_unique above owned (declared_subset_children _ declared) regarded.reached below ▸ mem)
  have counts : g.Counts scope range id :=
    ⟨.down (Node.isExcluded_of_isRetrieve isRetrieve) owned regarded, ⟨i, node, reads⟩,
      fun join held below =>
        ofDropped mem ((below_of_child (mem_children_of_join? held)).trans below)⟩
  obtain ⟨other, mem', -, below⟩ := d.unread range mem id counts
  exact ofDropped mem' below

variable {ρ β : Type} {I : Interpretation ρ β} (depends : I.DependsOn g.Consults)
  {c c' : Combination ρ}

include depends

/-- Combinations that agree on the ranges that are left give what the scope keeps one value. -/
theorem value_eq {slot : NodeId} (owned : slot ∈ g.children scope) (out : slot ∉ dropped)
    (agree : c.AgreeOff dropped c') : I.value slot c = I.value slot c' :=
  depends slot c c' fun _ consults =>
    agree _ (d.not_mem_of_consults l above isRetrieve owned out consults)

/-- The ranges that are left are joined as before. -/
theorem joinsWithout : I.JoinsWithout g h dropped (g.includedRanges scope) where
  optional _ _ mem := (d.droppable mem).2
  same range mem out c c' agree := by
    obtain ⟨declared, included⟩ := isIncluded_of_mem mem
    have kept : (g.node range).isExcluded = false := by
      rw [Node.isExcluded_of_range (Node.isRange_of_isIncluded included), included]
      rfl
    have partners : I.partners h c' range = I.partners g c range := by
      refine List.filter_congr fun row _ => ?_
      rw [d.excludes.join?_eq]
      cases held : g.join? range with
      | none => rfl
      | some join =>
        -- What the predicate consults, its range consults, which the scope keeps.
        have same : I.value join ((range, some row) :: c) = I.value join ((range, some row) :: c') := by
          refine depends join _ _ fun other consults => agree.cons range (some row) other ?_
          obtain ⟨id, i, regarded, reads⟩ := consults
          exact d.not_mem_of_consults l above isRetrieve (declared_subset_children _ declared) out
            ⟨id, i, .down kept (mem_children_of_join? held) regarded, reads⟩
        simp only [Option.all_some, same]
    rw [Interpretation.choices, Interpretation.choices, partners,
      d.excludes.view _ Node.isOptional_excluded]

end Dropping

/-- A scope answers with the same rows of values once its dead joins are dropped, whatever its ranges
read from, and whatever its expressions mean as long as their values depend on the ranges that they
consult only. -/
theorem Linked.sameAnswers_dropDeadJoins {ρ β : Type} (l : g.Linked root) (above : g.Below root scope)
    (isRetrieve : (g.node scope).isRetrieve = true) (I : Interpretation ρ β)
    (depends : I.DependsOn g.Consults) :
    I.answers (g.dropDeadJoins scope).1 scope = I.answers g scope := by
  classical
  have d := l.dropping_dropDeadJoins above isRetrieve
  generalize g.droppedRanges scope = dropped, (g.dropDeadJoins scope).1 = h at d
  have joins := d.joinsWithout l above isRetrieve depends
  have isRange : ∀ range ∈ dropped, range ∈ (g.node scope).declared := fun range mem =>
    (isIncluded_of_mem (d.droppable mem).1).1
  have clauses : h.scope scope = g.scope scope := by
    have out : scope ∉ dropped := fun mem =>
      l.not_below_of_child above (declared_subset_children _ (isRange scope mem)) (.refl g scope)
    rw [Graph.scope, Graph.scope, d.excludes.others scope out]
  -- A combination of all ranges and one of those left that agree with each other answer alike.
  have alike : ∀ {c c' : Combination ρ}, c.AgreeOff dropped c' →
      (∀ condition ∈ (g.scope scope).condition, I.value condition c = I.value condition c') ∧
      (g.scope scope).values.map (I.value · c) = (g.scope scope).values.map (I.value · c') := by
    intro c c' agree
    have same : ∀ {id}, id ∈ (g.scope scope).values ++ (g.scope scope).condition.toList ++
        (g.scope scope).sort.map (·.expression) → I.value id c = I.value id c' := by
      intro id mem
      obtain ⟨owned, undeclared⟩ := l.clause_of_isRetrieve above isRetrieve mem
      exact d.value_eq l above isRetrieve depends owned (fun out => undeclared (isRange id out)) agree
    exact ⟨fun condition held => same (by simp [Option.mem_def.mp held]),
      List.map_congr_left fun value mem => same (by simp [mem])⟩
  ext values
  simp only [Interpretation.answers, Interpretation.joinedRows, clauses,
    d.excludes.includedRanges_eq isRetrieve]
  constructor
  · rintro ⟨c', mem, accepted, rfl⟩
    obtain ⟨c, mem', agree⟩ := joins.exists_all (fun _ _ => rfl) mem
    obtain ⟨condition, projected⟩ := alike agree
    exact ⟨c, mem', fun id held => condition id held ▸ accepted id held, projected⟩
  · rintro ⟨c, mem, accepted, rfl⟩
    obtain ⟨c', mem', agree⟩ := joins.exists_left (fun _ _ => rfl) mem
    obtain ⟨condition, projected⟩ := alike agree
    exact ⟨c', mem', fun id held => condition id held ▸ accepted id held, projected.symm⟩

/-- The name of a customer, and whether an order has the number of the customer; no item has the
number of an order. -/
def byNumber : Interpretation Nat (Option Nat) where
  rows range := if range = ⟨0⟩ then [1, 2] else [1, 1]
  value expression c :=
    if expression = ⟨10⟩ then c.rowOf ⟨0⟩
    else if expression = ⟨4⟩ ∧ c.rowOf ⟨0⟩ = c.rowOf ⟨1⟩ then c.rowOf ⟨1⟩
    else none
  accepts := Option.isSome

theorem dependsOn_byNumber : byNumber.DependsOn customersWithItems.Consults := by
  have name : customersWithItems.Consults ⟨10⟩ ⟨0⟩ :=
    consults_of_child (by decide) (by decide : ⟨9⟩ ∈ customersWithItems.children ⟨10⟩) rfl
  have customer : customersWithItems.Consults ⟨4⟩ ⟨0⟩ :=
    consults_of_child (by decide) (by decide : ⟨3⟩ ∈ customersWithItems.children ⟨4⟩) rfl
  have order : customersWithItems.Consults ⟨4⟩ ⟨1⟩ :=
    consults_of_child (by decide) (by decide : ⟨2⟩ ∈ customersWithItems.children ⟨4⟩) rfl
  intro expression c c' agree
  by_cases isName : expression = ⟨10⟩
  · subst isName
    simp [byNumber, agree _ name]
  · by_cases isJoin : expression = ⟨4⟩
    · subst isJoin
      simp [byNumber, agree _ customer, agree _ order]
    · simp [byNumber, isName, isJoin]

/-- One customer has two orders and the other none, and both are answered. -/
theorem sameAnswers_dropDeadJoins_customersWithItems :
    (customersWithItems.Linked ⟨11⟩ ∧ customersWithItems.Below ⟨11⟩ ⟨11⟩ ∧
      (customersWithItems.node ⟨11⟩).isRetrieve = true ∧
      byNumber.DependsOn customersWithItems.Consults) ∧
    (byNumber.joinedRows customersWithItems ⟨11⟩).length = 3 ∧
    byNumber.answers (customersWithItems.dropDeadJoins ⟨11⟩).1 ⟨11⟩ =
      byNumber.answers customersWithItems ⟨11⟩ := by
  have isRetrieve : (customersWithItems.node ⟨11⟩).isRetrieve = true := by decide
  exact ⟨⟨linked_customersWithItems, .refl _ _, isRetrieve, dependsOn_byNumber⟩, by decide,
    linked_customersWithItems.sameAnswers_dropDeadJoins (.refl _ _) isRetrieve byNumber dependsOn_byNumber⟩

/-! ## Readers below excluded ranges -/

/-- Customers joined with their orders, and beside them what a query selects from payments. Its items
are excluded, and the predicate that would join them tests the order. -/
def customersBesidePayments : Graph := ⟨#[
  ⟨.range { name := "c", entity := some "Customer", join := none, required := false
            included := true, nested := none }, some ⟨16⟩⟩,
  ⟨.range { name := "o", entity := some "Order", join := some ⟨4⟩, required := false
            included := true, nested := none }, some ⟨16⟩⟩,
  ⟨.identifier { range := ⟨1⟩, path := ["customerId"] }, some ⟨4⟩⟩,
  ⟨.identifier { range := ⟨0⟩, path := ["id"] }, some ⟨4⟩⟩,
  ⟨.binary .eq ⟨2⟩ ⟨3⟩, some ⟨1⟩⟩,
  ⟨.identifier { range := ⟨0⟩, path := ["id"] }, some ⟨6⟩⟩,
  ⟨.projection { name := "value0", expression := ⟨5⟩, visible := true }, some ⟨16⟩⟩,
  ⟨.range { name := "p", entity := some "Payment", join := none, required := false
            included := true, nested := none }, some ⟨14⟩⟩,
  ⟨.range { name := "i", entity := some "Item", join := some ⟨11⟩, required := false
            included := false, nested := none }, some ⟨14⟩⟩,
  ⟨.identifier { range := ⟨1⟩, path := ["paid"] }, some ⟨11⟩⟩,
  ⟨.number "1", some ⟨11⟩⟩,
  ⟨.binary .eq ⟨9⟩ ⟨10⟩, some ⟨8⟩⟩,
  ⟨.number "2", some ⟨13⟩⟩,
  ⟨.projection { name := "value0", expression := ⟨12⟩, visible := true }, some ⟨14⟩⟩,
  ⟨.retrieve { Retrieve.empty with ranges := [⟨7⟩, ⟨8⟩], values := [⟨13⟩] }, some ⟨15⟩⟩,
  ⟨.projection { name := "value1", expression := ⟨14⟩, visible := true }, some ⟨16⟩⟩,
  ⟨.retrieve { Retrieve.empty with ranges := [⟨0⟩, ⟨1⟩], values := [⟨6⟩, ⟨15⟩] }, none⟩]⟩

/-- The second value tells whether there is an order. -/
def tellsOrder : Interpretation Unit Bool where
  rows _ := [()]
  value expression c := expression ≠ ⟨15⟩ || (c.rowOf ⟨1⟩).isSome
  accepts truth := truth

/-- An excluded range is not entered, so what only its predicate reads is dropped; were the value of an
expression to depend on that, the answers would differ. -/
theorem otherAnswers_dropDeadJoins_customersBesidePayments :
    customersBesidePayments.Linked ⟨16⟩ ∧ customersBesidePayments.ScopeIn ⟨16⟩ ⟨16⟩ ∧
    (∀ id, customersBesidePayments.Below ⟨16⟩ id → customersBesidePayments.aggregate? id = none) ∧
    tellsOrder.DependsOn customersBesidePayments.Reads ∧
    tellsOrder.answers (customersBesidePayments.dropDeadJoins ⟨16⟩).1 ⟨16⟩ ≠
      tellsOrder.answers customersBesidePayments ⟨16⟩ := by
  have linked : customersBesidePayments.Linked ⟨16⟩ :=
    .of_closed [⟨16⟩, ⟨0⟩, ⟨1⟩, ⟨2⟩, ⟨3⟩, ⟨4⟩, ⟨5⟩, ⟨6⟩, ⟨7⟩, ⟨8⟩, ⟨9⟩, ⟨10⟩, ⟨11⟩, ⟨12⟩, ⟨13⟩, ⟨14⟩,
      ⟨15⟩] (by decide) (by decide) (by decide) (by decide) (by decide)
  refine ⟨linked, .root (by decide), fun id below => ?_, fun expression c c' agree => ?_, ?_⟩
  · have none : ∀ index < 17, customersBesidePayments.aggregate? ⟨index⟩ = none := by decide
    exact none id.index (linked.has_of_below below)
  · by_cases second : expression = ⟨15⟩
    · subst second
      have reads : customersBesidePayments.Reads ⟨15⟩ ⟨1⟩ := by
        refine ⟨⟨9⟩, _, ?_, rfl, rfl⟩
        exact (((below_of_child (by decide : (⟨14⟩ : NodeId) ∈ _)).child
          (by decide : (⟨8⟩ : NodeId) ∈ _)).child (by decide : (⟨11⟩ : NodeId) ∈ _)).child (by decide)
      simp [tellsOrder, agree _ reads]
    · simp [tellsOrder, second]
  · intro same
    have before : [true, true] ∈ tellsOrder.answers customersBesidePayments ⟨16⟩ :=
      ⟨_, List.mem_singleton.mpr rfl, by decide, by decide⟩
    obtain ⟨c, mem, -, values⟩ := same ▸ before
    have rows : tellsOrder.joinedRows (customersBesidePayments.dropDeadJoins ⟨16⟩).1 ⟨16⟩ =
        [[(⟨0⟩, some ())]] := by decide
    rw [rows, List.mem_singleton] at mem
    subst mem
    revert values
    decide

end Graph

end RangeQuery
