import RangeQuery.Node.Basic

/-!
The children of a node are the handles it owns, in the order of its slots. `withChildren` puts
other handles into the same slots, so a node is its label and its list of children.
-/

namespace RangeQuery

/-- The owned handles, in slot order. Templates and the range of an identifier are not owned. -/
def Node.children : Node → List NodeId
  | .retrieve r =>
    r.ranges ++ r.values ++ r.condition.toList ++ r.sort.map (·.expression)
  | .range r => r.join.toList ++ r.nested.toList
  | .binary _ left right => [left, right]
  | .not operand => [operand]
  | .nullCheck operand _ => [operand]
  | .rowExists target => [target]
  | .aggregate a => a.operand :: a.condition.toList
  | .caseWhen c => c.condition :: c.result :: c.otherwise.toList
  | .subquery s => s.ranges ++ s.expression.toList ++ s.condition.toList
  | .projection p => [p.expression]
  | .identifier _ | .number _ | .string _ | .bool _ | .null | .parameter _ | .placeholder _ => []

/-- The slots of a scope filled from a list of handles. -/
def Retrieve.withChildren (r : Retrieve) (handles : List NodeId) : Retrieve :=
  let afterRanges := handles.drop r.ranges.length
  let afterValues := afterRanges.drop r.values.length
  let afterCondition := afterValues.drop r.condition.toList.length
  { r with
    ranges := handles.take r.ranges.length
    values := afterRanges.take r.values.length
    condition := r.condition.map (afterValues.headD ·)
    sort := List.zipWith (fun item expression => { item with expression }) r.sort afterCondition }

/-- The slots of a subquery filled from a list of handles. -/
def Subquery.withChildren (s : Subquery) (handles : List NodeId) : Subquery :=
  let afterRanges := handles.drop s.ranges.length
  let afterExpression := afterRanges.drop s.expression.toList.length
  { s with
    ranges := handles.take s.ranges.length
    expression := s.expression.map (afterRanges.headD ·)
    condition := s.condition.map (afterExpression.headD ·) }

/-- The slots of a range filled from a list of handles. -/
def Range.withChildren (r : Range) (handles : List NodeId) : Range :=
  { r with
    join := r.join.map (handles.headD ·)
    nested := r.nested.map ((handles.drop r.join.toList.length).headD ·) }

/-- The same label over other children, given in slot order. -/
def Node.withChildren (node : Node) (handles : List NodeId) : Node :=
  match node with
  | .retrieve r => .retrieve (r.withChildren handles)
  | .range r => .range (r.withChildren handles)
  | .binary op left right => .binary op (handles.getD 0 left) (handles.getD 1 right)
  | .not operand => .not (handles.getD 0 operand)
  | .nullCheck operand negated => .nullCheck (handles.getD 0 operand) negated
  | .rowExists target => .rowExists (handles.getD 0 target)
  | .aggregate a =>
    .aggregate { a with
      operand := handles.getD 0 a.operand
      condition := a.condition.map (handles.getD 1 ·) }
  | .caseWhen c =>
    .caseWhen {
      condition := handles.getD 0 c.condition
      result := handles.getD 1 c.result
      otherwise := c.otherwise.map (handles.getD 2 ·) }
  | .subquery s => .subquery (s.withChildren handles)
  | .projection p => .projection { p with expression := handles.getD 0 p.expression }
  | .identifier _ | .number _ | .string _ | .bool _ | .null | .parameter _ | .placeholder _ => node

/-- The bodies of the templates a scope holds, in the order of their names. -/
def Node.templateBodies : Node → List NodeId
  | .retrieve r => r.templates.values
  | _ => []

/-- The same scope with other template bodies, given in the order of their names. -/
def Node.withTemplateBodies (bodies : List NodeId) : Node → Node
  | .retrieve r => .retrieve { r with templates := r.templates.withValues bodies }
  | node => node

theorem zipWith_expression_map (sort : List SortItem) :
    List.zipWith (fun item expression => ({ item with expression } : SortItem)) sort
      (sort.map (·.expression)) = sort := by
  induction sort with
  | nil => rfl
  | cons item rest ih => simp [ih]

theorem map_expression_zipWith {sort : List SortItem} {handles : List NodeId}
    (length : handles.length = sort.length) :
    (List.zipWith (fun item expression => ({ item with expression } : SortItem)) sort handles).map
      (·.expression) = handles := by
  induction sort generalizing handles with
  | nil => simpa using (List.length_eq_zero_iff.mp length).symm
  | cons item rest ih =>
    cases handles with
    | nil => simp at length
    | cons handle handles => simpa using ih (by simpa using length)

/-- Filling the slots with the children they hold changes nothing. -/
theorem Node.withChildren_children (node : Node) : node.withChildren node.children = node := by
  cases node with
  | retrieve r =>
    obtain ⟨ranges, values, condition, sort, _, _, _, _⟩ := r
    cases condition <;>
      simp [withChildren, Retrieve.withChildren, children, zipWith_expression_map]
  | range r =>
    obtain ⟨_, _, join, _, _, nested⟩ := r
    cases join <;> cases nested <;> simp [withChildren, Range.withChildren, children]
  | aggregate a =>
    obtain ⟨_, _, condition⟩ := a
    cases condition <;> simp [withChildren, children]
  | caseWhen c =>
    obtain ⟨_, _, otherwise⟩ := c
    cases otherwise <;> simp [withChildren, children]
  | subquery s =>
    obtain ⟨_, _, expression, condition⟩ := s
    cases expression <;> cases condition <;>
      simp [withChildren, Subquery.withChildren, children]
  | _ => simp [withChildren, children]

theorem option_map_headD_toList {slot : Option NodeId} {handles : List NodeId}
    (length : slot.toList.length ≤ handles.length) :
    (slot.map (handles.headD ·)).toList = handles.take slot.toList.length := by
  cases slot with
  | none => simp
  | some id =>
    cases handles with
    | nil => simp at length
    | cons handle handles => simp

/-- The children are the handles the slots were filled with. -/
theorem Node.children_withChildren (node : Node) {handles : List NodeId}
    (length : handles.length = node.children.length) :
    (node.withChildren handles).children = handles := by
  cases node with
  | retrieve r =>
    simp only [children, List.length_append, List.length_map] at length
    simp only [withChildren, Retrieve.withChildren, children, List.append_assoc]
    rw [option_map_headD_toList (by simp only [List.length_drop]; omega),
      map_expression_zipWith (by simp only [List.length_drop]; omega),
      List.take_append_drop, List.take_append_drop, List.take_append_drop]
  | range r =>
    simp only [children, List.length_append] at length
    simp only [withChildren, Range.withChildren, children]
    rw [option_map_headD_toList (by omega),
      option_map_headD_toList (by simp only [List.length_drop]; omega)]
    rw [List.take_of_length_le (l := handles.drop _) (by simp only [List.length_drop]; omega),
      List.take_append_drop]
  | subquery s =>
    simp only [children, List.length_append] at length
    simp only [withChildren, Subquery.withChildren, children, List.append_assoc]
    rw [option_map_headD_toList (by simp only [List.length_drop]; omega),
      option_map_headD_toList (by simp only [List.length_drop]; omega)]
    rw [List.take_of_length_le (l := (handles.drop _).drop _)
        (by simp only [List.length_drop]; omega),
      List.take_append_drop, List.take_append_drop]
  | binary op left right =>
    match handles, length with
    | [first, second], _ => rfl
  | aggregate a =>
    obtain ⟨_, _, condition⟩ := a
    cases condition with
    | none =>
      match handles, length with
      | [first], _ => rfl
    | some _ =>
      match handles, length with
      | [first, second], _ => rfl
  | caseWhen c =>
    obtain ⟨_, _, otherwise⟩ := c
    cases otherwise with
    | none =>
      match handles, length with
      | [first, second], _ => rfl
    | some _ =>
      match handles, length with
      | [first, second, third], _ => rfl
  | not _ | nullCheck _ _ | rowExists _ | projection _ =>
    match handles, length with
    | [first], _ => rfl
  | identifier _ | number _ | string _ | bool _ | null | parameter _ | placeholder _ =>
    exact (List.length_eq_zero_iff.mp length).symm

end RangeQuery
