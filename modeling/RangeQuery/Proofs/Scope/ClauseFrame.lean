import RangeQuery.Proofs.Scope.AggregateAnswers
import RangeQuery.Proofs.Scope.LastingViews
import RangeQuery.Proofs.Scope.SameScopes

/-!
The clauses that a scope keeps. A swap puts a new node into one slot and ranges may change places,
so the ranges of a scope stay the same up to their order and its values stay the same handles, as
long as what is swapped is neither. An ANY that is inlined adds a window, and only where it is a
value by itself; no swap makes a new value of that kind.
-/

namespace RangeQuery

/-- The handles of what a scope retrieves. -/
def Node.values : Node → List NodeId
  | .retrieve r => r.values
  | _ => []

/-- What a retrieved value computes. -/
def Node.projected? : Node → Option NodeId
  | .projection p => some p.expression
  | _ => none

/-- Whether a retrieved value is an ANY by itself. -/
def Graph.isTest (g : Graph) (value : NodeId) : Bool :=
  (g.node value).projected?.any fun expression => (g.node expression).isAny

/-- What a scope keeps: its ranges in some order, its values, the directions it sorts in and all
that has no slots. A window is only added where there is a single value and it is tested, and then
asks for the first row. -/
structure ClausesKept (before after : Retrieve) (tested : NodeId → Prop) : Prop where
  ranges : after.ranges.Perm before.ranges
  values : after.values = before.values
  descending : after.sort.map (·.descending) = before.sort.map (·.descending)
  unique : after.unique = before.unique
  templates : after.templates = before.templates
  directives : after.directives = before.directives
  window : after.window = before.window ∨
    before.window = none ∧ after.window = some { offset := 0, size := 1 } ∧
      ∃ value, before.values = [value] ∧ tested value

namespace ClausesKept

variable {r s t : Retrieve} {tested : NodeId → Prop}

theorem refl (r : Retrieve) (tested : NodeId → Prop) : ClausesKept r r tested :=
  ⟨.refl _, rfl, rfl, rfl, rfl, rfl, .inl rfl⟩

/-- What is kept first and what is kept then; a window that is added later was tested before. -/
theorem trans {tested' : NodeId → Prop} (a : ClausesKept r s tested)
    (b : ClausesKept s t tested') (before : ∀ value ∈ r.values, tested' value → tested value) :
    ClausesKept r t tested where
  ranges := b.ranges.trans a.ranges
  values := b.values.trans a.values
  descending := b.descending.trans a.descending
  unique := b.unique.trans a.unique
  templates := b.templates.trans a.templates
  directives := b.directives.trans a.directives
  window := by
    rcases b.window with same | ⟨none, added, value, sole, test⟩
    · rw [same]
      exact a.window
    · rcases a.window with same | ⟨-, some, -⟩
      · rw [a.values] at sole
        exact .inr ⟨same ▸ none, added, value, sole, before value (by simp [sole]) test⟩
      · rw [none] at some
        cases some

end ClausesKept

theorem Node.unbound_values : Unbound Node.values where
  join _ _ := rfl
  required _ _ := rfl
  window _ _ := rfl
  condition {node _ _} h := by
    cases node <;> simp only [withCondition?, Option.some.injEq, reduceCtorEq] at h <;> subst h <;>
      rfl
  range _ _ := rfl
  included _ _ := rfl

theorem Node.unbound_projected? : Unbound Node.projected? where
  join _ _ := rfl
  required _ _ := rfl
  window _ _ := rfl
  condition {node _ _} h := by
    cases node <;> simp only [withCondition?, Option.some.injEq, reduceCtorEq] at h <;> subst h <;>
      rfl
  range _ _ := rfl
  included _ _ := rfl

theorem Node.isAny_stamp (node : Node) : node.stamp.isAny = node.isAny := by
  cases node <;> rfl

theorem values_subset_children (node : Node) : node.values ⊆ node.children := by
  intro id mem
  cases node <;> simp_all [Node.values, Node.children]

theorem projected?_mem_children {node : Node} {id : NodeId} (projected : node.projected? = some id) :
    id ∈ node.children := by
  cases node <;> simp_all [Node.projected?, Node.children]

/-! ## Swapped children -/

/-- A swap of what is no value leaves the values. -/
theorem values_replace_of_not_mem {node : Node} {old : NodeId} (new : NodeId)
    (other : old ∉ node.values) :
    (node.withChildren (node.children.replace old new)).values = node.values := by
  cases node with
  | retrieve r =>
    have apart : old ∉ r.values := other
    by_cases declared : old ∈ r.ranges
    · simp [Node.withChildren, Retrieve.withChildren, Node.values, Node.children,
        List.append_assoc, List.replace_append, declared]
    · simp [Node.withChildren, Retrieve.withChildren, Node.values, Node.children,
        List.append_assoc, List.replace_append, declared, apart]
  | _ => rfl

/-- After a swap a value computes what it did, or the new node. -/
theorem projected?_replace (node : Node) (old new : NodeId) :
    (node.withChildren (node.children.replace old new)).projected? = node.projected? ∨
      (node.withChildren (node.children.replace old new)).projected? = some new := by
  cases node with
  | projection p =>
    by_cases same : old = p.expression
    · simp [Node.withChildren, Node.children, Node.projected?, same]
    · have apart : (old == p.expression) = false := by simpa using same
      simp [Node.withChildren, Node.children, Node.projected?, List.replace_cons, apart]
  | _ => exact .inl rfl

namespace Graph

variable {g h k : Graph} {root scope : NodeId}

theorem values_scope (g : Graph) (scope : NodeId) : (g.scope scope).values = (g.node scope).values := by
  cases kind : g.node scope <;> simp [Graph.scope, kind, Node.values, Retrieve.empty]

theorem Same.isAny (same : Same Node.stamp g h) {id : NodeId} (has : g.Has id) :
    (h.node id).isAny = (g.node id).isAny := by
  rw [← Node.isAny_stamp, same.node has, Node.isAny_stamp]

/-- Scopes with the same lists of handles and the same terms keep their clauses. -/
theorem clausesKept_of_node (isRetrieve : (g.node scope).isRetrieve = true)
    (ranges : (h.node scope).declared.Perm (g.node scope).declared)
    (values : (h.node scope).values = (g.node scope).values)
    (terms : (h.node scope).terms? = (g.node scope).terms?) (tested : NodeId → Prop) :
    ClausesKept (g.scope scope) (h.scope scope) tested := by
  obtain ⟨r, before⟩ := Node.exists_of_isRetrieve isRetrieve
  cases after : h.node scope with
  | retrieve s =>
    simp only [before, after, Node.terms?, Option.some.injEq, Retrieve.mk.injEq] at terms
    obtain ⟨-, -, -, sort, window, unique, templates, directives⟩ := terms
    have descending := congrArg (List.map (·.descending)) sort
    simp only [List.map_map, Function.comp_def] at descending
    simp only [before, after] at ranges values
    simp only [Graph.scope, before, after]
    exact ⟨ranges, values, descending, unique, templates, directives, .inl window⟩
  | _ => simp [before, after, Node.terms?] at terms

theorem node_setWindow_of_ne (g : Graph) {id other : NodeId} (ne : other ≠ id)
    (window : Option Window) : (g.setWindow id window).node other = g.node other := by
  unfold Graph.setWindow
  split
  · exact node_setNode_of_ne g (Ne.symm ne) _
  · rfl

theorem scope_setWindow (isRetrieve : (g.node scope).isRetrieve = true) (window : Option Window) :
    (g.setWindow scope window).scope scope = { g.scope scope with window } := by
  obtain ⟨r, node⟩ := Node.exists_of_isRetrieve isRetrieve
  have has : g.Has scope := has_of_node node (by simp)
  simp only [Graph.setWindow, Graph.scope, node, node_setNode_self g has]

/-! ## Frames -/

/-- What a change may do to a scope: its clauses are kept, and each of its values computes what it
did or something that is no ANY. -/
structure Framed (g h : Graph) (scope : NodeId) : Prop where
  stamp : Same Node.stamp g h
  kept : ClausesKept (g.scope scope) (h.scope scope) (g.isTest · = true)
  computes : ∀ value ∈ (g.node scope).values,
    (h.node value).projected? = (g.node value).projected? ∨
      ∃ expression, (h.node value).projected? = some expression ∧ h.Has expression ∧
        (h.node expression).isAny = false

namespace Framed

theorem refl (g : Graph) (scope : NodeId) : Framed g g scope :=
  ⟨.refl _ g, .refl _ _, fun _ _ => .inl rfl⟩

theorem values (framed : Framed g h scope) : (h.node scope).values = (g.node scope).values := by
  rw [← values_scope, framed.kept.values, values_scope]

variable (framed : Framed g h scope) (l : g.Linked root) (isScope : g.ScopeIn root scope)

include framed l isScope

theorem declared : (h.node scope).declared.Perm (g.node scope).declared := by
  have isRetrieve := (framed.stamp.isRetrieve (l.has_of_below isScope.reached)).trans
    isScope.isRetrieve
  rw [← ranges_scope isRetrieve, ← ranges_scope isScope.isRetrieve]
  exact framed.kept.ranges

omit framed in
theorem has_value {value : NodeId} (mem : value ∈ (g.node scope).values) : g.Has value :=
  l.has_of_below (isScope.reached.child (values_subset_children _ mem))

/-- A value that is an ANY by itself was one before. -/
theorem isTest {value : NodeId} (mem : value ∈ (g.node scope).values)
    (test : h.isTest value = true) : g.isTest value = true := by
  rcases framed.computes value mem with same | ⟨expression, projected, -, other⟩
  · unfold Graph.isTest at test ⊢
    rw [same] at test
    cases projected : (g.node value).projected? with
    | none => simp [projected] at test
    | some expression =>
      rw [projected, Option.any_some] at test
      have above := isScope.reached.child (values_subset_children _ mem)
      have has := l.has_of_below (above.child (projected?_mem_children projected))
      rw [framed.stamp.isAny has] at test
      simpa using test
  · simp [Graph.isTest, projected, other] at test

/-- One framed change after the other. -/
theorem trans (framed' : Framed h k scope) : Framed g k scope where
  stamp := framed.stamp.trans framed'.stamp
  kept := framed.kept.trans framed'.kept fun value mem test =>
    framed.isTest l isScope (values_scope g scope ▸ mem) test
  computes value mem := by
    rcases framed'.computes value (framed.values ▸ mem) with same | other
    · rcases framed.computes value mem with before | ⟨expression, projected, has, other⟩
      · exact .inl (same.trans before)
      · exact .inr ⟨expression, same.trans projected, framed'.stamp.has has,
          (framed'.stamp.isAny has).trans other⟩
    · exact .inr other

/-- A change that shows in none of the views is framed. -/
theorem same (stamp : Same Node.stamp h k) (declared : Same Node.declared h k)
    (values : Same Node.values h k) (terms : Same Node.terms? h k)
    (projected : Same Node.projected? h k) : Framed g k scope := by
  have has := framed.stamp.has (l.has_of_below isScope.reached)
  have isRetrieve := (framed.stamp.isRetrieve (l.has_of_below isScope.reached)).trans
    isScope.isRetrieve
  refine framed.trans l isScope ⟨stamp, clausesKept_of_node isRetrieve ?_ ?_ ?_ _, fun value mem => ?_⟩
  · rw [declared.node has]
  · rw [values.node has]
  · rw [terms.node has]
  · rw [framed.values] at mem
    exact .inl (projected.node (framed.stamp.has (has_value l isScope mem)))

theorem unbound (same : ∀ {α : Type} {view : Node → α}, Unbound view → Same view h k)
    (terms : Same Node.terms? h k) : Framed g k scope :=
  framed.same l isScope (same Node.formal_stamp.toUnbound) (same Node.unbound_declared)
    (same Node.unbound_values) terms (same Node.unbound_projected?)

theorem beside (e : Extends h k) : Framed g k scope :=
  framed.unbound l isScope (fun _ => e.same) e.same

/-- A node that is neither a range nor a value of the scope is swapped for one that is no ANY. -/
theorem replace {old new : NodeId} (has : h.Has new) (other : (h.node new).isAny = false)
    (apart : old ∉ (g.node scope).declared) (apart' : old ∉ (g.node scope).values) :
    Framed g (h.replace old new).1 scope := by
  have stamp := Node.formal_stamp.toPlaced.replace h old new
  have hasScope := framed.stamp.has (l.has_of_below isScope.reached)
  have isRetrieve := (framed.stamp.isRetrieve (l.has_of_below isScope.reached)).trans
    isScope.isRetrieve
  rw [← (framed.declared l isScope).mem_iff] at apart
  rw [← framed.values] at apart'
  refine framed.trans l isScope ⟨stamp, clausesKept_of_node isRetrieve ?_ ?_ ?_ _, fun value mem => ?_⟩
  · rcases node_replace_or hasScope old new with same | same <;> rw [same]
    rw [declared_replace_of_not_mem new apart]
  · rcases node_replace_or hasScope old new with same | same <;> rw [same]
    rw [values_replace_of_not_mem new apart']
  · exact (Node.lasting_terms?.replace h old new).node hasScope
  · rw [framed.values] at mem
    have hasValue := framed.stamp.has (has_value l isScope mem)
    rcases node_replace_or hasValue old new with same | same <;> rw [same]
    · exact .inl rfl
    · rcases projected?_replace (h.node value) old new with kept | swapped
      · exact .inl kept
      · exact .inr ⟨new, swapped, stamp.has has, (stamp.isAny has).trans other⟩

/-- Reordering the ranges of a scope is framed. -/
theorem putAnchorFirst (other : NodeId) : Framed g (h.putAnchorFirst other).1 scope := by
  have hasScope := framed.stamp.has (l.has_of_below isScope.reached)
  have isRetrieve := (framed.stamp.isRetrieve (l.has_of_below isScope.reached)).trans
    isScope.isRetrieve
  have nodup := (framed.declared l isScope).nodup_iff.mpr
    (nodup_declared (l.nodup isScope.reached))
  rcases h.putAnchorFirst_cases other with same | ⟨anchor, mem, same⟩ <;> rw [same]
  · exact framed
  · obtain ⟨old, held⟩ : ∃ old, (h.node other).ranges? = some old :=
      Option.isSome_iff_exists.mp (by cases node : h.node other <;> simp_all [Node.declared, Node.ranges?])
    refine framed.trans l isScope ⟨Node.formal_stamp.toPlaced.setRanges h other _,
      clausesKept_of_node isRetrieve ?_ ?_ ?_ _, fun value mem => .inl ?_⟩
    · rw [node_setRanges held hasScope]
      split
      · next here =>
        subst here
        have written : ∀ ranges, ((h.node scope).withRanges ranges).declared = ranges := by
          intro ranges
          cases node : h.node scope <;> simp_all [Node.isRetrieve, Node.withRanges, Node.declared, Node.ranges?]
        rw [written]
        exact perm_anchorFirst nodup mem
      · exact .refl _
    · rw [node_setRanges held hasScope]
      split
      · next here =>
        subst here
        cases node : h.node scope <;> rfl
      · rfl
    · exact (Node.lasting_terms?.setRanges h other _).node hasScope
    · rw [framed.values] at mem
      rw [node_setRanges held (framed.stamp.has (has_value l isScope mem))]
      split
      · next here =>
        subst here
        cases node : h.node value <;> rfl
      · rfl

/-- A window for the first row may be added where a single value is tested. -/
theorem setWindow {other value : NodeId} (none : (h.scope other).window = none)
    (sole : (g.node other).values = [value]) (test : g.isTest value = true) :
    Framed g (h.setWindow other (some { offset := 0, size := 1 })) scope := by
  have stamp : Same Node.stamp h (h.setWindow other (some { offset := 0, size := 1 })) :=
    Node.formal_stamp.toCalm.setWindow ..
  refine ⟨framed.stamp.trans stamp, ?_, fun value mem => ?_⟩
  · by_cases here : scope = other
    · subst here
      have kept := framed.kept
      have isRetrieve := (framed.stamp.isRetrieve (l.has_of_below isScope.reached)).trans
        isScope.isRetrieve
      rw [scope_setWindow isRetrieve]
      refine { kept with window := .inr ⟨?_, rfl, value, values_scope g scope ▸ sole, test⟩ }
      rcases kept.window with same | ⟨before, -⟩
      · rw [← same, none]
      · exact before
    · have same : (h.setWindow other (some { offset := 0, size := 1 })).scope scope = h.scope scope := by
        rw [Graph.scope, node_setWindow_of_ne h here, Graph.scope]
      rw [same]
      exact framed.kept
  · have has := framed.stamp.has (has_value l isScope mem)
    rw [(Node.unbound_projected?.setWindow h other _).node has]
    rcases framed.computes value mem with same | ⟨expression, projected, has, other⟩
    · exact .inl same
    · exact .inr ⟨expression, projected, stamp.has has, (stamp.isAny has).trans other⟩

end Framed

end Graph

end RangeQuery
