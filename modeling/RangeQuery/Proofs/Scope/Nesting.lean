import RangeQuery.Proofs.Graph.Rebinding

/-!
The scopes of a query, from its root down through the queries behind declared ranges. The passes
run over the scopes that the query had at the start, so what they do has to keep this nesting: a
scope goes on declaring its ranges, and a range goes on reading from its query.
-/

namespace RangeQuery

namespace Graph

variable {g h k : Graph}

/-- A scope from a root down: the root, or what a declared range of such a scope reads from. -/
inductive ScopeIn (g : Graph) (root : NodeId) : NodeId → Prop
  | root : (g.node root).isRetrieve = true → ScopeIn g root root
  | nested {scope range inner : NodeId} : ScopeIn g root scope →
      range ∈ (g.node scope).declared → (g.node range).nested? = some inner →
      (g.node inner).isRetrieve = true → ScopeIn g root inner

theorem ScopeIn.isRetrieve {root scope : NodeId} (s : g.ScopeIn root scope) :
    (g.node scope).isRetrieve = true := by
  cases s <;> assumption

theorem ScopeIn.isRetrieve_of_node {root scope : NodeId} {node : Node} (s : g.ScopeIn root scope)
    (is : g.node scope = node) : node.isRetrieve = true :=
  is ▸ s.isRetrieve

theorem declared_subset_children (node : Node) : node.declared ⊆ node.children := by
  intro id mem
  cases node <;> simp_all [Node.declared, Node.ranges?, Node.children]

theorem opensScope_of_declared {node : Node} {range : NodeId} (declared : range ∈ node.declared) :
    node.opensScope = true := by
  cases node <;> simp_all [Node.declared, Node.ranges?, Node.opensScope]

theorem nested?_mem_children {node : Node} {id : NodeId} (nested : node.nested? = some id) :
    id ∈ node.children := by
  cases node <;> simp_all [Node.nested?, Node.children]

theorem isRange_of_nested? {node : Node} {id : NodeId} (nested : node.nested? = some id) :
    node.isRange = true := by
  cases node <;> simp_all [Node.nested?, Node.isRange]

theorem ScopeIn.reached {root scope : NodeId} (s : g.ScopeIn root scope) : g.Below root scope := by
  induction s with
  | root => exact Below.refl g root
  | nested _ declared nested _ ih =>
    exact (ih.child (declared_subset_children _ declared)).child (nested?_mem_children nested)

/-- No scope lies below what a scope owns apart from the ranges that it declares. -/
theorem Linked.not_below_slot {root scope other top : NodeId} (l : g.Linked root)
    (isScope : g.ScopeIn root scope) (isScope' : g.ScopeIn root other)
    (slot : top ∈ g.children other) (apart : top ∉ (g.node other).declared) :
    ¬ g.Below top scope := by
  induction isScope with
  | root _ =>
    intro below
    have reached := isScope'.reached.child slot
    rcases below.eq_or_owner with rfl | ⟨owner, inside, slot'⟩
    · exact l.child_ne_root isScope'.reached slot rfl
    · exact l.child_ne_root (reached.trans inside) slot' rfl
  | @nested outer range inner isOuter declared nested isRetrieve ih =>
    intro below
    have ofRange := nested?_mem_children nested
    have toRange := isOuter.reached.child (declared_subset_children _ declared)
    have reached := isScope'.reached.child slot
    -- The only way down to a nested scope leads through its range, and to that from its scope.
    rcases below.eq_or_owner with rfl | ⟨owner, inside, slot'⟩
    · have same := l.owner_unique isScope'.reached toRange slot ofRange
      subst same
      have kind := isScope'.isRetrieve
      obtain ⟨r, node⟩ := Node.exists_of_isRange (isRange_of_nested? nested)
      rw [node] at kind
      cases kind
    · have same := l.owner_unique (reached.trans inside) toRange slot' ofRange
      subst same
      rcases inside.eq_or_owner with rfl | ⟨owner', inside', slot''⟩
      · exact apart <| l.owner_unique isScope'.reached isOuter.reached slot
          (declared_subset_children _ declared) ▸ declared
      · have same := l.owner_unique (reached.trans inside') isOuter.reached slot''
          (declared_subset_children _ declared)
        exact ih (same ▸ inside')

/-- Nothing that a scope declares lies there either. -/
theorem Linked.not_below_slot_of_declared {root scope other top id : NodeId} (l : g.Linked root)
    (isScope : g.ScopeIn root scope) (isScope' : g.ScopeIn root other)
    (slot : top ∈ g.children other) (apart : top ∉ (g.node other).declared)
    (declared : id ∈ (g.node scope).declared) : ¬ g.Below top id := by
  intro below
  have slot' := declared_subset_children _ declared
  rcases below.eq_or_owner with rfl | ⟨owner, inside, slot''⟩
  · have same := l.owner_unique isScope'.reached isScope.reached slot slot'
    subst same
    exact apart declared
  · have same := l.owner_unique ((isScope'.reached.child slot).trans inside) isScope.reached slot''
      slot'
    exact l.not_below_slot isScope isScope' slot apart (same ▸ inside)

theorem nested?_eq (g : Graph) (id : NodeId) : g.nested? id = (g.node id).nested? := by
  unfold nested? range?
  cases g.node id <;> rfl

/-- From a scope, the scope itself is listed, and what is listed from the queries that its ranges read
from. -/
theorem mem_scopesWithin_succ {depth : Nat} {top scope : NodeId} :
    scope ∈ g.scopesWithin (depth + 1) top ↔ (g.node top).isRetrieve = true ∧
      (scope = top ∨ ∃ range ∈ (g.node top).declared, ∃ inner ∈ (g.node range).nested?,
        scope ∈ g.scopesWithin depth inner) := by
  cases node : g.node top with
  | retrieve r =>
    simp only [scopesWithin, node, List.mem_append, List.mem_flatMap, List.mem_filterMap,
      List.mem_singleton, nested?_eq, Node.isRetrieve, Node.declared, Node.ranges?, Option.getD_some,
      Option.mem_def, true_and]
    constructor
    · rintro (⟨inner, ⟨range, declared, nested⟩, deeper⟩ | here)
      · exact .inr ⟨range, declared, inner, nested, deeper⟩
      · exact .inl here
    · rintro (here | ⟨range, declared, inner, nested, deeper⟩)
      · exact .inr here
      · exact .inl ⟨inner, ⟨range, declared, nested⟩, deeper⟩
  | _ => simp [scopesWithin, node, Node.isRetrieve]

theorem scopeIn_of_mem_scopesWithin {depth : Nat} {root top scope : NodeId}
    (above : (g.node top).isRetrieve = true → g.ScopeIn root top)
    (mem : scope ∈ g.scopesWithin depth top) : g.ScopeIn root scope := by
  induction depth generalizing top with
  | zero => simp [scopesWithin] at mem
  | succ depth ih =>
    obtain ⟨isRetrieve, rfl | ⟨range, declared, inner, nested, deeper⟩⟩ := mem_scopesWithin_succ.mp mem
    · exact above isRetrieve
    · exact ih ((above isRetrieve).nested declared nested) deeper

/-- The scopes that the passes run over lead down from the root. -/
theorem scopeIn_of_mem_scopes {q : Query} {scope : NodeId} (mem : scope ∈ q.scopes) :
    q.graph.ScopeIn q.root scope :=
  scopeIn_of_mem_scopesWithin .root mem

theorem node_of_range? {id : NodeId} {r : Range} (h : g.range? id = some r) :
    g.node id = .range r := by
  unfold range? at h
  split at h
  · cases h; assumption
  · cases h

/-- The clauses of a scope are its children; what is no scope has none. -/
theorem children_scope_subset (g : Graph) (scope : NodeId) :
    (Node.retrieve (g.scope scope)).children ⊆ g.children scope := by
  cases node : g.node scope with
  | retrieve r => simp [Graph.scope, children, node]
  | _ => simp [Graph.scope, node, Retrieve.empty, Node.children]

/-- What hangs in a clause of a retrieve is none of the ranges that it declares. -/
theorem Linked.clause_of_isRetrieve {root scope id : NodeId} (l : g.Linked root)
    (above : g.Below root scope) (isRetrieve : (g.node scope).isRetrieve = true)
    (mem : id ∈ (g.scope scope).values ++ (g.scope scope).condition.toList ++
      (g.scope scope).sort.map (·.expression)) :
    id ∈ g.children scope ∧ id ∉ (g.node scope).declared := by
  have nodup := l.nodup above
  have slots : g.children scope = (g.node scope).declared ++
      ((g.scope scope).values ++ (g.scope scope).condition.toList ++
        (g.scope scope).sort.map (·.expression)) := by
    cases node : g.node scope <;>
      simp_all [Node.isRetrieve, children, Node.children, Node.declared, Node.ranges?, Graph.scope]
  rw [slots] at nodup ⊢
  exact ⟨List.mem_append_right _ mem, fun declared => List.disjoint_of_nodup_append nodup declared mem⟩

theorem Linked.clause_apart {root scope id : NodeId} (l : g.Linked root)
    (isScope : g.ScopeIn root scope)
    (mem : id ∈ (g.scope scope).values ++ (g.scope scope).condition.toList ++
      (g.scope scope).sort.map (·.expression)) :
    id ∈ g.children scope ∧ id ∉ (g.node scope).declared :=
  l.clause_of_isRetrieve isScope.reached isScope.isRetrieve mem

theorem node_of_aggregate? {id : NodeId} {a : Aggregate} (h : g.aggregate? id = some a) :
    g.node id = .aggregate a := by
  unfold aggregate? at h
  split at h
  · cases h; assumption
  · cases h

theorem has_of_aggregate {id : NodeId} {a : Aggregate} (node : g.node id = .aggregate a) :
    g.Has id := has_of_node node (by simp)

theorem isRange_includedRanges (g : Graph) (scope : NodeId) :
    ∀ id ∈ g.includedRanges scope, (g.node id).isRange = true := by
  intro id mem
  cases node : g.node id <;>
    simp_all [includedRanges, range?, Node.isRange]

theorem not_mem_includedRanges {scope id : NodeId} (other : (g.node id).isRange = false) :
    id ∉ g.includedRanges scope := fun mem => by
  rw [isRange_includedRanges g scope id mem] at other
  cases other

theorem join?_eq {id : NodeId} {r : Range} (node : g.node id = .range r) : g.join? id = r.join := by
  simp [join?, range?, node]

theorem isRange_of_join? {range join : NodeId} (held : g.join? range = some join) :
    (g.node range).isRange = true := by
  cases node : g.node range <;> simp_all [join?, range?, Node.isRange]

theorem mem_children_of_join? {id join : NodeId} (held : g.join? id = some join) :
    join ∈ g.children id := by
  cases node : g.node id <;> simp_all [join?, range?, children, Node.children]

theorem mem_includedRanges {scope id : NodeId} (mem : id ∈ g.includedRanges scope) :
    id ∈ (g.node scope).declared ∧ ∃ r, g.node id = .range r ∧ r.included = true := by
  obtain ⟨declared, included⟩ := List.mem_filter.mp mem
  refine ⟨?_, ?_⟩
  · cases node : g.node scope <;>
      simp_all [Graph.scope, Retrieve.empty, Node.declared, Node.ranges?]
  · cases found : g.range? id with
    | none => simp [found] at included
    | some r => exact ⟨r, node_of_range? found, by simpa [found] using included⟩

/-- The old nodes stay what they are, declare the ranges that they declared and read from the
queries that they read from. What takes the place of something declared is no range. -/
structure Keeps (g h : Graph) : Prop where
  stamp : Same Node.stamp g h
  declared : ∀ {scope range}, g.Has scope → g.Has range → (g.node range).isRange = true →
    (range ∈ (h.node scope).declared ↔ range ∈ (g.node scope).declared)
  foreign : ∀ {scope id}, g.Has scope → id ∈ (h.node scope).declared →
    id ∈ (g.node scope).declared ∨
      (g.node scope).declared ≠ [] ∧ h.Has id ∧ (h.node id).isRange = false
  nested : ∀ {range inner}, g.Has range → g.Has inner → (g.node range).nested? = some inner →
    (g.node inner).isRetrieve = true → (h.node range).nested? = some inner

theorem Same.isRetrieve (same : Same Node.stamp g h) {id : NodeId} (has : g.Has id) :
    (h.node id).isRetrieve = (g.node id).isRetrieve := by
  rw [← Node.isRetrieve_stamp, same.node has, Node.isRetrieve_stamp]

theorem Same.isRange (same : Same Node.stamp g h) {id : NodeId} (has : g.Has id) :
    (h.node id).isRange = (g.node id).isRange := by
  rw [← Node.isRange_stamp, same.node has, Node.isRange_stamp]

/-- A range stays one. -/
theorem Same.isRange_mono (same : Same Node.stamp g h) {id : NodeId}
    (isRange : (g.node id).isRange = true) : (h.node id).isRange = true := by
  exact (same.isRange (has_of_isRange isRange)).trans isRange

namespace Keeps

theorem refl (g : Graph) : Keeps g g :=
  ⟨.refl _ g, fun _ _ _ => Iff.rfl, fun _ mem => .inl mem, fun _ _ nested _ => nested⟩

theorem trans (a : Keeps g h) (b : Keeps h k) : Keeps g k where
  stamp := a.stamp.trans b.stamp
  declared has has' isRange :=
    (b.declared (a.stamp.has has) (a.stamp.has has') ((a.stamp.isRange has').trans isRange)).trans
      (a.declared has has' isRange)
  foreign has mem := by
    rcases b.foreign (a.stamp.has has) mem with before | ⟨some, has', noRange⟩
    · rcases a.foreign has before with mem | ⟨some, has', noRange⟩
      · exact .inl mem
      · exact .inr ⟨some, b.stamp.has has', (b.stamp.isRange has').trans noRange⟩
    · obtain ⟨other, held⟩ := List.exists_mem_of_ne_nil _ some
      refine .inr ⟨?_, has', noRange⟩
      rcases a.foreign has held with mem | ⟨some, -⟩
      · exact List.ne_nil_of_mem mem
      · exact some
  nested has has' nested isRetrieve :=
    b.nested (a.stamp.has has) (a.stamp.has has') (a.nested has has' nested isRetrieve)
      ((a.stamp.isRetrieve has').trans isRetrieve)

/-- What changes neither the declared ranges nor the queries behind ranges keeps the nesting. -/
theorem of_unbound (same : ∀ {α : Type} {view : Node → α}, Unbound view → Same view g h) :
    Keeps g h where
  stamp := same Node.formal_stamp.toUnbound
  declared has _ _ := by rw [(same Node.unbound_declared).node has]
  foreign has mem := .inl ((same Node.unbound_declared).node has ▸ mem)
  nested has _ nested _ := by rw [(same Node.unbound_nested?).node has, nested]

theorem of_rigid (same : ∀ {α : Type} {view : Node → α}, Rigid view → Same view g h) :
    Keeps g h :=
  of_unbound fun unbound => same unbound.toRigid

theorem scopeIn (keeps : Keeps g h) {root scope : NodeId} (l : g.Linked root)
    (s : g.ScopeIn root scope) : h.ScopeIn root scope := by
  induction s with
  | root isRetrieve => exact .root ((keeps.stamp.isRetrieve l.has).trans isRetrieve)
  | @nested scope range inner outer declared nested isRetrieve ih =>
    have above := outer.reached.child (declared_subset_children _ declared)
    have has := l.has_of_below outer.reached
    have has' := l.has_of_below above
    have has'' := l.has_of_below (above.child (nested?_mem_children nested))
    exact ih.nested ((keeps.declared has has' (isRange_of_nested? nested)).mpr declared)
      (keeps.nested has' has'' nested isRetrieve) ((keeps.stamp.isRetrieve has'').trans isRetrieve)

/-- What changes neither the declared ranges nor the queries behind ranges makes no new scopes. -/
theorem scopeIn_before (same : ∀ {α : Type} {view : Node → α}, Unbound view → Same view g h)
    {root scope : NodeId} (l : g.Linked root) (s : h.ScopeIn root scope) : g.ScopeIn root scope := by
  have stamp := same Node.formal_stamp.toUnbound
  induction s with
  | root isRetrieve => exact .root ((stamp.isRetrieve l.has).symm.trans isRetrieve)
  | @nested scope range inner _ declared nested isRetrieve ih =>
    rw [(same Node.unbound_declared).node (l.has_of_below ih.reached)] at declared
    have above := ih.reached.child (declared_subset_children _ declared)
    rw [(same Node.unbound_nested?).node (l.has_of_below above)] at nested
    have has := l.has_of_below (above.child (nested?_mem_children nested))
    exact ih.nested declared nested ((stamp.isRetrieve has).symm.trans isRetrieve)

/-! ## Swapped children -/

theorem mem_take_replace {ids : List NodeId} {old new id : NodeId} (ne : id ≠ old) (ne' : id ≠ new)
    (count : Nat) : id ∈ (ids.replace old new).take count ↔ id ∈ ids.take count := by
  induction ids generalizing count with
  | nil => simp
  | cons first rest ih =>
    cases count with
    | zero => simp
    | succ count =>
      by_cases same : first = old
      · subst same
        simp [ne, ne']
      · have apart : (old == first) = false := by simpa using Ne.symm same
        rw [List.replace_cons, apart]
        simp [ih count]

theorem mem_declared_replace {node : Node} {old new id : NodeId} (ne : id ≠ old) (ne' : id ≠ new) :
    id ∈ (node.withChildren (node.children.replace old new)).declared ↔ id ∈ node.declared := by
  cases node with
  | retrieve r =>
    simp only [Node.withChildren, Retrieve.withChildren, Node.declared, Node.ranges?,
      Option.getD_some, Node.children, mem_take_replace ne ne', List.append_assoc,
      List.take_left]
  | subquery s =>
    simp only [Node.withChildren, Subquery.withChildren, Node.declared, Node.ranges?,
      Option.getD_some, Node.children, mem_take_replace ne ne', List.append_assoc,
      List.take_left]
  | _ => exact Iff.rfl

theorem eq_of_mem_take_replace {ids : List NodeId} {old new id : NodeId} {count : Nat}
    (mem : id ∈ (ids.replace old new).take count) (other : id ∉ ids.take count) :
    id = new ∧ ids.take count ≠ [] := by
  induction ids generalizing count with
  | nil => simp at mem
  | cons first rest ih =>
    cases count with
    | zero => simp at mem
    | succ count =>
      refine ⟨?_, by simp⟩
      rw [List.replace_cons] at mem
      simp only [List.take_succ_cons, List.mem_cons, not_or] at other
      split at mem
      · exact (List.mem_cons.mp mem).resolve_right other.2
      · exact (ih ((List.mem_cons.mp mem).resolve_left other.1) other.2).1

/-- What is newly declared after a swap is the new child, in the place of something declared. -/
theorem eq_of_mem_declared_replace {node : Node} {old new id : NodeId}
    (mem : id ∈ (node.withChildren (node.children.replace old new)).declared)
    (other : id ∉ node.declared) : id = new ∧ node.declared ≠ [] := by
  cases node with
  | retrieve r =>
    have front : (Node.retrieve r).children.take r.ranges.length = r.ranges := by
      simp only [Node.children, List.append_assoc, List.take_left]
    have new := eq_of_mem_take_replace mem (front.symm ▸ other)
    rwa [front] at new
  | subquery s =>
    have front : (Node.subquery s).children.take s.ranges.length = s.ranges := by
      simp only [Node.children, List.append_assoc, List.take_left]
    have new := eq_of_mem_take_replace mem (front.symm ▸ other)
    rwa [front] at new
  | _ => exact absurd mem other

theorem nested?_replace {node : Node} {old new id : NodeId} (ne : id ≠ old)
    (nested : node.nested? = some id) :
    (node.withChildren (node.children.replace old new)).nested? = some id := by
  cases node with
  | range r =>
    obtain ⟨_, _, join, _, _, _⟩ := r
    obtain rfl : _ = some id := nested
    have apart : (old == id) = false := by simpa using Ne.symm ne
    cases join with
    | none =>
      simp [Node.withChildren, Range.withChildren, Node.children, Node.nested?, List.replace_cons,
        apart]
    | some join =>
      cases same : old == join <;>
        simp [Node.withChildren, Range.withChildren, Node.children, Node.nested?,
          List.replace_cons, same, apart]
  | _ => simp [Node.nested?] at nested

/-- Swapping a child that is neither a range nor a scope for one that is no range keeps the
nesting. -/
theorem replaceChild {owner old new : NodeId} (range : (g.node old).isRange = false)
    (scope : (g.node old).isRetrieve = false) (has' : g.Has new)
    (range' : (g.node new).isRange = false) :
    Keeps g (g.replaceChild owner old new).1 := by
  have stamp := Node.formal_stamp.toSlotless.replaceChild g owner old new
  refine ⟨stamp, ?_, ?_, ?_⟩
  · intro scope other has _ isRange
    rw [node_replaceChild has]
    split
    · refine mem_declared_replace ?_ ?_ <;> rintro rfl <;> simp_all
    · exact Iff.rfl
  · intro scope id has mem
    rw [node_replaceChild has] at mem
    split at mem
    · refine or_iff_not_imp_left.mpr fun other => ?_
      obtain ⟨rfl, some⟩ := eq_of_mem_declared_replace mem other
      exact ⟨some, stamp.has has', (stamp.isRange has').trans range'⟩
    · exact .inl mem
  · intro other inner has _ nested isRetrieve
    rw [node_replaceChild has]
    split
    · refine nested?_replace ?_ nested
      rintro rfl
      simp_all
    · exact nested

theorem replace {old new : NodeId} (range : (g.node old).isRange = false)
    (scope : (g.node old).isRetrieve = false) (has' : g.Has new)
    (range' : (g.node new).isRange = false) : Keeps g (g.replace old new).1 := by
  unfold Graph.replace
  cases g.parent old with
  | some owner => exact replaceChild range scope has' range'
  | none => exact .refl g

/-- Swapping what an aggregate is over keeps the nesting. -/
theorem replaceChild_of_aggregate {owner old new : NodeId} {a : Aggregate}
    (aggregate : g.node owner = .aggregate a) : Keeps g (g.replaceChild owner old new).1 := by
  have declared : ∀ {scope}, g.Has scope →
      ((g.replaceChild owner old new).1.node scope).declared = (g.node scope).declared := by
    intro scope has
    rw [node_replaceChild has]
    split
    · next same => rw [same, aggregate]; rfl
    · rfl
  refine ⟨Node.formal_stamp.toSlotless.replaceChild g owner old new,
    fun has _ _ => by rw [declared has], fun has mem => .inl (declared has ▸ mem), ?_⟩
  · intro other inner has _ nested _
    rw [node_replaceChild has]
    split
    · next same => rw [same, aggregate] at nested; cases nested
    · exact nested

end Keeps

end Graph

end RangeQuery
