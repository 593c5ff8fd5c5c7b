import RangeQuery.Proofs.Graph.Exchange
import RangeQuery.Scope.Basic

/-!
What a change leaves as it was. A view of nodes that does not look at slots tells the same of every
old node after a change of slots; work beside a query even leaves the old nodes and their owners.
-/

namespace RangeQuery

/-- What a node is apart from its slots, the demand for a partner row and the window. -/
def Node.label : Node → Node
  | .retrieve r =>
    .retrieve { r with
      ranges := [], values := [], condition := none, sort := [], window := none
      templates := .empty }
  | .range r => .range { r with join := none, required := false, nested := none }
  | .binary op _ _ => .binary op default default
  | .not _ => .not default
  | .nullCheck _ negated => .nullCheck default negated
  | .rowExists _ => .rowExists default
  | .aggregate a => .aggregate { a with operand := default, condition := none }
  | .caseWhen _ => .caseWhen { condition := default, result := default, otherwise := none }
  | .subquery s => .subquery { s with ranges := [], expression := none, condition := none }
  | .projection p => .projection { p with expression := default }
  | node => node

/-- The label without the range of an identifier and without the mark of an excluded range. -/
def Node.stamp (node : Node) : Node :=
  match node.label with
  | .range r => .range { r with included := false }
  | .identifier i => .identifier { i with range := default }
  | label => label

/-- The ranges that a node declares. -/
def Node.declared (node : Node) : List NodeId := node.ranges?.getD []

/-- The query that a range reads from. -/
def Node.nested? : Node → Option NodeId
  | .range r => r.nested
  | _ => none

/-- A range. -/
def Node.isRange : Node → Bool
  | .range _ => true
  | _ => false

/-- A subquery. -/
def Node.isSubquery : Node → Bool
  | .subquery _ => true
  | _ => false

/-- A view of nodes that changes neither with a window nor with a condition. -/
structure Calm {α : Type} (view : Node → α) : Prop where
  window : ∀ r window, view (.retrieve { r with window }) = view (.retrieve r)
  condition : ∀ {node changed condition}, node.withCondition? condition = some changed →
    view changed = view node

/-- A calm view that does not change with a demand for a partner row either. -/
structure Steady {α : Type} (view : Node → α) : Prop extends Calm view where
  required : ∀ r required, view (.range { r with required }) = view (.range r)

/-- A view that does not change with a join predicate. -/
structure Unjoined {α : Type} (view : Node → α) : Prop where
  join : ∀ r join, view (.range { r with join }) = view (.range r)

/-- A steady view that does not change with a join predicate either. -/
structure Rigid {α : Type} (view : Node → α) : Prop extends Steady view, Unjoined view

/-- A calm view that does not change with what the slots hold; it may look at whether a range has a
join predicate. -/
structure Placed {α : Type} (view : Node → α) : Prop extends Calm view where
  ranges : ∀ node ranges, view (node.withRanges ranges) = view node
  children : ∀ node handles, view (node.withChildren handles) = view node

/-- A view that is both. -/
structure Seated {α : Type} (view : Node → α) : Prop extends Steady view, Placed view

/-- A view that does not change with the slots at all. -/
structure Slotless {α : Type} (view : Node → α) : Prop extends Rigid view, Seated view

/-- A view that looks neither at the ranges of identifiers nor at the marks of excluded ranges. -/
structure Unbound {α : Type} (view : Node → α) : Prop extends Rigid view where
  range : ∀ i range, view (.identifier { i with range }) = view (.identifier i)
  included : ∀ r included, view (.range { r with included }) = view (.range r)

/-- A slotless view that looks at neither. -/
structure Formal {α : Type} (view : Node → α) : Prop extends Slotless view, Unbound view

theorem Node.slotless_label : Slotless Node.label where
  join _ _ := rfl
  required _ _ := rfl
  window _ _ := rfl
  ranges node _ := by cases node <;> rfl
  children node _ := by cases node <;> rfl
  condition {node _ _} h := by
    cases node <;> simp only [withCondition?, Option.some.injEq, reduceCtorEq] at h <;> subst h <;>
      rfl

theorem Node.formal_stamp : Formal Node.stamp where
  join _ _ := rfl
  required _ _ := rfl
  window _ _ := rfl
  ranges node handles := by rw [stamp, slotless_label.ranges, ← stamp]
  children node handles := by rw [stamp, slotless_label.children, ← stamp]
  condition h := by rw [stamp, slotless_label.condition h, ← stamp]
  range _ _ := rfl
  included _ _ := rfl

theorem Node.formal_templateBodies : Formal Node.templateBodies where
  join _ _ := rfl
  required _ _ := rfl
  window _ _ := rfl
  ranges node _ := by cases node <;> rfl
  children node _ := by cases node <;> rfl
  condition {node _ _} h := by
    cases node <;> simp only [withCondition?, Option.some.injEq, reduceCtorEq] at h <;> subst h <;>
      rfl
  range _ _ := rfl
  included _ _ := rfl

theorem Node.formal_opensScope : Formal Node.opensScope where
  join _ _ := rfl
  required _ _ := rfl
  window _ _ := rfl
  ranges node _ := by cases node <;> rfl
  children node handles := node.opensScope_withChildren handles
  condition h := opensScope_withCondition? h
  range _ _ := rfl
  included _ _ := rfl

theorem Node.unbound_declared : Unbound Node.declared where
  join _ _ := rfl
  required _ _ := rfl
  window _ _ := rfl
  condition {node _ _} h := by
    cases node <;> simp only [withCondition?, Option.some.injEq, reduceCtorEq] at h <;> subst h <;>
      rfl
  range _ _ := rfl
  included _ _ := rfl

theorem Node.unbound_nested? : Unbound Node.nested? where
  join _ _ := rfl
  required _ _ := rfl
  window _ _ := rfl
  condition {node _ _} h := by
    cases node <;> simp only [withCondition?, Option.some.injEq, reduceCtorEq] at h <;> subst h <;>
      rfl
  range _ _ := rfl
  included _ _ := rfl

theorem Node.isRange_stamp (node : Node) : node.stamp.isRange = node.isRange := by
  cases node <;> rfl

theorem Node.isSubquery_stamp (node : Node) : node.stamp.isSubquery = node.isSubquery := by
  cases node <;> rfl

theorem Node.exists_of_isSubquery {node : Node} (h : node.isSubquery = true) :
    ∃ s, node = .subquery s := by
  cases node <;> simp_all [isSubquery]

theorem Node.exists_of_isRetrieve {node : Node} (h : node.isRetrieve = true) :
    ∃ r, node = .retrieve r := by
  cases node <;> simp_all [isRetrieve]

theorem Node.exists_of_isRange {node : Node} (h : node.isRange = true) : ∃ r, node = .range r := by
  cases node <;> simp_all [isRange]

theorem Node.opensScope_of_isRange {node : Node} (h : node.isRange = true) :
    node.opensScope = false := by
  obtain ⟨r, rfl⟩ := exists_of_isRange h
  rfl

theorem Node.isRetrieve_stamp (node : Node) : node.stamp.isRetrieve = node.isRetrieve := by
  cases node <;> rfl

namespace Graph

/-- A view tells the same of every old node. -/
structure Same {α : Type} (view : Node → α) (g h : Graph) : Prop where
  size : g.size ≤ h.size
  node : ∀ {id}, g.Has id → view (h.node id) = view (g.node id)

/-- The old nodes and their recorded owners are untouched. -/
structure Extends (g h : Graph) : Prop where
  size : g.size ≤ h.size
  node : ∀ {id}, g.Has id → h.node id = g.node id
  parent : ∀ {id}, g.Has id → h.parent id = g.parent id

variable {α : Type} {view : Node → α} {g h k : Graph}

theorem node_of_not_has {id : NodeId} (h : ¬ g.Has id) : g.node id = .null := by
  have none : g.slots[id.index]? = .none := Array.getElem?_eq_none (Nat.le_of_not_lt h)
  simp [node, none]

/-- What is anything but NULL has a slot. -/
theorem has_of_node {id : NodeId} {node : Node} (is : g.node id = node) (other : node ≠ .null) :
    g.Has id := by
  by_contra absent
  exact other (is.symm.trans (node_of_not_has absent))

theorem has_of_isRange {id : NodeId} (isRange : (g.node id).isRange = true) : g.Has id := by
  obtain ⟨r, node⟩ := Node.exists_of_isRange isRange
  exact has_of_node node (by simp)

theorem has_of_isRetrieve {id : NodeId} (isRetrieve : (g.node id).isRetrieve = true) :
    g.Has id := by
  obtain ⟨r, node⟩ := Node.exists_of_isRetrieve isRetrieve
  exact has_of_node node (by simp)

theorem Same.refl (view : Node → α) (g : Graph) : Same view g g := ⟨Nat.le_refl _, fun _ => rfl⟩

theorem Same.has (s : Same view g h) {id : NodeId} (has : g.Has id) : h.Has id :=
  Nat.lt_of_lt_of_le has s.size

theorem Same.trans (s : Same view g h) (t : Same view h k) : Same view g k :=
  ⟨Nat.le_trans s.size t.size, fun has => (t.node (s.has has)).trans (s.node has)⟩

/-- A view that can be read off another one tells the same too. -/
theorem Same.coarser {β : Type} {fine : Node → β} (s : Same fine g h) (read : β → α)
    (factor : ∀ node, view node = read (fine node)) : Same view g h :=
  ⟨s.size, fun has => by rw [factor, factor, s.node has]⟩

theorem Same.of_node (size : h.size = g.size) (node : ∀ id, h.node id = g.node id) :
    Same view g h :=
  ⟨Nat.le_of_eq size.symm, fun _ => by rw [node]⟩

theorem Extends.refl (g : Graph) : Extends g g := ⟨Nat.le_refl _, fun _ => rfl, fun _ => rfl⟩

theorem Extends.has (e : Extends g h) {id : NodeId} (has : g.Has id) : h.Has id :=
  Nat.lt_of_lt_of_le has e.size

theorem Extends.trans (e : Extends g h) (f : Extends h k) : Extends g k :=
  ⟨Nat.le_trans e.size f.size, fun has => (f.node (e.has has)).trans (e.node has),
    fun has => (f.parent (e.has has)).trans (e.parent has)⟩

theorem Extends.same (e : Extends g h) : Same view g h :=
  ⟨e.size, fun has => by rw [e.node has]⟩

/-- A stamp tells the name of a range. -/
theorem rangeName_of_stamp {id other : NodeId}
    (same : (h.node other).stamp = (g.node id).stamp) : h.rangeName other = g.rangeName id := by
  cases before : g.node id <;> cases after : h.node other <;>
    simp_all [Graph.rangeName, Node.stamp, Node.label]

theorem Same.rangeName (same : Same Node.stamp g h) {id : NodeId} (has : g.Has id) :
    h.rangeName id = g.rangeName id := rangeName_of_stamp (same.node has)

/-! ## Changes of labels -/

/-- Only labels differ: the slots, the recorded owners and what opens a scope are the same. -/
structure Relabels (g h : Graph) : Prop where
  size : h.size = g.size
  children : ∀ id, h.children id = g.children id
  parent : ∀ id, h.parent id = g.parent id
  scope : ∀ id, (h.node id).opensScope = (g.node id).opensScope

namespace Relabels

theorem refl (g : Graph) : Relabels g g := ⟨rfl, fun _ => rfl, fun _ => rfl, fun _ => rfl⟩

theorem trans (a : Relabels g h) (b : Relabels h k) : Relabels g k :=
  ⟨b.size.trans a.size, fun id => (b.children id).trans (a.children id),
    fun id => (b.parent id).trans (a.parent id), fun id => (b.scope id).trans (a.scope id)⟩

theorem has (r : Relabels g h) {id : NodeId} : h.Has id ↔ g.Has id := by
  rw [Has, Has, r.size]

theorem linked (r : Relabels g h) {root : NodeId} (l : g.Linked root) : h.Linked root :=
  l.congr (Nat.le_of_eq r.size.symm) r.children r.parent

theorem below (r : Relabels g h) {root id : NodeId} : h.Below root id ↔ g.Below root id :=
  below_congr r.children

theorem enter (r : Relabels g h) (id : NodeId) (level : List NodeId) :
    h.enter id level = g.enter id level := by
  rw [Graph.enter, Graph.enter, r.scope]

theorem zone (r : Relabels g h) {roots zone : Set NodeId} {loose : Set (NodeId × NodeId)}
    {level : NodeId → List NodeId} (z : g.Zone roots loose zone level) :
    h.Zone roots loose zone level :=
  z.relabel (fun _ mem => r.has.mpr (z.has mem)) (fun id _ => r.children id)
    (fun id _ => r.scope id) fun id _ => r.parent id

theorem ready (r : Relabels g h) {roots zone : Set NodeId} {loose : Set (NodeId × NodeId)}
    {level : NodeId → List NodeId} {scopes : List NodeId} {id : NodeId}
    (ready : g.Ready roots loose zone level scopes id) :
    h.Ready roots loose zone level scopes id :=
  ⟨ready.mem, ready.free.relabel fun id _ => r.children id, ready.nonroot, by
    rw [ready.level, r.enter]⟩

theorem setNode {id : NodeId} {node : Node} (children : node.children = g.children id)
    (scope : node.opensScope = (g.node id).opensScope) : Relabels g (g.setNode id node) where
  size := size_setNode g id node
  children other := by
    by_cases here : id = other
    · subst here
      by_cases has : g.Has id
      · rw [Graph.children, node_setNode_self g has, children]
      · have has' : ¬ (g.setNode id node).Has id := by rwa [Has, size_setNode]
        rw [Graph.children, Graph.children, node_of_not_has has, node_of_not_has has']
    · exact children_setNode_of_ne g here node
  parent other := parent_setNode g id other node
  scope := opensScope_setNode scope

theorem updateRange (g : Graph) (id : NodeId) {change : Range → Range}
    (same : ∀ r, (change r).join = r.join ∧ (change r).nested = r.nested) :
    Relabels g (g.updateRange id change) := by
  cases h : g.node id with
  | range r =>
    simp only [Graph.updateRange, h]
    refine setNode ?_ (by rw [h]; rfl)
    rw [Graph.children, h, Node.children, Node.children, (same r).1, (same r).2]
  | _ => simpa only [Graph.updateRange, h] using refl g

theorem setRequired (g : Graph) (id : NodeId) (required : Bool) :
    Relabels g (g.setRequired id required) := updateRange g id fun _ => ⟨rfl, rfl⟩

theorem exclude (g : Graph) (id : NodeId) : Relabels g (g.exclude id) :=
  updateRange g id fun _ => ⟨rfl, rfl⟩

theorem setWindow (g : Graph) (id : NodeId) (window : Option Window) :
    Relabels g (g.setWindow id window) := by
  cases h : g.node id with
  | retrieve r =>
    simp only [Graph.setWindow, h]
    exact setNode (by rw [Graph.children, h]; rfl) (by rw [h]; rfl)
  | _ => simpa only [Graph.setWindow, h] using refl g

theorem foldl {change : Graph → NodeId → Graph} (each : ∀ g id, Relabels g (change g id))
    (g : Graph) (ids : List NodeId) : Relabels g (ids.foldl change g) := by
  induction ids generalizing g with
  | nil => exact refl g
  | cons id rest ih => exact (each g id).trans (ih _)

end Relabels

theorem Same.foldl {change : Graph → NodeId → Graph} (each : ∀ g id, Same view g (change g id))
    (g : Graph) (ids : List NodeId) : Same view g (ids.foldl change g) := by
  induction ids generalizing g with
  | nil => exact .refl view g
  | cons id rest ih => exact (each g id).trans (ih _)

/-! ## Setters -/

theorem Same.setNode {id : NodeId} {node : Node} (same : view node = view (g.node id)) :
    Same view g (g.setNode id node) := by
  refine ⟨Nat.le_of_eq (size_setNode g id node).symm, fun {other} has => ?_⟩
  by_cases here : id = other
  · subst here
    rw [node_setNode_self g has, same]
  · rw [node_setNode_of_ne g here]

theorem Same.relink (s : Same view g h) (owner : NodeId) (old new : Option NodeId) :
    Same view g (h.relink owner old new) :=
  s.trans (.of_node (size_relink ..) fun id => node_relink h owner id old new)

theorem Same.updateRange (id : NodeId) {change : Range → Range}
    (same : ∀ r, view (.range (change r)) = view (.range r)) :
    Same view g (g.updateRange id change) := by
  cases h : g.node id with
  | range r =>
    simp only [Graph.updateRange, h]
    exact .setNode (by rw [h, same])
  | _ => simpa only [Graph.updateRange, h] using .refl view g

end Graph

open RangeQuery.Graph

theorem Steady.setRequired {α : Type} {view : Node → α} (steady : Steady view) (g : Graph)
    (id : NodeId) (required : Bool) : Same view g (g.setRequired id required) :=
  .updateRange id fun r => steady.required r required

namespace Calm

variable {α : Type} {view : Node → α} (calm : Calm view)

include calm

theorem setCondition (g : Graph) (id : NodeId) (condition : Option NodeId) :
    Same view g (g.setCondition id condition) := by
  cases h : (g.node id).withCondition? condition with
  | some node =>
    rw [setCondition_eq h]
    exact (Same.setNode (calm.condition h)).relink ..
  | none => simpa only [Graph.setCondition, h] using .refl view g

theorem setWindow (g : Graph) (id : NodeId) (window : Option Window) :
    Same view g (g.setWindow id window) := by
  cases h : g.node id with
  | retrieve r =>
    simp only [Graph.setWindow, h]
    exact .setNode (by rw [h, calm.window])
  | _ => simpa only [Graph.setWindow, h] using .refl view g

end Calm

theorem Unjoined.setJoin {α : Type} {view : Node → α} (unjoined : Unjoined view) (g : Graph)
    (id : NodeId) (join : Option NodeId) : Same view g (g.setJoin id join) := by
  cases h : g.node id with
  | range r =>
    rw [setJoin_eq h]
    exact (Same.setNode (by rw [h, unjoined.join])).relink ..
  | _ => simpa only [Graph.setJoin, h] using .refl view g

namespace Placed

variable {α : Type} {view : Node → α} (placed : Placed view)

include placed

theorem setRanges (g : Graph) (id : NodeId) (ranges : List NodeId) :
    Same view g (g.setRanges id ranges) := by
  cases h : (g.node id).ranges? with
  | some old =>
    simp only [Graph.setRanges, h]
    refine (Same.setNode (placed.ranges (g.node id) ranges)).trans
      (.of_node ?_ fun other => ?_)
    · rw [size_adopt, size_release]
    · rw [node_adopt, node_release]
  | none => simpa only [Graph.setRanges, h] using .refl view g

theorem replaceChild (g : Graph) (owner old new : NodeId) :
    Same view g (g.replaceChild owner old new).1 := by
  by_cases slot : old ∈ g.children owner
  · rw [replaceChild_of_mem slot]
    have written : Same view g (g.setNode owner
        ((g.node owner).withChildren ((g.children owner).replace old new))) :=
      .setNode (placed.children _ _)
    refine written.trans (.of_node ?_ fun other => ?_)
    · rw [size_setParent, size_release]
    · rw [node_setParent, node_release]
  · rw [replaceChild_of_not_mem slot]
    exact .refl view g

theorem replace (g : Graph) (old new : NodeId) : Same view g (g.replace old new).1 := by
  unfold Graph.replace
  cases g.parent old with
  | some owner => exact placed.replaceChild g owner old new
  | none => exact .refl view g

end Placed

theorem Unbound.exclude {α : Type} {view : Node → α} (unbound : Unbound view) (g : Graph)
    (id : NodeId) : Same view g (g.exclude id) :=
  .updateRange id fun r => unbound.included r false

namespace Graph

variable {α : Type} {g h : Graph}

/-! ## New nodes -/

/-- A new node over new nodes, or over none, leaves the old ones. -/
theorem Extends.add (e : Extends g h) (node : Node) (new : ∀ child ∈ node.children, ¬ g.Has child) :
    Extends g (h.add node).1 where
  size := by rw [size_add]; exact Nat.le_succ_of_le e.size
  node has := by rw [node_add (e.has has), e.node has]
  parent has := by
    rw [parent_add_of_not_mem (ne_next_of_has (e.has has)) fun slot => new _ slot has, e.parent has]

theorem Same.add (view : Node → α) (g : Graph) (node : Node) : Same view g (g.add node).1 :=
  ⟨by rw [size_add]; exact Nat.le_succ _, fun has => by rw [node_add has]⟩

theorem Same.conjoinOnto (view : Node → α) (g : Graph) (first : NodeId) (rest : List NodeId) :
    Same view g (g.conjoinOnto first rest).1 := by
  induction rest generalizing g first with
  | nil => exact .refl view g
  | cons next rest ih =>
    exact (Same.add view g (.binary .and first next)).trans (ih (g.addBinary .and first next).1 _)

theorem Same.conjoin (view : Node → α) (g : Graph) (ids : List NodeId) :
    Same view g (g.conjoin ids).1 := by
  cases ids with
  | nil => exact .refl view g
  | cons first rest => exact Same.conjoinOnto view g first rest

theorem Same.conjoinWith (view : Node → α) (g : Graph) (condition : Option NodeId)
    (extra : NodeId) : Same view g (g.conjoinWith condition extra).1 := by
  cases condition with
  | none => exact .refl view g
  | some existing => exact Same.add view g _

/-! ## Changes of ranges -/

/-- The old nodes are untouched, apart from ranges and some others. -/
structure Spares (g h : Graph) (others : Set NodeId) : Prop where
  size : g.size ≤ h.size
  node : ∀ {id}, g.Has id → id ∉ others → (g.node id).isRange = false → h.node id = g.node id

namespace Spares

variable {k : Graph} {others : Set NodeId}

theorem of_same (same : Same (fun node => node) g h) : Spares g h others :=
  ⟨same.size, fun has _ _ => same.node has⟩

theorem refl (g : Graph) : Spares g g others := of_same (.refl _ g)

theorem trans (a : Spares g h others) (b : Spares h k others) : Spares g k others where
  size := a.size.trans b.size
  node {id} has out noRange := by
    have same := a.node has out noRange
    rw [b.node (Nat.lt_of_lt_of_le has a.size) out (by rw [same, noRange]), same]

theorem updateRange (g : Graph) (id : NodeId) (change : Range → Range) :
    Spares g (g.updateRange id change) others := by
  cases kind : g.node id with
  | range r =>
    refine ⟨Nat.le_of_eq ?_, fun {other} _ _ noRange => node_updateRange_of_ne g ?_ change⟩
    · simp only [Graph.updateRange, kind, size_setNode]
    · rintro rfl
      simp [kind, Node.isRange] at noRange
  | _ => simpa only [Graph.updateRange, kind] using refl g

theorem setRequired (g : Graph) (id : NodeId) (required : Bool) :
    Spares g (g.setRequired id required) others := updateRange g id _

theorem exclude (g : Graph) (id : NodeId) : Spares g (g.exclude id) others := updateRange g id _

theorem setJoin (g : Graph) (id : NodeId) (join : Option NodeId) :
    Spares g (g.setJoin id join) others := by
  refine ⟨Nat.le_of_eq (size_setJoin g id join).symm, fun {other} _ _ noRange => ?_⟩
  cases kind : g.node id with
  | range r =>
    refine node_setJoin_of_ne g ?_ join
    rintro rfl
    simp [kind, Node.isRange] at noRange
  | _ => simp only [Graph.setJoin, kind]

theorem setCondition (g : Graph) (id : NodeId) (condition : Option NodeId) :
    Spares g (g.setCondition id condition) {id} where
  size := Nat.le_of_eq (size_setCondition g id condition).symm
  node _ out _ := node_setCondition_of_ne g out condition

theorem foldl {change : Graph → NodeId → Graph} (each : ∀ g id, Spares g (change g id) others)
    (g : Graph) (ids : List NodeId) : Spares g (ids.foldl change g) others := by
  induction ids generalizing g with
  | nil => exact refl g
  | cons id rest ih => exact (each g id).trans (ih _)

end Spares

end Graph

end RangeQuery
