import RangeQuery.Proofs.Scope.AggregateCondition
import RangeQuery.Proofs.Scope.Anchor
import RangeQuery.Proofs.Scope.ExistenceMarker
import RangeQuery.Proofs.Scope.Expansion
import RangeQuery.Proofs.Scope.Requiredness
import RangeQuery.Proofs.Scope.SelfJoin

/-!
What nothing but an inlined ANY changes. A blind view does not see what is done to ranges and
identifiers. A lasting view looks past these and past what the slots of the other nodes hold, but it
may look at how many there are and at the window; of all that is done to a scope only the window
that an inlined ANY asks for can be seen.
-/

namespace RangeQuery

/-- A view that looks neither at ranges nor at identifiers. -/
structure Blind {α : Type} (view : Node → α) : Prop where
  range : ∀ r r', view (.range r) = view (.range r')
  identifier : ∀ i i', view (.identifier i) = view (.identifier i')

/-- A blind view that does not look at what the slots hold either. -/
structure Lasting {α : Type} (view : Node → α) : Prop extends Blind view where
  condition : ∀ {node changed condition}, node.withCondition? condition = some changed →
    view changed = view node
  ranges : ∀ node ranges, view (node.withRanges ranges) = view node
  children : ∀ node handles, handles.length = node.children.length →
    view (node.withChildren handles) = view node

/-- What a scope says apart from the ranges, values and conditions in its slots: how it sorts, which
rows it wants, and its templates and directives. -/
def Node.terms? : Node → Option Retrieve
  | .retrieve r => some { r with
      ranges := [], values := [], condition := none
      sort := r.sort.map fun item => { item with expression := default } }
  | _ => none

theorem map_zipWith_expression {sort : List SortItem} {handles : List NodeId}
    (length : handles.length = sort.length) :
    (List.zipWith (fun item expression => ({ item with expression } : SortItem)) sort handles).map
        (fun item => ({ item with expression := default } : SortItem)) =
      sort.map fun item => { item with expression := default } := by
  induction sort generalizing handles with
  | nil => simp
  | cons item rest ih =>
    cases handles with
    | nil => simp at length
    | cons handle handles => simpa using ih (by simpa using length)

theorem Node.lasting_terms? : Lasting Node.terms? where
  range _ _ := rfl
  identifier _ _ := rfl
  condition {node _ _} h := by
    cases node <;> simp only [withCondition?, Option.some.injEq, reduceCtorEq] at h <;> subst h <;>
      rfl
  ranges node _ := by cases node <;> rfl
  children node handles length := by
    cases node with
    | retrieve r =>
      simp only [Node.children, List.length_append, List.length_map] at length
      simp only [withChildren, Retrieve.withChildren, terms?]
      rw [map_zipWith_expression (by simp only [List.length_drop]; omega)]
    | _ => rfl

open RangeQuery.Graph

/-! ## Changes of ranges and identifiers -/

namespace Blind

variable {α : Type} {view : Node → α} (blind : Blind view)

include blind

theorem unjoined : Unjoined view := ⟨fun _ _ => blind.range _ _⟩

theorem updateRange (g : Graph) (id : NodeId) (change : Range → Range) :
    Same view g (g.updateRange id change) :=
  .updateRange id fun _ => blind.range _ _

theorem setRequired (g : Graph) (id : NodeId) (required : Bool) :
    Same view g (g.setRequired id required) := blind.updateRange g id _

theorem exclude (g : Graph) (id : NodeId) : Same view g (g.exclude id) := blind.updateRange g id _

theorem rebind (g : Graph) (root : NodeId) (names : Renaming) :
    Same view g (g.rebind root names).1 := by
  rw [fst_rebind]
  refine .foldl (fun g id => .setNode ?_) g _
  cases g.node id with
  | identifier i => exact blind.identifier _ _
  | _ => rfl

theorem mergePair (g : Graph) (scope : NodeId) (pair : IdentityPair) :
    Same view g (g.mergePair scope pair) := by
  have rejoined : Same view g (g.rejoined pair) := by
    unfold Graph.rejoined Graph.inheritJoin
    split
    · split
      · exact ((blind.unjoined.setJoin g _ _).trans (blind.unjoined.setJoin _ _ _)).trans
          (blind.setRequired _ _ _)
      · exact .refl view g
    · exact .refl view g
  rw [mergePair_eq]
  exact (rejoined.trans (blind.rebind _ _ _)).trans (blind.exclude _ _)

theorem mergeSelfJoins (g : Graph) (scope : NodeId) : Same view g (g.mergeSelfJoins scope).1 :=
  mergeSelfJoins_induction (motive := Same view g)
    (fun {h pair} _ same => same.trans (blind.mergePair h scope pair)) (.refl view g)

theorem decideRequired (g : Graph) (metadata : Metadata) (pinned : List NodeId) (scope : NodeId) :
    Same view g (g.decideRequired metadata pinned scope).1 :=
  decideRequired_induction (motive := Same view g) (fun same => same.trans (blind.setRequired ..))
    (.refl view g)

theorem dropDeadJoins (g : Graph) (scope : NodeId) : Same view g (g.dropDeadJoins scope).1 :=
  dropDeadJoins_induction (motive := Same view g) (fun _ _ same => same.trans (blind.exclude ..))
    (.refl view g)

end Blind

namespace Lasting

variable {α : Type} {view : Node → α} (lasting : Lasting view)

include lasting

/-! ## Setters -/

theorem setCondition (g : Graph) (id : NodeId) (condition : Option NodeId) :
    Same view g (g.setCondition id condition) := by
  cases h : (g.node id).withCondition? condition with
  | some node =>
    rw [setCondition_eq h]
    exact (Same.setNode (lasting.condition h)).relink ..
  | none => simpa only [Graph.setCondition, h] using .refl view g

theorem setRanges (g : Graph) (id : NodeId) (ranges : List NodeId) :
    Same view g (g.setRanges id ranges) := by
  cases h : (g.node id).ranges? with
  | some old =>
    simp only [Graph.setRanges, h]
    refine (Same.setNode (lasting.ranges (g.node id) ranges)).trans (.of_node ?_ fun other => ?_)
    · rw [size_adopt, size_release]
    · rw [node_adopt, node_release]
  | none => simpa only [Graph.setRanges, h] using .refl view g

theorem replaceChild (g : Graph) (owner old new : NodeId) :
    Same view g (g.replaceChild owner old new).1 := by
  refine ⟨(Node.formal_stamp.toPlaced.replaceChild g owner old new).size, fun {id} has => ?_⟩
  rw [node_replaceChild has]
  split
  · exact lasting.children _ _ (by simp)
  · rfl

theorem replace (g : Graph) (old new : NodeId) : Same view g (g.replace old new).1 := by
  unfold Graph.replace
  cases g.parent old with
  | some owner => exact lasting.replaceChild g owner old new
  | none => exact .refl view g

/-! ## Passes over ranges -/

theorem extractMarkers (g : Graph) (scope : NodeId) : Same view g (g.extractMarkers scope).1 := by
  unfold Graph.extractMarkers
  split
  · unfold Graph.extractMarkersOf
    dsimp only
    split
    · exact .refl view g
    · have required : ∀ ids, Same view g (g.requireAll ids) := fun ids =>
        .foldl (fun g id => lasting.setRequired g id true) g ids
      exact ((required _).trans (.conjoin view _ _)).trans (lasting.setCondition _ _ _)
  · exact .refl view g

theorem addAnchor (g : Graph) (metadata : Metadata) (scope : NodeId) :
    Same view g (g.addAnchor metadata scope).1 := by
  have promote : ∀ anchor condition, Same view g (g.promote anchor condition).1 := by
    intro anchor condition
    unfold Graph.promote
    split
    · exact ((lasting.unjoined.setJoin g _ _).trans (.conjoinWith view _ _ _)).trans
        (lasting.setRequired _ _ _)
    · exact lasting.setRequired g anchor true
  have withAnchor : ∀ ranges condition usage,
      Same view g (g.withAnchor ranges condition usage).1 := by
    intro ranges condition usage
    rcases g.withAnchor_cases ranges condition usage with same | ⟨anchor, -, same⟩ <;> rw [same]
    · exact .refl view g
    · exact promote anchor condition
  unfold Graph.addAnchor
  dsimp only
  split
  · exact .refl view g
  · split
    · exact withAnchor ..
    · exact (withAnchor ..).trans (lasting.setCondition _ _ _)

theorem normalizeAnchor (g : Graph) (metadata : Metadata) (scope : NodeId) :
    Same view g (g.normalizeAnchor metadata scope).1 := by
  have moved : ∀ h : Graph, Same view h (h.putAnchorFirst scope).1 := by
    intro h
    rcases h.putAnchorFirst_cases scope with same | ⟨anchor, -, same⟩ <;> rw [same]
    · exact .refl view h
    · exact lasting.setRanges h scope _
  unfold Graph.normalizeAnchor
  split
  · exact .refl view g
  · exact (lasting.addAnchor g metadata scope).trans (moved _)

/-! ## Passes over aggregates -/

theorem replaceBySubquery (g : Graph) (old : NodeId) (kind : SubqueryKind)
    (expression : Option NodeId) (sub : CorrelatedScope) :
    Same view g (g.replaceBySubquery old kind expression sub) :=
  (Same.add view g _).trans (lasting.replace _ old _)

theorem foldCondition (g : Graph) (id : NodeId) : Same view g (g.foldCondition id).1 := by
  by_cases folds : ∀ a, g.node id = .aggregate a → a.condition = none
  · rw [foldCondition_eq_self folds]
    exact .refl view g
  · obtain ⟨⟨function, operand, condition⟩, node, some⟩ := not_forall₂.mp folds
    obtain ⟨condition, rfl⟩ := Option.ne_none_iff_exists'.mp some
    rw [fst_foldCondition node]
    exact (((lasting.setCondition g id none).trans (.add view _ _)).trans (.add view _ _)).trans
      (lasting.replaceChild _ _ _ _)

theorem freeAggregatesOfOne (g : Graph) (scope : NodeId) :
    Same view g (g.freeAggregatesOfOne scope).1 := by
  have promoted : Same view g (g.promoteCondition scope).1 := by
    unfold Graph.promoteCondition
    split
    · exact (lasting.setCondition g _ _).trans (lasting.setCondition _ _ _)
    · exact .refl view g
  exact promoted.trans (.changeEach
    (fun g start => .changeEach (fun g id => lasting.foldCondition g id) g _) _ _)

section

variable (metadata : Metadata) (strategy : AggregateStrategy) {ranges : List NodeId}

theorem freeOne {g : Graph} (isRange : ∀ range ∈ ranges, (g.node range).isRange = true)
    (id : NodeId) (site : ExpressionSite) :
    Same view g (g.freeOne metadata strategy ranges id site).1 := by
  have wrapped : ∀ {h done}, Wrapped g metadata ranges id h done → Same view g h := by
    intro h done w
    cases w with
    | left beside => exact beside.same
    | tested _ _ _ c => exact c.beside.same.trans (lasting.replaceBySubquery _ id _ _ _)
    | valued _ _ v => exact v.beside.same.trans (lasting.replaceBySubquery _ id _ _ _)
  rcases freeOne_cases metadata strategy isRange id site with w | ⟨h, w, same⟩
  · exact wrapped w
  · rw [same]
    exact (wrapped w).trans (lasting.foldCondition h id)

theorem freeAggregate {g : Graph} (isRange : ∀ range ∈ ranges, (g.node range).isRange = true)
    (sites : List (NodeId × ExpressionSite)) :
    Same view g (Graph.freeAggregate metadata strategy ranges g sites).1 := by
  induction sites generalizing g with
  | nil => exact .refl view g
  | cons first rest ih =>
    have stamp := same_freeOne metadata strategy Node.formal_stamp.toPlaced isRange first.1 first.2
    exact (lasting.freeOne metadata strategy isRange first.1 first.2).trans
      (ih fun range mem => stamp.isRange_mono (isRange range mem))

theorem freeAggregates (g : Graph) (scope : NodeId) :
    Same view g (g.freeAggregates metadata strategy scope).1 := by
  unfold Graph.freeAggregates
  dsimp only
  split
  · exact lasting.freeAggregatesOfOne g scope
  · exact lasting.freeAggregate metadata strategy (g.isRange_includedRanges scope) _

end

/-! ## Expansion -/

theorem fill (g : Graph) (id body : NodeId) :
    Same view g ((g.copy body).1.replace id (g.copy body).2).1 :=
  (g.forest_copyWith body .empty).beside.same.trans (lasting.replace _ id _)

end Lasting

end RangeQuery
