import RangeQuery.Proofs.Scope.BoundCopies
import RangeQuery.Proofs.Scope.DroppedJoin
import RangeQuery.Proofs.WellLinked

/-!
No reference to a dropped range. The passes before the last one keep every identifier bound to an
included range and within the scope that declares it; so the last one, which drops the ranges that
a scope does not read, drops none that is read elsewhere.
-/

namespace RangeQuery

/-- Every range of the query and of its templates takes part in the join. -/
def Query.AllIncluded (q : Query) : Prop :=
  ∀ top ∈ q.root :: (q.graph.node q.root).templateBodies, ∀ range, q.graph.Below top range →
    (q.graph.node range).isExcluded = false

/-- Every identifier in use reads a range that takes part in the join; what lies below a range that
takes no part is not in use. -/
def Query.ReadsIncluded (q : Query) : Prop :=
  ∀ id i, q.graph.Below q.root id → q.graph.node id = .identifier i →
    (∀ range, q.graph.Below q.root range → q.graph.Below range id →
      (q.graph.node range).isExcluded = false) →
        (q.graph.node i.range).isIncluded = true

/-- Every reached identifier is bound to a range that a scope around it declares. -/
def Query.Scoped (q : Query) : Prop :=
  ∀ trail id i, q.graph.Trail q.root trail id → q.graph.node id = .identifier i →
    (q.graph.node i.range).isRange = true ∧
      ∃ scope ∈ trail, i.range ∈ (q.graph.node scope).declared

open RangeQuery.Graph

namespace Graph

variable {g h : Graph} {root : NodeId} {scopes : List NodeId}

/-- Every pass but the last keeps the bindings. -/
theorem Bound.apply (b : Bound g root scopes) {pass : Pass} (other : pass ≠ .deadJoins)
    (context : PassContext) {scope : NodeId} (mem : scope ∈ scopes) :
    Bound (pass.apply context g scope).1 root scopes := by
  cases pass with
  | existenceMarkers => exact b.extractMarkers mem
  | anyTests => exact b.resolveAnys context.metadata mem
  | aggregates => exact b.freeAggregates context.metadata context.strategy mem
  | selfJoins => exact b.mergeSelfJoins mem
  | requiredness => exact b.decideRequired context.metadata context.pinned scope
  | anchors => exact b.normalizeAnchor context.metadata mem
  | deadJoins => exact absurd rfl other

/-! ## Written-out relations -/

/-- Joining a range by the columns of its relation keeps the bindings. -/
theorem Bound.joinByColumns (b : Bound g root scopes) {range : NodeId} {i : Identifier}
    (above : g.Below root range) (included : (g.node range).isExcluded = false)
    (joined : g.joinRelation? range = some i) (relation : Relation) :
    Bound (g.joinByColumns range i.range relation) root scopes := by
  obtain ⟨join, held, node⟩ := node_of_joinRelation? joined
  have slot := mem_children_of_join? held
  have isRange := isRange_of_join? held
  have rigid : ∀ {α : Type} {view : Node → α}, Rigid view →
      Same view g (g.joinByColumns range i.range relation) := fun rigid =>
    same_joinByColumns rigid.toUnjoined g range i.range relation
  have keeps : Keeps g (g.joinByColumns range i.range relation) := .of_rigid rigid
  have label := rigid Node.slotless_label.toRigid
  have own : (g.node range).isIncluded = true := by
    rw [Node.isExcluded_of_range isRange] at included
    simpa using included
  refine b.reshaped keeps label (b.linked.zone.reshapedByColumns above i.range relation)
    fun {id i'} mem new node' => ?_
  rw [levelWith_of_not_has new]
  -- Both ranges that are read now were read, or declared, around the range.
  have around : ∀ scope ∈ scopes, i'.range ∈ (g.node scope).declared → g.Below scope range := by
    intro scope mem declared
    have reached := (b.isScope scope mem).reached
    rcases range_joinByColumns new node' with same | same <;> rw [same] at declared
    · exact below_of_child (declared_subset_children _ declared)
    · have inside := b.within (above.child slot) node scope mem declared
      rcases inside.eq_or_owner with rfl | ⟨owner, inside, slot'⟩
      · have isRetrieve := (b.isScope join mem).isRetrieve
        rw [node] at isRetrieve
        cases isRetrieve
      · exact b.linked.owner_unique (reached.trans inside) above slot' slot ▸ inside
  have was : (g.node i'.range).isIncluded = true := by
    rcases range_joinByColumns new node' with same | same <;> rw [same]
    · exact own
    · exact b.included (above.child slot) node
  refine ⟨label.isIncluded was, fun scope mem declared => ?_⟩
  have isScope := b.isScope scope mem
  have declared' := (keeps.declared (b.linked.has_of_below isScope.reached)
    (has_of_isIncluded was) (Node.isRange_of_isIncluded was)).mp declared
  exact (b.linked.mem_levelFrom above).mpr ⟨opensScope_of_isRetrieve isScope.isRetrieve,
    isScope.reached, around scope mem declared'⟩

/-- Writing out the relations of declared ranges keeps the bindings. -/
theorem Bound.expandJoins (b : Bound g root scopes) (metadata : Metadata) {ranges : List NodeId}
    (declared : ∀ range ∈ ranges, range ∈ (g.node root).declared ∧
      (g.node range).isExcluded = false) (expanded : Bool) :
    Bound (Graph.expandJoins metadata g ranges expanded).1 root scopes := by
  induction ranges generalizing g expanded with
  | nil => exact b
  | cons range rest ih =>
    unfold Graph.expandJoins
    split
    · exact ih b (fun other later => declared other (by simp [later])) expanded
    · next relation joined =>
      split
      · exact b
      · next found _ =>
        obtain ⟨slot, included⟩ := declared range (by simp)
        refine ih (b.joinByColumns (below_of_child (declared_subset_children _ slot)) included joined
          found) (fun other later => ?_) true
        obtain ⟨slot', included'⟩ := declared other (by simp [later])
        have has := b.linked.has_of_below (below_of_child (declared_subset_children _ slot'))
        have label := same_joinByColumns Node.slotless_label.toUnjoined g range relation.range found
        rw [(same_joinByColumns Node.unbound_declared.toUnjoined g range relation.range found).node
          b.linked.has, ← Node.isExcluded_label, label.node has, Node.isExcluded_label]
        exact ⟨slot', included'⟩

end Graph

/-- After a run of all passes, nothing in use reads a dropped range. -/
theorem Query.served_runPasses {q : Query} (b : Bound q.graph q.root q.scopes) (settings : Settings)
    (context : PassContext) :
    Served (q.runPasses Pass.all settings context).1.graph q.root q.scopes := by
  have parts : Pass.all = [.existenceMarkers, .anyTests, .aggregates, .selfJoins, .requiredness,
    .anchors] ++ [.deadJoins] := rfl
  simp only [runPasses, parts, List.foldl_append]
  refine Run.foldl_step_induction (motive := fun g => Served g q.root q.scopes)
    (fun pass last context g scope mem s => ?_) (Bound.served ?_)
  · obtain rfl := List.mem_singleton.mp last
    exact s.dropDeadJoins mem
  · refine Run.foldl_step_induction (motive := fun g => Bound g q.root q.scopes)
      (fun pass among context g scope mem b => b.apply ?_ context mem) b
    rintro rfl
    simp at among

/-! ## Written-out templates -/

namespace Graph

variable {g : Graph} {roots : Set NodeId}

/-- Filling a placeholder with a copy of an included template leaves all ranges included. -/
theorem included_fill (linked : ∀ top ∈ roots, g.Linked top)
    (included : ∀ top ∈ roots, ∀ range, g.Below top range → (g.node range).isExcluded = false)
    {id body : NodeId} (found : (g.placeholder? id).isSome = true) (mem : body ∈ roots) :
    ∀ top ∈ roots, ∀ range, ((g.copy body).1.replace id (g.copy body).2).1.Below top range →
      (((g.copy body).1.replace id (g.copy body).2).1.node range).isExcluded = false := by
  have forest := g.forest_copyWith body .empty
  have z := (Zone.of_linked linked).replaceByTree forest (has_of_placeholder? found)
    (opensScope_of_placeholder? found)
  intro top root range below
  have swapped := Node.slotless_label.replace (g.copyWith body .empty).1 id
    (g.copyWith body .empty).2
  have copied : ∀ {range}, (g.copyWith body .empty).1.Has range →
      ((g.copyWith body .empty).1.node range).isExcluded = false →
        ((((g.copyWith body .empty).1.replace id (g.copyWith body .empty).2).1.node
          range).isExcluded = false) := fun has included => by
    rw [← Node.isExcluded_label, swapped.node has, Node.isExcluded_label, included]
  rcases z.mem_of_below (z.root root).1 below with ⟨other, root', old⟩ | new
  · have had := (linked other root').has_of_below old
    refine copied (forest.beside.has had) ?_
    rw [forest.beside.node had, included other root' range old]
  · refine copied ((forest.linked _ (List.mem_singleton_self _)).has_of_below new) ?_
    by_contra excluded
    have isRange : ((g.copyWith body .empty).1.node range).isRange = true := by
      cases kind : (g.copyWith body .empty).1.node range <;>
        simp_all [Node.isExcluded, Node.isRange]
    obtain ⟨origin, within, label⟩ :=
      label_below_copyWith (linked body mem) (Below.refl g body) .empty new isRange
    rw [← Node.isExcluded_label, label, Node.isExcluded_label,
      included body mem origin within] at excluded
    exact excluded rfl

end Graph

namespace Query

variable {q : Query}

/-- Writing out the templates leaves every reached range included. -/
theorem AllIncluded.expandTemplates (w : q.WellLinked) (included : q.AllIncluded) :
    ∀ range, q.expandTemplates.1.graph.Below q.root range →
      (q.expandTemplates.1.graph.node range).isExcluded = false := by
  have kept := @expandRounds_induction q.graph
    (fun g => (∀ top ∈ {top | top ∈ q.root :: (q.graph.node q.root).templateBodies},
      g.Linked top ∧ ∀ range, g.Below top range → (g.node range).isExcluded = false) ∧
        (g.node q.root).templateBodies = (q.graph.node q.root).templateBodies) q.root
    (fun kept found mem => ?_) maxTemplateRounds false
    ⟨fun top mem => ⟨w.inOrder.linked top mem, included top mem⟩, rfl⟩
  · exact (kept.1 q.root (by simp)).2
  · next g id body =>
    obtain ⟨all, bodies⟩ := kept
    have linked : ∀ top ∈ {top | top ∈ q.root :: (q.graph.node q.root).templateBodies},
        g.Linked top := fun top mem => (all top mem).1
    refine ⟨fun top root => ⟨linked_fill linked found body top root, ?_⟩, ?_⟩
    · exact included_fill linked (fun top mem => (all top mem).2) found (by
        rw [bodies] at mem
        simp [mem]) top root
    · rw [(same_fill Node.formal_templateBodies.toPlaced g id body).node (linked _ (by simp)).has,
        bodies]

/-- Where every identifier is bound to a range that is declared around it, and every range is
included, the bindings are in order. -/
theorem Scoped.bound (l : q.graph.Linked q.root) (within : q.Scoped)
    (included : ∀ range, q.graph.Below q.root range → (q.graph.node range).isExcluded = false)
    {scopes : List NodeId} (isScope : ∀ scope ∈ scopes, q.graph.ScopeIn q.root scope) :
    Bound q.graph q.root scopes := by
  refine ⟨l, isScope, fun {id i} below node => ?_, fun {id i} below node scope mem declared => ?_⟩
  · obtain ⟨trail, way⟩ := below
    obtain ⟨isRange, scope, on, declared⟩ := within _ _ _ way node
    have kept := included _ ((way.below_of_mem on).1.child (declared_subset_children _ declared))
    rw [Node.isExcluded_of_range isRange] at kept
    simpa using kept
  · obtain ⟨trail, way⟩ := below
    obtain ⟨-, other, on, declared'⟩ := within _ _ _ way node
    obtain ⟨above, inside⟩ := way.below_of_mem on
    rwa [l.declared_unique (isScope scope mem).reached above declared declared']

/-- Writing out the relations of a query whose bindings are in order keeps them. -/
theorem bound_expandRelations (metadata : Metadata) (l : q.graph.Linked q.root) (within : q.Scoped)
    (included : ∀ range, q.graph.Below q.root range → (q.graph.node range).isExcluded = false) :
    Bound (q.expandRelations metadata).1.graph q.root (q.expandRelations metadata).1.scopes := by
  have back : ∀ scope ∈ (q.expandRelations metadata).1.scopes, q.graph.ScopeIn q.root scope :=
    fun scope mem => Keeps.scopeIn_before
      (fun unbound => same_expandJoins unbound.toUnjoined q.graph metadata q.clauses.ranges false) l
      (scopeIn_of_mem_scopes mem)
  refine (within.bound l included back).expandJoins metadata (fun range mem => ?_) false
  have declared : range ∈ (q.graph.node q.root).declared :=
    ranges_scope (isRetrieve_of_mem_ranges mem) ▸ mem
  exact ⟨declared, included range (below_of_child (declared_subset_children _ declared))⟩

end Query

/-! ## Compilation -/

namespace Compiler

variable (c : Compiler) {q : Query}

theorem served_checkAndOptimize (b : Bound q.graph q.root q.scopes) :
    Served (c.checkAndOptimize q).1.graph (c.checkAndOptimize q).1.root q.scopes := by
  unfold checkAndOptimize
  split
  · rw [fst_optimize]
    exact q.served_runPasses b ..
  · exact b.served

theorem served_compile (w : q.WellLinked) (included : q.AllIncluded)
    (within : q.expandTemplates.1.Scoped) :
    ∃ scopes, Served (c.compile q).1.graph (c.compile q).1.root scopes := by
  have l := (Query.inOrder_expandTemplates w.inOrder).linked q.root (by simp)
  have kept := included.expandTemplates w
  rw [← q.root_expandTemplates] at l kept
  unfold compile
  split
  · next q₁ fault first =>
    rw [first] at l kept within
    exact ⟨[], (within.bound l kept (by simp)).served⟩
  · next q₁ _ first =>
    rw [first] at l kept within
    dsimp only at l kept within
    have b := Query.bound_expandRelations c.metadata l within kept
    rw [← q₁.root_expandRelations c.metadata] at b
    split
    · next q₂ fault second =>
      rw [second] at b
      exact ⟨_, b.served⟩
    · next q₂ _ second =>
      rw [second] at b
      exact ⟨_, c.served_checkAndOptimize b⟩

/-- After a compilation of a scoped query whose ranges are all included, no identifier in use reads
a dropped range, whether the compilation ends with a report or with an error. -/
theorem readsIncluded_compile (w : q.WellLinked) (included : q.AllIncluded)
    (within : q.expandTemplates.1.Scoped) : (c.compile q).1.ReadsIncluded := by
  obtain ⟨scopes, served⟩ := c.served_compile w included within
  exact fun _ _ => served.included

end Compiler

/-- A query whose identifiers all read ranges of its root is scoped. -/
theorem Query.Scoped.of_closed {q : Query} (ids : List NodeId) (mem : q.root ∈ ids)
    (closed : ∀ owner ∈ ids, ∀ child ∈ q.graph.children owner, child ∈ ids)
    (root : q.graph.identifier? q.root = none)
    (reads : ∀ id ∈ ids, ∀ i ∈ q.graph.identifier? id, (q.graph.node i.range).isRange = true ∧
      i.range ∈ (q.graph.node q.root).declared) : q.Scoped := by
  intro trail id i way node
  have found := identifier?_eq node
  obtain ⟨isRange, declared⟩ := reads id (Below.mem_of_closed ⟨trail, way⟩ mem closed) i found
  refine ⟨isRange, q.root, ?_, declared⟩
  rcases way.top with ⟨-, rfl⟩ | ⟨child, -, rest, -, rfl⟩
  · rw [root] at found
    cases found
  · simp

theorem allIncluded_customersWithOrder : customersWithOrder.AllIncluded := by
  have closed : ∀ owner ∈ [⟨9⟩, ⟨0⟩, ⟨1⟩, ⟨2⟩, ⟨3⟩, ⟨4⟩, ⟨5⟩, ⟨6⟩, ⟨7⟩, ⟨8⟩, ⟨10⟩],
      (customersWithOrder.graph.node owner).isExcluded = false ∧
        ∀ child ∈ customersWithOrder.graph.children owner,
          child ∈ [⟨9⟩, ⟨0⟩, ⟨1⟩, ⟨2⟩, ⟨3⟩, ⟨4⟩, ⟨5⟩, ⟨6⟩, ⟨7⟩, ⟨8⟩, ⟨10⟩] := by decide
  have tops : ∀ top ∈ customersWithOrder.root ::
      (customersWithOrder.graph.node customersWithOrder.root).templateBodies,
        top ∈ [⟨9⟩, ⟨0⟩, ⟨1⟩, ⟨2⟩, ⟨3⟩, ⟨4⟩, ⟨5⟩, ⟨6⟩, ⟨7⟩, ⟨8⟩, ⟨10⟩] := by decide
  intro top mem range below
  exact (closed range (below.mem_of_closed (tops top mem) fun owner mem => (closed owner mem).2)).1

theorem scoped_customersWithOrder : customersWithOrder.expandTemplates.1.Scoped := by
  have same : customersWithOrder.expandTemplates.1 = customersWithOrder := by decide +kernel
  rw [same]
  exact .of_closed
    [⟨9⟩, ⟨0⟩, ⟨1⟩, ⟨2⟩, ⟨3⟩, ⟨4⟩, ⟨5⟩, ⟨6⟩, ⟨7⟩, ⟨8⟩] (by decide) (by decide) (by decide) (by decide)

theorem readsIncluded_compile_customersWithOrder :
    (customersWithOrder.WellLinked ∧ customersWithOrder.AllIncluded ∧
      customersWithOrder.expandTemplates.1.Scoped) ∧
    (plainCompiler.compile customersWithOrder).1.ReadsIncluded :=
  ⟨⟨wellLinked_customersWithOrder, allIncluded_customersWithOrder, scoped_customersWithOrder⟩,
    plainCompiler.readsIncluded_compile wellLinked_customersWithOrder allIncluded_customersWithOrder
      scoped_customersWithOrder⟩

end RangeQuery
