import RangeQuery.Proofs.Anchors
import RangeQuery.Proofs.Scope.FramedAggregates
import RangeQuery.Proofs.Scope.RangeAnswers

/-!
What a compilation may not touch. Whatever it ends with, a query keeps its scopes, and each of them
keeps its ranges up to their order, its values, the way it sorts, its templates and directives. A
range stays what it is and does not come back into a join; a window is added only where a scope
retrieves an ANY and nothing else. Only a placeholder among the ranges gives way to what it stands for.
-/

namespace RangeQuery

/-- What a range keeps: its name and where it reads from; if it is left out, it stays so. -/
structure RangeKept (before after : Range) : Prop where
  name : after.name = before.name
  entity : after.entity = before.entity
  nested : after.nested = before.nested
  included : after.included = true → before.included = true

/-- What a scope keeps: its clauses, its ranges, and its values under their names. -/
structure Graph.ScopeKept (g h : Graph) (scope : NodeId) (tested : NodeId → Prop) : Prop where
  clauses : ClausesKept (g.scope scope) (h.scope scope) tested
  ranges : ∀ range ∈ (g.scope scope).ranges, ∀ r, g.range? range = some r →
    ∃ r', h.range? range = some r' ∧ RangeKept r r'
  values : ∀ value ∈ (g.scope scope).values, ∀ p, g.node value = .projection p →
    ∃ expression, h.node value = .projection { p with expression }

open RangeQuery.Graph

namespace Graph

variable {g h k : Graph} {root scope : NodeId} {bodies scopes : List NodeId}

/-! ## One pass -/

/-- One pass over one scope leaves the clauses of all. -/
theorem Named.apply (named : Named g root scopes) (framed : ∀ scope ∈ scopes, Framed g h scope)
    (o : InOrder root bodies scopes h) (pass : Pass) (context : PassContext) {other : NodeId}
    (mem : other ∈ scopes) : ∀ scope ∈ scopes, Framed g (pass.apply context h other).1 scope := by
  have l := named.linked
  have terms := Node.lasting_terms?
  cases pass with
  | existenceMarkers =>
    exact fun scope mem' => (framed scope mem').unbound l (named.isScope scope mem')
      (fun unbound => unbound.toRigid.extractMarkers h other) (terms.extractMarkers h other)
  | anyTests =>
    exact named.resolveAnys framed (o.linked root (by simp)) o.scopes context.metadata mem
  | aggregates =>
    exact named.freeAggregates framed (o.linked root (by simp)) o.scopes context.metadata
      context.strategy mem
  | selfJoins =>
    exact fun scope mem' => (framed scope mem').unbound l (named.isScope scope mem')
      (fun unbound => unbound.mergeSelfJoins h other) (terms.mergeSelfJoins h other)
  | requiredness =>
    exact fun scope mem' => (framed scope mem').unbound l (named.isScope scope mem')
      (fun unbound => unbound.toSteady.decideRequired h context.metadata context.pinned other)
      (terms.decideRequired h context.metadata context.pinned other)
  | anchors =>
    intro scope mem'
    simp only [Pass.apply, normalizeAnchor]
    split
    · exact framed scope mem'
    · have added := (framed scope mem').unbound l (named.isScope scope mem')
        (fun unbound => unbound.toRigid.addAnchor h context.metadata other)
        (terms.addAnchor h context.metadata other)
      exact added.putAnchorFirst l (named.isScope scope mem') other
  | deadJoins =>
    exact fun scope mem' => (framed scope mem').unbound l (named.isScope scope mem')
      (fun unbound => unbound.dropDeadJoins h other) (terms.dropDeadJoins h other)

/-- An excluded range stays out. -/
theorem isExcluded_apply (pass : Pass) (context : PassContext) {id : NodeId}
    (excluded : (g.node id).isExcluded = true) :
    ((pass.apply context g scope).1.node id).isExcluded = true := by
  by_cases merges : pass = .selfJoins
  · subst merges
    exact mergeSelfJoins_induction (motive := fun h => (h.node id).isExcluded = true)
      (fun _ excluded => isExcluded_mergePair excluded) excluded
  by_cases drops : pass = .deadJoins
  · subst drops
    exact dropDeadJoins_induction (motive := fun h => (h.node id).isExcluded = true)
      (fun _ _ excluded => isExcluded_exclude excluded) excluded
  have label := Same.label_apply merges drops context g scope
  rwa [← Node.isExcluded_label, label.node (has_of_isRange (isRange_of_isExcluded excluded)),
    Node.isExcluded_label]

/-! ## Stages -/

/-- One stage of a compilation keeps the scopes and their clauses, the queries behind declared
ranges and the ranges that are left out. -/
structure Lasts (g h : Graph) (root : NodeId) (tested : NodeId → Prop) : Prop where
  stamp : Same Node.stamp g h
  scopes : ∀ scope, h.ScopeIn root scope ↔ g.ScopeIn root scope
  clauses : ∀ scope, g.ScopeIn root scope → ClausesKept (g.scope scope) (h.scope scope) tested
  nested : ∀ {scope range}, g.ScopeIn root scope → range ∈ (g.node scope).declared →
    (h.node range).nested? = (g.node range).nested?
  excluded : ∀ {id}, (g.node id).isExcluded = true → (h.node id).isExcluded = true

namespace Lasts

variable {tested : NodeId → Prop}

theorem refl (g : Graph) (root : NodeId) (tested : NodeId → Prop) : Lasts g g root tested :=
  ⟨.refl _ g, fun _ => Iff.rfl, fun _ _ => .refl _ tested, fun _ _ => rfl, fun excluded => excluded⟩

theorem of_sameScopes (same : SameScopes g h root) (l : g.Linked root)
    (clauses : ∀ scope, g.ScopeIn root scope → ClausesKept (g.scope scope) (h.scope scope) tested)
    (excluded : ∀ {id}, (g.node id).isExcluded = true → (h.node id).isExcluded = true) :
    Lasts g h root tested :=
  ⟨same.stamp, fun _ => same.scopeIn_iff l, clauses, same.nested, excluded⟩

theorem mem_declared_iff (lasts : Lasts g h root tested) (isScope : g.ScopeIn root scope)
    {id : NodeId} : id ∈ (h.node scope).declared ↔ id ∈ (g.node scope).declared := by
  have isScope' := (lasts.scopes scope).mpr isScope
  rw [← ranges_scope isScope.isRetrieve, ← ranges_scope isScope'.isRetrieve]
  exact (lasts.clauses scope isScope).ranges.mem_iff

theorem trans (a : Lasts g h root tested) (b : Lasts h k root tested) : Lasts g k root tested where
  stamp := a.stamp.trans b.stamp
  scopes scope := (b.scopes scope).trans (a.scopes scope)
  clauses scope isScope := (a.clauses scope isScope).trans
    (b.clauses scope ((a.scopes scope).mpr isScope)) fun _ _ test => test
  nested isScope declared := (b.nested ((a.scopes _).mpr isScope)
    ((a.mem_declared_iff isScope).mpr declared)).trans (a.nested isScope declared)
  excluded before := b.excluded (a.excluded before)

/-- The values of a scope stay projections. -/
theorem named (lasts : Lasts g h root tested) (before : Named g root scopes) (l : h.Linked root) :
    Named h root scopes where
  linked := l
  isScope scope mem := (lasts.scopes scope).mpr (before.isScope scope mem)
  projections scope mem value held := by
    have isScope := before.isScope scope mem
    rw [← values_scope, (lasts.clauses scope isScope).values, values_scope] at held
    rw [lasts.stamp.isProjection (Framed.has_value before.linked isScope held)]
    exact before.projections scope mem value held

variable (lasts : Lasts g h root tested) (isScope : g.ScopeIn root scope)

include lasts isScope

theorem range {id : NodeId} (declared : id ∈ (g.node scope).declared) {r : Range}
    (before : g.range? id = some r) : ∃ r', h.range? id = some r' ∧ RangeKept r r' := by
  have node := node_of_range? before
  have has : g.Has id := has_of_isRange (by rw [node]; rfl)
  have stamp := lasts.stamp.node has
  have nested := lasts.nested isScope declared
  have excluded := @lasts.excluded id
  rw [node] at stamp nested excluded
  cases after : h.node id with
  | range r' =>
    simp only [after, Node.stamp, Node.label, Node.range.injEq, Range.mk.injEq] at stamp
    simp only [after, Node.nested?] at nested
    simp only [after, Node.isExcluded, Bool.not_eq_true'] at excluded
    refine ⟨r', by simp [range?, after], stamp.1, stamp.2.1, nested, fun still => ?_⟩
    by_contra out
    rw [excluded (by simpa using out)] at still
    cases still
  | _ => simp [after, Node.stamp, Node.label] at stamp

omit isScope in
theorem value {id : NodeId} {p : Projection} (before : g.node id = .projection p) :
    ∃ expression, h.node id = .projection { p with expression } := by
  have has : g.Has id := has_of_node before (by simp)
  have stamp := lasts.stamp.node has
  rw [before] at stamp
  cases after : h.node id with
  | projection p' =>
    simp only [after, Node.stamp, Node.label, Node.projection.injEq, Projection.mk.injEq] at stamp
    obtain ⟨name, -, visible⟩ := stamp
    exact ⟨p'.expression, by rw [← name, ← visible]⟩
  | _ => simp [after, Node.stamp, Node.label] at stamp

end Lasts

/-- A query on its way through relations and passes: it is in order, and the scopes of the start
keep their nesting and their clauses. -/
structure Onward (start : Graph) (root : NodeId) (bodies scopes : List NodeId) (g : Graph) : Prop where
  order : InOrder root bodies scopes g
  keeps : Keeps start g
  reads : Same Node.readsQuery start g
  excluded : ∀ {id}, (start.node id).isExcluded = true → (g.node id).isExcluded = true
  framed : ∀ scope ∈ scopes, Framed start g scope

theorem Onward.apply {start : Graph} (onward : Onward start root bodies scopes g)
    (named : Named start root scopes) (pass : Pass) (context : PassContext) (mem : scope ∈ scopes) :
    Onward start root bodies scopes (pass.apply context g scope).1 where
  order := onward.order.apply pass context mem
  keeps := onward.keeps.trans (.apply pass context g scope)
  reads := onward.reads.trans (Node.formal_readsQuery.apply pass context g scope)
  excluded before := isExcluded_apply pass context (onward.excluded before)
  framed := named.apply onward.framed onward.order pass context mem

theorem Onward.lasts {start : Graph} (onward : Onward start root bodies scopes g)
    (l : start.Linked root) (plain : start.PlainScopes root)
    (all : ∀ scope, start.ScopeIn root scope → scope ∈ scopes) :
    Lasts start g root (start.isTest · = true) :=
  .of_sameScopes (onward.keeps.sameScopes onward.reads l plain) l
    (fun scope isScope => (onward.framed scope (all scope isScope)).kept) onward.excluded

end Graph

/-! ## Expansion -/

namespace Query

variable {q : Query} {bodies scopes : List NodeId}

/-- Writing out the templates leaves plain scopes and their clauses, windows included. -/
theorem WellLinked.lasts_expandTemplates (w : q.WellLinked) (plain : q.graph.PlainScopes q.root)
    (named : Named q.graph q.root q.scopes) (tested : NodeId → Prop) :
    q.expandTemplates.1.graph.PlainScopes q.root ∧
      Lasts q.graph q.expandTemplates.1.graph q.root tested := by
  have kept := @expandRounds_induction q.graph
    (fun g => (∀ top ∈ {top | top ∈ q.root :: (q.graph.node q.root).templateBodies}, g.Linked top) ∧
      g.PlainScopes q.root ∧ Lasts q.graph g q.root tested) q.root
    (fun {g id body} kept found _ => ?_) maxTemplateRounds false
    ⟨fun top mem => w.inOrder.linked top mem, plain, .refl _ _ _⟩
  · exact kept.2
  · obtain ⟨linked, plain, lasts⟩ := kept
    have l := linked q.root (by simp)
    have same := plain.sameScopes_fill l found body
    have named' := lasts.named named l
    refine ⟨linked_fill linked found body,
      plain.same same l fun isScope _ mem => plain.declared_fill l found body isScope ▸ mem,
      lasts.trans (.of_sameScopes same l (fun scope isScope => ?_) fun {range} excluded => ?_)⟩
    · have has := l.has_of_below isScope.reached
      refine clausesKept_of_node isScope.isRetrieve ?_ ?_ ?_ tested
      · rw [plain.declared_fill l found body isScope]
      · -- A placeholder is no value, as all of these are projections.
        have mem := (Graph.mem_scopes_iff w.tree).mpr ((lasts.scopes scope).mp isScope)
        have other : id ∉ (g.node scope).values := fun value => by
          obtain ⟨name, is⟩ := Option.isSome_iff_exists.mp found
          have projection := named'.projections scope mem id value
          simp [isProjection, node_of_placeholder? is] at projection
        have beside := (g.forest_copyWith body .empty).beside
        rcases node_replace_or (beside.has has) id (g.copyWith body .empty).2 with same | same <;>
          refine (congrArg Node.values same).trans ?_
        · rw [beside.node has]
        · rw [beside.node has, values_replace_of_not_mem _ other]
      · exact (Node.lasting_terms?.fill g id body).node has
    · have label := same_fill Node.slotless_label.toPlaced g id body
      rwa [← Node.isExcluded_label, label.node (has_of_isRange (isRange_of_isExcluded excluded)),
        Node.isExcluded_label]

/-- Writing out the relations sends a query onward. -/
theorem onward_expandRelations (o : InOrder q.root bodies scopes q.graph)
    (named : Named q.graph q.root scopes) (metadata : Metadata) :
    Onward q.graph q.root bodies scopes (q.expandRelations metadata).1.graph := by
  have unjoined : ∀ {α : Type} {view : Node → α}, Unjoined view →
      Same view q.graph (q.expandRelations metadata).1.graph := fun unjoined =>
    same_expandJoins unjoined q.graph metadata q.clauses.ranges false
  have keeps : Keeps q.graph (q.expandRelations metadata).1.graph :=
    .of_unbound fun unbound => unjoined unbound.toUnjoined
  refine ⟨⟨?_, ?_, fun scope mem => keeps.scopeIn named.linked (o.scopes scope mem)⟩, keeps,
    unjoined Node.formal_readsQuery.toUnjoined, fun {id} excluded => ?_, fun scope mem => ?_⟩
  · exact (inOrder_expandRelations { o with scopes := by simp } metadata).linked
  · exact (inOrder_expandRelations { o with scopes := by simp } metadata).bodies
  · have label := unjoined Node.slotless_label.toUnjoined
    rwa [← Node.isExcluded_label, label.node (has_of_isRange (isRange_of_isExcluded excluded)),
      Node.isExcluded_label]
  · exact (Framed.refl q.graph scope).unbound named.linked (named.isScope scope mem)
      (fun unbound => unjoined unbound.toUnjoined) (unjoined Node.lasting_terms?.unjoined)

end Query

/-! ## Compilation -/

namespace Compiler

variable (c : Compiler) {q : Query}

/-- A compilation ends after the templates, after the relations or after the passes. -/
theorem fst_compile_cases (q : Query) : (c.compile q).1 = q.expandTemplates.1 ∨
    (c.compile q).1 = (q.expandTemplates.1.expandRelations c.metadata).1 ∨
    (c.compile q).1 = ((q.expandTemplates.1.expandRelations c.metadata).1.runPasses Pass.all
      c.settings (.fresh c.metadata c.strategy)).1 := by
  unfold compile
  split
  · next first => exact .inl (by rw [first])
  · next q₁ _ first =>
    simp only [first]
    split
    · next second => exact .inr (.inl (by rw [second]))
    · next q₂ _ second =>
      simp only [second]
      unfold checkAndOptimize
      split
      · exact .inr (.inr (c.fst_optimize q₂))
      · exact .inr (.inl rfl)

/-- What writing out the templates leaves: the scopes with their clauses, in order and plain. -/
structure TemplatesKept (q written : Query) (tested : NodeId → Prop) : Prop where
  root : written.root = q.root
  order : ∃ bodies, InOrder written.root bodies q.scopes written.graph
  plain : written.graph.PlainScopes written.root
  named : Named written.graph written.root q.scopes
  all : ∀ scope, written.graph.ScopeIn written.root scope → scope ∈ q.scopes
  lasts : Lasts q.graph written.graph q.root tested

theorem templatesKept (w : q.WellLinked) (plain : q.graph.PlainScopes q.root)
    (named : Named q.graph q.root q.scopes) (tested : NodeId → Prop) :
    TemplatesKept q q.expandTemplates.1 tested := by
  obtain ⟨plain₁, lasts⟩ := w.lasts_expandTemplates plain named tested
  have o₁ := Query.inOrder_expandTemplates w.inOrder
  have root₁ := q.root_expandTemplates
  generalize q.expandTemplates.1 = q₁ at *
  rw [← root₁] at plain₁ o₁
  have named₁ : Named q₁.graph q₁.root q.scopes :=
    root₁ ▸ lasts.named named (root₁ ▸ o₁.linked q₁.root (by simp))
  exact ⟨root₁, ⟨_, { o₁ with scopes := named₁.isScope }⟩, plain₁, named₁, fun scope isScope =>
    (Graph.mem_scopes_iff w.tree).mpr ((lasts.scopes scope).mp (root₁ ▸ isScope)), lasts⟩

/-- Writing out templates and relations keeps the root and the scopes with their clauses. -/
theorem lasts_written (w : q.WellLinked) (plain : q.graph.PlainScopes q.root)
    (named : Named q.graph q.root q.scopes) :
    (q.expandTemplates.1.expandRelations c.metadata).1.root = q.root ∧
      Lasts q.graph (q.expandTemplates.1.expandRelations c.metadata).1.graph q.root
        (q.expandTemplates.1.graph.isTest · = true) := by
  have kept := templatesKept w plain named (q.expandTemplates.1.graph.isTest · = true)
  generalize q.expandTemplates.1 = q₁ at *
  obtain ⟨bodies, o₁⟩ := kept.order
  have onward := Query.onward_expandRelations o₁ kept.named c.metadata
  exact ⟨(q₁.root_expandRelations c.metadata).trans kept.root, kept.lasts.trans <|
    kept.root ▸ onward.lasts (o₁.linked q₁.root (by simp)) kept.plain kept.all⟩

/-- Whatever a compilation ends with, it keeps the root and the scopes with their clauses. -/
theorem lasts_compile (w : q.WellLinked) (plain : q.graph.PlainScopes q.root)
    (named : Named q.graph q.root q.scopes) : (c.compile q).1.root = q.root ∧
      Lasts q.graph (c.compile q).1.graph q.root (q.expandTemplates.1.graph.isTest · = true) := by
  have kept := templatesKept w plain named (q.expandTemplates.1.graph.isTest · = true)
  have outcomes := c.fst_compile_cases q
  generalize q.expandTemplates.1 = q₁ at *
  obtain ⟨bodies, o₁⟩ := kept.order
  have l₁ := o₁.linked q₁.root (by simp)
  have onward := Query.onward_expandRelations o₁ kept.named c.metadata
  have root₂ := q₁.root_expandRelations c.metadata
  generalize (q₁.expandRelations c.metadata).1 = q₂ at *
  have related := onward.lasts l₁ kept.plain kept.all
  rcases outcomes with same | same | same <;> rw [same]
  · exact ⟨kept.root, kept.lasts⟩
  · exact ⟨root₂.trans kept.root, kept.lasts.trans (kept.root ▸ related)⟩
  · have before : ∀ scope ∈ q₂.scopes, scope ∈ q.scopes := fun scope mem =>
      kept.all scope ((related.scopes scope).mp (root₂ ▸ scopeIn_of_mem_scopes mem))
    have passed : Onward q₁.graph q₁.root _ q.scopes
        (q₂.runPasses Pass.all c.settings (.fresh c.metadata c.strategy)).1.graph :=
      Run.foldl_step_induction (motive := Onward q₁.graph q₁.root _ q.scopes)
        (fun pass _ context g scope mem onward =>
          onward.apply kept.named pass context (before scope mem)) onward
    exact ⟨root₂.trans kept.root,
      kept.lasts.trans (kept.root ▸ passed.lasts l₁ kept.plain kept.all)⟩

/-- Whatever a compilation of a query whose values are all projections ends with: it keeps the
scopes, and of each of them the clauses, every range and the name of every value. A window is added
only where the query with its templates written out retrieves an ANY and nothing else. Placeholders may
stand anywhere but among the ranges of a scope. -/
theorem keeps_scopes (w : q.WellLinked) (nested : q.NestsScopes) (written : q.DeclaresNoPlaceholder)
    (projections : ∀ scope ∈ q.scopes, ∀ value ∈ (q.graph.scope scope).values,
      q.graph.isProjection value = true) :
    (∀ scope, scope ∈ (c.compile q).1.scopes ↔ scope ∈ q.scopes) ∧
      ∀ scope ∈ q.scopes, q.graph.ScopeKept (c.compile q).1.graph scope
        (q.expandTemplates.1.graph.isTest · = true) := by
  have named : Named q.graph q.root q.scopes := ⟨w.tree, fun _ => scopeIn_of_mem_scopes,
    fun scope mem value held => projections scope mem value (values_scope q.graph scope ▸ held)⟩
  have plain : q.PlainScopes := ⟨nested, written⟩
  obtain ⟨root, lasts⟩ := c.lasts_compile w (plain.graph w.tree) named
  refine ⟨fun scope => ?_, fun scope mem => ?_⟩
  · rw [Graph.mem_scopes_iff (c.wellLinked_compile w).tree, Graph.mem_scopes_iff w.tree, root,
      lasts.scopes]
  · have isScope := scopeIn_of_mem_scopes mem
    exact ⟨lasts.clauses scope isScope, fun range declared r before =>
      lasts.range isScope (ranges_scope isScope.isRetrieve ▸ declared) before,
      fun value _ p before => lasts.value before⟩

end Compiler

/-- What stands for a placeholder among the ranges takes its place in the list, which then is no
permutation of the list before. -/
theorem otherRanges_compile_ordersBesidePlaceholder :
    (ordersBesidePlaceholder.WellLinked ∧ ordersBesidePlaceholder.NestsScopes ∧
      ∀ scope ∈ ordersBesidePlaceholder.scopes,
        ∀ value ∈ (ordersBesidePlaceholder.graph.scope scope).values,
          ordersBesidePlaceholder.graph.isProjection value = true) ∧
    (⟨4⟩ : NodeId) ∈ ordersBesidePlaceholder.scopes ∧
    (ordersBesidePlaceholder.graph.scope ⟨4⟩).ranges = [⟨0⟩, ⟨5⟩] ∧
    ((plainCompiler.compile ordersBesidePlaceholder).1.graph.scope ⟨4⟩).ranges = [⟨0⟩, ⟨6⟩] ∧
    ¬ ordersBesidePlaceholder.graph.ScopeKept (plainCompiler.compile ordersBesidePlaceholder).1.graph
      ⟨4⟩ (ordersBesidePlaceholder.expandTemplates.1.graph.isTest · = true) := by
  have before : (ordersBesidePlaceholder.graph.scope ⟨4⟩).ranges = [⟨0⟩, ⟨5⟩] := by decide
  have after : ((plainCompiler.compile ordersBesidePlaceholder).1.graph.scope ⟨4⟩).ranges =
      [⟨0⟩, ⟨6⟩] := by decide +kernel
  refine ⟨⟨wellLinked_ordersBesidePlaceholder, nestsScopes_ordersBesidePlaceholder, by decide⟩,
    by decide, before, after, fun kept => ?_⟩
  have same := kept.clauses.ranges
  rw [before, after] at same
  exact absurd same (by decide)

theorem keeps_scopes_customersWithOrder :
    (customersWithOrder.WellLinked ∧ customersWithOrder.NestsScopes ∧
      customersWithOrder.DeclaresNoPlaceholder ∧
      ∀ scope ∈ customersWithOrder.scopes, ∀ value ∈ (customersWithOrder.graph.scope scope).values,
        customersWithOrder.graph.isProjection value = true) ∧
    (∀ scope, scope ∈ (plainCompiler.compile customersWithOrder).1.scopes ↔
      scope ∈ customersWithOrder.scopes) ∧
    ∀ scope ∈ customersWithOrder.scopes,
      customersWithOrder.graph.ScopeKept (plainCompiler.compile customersWithOrder).1.graph scope
        (customersWithOrder.expandTemplates.1.graph.isTest · = true) := by
  have projections : ∀ scope ∈ customersWithOrder.scopes,
      ∀ value ∈ (customersWithOrder.graph.scope scope).values,
        customersWithOrder.graph.isProjection value = true := by decide
  exact ⟨⟨wellLinked_customersWithOrder, nestsScopes_customersWithOrder,
      declaresNoPlaceholder_customersWithOrder, projections⟩,
    plainCompiler.keeps_scopes wellLinked_customersWithOrder nestsScopes_customersWithOrder
      declaresNoPlaceholder_customersWithOrder projections⟩

/-- Whether there is a customer: one range, and all that is retrieved is an ANY over it. -/
def anyCustomer : Query where
  graph := ⟨#[
    ⟨.range { name := "c", entity := some "Customer", join := none, required := false
              included := true, nested := none }, some ⟨4⟩⟩,
    ⟨.identifier { range := ⟨0⟩, path := ["id"] }, some ⟨2⟩⟩,
    ⟨.aggregate { function := .any, operand := ⟨1⟩, condition := none }, some ⟨3⟩⟩,
    ⟨.projection { name := "some", expression := ⟨2⟩, visible := true }, some ⟨4⟩⟩,
    ⟨.retrieve { Retrieve.empty with ranges := [⟨0⟩], values := [⟨3⟩] }, none⟩]⟩
  root := ⟨4⟩

example : anyCustomer.expandTemplates.1.graph.isTest ⟨3⟩ = true ∧
    (plainCompiler.compile anyCustomer).1.clauses.window = some { offset := 0, size := 1 } := by
  decide +kernel

end RangeQuery
