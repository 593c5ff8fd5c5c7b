import RangeQuery.Proofs.ChangeReports
import RangeQuery.Proofs.DroppedRanges
import RangeQuery.Proofs.Scope.LexicalAggregates

/-!
No name is captured. The subqueries that the passes build declare copies under the names of the ranges
that they were copied from; still each identifier reads the range to which its name leads from where it
stands. Only the merging of self-joins can break this: it lets identifiers within a subquery read
another range of the scope, and the subquery may have a copy under the name of this one.
-/

namespace RangeQuery

open RangeQuery.Graph

namespace Graph

variable {g : Graph} {root range : NodeId} {scopes : List NodeId}

/-! ## Written-out relations -/

namespace Lexical

variable (x : Lexical g root) (l : g.Linked root)

include x l

/-- Joining a range of the root by the columns of its relation keeps the names: the predicate reads the
range, which the root declares, and what the relation was read from. -/
theorem joinByColumns {i : Identifier} (declared : range ∈ (g.node root).declared)
    (joined : g.joinRelation? range = some i) (relation : Relation) :
    Lexical (g.joinByColumns range i.range relation) root := by
  obtain ⟨join, held, node⟩ := node_of_joinRelation? joined
  have slot := mem_children_of_join? held
  have isRange := isRange_of_join? held
  have slot' := declared_subset_children _ declared
  have above := below_of_child slot'
  have n : KeepsNames g (g.joinByColumns range i.range relation) := .of_rigid fun rigid =>
    same_joinByColumns rigid.toUnjoined g range i.range relation
  have grounded : ∀ scope ∈ g.levelFrom {root} range, g.Grounded scope := fun scope around =>
    l.grounded ((l.mem_levelFrom above).mp around).2.1
  have own : g.Finds range (g.levelFrom {root} range) := by
    rw [l.level_child (.refl g root) slot', enter_of_false (Node.opensScope_of_isRange isRange),
      l.level_of_trail .here, scopesAmong_cons, enter, if_pos (opensScope_of_declared declared)]
    exact .here declared
  have others : (g.node i.range).isRange = true ∧ g.Finds i.range (g.levelFrom {root} range) := by
    have found := (x.named_level l (above.child slot)).found i node
    rwa [l.level_child above slot, enter_of_false (by rw [node]; rfl)] at found
  refine x.reshaped l n (l.zone.reshapedByColumns above i.range relation) fun {id} mem new => ?_
  rw [levelWith_of_not_has new]
  have label := label_joinByColumns new
    ((l.zone.reshapedByColumns above i.range relation).inOrder.has mem)
  cases node' : (g.joinByColumns range i.range relation).node id with
  | identifier i' =>
    refine ⟨wellNamed_of_identifier node' ?_ ?_, rfl⟩ <;>
      rcases range_joinByColumns new node' with same | same <;> rw [same]
    · exact n.keeps.stamp.isRange_mono isRange
    · exact n.keeps.stamp.isRange_mono others.1
    · exact own.keep n.keeps isRange grounded
    · exact others.2.keep n.keeps others.1 grounded
  | binary op left right =>
    exact ⟨(wellNamed_of_silent (by rw [node']; rfl) _).1, rfl⟩
  | _ => simp [node', Node.label] at label

theorem expandJoins (metadata : Metadata) {ranges : List NodeId}
    (declared : ∀ range ∈ ranges, range ∈ (g.node root).declared) (expanded : Bool) :
    (Graph.expandJoins metadata g ranges expanded).1.Lexical root := by
  induction ranges generalizing g expanded with
  | nil => exact x
  | cons range rest ih =>
    unfold Graph.expandJoins
    split
    · exact ih x l (fun other later => declared other (by simp [later])) expanded
    · next relation joined =>
      split
      · exact x
      · next found _ =>
        have slot := declared range (by simp)
        have above := below_of_child (declared_subset_children _ slot)
        refine ih (x.joinByColumns l slot joined found)
          ((l.zone.reshapedByColumns above relation.range found).inOrder.linked rfl)
          (fun other later => ?_) true
        rw [(same_joinByColumns Node.unbound_declared.toUnjoined g range relation.range found).node
          l.has]
        exact declared other (by simp [later])

/-! ## Passes -/

/-- A pass over a scope keeps the names, unless it merges self-joins. -/
theorem apply {pass : Pass} {scope : NodeId} (isScope : g.ScopeIn root scope) (context : PassContext)
    (unmerged : pass = .selfJoins → (pass.apply context g scope).2.2 = false) :
    (pass.apply context g scope).1.Lexical root := by
  cases pass with
  | existenceMarkers => exact x.extractMarkers l isScope
  | anyTests => exact x.resolveAnys l isScope context.metadata
  | aggregates => exact x.freeAggregates context.metadata context.strategy l isScope
  | selfJoins => exact x.beside l (isScope.answers_mergeSelfJoins.silent (unmerged rfl))
  | requiredness => exact x.decideRequired l context.metadata context.pinned scope
  | anchors => exact x.normalizeAnchor l context.metadata isScope
  | deadJoins => exact x.dropDeadJoins l scope

end Lexical

namespace InOrder

variable {bodies : List NodeId}

/-- A pass over some scopes that merges no self-joins keeps the names. -/
theorem lexical_applyAll (o : InOrder root bodies scopes g) (x : g.Lexical root) {pass : Pass}
    {some : List NodeId} (among : some ⊆ scopes) (context : PassContext)
    (unmerged : pass = .selfJoins → (pass.applyAll context g some).2.2 = false) :
    InOrder root bodies scopes (pass.applyAll context g some).1 ∧
      (pass.applyAll context g some).1.Lexical root := by
  induction some generalizing g context with
  | nil => exact ⟨o, x⟩
  | cons scope rest ih =>
    have mem := among List.mem_cons_self
    have step : (pass.applyAll context g (scope :: rest)).2.2 =
        ((pass.apply context g scope).2.2 ||
          (pass.applyAll (pass.apply context g scope).2.1 (pass.apply context g scope).1
            rest).2.2) := rfl
    rw [step] at unmerged
    exact ih (o.apply pass context mem)
      (x.apply (o.linked root (by simp)) (o.scopes scope mem) context fun is =>
        (Bool.or_eq_false_iff.mp (unmerged is)).1)
      (fun other later => among (by simp [later])) _ fun is =>
        (Bool.or_eq_false_iff.mp (unmerged is)).2

/-- A run that lists no merging of self-joins keeps the names. -/
theorem lexical_run {settings : Settings} {passes : List Pass} {run : Run}
    (o : InOrder root bodies scopes run.graph) (x : run.graph.Lexical root)
    (unmerged : .selfJoins ∉ (passes.foldl (Run.step settings root scopes) run).report.applied) :
    (passes.foldl (Run.step settings root scopes) run).graph.Lexical root := by
  suffices kept : InOrder root bodies scopes
      (passes.foldl (Run.step settings root scopes) run).graph ∧
        (passes.foldl (Run.step settings root scopes) run).graph.Lexical root from kept.2
  induction passes generalizing run with
  | nil => exact ⟨o, x⟩
  | cons pass rest ih =>
    -- An application that merged would be listed, whatever comes later.
    have silent : pass = .selfJoins → settings.enables pass = true →
        (pass.applyAll run.context run.graph scopes).2.2 = false := by
      rintro rfl enabled
      by_contra changed
      exact unmerged (Run.mem_applied_foldl_step.mpr
        (.inr ⟨[], rest, rfl, enabled, Bool.of_not_eq_false changed⟩))
    have kept : InOrder root bodies scopes (Run.step settings root scopes run pass).graph ∧
        (Run.step settings root scopes run pass).graph.Lexical root := by
      unfold Run.step
      split
      · next enabled =>
        exact o.lexical_applyAll x (List.Subset.refl scopes) run.context fun is => silent is enabled
      · exact ⟨o, x⟩
    exact ih kept.1 kept.2 unmerged

end InOrder

end Graph

namespace Compiler

variable (c : Compiler) {q : Query} {report : Report}

theorem lexical_checkAndOptimize {bodies : List NodeId} (o : InOrder q.root bodies [] q.graph)
    (x : q.graph.Lexical q.root) (optimized : (c.checkAndOptimize q).2 = .ok report)
    (unmerged : .selfJoins ∉ report.applied) :
    (c.checkAndOptimize q).1.graph.Lexical (c.checkAndOptimize q).1.root := by
  unfold checkAndOptimize at optimized ⊢
  split
  · next checked =>
    rw [checked] at optimized
    have same : (q.runPasses Pass.all c.settings (.fresh c.metadata c.strategy)).2.2 = report := by
      dsimp only [optimize] at optimized
      split at optimized
      · split at optimized <;> cases optimized
        rfl
      · cases optimized
        rfl
    rw [← same] at unmerged
    rw [fst_optimize]
    exact (Query.inOrder_scopes o).lexical_run x unmerged
  · exact x

/-- A compilation that merges no self-joins keeps the names: where each scope of a query has ranges of
different names only, and each identifier reads the range to which its name leads, this is still so in
the end, whatever subqueries the passes have built. -/
theorem lexical_compile (w : q.WellLinked) (x : q.expandTemplates.1.graph.Lexical q.root)
    (compiled : (c.compile q).2 = .ok report) (unmerged : .selfJoins ∉ report.applied) :
    (c.compile q).1.graph.Lexical (c.compile q).1.root := by
  have expanded := Query.inOrder_expandTemplates w.inOrder
  rw [← q.root_expandTemplates] at expanded x
  unfold compile at compiled ⊢
  split
  · next q₁ fault first =>
    rw [first] at compiled
    cases compiled
  · next q₁ _ first =>
    rw [first] at expanded x compiled
    dsimp only at expanded x compiled
    have related := Query.inOrder_expandRelations expanded c.metadata
    have y : (q₁.expandRelations c.metadata).1.graph.Lexical q₁.root :=
      x.expandJoins (expanded.linked q₁.root (by simp)) c.metadata (fun range mem =>
        ranges_scope (isRetrieve_of_mem_ranges mem) ▸ mem) false
    rw [← q₁.root_expandRelations c.metadata] at related y
    split
    · next q₂ fault second =>
      rw [second] at compiled
      cases compiled
    · next q₂ _ second =>
      rw [second] at related y compiled
      exact c.lexical_checkAndOptimize related y compiled unmerged

end Compiler

/-- Where no other scope is below the root, it is enough that the ranges of the root differ in their
names and that the identifiers read ranges of the root. -/
theorem Graph.Lexical.of_closed {g : Graph} {root : NodeId} (ids : List NodeId) (mem : root ∈ ids)
    (closed : ∀ owner ∈ ids, ∀ child ∈ g.children owner, child ∈ ids)
    (flat : ∀ id ∈ ids, ((g.node id).opensScope = true ↔ id = root) ∧ (g.node id).nested? = none)
    (distinct : ((g.node root).declared.map g.rangeName).Nodup)
    (reads : ∀ id ∈ ids, ∀ i ∈ g.identifier? id, (g.node i.range).isRange = true ∧
      i.range ∈ (g.node root).declared) : g.Lexical root where
  named {trail id} way := by
    have within : ∀ other ∈ id :: trail, other ∈ ids := fun other on => by
      rcases List.mem_cons.mp on with rfl | above
      · exact Below.mem_of_closed ⟨trail, way⟩ mem closed
      · exact (way.below_of_mem above).1.mem_of_closed mem closed
    refine ⟨fun one declared other declared' _ _ same => ?_, fun i node => ?_, fun inner nested => ?_⟩
    · obtain rfl := (flat id (within id (by simp))).1.mp (opensScope_of_declared declared)
      exact List.inj_on_of_nodup_map distinct declared declared' same
    · obtain ⟨isRange, declared⟩ := reads id (within id (by simp)) i (identifier?_eq node)
      refine ⟨isRange, ?_⟩
      have top : root ∈ g.scopesAmong (id :: trail) := by
        refine List.mem_filter.mpr ⟨?_, opensScope_of_declared declared⟩
        rcases way.top with ⟨-, rfl⟩ | ⟨child, -, rest, -, rfl⟩ <;> simp
      cases scopes : g.scopesAmong (id :: trail) with
      | nil => simp [scopes] at top
      | cons scope outer =>
        have first : scope ∈ g.scopesAmong (id :: trail) := by simp [scopes]
        obtain ⟨on, opens⟩ := List.mem_filter.mp first
        obtain rfl := (flat scope (within scope on)).1.mp opens
        exact .here declared
    · rw [(flat id (within id (by simp))).2] at nested
      cases nested
  plain {id} below ne := by
    have opens := (flat id (below.mem_of_closed mem closed)).1.not.mpr ne
    cases node : g.node id with
    | retrieve r => exact absurd (by rw [node]; rfl) opens
    | _ => rfl

theorem lexical_compile_customersWithOrder :
    let report : Report := { applied := [.anyTests, .deadJoins], trace := [] }
    (customersWithOrder.WellLinked ∧
      customersWithOrder.expandTemplates.1.graph.Lexical customersWithOrder.root ∧
      (plainCompiler.compile customersWithOrder).2 = .ok report ∧ .selfJoins ∉ report.applied) ∧
    (plainCompiler.compile customersWithOrder).1.graph.Lexical
      (plainCompiler.compile customersWithOrder).1.root := by
  have same : customersWithOrder.expandTemplates.1 = customersWithOrder := by decide +kernel
  have lexical : customersWithOrder.expandTemplates.1.graph.Lexical customersWithOrder.root := by
    rw [same]
    exact .of_closed [⟨9⟩, ⟨0⟩, ⟨1⟩, ⟨2⟩, ⟨3⟩, ⟨4⟩, ⟨5⟩, ⟨6⟩, ⟨7⟩, ⟨8⟩] (by decide) (by decide)
      (by decide) (by decide) (by decide)
  have compiled : (plainCompiler.compile customersWithOrder).2 =
      .ok { applied := [.anyTests, .deadJoins], trace := [] } := by decide +kernel
  exact ⟨⟨wellLinked_customersWithOrder, lexical, compiled, by decide⟩,
    plainCompiler.lexical_compile wellLinked_customersWithOrder lexical compiled (by decide)⟩

end RangeQuery
