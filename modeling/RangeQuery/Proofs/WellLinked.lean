import RangeQuery.Compile
import RangeQuery.Proofs.Scope.AggregateCondition
import RangeQuery.Proofs.Scope.Anchor
import RangeQuery.Proofs.Scope.ExistenceMarker
import RangeQuery.Proofs.Scope.Expansion
import RangeQuery.Proofs.Scope.Requiredness
import RangeQuery.Proofs.Scope.SelfJoin

/-!
Well-linked queries stay so. Every pass takes the zone of a well-linked query to a zone with the
same roots, and leaves the scopes that later passes run over where they are; so a compilation keeps
the links whatever it ends with.
-/

namespace RangeQuery

/-- A query whose root is well linked and holds well-linked templates apart from the query. -/
structure Query.WellLinked (q : Query) : Prop where
  tree : q.graph.Linked q.root
  bodies : ∀ body ∈ (q.graph.node q.root).templateBodies, q.graph.Linked body
  apart : ∀ body ∈ (q.graph.node q.root).templateBodies, ∀ id, q.graph.Below q.root id →
    ¬ q.graph.Below body id

open RangeQuery.Graph

theorem Formal.apply {α : Type} {view : Node → α} (formal : Formal view) (pass : Pass)
    (context : PassContext) (g : Graph) (scope : NodeId) :
    Same view g (pass.apply context g scope).1 := by
  cases pass with
  | existenceMarkers => exact formal.toRigid.extractMarkers g scope
  | anyTests => exact formal.toSlotless.resolveAnys g context.metadata scope
  | aggregates => exact formal.toSlotless.freeAggregates g context.metadata context.strategy scope
  | selfJoins => exact formal.toUnbound.mergeSelfJoins g scope
  | requiredness => exact formal.toRigid.decideRequired g context.metadata context.pinned scope
  | anchors => exact formal.toSlotless.normalizeAnchor g context.metadata scope
  | deadJoins => exact formal.toUnbound.dropDeadJoins g scope

theorem Graph.Keeps.apply (pass : Pass) (context : PassContext) (g : Graph) (scope : NodeId) :
    Keeps g (pass.apply context g scope).1 := by
  cases pass with
  | existenceMarkers => exact .of_rigid fun rigid => rigid.extractMarkers g scope
  | anyTests => exact .resolveAnys g context.metadata scope
  | aggregates => exact .freeAggregates g context.metadata context.strategy scope
  | selfJoins => exact .of_unbound fun unbound => unbound.mergeSelfJoins g scope
  | requiredness =>
    exact .of_rigid fun rigid => rigid.decideRequired g context.metadata context.pinned scope
  | anchors => exact .normalizeAnchor g context.metadata scope
  | deadJoins => exact .of_unbound fun unbound => unbound.dropDeadJoins g scope

namespace Graph

variable {g h : Graph} {roots zone : Set NodeId} {level : NodeId → List NodeId}

theorem Widens.linked (w : Widens g h roots zone level) {top : NodeId} (mem : top ∈ roots) :
    h.Linked top := by
  obtain ⟨zone', level', reshaped, -⟩ := w
  exact reshaped.inOrder.linked mem

theorem Rearranges.linked (r : Rearranges g h roots zone level) {top : NodeId} (mem : top ∈ roots) :
    h.Linked top := by
  obtain ⟨zone', level', reshaped, -⟩ := r
  exact reshaped.inOrder.linked mem

/-- A pass over a scope of one of some well-linked roots leaves them all well linked. -/
theorem linked_apply (linked : ∀ top ∈ roots, g.Linked top) {root scope : NodeId}
    (mem : root ∈ roots) (within : g.ScopeIn root scope) (pass : Pass) (context : PassContext) :
    ∀ top ∈ roots, (pass.apply context g scope).1.Linked top := by
  have z := Zone.of_linked linked
  have inside := z.mem_of_below (z.root mem).1 within.reached
  intro top isRoot
  cases pass with
  | existenceMarkers => exact (z.extractMarkers (linked root mem) within.reached inside).linked isRoot
  | anyTests => exact (z.resolveAnys context.metadata scope).linked isRoot
  | aggregates => exact (z.freeAggregates context.metadata context.strategy inside).linked isRoot
  | selfJoins => exact (z.mergeSelfJoins inside).linked isRoot
  | requiredness => exact (Relabels.decideRequired g _ _ scope).linked (linked top isRoot)
  | anchors => exact (z.normalizeAnchor context.metadata inside).rearranges.linked isRoot
  | deadJoins => exact (Relabels.dropDeadJoins g scope).linked (linked top isRoot)

/-- The roots of a query are well linked and the scopes of a run lead down from its root. -/
structure InOrder (root : NodeId) (bodies scopes : List NodeId) (g : Graph) : Prop where
  linked : ∀ top ∈ {top | top ∈ root :: bodies}, g.Linked top
  bodies : (g.node root).templateBodies = bodies
  scopes : ∀ scope ∈ scopes, g.ScopeIn root scope

namespace InOrder

variable {root : NodeId} {bodies scopes : List NodeId} (o : InOrder root bodies scopes g)

include o

/-- One pass over one scope keeps a query in order. -/
theorem apply (pass : Pass) (context : PassContext) {scope : NodeId} (mem : scope ∈ scopes) :
    InOrder root bodies scopes (pass.apply context g scope).1 where
  linked := linked_apply o.linked (by simp) (o.scopes scope mem) pass context
  bodies := by
    rw [(Node.formal_templateBodies.apply pass context g scope).node (o.linked root (by simp)).has,
      o.bodies]
  scopes other mem' :=
    (Keeps.apply pass context g scope).scopeIn (o.linked root (by simp)) (o.scopes other mem')

end InOrder

end Graph

/-! ## Runs -/

/-- What one pass over one scope keeps of the context and the graph, it keeps over all of some
scopes. -/
theorem Pass.applyAll_context_induction {motive : PassContext → Graph → Prop} {pass : Pass}
    {scopes : List NodeId}
    (step : ∀ context g, ∀ scope ∈ scopes, motive context g →
      motive (pass.apply context g scope).2.1 (pass.apply context g scope).1)
    {context : PassContext} {g : Graph} (start : motive context g) :
    motive (pass.applyAll context g scopes).2.1 (pass.applyAll context g scopes).1 := by
  induction scopes generalizing g context with
  | nil => exact start
  | cons scope rest ih =>
    exact ih (fun context g other mem => step context g other (by simp [mem]))
      (step context g scope (by simp) start)

theorem Pass.applyAll_induction {motive : Graph → Prop} {pass : Pass} {scopes : List NodeId}
    (step : ∀ context g, ∀ scope ∈ scopes, motive g → motive (pass.apply context g scope).1)
    (context : PassContext) {g : Graph} (start : motive g) :
    motive (pass.applyAll context g scopes).1 :=
  applyAll_context_induction (motive := fun _ => motive) step start

/-- What the passes of a list keep over the scopes, a run of them keeps. -/
theorem Run.foldl_step_context_induction {motive : PassContext → Graph → Prop}
    {settings : Settings} {root : NodeId} {scopes : List NodeId} {passes : List Pass}
    (step : ∀ pass ∈ passes, ∀ context g, ∀ scope ∈ scopes, motive context g →
      motive (pass.apply context g scope).2.1 (pass.apply context g scope).1)
    {run : Run} (start : motive run.context run.graph) :
    motive (passes.foldl (Run.step settings root scopes) run).context
      (passes.foldl (Run.step settings root scopes) run).graph := by
  induction passes generalizing run with
  | nil => exact start
  | cons pass rest ih =>
    refine ih (fun other mem => step other (by simp [mem])) ?_
    unfold Run.step
    split
    · exact pass.applyAll_context_induction (step pass (by simp)) start
    · exact start

theorem Run.foldl_step_induction {motive : Graph → Prop} {settings : Settings} {root : NodeId}
    {scopes : List NodeId} {passes : List Pass}
    (step : ∀ pass ∈ passes, ∀ context g, ∀ scope ∈ scopes, motive g →
      motive (pass.apply context g scope).1) {run : Run} (start : motive run.graph) :
    motive (passes.foldl (Run.step settings root scopes) run).graph :=
  foldl_step_context_induction (motive := fun _ => motive) step start

/-- A run of passes over the scopes of a query keeps it in order. -/
theorem Query.inOrder_runPasses (q : Query) {bodies : List NodeId}
    (o : InOrder q.root bodies q.scopes q.graph) (passes : List Pass) (settings : Settings)
    (context : PassContext) :
    InOrder q.root bodies q.scopes (q.runPasses passes settings context).1.graph :=
  Run.foldl_step_induction (motive := InOrder q.root bodies q.scopes)
    (fun pass _ context _ _ mem o => o.apply pass context mem) o

/-! ## Compilation -/

namespace Query

variable {q : Query}

theorem WellLinked.inOrder (w : q.WellLinked) :
    InOrder q.root (q.graph.node q.root).templateBodies [] q.graph where
  linked top mem := by
    rcases List.mem_cons.mp mem with rfl | mem
    · exact w.tree
    · exact w.bodies top mem
  bodies := rfl
  scopes := by simp

theorem WellLinked.root_not_mem (w : q.WellLinked) :
    q.root ∉ (q.graph.node q.root).templateBodies := fun mem =>
  w.apart q.root mem q.root (Below.refl q.graph q.root) (Below.refl q.graph q.root)

theorem wellLinked_of_inOrder {bodies scopes : List NodeId}
    (o : InOrder q.root bodies scopes q.graph) (apart : q.root ∉ bodies) : q.WellLinked where
  tree := o.linked q.root (by simp)
  bodies body mem := o.linked body (by simp [o.bodies ▸ mem])
  apart body mem id above above' := by
    rw [o.bodies] at mem
    have same := (o.linked q.root (by simp)).eq_of_below (o.linked body (by simp [mem])) above above'
    exact apart (same ▸ mem)

theorem root_expandTemplates (q : Query) : q.expandTemplates.1.root = q.root := by
  simp only [expandTemplates]

theorem root_expandRelations (q : Query) (metadata : Metadata) :
    (q.expandRelations metadata).1.root = q.root := by
  simp only [expandRelations]

theorem inOrder_expandTemplates {bodies : List NodeId} (o : InOrder q.root bodies [] q.graph) :
    InOrder q.root bodies [] q.expandTemplates.1.graph := by
  obtain ⟨linked, same⟩ := expandRounds_cases o.linked q.root maxTemplateRounds false
  refine ⟨linked, ?_, by simp⟩
  have kept := (same Node.formal_templateBodies.toSlotless).node (o.linked q.root (by simp)).has
  exact kept.trans o.bodies

theorem inOrder_expandRelations {bodies : List NodeId} (o : InOrder q.root bodies [] q.graph)
    (metadata : Metadata) : InOrder q.root bodies [] (q.expandRelations metadata).1.graph := by
  have z := Zone.of_linked o.linked
  have isRoot : q.root ∈ {top | top ∈ q.root :: bodies} := by simp
  have declared : ∀ range ∈ q.clauses.ranges, range ∈ q.graph.children q.root := fun range mem =>
    q.graph.children_scope_subset q.root (by simp_all [Query.clauses, Node.children])
  obtain ⟨zone, level, reshaped, -⟩ := z.expandJoins metadata (fun range mem =>
    z.closed (z.root isRoot).1 (declared range mem) (Set.notMem_empty _)) false
  refine ⟨fun top mem => reshaped.inOrder.linked mem, ?_, by simp⟩
  have kept := (same_expandJoins Node.formal_templateBodies.toUnjoined q.graph metadata
    q.clauses.ranges false).node (o.linked q.root (by simp)).has
  exact kept.trans o.bodies

/-- The scopes of a query that is in order lead down from its root. -/
theorem inOrder_scopes {bodies : List NodeId} (o : InOrder q.root bodies [] q.graph) :
    InOrder q.root bodies q.scopes q.graph :=
  { o with scopes := fun _ => scopeIn_of_mem_scopes }

end Query

namespace Compiler

variable (c : Compiler) {q : Query}

/-- An optimised query is the one that the passes leave, whatever the last check says. -/
theorem fst_optimize (q : Query) : (c.optimize q).1 =
    (q.runPasses Pass.all c.settings (.fresh c.metadata c.strategy)).1 := by
  unfold optimize
  dsimp only
  split
  · split <;> rfl
  · rfl

theorem wellLinked_checkAndOptimize {bodies : List NodeId} (o : InOrder q.root bodies [] q.graph)
    (apart : q.root ∉ bodies) : (c.checkAndOptimize q).1.WellLinked := by
  unfold checkAndOptimize
  split
  · rw [fst_optimize]
    exact Query.wellLinked_of_inOrder (q.inOrder_runPasses (Query.inOrder_scopes o) ..) apart
  · exact Query.wellLinked_of_inOrder o apart

/-- A compilation keeps a query well linked, whether it ends with a report or with an error. -/
theorem wellLinked_compile (w : q.WellLinked) : (c.compile q).1.WellLinked := by
  have expanded := Query.inOrder_expandTemplates w.inOrder
  have apart := w.root_not_mem
  rw [← q.root_expandTemplates] at expanded
  have root := q.root_expandTemplates
  unfold compile
  split
  · next q₁ fault first =>
    rw [first] at expanded root
    exact Query.wellLinked_of_inOrder (q := q₁) expanded (root ▸ apart)
  · next q₁ _ first =>
    rw [first] at expanded root
    dsimp only at expanded root
    have related := Query.inOrder_expandRelations expanded c.metadata
    have root' := q₁.root_expandRelations c.metadata
    rw [← root'] at related
    rw [root] at root'
    split
    · next q₂ fault second =>
      rw [second] at related root'
      exact Query.wellLinked_of_inOrder (q := q₂) related (root' ▸ apart)
    · next q₂ _ second =>
      rw [second] at related root'
      exact c.wellLinked_checkAndOptimize (q := q₂) related (root' ▸ apart)

end Compiler

/-- Customers with an order: one range is joined to the other and read by an ANY, and there is a
template. -/
def customersWithOrder : Query where
  graph := ⟨#[
    ⟨.range { name := "c", entity := some "Customer", join := none, required := false
              included := true, nested := none }, some ⟨9⟩⟩,
    ⟨.range { name := "o", entity := some "Order", join := some ⟨4⟩, required := false
              included := true, nested := none }, some ⟨9⟩⟩,
    ⟨.identifier { range := ⟨1⟩, path := ["customerId"] }, some ⟨4⟩⟩,
    ⟨.identifier { range := ⟨0⟩, path := ["id"] }, some ⟨4⟩⟩,
    ⟨.binary .eq ⟨2⟩ ⟨3⟩, some ⟨1⟩⟩,
    ⟨.identifier { range := ⟨1⟩, path := ["id"] }, some ⟨6⟩⟩,
    ⟨.aggregate { function := .any, operand := ⟨5⟩, condition := none }, some ⟨9⟩⟩,
    ⟨.identifier { range := ⟨0⟩, path := ["name"] }, some ⟨8⟩⟩,
    ⟨.projection { name := "name", expression := ⟨7⟩, visible := true }, some ⟨9⟩⟩,
    ⟨.retrieve { Retrieve.empty with
      ranges := [⟨0⟩, ⟨1⟩], values := [⟨8⟩], condition := some ⟨6⟩
      templates := .ofList [("one", ⟨10⟩)] }, none⟩,
    ⟨.number "1", none⟩]⟩
  root := ⟨9⟩

theorem wellLinked_customersWithOrder : customersWithOrder.WellLinked := by
  have order : InOrder customersWithOrder.root [⟨10⟩] [] customersWithOrder.graph := by
    refine ⟨fun top mem => ?_, by decide, by simp⟩
    rcases List.mem_cons.mp mem with rfl | mem
    · exact .of_closed [⟨9⟩, ⟨0⟩, ⟨1⟩, ⟨2⟩, ⟨3⟩, ⟨4⟩, ⟨5⟩, ⟨6⟩, ⟨7⟩, ⟨8⟩] (by decide) (by decide)
        (by decide) (by decide) (by decide)
    · obtain rfl := List.mem_singleton.mp mem
      exact .of_closed [⟨10⟩] (by decide) (by decide) (by decide) (by decide) (by decide)
  exact Query.wellLinked_of_inOrder order (by decide)

/-- A compiler without relations that keeps aggregates in their scopes. -/
def plainCompiler : Compiler where
  metadata := { relations := fun _ => [], nullable := fun _ _ => true }
  settings := .defaults
  strategy := keepInScope

theorem wellLinked_compile_customersWithOrder :
    customersWithOrder.WellLinked ∧ (plainCompiler.compile customersWithOrder).1.WellLinked :=
  ⟨wellLinked_customersWithOrder, plainCompiler.wellLinked_compile wellLinked_customersWithOrder⟩

end RangeQuery
