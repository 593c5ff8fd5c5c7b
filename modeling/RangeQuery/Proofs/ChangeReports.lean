import RangeQuery.Proofs.Anchors
import RangeQuery.Proofs.Scope.AggregateAnswers
import RangeQuery.Proofs.Scope.RangeAnswers

/-!
Change reports are exact. A pass over a scope answers "unchanged" exactly if the nodes from the root
and their recorded owners are as they were, whatever it built and gave up on the way. So a run lists
a pass exactly if the pass changed the query in one of the scopes.
-/

namespace RangeQuery

open RangeQuery.Graph

/-- The answer of a pass over a scope. -/
theorem Graph.Linked.answers_apply {g : Graph} {root scope : NodeId} (l : g.Linked root)
    (isScope : g.ScopeIn root scope) (pass : Pass) (context : PassContext) :
    Answers g (Altered root g) (pass.apply context g scope).1 (pass.apply context g scope).2.2 := by
  cases pass with
  | existenceMarkers => exact l.answers_extractMarkers isScope
  | anyTests =>
    exact (l.answers_resolveAnys isScope context.metadata).map fun regrown => regrown.altered l
  | aggregates => exact l.answers_freeAggregates context.metadata context.strategy isScope
  | selfJoins => exact isScope.answers_mergeSelfJoins
  | requiredness => exact isScope.answers_decideRequired context.metadata context.pinned
  | anchors => exact isScope.answers_normalizeAnchor context.metadata
  | deadJoins => exact isScope.answers_dropDeadJoins

/-! ## Runs -/

namespace Pass

/-- A pass over some scopes answers that it changed something if it did so at one of them. -/
theorem applyAll_changed_iff (pass : Pass) (context : PassContext) (g : Graph)
    (scopes : List NodeId) : (pass.applyAll context g scopes).2.2 = true ↔
      ∃ done scope rest, scopes = done ++ scope :: rest ∧
        (pass.apply (pass.applyAll context g done).2.1 (pass.applyAll context g done).1
          scope).2.2 = true := by
  induction scopes generalizing context g with
  | nil => simp [applyAll]
  | cons first others ih =>
    have step : (pass.applyAll context g (first :: others)).2.2 =
        ((pass.apply context g first).2.2 ||
          (pass.applyAll (pass.apply context g first).2.1 (pass.apply context g first).1
            others).2.2) := rfl
    rw [step, Bool.or_eq_true, ih]
    constructor
    · rintro (here | ⟨done, scope, rest, rfl, later⟩)
      · exact ⟨[], first, others, rfl, here⟩
      · exact ⟨first :: done, scope, rest, rfl, later⟩
    · rintro ⟨done, scope, rest, split, changed⟩
      cases done with
      | nil =>
        obtain ⟨rfl, rfl⟩ := List.cons_eq_cons.mp split
        exact .inl changed
      | cons head done =>
        obtain ⟨rfl, rfl⟩ := List.cons_eq_cons.mp split
        exact .inr ⟨done, scope, rest, rfl, changed⟩

end Pass

/-- A run lists the passes that the settings let run and that answer that they changed something. -/
theorem Run.mem_applied_foldl_step {settings : Settings} {root : NodeId} {scopes : List NodeId}
    {passes : List Pass} {run : Run} {pass : Pass} :
    pass ∈ (passes.foldl (Run.step settings root scopes) run).report.applied ↔
      pass ∈ run.report.applied ∨ ∃ earlier later, passes = earlier ++ pass :: later ∧
        settings.enables pass = true ∧
        (pass.applyAll (earlier.foldl (Run.step settings root scopes) run).context
          (earlier.foldl (Run.step settings root scopes) run).graph scopes).2.2 = true := by
  induction passes generalizing run with
  | nil => simp
  | cons first others ih =>
    have here : pass ∈ (Run.step settings root scopes run first).report.applied ↔
        pass ∈ run.report.applied ∨ pass = first ∧ settings.enables pass = true ∧
          (pass.applyAll run.context run.graph scopes).2.2 = true := by
      unfold Run.step
      split
      · next enabled =>
        simp only [Report.record]
        split
        · next changed =>
          simp only [List.mem_append, List.mem_singleton]
          exact or_congr_right ⟨fun same => by subst same; exact ⟨rfl, enabled, changed⟩, And.left⟩
        · next unchanged =>
          refine ⟨.inl, fun found => found.elim id fun ⟨same, _, changed⟩ => ?_⟩
          subst same
          exact absurd changed unchanged
      · next disabled =>
        refine ⟨.inl, fun found => found.elim id fun ⟨same, enabled, _⟩ => ?_⟩
        subst same
        exact absurd enabled disabled
    rw [List.foldl_cons, ih, here]
    constructor
    · rintro ((before | ⟨rfl, enabled, changed⟩) | ⟨earlier, later, rfl, found⟩)
      · exact .inl before
      · exact .inr ⟨[], others, rfl, enabled, changed⟩
      · exact .inr ⟨first :: earlier, later, rfl, found⟩
    · rintro (before | ⟨earlier, later, split, found⟩)
      · exact .inl (.inl before)
      · cases earlier with
        | nil =>
          obtain ⟨rfl, rfl⟩ := List.cons_eq_cons.mp split
          exact .inl (.inr ⟨rfl, found⟩)
        | cons head earlier =>
          obtain ⟨rfl, rfl⟩ := List.cons_eq_cons.mp split
          exact .inr ⟨earlier, later, rfl, found⟩

namespace Query

variable {q : Query}

/-- How a run of some passes goes on until a pass comes to a scope: the earlier passes are over, and
the pass has been at some of the scopes. -/
def reaches (q : Query) (settings : Settings) (context : PassContext) (earlier : List Pass)
    (pass : Pass) (done : List NodeId) : PassContext × Graph :=
  let run := earlier.foldl (Run.step settings q.root q.scopes)
    { graph := q.graph, context, report := .empty }
  let state := pass.applyAll run.context run.graph done
  (state.2.1, state.1)

/-- When a pass comes to a scope, the query is well linked and the scope is one. -/
theorem linked_reaches (linked : q.graph.Linked q.root) (settings : Settings)
    (context : PassContext) (earlier : List Pass) (pass : Pass) {done : List NodeId}
    (scopes : done ⊆ q.scopes) :
    (q.reaches settings context earlier pass done).2.Linked q.root ∧
      ∀ scope ∈ q.scopes, (q.reaches settings context earlier pass done).2.ScopeIn q.root scope := by
  let kept (g : Graph) : Prop := g.Linked q.root ∧ ∀ scope ∈ q.scopes, g.ScopeIn q.root scope
  have step : ∀ (pass : Pass) context g, ∀ scope ∈ q.scopes, kept g →
      kept (pass.apply context g scope).1 := by
    rintro pass context g scope mem ⟨l, isScope⟩
    have roots : ∀ top ∈ ({q.root} : Set NodeId), g.Linked top := fun top is => by
      rw [Set.mem_singleton_iff.mp is]
      exact l
    exact ⟨linked_apply roots rfl (isScope scope mem) pass context q.root rfl, fun other mem' =>
      (Keeps.apply pass context g scope).scopeIn l (isScope other mem')⟩
  have before : kept (earlier.foldl (Run.step settings q.root q.scopes)
      { graph := q.graph, context, report := .empty }).graph :=
    Run.foldl_step_induction (motive := kept) (fun pass _ => step pass)
      ⟨linked, fun scope mem => scopeIn_of_mem_scopes mem⟩
  exact Pass.applyAll_induction (motive := kept)
    (fun context g scope mem => step pass context g scope (scopes mem)) _ before

/-- A pass over a scope of a well-linked query answers that it changed nothing exactly if the nodes
from the root and their recorded owners are as they were; and a run lists the passes that, at one of
the scopes, left them otherwise than they found them. -/
theorem answers_are_exact (linked : q.graph.Linked q.root) :
    (∀ (pass : Pass) (context : PassContext), ∀ scope ∈ q.scopes,
      (pass.apply context q.graph scope).2.2 = false ↔
        Intact q.root q.graph (pass.apply context q.graph scope).1) ∧
    ∀ (passes : List Pass) (settings : Settings) (context : PassContext) (pass : Pass),
      pass ∈ (q.runPasses passes settings context).2.2.applied ↔
        ∃ earlier later done scope rest, passes = earlier ++ pass :: later ∧
          settings.enables pass = true ∧ q.scopes = done ++ scope :: rest ∧
          let before := q.reaches settings context earlier pass done
          ¬ Intact q.root before.2 (pass.apply before.1 before.2 scope).1 := by
  refine ⟨fun pass context scope mem => ?_, fun passes settings context pass => ?_⟩
  · exact (linked.answers_apply (scopeIn_of_mem_scopes mem) pass context).intact_iff linked
  have exact_at : ∀ {earlier done scope rest}, q.scopes = done ++ scope :: rest →
      ((pass.apply (q.reaches settings context earlier pass done).1
        (q.reaches settings context earlier pass done).2 scope).2.2 = true ↔
      ¬ Intact q.root (q.reaches settings context earlier pass done).2
        (pass.apply (q.reaches settings context earlier pass done).1
          (q.reaches settings context earlier pass done).2 scope).1) := by
    intro earlier done scope rest split
    have already : done ⊆ q.scopes := by
      rw [split]
      exact List.subset_append_left _ _
    obtain ⟨l, isScope⟩ := linked_reaches linked settings context earlier pass already
    have answers := l.answers_apply (isScope scope (by rw [split]; simp)) pass
      (q.reaches settings context earlier pass done).1
    rw [← answers.intact_iff l, Bool.not_eq_false]
  refine Iff.trans Run.mem_applied_foldl_step ?_
  simp only [Report.empty, List.not_mem_nil, false_or, Pass.applyAll_changed_iff]
  constructor
  · rintro ⟨earlier, later, order, enabled, done, scope, rest, split, changed⟩
    exact ⟨earlier, later, done, scope, rest, order, enabled, split, (exact_at split).mp changed⟩
  · rintro ⟨earlier, later, done, scope, rest, order, enabled, split, altered⟩
    exact ⟨earlier, later, order, enabled, done, scope, rest, split, (exact_at split).mpr altered⟩

/-- On the customers with an order, merging self-joins changes nothing; resolving the ANY does. -/
theorem answers_are_exact_customersWithOrder :
    let start := PassContext.fresh plainCompiler.metadata plainCompiler.strategy
    let merged := (Pass.selfJoins.apply start customersWithOrder.graph ⟨9⟩).1
    let resolved := (Pass.anyTests.apply start customersWithOrder.graph ⟨9⟩).1
    customersWithOrder.graph.Linked customersWithOrder.root ∧ ⟨9⟩ ∈ customersWithOrder.scopes ∧
      Intact ⟨9⟩ customersWithOrder.graph merged ∧ ¬ Intact ⟨9⟩ customersWithOrder.graph resolved := by
  have linked := wellLinked_customersWithOrder.tree
  have exact_at := (answers_are_exact linked).1
  refine ⟨linked, by decide, (exact_at .selfJoins _ ⟨9⟩ (by decide)).mp (by decide), fun intact => ?_⟩
  exact absurd ((exact_at .anyTests _ ⟨9⟩ (by decide)).mpr intact) (by decide)

end Query

end RangeQuery
