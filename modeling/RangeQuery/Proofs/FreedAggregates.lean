import RangeQuery.Proofs.Anchors
import RangeQuery.Proofs.Scope.ConditionalAggregates

/-!
Aggregates without conditions. After a compilation in which the pass over aggregates runs, no value
and no sort key of a scope has an aggregate with a condition. Subqueries are excepted: what was copied
into one before that pass keeps its conditions.
-/

namespace RangeQuery

theorem Node.unbound_outputs : Unbound Node.outputs where
  join _ _ := rfl
  required _ _ := rfl
  window _ _ := rfl
  condition {node _ _} h := by
    cases node <;> simp only [withCondition?, Option.some.injEq, reduceCtorEq] at h <;> subst h <;>
      rfl
  range _ _ := rfl
  included _ _ := rfl

theorem Node.disjoint_declared_outputs {node : Node} (nodup : node.children.Nodup) {id : NodeId}
    (declared : id ∈ node.declared) : id ∉ node.outputs := by
  intro output
  cases node with
  | retrieve r =>
    simp only [children, List.append_assoc] at nodup
    refine List.disjoint_of_nodup_append nodup declared ?_
    simp only [outputs, Retrieve.outputs, List.mem_append] at output ⊢
    tauto
  | _ => cases output

open RangeQuery.Graph

namespace Graph

variable {g h : Graph} {root scope other top id : NodeId}

/-- No value and no sort key of a scope has an aggregate with a condition, outside subqueries. -/
def Freed (g : Graph) (scope : NodeId) : Prop :=
  ∀ output ∈ (g.scope scope).outputs, ∀ id, g.Outside output id →
    (g.node id).isConditional = false

theorem outputs_scope (g : Graph) (scope : NodeId) :
    (g.scope scope).outputs = (g.node scope).outputs := by
  cases node : g.node scope <;> simp [Graph.scope, Node.outputs, node, Retrieve.empty, Retrieve.outputs]

theorem freed_iff : g.Freed scope ↔
    ∀ output ∈ (g.node scope).outputs, ∀ id, ¬ g.ConditionalIn output id := by
  simp only [Freed, outputs_scope, ConditionalIn, not_and, Bool.not_eq_true]

/-! ## Scopes and outputs -/

/-- What a scope computes hangs in a slot of its own, apart from the ranges that it declares. -/
theorem Linked.output_apart (l : g.Linked root) (isScope : g.ScopeIn root scope)
    (mem : top ∈ (g.node scope).outputs) :
    top ∈ g.children scope ∧ top ∉ (g.node scope).declared :=
  ⟨Node.outputs_subset_children _ mem, fun declared =>
    Node.disjoint_declared_outputs (l.nodup isScope.reached) declared mem⟩

/-- No scope lies below what a scope computes. -/
theorem Linked.not_below_output (l : g.Linked root) (isScope : g.ScopeIn root scope)
    (isScope' : g.ScopeIn root other) (mem : top ∈ (g.node other).outputs) :
    ¬ g.Below top scope := by
  obtain ⟨slot, apart⟩ := l.output_apart isScope' mem
  exact l.not_below_slot isScope isScope' slot apart

/-- Nothing that a scope declares lies below what a scope computes. -/
theorem Linked.not_below_output_of_declared (l : g.Linked root) (isScope : g.ScopeIn root scope)
    (isScope' : g.ScopeIn root other) (mem : top ∈ (g.node other).outputs)
    (declared : id ∈ (g.node scope).declared) : ¬ g.Below top id := by
  obtain ⟨slot, apart⟩ := l.output_apart isScope' mem
  exact l.not_below_slot_of_declared isScope isScope' slot apart declared

/-! ## The pass over aggregates -/

/-- What a scope computes under a condition is among its sites. -/
theorem ConditionalIn.exists_site (l : g.Linked root) (isScope : g.ScopeIn root scope)
    (mem : top ∈ (g.node scope).outputs) (held : g.ConditionalIn top id) :
    ∃ site ∈ g.aggregateSites (g.scope scope), site.1 = id := by
  have listed := (l.mem_conditionalAggregates
    (isScope.reached.child (Node.outputs_subset_children _ mem))).mpr held
  rw [← outputs_scope, Retrieve.outputs, List.mem_append] at mem
  simp only [aggregateSites, List.mem_append, List.mem_map, List.mem_flatMap]
  rcases mem with value | key
  · exact ⟨(id, .values), .inl (.inl ⟨id, ⟨top, value, listed⟩, rfl⟩), rfl⟩
  · exact ⟨(id, .sort), .inr ⟨id, ⟨top, List.mem_map.mp key, listed⟩, rfl⟩, rfl⟩

section

variable (metadata : Metadata) (strategy : AggregateStrategy) (l : g.Linked root)
  (isScope : g.ScopeIn root scope) (isScope' : g.ScopeIn root other)

include l isScope isScope'

/-- Promoting a condition into the filter of a scope takes it out of the outputs. -/
theorem ConditionalIn.of_promoteCondition (mem : top ∈ (g.node other).outputs)
    (held : (g.promoteCondition scope).1.ConditionalIn top id) : g.ConditionalIn top id := by
  unfold promoteCondition at held
  split at held
  · next aggregate condition found =>
    obtain ⟨value, a, -, -, -, node, -⟩ := soleConditional?_eq_some found
    refine held.mono fun owner below => ?_
    have ne : owner ≠ scope := fun same => l.not_below_output isScope isScope' mem (same ▸ below)
    simp only [children, node_setCondition_of_ne _ ne]
    by_cases same : owner = aggregate
    · subst same
      have freed : (g.node owner).withCondition? none =
          some (.aggregate { a with condition := none }) := by rw [node]; rfl
      rw [node_setCondition_self (has_of_aggregate node) freed, node]
      exact ⟨rfl, by simp [Node.children], by simp [Node.isConditional]⟩
    · rw [node_setCondition_of_ne _ same]
      exact ⟨rfl, fun _ mem => mem, fun conditional => conditional⟩
  · exact held

theorem ConditionalIn.of_freeAggregatesOfOne
    (mem : top ∈ ((g.freeAggregatesOfOne scope).1.node other).outputs)
    (held : (g.freeAggregatesOfOne scope).1.ConditionalIn top id) :
    top ∈ (g.node other).outputs ∧ g.ConditionalIn top id ∧ other ≠ scope := by
  have keeps := Keeps.promoteCondition g scope
  obtain ⟨zone, level, reshaped, -⟩ := l.zone.promoteCondition isScope.reached
  have l' := reshaped.inOrder.linked (Set.mem_singleton root)
  have has : ∀ {scope}, g.ScopeIn root scope → g.Has scope := fun isScope =>
    l.has_of_below isScope.reached
  have outputs : ∀ {other}, g.ScopeIn root other →
      ((g.promoteCondition scope).1.node other).outputs = (g.node other).outputs := fun isScope' =>
    (Node.unbound_outputs.toSteady.promoteCondition g scope).node (has isScope')
  have sub : (g.scope scope).outputs ⊆ ((g.promoteCondition scope).1.node scope).outputs := by
    rw [outputs isScope, outputs_scope]
    exact fun _ mem => mem
  unfold freeAggregatesOfOne at mem held
  dsimp only at mem held
  rw [node_changeEach (fun _ start isRetrieve => node_foldConditionsUnder_of_isRetrieve isRetrieve start)
    (keeps.scopeIn l isScope').isRetrieve] at mem
  obtain ⟨held, other⟩ := held.of_foldOutputs l' (keeps.scopeIn l isScope) (keeps.scopeIn l isScope')
    sub mem
  rw [outputs isScope'] at mem
  refine ⟨mem, held.of_promoteCondition l isScope isScope' mem, ?_⟩
  rintro rfl
  exact other (outputs_scope g _ ▸ mem)

/-- The pass over aggregates leaves no aggregate with a condition in its scope. -/
theorem ConditionalIn.of_freeAggregates
    (mem : top ∈ ((g.freeAggregates metadata strategy scope).1.node other).outputs)
    (held : (g.freeAggregates metadata strategy scope).1.ConditionalIn top id) :
    (∃ before ∈ (g.node other).outputs, g.ConditionalIn before id) ∧ other ≠ scope := by
  unfold freeAggregates at mem held
  dsimp only at mem held
  split at held
  · next one =>
    rw [if_pos one] at mem
    obtain ⟨mem, held, ne⟩ := held.of_freeAggregatesOfOne l isScope isScope' mem
    exact ⟨⟨top, mem, held⟩, ne⟩
  · next several =>
    rw [if_neg several] at mem
    have within : ∀ site ∈ (g.aggregateSites (g.scope scope)).reverse, g.Below root site.1 :=
      fun site listed =>
        isScope.reached.trans (below_of_mem_aggregateSites (List.mem_reverse.mp listed))
    obtain ⟨before, among, had, others⟩ := held.of_freeAggregate l.zone isScope'
      (g.isRange_includedRanges scope) within mem
    refine ⟨⟨before, among, had⟩, ?_⟩
    rintro rfl
    obtain ⟨site, listed, same⟩ := had.exists_site l isScope among
    exact others site (List.mem_reverse.mpr listed) same.symm

end

/-! ## The passes behind it -/

/-- What changes only the slots of a scope and of the ranges it declares leaves what the scopes
compute. -/
theorem Freed.elsewhere (freed : g.Freed other) (l : g.Linked root)
    (isScope : g.ScopeIn root scope) (isScope' : g.ScopeIn root other)
    (stamp : Same Node.stamp g h) (outputs : (h.node other).outputs = (g.node other).outputs)
    (children : ∀ owner, g.Has owner → owner ≠ scope → owner ∉ (g.node scope).declared →
      h.children owner = g.children owner) : h.Freed other := by
  rw [freed_iff] at freed ⊢
  intro output mem id held
  rw [outputs] at mem
  refine freed output mem id (held.mono fun owner below => ?_)
  have has := l.has_of_below <|
    (isScope'.reached.child (Node.outputs_subset_children _ mem)).trans below
  have slots := children owner has
    (fun same => l.not_below_output isScope isScope' mem (same ▸ below))
    fun declared => l.not_below_output_of_declared isScope isScope' mem declared below
  refine ⟨?_, fun _ slot => slots ▸ slot, fun conditional => ?_⟩
  · rw [← Node.isSubquery_stamp, stamp.node has, Node.isSubquery_stamp]
  · rwa [← Node.isConditional_congr (stamp.node has) slots]

theorem Freed.mergeSelfJoins (freed : g.Freed other) (l : g.Linked root)
    (isScope : g.ScopeIn root scope) (isScope' : g.ScopeIn root other) :
    (g.mergeSelfJoins scope).1.Freed other := by
  refine l.mergeSelfJoins_induction isScope (motive := fun h => h.Freed other)
    (fun {h pair} l' unbound found freed => ?_) freed
  have keeps := Keeps.of_unbound unbound
  have isScope'' := keeps.scopeIn l isScope'
  have p := isPair_of_findIdentity? found
  refine freed.elsewhere l' (keeps.scopeIn l isScope) isScope''
    (Node.formal_stamp.toUnbound.mergePair h scope pair)
    ((Node.unbound_outputs.mergePair h scope pair).node (l'.has_of_below isScope''.reached)) ?_
  intro owner has _ foreign
  have relabeled := (Relabels.rebind (h.rejoined pair) scope
    (Renaming.empty.insert pair.removed pair.kept)).trans (.exclude _ pair.removed)
  have kept := (mem_includedRanges p.kept).1
  have removed := (mem_includedRanges p.removed).1
  rw [mergePair_eq, relabeled.children, children, children, node_rejoined_of_ne]
  · exact fun same => foreign (same ▸ kept)
  · exact fun same => foreign (same ▸ removed)

theorem Freed.putAnchorFirst (freed : g.Freed other) (l : g.Linked root)
    (isScope : g.ScopeIn root scope) (isScope' : g.ScopeIn root other) :
    (g.putAnchorFirst scope).1.Freed other := by
  rcases g.putAnchorFirst_cases scope with same | ⟨anchor, -, same⟩
  · rwa [same]
  · rw [same]
    have has := l.has_of_below isScope'.reached
    cases held : (g.node scope).ranges? with
    | none => simpa only [setRanges, held] using freed
    | some old =>
      refine freed.elsewhere l isScope isScope' (Node.formal_stamp.toSeated.setRanges g scope _) ?_
        fun owner has' ne _ => ?_
      · rw [node_setRanges held has]
        split
        · next is => rw [is]; cases g.node scope <;> rfl
        · rfl
      · rw [children, node_setRanges held has', if_neg ne, children]

/-- What only changes labels leaves what the scopes compute. -/
theorem Freed.relabels (freed : g.Freed other) (l : g.Linked root) (isScope : g.ScopeIn root other)
    (unbound : ∀ {α : Type} {view : Node → α}, Unbound view → Same view g h)
    (r : Relabels g h) : h.Freed other :=
  freed.elsewhere l isScope isScope (unbound Node.formal_stamp.toUnbound)
    ((unbound Node.unbound_outputs).node (l.has_of_below isScope.reached))
    fun owner _ _ _ => r.children owner

end Graph

namespace Graph.Steadfast

variable {g start : Graph} {root scope other : NodeId} {bodies scopes : List NodeId}
  (s : Steadfast start root bodies scopes g) (o : InOrder root bodies scopes start)
  (anchored : ∀ scope ∈ scopes, start.Anchored scope)

include s o anchored

/-- From the pass over aggregates on, no pass gives an aggregate of a scope a condition. -/
theorem freed_apply {pass : Pass} (later : pass ∈ [.aggregates, .selfJoins, .requiredness, .anchors,
      .deadJoins]) (context : PassContext) (mem : scope ∈ scopes) (mem' : other ∈ scopes)
    (freed : g.Freed other) : (pass.apply context g scope).1.Freed other := by
  have l := s.order.linked root (by simp)
  have isScope := s.order.scopes scope mem
  have isScope' := s.order.scopes other mem'
  cases pass with
  | existenceMarkers => simp at later
  | anyTests => simp at later
  | aggregates =>
    rw [freed_iff] at freed ⊢
    intro output computed id held
    obtain ⟨⟨before, among, held⟩, -⟩ :=
      held.of_freeAggregates context.metadata context.strategy l isScope isScope' computed
    exact freed before among id held
  | selfJoins => exact freed.mergeSelfJoins l isScope isScope'
  | requiredness =>
    exact freed.relabels l isScope'
      (fun unbound => unbound.toSteady.decideRequired g context.metadata context.pinned scope)
      (.decideRequired g context.metadata context.pinned scope)
  | anchors =>
    simp only [Pass.apply, (s.anchored_of_mem o anchored mem).normalizeAnchor]
    exact freed.putAnchorFirst l isScope isScope'
  | deadJoins =>
    exact freed.relabels l isScope' (fun unbound => unbound.dropDeadJoins g scope)
      (.dropDeadJoins g scope)

/-- After the pass over aggregates has been over some scopes, these are free of conditions, and so
are the others that were. -/
theorem freed_applyAll (context : PassContext) {rest : List NodeId} (sub : rest ⊆ scopes)
    (freed : ∀ scope ∈ scopes, scope ∉ rest → g.Freed scope) :
    ∀ scope ∈ scopes, (Pass.aggregates.applyAll context g rest).1.Freed scope := by
  induction rest generalizing g context with
  | nil => exact fun scope mem => freed scope mem (by simp)
  | cons first rest ih =>
    have mem : first ∈ scopes := sub (by simp)
    refine ih (s.apply o anchored .aggregates context mem) _ (fun _ later => sub (by simp [later]))
      fun other mem' rested => ?_
    by_cases same : other = first
    · subst same
      rw [freed_iff]
      intro output computed id held
      exact (held.of_freeAggregates context.metadata context.strategy
        (s.order.linked root (by simp)) (s.order.scopes other mem) (s.order.scopes other mem)
        computed).2 rfl
    · exact s.freed_apply o anchored (by simp) context mem mem' (freed other mem' (by simp [same, rested]))

end Graph.Steadfast

/-- After a run of all passes, the one over aggregates among them, no value and no sort key of a
scope has an aggregate with a condition, outside subqueries. -/
theorem Query.freed_runPasses {q : Query} {bodies : List NodeId}
    (o : InOrder q.root bodies q.scopes q.graph)
    (anchored : ∀ scope ∈ q.scopes, q.graph.Anchored scope) {settings : Settings}
    (enabled : settings.enables .aggregates = true) (context : PassContext) :
    ∀ scope ∈ q.scopes, (q.runPasses Pass.all settings context).1.graph.Freed scope := by
  have parts : Pass.all = [.existenceMarkers, .anyTests] ++ ([.aggregates] ++
    [.selfJoins, .requiredness, .anchors, .deadJoins]) := rfl
  have before := steadfast_runPasses o anchored [.existenceMarkers, .anyTests] settings context
  simp only [runPasses, parts, List.foldl_append] at before ⊢
  generalize List.foldl (Run.step settings q.root q.scopes) _ [.existenceMarkers, .anyTests] = run
    at before ⊢
  have step : ([.aggregates].foldl (Run.step settings q.root q.scopes) run).graph =
      (Pass.aggregates.applyAll run.context run.graph q.scopes).1 := by
    simp [Run.step, enabled]
  have freed := before.freed_applyAll o anchored run.context (fun _ mem => mem)
    fun _ mem absent => absurd mem absent
  have kept : Steadfast q.graph q.root bodies q.scopes
      (Pass.aggregates.applyAll run.context run.graph q.scopes).1 :=
    Pass.aggregates.applyAll_induction (motive := Steadfast q.graph q.root bodies q.scopes)
      (fun context _ _ mem s => s.apply o anchored .aggregates context mem) run.context before
  rw [← step] at freed kept
  refine (Run.foldl_step_induction (motive := fun g => Steadfast q.graph q.root bodies q.scopes g ∧
      ∀ scope ∈ q.scopes, g.Freed scope)
    (fun pass later context g changed mem s => ?_) ⟨kept, freed⟩).2
  exact ⟨s.1.apply o anchored pass context mem, fun scope mem' =>
    s.1.freed_apply o anchored (List.mem_cons_of_mem _ later) context mem mem' (s.2 scope mem')⟩

/-- After a compilation without an error that runs the pass over aggregates, no value and no sort key
of a scope has an aggregate with a condition, outside subqueries. -/
theorem Compiler.freed_compile (c : Compiler) {q : Query} (w : q.WellLinked)
    (plain : q.PlainScopes) (enabled : c.settings.enables .aggregates = true)
    (done : (c.compile q).2.isOk = true) :
    ∀ scope ∈ q.scopes, (c.compile q).1.graph.Freed scope := by
  have checked := c.checked_of_isOk w plain done
  obtain ⟨bodies, order⟩ := checked.order
  intro scope mem
  rw [checked.result]
  exact Query.freed_runPasses order checked.anchored enabled _ scope
    ((checked.mem_scopes_iff w).mpr mem)

/-- The total of the paid orders, which a condition tells from the others. -/
def totalOfPaidOrders : Query where
  graph := ⟨#[
    ⟨.range { name := "o", entity := some "Order", join := none, required := false
              included := true, nested := none }, some ⟨7⟩⟩,
    ⟨.identifier { range := ⟨0⟩, path := ["total"] }, some ⟨5⟩⟩,
    ⟨.identifier { range := ⟨0⟩, path := ["paid"] }, some ⟨4⟩⟩,
    ⟨.number "1", some ⟨4⟩⟩,
    ⟨.binary .eq ⟨2⟩ ⟨3⟩, some ⟨5⟩⟩,
    ⟨.aggregate { function := .sum, operand := ⟨1⟩, condition := some ⟨4⟩ }, some ⟨6⟩⟩,
    ⟨.projection { name := "value0", expression := ⟨5⟩, visible := true }, some ⟨7⟩⟩,
    ⟨.retrieve { Retrieve.empty with ranges := [⟨0⟩], values := [⟨6⟩] }, none⟩]⟩
  root := ⟨7⟩

theorem wellLinked_totalOfPaidOrders : totalOfPaidOrders.WellLinked := by
  have order : InOrder totalOfPaidOrders.root [] [] totalOfPaidOrders.graph := by
    refine ⟨fun top mem => ?_, by decide, by simp⟩
    obtain rfl := List.mem_singleton.mp mem
    exact .of_closed [⟨7⟩, ⟨0⟩, ⟨1⟩, ⟨2⟩, ⟨3⟩, ⟨4⟩, ⟨5⟩, ⟨6⟩] (by decide) (by decide) (by decide)
      (by decide) (by decide)
  exact Query.wellLinked_of_inOrder order (by decide)

theorem plainScopes_totalOfPaidOrders : totalOfPaidOrders.PlainScopes :=
  ⟨by decide, by decide⟩

theorem isOk_compile_totalOfPaidOrders :
    (plainCompiler.compile totalOfPaidOrders).2.isOk = true := by decide +kernel

theorem not_freed_totalOfPaidOrders : ¬ totalOfPaidOrders.graph.Freed ⟨7⟩ := fun freed => by
  have reached : totalOfPaidOrders.graph.Outside ⟨6⟩ ⟨5⟩ :=
    (Outside.refl _ ⟨6⟩).child (by decide) (by decide)
  have none := freed ⟨6⟩ (by decide) ⟨5⟩ reached
  revert none
  decide

theorem freed_compile_totalOfPaidOrders :
    (totalOfPaidOrders.WellLinked ∧ totalOfPaidOrders.PlainScopes ∧
      plainCompiler.settings.enables .aggregates = true ∧
      (plainCompiler.compile totalOfPaidOrders).2.isOk = true) ∧
    ¬ totalOfPaidOrders.graph.Freed ⟨7⟩ ∧
    ∀ scope ∈ totalOfPaidOrders.scopes,
      (plainCompiler.compile totalOfPaidOrders).1.graph.Freed scope :=
  ⟨⟨wellLinked_totalOfPaidOrders, plainScopes_totalOfPaidOrders, rfl,
      isOk_compile_totalOfPaidOrders⟩, not_freed_totalOfPaidOrders,
    plainCompiler.freed_compile wellLinked_totalOfPaidOrders plainScopes_totalOfPaidOrders rfl
      isOk_compile_totalOfPaidOrders⟩

end RangeQuery
