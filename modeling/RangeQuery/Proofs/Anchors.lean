import RangeQuery.Proofs.Scope.AnchorCount

/-!
Every scope keeps its anchors. Where no placeholder stands among the ranges of a scope, writing out
templates and relations leaves the scopes and their anchors; of a query that passes the checks every
scope with a range has an anchor, and each pass leaves a scope as many as it had. The pass that places
anchors cannot be switched off, and the one behind it drops none, so every scope starts with one in
the end.
-/

namespace RangeQuery

/-- Every range of a scope that reads from a query reads from a scope. -/
def Query.NestsScopes (q : Query) : Prop :=
  ∀ scope ∈ q.scopes, ∀ range ∈ (q.graph.scope scope).ranges, ∀ inner ∈ q.graph.nested? range,
    (q.graph.node inner).isRetrieve = true

/-- No placeholder stands among the ranges of a scope, where it might stand for a range. -/
def Query.DeclaresNoPlaceholder (q : Query) : Prop :=
  ∀ scope ∈ q.scopes, ∀ range ∈ (q.graph.scope scope).ranges, q.graph.placeholder? range = none

instance (q : Query) : Decidable q.NestsScopes :=
  inferInstanceAs (Decidable (∀ scope ∈ q.scopes, ∀ range ∈ (q.graph.scope scope).ranges,
    ∀ inner ∈ q.graph.nested? range, (q.graph.node inner).isRetrieve = true))

instance (q : Query) : Decidable q.DeclaresNoPlaceholder :=
  inferInstanceAs (Decidable (∀ scope ∈ q.scopes, ∀ range ∈ (q.graph.scope scope).ranges,
    q.graph.placeholder? range = none))

/-- The ranges of every scope are written out, and nest scopes only. -/
structure Query.PlainScopes (q : Query) : Prop where
  nested : q.NestsScopes
  written : q.DeclaresNoPlaceholder

open RangeQuery.Graph

namespace Graph

variable {g h k : Graph} {root scope : NodeId}

/-! ## Scopes and anchors before the passes -/

/-- The scopes from a root are the same, and each has as many anchors as it had. -/
structure SameAnchors (g h : Graph) (root : NodeId) : Prop where
  scopes : ∀ scope, h.ScopeIn root scope ↔ g.ScopeIn root scope
  count : ∀ scope, g.ScopeIn root scope → (h.anchors scope).length = (g.anchors scope).length

namespace SameAnchors

theorem refl (g : Graph) (root : NodeId) : SameAnchors g g root := ⟨fun _ => Iff.rfl, fun _ _ => rfl⟩

theorem trans (a : SameAnchors g h root) (b : SameAnchors h k root) : SameAnchors g k root where
  scopes scope := (b.scopes scope).trans (a.scopes scope)
  count scope isScope := (b.count scope ((a.scopes scope).mpr isScope)).trans (a.count scope isScope)

end SameAnchors

theorem SameScopes.sameAnchors (same : SameScopes g h root) (l : g.Linked root)
    (l' : h.Linked root) (starts : Same Node.startsJoin g h) : SameAnchors g h root where
  scopes _ := same.scopeIn_iff l
  count _ isScope :=
    (Graph.perm_anchors l l' isScope ((same.scopeIn_iff l).mpr isScope) starts
      (same.declared isScope)).length_eq

/-! ## Checked scopes -/

theorem anchored_of_anchorFault? (isRetrieve : (g.node scope).isRetrieve = true)
    (none : g.anchorFault? (g.node scope).declared = none) : g.Anchored scope := by
  intro some
  unfold anchorFault? at none
  split at none
  · next kept =>
    simp only [Bool.or_eq_true, List.isEmpty_iff, some, List.any_eq_true, false_or] at kept
    obtain ⟨id, declared, starts⟩ := kept
    refine List.ne_nil_of_mem ((mem_anchors isRetrieve).mpr ⟨declared, ?_⟩)
    cases node : g.node id <;> simp_all [range?, Node.startsJoin]
  · cases none

/-- The check finds no fault from a scope only. -/
theorem isRetrieve_of_faultWithin? {depth : Nat} {top : NodeId}
    (none : g.faultWithin? (depth + 1) top = none) : (g.node top).isRetrieve = true := by
  cases node : g.node top with
  | retrieve r => rfl
  | _ => simp [faultWithin?, node] at none

/-- The check of a scope: its names, its anchors, its ranges, its values, its sort keys and its
filter, in this order. -/
theorem faultWithin?_succ (isRetrieve : (g.node scope).isRetrieve = true) (depth : Nat) :
    g.faultWithin? (depth + 1) scope =
      ((repeatedName? [] ((g.node scope).declared.map g.rangeName)).map .duplicateRange).or
        ((g.anchorFault? (g.node scope).declared).or
        (((g.node scope).declared.findSome?
          (g.rangeFault? (g.faultWithin? depth) (g.node scope).declared)).or
        (((g.scope scope).values.findSome?
          (g.undeclaredFault? (g.node scope).declared .values)).or
        (((g.scope scope).sort.findSome? (g.sortFault? (g.node scope).declared)).or
        ((g.scope scope).condition.bind (g.filterFault? (g.node scope).declared)))))) := by
  obtain ⟨r, node⟩ := Node.exists_of_isRetrieve isRetrieve
  simp only [faultWithin?, node, Graph.scope]
  rfl

theorem rangeFault?_eq {range : NodeId} {r : Range} (node : g.node range = .range r)
    (nestedFault? : NodeId → Option QueryError) (declared : List NodeId) :
    g.rangeFault? nestedFault? declared range =
      (r.join.bind (g.joinFault? declared r.name)).or (r.nested.bind nestedFault?) := by
  simp only [rangeFault?, range?, node]

/-- Where the check finds no fault, it finds none from any of the scopes. -/
theorem exists_faultWithin?_eq_none {depth : Nat} {top : NodeId}
    (none : g.faultWithin? depth top = none) (mem : scope ∈ g.scopesWithin depth top) :
    ∃ depth, g.faultWithin? (depth + 1) scope = Option.none := by
  induction depth generalizing top with
  | zero => simp [scopesWithin] at mem
  | succ depth ih =>
    obtain ⟨isRetrieve, rfl | ⟨range, declared, inner, nested, deeper⟩⟩ := mem_scopesWithin_succ.mp mem
    · exact ⟨depth, none⟩
    · obtain ⟨r, node⟩ := Node.exists_of_isRange (isRange_of_nested? nested)
      have reads : r.nested = some inner := by rwa [node] at nested
      simp only [faultWithin?_succ isRetrieve, Option.or_eq_none_iff, List.findSome?_eq_none_iff] at none
      have fault := none.2.2.1 range declared
      rw [rangeFault?_eq node, reads, Option.or_eq_none_iff, Option.bind_some] at fault
      exact ih fault.2 deeper

/-- A scope without a fault has an anchor if it declares anything, and so have those behind it. -/
theorem anchored_of_faultWithin? {depth : Nat} {top : NodeId}
    (none : g.faultWithin? depth top = none) (mem : scope ∈ g.scopesWithin depth top) :
    g.Anchored scope := by
  obtain ⟨depth, none⟩ := exists_faultWithin?_eq_none none mem
  have isRetrieve := isRetrieve_of_faultWithin? none
  rw [faultWithin?_succ isRetrieve, Option.or_eq_none_iff, Option.or_eq_none_iff] at none
  exact anchored_of_anchorFault? isRetrieve none.2.1

/-! ## Passes -/

/-- A pass leaves every scope as many anchors as it had. -/
theorem InOrder.length_anchors_apply {bodies scopes : List NodeId} (o : InOrder root bodies scopes g)
    (pass : Pass) (context : PassContext) {changed other : NodeId} (mem : changed ∈ scopes)
    (mem' : other ∈ scopes) (anchored : g.Anchored changed) :
    ((pass.apply context g changed).1.anchors other).length = (g.anchors other).length := by
  have l := o.linked root (by simp)
  have l' := (o.apply pass context mem).linked root (by simp)
  have isScope := o.scopes other mem'
  have kept : Same Node.startsJoin g (pass.apply context g changed).1 →
      ((pass.apply context g changed).1.anchors other).length = (g.anchors other).length :=
    fun same => ((Keeps.apply pass context g changed).perm_anchors l l' same isScope).length_eq
  have view := Node.seated_startsJoin
  cases pass with
  | existenceMarkers => exact kept (view.toSteady.extractMarkers g changed)
  | anyTests => exact kept (view.resolveAnys g context.metadata changed)
  | aggregates => exact kept (view.freeAggregates g context.metadata context.strategy changed)
  | selfJoins => exact l.length_anchors_mergeSelfJoins (o.scopes changed mem) isScope
  | requiredness =>
    exact kept (view.toSteady.decideRequired g context.metadata context.pinned changed)
  | anchors =>
    refine kept ?_
    simp only [Pass.apply, anchored.normalizeAnchor]
    exact view.putAnchorFirst g changed
  | deadJoins => exact kept (.startsJoin_dropDeadJoins g changed)

/-- A query in order during a run: its scopes are those of the start, with as many anchors. -/
structure Steadfast (start : Graph) (root : NodeId) (bodies scopes : List NodeId) (g : Graph) :
    Prop where
  order : InOrder root bodies scopes g
  keeps : Keeps start g
  reads : Same Node.readsQuery start g
  count : ∀ scope ∈ scopes, (g.anchors scope).length = (start.anchors scope).length

namespace Steadfast

variable {start : Graph} {bodies scopes : List NodeId} (s : Steadfast start root bodies scopes g)
  (o : InOrder root bodies scopes start) (anchored : ∀ scope ∈ scopes, start.Anchored scope)

include s o anchored

theorem anchored_of_mem (mem : scope ∈ scopes) : g.Anchored scope := by
  intro some
  have some' : (start.node scope).declared ≠ [] := fun none =>
    some (s.keeps.declared_eq_nil ((o.linked root (by simp)).has_of_below
      (o.scopes scope mem).reached) none)
  rw [← List.length_pos_iff, s.count scope mem]
  exact List.length_pos_iff.mpr (anchored scope mem some')

/-- One pass over one scope keeps the scopes and the numbers of their anchors. -/
theorem apply (pass : Pass) (context : PassContext) (mem : scope ∈ scopes) :
    Steadfast start root bodies scopes (pass.apply context g scope).1 where
  order := s.order.apply pass context mem
  keeps := s.keeps.trans (.apply pass context g scope)
  reads := s.reads.trans (Node.formal_readsQuery.apply pass context g scope)
  count other mem' :=
    (s.order.length_anchors_apply pass context mem mem' (s.anchored_of_mem o anchored mem)).trans
      (s.count other mem')

/-- The pass that places anchors lets its scope start with one, and leaves the others that do. -/
theorem startsWithAnchor_apply (context : PassContext) {first other : NodeId} (mem : first ∈ scopes)
    (mem' : other ∈ scopes) (starts : other ≠ first → g.StartsWithAnchor other) :
    (Pass.anchors.apply context g first).1.StartsWithAnchor other := by
  have l := s.order.linked root (by simp)
  have anchoredFirst := s.anchored_of_mem o anchored mem
  have isScope' := (s.apply o anchored .anchors context mem).order.scopes other mem'
  simp only [Pass.apply, anchoredFirst.normalizeAnchor] at isScope' ⊢
  have isScope := s.order.scopes other mem'
  by_cases same : other = first
  · subst same
    exact anchoredFirst.startsWithAnchor_putAnchorFirst l isScope
  · exact (starts same).same l isScope isScope' (Node.seated_startsJoin.putAnchorFirst g first)
      (declared_putAnchorFirst_of_ne (l.has_of_below isScope.reached) same)

/-- After the pass that places anchors has been over some scopes, these start with one, and so do
the others that did. -/
theorem startsWithAnchor_applyAll (context : PassContext) {rest : List NodeId} (sub : rest ⊆ scopes)
    (starts : ∀ scope ∈ scopes, scope ∉ rest → g.StartsWithAnchor scope) :
    ∀ scope ∈ scopes, (Pass.anchors.applyAll context g rest).1.StartsWithAnchor scope := by
  induction rest generalizing g context with
  | nil => exact fun scope mem => starts scope mem (by simp)
  | cons first rest ih =>
    have mem : first ∈ scopes := sub (by simp)
    refine ih (s.apply o anchored .anchors context mem) _ (fun _ later => sub (by simp [later]))
      fun other mem' rested => ?_
    exact s.startsWithAnchor_apply o anchored context mem mem' fun ne =>
      starts other mem' (by simp [ne, rested])

/-- Dropping dead joins leaves every scope that starts with an anchor so. -/
theorem startsWithAnchor_dropDeadJoins (context : PassContext) {changed : NodeId}
    (mem : changed ∈ scopes) (mem' : scope ∈ scopes) (starts : g.StartsWithAnchor scope) :
    (Pass.deadJoins.apply context g changed).1.StartsWithAnchor scope := by
  have l := s.order.linked root (by simp)
  have isScope := s.order.scopes scope mem'
  exact starts.same l isScope ((s.apply o anchored .deadJoins context mem).order.scopes scope mem')
    (.startsJoin_dropDeadJoins g changed) <|
      (Node.unbound_declared.dropDeadJoins g changed).node (l.has_of_below isScope.reached)

end Steadfast

end Graph

/-! ## Runs -/

namespace Query

variable {q : Query} {bodies : List NodeId}

/-- A run of all passes over a query whose scopes have the anchors they need keeps the scopes and the
numbers of their anchors. -/
theorem steadfast_runPasses (o : InOrder q.root bodies q.scopes q.graph)
    (anchored : ∀ scope ∈ q.scopes, q.graph.Anchored scope) (passes : List Pass)
    (settings : Settings) (context : PassContext) :
    Steadfast q.graph q.root bodies q.scopes (q.runPasses passes settings context).1.graph :=
  Run.foldl_step_induction (motive := Steadfast q.graph q.root bodies q.scopes)
    (fun pass _ context _ _ mem s => s.apply o anchored pass context mem)
    ⟨o, .refl _, .refl _ _, fun _ _ => rfl⟩

theorem sameAnchors_runPasses (o : InOrder q.root bodies q.scopes q.graph)
    (anchored : ∀ scope ∈ q.scopes, q.graph.Anchored scope) (plain : q.graph.PlainScopes q.root)
    (passes : List Pass) (settings : Settings) (context : PassContext) :
    SameAnchors q.graph (q.runPasses passes settings context).1.graph q.root := by
  have l := o.linked q.root (by simp)
  have s := steadfast_runPasses o anchored passes settings context
  refine ⟨fun scope => (s.keeps.sameScopes s.reads l plain).scopeIn_iff l, fun scope isScope => ?_⟩
  exact s.count scope ((mem_scopes_iff l).mpr isScope)

/-- After a run of all passes every scope starts with an anchor. -/
theorem startsWithAnchor_runPasses (o : InOrder q.root bodies q.scopes q.graph)
    (anchored : ∀ scope ∈ q.scopes, q.graph.Anchored scope) (settings : Settings)
    (context : PassContext) :
    ∀ scope ∈ q.scopes,
      (q.runPasses Pass.all settings context).1.graph.StartsWithAnchor scope := by
  have parts : Pass.all = [.existenceMarkers, .anyTests, .aggregates, .selfJoins, .requiredness] ++
    [.anchors, .deadJoins] := rfl
  have before := steadfast_runPasses o anchored
    [.existenceMarkers, .anyTests, .aggregates, .selfJoins, .requiredness] settings context
  simp only [runPasses, parts, List.foldl_append] at before ⊢
  generalize List.foldl (Run.step settings q.root q.scopes) _ _ = run at before ⊢
  have placed : ∀ scope ∈ q.scopes,
      (Run.step settings q.root q.scopes run .anchors).graph.StartsWithAnchor scope :=
    before.startsWithAnchor_applyAll o anchored run.context (fun _ mem => mem)
      fun _ mem absent => absurd mem absent
  have kept : Steadfast q.graph q.root bodies q.scopes
      (Run.step settings q.root q.scopes run .anchors).graph :=
    Pass.anchors.applyAll_induction (motive := Steadfast q.graph q.root bodies q.scopes)
      (fun context _ _ mem s => s.apply o anchored .anchors context mem) run.context before
  refine (Run.foldl_step_induction (motive := fun g => Steadfast q.graph q.root bodies q.scopes g ∧
      ∀ scope ∈ q.scopes, g.StartsWithAnchor scope)
    (fun pass (last : pass ∈ [.deadJoins]) context g changed mem s => ?_) ⟨kept, placed⟩).2
  obtain rfl := List.mem_singleton.mp last
  exact ⟨s.1.apply o anchored .deadJoins context mem, fun scope mem' =>
    s.1.startsWithAnchor_dropDeadJoins o anchored context mem mem' (s.2 scope mem')⟩

/-! ## Expansion -/

/-- Writing out the templates leaves plain scopes and their anchors. -/
theorem WellLinked.sameAnchors_expandTemplates (w : q.WellLinked)
    (plain : q.graph.PlainScopes q.root) :
    q.expandTemplates.1.graph.PlainScopes q.root ∧
      SameAnchors q.graph q.expandTemplates.1.graph q.root := by
  have kept := @expandRounds_induction q.graph
    (fun g => (∀ top ∈ {top | top ∈ q.root :: (q.graph.node q.root).templateBodies}, g.Linked top) ∧
      g.PlainScopes q.root ∧ SameAnchors q.graph g q.root) q.root
    (fun {g id body} kept found _ => ?_) maxTemplateRounds false
    ⟨fun top mem => w.inOrder.linked top mem, plain, .refl _ _⟩
  · exact kept.2
  · obtain ⟨linked, plain, anchors⟩ := kept
    have l := linked q.root (by simp)
    have linked' := linked_fill linked found body
    have same := plain.sameScopes_fill l found body
    exact ⟨linked', plain.same same l fun isScope _ mem =>
      plain.declared_fill l found body isScope ▸ mem, anchors.trans <|
      same.sameAnchors l (linked' q.root (by simp)) (same_fill Node.seated_startsJoin.toPlaced g id body)⟩

/-- Writing out the relations leaves plain scopes and their anchors. -/
theorem sameAnchors_expandRelations (o : InOrder q.root bodies [] q.graph)
    (plain : q.graph.PlainScopes q.root) (metadata : Metadata) :
    (q.expandRelations metadata).1.graph.PlainScopes q.root ∧
      SameAnchors q.graph (q.expandRelations metadata).1.graph q.root := by
  have l := o.linked q.root (by simp)
  have l' := (inOrder_expandRelations o metadata).linked q.root (by simp)
  have unbound : ∀ {α : Type} {view : Node → α}, Unbound view →
      Same view q.graph (q.expandRelations metadata).1.graph := fun unbound =>
    same_expandJoins unbound.toUnjoined q.graph metadata q.clauses.ranges false
  have same : SameScopes q.graph (q.expandRelations metadata).1.graph q.root := .of_unbound l unbound
  exact ⟨plain.same same l fun isScope _ mem =>
      (unbound Node.unbound_declared).node (l.has_of_below isScope.reached) ▸ mem,
    same.sameAnchors l l' <|
        .expandJoins Node.seated_startsJoin.toPlaced q.graph metadata q.clauses.ranges false⟩

theorem PlainScopes.graph (plain : q.PlainScopes) (l : q.graph.Linked q.root) :
    q.graph.PlainScopes q.root := by
  intro scope range isScope declared
  have mem := (mem_scopes_iff l).mpr isScope
  rw [← ranges_scope isScope.isRetrieve] at declared
  refine ⟨plain.written scope mem range declared, fun inner reads => ?_⟩
  exact plain.nested scope mem range declared inner (nested?_eq q.graph range ▸ reads)

end Query

/-! ## Compilation -/

namespace Compiler

variable (c : Compiler) {q : Query}

/-- A compilation without an error has written out templates and relations, passed the checks, and
run the passes. -/
theorem compile_of_isOk (done : (c.compile q).2.isOk = true) :
    (q.expandTemplates.1.expandRelations c.metadata).1.validate = .ok () ∧
      (c.compile q).1 = ((q.expandTemplates.1.expandRelations c.metadata).1.runPasses Pass.all
        c.settings (.fresh c.metadata c.strategy)).1 := by
  unfold compile at done ⊢
  split at done
  · cases done
  · next q₁ _ first =>
    split at done
    · cases done
    · next q₂ _ second =>
      unfold checkAndOptimize at done
      split at done
      · next valid =>
        simp only [first, second, checkAndOptimize, valid, fst_optimize, and_self]
      · cases done

/-- What a compilation without an error has run its passes over: the query as it was written out and
passed the checks, with the scopes that it had before, and their anchors. -/
structure Checked (q written : Query) : Prop where
  root : written.root = q.root
  order : ∃ bodies, InOrder written.root bodies written.scopes written.graph
  plain : written.graph.PlainScopes written.root
  anchors : SameAnchors q.graph written.graph q.root
  anchored : ∀ scope ∈ written.scopes, written.graph.Anchored scope
  result : (c.compile q).1 =
    (written.runPasses Pass.all c.settings (.fresh c.metadata c.strategy)).1

theorem checked_of_isOk (w : q.WellLinked) (plain : q.PlainScopes)
    (done : (c.compile q).2.isOk = true) :
    c.Checked q (q.expandTemplates.1.expandRelations c.metadata).1 := by
  obtain ⟨valid, result⟩ := c.compile_of_isOk done
  obtain ⟨plain₁, anchors₁⟩ := w.sameAnchors_expandTemplates (plain.graph w.tree)
  have o₁ := Query.inOrder_expandTemplates w.inOrder
  have root₁ := q.root_expandTemplates
  generalize q.expandTemplates.1 = q₁ at *
  rw [← root₁] at plain₁ o₁
  obtain ⟨plain₂, anchors₂⟩ := Query.sameAnchors_expandRelations o₁ plain₁ c.metadata
  have o₂ := Query.inOrder_expandRelations o₁ c.metadata
  have root₂ := q₁.root_expandRelations c.metadata
  generalize (q₁.expandRelations c.metadata).1 = q₂ at *
  rw [← root₂] at plain₂ o₂
  rw [root₁] at anchors₂
  exact ⟨root₂.trans root₁, ⟨_, Query.inOrder_scopes o₂⟩, plain₂, anchors₁.trans anchors₂,
    fun scope mem => anchored_of_faultWithin? ((q₂.validate_eq_ok_iff).mp valid) mem, result⟩

namespace Checked

variable {c} {written : Query} (checked : c.Checked q written)

include checked

theorem linked : written.graph.Linked written.root := by
  obtain ⟨bodies, order⟩ := checked.order
  exact order.linked written.root (by simp)

/-- The passes run over the scopes of the query as it was before. -/
theorem mem_scopes_iff (w : q.WellLinked) {scope : NodeId} :
    scope ∈ written.scopes ↔ scope ∈ q.scopes := by
  rw [Graph.mem_scopes_iff checked.linked, Graph.mem_scopes_iff w.tree, checked.root,
    checked.anchors.scopes]

/-- The passes leave the scopes and the numbers of their anchors. -/
theorem sameAnchors : SameAnchors q.graph (c.compile q).1.graph q.root := by
  obtain ⟨bodies, order⟩ := checked.order
  have run := Query.sameAnchors_runPasses order checked.anchored checked.plain Pass.all
    c.settings (.fresh c.metadata c.strategy)
  rw [← checked.result, checked.root] at run
  exact checked.anchors.trans run

end Checked

/-- A compilation without an error keeps the scopes of a query and the number of anchors of each,
and every scope that declares a range starts with one. Placeholders may stand anywhere but among the
ranges of a scope. -/
theorem anchors_compile (w : q.WellLinked) (nested : q.NestsScopes)
    (written : q.DeclaresNoPlaceholder) (done : (c.compile q).2.isOk = true) :
    (∀ scope, scope ∈ (c.compile q).1.scopes ↔ scope ∈ q.scopes) ∧
      ∀ scope ∈ q.scopes,
        ((c.compile q).1.graph.anchors scope).length = (q.graph.anchors scope).length ∧
          (c.compile q).1.graph.StartsWithAnchor scope := by
  have checked := c.checked_of_isOk w ⟨nested, written⟩ done
  obtain ⟨bodies, order⟩ := checked.order
  have l' := (c.wellLinked_compile w).tree
  have all := checked.sameAnchors
  have root : (c.compile q).1.root = q.root := by
    rw [checked.result]
    exact checked.root
  have starts := Query.startsWithAnchor_runPasses order checked.anchored c.settings
    (.fresh c.metadata c.strategy)
  rw [← checked.result] at starts
  refine ⟨fun scope => ?_, fun scope mem => ⟨?_, ?_⟩⟩
  · rw [mem_scopes_iff l', mem_scopes_iff w.tree, root, all.scopes]
  · exact all.count scope ((mem_scopes_iff w.tree).mp mem)
  · exact starts scope ((checked.mem_scopes_iff w).mpr mem)

end Compiler

/-- Orders, and among the ranges a placeholder that stands for payments. -/
def ordersBesidePlaceholder : Query where
  graph := ⟨#[
    ⟨.range { name := "o", entity := some "Order", join := none, required := false
              included := true, nested := none }, some ⟨4⟩⟩,
    ⟨.range { name := "p", entity := some "Payment", join := none, required := false
              included := true, nested := none }, none⟩,
    ⟨.identifier { range := ⟨0⟩, path := ["id"] }, some ⟨3⟩⟩,
    ⟨.projection { name := "value0", expression := ⟨2⟩, visible := true }, some ⟨4⟩⟩,
    ⟨.retrieve { Retrieve.empty with
      ranges := [⟨0⟩, ⟨5⟩], values := [⟨3⟩], templates := .ofList [("m", ⟨1⟩)] }, none⟩,
    ⟨.placeholder "m", some ⟨4⟩⟩]⟩
  root := ⟨4⟩

theorem wellLinked_ordersBesidePlaceholder : ordersBesidePlaceholder.WellLinked := by
  have order : InOrder ordersBesidePlaceholder.root [⟨1⟩] [] ordersBesidePlaceholder.graph := by
    refine ⟨fun top mem => ?_, by decide, by simp⟩
    rcases List.mem_cons.mp mem with rfl | mem
    · exact .of_closed [⟨4⟩, ⟨0⟩, ⟨2⟩, ⟨3⟩, ⟨5⟩] (by decide) (by decide) (by decide) (by decide)
        (by decide)
    · obtain rfl := List.mem_singleton.mp mem
      exact .of_closed [⟨1⟩] (by decide) (by decide) (by decide) (by decide) (by decide)
  exact Query.wellLinked_of_inOrder order (by decide)

theorem nestsScopes_ordersBesidePlaceholder : ordersBesidePlaceholder.NestsScopes := by decide

/-- A placeholder among the ranges may stand for a range, and then the scope has one anchor before the
compilation and two after it. -/
theorem moreAnchors_compile_ordersBesidePlaceholder :
    (ordersBesidePlaceholder.WellLinked ∧ ordersBesidePlaceholder.NestsScopes ∧
      (plainCompiler.compile ordersBesidePlaceholder).2.isOk = true) ∧
    (⟨4⟩ : NodeId) ∈ ordersBesidePlaceholder.scopes ∧
    (ordersBesidePlaceholder.graph.anchors ⟨4⟩).length = 1 ∧
    ((plainCompiler.compile ordersBesidePlaceholder).1.graph.anchors ⟨4⟩).length = 2 :=
  ⟨⟨wellLinked_ordersBesidePlaceholder, nestsScopes_ordersBesidePlaceholder, by decide +kernel⟩,
    by decide, by decide, by decide +kernel⟩

theorem nestsScopes_customersWithOrder : customersWithOrder.NestsScopes := by decide

theorem declaresNoPlaceholder_customersWithOrder : customersWithOrder.DeclaresNoPlaceholder := by decide

theorem isOk_compile_customersWithOrder :
    (plainCompiler.compile customersWithOrder).2.isOk = true := by decide +kernel

theorem anchors_compile_customersWithOrder :
    (customersWithOrder.WellLinked ∧ customersWithOrder.NestsScopes ∧
      customersWithOrder.DeclaresNoPlaceholder ∧
      (plainCompiler.compile customersWithOrder).2.isOk = true) ∧
    (∀ scope, scope ∈ (plainCompiler.compile customersWithOrder).1.scopes ↔
      scope ∈ customersWithOrder.scopes) ∧
    ∀ scope ∈ customersWithOrder.scopes,
      ((plainCompiler.compile customersWithOrder).1.graph.anchors scope).length =
          (customersWithOrder.graph.anchors scope).length ∧
        (plainCompiler.compile customersWithOrder).1.graph.StartsWithAnchor scope :=
  ⟨⟨wellLinked_customersWithOrder, nestsScopes_customersWithOrder,
      declaresNoPlaceholder_customersWithOrder, isOk_compile_customersWithOrder⟩,
    plainCompiler.anchors_compile wellLinked_customersWithOrder nestsScopes_customersWithOrder
      declaresNoPlaceholder_customersWithOrder isOk_compile_customersWithOrder⟩

end RangeQuery
