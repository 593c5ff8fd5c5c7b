import RangeQuery.Proofs.Anchors
import RangeQuery.Proofs.DroppedRanges
import RangeQuery.Proofs.Scope.NullTests

/-!
A demand for a partner row stays. A scope demands a row of a range by requiring the range, by starting
the join with it or by a marker in its filter. Where it demands one of every range over an entity, the
compiled scope still includes each of these ranges, or one that the references to it were turned to,
and requires this range or starts the join with it; excepted is a range that no marker demanded and
that the filter only tests for NULL.
-/

namespace RangeQuery

open RangeQuery.Graph

/-- The passes behind the one for markers leave the context. -/
theorem Pass.context_apply {pass : Pass} (other : pass ≠ .existenceMarkers) (context : PassContext)
    (g : Graph) (scope : NodeId) : (pass.apply context g scope).2.1 = context := by
  cases pass <;> first | rfl | exact absurd rfl other

namespace Graph

variable {g source start : Graph} {root scope other range : NodeId} {bodies scopes : List NodeId}
  {kin : Set NodeId} {marked : NodeId → Prop}

/-- A query during a run, with its scopes and the entities of its ranges as they were, whose excluded
ranges are declared by scopes. -/
structure Traced (start : Graph) (root : NodeId) (bodies scopes : List NodeId) (g : Graph) :
    Prop where
  steadfast : Steadfast start root bodies scopes g
  entity : Same Node.entity? start g
  excluded : g.ExcludedDeclared root scopes

namespace Traced

variable (t : Traced start root bodies scopes g) (o : InOrder root bodies scopes start)
  (anchored : ∀ scope ∈ scopes, start.Anchored scope)

include t

theorem linked : g.Linked root := t.steadfast.order.linked root (by simp)

include o

/-- A set stays saturated during a run. -/
theorem saturated (saturated : ∀ scope ∈ scopes, start.Saturated scope kin) (mem : scope ∈ scopes) :
    g.Saturated scope kin :=
  (saturated scope mem).keep t.steadfast.keeps t.entity (o.linked root (by simp)) (o.scopes scope mem)

include anchored

theorem apply (pass : Pass) (context : PassContext) (mem : scope ∈ scopes) :
    Traced start root bodies scopes (pass.apply context g scope).1 where
  steadfast := t.steadfast.apply o anchored pass context mem
  entity := t.entity.trans (Node.formal_entity?.apply pass context g scope)
  excluded := t.excluded.apply t.steadfast.order pass context mem

end Traced

/-! ## Heirs -/

/-- Passes that drop no joins leave the heirs in a saturated set. -/
theorem Traced.hasHeir_apply (t : Traced start root bodies scopes g)
    (o : InOrder root bodies scopes start)
    (saturated : ∀ scope ∈ scopes, start.Saturated scope kin)
    (size : source.size ≤ start.size) (mem : scope ∈ scopes) {pass : Pass} (drops : pass ≠ .deadJoins)
    (context : PassContext) (mem' : other ∈ scopes) (heirs : HasHeir source g scope kin range) :
    HasHeir source (pass.apply context g other).1 scope kin range := by
  have l := t.linked
  have isScope := t.steadfast.order.scopes scope mem
  have size := size.trans t.steadfast.keeps.stamp.size
  by_cases merges : pass = .selfJoins
  · subst merges
    exact heirs.mergeSelfJoins size l (t.steadfast.order.scopes other mem') isScope
      (t.saturated o saturated mem')
  · have keeps := Keeps.apply pass context g other
    have label := Same.label_apply merges drops context g other
    obtain ⟨zone, level, reshaped, -⟩ := t.steadfast.order.sheltered_apply pass context mem'
    exact heirs.keep size label (keeps.mem_includedRanges_iff (.isIncluded_of_label label) l isScope)
      (reshaped.below_scope l keeps isScope)

/-! ## Markers -/

/-- A scope insists on some ranges, and the marked ones among them are pinned. -/
structure Demands (scope : NodeId) (kin : Set NodeId) (marked : NodeId → Prop)
    (context : PassContext) (g : Graph) : Prop where
  insists : g.Insists scope kin fun _ => False
  pins : ∀ range, marked range → range ∈ context.pinned

theorem Demands.untested {context : PassContext} (d : Demands scope kin marked context g) :
    g.InsistsUntested scope kin marked :=
  d.insists.mono fun _ _ => False.elim

namespace Traced

variable (t : Traced start root bodies scopes g) (mem : scope ∈ scopes)

include t mem

/-- Taking the markers out of a scope makes no range of any scope optional. -/
theorem insists_extractMarkers {excused excused' : NodeId → Prop} (i : g.Insists scope kin excused)
    (unmarked : ∀ range, excused range → excused' range ∨ g.Marked other range) :
    (g.extractMarkers other).1.Insists scope kin excused' := by
  have keeps : Keeps g (g.extractMarkers other).1 := .of_unbound fun unbound =>
    unbound.toSteady.extractMarkers g other
  have label := Node.slotless_label.toRigid.extractMarkers g other
  refine i.map (keeps.mem_includedRanges_iff (.isIncluded_of_label label) t.linked
    (t.steadfast.order.scopes scope mem)) fun range among firm => ?_
  rw [or_iff_not_imp_left, Bool.not_eq_false]
  intro optional
  obtain ⟨was, free⟩ := isOptional_of_extractMarkers (has_of_mem_includedRanges among) optional
  rcases firm with firm | excused
  · rw [was] at firm
    cases firm
  · exact (unmarked range excused).resolve_right free

/-- Its own turn lets a scope with markers demand the marked ranges. -/
theorem demands_apply_self (context : PassContext) (i : g.Insists scope kin marked)
    (isMarked : ∀ range, marked range → g.Marked scope range) :
    Demands scope kin marked (Pass.existenceMarkers.apply context g scope).2.1
      (Pass.existenceMarkers.apply context g scope).1 where
  insists := t.insists_extractMarkers mem i fun range is => .inr (isMarked range is)
  pins range is := by
    simp only [Pass.apply, PassContext.pin, List.mem_eraseDups, List.mem_append]
    exact .inr (mem_snd_extractMarkers.mpr (isMarked range is))

/-- The turns of all scopes leave one that demands its marked ranges demanding them. -/
theorem demands_apply (context : PassContext) (d : Demands scope kin marked context g) :
    Demands scope kin marked (Pass.existenceMarkers.apply context g other).2.1
      (Pass.existenceMarkers.apply context g other).1 where
  insists := t.insists_extractMarkers mem d.insists fun _ => False.elim
  pins range is := by
    simp only [Pass.apply, PassContext.pin, List.mem_eraseDups, List.mem_append]
    exact .inl (d.pins range is)

variable (o : InOrder root bodies scopes start)

include o

/-- The passes up to the merges leave a scope demanding a saturated set of ranges. -/
theorem demands_apply_of_merging {pass : Pass} (merging : pass ∈ [.anyTests, .aggregates, .selfJoins])
    (saturated : ∀ scope ∈ scopes, start.Saturated scope kin)
    (context : PassContext) (mem' : other ∈ scopes) (d : Demands scope kin marked context g) :
    Demands scope kin marked (pass.apply context g other).2.1 (pass.apply context g other).1 := by
  have isScope := t.steadfast.order.scopes scope mem
  have keeps := Keeps.apply pass context g other
  have label := Node.slotless_label.toPlaced
  have optional := Node.placed_isOptional
  have i := d.insists
  cases pass with
  | existenceMarkers => simp at merging
  | anyTests =>
    exact ⟨i.keep keeps (label.resolveAnys g _ other) (optional.resolveAnys g _ other) t.linked isScope,
      d.pins⟩
  | aggregates =>
    exact ⟨i.keep keeps (label.freeAggregates g _ _ other) (optional.freeAggregates g _ _ other)
      t.linked isScope, d.pins⟩
  | selfJoins =>
    exact ⟨i.mergeSelfJoins t.linked (t.steadfast.order.scopes other mem') isScope
      (t.saturated o saturated mem'), d.pins⟩
  | requiredness => simp at merging
  | anchors => simp at merging
  | deadJoins => simp at merging

variable (anchored : ∀ scope ∈ scopes, start.Anchored scope)

include anchored

/-- After the pass over markers has come to a scope, the scope demands its marked ranges. -/
theorem demands_applyAll (context : PassContext) {rest : List NodeId} (sub : rest ⊆ scopes)
    (state : (scope ∈ rest ∧ g.Insists scope kin marked ∧
        ∀ range, marked range → g.Marked scope range) ∨ Demands scope kin marked context g) :
    Demands scope kin marked (Pass.existenceMarkers.applyAll context g rest).2.1
      (Pass.existenceMarkers.applyAll context g rest).1 := by
  induction rest generalizing g context with
  | nil => exact state.resolve_left (by simp)
  | cons first rest ih =>
    have mem' : first ∈ scopes := sub (by simp)
    have t' := t.apply o anchored .existenceMarkers context mem'
    refine ih t' _ (fun _ later => sub (by simp [later])) ?_
    rcases state with ⟨turn, i, isMarked⟩ | d
    · by_cases same : scope = first
      · subst same
        exact .inr (t.demands_apply_self mem context i isMarked)
      · have isScope := t.steadfast.order.scopes scope mem
        refine .inl ⟨(List.mem_cons.mp turn).resolve_left same,
          t.insists_extractMarkers mem i fun _ => .inl, fun range is => ?_⟩
        refine (isMarked range is).spared (.extractMarkers g first) t.linked t'.linked isScope
          (t'.steadfast.order.scopes scope mem) (by simpa using same) fun other is => ?_
        rw [Set.mem_singleton_iff.mp is]
        exact (t.steadfast.order.scopes first mem').isRetrieve
    · exact .inr (t.demands_apply mem context d)

/-- From the pass that decides on partner rows on, the passes leave a scope insisting on ranges that
are pinned or not only tested for NULL. They leave the heirs among these ranges, too. -/
theorem insistsUntested_apply {pass : Pass} (later : pass ∈ [.requiredness, .anchors, .deadJoins])
    (saturated : ∀ scope ∈ scopes, start.Saturated scope kin)
    (size : source.size ≤ start.size) (context : PassContext)
    (pins : ∀ range, marked range → range ∈ context.pinned) (mem' : other ∈ scopes)
    (i : g.InsistsUntested scope kin marked) (heirs : HasHeir source g scope kin range) :
    (pass.apply context g other).1.InsistsUntested scope kin marked ∧
      HasHeir source (pass.apply context g other).1 scope kin range := by
  have isScope := t.steadfast.order.scopes scope mem
  have isScope' := t.steadfast.order.scopes other mem'
  have keep : pass ≠ .deadJoins → HasHeir source (pass.apply context g other).1 scope kin range :=
    fun drops => t.hasHeir_apply o saturated size mem drops context mem' heirs
  cases pass with
  | existenceMarkers => simp at later
  | anyTests => simp at later
  | aggregates => simp at later
  | selfJoins => simp at later
  | requiredness => exact ⟨i.decideRequired t.linked isScope isScope' pins, keep (by simp)⟩
  | anchors =>
    refine ⟨?_, keep (by simp)⟩
    simp only [Pass.apply, (t.steadfast.anchored_of_mem o anchored mem').normalizeAnchor]
    exact i.putAnchorFirst t.linked isScope isScope'
  | deadJoins =>
    exact i.dropDeadJoins heirs t.linked isScope t.excluded t.steadfast.order.scopes mem'

/-! ## Runs -/

variable (saturated : ∀ scope ∈ scopes, start.Saturated scope kin) (size : source.size ≤ start.size)

include saturated size

/-- The pass over markers lets a scope demand its marked ranges and leaves the heirs. -/
theorem demands_markers (context : PassContext) (heirs : HasHeir source g scope kin range)
    (i : g.Insists scope kin marked) (isMarked : ∀ range, marked range → g.Marked scope range) :
    Traced start root bodies scopes (Pass.existenceMarkers.applyAll context g scopes).1 ∧
      HasHeir source (Pass.existenceMarkers.applyAll context g scopes).1 scope kin range ∧
      Demands scope kin marked (Pass.existenceMarkers.applyAll context g scopes).2.1
        (Pass.existenceMarkers.applyAll context g scopes).1 := by
  have demands := t.demands_applyAll mem o anchored context (fun _ mem => mem)
    (.inl ⟨mem, i, isMarked⟩)
  obtain ⟨traced, heirs⟩ := Pass.existenceMarkers.applyAll_induction
    (motive := fun g => Traced start root bodies scopes g ∧ HasHeir source g scope kin range)
    (fun context _ _ mem' ⟨t, heirs⟩ => ⟨t.apply o anchored .existenceMarkers context mem',
      t.hasHeir_apply o saturated size mem (by simp) context mem' heirs⟩) context ⟨t, heirs⟩
  exact ⟨traced, heirs, demands⟩

omit t in
/-- The passes up to the merges leave a scope demanding its marked ranges, and the heirs. -/
theorem demands_foldl_step {run : Run} (settings : Settings)
    (kept : Traced start root bodies scopes run.graph ∧ HasHeir source run.graph scope kin range ∧
      Demands scope kin marked run.context run.graph) :
    let run' := [.anyTests, .aggregates, .selfJoins].foldl (Run.step settings root scopes) run
    Traced start root bodies scopes run'.graph ∧ HasHeir source run'.graph scope kin range ∧
      Demands scope kin marked run'.context run'.graph :=
  Run.foldl_step_context_induction
    (motive := fun context g => Traced start root bodies scopes g ∧ HasHeir source g scope kin range ∧
      Demands scope kin marked context g)
    (fun pass merging context _ _ mem' ⟨t, heirs, d⟩ => ⟨t.apply o anchored pass context mem',
      t.hasHeir_apply o saturated size mem (by rintro rfl; simp at merging) context mem' heirs,
      t.demands_apply_of_merging mem o merging saturated context mem' d⟩) kept

omit t in
/-- The passes behind the merges leave a scope that demands its marked ranges insisting on what is not
only tested for NULL, and the heirs. -/
theorem insistsUntested_foldl_step {run : Run} (settings : Settings)
    (kept : Traced start root bodies scopes run.graph ∧ HasHeir source run.graph scope kin range ∧
      Demands scope kin marked run.context run.graph) :
    let run' := [.requiredness, .anchors, .deadJoins].foldl (Run.step settings root scopes) run
    run'.graph.InsistsUntested scope kin marked ∧ HasHeir source run'.graph scope kin range := by
  obtain ⟨t, heirs, d⟩ := kept
  exact (Run.foldl_step_context_induction
    (motive := fun context g => Traced start root bodies scopes g ∧
      (∀ range, marked range → range ∈ context.pinned) ∧ g.InsistsUntested scope kin marked ∧
        HasHeir source g scope kin range)
    (fun pass later context g _ mem' ⟨t, pins, i, heirs⟩ => by
      have same := pass.context_apply (by rintro rfl; simp at later) context g
      exact ⟨t.apply o anchored pass context mem', by rwa [same],
        t.insistsUntested_apply mem o anchored later saturated size context pins mem' i heirs⟩)
    ⟨t, d.pins, d.untested, heirs⟩).2.2

end Traced

end Graph

/-- A run of all passes that takes the markers out leaves a scope insisting on a saturated set of
ranges and the heirs in the set. -/
theorem Query.insistsUntested_runPasses {q : Query} {source : Graph} {bodies : List NodeId}
    {scope range : NodeId} {kin : Set NodeId} {marked : NodeId → Prop}
    (o : InOrder q.root bodies q.scopes q.graph)
    (anchored : ∀ scope ∈ q.scopes, q.graph.Anchored scope)
    (excluded : q.graph.ExcludedDeclared q.root q.scopes)
    (saturated : ∀ scope ∈ q.scopes, q.graph.Saturated scope kin)
    (size : source.size ≤ q.graph.size) (mem : scope ∈ q.scopes)
    (heirs : HasHeir source q.graph scope kin range) (i : q.graph.Insists scope kin marked)
    (isMarked : ∀ range, marked range → q.graph.Marked scope range) {settings : Settings}
    (enabled : settings.enables .existenceMarkers = true) (context : PassContext) :
    (q.runPasses Pass.all settings context).1.graph.InsistsUntested scope kin marked ∧
      HasHeir source (q.runPasses Pass.all settings context).1.graph scope kin range := by
  have parts : Pass.all = [.existenceMarkers] ++ ([.anyTests, .aggregates, .selfJoins] ++
    [.requiredness, .anchors, .deadJoins]) := rfl
  have t : Traced q.graph q.root bodies q.scopes q.graph :=
    ⟨⟨o, .refl _, .refl _ _, fun _ _ => rfl⟩, .refl _ _, excluded⟩
  simp only [runPasses, parts, List.foldl_append]
  refine Traced.insistsUntested_foldl_step mem o anchored saturated size settings
    (Traced.demands_foldl_step mem o anchored saturated size settings ?_)
  simp only [List.foldl_cons, List.foldl_nil, Run.step, enabled, if_true]
  exact t.demands_markers mem o anchored saturated size context heirs i isMarked

/-- Optimising a checked query keeps the scopes insisting and the heirs of their ranges, if nothing is
excluded before. Writing out its relations first changes nothing about that. -/
theorem Query.insistsUntested_expandRelations {q : Query} {bodies : List NodeId} {scope range : NodeId}
    (o : InOrder q.root bodies [] q.graph)
    (included : ∀ range, q.graph.Below q.root range → (q.graph.node range).isExcluded = false)
    (metadata : Metadata) (valid : (q.expandRelations metadata).1.validate = .ok ())
    (mem : scope ∈ q.scopes) (mem' : range ∈ q.graph.includedRanges scope)
    (i : q.graph.Insists scope (q.graph.kin range) (q.graph.Marked scope)) {settings : Settings}
    (enabled : settings.enables .existenceMarkers = true) (context : PassContext) :
    ((q.expandRelations metadata).1.runPasses Pass.all settings context).1.graph.InsistsUntested scope
        (q.graph.kin range) (q.graph.Marked scope) ∧
      HasHeir q.graph ((q.expandRelations metadata).1.runPasses Pass.all settings context).1.graph scope
        (q.graph.kin range) range := by
  have l := o.linked q.root (by simp)
  have unbound : ∀ {α : Type} {view : Node → α}, Unbound view →
      Same view q.graph (q.expandRelations metadata).1.graph := fun unbound =>
    same_expandJoins unbound.toUnjoined q.graph metadata q.clauses.ranges false
  have label : Same Node.label q.graph (q.expandRelations metadata).1.graph :=
    same_expandJoins Node.slotless_label.toUnjoined q.graph metadata q.clauses.ranges false
  have optional : Same Node.isOptional q.graph (q.expandRelations metadata).1.graph :=
    .expandJoins Node.placed_isOptional q.graph metadata q.clauses.ranges false
  have spares : Spares q.graph (q.expandRelations metadata).1.graph ∅ :=
    .expandJoins q.graph metadata q.clauses.ranges false
  have keeps := Keeps.of_unbound unbound
  have enriches : Enriches q.graph (q.expandRelations metadata).1.graph {q.root}
      {id | q.graph.Below q.root id} (q.graph.levelFrom {q.root}) :=
    l.zone.expandJoins metadata (fun range mem => below_of_child <|
      q.graph.children_scope_subset q.root (by simp_all [Query.clauses, Node.children])) false
  have excluded : (q.expandRelations metadata).1.graph.ExcludedDeclared q.root [] :=
    (excludedDeclared_of_included included).enriched l (by simp) keeps label enriches
  have o' := Query.inOrder_expandRelations o metadata
  have root := q.root_expandRelations metadata
  obtain ⟨zone, level, reshaped, -⟩ := enriches
  generalize (q.expandRelations metadata).1 = written at *
  rw [← root] at o' excluded
  have l' := o'.linked written.root (by simp)
  have scopes : ∀ {scope}, scope ∈ written.scopes ↔ scope ∈ q.scopes := by
    intro scope
    rw [mem_scopes_iff l', mem_scopes_iff l, root,
      (SameScopes.of_unbound l unbound).scopeIn_iff l]
  have isScope := scopeIn_of_mem_scopes mem
  have size := (unbound Node.formal_stamp.toUnbound).size
  have heirs : HasHeir q.graph written.graph scope (q.graph.kin range) range :=
    HasHeir.keep ⟨range, .inl rfl, .refl mem'⟩ (Nat.le_refl _) label
      (keeps.mem_includedRanges_iff (.isIncluded_of_label label) l isScope)
      (reshaped.below_scope l keeps isScope)
  refine Query.insistsUntested_runPasses (Query.inOrder_scopes o')
    (fun scope mem => anchored_of_faultWithin? (written.validate_eq_ok_iff.mp valid) mem)
    (fun range reached gone => ?_) (fun scope mem => ?_) size (scopes.mpr mem) heirs
    (i.keep keeps label optional l isScope) (fun range marked => ?_) enabled context
  · obtain ⟨_, none, -⟩ := excluded range reached gone
    simp at none
  · exact (saturated_kin _ scope _).keep keeps (unbound Node.formal_entity?.toUnbound) l
      (scopeIn_of_mem_scopes (scopes.mp mem))
  · exact marked.spared spares l (root ▸ l') isScope (keeps.scopeIn l isScope) (by simp) (by simp)

/-- After a compilation without an error that runs the pass over markers, a range of which a scope
demanded a row, as of all its ranges over the same entity, still has the scope demand one: of the range
itself, or of the range over the entity that the references to it were turned to. Excepted is one that
no marker demanded and that the filter only tests for NULL. -/
theorem Compiler.exists_heir_compile (c : Compiler) {q : Query} (w : q.WellLinked)
    (included : q.AllIncluded) (enabled : c.settings.enables .existenceMarkers = true)
    (done : (c.compile q).2.isOk = true) {scope range : NodeId}
    (mem : scope ∈ q.expandTemplates.1.scopes)
    (mem' : range ∈ q.expandTemplates.1.graph.includedRanges scope)
    (insists : q.expandTemplates.1.graph.Insists scope (q.expandTemplates.1.graph.kin range)
      (q.expandTemplates.1.graph.Marked scope)) :
    ∃ heir ∈ q.expandTemplates.1.graph.kin range,
      Succeeds q.expandTemplates.1.graph (c.compile q).1.graph scope range heir ∧
      (((c.compile q).1.graph.node heir).isOptional = false ∨
        ¬ q.expandTemplates.1.graph.Marked scope heir ∧ (c.compile q).1.graph.TestedOnly scope heir) := by
  obtain ⟨valid, result⟩ := c.compile_of_isOk done
  have o := Query.inOrder_expandTemplates w.inOrder
  have kept := included.expandTemplates w
  rw [← q.root_expandTemplates] at o kept
  rw [result]
  obtain ⟨i, heir, akin, succeeds⟩ := Query.insistsUntested_expandRelations o kept c.metadata valid mem
    mem' insists enabled _
  exact ⟨heir, akin, succeeds, i heir akin succeeds.included⟩

/-- Customers with a paid order: the filter demands a row of the last range, which is joined by its key
to another range over orders. -/
def customersWithPaidOrder : Query where
  graph := ⟨#[
    ⟨.range { name := "c", entity := some "Customer", join := none, required := false
              included := true, nested := none }, some ⟨17⟩⟩,
    ⟨.range { name := "a", entity := some "Order", join := some ⟨5⟩, required := true
              included := true, nested := none }, some ⟨17⟩⟩,
    ⟨.range { name := "b", entity := some "Order", join := some ⟨8⟩, required := false
              included := true, nested := none }, some ⟨17⟩⟩,
    ⟨.identifier { range := ⟨1⟩, path := ["customerId"] }, some ⟨5⟩⟩,
    ⟨.identifier { range := ⟨0⟩, path := ["id"] }, some ⟨5⟩⟩,
    ⟨.binary .eq ⟨3⟩ ⟨4⟩, some ⟨1⟩⟩,
    ⟨.identifier { range := ⟨2⟩, path := ["id"] }, some ⟨8⟩⟩,
    ⟨.identifier { range := ⟨1⟩, path := ["id"] }, some ⟨8⟩⟩,
    ⟨.binary .eq ⟨6⟩ ⟨7⟩, some ⟨2⟩⟩,
    ⟨.identifier { range := ⟨2⟩, path := [] }, some ⟨10⟩⟩,
    ⟨.rowExists ⟨9⟩, some ⟨14⟩⟩,
    ⟨.identifier { range := ⟨2⟩, path := ["paid"] }, some ⟨13⟩⟩,
    ⟨.number "1", some ⟨13⟩⟩,
    ⟨.binary .eq ⟨11⟩ ⟨12⟩, some ⟨14⟩⟩,
    ⟨.binary .and ⟨10⟩ ⟨13⟩, some ⟨17⟩⟩,
    ⟨.identifier { range := ⟨0⟩, path := ["name"] }, some ⟨16⟩⟩,
    ⟨.projection { name := "name", expression := ⟨15⟩, visible := true }, some ⟨17⟩⟩,
    ⟨.retrieve { Retrieve.empty with
      ranges := [⟨0⟩, ⟨1⟩, ⟨2⟩], values := [⟨16⟩], condition := some ⟨14⟩ }, none⟩]⟩
  root := ⟨17⟩

theorem wellLinked_customersWithPaidOrder : customersWithPaidOrder.WellLinked := by
  have order : InOrder customersWithPaidOrder.root [] [] customersWithPaidOrder.graph := by
    refine ⟨fun top mem => ?_, by decide, by simp⟩
    obtain rfl := List.mem_singleton.mp mem
    exact .of_closed ((List.range 18).map .mk) (by decide) (by decide) (by decide) (by decide)
      (by decide)
  exact Query.wellLinked_of_inOrder order (by decide)

theorem allIncluded_customersWithPaidOrder : customersWithPaidOrder.AllIncluded := by
  have closed : ∀ owner ∈ (List.range 18).map NodeId.mk,
      (customersWithPaidOrder.graph.node owner).isExcluded = false ∧
        ∀ child ∈ customersWithPaidOrder.graph.children owner,
          child ∈ (List.range 18).map NodeId.mk := by decide
  have tops : ∀ top ∈ customersWithPaidOrder.root ::
      (customersWithPaidOrder.graph.node customersWithPaidOrder.root).templateBodies,
        top ∈ (List.range 18).map NodeId.mk := by decide
  intro top mem range below
  exact (closed range (below.mem_of_closed (tops top mem) fun owner mem => (closed owner mem).2)).1

theorem insists_customersWithPaidOrder : customersWithPaidOrder.expandTemplates.1.graph.Insists ⟨17⟩
    (customersWithPaidOrder.expandTemplates.1.graph.kin ⟨2⟩)
    (customersWithPaidOrder.expandTemplates.1.graph.Marked ⟨17⟩) := by
  have same : customersWithPaidOrder.expandTemplates.1 = customersWithPaidOrder := by decide +kernel
  rw [same]
  have firm : ∀ range ∈ customersWithPaidOrder.graph.includedRanges ⟨17⟩,
      (customersWithPaidOrder.graph.node range).isOptional = false ∨
        range ∈ (customersWithPaidOrder.graph.extractMarkers ⟨17⟩).2 := by decide
  exact fun range _ mem => (firm range mem).imp_right mem_snd_extractMarkers.mp

/-- The demanded range is merged into the other one. -/
theorem exists_heir_compile_customersWithPaidOrder :
    (customersWithPaidOrder.WellLinked ∧ customersWithPaidOrder.AllIncluded ∧
      (plainCompiler.compile customersWithPaidOrder).2.isOk = true ∧
      ⟨2⟩ ∉ (plainCompiler.compile customersWithPaidOrder).1.graph.includedRanges ⟨17⟩) ∧
    ∃ heir ∈ customersWithPaidOrder.expandTemplates.1.graph.kin ⟨2⟩,
      Succeeds customersWithPaidOrder.expandTemplates.1.graph
        (plainCompiler.compile customersWithPaidOrder).1.graph ⟨17⟩ ⟨2⟩ heir ∧
      (((plainCompiler.compile customersWithPaidOrder).1.graph.node heir).isOptional = false ∨
        ¬ customersWithPaidOrder.expandTemplates.1.graph.Marked ⟨17⟩ heir ∧
          (plainCompiler.compile customersWithPaidOrder).1.graph.TestedOnly ⟨17⟩ heir) := by
  have done : (plainCompiler.compile customersWithPaidOrder).2.isOk = true := by decide +kernel
  exact ⟨⟨wellLinked_customersWithPaidOrder, allIncluded_customersWithPaidOrder, done,
      by decide +kernel⟩,
    plainCompiler.exists_heir_compile wellLinked_customersWithPaidOrder
      allIncluded_customersWithPaidOrder (by decide) done (by decide +kernel) (by decide +kernel)
      insists_customersWithPaidOrder⟩

end RangeQuery
