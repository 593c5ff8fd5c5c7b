import RangeQuery.Proofs.KeptClauses
import RangeQuery.Proofs.Scope.FreeClauses

/-!
A compiled query put to the checks again. A compilation without an error keeps the names of ranges,
the anchors and the join predicates in order, so the checks can find three faults only. A clause may
have become a subquery, and then the check of what is read looks into it; a scope may have taken
over the condition of an aggregate with another aggregate in it; and ANYs may have been left on
purpose.
-/

namespace RangeQuery

open RangeQuery.Graph

namespace Graph

variable {start g : Graph} {root scope : NodeId} {bodies scopes : List NodeId}

/-! ## What the passes keep -/

/-- A checked query on its way through the passes: what lies directly in a scope reads its ranges,
and no aggregates get into join predicates, nor into filters if they cannot come from conditions. -/
structure Upheld (start : Graph) (root : NodeId) (bodies scopes : List NodeId) (g : Graph) : Prop
    extends Onward start root bodies scopes g where
  count : ∀ scope ∈ scopes, (g.anchors scope).length = (start.anchors scope).length
  own : g.OwnReads scopes
  joins : g.FreeJoins scopes
  filters : start.FreeFilters scopes → g.FreeFilters scopes

theorem Upheld.steadfast (u : Upheld start root bodies scopes g) :
    Steadfast start root bodies scopes g :=
  ⟨u.order, u.keeps, u.reads, u.count⟩

section

variable (u : Upheld start root bodies scopes g) (named : Named start root scopes)
  (anchored : ∀ scope ∈ scopes, start.Anchored scope) (o : InOrder root bodies scopes start)
  (mem : scope ∈ scopes)

include u named anchored o mem

/-- One pass over one of the scopes. -/
theorem Upheld.apply (pass : Pass) (context : PassContext) :
    Upheld start root bodies scopes (pass.apply context g scope).1 := by
  have onward := u.toOnward.apply named pass context mem
  have steadfast := u.steadfast.apply o anchored pass context mem
  have here := u.steadfast.anchored_of_mem o anchored mem
  have declared : ∀ other ∈ scopes,
      ((pass.apply context g scope).1.node other).declared.Perm (g.node other).declared :=
    fun other mem' =>
      ((onward.framed other mem').declared named.linked (named.isScope other mem')).trans
        ((u.framed other mem').declared named.linked (named.isScope other mem')).symm
  refine ⟨onward, steadfast.count,
    u.own.apply u.order pass context mem fun other mem' => (declared other mem').symm.subset,
    u.joins.apply u.order pass context mem here declared, fun free => ?_⟩
  refine (u.filters free).apply (u.order.linked root (by simp)) (u.order.scopes scope mem) mem
    u.order pass context here declared (fun other mem' => ?_) fun other mem' value held => ?_
  · rw [(onward.framed other mem').values, (u.framed other mem').values]
  · have framed := u.framed other mem'
    rw [framed.values] at held
    have has := Framed.has_value named.linked (named.isScope other mem') held
    have projection := named.projections other mem' value held
    rw [← framed.stamp.isProjection has] at projection
    cases node : g.node value <;> simp_all [isProjection]

/-- A rule that a scope breaks after the passes is one of three. -/
theorem Upheld.breaks_cases (keeps : ∀ scope ∈ scopes, ∀ fault, ¬ start.Breaks scope fault)
    {fault : QueryError} (broken : g.Breaks scope fault) :
    (∃ clause top name, fault = .undeclaredRange clause name ∧ g.InClause scope clause top ∧
      (g.node top).isSubquery = true) ∨
    (∃ function, fault = .aggregateInFilter function ∧ ¬ start.FreeFilters scopes) ∨
    (fault = .anyInSort ∧ ∃ id, g.Below root id ∧ (g.node id).isAny = true) := by
  have l := u.order.linked root (by simp)
  have isScope := u.order.scopes
  cases broken with
  | duplicateRange repeated =>
    refine absurd ?_ repeated
    have nodup : ((start.node scope).declared.map start.rangeName).Nodup := by
      by_contra repeated
      exact keeps scope mem (.duplicateRange "") (.duplicateRange repeated)
    have above := (named.isScope scope mem).reached
    have names : (start.node scope).declared.map g.rangeName =
        (start.node scope).declared.map start.rangeName :=
      List.map_congr_left fun id declared => u.keeps.stamp.rangeName
        (named.linked.has_of_below (above.child (declared_subset_children _ declared)))
    have perm := (u.framed scope mem).declared named.linked (named.isScope scope mem)
    exact (perm.map g.rangeName).nodup_iff.mpr (names ▸ nodup)
  | noAnchor lost => exact absurd (u.steadfast.anchored_of_mem o anchored mem) lost
  | @undeclaredRange clause top range inClause read =>
    refine .inl ⟨clause, top, _, rfl, inClause, ?_⟩
    by_contra other
    rw [u.own.undeclared?_eq_none l isScope mem inClause (Bool.eq_false_iff.mpr other)] at read
    cases read
  | @unknownRelation range join r i declared node held relation =>
    have joined : (g.node range).joined? = some join := by rw [node]; exact held
    exact absurd relation ((u.joins scope mem range declared join joined).1 i)
  | @aggregateInJoin range join r function declared node held found =>
    have joined : (g.node range).joined? = some join := by rw [node]; exact held
    have slot : join ∈ g.children range := Node.mem_children_of_joined? joined
    have above := (isScope scope mem).reached.child (declared_subset_children _ declared)
    have free := (u.joins scope mem range declared join joined).2
    rw [(l.firstAggregate?_eq_none (above.child slot) false).mpr free] at found
    cases found
  | @anyInSort item held any =>
    refine .inr (.inr ⟨rfl, ?_⟩)
    have above := (InClause.sort held).reached (isScope scope mem)
    by_contra none
    have clear := (l.find?_eq_none above Node.isAny).mpr fun id below =>
      Bool.eq_false_iff.mpr fun isAny => none ⟨id, above.trans below, isAny⟩
    rw [contains, clear] at any
    cases any
  | @aggregateInFilter condition function held found =>
    refine .inr (.inl ⟨function, rfl, fun free => ?_⟩)
    have above := (InClause.filter held).reached (isScope scope mem)
    rw [condition_scope (isScope scope mem).isRetrieve] at held
    have clear := (u.filters free).filter scope mem condition held
    rw [(l.firstAggregate?_eq_none above true).mpr clear] at found
    cases found

end

/-! ## What the checks leave -/

section

variable (l : g.Linked root) (isScope : ∀ scope ∈ scopes, g.ScopeIn root scope)
  (keeps : ∀ scope ∈ scopes, ∀ fault, ¬ g.Breaks scope fault)

include l isScope keeps

theorem freeJoins_of_not_breaks : g.FreeJoins scopes := by
  intro scope mem range declared join held
  obtain ⟨name, inClause⟩ := InClause.of_joined? declared held
  have above := inClause.reached (isScope scope mem)
  cases node : g.node range with
  | range r =>
    rw [node] at held
    refine ⟨fun i relation => keeps scope mem _ (.unknownRelation declared node held relation), ?_⟩
    rw [← l.firstAggregate?_eq_none above, Option.eq_none_iff_forall_ne_some]
    exact fun function found => keeps scope mem _ (.aggregateInJoin declared node held found)
  | _ => simp [node, Node.joined?] at held

/-- Where no condition of a retrieved aggregate holds another one, filters and what may become one
are free of aggregates. -/
theorem freeFilters_of_not_breaks
    (retrieved : ∀ scope ∈ scopes, ∀ value ∈ (g.node scope).values, ∀ aggregate a condition,
      (g.node value).projected? = some aggregate → g.node aggregate = .aggregate a →
        a.function ≠ .any → a.condition = some condition →
          g.firstAggregate? condition true = none) :
    g.FreeFilters scopes where
  filter scope mem condition held := by
    have inClause := InClause.of_condition? held (isScope scope mem).isRetrieve
    rw [← condition_scope (isScope scope mem).isRetrieve] at held
    rw [← l.firstAggregate?_eq_none (inClause.reached (isScope scope mem)),
      Option.eq_none_iff_forall_ne_some]
    exact fun function found => keeps scope mem _ (.aggregateInFilter held found)
  retrieved scope mem value held aggregate a condition projected node function conditional := by
    have above := (isScope scope mem).reached.child (values_subset_children _ held)
    have slot : condition ∈ g.children aggregate := by
      simp [children, node, Node.children, conditional]
    rw [← l.firstAggregate?_eq_none ((above.child (projected?_mem_children projected)).child slot)]
    exact retrieved scope mem value held aggregate a condition projected node function conditional

end

end Graph

/-! ## Runs -/

namespace Query

variable {q : Query} {bodies : List NodeId} (o : InOrder q.root bodies q.scopes q.graph)
  (named : Named q.graph q.root q.scopes) (plain : q.graph.PlainScopes q.root)
  (valid : q.validate = .ok ())

include o named plain valid

omit o named plain in
theorem not_breaks_of_validate {scope : NodeId} (mem : scope ∈ q.scopes) (fault : QueryError) :
    ¬ q.graph.Breaks scope fault :=
  not_breaks_of_faultWithin? (q.validate_eq_ok_iff.mp valid) mem

/-- What the passes keep of a query that passed the checks. -/
theorem upheld_runPasses
    (ranges : ∀ scope ∈ q.scopes, ∀ range ∈ (q.graph.node scope).declared,
      (q.graph.node range).isRange = true)
    (passes : List Pass) (settings : Settings) (context : PassContext) :
    Upheld q.graph q.root bodies q.scopes (q.runPasses passes settings context).1.graph := by
  have l := named.linked
  have keeps := @not_breaks_of_validate q valid
  have listed : ∀ scope ∈ q.scopes, ∀ range ∈ (q.graph.node scope).declared,
      ∀ inner ∈ (q.graph.node range).nested?, inner ∈ q.scopes :=
    fun scope mem range declared inner nested =>
      have isScope := named.isScope scope mem
      have isRetrieve := (plain isScope declared).2 inner nested
      (Graph.mem_scopes_iff l).mpr (isScope.nested declared nested isRetrieve)
  have anchored : ∀ scope ∈ q.scopes, q.graph.Anchored scope := fun scope mem =>
    anchored_of_faultWithin? (q.validate_eq_ok_iff.mp valid) mem
  have begun : Upheld q.graph q.root bodies q.scopes q.graph :=
    { order := o
      keeps := .refl _
      reads := .refl _ _
      excluded := fun excluded => excluded
      framed := fun scope _ => .refl _ scope
      count := fun _ _ => rfl
      own := ownReads_of_not_breaks l named.isScope ranges listed fun _ mem => keeps mem
      joins := freeJoins_of_not_breaks l named.isScope fun _ mem => keeps mem
      filters := fun free => free }
  exact Run.foldl_step_induction (motive := Upheld q.graph q.root bodies q.scopes)
    (fun pass _ context _ _ mem u => u.apply named anchored o mem pass context) begun

omit o in
/-- A fault that the checks find after the passes is a rule that a scope breaks. -/
theorem exists_breaks_runPasses {passes : List Pass} {settings : Settings} {context : PassContext}
    {fault : QueryError}
    (u : Upheld q.graph q.root bodies q.scopes (q.runPasses passes settings context).1.graph)
    (invalid : (q.runPasses passes settings context).1.validate = .error fault) :
    ∃ scope ∈ q.scopes, (q.runPasses passes settings context).1.graph.Breaks scope fault := by
  have l := named.linked
  have same := u.keeps.sameScopes u.reads l plain
  have found : (q.runPasses passes settings context).1.fault? = some fault := by
    unfold validate at invalid
    split at invalid
    · next found => rw [found, Except.error.inj invalid]
    · cases invalid
  have isRetrieve : (q.graph.node q.root).isRetrieve = true := by
    have none := q.validate_eq_ok_iff.mp valid
    obtain ⟨depth, size⟩ : ∃ depth, q.graph.size = depth + 1 :=
      Nat.exists_eq_succ_of_ne_zero (Nat.ne_of_gt (Nat.zero_lt_of_lt l.has))
    rw [fault?, size] at none
    exact isRetrieve_of_faultWithin? none
  have isScope := u.keeps.scopeIn l (.root isRetrieve)
  have plain' : (q.runPasses passes settings context).1.graph.PlainScopes q.root :=
    plain.same same l fun {scope} inside _ mem =>
      ((u.framed scope ((Graph.mem_scopes_iff l).mpr inside)).declared l inside).subset mem
  obtain ⟨scope, within, broken⟩ := exists_breaks_of_faultWithin? isScope (fun _ => plain') found
  exact ⟨scope, (Graph.mem_scopes_iff l).mpr ((same.scopeIn_iff l).mp within), broken⟩

end Query

/-! ## Compilation -/

namespace Compiler

variable (c : Compiler) {q : Query}

/-- The faults that the checks may find in a compiled query: a clause has become a subquery, an
aggregate has been retrieved under a condition with another one, or ANYs were to be left. -/
inductive LateFault (written compiled : Query) : QueryError → Prop
  | subquery {scope top : NodeId} {clause : Clause} {name : String} :
      scope ∈ compiled.scopes → compiled.graph.InClause scope clause top →
      (compiled.graph.node top).isSubquery = true →
      LateFault written compiled (.undeclaredRange clause name)
  | condition {scope value aggregate condition : NodeId} {a : Aggregate}
      {inner function : AggregateFn} :
      scope ∈ written.scopes → value ∈ (written.graph.scope scope).values →
      (written.graph.node value).projected? = some aggregate →
      written.graph.node aggregate = .aggregate a → a.function ≠ .any →
      a.condition = some condition → written.graph.firstAggregate? condition true = some inner →
      LateFault written compiled (.aggregateInFilter function)
  | anyInSort : c.settings.enables .anyTests = false → LateFault written compiled .anyInSort

theorem checkNoAny_of_isOk (done : (c.compile q).2.isOk = true)
    (enabled : c.settings.enables .anyTests = true) : (c.compile q).1.checkNoAny = .ok () := by
  unfold compile at done ⊢
  split at done
  · cases done
  · split at done
    · cases done
    · next q₂ _ _ =>
      unfold checkAndOptimize at done ⊢
      split at done
      · unfold optimize at done ⊢
        simp only [enabled, if_true] at done ⊢
        split at done
        · next none => exact none
        · cases done
      · cases done

/-- Where the checks find a fault in a query that was compiled without an error, over scopes that
declare ranges and retrieve projections, it is one of those. -/
theorem lateFault_of_validate (w : q.WellLinked) (plain : q.PlainScopes)
    (ranges : ∀ scope ∈ q.scopes, ∀ range ∈ (q.graph.scope scope).ranges,
      (q.graph.node range).isRange = true)
    (projections : ∀ scope ∈ q.scopes, ∀ value ∈ (q.graph.scope scope).values,
      q.graph.isProjection value = true)
    (done : (c.compile q).2.isOk = true) {fault : QueryError}
    (invalid : (c.compile q).1.validate = .error fault) :
    c.LateFault (q.expandTemplates.1.expandRelations c.metadata).1 (c.compile q).1 fault := by
  have checked := c.checked_of_isOk w plain done
  obtain ⟨valid, result⟩ := c.compile_of_isOk done
  have noAny := c.checkNoAny_of_isOk done
  have named : Named q.graph q.root q.scopes := ⟨w.tree, fun _ => scopeIn_of_mem_scopes,
    fun scope mem value held => projections scope mem value (values_scope q.graph scope ▸ held)⟩
  obtain ⟨-, lasts⟩ := c.lasts_written w (plain.graph w.tree) named
  generalize (q.expandTemplates.1.expandRelations c.metadata).1 = written at *
  obtain ⟨bodies, o⟩ := checked.order
  have l := checked.linked
  have named' : Named written.graph written.root written.scopes :=
    ⟨l, o.scopes, fun scope mem => (lasts.named named (checked.root ▸ l)).projections scope
      ((checked.mem_scopes_iff w).mp mem)⟩
  have ranges' : ∀ scope ∈ written.scopes, ∀ range ∈ (written.graph.node scope).declared,
      (written.graph.node range).isRange = true := by
    intro scope mem range declared
    have mem' := (checked.mem_scopes_iff w).mp mem
    have isScope := named.isScope scope mem'
    rw [lasts.mem_declared_iff isScope, ← ranges_scope isScope.isRetrieve] at declared
    exact lasts.stamp.isRange_mono (ranges scope mem' range declared)
  have u := Query.upheld_runPasses o named' checked.plain valid ranges' Pass.all c.settings
    (.fresh c.metadata c.strategy)
  have root : (c.compile q).1.root = written.root := by rw [result]; rfl
  rw [result] at invalid
  obtain ⟨scope, mem, broken⟩ := Query.exists_breaks_runPasses named' checked.plain valid u invalid
  rw [← result] at u broken
  have keeps := @Query.not_breaks_of_validate written valid
  rcases u.breaks_cases named' checked.anchored o mem (fun _ mem => keeps mem) broken with
    ⟨clause, top, name, rfl, inClause, subquery⟩ | ⟨function, rfl, unfree⟩ | ⟨rfl, id, below, isAny⟩
  · refine .subquery ((Graph.mem_scopes_iff (c.wellLinked_compile w).tree).mpr ?_) inClause subquery
    rw [root]
    exact u.order.scopes scope mem
  · -- All filters passed the checks, so it is a condition that holds an aggregate.
    by_contra late
    refine unfree (freeFilters_of_not_breaks l o.scopes (fun _ mem => keeps mem) ?_)
    intro other mem' value held aggregate a condition projected node function' conditional
    refine Option.eq_none_iff_forall_ne_some.mpr fun inner found => late ?_
    exact .condition mem' (by rwa [values_scope]) projected node function' conditional found
  · refine .anyInSort (Bool.eq_false_iff.mpr fun enabled => ?_)
    have passed := noAny enabled
    unfold Query.checkNoAny at passed
    split at passed
    · cases passed
    · next none =>
      rw [root] at none
      have linked := u.order.linked written.root (by simp)
      have clear := (linked.find?_eq_none (.refl _ _) _).mp none id below
      rw [isAny] at clear
      cases clear

end Compiler

theorem lateFault_of_validate_customersWithOrder :
    (customersWithOrder.WellLinked ∧ customersWithOrder.PlainScopes ∧
      (∀ scope ∈ customersWithOrder.scopes,
        ∀ range ∈ (customersWithOrder.graph.scope scope).ranges,
          (customersWithOrder.graph.node range).isRange = true) ∧
      (∀ scope ∈ customersWithOrder.scopes,
        ∀ value ∈ (customersWithOrder.graph.scope scope).values,
          customersWithOrder.graph.isProjection value = true) ∧
      (plainCompiler.compile customersWithOrder).2.isOk = true ∧
      (plainCompiler.compile customersWithOrder).1.validate =
        .error (.undeclaredRange .filter "o")) ∧
    plainCompiler.LateFault
      (customersWithOrder.expandTemplates.1.expandRelations plainCompiler.metadata).1
      (plainCompiler.compile customersWithOrder).1 (.undeclaredRange .filter "o") := by
  have ranges : ∀ scope ∈ customersWithOrder.scopes,
      ∀ range ∈ (customersWithOrder.graph.scope scope).ranges,
        (customersWithOrder.graph.node range).isRange = true := by decide
  have projections : ∀ scope ∈ customersWithOrder.scopes,
      ∀ value ∈ (customersWithOrder.graph.scope scope).values,
        customersWithOrder.graph.isProjection value = true := by decide
  have invalid : (plainCompiler.compile customersWithOrder).1.validate =
      .error (.undeclaredRange .filter "o") := by decide +kernel
  have plain : customersWithOrder.PlainScopes :=
    ⟨nestsScopes_customersWithOrder, declaresNoPlaceholder_customersWithOrder⟩
  exact ⟨⟨wellLinked_customersWithOrder, plain, ranges, projections,
      isOk_compile_customersWithOrder, invalid⟩,
    plainCompiler.lateFault_of_validate wellLinked_customersWithOrder plain ranges projections
      isOk_compile_customersWithOrder invalid⟩

example : (plainCompiler.compile anyCustomer).1.validate = .ok () := by decide +kernel

end RangeQuery
