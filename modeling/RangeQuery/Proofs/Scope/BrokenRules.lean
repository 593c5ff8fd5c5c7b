import RangeQuery.Proofs.Anchors
import RangeQuery.Proofs.Graph.Searches
import RangeQuery.Proofs.Scope.ClauseFrame
import RangeQuery.Proofs.Scope.OwnReads

/-!
The rules of a query, said of one scope at a time. A scope has clauses: the join predicates of its
ranges, its values, its filter and its sort keys. A query passes the checks exactly if none of its
scopes breaks a rule, and the fault that a check answers with is one that some scope has.
-/

namespace RangeQuery

namespace Graph

variable {g : Graph} {root scope other top id : NodeId} {scopes : List NodeId}

/-! ## Aggregates -/

/-- A search for aggregates that starts at a node comes to another one. -/
def Sought (g : Graph) (allowAny : Bool) (top id : NodeId) : Prop :=
  ∃ trail, g.Trail top trail id ∧
    ∀ owner ∈ trail, seekAggregate allowAny (g.node owner) = .descend

/-- A search for aggregates that starts at a node finds none, and all that it comes to has a slot;
an ANY may be allowed. -/
def FreeOfAggregates (g : Graph) (allowAny : Bool) (top : NodeId) : Prop :=
  ∀ id, g.Sought allowAny top id → g.Has id ∧ seekAggregate allowAny (g.node id) ≠ .stop

theorem Linked.firstAggregate?_eq_none (l : g.Linked root) (above : g.Below root top)
    (allowAny : Bool) :
    g.firstAggregate? top allowAny = none ↔ g.FreeOfAggregates allowAny top := by
  have searched : g.firstAggregate? top allowAny = none ↔
      (g.walk top (fun _ id => (seekAggregate allowAny (g.node id), ())) ()).1 = none := by
    unfold firstAggregate?
    rw [Option.map_eq_none_iff]
    refine ⟨fun none => ?_, fun none => by rw [none]; rfl⟩
    cases found : (g.walk top (fun _ id => (seekAggregate allowAny (g.node id), ())) ()).1 with
    | none => rfl
    | some id =>
      have stops := drain_eq_some found
      rw [found, Option.bind_some] at none
      cases node : g.node id <;> simp_all [seekAggregate, aggregate?]
  rw [searched, l.walk_eq_none above]
  constructor
  · rintro none id ⟨trail, way, opened⟩
    exact ⟨l.has_of_below (above.trans ⟨trail, way⟩), none id trail way opened⟩
  · exact fun none id trail way opened => (none id ⟨trail, way, opened⟩).2

/-! ## Ranges -/

/-- A search for identifiers that does not enter subqueries finds those outside subqueries, if it
starts at none. -/
theorem Linked.mem_identifiersOutside (l : g.Linked root) (above : g.Below root top)
    (other : (g.node top).isSubquery = false) :
    id ∈ g.identifiersUnder top false ↔ g.Outside top id ∧ ∃ i, g.node id = .identifier i := by
  rw [identifiersUnder_eq, List.mem_filter, l.mem_preorder above]
  constructor
  · rintro ⟨⟨trail, way, opened⟩, some⟩
    obtain ⟨i, found⟩ := Option.isSome_iff_exists.mp some
    exact ⟨⟨trail, way, fun owner on => not_isSubquery_of_opensReads other (opened owner on)⟩, i,
      node_of_identifier? found⟩
  · rintro ⟨⟨trail, way, outside⟩, i, node⟩
    refine ⟨⟨trail, way, fun owner on => ?_⟩, by simp [identifier?_eq node]⟩
    obtain ⟨child, slot⟩ := way.exists_child on
    have enters := outside owner on
    cases kind : g.node owner <;> simp_all [opensReads, children, Node.children, Node.isSubquery]

/-- A clause that is no subquery reads declared ranges only if the identifiers outside subqueries
do. -/
theorem Linked.undeclared?_eq_none (l : g.Linked root) (above : g.Below root top)
    (other : (g.node top).isSubquery = false) {declared : List NodeId} :
    g.undeclared? declared top = none ↔
      ∀ id i, g.Outside top id → g.node id = .identifier i → i.range ∈ declared := by
  simp only [undeclared?, List.find?_eq_none, mem_rangesOf, l.mem_identifiersOutside above other,
    Bool.not_eq_true', Bool.not_eq_false, List.contains_iff_mem]
  constructor
  · intro none id i outside node
    exact none i.range ⟨id, ⟨outside, i, node⟩, i, node, rfl⟩
  · rintro none range ⟨id, ⟨outside, -⟩, i, node, rfl⟩
    exact none id i outside node

/-! ## Rules -/

/-- The clauses of a scope. -/
inductive InClause (g : Graph) (scope : NodeId) : Clause → NodeId → Prop
  | join {range join : NodeId} {r : Range} : range ∈ (g.node scope).declared →
      g.node range = .range r → r.join = some join → InClause g scope (.join r.name) join
  | value {value : NodeId} : value ∈ (g.scope scope).values → InClause g scope .values value
  | sort {item : SortItem} : item ∈ (g.scope scope).sort → InClause g scope .sort item.expression
  | filter {condition : NodeId} : (g.scope scope).condition = some condition →
      InClause g scope .filter condition

/-- The rules that a scope breaks, each as the fault that it is. -/
inductive Breaks (g : Graph) (scope : NodeId) : QueryError → Prop
  | duplicateRange {name : String} : ¬ ((g.node scope).declared.map g.rangeName).Nodup →
      Breaks g scope (.duplicateRange name)
  | noAnchor : ¬ g.Anchored scope → Breaks g scope .noAnchor
  | undeclaredRange {clause : Clause} {top range : NodeId} : g.InClause scope clause top →
      g.undeclared? (g.node scope).declared top = some range →
      Breaks g scope (.undeclaredRange clause (g.rangeName range))
  | unknownRelation {range join : NodeId} {r : Range} {i : Identifier} :
      range ∈ (g.node scope).declared → g.node range = .range r → r.join = some join →
      g.node join = .identifier i →
      Breaks g scope
        (.unknownRelation r.name (g.rangeName i.range ++ "." ++ ".".intercalate i.path))
  | aggregateInJoin {range join : NodeId} {r : Range} {function : AggregateFn} :
      range ∈ (g.node scope).declared → g.node range = .range r → r.join = some join →
      g.firstAggregate? join false = some function →
      Breaks g scope (.aggregateInJoin r.name function)
  | anyInSort {item : SortItem} : item ∈ (g.scope scope).sort →
      g.contains item.expression Node.isAny = true → Breaks g scope .anyInSort
  | aggregateInFilter {condition : NodeId} {function : AggregateFn} :
      (g.scope scope).condition = some condition →
      g.firstAggregate? condition true = some function →
      Breaks g scope (.aggregateInFilter function)

theorem repeatedName?_eq_none {met names : List String} :
    repeatedName? met names = none ↔ names.Nodup ∧ ∀ name ∈ names, name ∉ met := by
  induction names generalizing met with
  | nil => simp [repeatedName?]
  | cons name rest ih =>
    rw [repeatedName?]
    split
    · next again => simp [again]
    · next first =>
      rw [ih, List.nodup_cons]
      simp only [List.mem_cons, not_or, forall_eq_or_imp, first, not_false_eq_true, true_and]
      constructor
      · rintro ⟨nodup, apart⟩
        exact ⟨⟨fun mem => (apart name mem).1 rfl, nodup⟩, fun other mem => (apart other mem).2⟩
      · rintro ⟨⟨out, nodup⟩, apart⟩
        refine ⟨nodup, fun other mem => ⟨?_, apart other mem⟩⟩
        rintro rfl
        exact out mem

/-! ## The check -/

theorem undeclaredFault?_eq_none {declared : List NodeId} {clause : Clause} :
    g.undeclaredFault? declared clause top = none ↔ g.undeclared? declared top = none :=
  Option.map_eq_none_iff

theorem joinFault?_eq_none {declared : List NodeId} {name : String} :
    g.joinFault? declared name top = none ↔ g.identifier? top = none ∧
      g.undeclared? declared top = none ∧ g.firstAggregate? top false = none := by
  unfold joinFault?
  cases g.identifier? top <;> simp [undeclaredFault?_eq_none]

theorem sortFault?_eq_none {declared : List NodeId} {item : SortItem} :
    g.sortFault? declared item = none ↔ g.undeclared? declared item.expression = none ∧
      g.contains item.expression Node.isAny = false := by
  simp [sortFault?, undeclaredFault?_eq_none]

theorem filterFault?_eq_none {declared : List NodeId} :
    g.filterFault? declared top = none ↔ g.undeclared? declared top = none ∧
      g.firstAggregate? top true = none := by
  simp [filterFault?, undeclaredFault?_eq_none]

/-- From any other node than a scope, that it is no scope is all that the check finds. -/
theorem noScope_of_faultWithin? {depth : Nat} {fault : QueryError}
    (other : (g.node top).isRetrieve = false) (found : g.faultWithin? depth top = some fault) :
    fault = .noScope := by
  cases depth with
  | zero => cases found
  | succ depth => cases node : g.node top <;> simp_all [faultWithin?, Node.isRetrieve]

/-- Where the check finds no fault, the clauses of a scope read declared ranges. -/
theorem undeclared?_of_faultWithin? {depth : Nat} (none : g.faultWithin? (depth + 1) scope = none)
    {clause : Clause} (inClause : g.InClause scope clause top) :
    g.undeclared? (g.node scope).declared top = Option.none := by
  simp only [faultWithin?_succ (isRetrieve_of_faultWithin? none), Option.or_eq_none_iff,
    List.findSome?_eq_none_iff] at none
  obtain ⟨-, -, ranges, values, sort, filter⟩ := none
  cases inClause with
  | @join range _ r declared node joined =>
    have fine := ranges range declared
    rw [rangeFault?_eq node, joined, Option.or_eq_none_iff, Option.bind_some] at fine
    exact (joinFault?_eq_none.mp fine.1).2.1
  | value held => exact undeclaredFault?_eq_none.mp (values _ held)
  | sort held => exact (sortFault?_eq_none.mp (sort _ held)).1
  | filter held =>
    rw [held, Option.bind_some] at filter
    exact (filterFault?_eq_none.mp filter).1

/-- A scope for which the check finds no fault breaks no rule. -/
theorem not_breaks_of_faultWithin? {depth : Nat} (none : g.faultWithin? depth top = none)
    (mem : scope ∈ g.scopesWithin depth top) {fault : QueryError} : ¬ g.Breaks scope fault := by
  have anchored := anchored_of_faultWithin? none mem
  obtain ⟨depth, none⟩ := exists_faultWithin?_eq_none none mem
  have reads : ∀ {clause top}, g.InClause scope clause top →
      g.undeclared? (g.node scope).declared top = Option.none := undeclared?_of_faultWithin? none
  simp only [faultWithin?_succ (isRetrieve_of_faultWithin? none), Option.or_eq_none_iff,
    List.findSome?_eq_none_iff, Option.map_eq_none_iff, repeatedName?_eq_none] at none
  obtain ⟨⟨names, -⟩, -, ranges, -, sort, filter⟩ := none
  have joins : ∀ {range join r}, range ∈ (g.node scope).declared → g.node range = .range r →
      r.join = some join → g.joinFault? (g.node scope).declared r.name join = Option.none := by
    intro range join r declared node joined
    have fine := ranges range declared
    rw [rangeFault?_eq node, joined, Option.or_eq_none_iff, Option.bind_some] at fine
    exact fine.1
  intro broken
  cases broken with
  | duplicateRange repeated => exact repeated names
  | noAnchor lost => exact lost anchored
  | undeclaredRange clause read =>
    rw [reads clause] at read
    cases read
  | unknownRelation declared node joined relation =>
    have fine := (joinFault?_eq_none.mp (joins declared node joined)).1
    rw [identifier?_eq relation] at fine
    cases fine
  | aggregateInJoin declared node joined found =>
    rw [(joinFault?_eq_none.mp (joins declared node joined)).2.2] at found
    cases found
  | anyInSort held found =>
    rw [(sortFault?_eq_none.mp (sort _ held)).2] at found
    cases found
  | aggregateInFilter held found =>
    rw [held, Option.bind_some] at filter
    rw [(filterFault?_eq_none.mp filter).2] at found
    cases found

section

variable {fault : QueryError}

/-! What a part of the check finds is a rule that the scope breaks. -/

theorem breaks_of_undeclaredFault? {clause : Clause} (inClause : g.InClause scope clause top)
    (found : g.undeclaredFault? (g.node scope).declared clause top = some fault) :
    g.Breaks scope fault := by
  obtain ⟨range, read, rfl⟩ := Option.map_eq_some_iff.mp found
  exact .undeclaredRange inClause read

theorem breaks_of_anchorFault? (isRetrieve : (g.node scope).isRetrieve = true)
    (found : g.anchorFault? (g.node scope).declared = some fault) : g.Breaks scope fault := by
  unfold anchorFault? at found
  split at found
  · cases found
  · next lost =>
    obtain rfl := Option.some.inj found
    refine .noAnchor fun anchored => lost ?_
    by_cases empty : (g.node scope).declared = []
    · rw [empty]
      rfl
    · obtain ⟨id, mem⟩ := List.exists_mem_of_ne_nil _ (anchored empty)
      obtain ⟨declared, starts⟩ := (mem_anchors isRetrieve).mp mem
      refine Bool.or_eq_true_iff.mpr (.inr (List.any_eq_true.mpr ⟨id, declared, ?_⟩))
      cases kind : g.node id <;> simp_all [range?, Node.startsJoin]

theorem breaks_of_joinFault? {range join : NodeId} {r : Range}
    (held : range ∈ (g.node scope).declared) (node : g.node range = .range r)
    (joined : r.join = some join)
    (found : g.joinFault? (g.node scope).declared r.name join = some fault) :
    g.Breaks scope fault := by
  unfold joinFault? at found
  split at found
  · next i relation =>
    obtain rfl := Option.some.inj found
    exact .unknownRelation held node joined (node_of_identifier? relation)
  · rcases Option.or_eq_some_iff.mp found with found | ⟨-, found⟩
    · exact breaks_of_undeclaredFault? (.join held node joined) found
    · obtain ⟨function, first, rfl⟩ := Option.map_eq_some_iff.mp found
      exact .aggregateInJoin held node joined first

theorem breaks_of_sortFault? {item : SortItem} (held : item ∈ (g.scope scope).sort)
    (found : g.sortFault? (g.node scope).declared item = some fault) : g.Breaks scope fault := by
  rcases Option.or_eq_some_iff.mp found with found | ⟨-, found⟩
  · exact breaks_of_undeclaredFault? (.sort held) found
  · split at found
    · next any =>
      obtain rfl := Option.some.inj found
      exact .anyInSort held any
    · cases found

theorem breaks_of_filterFault? {condition : NodeId}
    (held : (g.scope scope).condition = some condition)
    (found : g.filterFault? (g.node scope).declared condition = some fault) :
    g.Breaks scope fault := by
  rcases Option.or_eq_some_iff.mp found with found | ⟨-, found⟩
  · exact breaks_of_undeclaredFault? (.filter held) found
  · obtain ⟨function, first, rfl⟩ := Option.map_eq_some_iff.mp found
    exact .aggregateInFilter held first

/-- The fault that the check finds is a rule that a scope breaks, unless it is that a range reads
from no scope. -/
theorem exists_breaks_of_faultWithin? {depth : Nat} (isScope : g.ScopeIn root top)
    (plain : fault = .noScope → g.PlainScopes root) (found : g.faultWithin? depth top = some fault) :
    ∃ scope, g.ScopeIn root scope ∧ g.Breaks scope fault := by
  induction depth generalizing top with
  | zero => simp [faultWithin?] at found
  | succ depth ih =>
    have here : g.Breaks top fault → ∃ scope, g.ScopeIn root scope ∧ g.Breaks scope fault :=
      fun broken => ⟨top, isScope, broken⟩
    simp only [faultWithin?_succ isScope.isRetrieve, Option.or_eq_some_iff] at found
    rcases found with names | ⟨-, anchor | ⟨-, ranges | ⟨-, values | ⟨-, sort | ⟨-, filter⟩⟩⟩⟩⟩
    · obtain ⟨name, twice, rfl⟩ := Option.map_eq_some_iff.mp names
      refine here (.duplicateRange fun nodup => ?_)
      rw [repeatedName?_eq_none.mpr ⟨nodup, by simp⟩] at twice
      cases twice
    · exact here (breaks_of_anchorFault? isScope.isRetrieve anchor)
    · obtain ⟨range, held, found⟩ := List.exists_of_findSome?_eq_some ranges
      cases node : g.node range with
      | range r =>
        rw [rangeFault?_eq node] at found
        rcases Option.or_eq_some_iff.mp found with found | ⟨-, found⟩
        · obtain ⟨join, joined, found⟩ := Option.bind_eq_some_iff.mp found
          exact here (breaks_of_joinFault? held node joined found)
        · obtain ⟨inner, nested, found⟩ := Option.bind_eq_some_iff.mp found
          have nested' : (g.node range).nested? = some inner := by rw [node]; exact nested
          have isRetrieve : (g.node inner).isRetrieve = true := by
            by_contra other
            have lost := noScope_of_faultWithin? (by simpa using other) found
            exact other ((plain lost isScope held).2 inner nested')
          exact ih (isScope.nested held nested' isRetrieve) found
      | _ => simp [rangeFault?, range?, node] at found
    · obtain ⟨value, held, found⟩ := List.exists_of_findSome?_eq_some values
      exact here (breaks_of_undeclaredFault? (.value held) found)
    · obtain ⟨item, held, found⟩ := List.exists_of_findSome?_eq_some sort
      exact here (breaks_of_sortFault? held found)
    · obtain ⟨condition, held, found⟩ := Option.bind_eq_some_iff.mp filter
      exact here (breaks_of_filterFault? held found)

end

end Graph

end RangeQuery
