import RangeQuery.Proofs.BlockedAnys
import RangeQuery.Proofs.Scope.BrokenRules
import RangeQuery.Proofs.Scope.StandingAnys

/-!
Which ANYs are resolved. The ANYs of a scope take turns, the innermost first. Each that stands in a
value or in the filter when the pass begins is there when its turn comes, and then gives its place to
a subquery or to the number 1; it stays only if no range it reads may start the join of a subquery.
-/

namespace RangeQuery

namespace Graph

variable {g h : Graph} {root scope any later : NodeId} {ranges : List NodeId}

/-- No range that an ANY of a scope reads may start the join of a subquery in its place; where it reads
none, the first range of the scope may not. -/
def Blocked (g : Graph) (scope any : NodeId) : Prop :=
  ∃ a, g.node any = .aggregate a ∧
    let live := g.liveAmong (g.includedRanges scope) a.operand a.condition
    ∀ range ∈ live, g.Barred (live.map g.rangeName) a.condition range

/-- Where there are ranges, an ANY without a condition is not blocked. -/
theorem not_blocked_of_no_condition (some : g.includedRanges scope ≠ []) {a : Aggregate}
    (node : g.node any = .aggregate a) (none : a.condition = none) : ¬ g.Blocked scope any := by
  rintro ⟨a', node', blocked⟩
  obtain rfl := Node.aggregate.inj (node'.symm.trans node)
  obtain ⟨range, mem⟩ := List.exists_mem_of_ne_nil _ (liveAmong_ne_nil some)
  obtain ⟨filter, is, -⟩ := (blocked range mem).tested
  rw [none] at is
  cases is

/-- An ANY for which a place in the scope is known is left exactly if it is blocked. -/
theorem Sources.untold_iff (s : g.Sources (g.includedRanges scope)) (l : g.Linked root)
    (some : g.includedRanges scope ≠ []) (isAny : (g.node any).isAny = true)
    (below : g.Below root any) {site : AnySite} (located : g.locate? scope any = .some site)
    (unsorted : site.site ≠ .sort) (metadata : Metadata) :
    (g.resolveAnyAt metadata scope any).2 = false ↔ g.Blocked scope any := by
  obtain ⟨a, node⟩ := isAggregate_of_isAny isAny
  have acyclic : ∀ top ∈ a.operand :: a.condition.toList, g.Acyclic top := fun top mem =>
    l.acyclic (below.child (by rwa [children, node]))
  have told : (g.resolveAnyAt metadata scope any).2 =
      (g.correlate metadata (g.includedRanges scope) a.operand a.condition).2.isSome := by
    simp only [resolveAnyAt, located, if_neg unsorted, resolveAny, aggregate?, node]
    split
    · next none => simp [none]
    · next found =>
      rw [found]
      split <;> rfl
  rw [told, Option.isSome_eq_false_iff, Option.isNone_iff_eq_none]
  refine (s.correlate_eq_none_iff metadata some acyclic).trans
    ⟨fun blocked => ⟨a, node, blocked⟩, ?_⟩
  rintro ⟨a', node', blocked⟩
  obtain rfl := Node.aggregate.inj (node'.symm.trans node)
  exact blocked

/-! ## Turns -/

/-- A scope in which some ANYs have still to be handled, none of them below one that comes earlier. -/
structure Turns (g : Graph) (root scope : NodeId) (anys : List NodeId) : Prop where
  linked : g.Linked root
  isScope : g.ScopeIn root scope
  some : g.includedRanges scope ≠ []
  sources : g.Sources (g.includedRanges scope)
  isAny : ∀ any ∈ anys, (g.node any).isAny = true
  below : ∀ any ∈ anys, g.Below scope any
  ordered : anys.Pairwise fun first later => ¬ g.Below first later

namespace Turns

variable {anys : List NodeId}

/-- What such a change leaves keeps its turn. -/
theorem keep (t : g.Turns root scope anys) (k : LeavesTo g h scope anys) (l : h.Linked root)
    (isScope : h.ScopeIn root scope) (stamp : Same Node.stamp g h) : h.Turns root scope anys := by
  have included := k.includedRanges t.isScope.isRetrieve isScope.isRetrieve
  have below : ∀ any ∈ anys, h.Below scope any := fun any mem => by
    obtain ⟨trail, way⟩ := t.below any mem
    exact ⟨trail, k.trails any mem trail way⟩
  refine ⟨l, isScope, included ▸ t.some, ?_, fun any mem => ?_, below, ?_⟩
  · rw [included]
    exact t.sources.of_same k.size fun range mem => k.sources range (mem_includedRanges mem).1
  · rw [stamp.isAny (t.linked.has_of_below (t.isScope.reached.trans (t.below any mem)))]
    exact t.isAny any mem
  · refine t.ordered.imp_of_mem fun {first later} mem mem' apart again => apart ?_
    obtain ⟨trail, way⟩ := t.below later mem'
    exact l.below_of_trail isScope.reached way (k.trails later mem' trail way) (below first mem) again

section

variable (t : g.Turns root scope (any :: anys)) (metadata : Metadata)

include t

/-- One turn: the ANY stays, after some work beside the query, or gives its place to a new node. -/
theorem outcome :
    (g.resolveAnyAt metadata scope any).2 = false ∧ Extends g (g.resolveAnyAt metadata scope any).1 ∨
      (g.resolveAnyAt metadata scope any).2 = true ∧ ∃ owner new, g.Below root owner ∧
        TakesPlace g (g.resolveAnyAt metadata scope any).1 scope any owner new := by
  rcases g.resolveAnyAt_cases metadata scope any with untold | ⟨told, -⟩
  · exact .inl untold
  · obtain ⟨owner, above, slot⟩ := t.isScope.exists_owner (t.below any (by simp))
      (isRetrieve_of_isAny (t.isAny any (by simp)))
    obtain ⟨new, place⟩ := takesPlace_resolveAnyAt told slot (t.linked.parent_child above slot)
    exact .inr ⟨told, owner, new, above, place⟩

/-- One turn leaves what the later ones need. -/
theorem leavesTo : LeavesTo g (g.resolveAnyAt metadata scope any).1 scope anys := by
  rcases t.outcome metadata with ⟨-, beside⟩ | ⟨told, owner, new, -, place⟩
  · exact beside.leavesTo t.linked t.isScope.reached anys
  · refine place.leavesTo t.linked t.isScope (fun range declared below => ?_)
      (List.pairwise_cons.mp t.ordered).1
    -- Nothing that hangs below a range is found from the scope.
    have lost := t.linked.locateFrom_of_below_declared t.isScope declared below any g.size false
    simp [resolveAnyAt, locate?, lost] at told

/-- After one turn the others follow. -/
theorem next : (g.resolveAnyAt metadata scope any).1.Turns root scope anys := by
  have resolved := g.resolved_resolveAnyAt metadata scope any
  have others : g.Turns root scope anys :=
    { t with
      isAny := fun later mem => t.isAny later (by simp [mem])
      below := fun later mem => t.below later (by simp [mem])
      ordered := (List.pairwise_cons.mp t.ordered).2 }
  obtain ⟨zone, level, reshaped, -⟩ := t.linked.zone.resolved resolved
  exact others.keep (t.leavesTo metadata) (reshaped.inOrder.linked (Set.mem_singleton root))
    ((Keeps.resolved resolved).scopeIn t.linked t.isScope)
    (Node.formal_stamp.toPlaced.resolved resolved)

end

end Turns

/-! ## The run -/

/-- The ANYs from a scope in the order in which they are handled. -/
def anysOf (g : Graph) (scope : NodeId) : List NodeId :=
  (g.postOrder scope).filter fun id => (g.node id).isAny

/-- The graph after some ANYs of a scope have been handled. -/
def afterTurns (g : Graph) (metadata : Metadata) (scope : NodeId) (anys : List NodeId) : Graph :=
  (changeEach (fun g any => g.resolveAnyAt metadata scope any) g anys).1

theorem resolveAnys_eq (g : Graph) (metadata : Metadata) (scope : NodeId) :
    (g.resolveAnys metadata scope).1 = g.afterTurns metadata scope (g.anysOf scope) := rfl

theorem afterTurns_cons (g : Graph) (metadata : Metadata) (scope any : NodeId) (anys : List NodeId) :
    g.afterTurns metadata scope (any :: anys) =
      (g.resolveAnyAt metadata scope any).1.afterTurns metadata scope anys := rfl

theorem afterTurns_append (g : Graph) (metadata : Metadata) (scope : NodeId)
    (before after : List NodeId) :
    g.afterTurns metadata scope (before ++ after) =
      (g.afterTurns metadata scope before).afterTurns metadata scope after := by
  induction before generalizing g with
  | nil => rfl
  | cons any before ih => rw [List.cons_append, afterTurns_cons, ih, afterTurns_cons]

/-- No turn gives an ANY that has none a recorded owner. -/
theorem releases_afterTurns (g : Graph) (metadata : Metadata) (scope : NodeId) (anys : List NodeId) :
    Releases g (g.afterTurns metadata scope anys) :=
  changeEach_induction (motive := Releases g) (fun {h} any _ releases => by
    rcases h.resolveAnyAt_cases metadata scope any with ⟨-, beside⟩ | ⟨told, -⟩
    · exact releases.trans (.beside beside)
    · exact releases.trans (.of_swapsIn (swapsIn_resolveAnyAt told))) (.refl g)

namespace Turns

/-- When the turn of an ANY comes, it stands where it stood. -/
theorem after {before after : List NodeId} (t : g.Turns root scope (before ++ after))
    (metadata : Metadata) :
    (g.afterTurns metadata scope before).Turns root scope after ∧
      ∀ any ∈ after, g.StandsIn scope any →
        (g.afterTurns metadata scope before).StandsIn scope any := by
  induction before generalizing g with
  | nil => exact ⟨t, fun _ _ stands => stands⟩
  | cons first before ih =>
    obtain ⟨turns, stand⟩ := ih (t.next metadata)
    exact ⟨turns, fun any mem stands => stand any mem
      ((t.leavesTo metadata).stands any (List.mem_append_right _ mem) stands)⟩

/-- An ANY whose turn has come is left exactly if it is blocked. -/
theorem untold_iff {anys : List NodeId} (t : g.Turns root scope (any :: anys))
    (stands : g.StandsIn scope any) (metadata : Metadata) :
    (g.resolveAnyAt metadata scope any).2 = false ↔ g.Blocked scope any := by
  obtain ⟨site, located, unsorted⟩ := t.linked.exists_locate? t.isScope.reached stands
  exact t.sources.untold_iff t.linked t.some (t.isAny any (by simp))
    (t.isScope.reached.trans (t.below any (by simp))) located unsorted metadata

/-- A node without a recorded owner is not reached any more. -/
theorem not_below_of_released {anys : List NodeId} (t : g.Turns root scope anys)
    (metadata : Metadata) {old : NodeId} (has : g.Has old) (other : old ≠ root)
    (released : g.parent old = none) : ¬ (g.afterTurns metadata scope anys).Below root old := by
  have all : g.Turns root scope (anys ++ []) := by rwa [List.append_nil]
  have l := (all.after metadata).1.linked
  have lost : (g.afterTurns metadata scope anys).parent old = none := by
    rcases (g.releases_afterTurns metadata scope anys).parent has with same | none
    · rw [same, released]
    · exact none
  intro below
  rcases below.eq_or_owner with same | ⟨owner, above, slot⟩
  · exact other same
  · rw [l.parent_child above slot] at lost
    cases lost

end Turns

end Graph

open RangeQuery.Graph

namespace Query

variable {q : Query} {scope any : NodeId}

/-- Each ANY of a scope has one turn, after all ANYs below it. -/
theorem exists_turn (w : q.WellLinked) (mem : scope ∈ q.scopes)
    (isAny : (q.graph.node any).isAny = true) (below : q.graph.Below scope any) :
    ∃ before after, q.graph.anysOf scope = before ++ any :: after ∧ any ∉ before ++ after ∧
      ∀ inner, q.graph.Below any inner → (q.graph.node inner).isAny = true → inner ≠ any →
        inner ∈ before := by
  have above := (scopeIn_of_mem_scopes mem).reached
  have listed : ∀ {id}, id ∈ q.graph.anysOf scope ↔
      q.graph.Below scope id ∧ (q.graph.node id).isAny = true := fun {id} => by
    rw [anysOf, List.mem_filter, (w.tree.acyclic above).mem_postOrder]
  obtain ⟨before, after, split⟩ := List.append_of_mem (listed.mpr ⟨below, isAny⟩)
  have ordered : (before ++ any :: after).Pairwise fun first later => ¬ q.graph.Below first later :=
    split ▸ (w.tree.pairwise_postOrder above).filter _
  have once : (before ++ any :: after).Nodup := by
    refine List.Pairwise.imp ?_ ordered
    rintro id _ apart rfl
    exact apart (.refl _ id)
  refine ⟨before, after, split, (List.nodup_cons.mp (List.nodup_middle.mp once)).1,
    fun inner deeper isAny' ne => ?_⟩
  have among : inner ∈ before ++ any :: after := split ▸ listed.mpr ⟨below.trans deeper, isAny'⟩
  have later := (List.pairwise_cons.mp (List.pairwise_append.mp ordered).2.1).1
  rcases List.mem_append.mp among with before | rest
  · exact before
  · rcases List.mem_cons.mp rest with same | after
    · exact absurd same ne
    · exact absurd deeper (later inner after)

/-- The subqueries of a query read nodes of its graph only. -/
def SubqueriesBound (q : Query) : Prop :=
  ∀ sub, q.graph.Below q.root sub → (q.graph.node sub).isSubquery = true →
    ∀ range, q.graph.Reads sub range → q.graph.Has range

section

variable (w : q.WellLinked) (valid : q.validate = .ok ()) (bound : q.SubqueriesBound)
  (mem : scope ∈ q.scopes)

include w valid bound mem

/-- In a query that passed the checks the join predicates read nodes of the graph only. -/
theorem has_of_reads_join {range join read : NodeId}
    (declared : range ∈ (q.graph.node scope).declared) (held : q.graph.join? range = some join)
    (reads : q.graph.Reads join read) : q.graph.Has read := by
  have isScope := scopeIn_of_mem_scopes mem
  have slot := declared_subset_children _ declared
  have within := (isScope.reached.child slot).child (mem_children_of_join? held)
  cases isSubquery : (q.graph.node join).isSubquery with
  | true => exact bound join within isSubquery read reads
  | false =>
    obtain ⟨reader, i, ⟨trail, way⟩, node, rfl⟩ := reads
    by_cases inside : ∃ sub ∈ trail, (q.graph.node sub).isSubquery = true
    · obtain ⟨sub, on, subquery⟩ := inside
      obtain ⟨above, below⟩ := way.below_of_mem on
      exact bound sub (within.trans above) subquery i.range ⟨reader, i, below, node, rfl⟩
    · -- Outside subqueries only declared ranges are read.
      have outside : q.graph.Outside join reader := ⟨trail, way, by simpa using inside⟩
      obtain ⟨r, source⟩ := Node.exists_of_isRange (isRange_of_join? held)
      have clause : q.graph.InClause scope (.join r.name) join :=
        .join declared source ((join?_eq source).symm.trans held)
      have declares : q.graph.undeclared? (q.graph.node scope).declared join = none := by
        by_contra undeclared
        obtain ⟨other, found⟩ := Option.ne_none_iff_exists'.mp undeclared
        exact not_breaks_of_faultWithin? (q.validate_eq_ok_iff.mp valid) mem
          (.undeclaredRange clause found)
      have among := (w.tree.undeclared?_eq_none within isSubquery).mp declares reader i outside node
      exact w.tree.has_of_below (isScope.reached.child (declared_subset_children _ among))

/-- In a query that passed the checks the ANYs of a scope can take turns. -/
theorem turns (some : q.graph.includedRanges scope ≠ []) :
    q.graph.Turns q.root scope (q.graph.anysOf scope) := by
  have isScope := scopeIn_of_mem_scopes mem
  have declared : ∀ range ∈ q.graph.includedRanges scope, range ∈ (q.graph.node scope).declared :=
    fun range mem => (mem_includedRanges mem).1
  have names : ((q.graph.node scope).declared.map q.graph.rangeName).Nodup := by
    by_contra repeated
    have broken : q.graph.Breaks scope (.duplicateRange "") := .duplicateRange repeated
    exact not_breaks_of_faultWithin? (q.validate_eq_ok_iff.mp valid) mem broken
  have sources : q.graph.Sources (q.graph.includedRanges scope) := by
    refine ⟨q.graph.isRange_includedRanges scope, ?_, fun range mem => ?_,
      fun range among join held read reads =>
        has_of_reads_join w valid bound mem (declared range among) held reads⟩
    · rw [← ranges_scope isScope.isRetrieve] at names
      exact names.sublist (List.filter_sublist.map _)
    · exact w.tree.acyclic
        (isScope.reached.child (declared_subset_children _ (declared range mem)))
  exact ⟨w.tree, isScope, some, sources, fun any mem => (List.mem_filter.mp mem).2,
    fun any mem => below_of_mem_postOrder (List.mem_filter.mp mem).1,
    (w.tree.pairwise_postOrder isScope.reached).filter _⟩

end

/-- In a query that passed the checks each ANY in a value or in the filter of a scope is resolved, unless
it is blocked when its turn comes. The ANYs below it have their turns before. It still stands in the
scope then: if it is blocked, no old node changes; otherwise a subquery or the number 1 takes its place,
and it has left the query when the last turn is over. The checks do not enter subqueries, so those that
are there already have to read nodes of the graph. What a subquery copies is cut off nowhere
(`Founded.copyLevels_eq`), unless a query behind a copied range has templates that lead in a circle. -/
theorem resolveAnys_unless_blocked (w : q.WellLinked) (valid : q.validate = .ok ())
    (bound : q.SubqueriesBound) (mem : scope ∈ q.scopes)
    (some : q.graph.includedRanges scope ≠ []) (metadata : Metadata)
    (isAny : (q.graph.node any).isAny = true) (stands : q.graph.StandsIn scope any) :
    ∃ before after, q.graph.anysOf scope = before ++ any :: after ∧ any ∉ before ++ after ∧
      (∀ inner, q.graph.Below any inner → (q.graph.node inner).isAny = true → inner ≠ any →
        inner ∈ before) ∧
      let g := q.graph.afterTurns metadata scope before
      let h := (g.resolveAnyAt metadata scope any).1
      (q.graph.resolveAnys metadata scope).1 = h.afterTurns metadata scope after ∧
        (g.node any).isAny = true ∧ g.StandsIn scope any ∧
        (g.Blocked scope any → Extends g h) ∧
        (¬ g.Blocked scope any → (∃ owner new, TakesPlace g h scope any owner new) ∧
          ¬ (q.graph.resolveAnys metadata scope).1.Below q.root any) := by
  obtain ⟨before, after, split, once, inner⟩ := exists_turn w mem isAny stands.below
  refine ⟨before, after, split, once, inner, ?_⟩
  intro g h
  have final : (q.graph.resolveAnys metadata scope).1 = h.afterTurns metadata scope after := by
    rw [resolveAnys_eq, split, afterTurns_append, afterTurns_cons]
  have all := turns w valid bound mem some
  rw [split] at all
  obtain ⟨t, stand⟩ := all.after metadata
  have stands' := stand any (by simp) stands
  have untold := t.untold_iff stands' metadata
  refine ⟨final, t.isAny any (by simp), stands', fun blocked => ?_, fun free => ?_⟩
  · rcases t.outcome metadata with ⟨-, beside⟩ | ⟨told, -⟩
    · exact beside
    · rw [untold.mpr blocked] at told
      cases told
  · rcases t.outcome metadata with ⟨left, -⟩ | ⟨-, owner, new, above, place⟩
    · exact absurd (untold.mp left) free
    · refine ⟨⟨owner, new, place⟩, ?_⟩
      rw [final]
      exact (t.next metadata).not_below_of_released metadata
        (Nat.lt_of_lt_of_le (t.linked.has_of_below (above.child place.slot)) place.size)
        (t.linked.child_ne_root above place.slot) place.released

/-- A query in which no subquery is reached. -/
theorem subqueriesBound_of_closed (ids : List NodeId) (mem : q.root ∈ ids)
    (closed : ∀ owner ∈ ids, ∀ child ∈ q.graph.children owner, child ∈ ids)
    (none : ∀ id ∈ ids, (q.graph.node id).isSubquery = false) : q.SubqueriesBound := by
  intro sub below subquery
  rw [none sub (below.mem_of_closed mem closed)] at subquery
  cases subquery

theorem subqueriesBound_customersWithOrder : customersWithOrder.SubqueriesBound :=
  subqueriesBound_of_closed [⟨9⟩, ⟨0⟩, ⟨1⟩, ⟨2⟩, ⟨3⟩, ⟨4⟩, ⟨5⟩, ⟨6⟩, ⟨7⟩, ⟨8⟩] (by decide) (by decide)
    (by decide)

/-- The ANY of the filter has no condition, so a subquery takes its place. -/
theorem resolveAnys_customersWithOrder :
    (customersWithOrder.WellLinked ∧ customersWithOrder.validate = .ok () ∧
      customersWithOrder.SubqueriesBound ∧ ⟨9⟩ ∈ customersWithOrder.scopes ∧
      customersWithOrder.graph.includedRanges ⟨9⟩ ≠ [] ∧
      (customersWithOrder.graph.node ⟨6⟩).isAny = true ∧ customersWithOrder.graph.StandsIn ⟨9⟩ ⟨6⟩) ∧
    ¬ (customersWithOrder.graph.resolveAnys noMetadata ⟨9⟩).1.Below ⟨9⟩ ⟨6⟩ := by
  have valid : customersWithOrder.validate = .ok () := by decide +kernel
  have stands : customersWithOrder.graph.StandsIn ⟨9⟩ ⟨6⟩ := ⟨⟨6⟩, by decide, [], .here, by simp⟩
  have some : customersWithOrder.graph.includedRanges ⟨9⟩ ≠ [] := by decide
  have mem : ⟨9⟩ ∈ customersWithOrder.scopes := by decide
  refine ⟨⟨wellLinked_customersWithOrder, valid, subqueriesBound_customersWithOrder, mem, some, rfl,
    stands⟩, ?_⟩
  obtain ⟨before, after, split, -, -, -, -, -, -, resolved⟩ :=
    resolveAnys_unless_blocked wellLinked_customersWithOrder valid subqueriesBound_customersWithOrder
      mem some noMetadata rfl stands
  have only : customersWithOrder.graph.anysOf ⟨9⟩ = [⟨6⟩] := by decide +kernel
  obtain rfl : before = [] := by
    have lengths := congrArg List.length (only.symm.trans split)
    simp only [List.length_append, List.length_cons, List.length_nil] at lengths
    exact List.length_eq_zero_iff.mp (by omega)
  exact (resolved (not_blocked_of_no_condition some rfl rfl)).2

end Query

end RangeQuery
