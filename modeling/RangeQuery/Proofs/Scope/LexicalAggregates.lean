import RangeQuery.Proofs.Scope.AggregateAnswers
import RangeQuery.Proofs.Scope.ExcludedRanges
import RangeQuery.Proofs.Scope.LexicalSubqueries
import RangeQuery.Proofs.Scope.MergedPair

/-!
Names while aggregates become subqueries. An aggregate that gives its place to a subquery over ranges of
a scope has no other scope around it within the scope: the ANYs of a scope are looked for up to the
nearest scope, and a conditional aggregate within a nested query reads no range of the scope.
-/

namespace RangeQuery

namespace Graph

variable {g h k : Graph} {root scope old id : NodeId} {a : Aggregate} {metadata : Metadata}
  {ranges : List NodeId} {sub : CorrelatedScope} {zone : Set NodeId} {level : NodeId → List NodeId}

/-! ## Kept names -/

namespace KeepsNames

theorem replaceBySubquery (node : g.node old = .aggregate a) (kind : SubqueryKind)
    (expression : Option NodeId) (sub : CorrelatedScope) :
    KeepsNames g (g.replaceBySubquery old kind expression sub) :=
  .of_slotless (.replaceBySubquery node kind expression sub) fun slotless =>
    slotless.replaceBySubquery g old kind expression sub

theorem inlineAny (scope : NodeId) (node : g.node old = .aggregate a) :
    KeepsNames g (g.inlineAny scope old) :=
  .of_slotless (.inlineAny scope node) fun slotless => slotless.inlineAny g scope old

theorem foldCondition (g : Graph) (id : NodeId) : KeepsNames g (g.foldCondition id).1 :=
  .of_slotless (.foldCondition g id) fun slotless => slotless.foldCondition g id

end KeepsNames

/-! ## Swapped aggregates -/

namespace Lexical

variable (x : Lexical g root) (l : g.Linked root)

include x l

/-- Work beside the query keeps the names. -/
theorem beside (e : Extends g h) : Lexical h root :=
  x.reshaped l (.of_extends e) ⟨e.zone l.zone, fun mem _ => ⟨mem, rfl⟩⟩ fun mem new =>
    absurd (l.has_of_below mem) new

/-- A subquery over new nodes that takes the place of an aggregate outside the query keeps the names. -/
theorem replacedOutside (node : g.node old = .aggregate a) (outside : ¬ g.Below root old)
    (e : Extends g h) (kind : SubqueryKind) (expression : Option NodeId)
    (fresh : ∀ id ∈ sub.ranges ++ expression.toList ++ sub.condition.toList, ¬ g.Has id) :
    Lexical (h.replaceBySubquery old kind expression sub) root := by
  have later : h.node old = .aggregate a := (e.node (has_of_aggregate node)).trans node
  exact x.reshaped l ((KeepsNames.of_extends e).trans (.replaceBySubquery later kind expression sub))
    (l.reshapedOutside outside (has_of_aggregate node) e kind fresh) fun mem new =>
      absurd (l.has_of_below mem) new

theorem inlined (scope : NodeId) (node : g.node old = .aggregate a) :
    Lexical (g.inlineAny scope old) root := by
  refine x.reshaped l (.inlineAny scope node) (l.zone.reshapedInline scope node) fun mem new => ?_
  obtain rfl := mem.resolve_right fun was => new (l.has_of_below was)
  exact wellNamed_of_silent (by rw [node_inlineAny_next]; rfl) _

/-- A subquery over new nodes that are understood within it takes the place of an aggregate. -/
theorem replacedBySubquery (node : g.node old = .aggregate a) (e : Extends g h)
    (z : h.Zone ∅ ∅ zone level) (fresh : ∀ id ∈ zone, ¬ g.Has id) {kind : SubqueryKind}
    {expression : Option NodeId}
    (ready : ∀ id ∈ sub.ranges ++ expression.toList ++ sub.condition.toList,
      h.Ready ∅ ∅ zone level [] id)
    (nodup : (sub.ranges ++ expression.toList ++ sub.condition.toList).Nodup)
    (own : (h.replaceBySubquery old kind expression sub).WellNamed
        (h.next :: g.levelFrom {root} old) h.next ∧
      ((h.replaceBySubquery old kind expression sub).node h.next).templateBodies = [])
    (parts : ∀ id ∈ zone, (h.replaceBySubquery old kind expression sub).WellNamed
        (level id ++ h.next :: g.levelFrom {root} old) id ∧
      ((h.replaceBySubquery old kind expression sub).node id).templateBodies = []) :
    Lexical (h.replaceBySubquery old kind expression sub) root := by
  have later : h.node old = .aggregate a := (e.node (has_of_aggregate node)).trans node
  refine x.reshaped l ((KeepsNames.of_extends e).trans (.replaceBySubquery later kind expression sub))
    (l.zone.reshapedBySubquery e z fresh node kind ready nodup) fun {id} mem new => ?_
  rcases mem with rfl | was | mem
  · rw [levelAround_next e.size]
    exact own
  · exact absurd (l.has_of_below was) new
  · rw [levelAround_of_new new (z.has mem)]
    exact parts id mem

end Lexical

/-! ## Aggregates of a scope -/

/-- An aggregate is immediate in a scope: it is reached, and within the scope no other one is around it. -/
structure Immediate (g : Graph) (root scope old : NodeId) (a : Aggregate) : Prop where
  isScope : g.ScopeIn root scope
  reached : g.Below root old
  node : g.node old = .aggregate a
  level : g.levelFrom {root} old = g.levelFrom {root} scope

namespace Immediate

variable (s : Immediate g root scope old a) (l : g.Linked root)

include s

theorem ne : old ≠ scope := by
  rintro rfl
  have isRetrieve := s.isScope.isRetrieve
  rw [s.node] at isRetrieve
  cases isRetrieve

include l

theorem inside : g.Below scope old := by
  have reached := s.isScope.reached
  have on := (l.mem_levelFrom reached).mpr
    ⟨opensScope_of_isRetrieve s.isScope.isRetrieve, reached, .refl g scope⟩
  rw [← s.level] at on
  exact ((l.mem_levelFrom s.reached).mp on).2.2

theorem exists_owner : ∃ owner, old ∈ g.children owner ∧ g.parent old = some owner := by
  obtain ⟨owner, above, slot⟩ := s.isScope.exists_owner (s.inside l) (by rw [s.node]; rfl)
  exact ⟨owner, slot, l.parent_child above slot⟩

end Immediate

/-- The subquery over a correlated scope declares the copies of the live ranges. -/
theorem Correlated.stocks
    (c : Correlated g metadata ranges a.operand a.condition h sub zone level) (e : Extends h k)
    {owner : NodeId} (slot : old ∈ g.children owner) (owned : g.parent old = some owner)
    (kind : SubqueryKind) (expression : Option NodeId)
    (fresh : ∀ id ∈ sub.ranges ++ expression.toList ++ sub.condition.toList, ¬ g.Has id) :
    Stocks g (k.replaceBySubquery old kind expression sub)
      (g.liveFor metadata ranges a.operand a.condition) k.next where
  isSubquery := k.isSubquery_next old kind expression sub
  declared id := by
    rw [node_next_replaceBySubquery (c.beside.trans e) fresh slot owned]
    exact c.ranges_perm_copies.mem_iff
  stamp := by
    have built := g.stamp_built (g.liveFor metadata ranges a.operand a.condition) a.condition
      (g.usage metadata [a.operand] a.condition ranges)
    rw [show (g.built _ _ _).1 = h from c.graph_eq.symm] at built
    exact built.trans (e.same.trans (Node.formal_stamp.toPlaced.replaceBySubquery k old kind expression
      sub))

section

variable (x : Lexical g root) (l : g.Linked root) (s : Immediate g root scope old a)
  (nodup : ranges.Nodup)
  (listed : ∀ range ∈ ranges, range ∈ (g.node scope).declared ∧ (g.node range).isRange = true)

include x l s nodup listed

/-- What is built for a correlated scope is understood by its names in a subquery over it. -/
theorem Correlated.wellNamed
    (c : Correlated g metadata ranges a.operand a.condition h sub zone level) {f : Graph} {new : NodeId}
    (n : KeepsNames h f)
    (stocks : Stocks g f (g.liveFor metadata ranges a.operand a.condition) new) :
    Offers g f sub.copies scope (new :: g.levelFrom {root} old) ∧ ∀ id ∈ zone,
      f.WellNamed (level id ++ new :: g.levelFrom {root} old) id ∧
        (f.node id).templateBodies = [] := by
  have sublist := g.liveFor_sublist metadata ranges a.operand a.condition
  have listed' : ∀ id ∈ g.liveFor metadata ranges a.operand a.condition, _ := fun id mem =>
    listed id (sublist.mem mem)
  have reached := s.isScope.reached
  have offers := stocks.offers (nodup.sublist sublist) x l reached listed' s.isScope.isRetrieve
    ((Keeps.of_extends c.beside).trans n.keeps)
  rw [c.copies_eq, s.level]
  refine ⟨offers, fun id mem => ?_⟩
  refine c.built.wellNamed x l reached s.isScope.isRetrieve (s.inside l) s.ne s.level
    (nodup.sublist sublist) listed' (fun filter is => ?_) (c.graph_eq ▸ n) offers mem
  rw [children, s.node]
  exact List.mem_cons_of_mem _ (Option.mem_toList.mpr is)

/-- A subquery without a value over a correlated scope takes the place of an aggregate. -/
theorem Lexical.tested (c : Correlated g metadata ranges a.operand a.condition h sub zone level)
    (kind : SubqueryKind) : Lexical (h.replaceBySubquery old kind none sub) root := by
  have later : h.node old = .aggregate a := (c.beside.node (has_of_aggregate s.node)).trans s.node
  obtain ⟨owner, slot, owned⟩ := s.exists_owner l
  have stocks := c.stocks (.refl h) slot owned kind none
    (by simpa using fun id mem => c.fresh (c.ready mem).mem)
  have parts := (c.wellNamed x l s nodup listed (.replaceBySubquery later kind none sub) stocks).2
  have listed' : ∀ id ∈ g.liveFor metadata ranges a.operand a.condition, _ := fun id mem =>
    listed id (mem_of_mem_liveFor mem)
  exact x.replacedBySubquery l s.node c.beside c.inOrder (fun _ => c.fresh)
    (by simpa using fun id => c.ready) (by simpa using c.nodup)
    (stocks.wellNamed (nodup.sublist (g.liveFor_sublist ..)) x l s.isScope.reached listed' _) parts

/-- A scalar subquery takes the place of an aggregate. -/
theorem Lexical.valued {value : NodeId} (v : Valued g metadata ranges a h sub zone level k value) :
    Lexical (k.replaceBySubquery old .scalar (some value) sub) root := by
  have later : k.node old = .aggregate a := (v.beside.node (has_of_aggregate s.node)).trans s.node
  obtain ⟨owner, slot, owned⟩ := s.exists_owner l
  obtain ⟨level', z, fresh, ready, nodup', levels, copied⟩ := v.inOrder
  have swapped := KeepsNames.replaceBySubquery later .scalar (some value) sub
  have aggregated : KeepsNames (h.copyWith a.operand sub.copies).1 k := by
    rw [v.graph_eq]
    exact .of_rigid fun {_ view} _ => .add view _ _
  have stocks := v.correlated.stocks v.grown slot owned .scalar (some value)
    fun id mem => fresh id (ready id mem).mem
  obtain ⟨offers, parts⟩ := v.correlated.wellNamed x l s nodup listed
    ((KeepsNames.of_extends v.grown).trans swapped) stocks
  have listed' : ∀ id ∈ g.liveFor metadata ranges a.operand a.condition, _ := fun id mem =>
    listed id (mem_of_mem_liveFor mem)
  refine x.replacedBySubquery l s.node v.beside z fresh ready nodup'
    (stocks.wellNamed (nodup.sublist (g.liveFor_sublist ..)) x l s.isScope.reached listed' _) ?_
  rintro id (rfl | mem | ⟨trail, way⟩)
  · refine wellNamed_of_silent ?_ _
    rw [← Node.isSilent_stamp, swapped.keeps.stamp.node (z.has (.inl rfl)), Node.isSilent_stamp,
      v.value_eq, v.graph_eq, node_add_next]
    rfl
  · rw [levels id mem]
    exact parts id mem
  · rw [copied way]
    refine x.wellNamed_copyWith l s.isScope.reached s.isScope.isRetrieve (s.inside l) s.ne s.level ?_
      v.correlated.beside (aggregated.trans swapped) offers way
    rw [children, s.node]
    exact List.mem_cons_self

end

/-! ## The ANYs of a scope -/

theorem Linked.level_child (l : g.Linked root) {owner child : NodeId} (above : g.Below root owner)
    (slot : child ∈ g.children owner) :
    g.levelFrom {root} child = g.enter child (g.levelFrom {root} owner) := by
  obtain ⟨trail, way⟩ := above
  rw [l.level_of_trail (way.down slot), l.level_of_trail way, scopesAmong_cons]

/-- No other scope is on the way up from a node to the clause that it stands in. -/
theorem Linked.level_of_locateFrom (l : g.Linked root) {any child : NodeId} {steps : Nat} {truth : Bool}
    {site : AnySite} (reached : g.Below root child)
    (located : g.locateFrom scope any steps child truth = some site) :
    g.levelFrom {root} child = g.enter child (g.levelFrom {root} scope) := by
  induction steps generalizing child truth with
  | zero => cases located
  | succ steps ih =>
    unfold locateFrom at located
    split at located
    · cases located
    next owner owned =>
    rcases reached.eq_or_owner with rfl | ⟨owner', above, slot⟩
    · rw [l.parent_root] at owned
      cases owned
    rw [l.parent_child above slot] at owned
    obtain rfl := Option.some.inj owned
    have on := l.level_child above slot
    split at located
    · next here => rw [on, here]
    · have further {truth : Bool} (closed : (g.node owner').opensScope = false)
          (located : g.locateFrom scope any steps owner' truth = some site) :
          g.levelFrom {root} child = g.enter child (g.levelFrom {root} scope) := by
        rw [on, ih above located, enter_of_false closed]
      split at located
      · next asks =>
        refine further ?_ located
        cases node : g.node owner' <;> simp_all [asksTruth, Node.opensScope, Node.ranges?]
      · split at located
        · cases located
        · refine further ?_ located
          cases node : g.node owner' <;> simp_all [closesScope, Node.opensScope, Node.ranges?]

/-- An ANY that is found in a clause of a scope is immediate in the scope. -/
theorem Linked.immediate_of_located (l : g.Linked root) (isScope : g.ScopeIn root scope)
    (reached : g.Below root old) (node : g.node old = .aggregate a) {site : AnySite}
    (located : g.locate? scope old = some site) : Immediate g root scope old a where
  isScope := isScope
  reached := reached
  node := node
  level := (l.level_of_locateFrom reached located).trans (enter_of_false (by rw [node]; rfl) _)

theorem Lexical.resolveAnyAt (x : Lexical g root) (l : g.Linked root) (isScope : g.ScopeIn root scope)
    (metadata : Metadata) (any : NodeId) : Lexical (g.resolveAnyAt metadata scope any).1 root := by
  cases located : g.locate? scope any with
  | none =>
    have same : (g.resolveAnyAt metadata scope any).1 = g := by simp only [Graph.resolveAnyAt, located]
    rwa [same]
  | some site =>
    have r := g.resolved_resolveAnyAt metadata scope any
    generalize (g.resolveAnyAt metadata scope any).1 = k at r
    cases r with
    | left beside => exact x.beside l beside
    | @inlined h a node beside =>
      exact (x.beside l beside).inlined (beside.linked l) scope
        ((beside.node (has_of_aggregate node)).trans node)
    | @replaced h a sub zone level kind node c =>
      by_cases reached : g.Below root any
      · refine x.tested l (l.immediate_of_located isScope reached node located)
          (l.nodup_includedRanges isScope.reached isScope.isRetrieve) (fun range among => ?_) c kind
        exact ⟨(isIncluded_of_mem among).1, g.isRange_includedRanges scope range among⟩
      · exact x.replacedOutside l node reached c.beside kind none
          (by simpa using fun id mem => c.fresh (c.ready mem).mem)

/-- Resolving the ANYs of a scope keeps the names. -/
theorem Lexical.resolveAnys (x : Lexical g root) (l : g.Linked root) (isScope : g.ScopeIn root scope)
    (metadata : Metadata) : Lexical (g.resolveAnys metadata scope).1 root := by
  refine (changeEach_induction (motive := fun g => g.Linked root ∧ g.ScopeIn root scope ∧
    Lexical g root) (fun {h} any _ ⟨l, isScope, x⟩ => ?_) ⟨l, isScope, x⟩).2.2
  have r := h.resolved_resolveAnyAt metadata scope any
  obtain ⟨_, _, reshaped, -⟩ := l.zone.resolved r
  exact ⟨reshaped.inOrder.linked rfl, (Keeps.resolved r).scopeIn l isScope,
    x.resolveAnyAt l isScope metadata any⟩

/-! ## The conditional aggregates of a scope -/

/-- Only queries are around a node within a scope. -/
def Facing (g : Graph) (root scope id : NodeId) : Prop :=
  ∃ inner, g.levelFrom {root} id = inner ++ g.levelFrom {root} scope ∧
    ∀ query ∈ inner, (g.node query).isRetrieve = true

/-- What is reached without entering a subquery has only queries around it. -/
theorem Outside.facing (outside : g.Outside scope id) (l : g.Linked root) (above : g.Below root scope)
    (other : (g.node id).isSubquery = false) : g.Facing root scope id := by
  obtain ⟨trail, way, enters⟩ := outside
  induction way with
  | here => exact ⟨[], rfl, by simp⟩
  | @down trail owner child way slot ih =>
    obtain ⟨inner, on, queries⟩ :=
      ih (enters owner (by simp)) fun owner mem => enters owner (by simp [mem])
    have link := l.level_child (above.trans ⟨_, way⟩) slot
    rw [on, enter] at link
    split at link
    · next opens =>
      refine ⟨child :: inner, link, fun query mem => ?_⟩
      rcases List.mem_cons.mp mem with rfl | mem
      · cases node : g.node query <;>
          simp_all [Node.opensScope, Node.ranges?, Node.isSubquery, Node.isRetrieve]
      · exact queries query mem
    · exact ⟨inner, link, queries⟩

/-- A conditional aggregate that is searched for in the clauses of a scope has only queries around it. -/
theorem Linked.facing_of_site (l : g.Linked root) (isScope : g.ScopeIn root scope)
    {site : NodeId × ExpressionSite} (listed : site ∈ g.aggregateSites (g.scope scope)) :
    g.Facing root scope site.1 := by
  obtain ⟨start, clause, found⟩ := exists_clause_of_mem_aggregateSites listed
  have slot : start ∈ g.children scope := g.children_scope_subset scope (by
    simp only [Node.children, List.append_assoc] at clause ⊢
    exact List.mem_append_right _ clause)
  have above := isScope.reached.child slot
  obtain ⟨outside, conditional⟩ := (l.mem_conditionalAggregates above).mp found
  refine Outside.facing ?_ l isScope.reached ?_
  · exact ((Outside.refl g scope).child (not_isSubquery_of_isRetrieve isScope.isRetrieve) slot).trans
      outside
  · cases node : g.node site.1 <;> simp_all [Node.isConditional, Node.isSubquery]

theorem Facing.stays (facing : g.Facing root scope id) (s : Stays g h root)
    (stamp : Same Node.stamp g h) (below : h.Below root id) (has : g.Has id)
    (above : h.Below root scope) (has' : g.Has scope) : h.Facing root scope id := by
  obtain ⟨inner, on, queries⟩ := facing
  refine ⟨inner, ?_, fun query mem => ?_⟩
  · rw [(s id below has).2, (s scope above has').2, on]
  · exact (stamp.isRetrieve (has_of_isRetrieve (queries query mem))).trans (queries query mem)

/-- An aggregate that reads a range of the scope has no query around it within the scope: from there
no name leads to the range. -/
theorem Lexical.immediate_of_reads (x : Lexical g root) (l : g.Linked root)
    (isScope : g.ScopeIn root scope) (reached : g.Below root old) (node : g.node old = .aggregate a)
    (facing : g.Facing root scope old) {range : NodeId} (declared : range ∈ (g.node scope).declared)
    (reads : g.Reads old range) : Immediate g root scope old a := by
  obtain ⟨leaf, i, ⟨lower, further⟩, is, rfl⟩ := reads
  obtain ⟨inner, on, queries⟩ := facing
  obtain ⟨upper, way⟩ := reached
  have whole := way.append further
  have around : g.scopesAmong (leaf :: (lower ++ upper)) =
      (g.scopesAmong (leaf :: lower) ++ inner) ++ g.levelFrom {root} scope := by
    have level := l.level_of_trail way
    rw [on, scopesAmong_cons, enter_of_false (by rw [node]; rfl)] at level
    rw [List.append_assoc, level, scopesAmong, scopesAmong, scopesAmong, ← List.filter_append]
    rfl
  have none : inner = [] := by
    have finds := ((x.named whole).found i is).2
    rw [around] at finds
    rcases finds.within_or_beyond with within | ⟨misses, -⟩
    -- The scope would be around the identifier twice.
    · obtain ⟨other, mem, declared'⟩ := within.exists_scope
      have once := (l.nodup_trail whole).filter fun id => (g.node id).opensScope
      rw [← scopesAmong, around] at once
      have reached' : g.Below root other := by
        refine ((l.mem_levelFrom ⟨_, whole⟩).mp ?_).2.1
        rw [l.level_of_trail whole, around]
        exact List.mem_append_left _ mem
      obtain rfl := l.declared_unique reached' isScope.reached declared' declared
      have again := (l.mem_levelFrom reached').mpr
        ⟨opensScope_of_isRetrieve isScope.isRetrieve, reached', .refl g other⟩
      exact (List.disjoint_of_nodup_append once mem again).elim
    · cases inner with
      | nil => rfl
      | cons query rest =>
        have other := (misses query (by simp)).1
        rw [queries query (by simp)] at other
        cases other
  exact ⟨isScope, ⟨upper, way⟩, node, by rw [on, none, List.nil_append]⟩

section

variable (x : Lexical g root) (l : g.Linked root) (isScope : g.ScopeIn root scope)
  (nodup : ranges.Nodup)
  (listed : ∀ range ∈ ranges, range ∈ (g.node scope).declared ∧ (g.node range).isRange = true)
  (facing : g.Below root id → g.Facing root scope id)

include x l isScope listed facing

/-- An aggregate for which there is a correlated scope over ranges that it reads is immediate. -/
theorem Lexical.immediate_of_correlated (reached : g.Below root id) (node : g.node id = .aggregate a)
    (c : Correlated g metadata (ranges.filter (g.referencedRanges id).contains) a.operand a.condition h
      sub zone level) : Immediate g root scope id a := by
  obtain ⟨anchor, rest, is, -⟩ := c.anchored
  have isCopy := c.ranges_perm_copies.mem_iff.mp (is ▸ List.mem_cons_self)
  obtain ⟨⟨source, _⟩, pair, -⟩ := List.mem_map.mp isCopy
  have live := (g.fst_copyRanges _) ▸ List.mem_map.mpr ⟨_, pair, rfl⟩
  obtain ⟨among, read⟩ := List.mem_filter.mp (mem_of_mem_liveFor live)
  exact x.immediate_of_reads l isScope reached node (facing reached) (listed source among).1
    ((l.mem_referencedRanges reached).mp (List.contains_iff_mem.mp read))

include nodup

/-- What becomes of an aggregate that a subquery is wanted for keeps the names. -/
theorem Lexical.wrapped {wrapped : Bool} (w : Wrapped g metadata ranges id h wrapped) :
    Lexical h root := by
  have listed' : ∀ range ∈ ranges.filter (g.referencedRanges id).contains, _ := fun range mem =>
    listed range (List.mem_filter.mp mem).1
  cases w with
  | left beside => exact x.beside l beside
  | @tested h a sub zone level used kind node used' c =>
    subst used'
    by_cases reached : g.Below root id
    · exact x.tested l (x.immediate_of_correlated l isScope listed facing reached node c)
        (nodup.filter _) listed' c kind
    · exact x.replacedOutside l node reached c.beside kind none
        (by simpa using fun id mem => c.fresh (c.ready mem).mem)
  | @valued h k a sub zone level used value node used' v =>
    subst used'
    by_cases reached : g.Below root id
    · exact x.valued l (x.immediate_of_correlated l isScope listed facing reached node v.correlated)
        (nodup.filter _) listed' v
    · obtain ⟨level', -, fresh, ready, -⟩ := v.inOrder
      exact x.replacedOutside l node reached v.beside .scalar (some value)
        fun child slot => fresh child (ready child slot).mem

end

section

variable (metadata) (strategy : AggregateStrategy)

namespace Lexical

theorem freeOne (x : Lexical g root) (l : g.Linked root) (isScope : g.ScopeIn root scope)
    (nodup : ranges.Nodup)
    (listed : ∀ range ∈ ranges, range ∈ (g.node scope).declared ∧ (g.node range).isRange = true)
    (facing : g.Below root id → g.Facing root scope id) (z : g.Zone {root} ∅ zone level)
    (within : id ∈ zone) (site : ExpressionSite) :
    Lexical (g.freeOne metadata strategy ranges id site).1 root := by
  rcases freeOne_cases metadata strategy (fun range mem => (listed range mem).2) id site with
    wrapped | ⟨h, wrapped, same⟩
  · exact x.wrapped l isScope nodup listed facing wrapped
  · obtain ⟨_, _, reshaped, -, larger⟩ := z.wrapped wrapped
    rw [same]
    exact (x.wrapped l isScope nodup listed facing wrapped).rearranged (reshaped.inOrder.linked rfl)
      (.foldCondition h id) (reshaped.inOrder.rearrangesFold (larger within))

theorem freeAggregate (x : Lexical g root) (l : g.Linked root) (isScope : g.ScopeIn root scope)
    (nodup : ranges.Nodup)
    (listed : ∀ range ∈ ranges, range ∈ (g.node scope).declared ∧ (g.node range).isRange = true)
    (z : g.Zone {root} ∅ zone level) {sites : List (NodeId × ExpressionSite)}
    (facing : ∀ site ∈ sites, site.1 ∈ zone ∧ (g.Below root site.1 → g.Facing root scope site.1)) :
    Lexical (Graph.freeAggregate metadata strategy ranges g sites).1 root := by
  induction sites generalizing g zone level with
  | nil => exact x
  | cons first rest ih =>
    rw [freeAggregate_cons]
    obtain ⟨within, faces⟩ := facing first (by simp)
    have isRange : ∀ range ∈ ranges, (g.node range).isRange = true := fun range mem =>
      (listed range mem).2
    obtain ⟨linked, stays⟩ := l.stays_freeOne metadata strategy z isRange within first.2
    have keeps := Keeps.freeOne metadata strategy isRange first.1 first.2
    have still := keeps.scopeIn l isScope
    obtain ⟨zone', level', reshaped, -, larger⟩ := z.freeOne metadata strategy isRange within first.2
    have has := l.has_of_below isScope.reached
    refine ih (x.freeOne metadata strategy l isScope nodup listed faces z within first.2) linked still
      (fun range mem => ?_) reshaped.inOrder fun site later => ?_
    · obtain ⟨is, isRange⟩ := listed range mem
      exact ⟨(keeps.declared has (has_of_isRange isRange) isRange).mpr is,
        keeps.stamp.isRange_mono isRange⟩
    · obtain ⟨within, faces⟩ := facing site (by simp [later])
      refine ⟨larger within, fun below => ?_⟩
      have had := z.has within
      exact (faces (stays site.1 below had).1).stays stays keeps.stamp below had still.reached has

/-- Freeing the aggregates of a scope of their conditions keeps the names. -/
theorem freeAggregates (x : Lexical g root) (l : g.Linked root) (isScope : g.ScopeIn root scope) :
    Lexical (g.freeAggregates metadata strategy scope).1 root := by
  unfold Graph.freeAggregates
  dsimp only
  split
  · exact x.freeAggregatesOfOne l isScope
  · refine x.freeAggregate metadata strategy l isScope
      (l.nodup_includedRanges isScope.reached isScope.isRetrieve) (fun range among =>
      ⟨(isIncluded_of_mem among).1, g.isRange_includedRanges scope range among⟩) l.zone
      fun site found => ?_
    have listed := List.mem_reverse.mp found
    exact ⟨isScope.reached.trans (below_of_mem_aggregateSites listed), fun _ =>
      l.facing_of_site isScope listed⟩

end Lexical

end

end Graph

end RangeQuery
