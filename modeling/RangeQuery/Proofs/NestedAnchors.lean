import RangeQuery.Proofs.Anchors
import RangeQuery.Proofs.Scope.ConditionalAggregates
import RangeQuery.Proofs.Scope.NestedAnchors

/-!
Scopes that start with an anchor at every depth stay so, the queries as well as the subqueries:
those that the query was written with, and their copies in the subqueries that a compilation makes.
The pass that places anchors runs over the scopes of the written query only, so a copied query
starts with an anchor where the original did; a subquery is made with an anchor in front.
-/

namespace RangeQuery

namespace Graph

variable {g h : Graph} {kind : ScopeKind} {root scope : NodeId}

namespace Led

/-- A rearrangement that leaves what scopes declare first, and anchors what they are, leaves all
starting with anchors. -/
theorem rearranged (led : g.Led kind root) (leads : Same kind.lead g h)
    (starts : ∀ {id}, (g.node id).startsJoin = true → (h.node id).startsJoin = true)
    (r : Rearranges g h {root} {id | g.Below root id} (g.levelFrom {root})) : h.Led kind root := by
  obtain ⟨zone, level, reshaped, glued⟩ := r
  intro id below
  have mem := reshaped.inOrder.mem_of_below (reshaped.inOrder.root rfl).1 below
  by_cases had : g.Has id
  · exact (led id (reshaped.old mem had).1).kept (leads.node had) fun _ _ => starts
  · refine begins_of_not_opensScope ?_
    have glue := glued mem had
    cases node : h.node id <;> simp_all [Node.isGlue, Node.opensScope, Node.ranges?]

/-! ## Subqueries in the place of aggregates -/

variable (led : g.Led kind root) (l : g.Linked root)

include led l

/-- A subquery that starts with an anchor, over new scopes that do, takes the place of an
aggregate. -/
theorem replacedBySubquery (e : Extends g h) {zone : Set NodeId} {level : NodeId → List NodeId}
    (z : h.Zone ∅ ∅ zone level) (fresh : ∀ id ∈ zone, ¬ g.Has id) {old : NodeId} {a : Aggregate}
    (node : g.node old = .aggregate a) (form : SubqueryKind) {expression : Option NodeId}
    {sub : CorrelatedScope}
    (ready : ∀ id ∈ sub.ranges ++ expression.toList ++ sub.condition.toList,
      h.Ready ∅ ∅ zone level [] id)
    (nodup : (sub.ranges ++ expression.toList ++ sub.condition.toList).Nodup)
    (anchored : ∃ first rest, sub.ranges = first :: rest ∧ (h.node first).startsJoin = true)
    (new : g.Below root old → ∀ id ∈ zone, h.Begins kind id) :
    (h.replaceBySubquery old form expression sub).Led kind root := by
  have has := has_of_aggregate node
  let subquery : Node := .subquery
    { kind := form, ranges := sub.ranges, expression, condition := sub.condition }
  have none : ((h.add subquery).1.node old).startsJoin = false := by
    rw [node_add (e.has has), e.node has, node]
    rfl
  have added : (h.add subquery).1.Begins kind h.next := by
    obtain ⟨first, rest, declared, starts⟩ := anchored
    intro head leads
    rw [node_add_next] at leads
    cases kind with
    | query => cases leads
    | subquery =>
      obtain rfl : sub.ranges.head? = head := Option.some.inj leads
      rw [declared]
      refine ⟨by simp, fun id is => ?_⟩
      obtain rfl := Option.some.inj is
      rw [node_add (has_of_startsJoin starts), starts]
  have before : ∀ {id}, g.Below root id →
      (h.replaceBySubquery old form expression sub).Begins kind id := fun below => by
    have had := l.has_of_below below
    have begins := (led _ below).after had e.same e.same
    exact (begins.after (e.has had) (.add _ h subquery) (.add _ h subquery)).replace
      (has_add (e.has had) _) none _
  intro id below
  by_cases reached : g.Below root old
  · have r := l.zone.reshapedBySubquery e z fresh node form ready nodup
    rcases r.inOrder.mem_of_below (r.inOrder.root rfl).1 below with rfl | was | mem
    · exact added.replace (h.has_add_next _) none _
    · exact before was
    · have begins := (new reached id mem).after (z.has mem) (.add _ h subquery) (.add _ h subquery)
      exact begins.replace (has_add (z.has mem) _) none _
  · have r := l.reshapedOutside reached has e form fun child slot => fresh child (ready child slot).mem
    exact before (r.inOrder.mem_of_below (r.inOrder.root rfl).1 below)

theorem inlined (scope : NodeId) {any : NodeId} {a : Aggregate} (node : g.node any = .aggregate a) :
    (g.inlineAny scope any).Led kind root := by
  have none : ((g.add (.number "1")).1.node any).startsJoin = false := by
    rw [node_add (has_of_aggregate node), node]
    rfl
  have r := l.zone.reshapedInline scope node
  intro id below
  rcases r.inOrder.mem_of_below (r.inOrder.root rfl).1 below with rfl | was
  · refine begins_of_not_opensScope ?_
    have label := g.label_inlineAny_next scope any
    cases node : (g.inlineAny scope any).node g.next <;>
      simp_all [Node.label, Node.opensScope, Node.ranges?]
  · have had := l.has_of_below was
    have swapped := ((led id was).after had (.add _ g (.number "1")) (.add _ g _)).replace
      (has_add had _) none g.next
    unfold Graph.inlineAny
    dsimp only
    split
    · refine swapped.after ?_ (ScopeKind.unbound_lead.toSteady.setWindow _ scope _)
        (Node.seated_startsJoin.toSteady.setWindow _ scope _)
      exact (Node.seated_startsJoin.replace _ any g.next).has (has_add had _)
    · exact swapped

section

variable {metadata : Metadata} {ranges : List NodeId}
  (reach : ∀ range ∈ ranges, g.Below root range ∧ (g.node range).isIncluded = true)

include reach

theorem tested {old : NodeId} {a : Aggregate} (node : g.node old = .aggregate a)
    {sub : CorrelatedScope} {zone : Set NodeId} {level : NodeId → List NodeId}
    (c : Correlated g metadata ranges a.operand a.condition h sub zone level) (form : SubqueryKind) :
    (h.replaceBySubquery old form none sub).Led kind root := by
  refine led.replacedBySubquery l c.beside c.inOrder (fun _ => c.fresh) node form
    (by simpa using fun id => c.ready) (by simpa using c.nodup)
    (c.exists_first fun range used => (reach range used).2) fun reached id mem => ?_
  refine c.begins l led (fun id mem => ?_) mem
  rcases List.mem_append.mp mem with used | filter
  · exact (reach id used).1
  · exact reached.child (by simp [children, node, Node.children, Option.mem_toList.mp filter])

theorem valued {old : NodeId} {a : Aggregate} (node : g.node old = .aggregate a)
    {sub : CorrelatedScope} {zone : Set NodeId} {level : NodeId → List NodeId} {k : Graph}
    {value : NodeId} (v : Valued g metadata ranges a h sub zone level k value) :
    (k.replaceBySubquery old .scalar (some value) sub).Led kind root := by
  obtain ⟨level', z, fresh, ready, nodup, -⟩ := v.inOrder
  refine led.replacedBySubquery l v.beside z fresh node .scalar ready nodup
    (v.exists_first fun range used => (reach range used).2) fun reached id mem => ?_
  refine v.begins l led (fun id mem => ?_) (reached.child (by simp [children, node, Node.children])) mem
  rcases List.mem_append.mp mem with used | filter
  · exact (reach id used).1
  · exact reached.child (by simp [children, node, Node.children, Option.mem_toList.mp filter])

theorem wrapped {id : NodeId} {wrapped : Bool} (w : Wrapped g metadata ranges id h wrapped) :
    h.Led kind root := by
  cases w with
  | left beside => exact led.beside beside (l.grounded (Below.refl g root))
  | tested form node used c =>
    subst used
    exact led.tested l (fun range mem => reach range (List.mem_filter.mp mem).1) node c form
  | valued node used v =>
    subst used
    exact led.valued l (fun range mem => reach range (List.mem_filter.mp mem).1) node v

end

theorem resolved {metadata : Metadata} {any : NodeId} (isScope : g.ScopeIn root scope)
    (r : Resolved g metadata scope any h) : h.Led kind root := by
  cases r with
  | left beside => exact led.beside beside (l.grounded (Below.refl g root))
  | @inlined h a node beside =>
    refine (led.beside beside (l.grounded (Below.refl g root))).inlined (beside.linked l) scope
      (a := a) ?_
    rw [beside.node (has_of_aggregate node), node]
  | replaced form node c =>
    refine led.tested l (fun range included => ?_) node c form
    obtain ⟨declared, marked⟩ := isIncluded_of_mem included
    exact ⟨isScope.reached.child (declared_subset_children _ declared), marked⟩

/-! ## One aggregate after the other -/

variable (metadata : Metadata) (strategy : AggregateStrategy)

omit led l

theorem resolveAnys (led : g.Led kind root) (l : g.Linked root) (isScope : g.ScopeIn root scope) :
    (g.resolveAnys metadata scope).1.Led kind root := by
  have run : ∀ (anys : List NodeId) {g : Graph}, g.Led kind root → g.Linked root →
      g.ScopeIn root scope →
      (changeEach (fun g any => g.resolveAnyAt metadata scope any) g anys).1.Led kind root := by
    intro anys
    induction anys with
    | nil => exact fun led _ _ => led
    | cons any rest ih =>
      intro g led l isScope
      have r := g.resolved_resolveAnyAt metadata scope any
      exact ih (led.resolved l isScope r) ((l.zone.resolved r).linked (Set.mem_singleton root))
        ((Keeps.resolved r).scopeIn l isScope)
  exact run _ led l isScope

section

variable {ranges : List NodeId} {zone : Set NodeId} {level : NodeId → List NodeId}

theorem freeOne (led : g.Led kind root) (z : g.Zone {root} ∅ zone level)
    (reach : ∀ range ∈ ranges, g.Below root range ∧ (g.node range).isIncluded = true) {id : NodeId}
    (within : id ∈ zone) (site : ExpressionSite) :
    (g.freeOne metadata strategy ranges id site).1.Led kind root := by
  have l := z.linked (Set.mem_singleton root)
  have isRange : ∀ range ∈ ranges, (g.node range).isRange = true := fun range mem =>
    Node.isRange_of_isIncluded (reach range mem).2
  rcases freeOne_cases metadata strategy isRange id site with wrapped | ⟨h, wrapped, same⟩
  · exact led.wrapped l reach wrapped
  · rw [same]
    obtain ⟨zone', level', reshaped, -, larger⟩ := z.wrapped wrapped
    exact (led.wrapped l reach wrapped).rearranged
      (.foldCondition (fun _ _ => by simp only [ScopeKind.lead_aggregate]) h id)
      (Node.seated_startsJoin.foldCondition h id).startsJoin
      (reshaped.inOrder.rearrangesFold (larger within))

theorem freeAggregate (led : g.Led kind root) (z : g.Zone {root} ∅ zone level)
    (isScope : g.ScopeIn root scope)
    (declared : ∀ range ∈ ranges,
      range ∈ (g.node scope).declared ∧ (g.node range).isIncluded = true)
    {sites : List (NodeId × ExpressionSite)} (within : ∀ site ∈ sites, site.1 ∈ zone) :
    (Graph.freeAggregate metadata strategy ranges g sites).1.Led kind root := by
  induction sites generalizing g zone level with
  | nil => exact led
  | cons first rest ih =>
    rw [freeAggregate_cons]
    have l := z.linked (Set.mem_singleton root)
    have isRange : ∀ range ∈ ranges, (g.node range).isRange = true := fun range mem =>
      Node.isRange_of_isIncluded (declared range mem).2
    have reach : ∀ range ∈ ranges, g.Below root range ∧ (g.node range).isIncluded = true :=
      fun range mem => ⟨isScope.reached.child (declared_subset_children _ (declared range mem).1),
        (declared range mem).2⟩
    have keeps := Keeps.freeOne metadata strategy isRange first.1 first.2
    have label := same_freeOne metadata strategy Node.slotless_label.toPlaced isRange first.1 first.2
    obtain ⟨zone', level', reshaped, -, larger⟩ :=
      z.freeOne metadata strategy isRange (within first (by simp)) first.2
    refine ih (led.freeOne metadata strategy z reach (within first (by simp)) first.2)
      reshaped.inOrder (keeps.scopeIn l isScope) (fun range used => ?_)
      fun site later => larger (within site (by simp [later]))
    obtain ⟨is, included⟩ := declared range used
    exact ⟨(keeps.declared (l.has_of_below isScope.reached) (has_of_isIncluded included)
      (isRange range used)).mpr is, label.isIncluded included⟩

end

theorem freeAggregates (led : g.Led kind root) (l : g.Linked root) (isScope : g.ScopeIn root scope) :
    (g.freeAggregates metadata strategy scope).1.Led kind root := by
  unfold Graph.freeAggregates
  dsimp only
  split
  · have blind : ∀ a a', kind.lead (.aggregate a) = kind.lead (.aggregate a') := fun _ _ => by
      simp only [ScopeKind.lead_aggregate]
    refine led.rearranged ?_ (Node.seated_startsJoin.freeAggregatesOfOne g scope).startsJoin
      (l.zone.freeAggregatesOfOne isScope.reached).rearranges
    exact (ScopeKind.unbound_lead.toSteady.promoteCondition g scope).trans
      (.changeEach (fun g start => .changeEach (.foldCondition blind) g _) _ _)
  · refine led.freeAggregate metadata strategy l.zone isScope (fun range among =>
      isIncluded_of_mem among) fun site listed => ?_
    exact isScope.reached.trans (below_of_mem_aggregateSites (List.mem_reverse.mp listed))

end Led

/-! ## Merged ranges -/

/-- An anchor that a query declares first is the first range it includes. -/
theorem exists_of_lead {first : NodeId} (leads : some first ∈ ScopeKind.query.lead (g.node scope))
    (starts : (g.node first).startsJoin = true) :
    ∃ rest others, (g.node scope).declared = first :: rest ∧
      g.includedRanges scope = first :: others ∧ others ⊆ rest := by
  cases node : g.node scope with
  | retrieve r =>
    rw [node] at leads
    obtain ⟨rest, ranges⟩ : ∃ rest, r.ranges = first :: rest :=
      List.head?_eq_some_iff.mp (Option.some.inj leads)
    have included : (g.range? first).any (·.included) = true := by
      cases kind : g.node first <;> simp_all [Node.startsJoin, range?]
    refine ⟨rest, rest.filter fun id => (g.range? id).any (·.included), ranges, ?_,
      List.filter_subset_self _⟩
    simp [includedRanges, Graph.scope, node, ranges, included]
  | _ =>
    rw [node] at leads
    cases leads

namespace Led

/-- A merge leaves every scope starting with an anchor: the removed range is not the first one, and
a kept one that takes over a join predicate had one. -/
theorem mergePair (led : g.Led kind root) (l : g.Linked root) (isScope : g.ScopeIn root scope)
    {pair : IdentityPair} (found : g.findIdentity? (g.includedRanges scope) = some pair) :
    (g.mergePair scope pair).Led kind root := by
  have p := isPair_of_findIdentity? found
  have z := l.zone.mergePair isScope.reached p
  intro id below
  have below' : g.Below root id := z.mem_of_below (z.root rfl).1 below
  refine (led id below').kept ((ScopeKind.unbound_lead.mergePair g scope pair).node
    (l.has_of_below below')) fun first leads starts => ?_
  rw [startsJoin_mergePair p (has_of_startsJoin starts)]
  obtain ⟨kept, removed, holder⟩ := pair
  cases holder with
  | removed => exact starts
  | kept =>
    have notKept : first ≠ kept := by
      rintro rfl
      rw [startsJoin_eq_false p.joined] at starts
      cases starts
    have notRemoved : first ≠ removed := by
      rintro rfl
      have declared := (mem_includedRanges p.removed).1
      obtain rfl := l.owner_unique isScope.reached below' (declared_subset_children _ declared)
        (ScopeKind.mem_children_of_lead leads)
      obtain rfl := ScopeKind.eq_query_of_isRetrieve isScope.isRetrieve leads
      obtain ⟨rest, others, ranges, included, sub⟩ := exists_of_lead leads starts
      have later : first ∈ others := by simpa [included] using removed_mem_tail found
      have nodup := l.nodup_declared isScope.reached
      rw [ranges] at nodup
      exact (List.nodup_cons.mp nodup).1 (sub later)
    rwa [IdentityPair.heir, Equiv.swap_apply_of_ne_of_ne notKept notRemoved]

theorem mergeSelfJoins (led : g.Led kind root) (l : g.Linked root) (isScope : g.ScopeIn root scope) :
    (g.mergeSelfJoins scope).1.Led kind root :=
  l.mergeSelfJoins_induction isScope (motive := fun h => h.Led kind root)
    (fun l' unbound found led =>
      led.mergePair l' ((Keeps.of_unbound unbound).scopeIn l isScope) found) led

end Led

/-! ## Passes -/

/-- The pass that places anchors leaves a scope that starts with one. -/
theorem StartsWithAnchor.normalizeAnchor (starts : g.StartsWithAnchor scope) (l : g.Linked root)
    (isScope : g.ScopeIn root scope) (metadata : Metadata) :
    (g.normalizeAnchor metadata scope).1 = g := by
  have anchored : g.Anchored scope := fun some => by
    obtain ⟨first, rest, ranges⟩ := List.exists_cons_of_ne_nil some
    rw [← ranges_scope isScope.isRetrieve] at ranges
    exact List.ne_nil_of_mem (starts first (by rw [ranges]; rfl))
  rw [anchored.normalizeAnchor, Graph.putAnchorFirst, anchor?_includedRanges]
  cases ranges : (g.node scope).declared with
  | nil => simp [anchors_eq isScope.isRetrieve, ranges]
  | cons first rest =>
    have nodup := l.nodup_declared isScope.reached
    rw [ranges] at nodup
    have isAnchor := (startsWithAnchor_iff isScope.isRetrieve).mp starts first (by simp [ranges])
    have behind : rest.filter (fun id => id ≠ first) = rest := by
      refine List.filter_eq_self.mpr fun id mem => ?_
      simpa using fun same : id = first => (List.nodup_cons.mp nodup).1 (same ▸ mem)
    have ordered : anchorFirst (g.scope scope).ranges first = (g.scope scope).ranges := by
      rw [ranges_scope isScope.isRetrieve, ranges, anchorFirst, List.filter_cons_of_neg (by simp),
        behind]
    have front : (g.anchors scope).head? = some first := by
      simp [anchors_eq isScope.isRetrieve, ranges, isAnchor]
    rw [front]
    exact congrArg Prod.fst (if_pos ordered)

/-- Looking for an anchor leaves the anchors there are. -/
theorem startsJoin_withAnchor {id : NodeId} (starts : (g.node id).startsJoin = true)
    (ranges : List NodeId) (condition : Option NodeId) (usage : RangeUsage) :
    ((g.withAnchor ranges condition usage).1.node id).startsJoin = true := by
  by_cases among : id ∈ ranges
  · have anchor : g.isAnchor id = true := by
      cases node : g.node id <;> simp_all [isAnchor, range?, Node.startsJoin]
    have some : ranges.any g.isAnchor = true := List.any_eq_true.mpr ⟨id, among, anchor⟩
    rwa [withAnchor, if_pos some]
  · rwa [node_withAnchor_of_not_mem (has_of_startsJoin starts) among]

theorem startsJoin_normalizeAnchor {id : NodeId} (starts : (g.node id).startsJoin = true)
    (metadata : Metadata) (scope : NodeId) :
    ((g.normalizeAnchor metadata scope).1.node id).startsJoin = true := by
  have added : ((g.addAnchor metadata scope).1.node id).startsJoin = true := by
    unfold Graph.addAnchor
    dsimp only
    split
    · exact starts
    · split
      · exact startsJoin_withAnchor starts _ _ _
      · exact (Node.seated_startsJoin.setCondition _ _ _).startsJoin
          (startsJoin_withAnchor starts _ _ _)
  unfold Graph.normalizeAnchor
  split
  · exact starts
  · exact (Node.seated_startsJoin.putAnchorFirst _ scope).startsJoin added

/-- Placing the anchor of a query leaves what subqueries declare first. -/
theorem lead_normalizeAnchor (g : Graph) (metadata : Metadata) (scope : NodeId) :
    Same ScopeKind.subquery.lead g (g.normalizeAnchor metadata scope).1 := by
  have put : ∀ g : Graph, Same ScopeKind.subquery.lead g (g.putAnchorFirst scope).1 := by
    intro g
    refine ⟨(Node.seated_startsJoin.putAnchorFirst g scope).size, fun {id} has => ?_⟩
    unfold Graph.putAnchorFirst
    split
    · rfl
    · next anchor found =>
      have declares := (List.mem_filter.mp (List.mem_of_find?_eq_some found)).1
      have isRetrieve := isRetrieve_of_mem_ranges declares
      dsimp only
      split
      · rfl
      · cases node : g.node scope with
        | retrieve r =>
          rw [node_setRanges (by rw [node]; rfl) has]
          split
          · next here =>
            rw [here, node]
            rfl
          · rfl
        | _ => simp [node, Node.isRetrieve] at isRetrieve
  unfold Graph.normalizeAnchor
  split
  · exact .refl _ g
  · exact (ScopeKind.unbound_lead.toRigid.addAnchor g metadata scope).trans (put _)

/-- Every pass leaves all scopes starting with anchors. -/
theorem Led.apply {bodies scopes : List NodeId} (led : g.Led kind root)
    (o : InOrder root bodies scopes g) (pass : Pass) (context : PassContext) (mem : scope ∈ scopes) :
    (pass.apply context g scope).1.Led kind root := by
  have l := o.linked root (by simp)
  have isScope := o.scopes scope mem
  have leads : Unbound kind.lead := ScopeKind.unbound_lead
  have joins := Node.seated_startsJoin
  cases pass with
  | existenceMarkers =>
    exact led.rearranged (leads.toSteady.extractMarkers g scope)
      (joins.toSteady.extractMarkers g scope).startsJoin
      (l.zone.extractMarkers l isScope.reached isScope.reached)
  | anyTests => exact led.resolveAnys context.metadata l isScope
  | aggregates => exact led.freeAggregates context.metadata context.strategy l isScope
  | selfJoins => exact led.mergeSelfJoins l isScope
  | requiredness =>
    have r := Relabels.decideRequired g context.metadata context.pinned scope
    exact led.rearranged (leads.toSteady.decideRequired g context.metadata context.pinned scope)
      (joins.toSteady.decideRequired g context.metadata context.pinned scope).startsJoin
      (l.zone.enlarges (r.zone l.zone)).rearranges
  | anchors =>
    -- The queries start with anchors already; the anchor that one gets else is its own.
    cases kind with
    | query =>
      have starts := startsWithAnchor_iff_begins.mpr (led scope isScope.reached)
      simp only [Pass.apply, starts.normalizeAnchor l isScope]
      exact led
    | subquery =>
      exact led.rearranged (lead_normalizeAnchor g context.metadata scope)
        (startsJoin_normalizeAnchor · context.metadata scope)
        (l.zone.normalizeAnchor context.metadata isScope.reached).rearranges
  | deadJoins =>
    exact led.rearranged (leads.dropDeadJoins g scope) (Same.startsJoin_dropDeadJoins g scope).startsJoin
      (l.zone.enlarges ((Relabels.dropDeadJoins g scope).zone l.zone)).rearranges

/-! ## Expansion -/

/-- Joining a range by the columns of its relation leaves all scopes starting with anchors. -/
theorem Led.joinByColumns (led : g.Led kind root) (l : g.Linked root) {range : NodeId}
    {i : Identifier} (above : g.Below root range) (joined : g.joinRelation? range = some i)
    (relation : Relation) : (g.joinByColumns range i.range relation).Led kind root := by
  have leads : Same kind.lead _ _ :=
    same_joinByColumns ScopeKind.unbound_lead.toUnjoined g range i.range relation
  have r := l.zone.reshapedByColumns above i.range relation
  intro id below
  have mem := r.inOrder.mem_of_below (r.inOrder.root rfl).1 below
  by_cases had : g.Has id
  · exact (led id (r.old mem had).1).after had leads <|
      .joinByColumns_of_joined Node.seated_startsJoin.toPlaced joined relation
  · refine begins_of_not_opensScope ?_
    have label := label_joinByColumns had (r.inOrder.has mem)
    cases node : (g.joinByColumns range i.range relation).node id <;>
      simp_all [Node.label, Node.opensScope, Node.ranges?]

theorem Led.expandJoins (led : g.Led kind root) (l : g.Linked root) (metadata : Metadata)
    {ranges : List NodeId} (declared : ∀ range ∈ ranges, range ∈ (g.node root).declared)
    (expanded : Bool) : (Graph.expandJoins metadata g ranges expanded).1.Led kind root := by
  induction ranges generalizing g expanded with
  | nil => exact led
  | cons range rest ih =>
    unfold Graph.expandJoins
    split
    · exact ih led l (fun other later => declared other (by simp [later])) expanded
    · next relation joined =>
      split
      · exact led
      · next found _ =>
        have above : g.Below root range :=
          below_of_child (declared_subset_children _ (declared range (by simp)))
        have kept := (same_joinByColumns Node.unbound_declared.toUnjoined g range relation.range
          found).node l.has
        refine ih (led.joinByColumns l above joined found)
          ((l.zone.joinByColumns above relation.range found).linked (Set.mem_singleton root))
          (fun other later => ?_) true
        rw [kept]
        exact declared other (by simp [later])

/-- Filling a placeholder with a copy of a template leaves all scopes starting with anchors. -/
theorem led_fill {roots : Set NodeId} (linked : ∀ top ∈ roots, g.Linked top)
    (led : ∀ top ∈ roots, g.Led kind top) {id body : NodeId}
    (found : (g.placeholder? id).isSome = true) (mem : body ∈ roots) :
    ∀ top ∈ roots, ((g.copy body).1.replace id (g.copy body).2).1.Led kind top := by
  have forest := g.forest_copyWith body .empty
  have has := has_of_placeholder? found
  have z := (Zone.of_linked linked).replaceByTree forest has (opensScope_of_placeholder? found)
  have none : ((g.copyWith body .empty).1.node id).startsJoin = false := by
    obtain ⟨name, found⟩ := Option.isSome_iff_exists.mp found
    rw [forest.beside.node has, node_of_placeholder? found]
    rfl
  intro top root other below
  rcases z.mem_of_below (z.root root).1 below with ⟨top', root', old⟩ | new
  · have had := (linked top' root').has_of_below old
    exact ((led top' root' other old).after had forest.beside.same forest.beside.same).replace
      (forest.beside.has had) none _
  · have tree := forest.linked _ (List.mem_singleton_self _)
    exact ((led body mem).copyWith (linked body mem) (Below.refl g body) .empty other new).replace
      (tree.has_of_below new) none _

end Graph

open RangeQuery.Graph

/-- Every scope of a kind within the query and its templates starts with an anchor. -/
def Query.Led (q : Query) (kind : ScopeKind) : Prop :=
  ∀ top ∈ q.root :: (q.graph.node q.root).templateBodies, q.graph.Led kind top

/-- Every query within the query and its templates starts with an anchor, if it declares ranges. -/
def Query.Headed (q : Query) : Prop :=
  ∀ top ∈ q.root :: (q.graph.node q.root).templateBodies, q.graph.Headed top

namespace Query

variable {q : Query} {kind : ScopeKind}

theorem headed_iff_led : q.Headed ↔ q.Led .query :=
  forall₂_congr fun _ _ => Graph.headed_iff_led

theorem Led.expandTemplates (w : q.WellLinked) (led : q.Led kind) :
    q.expandTemplates.1.graph.Led kind q.root := by
  have kept := @expandRounds_induction q.graph
    (fun g => (∀ top ∈ {top | top ∈ q.root :: (q.graph.node q.root).templateBodies},
      g.Linked top ∧ g.Led kind top) ∧
        (g.node q.root).templateBodies = (q.graph.node q.root).templateBodies) q.root
    (fun kept found mem => ?_) maxTemplateRounds false
    ⟨fun top mem => ⟨w.inOrder.linked top mem, led top mem⟩, rfl⟩
  · exact (kept.1 q.root (by simp)).2
  · next g id body =>
    obtain ⟨all, bodies⟩ := kept
    have linked : ∀ top ∈ {top | top ∈ q.root :: (q.graph.node q.root).templateBodies},
        g.Linked top := fun top mem => (all top mem).1
    refine ⟨fun top root => ⟨linked_fill linked found body top root, ?_⟩, ?_⟩
    · exact led_fill linked (fun top mem => (all top mem).2) found (by
        rw [bodies] at mem
        simp [mem]) top root
    · rw [(same_fill Node.formal_templateBodies.toPlaced g id body).node (linked _ (by simp)).has,
        bodies]

theorem led_expandRelations (l : q.graph.Linked q.root) (led : q.graph.Led kind q.root)
    (metadata : Metadata) : (q.expandRelations metadata).1.graph.Led kind q.root := by
  refine led.expandJoins l metadata (fun range mem => ?_) false
  cases node : q.graph.node q.root <;>
    simp_all [Query.clauses, Graph.scope, Node.declared, Node.ranges?, Retrieve.empty]

/-- A run of passes leaves all scopes starting with anchors. -/
theorem led_runPasses {bodies : List NodeId} (o : InOrder q.root bodies q.scopes q.graph)
    (led : q.graph.Led kind q.root) (passes : List Pass) (settings : Settings)
    (context : PassContext) : (q.runPasses passes settings context).1.graph.Led kind q.root :=
  (Run.foldl_step_induction
    (motive := fun g => InOrder q.root bodies q.scopes g ∧ g.Led kind q.root)
    (fun pass _ context _ _ mem both => ⟨both.1.apply pass context mem,
      both.2.apply both.1 pass context mem⟩) ⟨o, led⟩).2

end Query

namespace Compiler

variable (c : Compiler) {q : Query} {kind : ScopeKind}

theorem led_checkAndOptimize {bodies : List NodeId} (o : InOrder q.root bodies [] q.graph)
    (led : q.graph.Led kind q.root) :
    (c.checkAndOptimize q).1.graph.Led kind (c.checkAndOptimize q).1.root := by
  unfold checkAndOptimize
  split
  · rw [fst_optimize]
    exact Query.led_runPasses (Query.inOrder_scopes o) led _ _ _
  · exact led

/-- A compilation of a query in which every scope of a kind starts with an anchor, down through the
queries behind ranges, leaves, copies and makes only such scopes of that kind. -/
theorem led_compile (w : q.WellLinked) (led : q.Led kind) :
    (c.compile q).1.graph.Led kind (c.compile q).1.root := by
  have expanded := Query.inOrder_expandTemplates w.inOrder
  have kept := led.expandTemplates w
  rw [← q.root_expandTemplates] at expanded kept
  unfold compile
  split
  · next q₁ fault first =>
    rw [first] at kept
    exact kept
  · next q₁ _ first =>
    rw [first] at expanded kept
    dsimp only at expanded kept
    have related := Query.inOrder_expandRelations expanded c.metadata
    have kept' := Query.led_expandRelations (expanded.linked q₁.root (by simp)) kept c.metadata
    rw [← q₁.root_expandRelations c.metadata] at related kept'
    split
    · next q₂ fault second =>
      rw [second] at kept'
      exact kept'
    · next q₂ _ second =>
      rw [second] at related kept'
      exact c.led_checkAndOptimize related kept'

/-- A compilation of a query in which every query starts with an anchor, down through the queries
behind ranges, leaves and copies only such queries, whether it ends with a report or with an error.
-/
theorem headed_compile (w : q.WellLinked) (headed : q.Headed) :
    (c.compile q).1.graph.Headed (c.compile q).1.root :=
  headed_iff_led.mpr (c.led_compile w (Query.headed_iff_led.mp headed))

/-- A compilation leaves and makes only subqueries that declare an anchor first, if those that the
query was written with do. It need not be the only one they declare: a copied range loses a join
predicate that leads out of the copies. -/
theorem subquery_startsWithAnchor (w : q.WellLinked) (led : q.Led .subquery) {id : NodeId}
    {s : Subquery} (below : (c.compile q).1.graph.Below (c.compile q).1.root id)
    (node : (c.compile q).1.graph.node id = .subquery s) :
    ∃ first rest, s.ranges = first :: rest ∧
      ((c.compile q).1.graph.node first).startsJoin = true := by
  obtain ⟨declares, starts⟩ := c.led_compile w led id below s.ranges.head? (by rw [node]; rfl)
  cases ranges : s.ranges with
  | nil => simp [ranges] at declares
  | cons first rest => exact ⟨first, rest, rfl, starts first (by simp [ranges])⟩

end Compiler

/-- All scopes of a kind below a node start with anchors if those of a list with it do that is
closed under children. -/
theorem Graph.Led.of_closed {g : Graph} {kind : ScopeKind} {top : NodeId} (ids : List NodeId)
    (mem : top ∈ ids) (closed : ∀ owner ∈ ids, ∀ child ∈ g.children owner, child ∈ ids)
    (begins : ∀ id ∈ ids, g.Begins kind id) : g.Led kind top :=
  fun id below => begins id (below.mem_of_closed mem closed)

/-- Totals from a temporary range, of which there is one: an ANY copies the query behind the range.
-/
def totalsIfAny : Query where
  graph := ⟨#[
    ⟨.range { name := "o", entity := some "Order", join := none, required := false
              included := true, nested := none }, some ⟨3⟩⟩,
    ⟨.identifier { range := ⟨0⟩, path := ["total"] }, some ⟨2⟩⟩,
    ⟨.projection { name := "value0", expression := ⟨1⟩, visible := true }, some ⟨3⟩⟩,
    ⟨.retrieve { Retrieve.empty with ranges := [⟨0⟩], values := [⟨2⟩] }, some ⟨4⟩⟩,
    ⟨.range { name := "t", entity := none, join := none, required := false
              included := true, nested := some ⟨3⟩ }, some ⟨9⟩⟩,
    ⟨.identifier { range := ⟨4⟩, path := ["value0"] }, some ⟨6⟩⟩,
    ⟨.projection { name := "value0", expression := ⟨5⟩, visible := true }, some ⟨9⟩⟩,
    ⟨.identifier { range := ⟨4⟩, path := ["value0"] }, some ⟨8⟩⟩,
    ⟨.aggregate { function := .any, operand := ⟨7⟩, condition := none }, some ⟨9⟩⟩,
    ⟨.retrieve { Retrieve.empty with
      ranges := [⟨4⟩], values := [⟨6⟩], condition := some ⟨8⟩ }, none⟩]⟩
  root := ⟨9⟩

/-- The nodes of the query. -/
def totalsIfAny.ids : List NodeId := [⟨9⟩, ⟨0⟩, ⟨1⟩, ⟨2⟩, ⟨3⟩, ⟨4⟩, ⟨5⟩, ⟨6⟩, ⟨7⟩, ⟨8⟩]

theorem wellLinked_totalsIfAny : totalsIfAny.WellLinked := by
  have order : InOrder totalsIfAny.root [] [] totalsIfAny.graph := by
    refine ⟨fun top mem => ?_, by decide, by simp⟩
    obtain rfl := List.mem_singleton.mp mem
    exact .of_closed totalsIfAny.ids (by decide) (by decide) (by decide) (by decide) (by decide)
  exact Query.wellLinked_of_inOrder order (by decide)

theorem headed_totalsIfAny : totalsIfAny.Headed := by
  intro top mem
  obtain rfl : top = totalsIfAny.root := List.mem_singleton.mp mem
  exact Graph.headed_iff_led.mpr (.of_closed totalsIfAny.ids (by decide) (by decide) (by decide))

theorem headed_compile_totalsIfAny :
    (totalsIfAny.WellLinked ∧ totalsIfAny.Headed) ∧
      (plainCompiler.compile totalsIfAny).1.graph.Headed
        (plainCompiler.compile totalsIfAny).1.root :=
  ⟨⟨wellLinked_totalsIfAny, headed_totalsIfAny⟩,
    plainCompiler.headed_compile wellLinked_totalsIfAny headed_totalsIfAny⟩

/-- Customers with an order and a payment: an ANY over two ranges, each joined to the customer. -/
def customersWithOrderAndPayment : Query where
  graph := ⟨#[
    ⟨.range { name := "c", entity := some "Customer", join := none, required := false
              included := true, nested := none }, some ⟨15⟩⟩,
    ⟨.range { name := "o", entity := some "Order", join := some ⟨4⟩, required := false
              included := true, nested := none }, some ⟨15⟩⟩,
    ⟨.identifier { range := ⟨1⟩, path := ["customerId"] }, some ⟨4⟩⟩,
    ⟨.identifier { range := ⟨0⟩, path := ["id"] }, some ⟨4⟩⟩,
    ⟨.binary .eq ⟨2⟩ ⟨3⟩, some ⟨1⟩⟩,
    ⟨.range { name := "p", entity := some "Payment", join := some ⟨8⟩, required := false
              included := true, nested := none }, some ⟨15⟩⟩,
    ⟨.identifier { range := ⟨5⟩, path := ["customerId"] }, some ⟨8⟩⟩,
    ⟨.identifier { range := ⟨0⟩, path := ["id"] }, some ⟨8⟩⟩,
    ⟨.binary .eq ⟨6⟩ ⟨7⟩, some ⟨5⟩⟩,
    ⟨.identifier { range := ⟨0⟩, path := ["id"] }, some ⟨10⟩⟩,
    ⟨.projection { name := "value0", expression := ⟨9⟩, visible := true }, some ⟨15⟩⟩,
    ⟨.identifier { range := ⟨1⟩, path := ["id"] }, some ⟨13⟩⟩,
    ⟨.identifier { range := ⟨5⟩, path := ["id"] }, some ⟨13⟩⟩,
    ⟨.binary .add ⟨11⟩ ⟨12⟩, some ⟨14⟩⟩,
    ⟨.aggregate { function := .any, operand := ⟨13⟩, condition := none }, some ⟨15⟩⟩,
    ⟨.retrieve { Retrieve.empty with
      ranges := [⟨0⟩, ⟨1⟩, ⟨5⟩], values := [⟨10⟩], condition := some ⟨14⟩ }, none⟩]⟩
  root := ⟨15⟩

/-- The nodes of the query. -/
def customersWithOrderAndPayment.ids : List NodeId :=
  [⟨15⟩, ⟨0⟩, ⟨1⟩, ⟨2⟩, ⟨3⟩, ⟨4⟩, ⟨5⟩, ⟨6⟩, ⟨7⟩, ⟨8⟩, ⟨9⟩, ⟨10⟩, ⟨11⟩, ⟨12⟩, ⟨13⟩, ⟨14⟩]

theorem wellLinked_customersWithOrderAndPayment : customersWithOrderAndPayment.WellLinked := by
  have order : InOrder customersWithOrderAndPayment.root [] [] customersWithOrderAndPayment.graph := by
    refine ⟨fun top mem => ?_, by decide, by simp⟩
    obtain rfl := List.mem_singleton.mp mem
    exact .of_closed customersWithOrderAndPayment.ids (by decide) (by decide) (by decide) (by decide)
      (by decide)
  exact Query.wellLinked_of_inOrder order (by decide)

theorem led_customersWithOrderAndPayment : customersWithOrderAndPayment.Led .subquery := by
  intro top mem
  obtain rfl : top = customersWithOrderAndPayment.root := List.mem_singleton.mp mem
  exact .of_closed customersWithOrderAndPayment.ids (by decide) (by decide) (by decide)

/-- The ANY becomes a subquery over an order and a payment that were both joined to the customer. -/
theorem node_compile_customersWithOrderAndPayment :
    (plainCompiler.compile customersWithOrderAndPayment).1.graph.node ⟨25⟩ =
      .subquery { kind := .existence, ranges := [⟨19⟩, ⟨23⟩], expression := none
                  condition := some ⟨24⟩ } := by decide +kernel

theorem subquery_startsWithAnchor_customersWithOrderAndPayment :
    (customersWithOrderAndPayment.WellLinked ∧ customersWithOrderAndPayment.Led .subquery) ∧
      ∃ first rest, [⟨19⟩, ⟨23⟩] = first :: rest ∧
        ((plainCompiler.compile customersWithOrderAndPayment).1.graph.node first).startsJoin = true :=
  have below : (plainCompiler.compile customersWithOrderAndPayment).1.graph.Below
      (plainCompiler.compile customersWithOrderAndPayment).1.root ⟨25⟩ :=
    below_of_child (by decide +kernel)
  ⟨⟨wellLinked_customersWithOrderAndPayment, led_customersWithOrderAndPayment⟩,
    plainCompiler.subquery_startsWithAnchor wellLinked_customersWithOrderAndPayment
      led_customersWithOrderAndPayment below node_compile_customersWithOrderAndPayment⟩

/-- The payment has lost its join predicate to the filter as well. -/
example : ((plainCompiler.compile customersWithOrderAndPayment).1.graph.node ⟨23⟩).startsJoin = true := by
  decide +kernel

end RangeQuery
