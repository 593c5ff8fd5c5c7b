import RangeQuery.Proofs.Scope.Correlated

/-!
Subqueries in the place of aggregates. The parts of a correlated scope hang below a new subquery,
which takes the slot of the aggregate; what they own lies within the subquery and the scopes around
the aggregate.
-/

namespace RangeQuery

/-- A range, or what reads one. -/
def Node.isBinding : Node → Bool
  | .range _ | .identifier _ => true
  | _ => false

theorem Node.isBinding_stamp (node : Node) : node.stamp.isBinding = node.isBinding := by
  cases node <;> rfl

theorem Node.isBinding_of_isRange {node : Node} (h : node.isRange = true) :
    node.isBinding = true := by
  cases node <;> simp_all [isRange, isBinding]

namespace Graph

variable {g h k : Graph} {roots zone zone' : Set NodeId} {level level' : NodeId → List NodeId}

/-- A new node takes the place of an old one. -/
theorem Zone.replaceByNew (z : g.Zone roots ∅ zone level) (node : Node)
    (ready : ∀ child ∈ node.children, g.Ready roots ∅ zone level (level g.next) child)
    (nodup : node.children.Nodup) {old : NodeId} (has : g.Has old)
    (closed : (g.node old).opensScope = false)
    (on : level g.next = if node.opensScope then g.next :: level old else level old) :
    ((g.add node).1.replace old g.next).1.Zone roots ∅ (insert g.next zone) level := by
  have added := z.add node ready nodup
  refine added.replace (ne_next_of_has has) (.inl rfl)
    (z.free_next node fun child slot => (ready child slot).mem) z.next_not_mem_roots
    fun owner mem slot => ?_
  have around := (added.link mem slot (Set.notMem_empty _)).level
  rw [enter_of_false (by rw [node_add has, closed])] at around
  rw [on, enter, node_add_next, around]

/-- The levels around a subquery that takes the place of a node. -/
noncomputable def levelAround (g h : Graph) (level level' : NodeId → List NodeId) (old : NodeId) :
    NodeId → List NodeId :=
  g.levelBeside level
    (h.levelWith (fun id => level' id ++ h.next :: level old) (h.next :: level old))

theorem levelAround_of_has {old id : NodeId} (has : g.Has id) :
    g.levelAround h level level' old id = level id := levelBeside_of_has has

theorem levelAround_of_new {old id : NodeId} (new : ¬ g.Has id) (has : h.Has id) :
    g.levelAround h level level' old id = level' id ++ h.next :: level old :=
  (levelBeside_of_not_has new).trans (levelWith_of_has has _)

theorem levelAround_next {old : NodeId} (size : g.size ≤ h.size) :
    g.levelAround h level level' old h.next = h.next :: level old :=
  (levelBeside_of_not_has (not_has_next_of_le size)).trans
    (levelWith_of_not_has h.not_has_next _)

/-- A subquery over new parts takes the place of a node. -/
theorem Zone.replaceBySubquery (z : g.Zone roots ∅ zone level) (e : Extends g h)
    (z' : h.Zone ∅ ∅ zone' level') (fresh : ∀ id ∈ zone', ¬ g.Has id) {old : NodeId}
    (has : g.Has old) (closed : (g.node old).opensScope = false) {kind : SubqueryKind}
    {expression : Option NodeId} {sub : CorrelatedScope}
    (ready : ∀ id ∈ sub.ranges ++ expression.toList ++ sub.condition.toList,
      h.Ready ∅ ∅ zone' level' [] id)
    (nodup : (sub.ranges ++ expression.toList ++ sub.condition.toList).Nodup) :
    (h.replaceBySubquery old kind expression sub).Zone roots ∅ (insert h.next (zone ∪ zone'))
      (g.levelAround h level level' old) := by
  have on : g.levelAround h level level' old h.next = h.next :: level old :=
    levelAround_next e.size
  have same : ∀ id ∈ zone', h.levelWith (fun id => level' id ++ h.next :: level old)
      (h.next :: level old) id = level' id ++ h.next :: level old := fun id mem =>
    levelWith_of_has (z'.has mem) _
  have lifted := (z'.within (h.next :: level old)).relevel same
  have both : h.Zone roots ∅ (zone ∪ zone') (g.levelAround h level level' old) :=
    z.beside e lifted fresh
  have ready' : ∀ child ∈ sub.ranges ++ expression.toList ++ sub.condition.toList,
      h.Ready roots ∅ (zone ∪ zone') (g.levelAround h level level' old)
        (g.levelAround h level level' old h.next) child := by
    intro child slot
    have part := ready child slot
    have lower : h.Ready ∅ ∅ zone'
        (h.levelWith (fun id => level' id ++ h.next :: level old) (h.next :: level old))
        (h.next :: level old) child :=
      ⟨part.mem, part.free, part.nonroot, by
        rw [levelWith_of_has (z'.has part.mem), part.level, ← enter_append]; rfl⟩
    rw [on]
    exact lower.besideNew z e fresh
  exact both.replaceByNew (.subquery
    { kind, ranges := sub.ranges, expression, condition := sub.condition }) ready' nodup
    (e.has has) (by rw [e.node has, closed])
    (on.trans (congrArg _ (levelAround_of_has has).symm))

/-- The new ranges of a zone, and what reads a range, lie in new subqueries. -/
def Sheltered (g h : Graph) (zone : Set NodeId) (level : NodeId → List NodeId) : Prop :=
  ∀ {id}, id ∈ zone → ¬ g.Has id → (h.node id).isBinding = true →
    ∃ sub ∈ level id, ¬ g.Has sub ∧ (h.node sub).isSubquery = true

theorem Glued.sheltered (glued : Glued g h zone) : Sheltered g h zone level := by
  intro id mem new binding
  have glue := glued mem new
  cases node : h.node id <;> simp_all [Node.isGlue, Node.isBinding]

theorem hidden_of_sheltered (sheltered : Sheltered g h zone level) {id : NodeId} (mem : id ∈ zone)
    (new : ¬ g.Has id) (isRange : (h.node id).isRange = true) :
    ∃ sub ∈ level id, (h.node sub).isSubquery = true := by
  obtain ⟨sub, around, -, subquery⟩ := sheltered mem new (Node.isBinding_of_isRange isRange)
  exact ⟨sub, around, subquery⟩

theorem Glued.hidden (glued : Glued g h zone) {id : NodeId} (mem : id ∈ zone) (new : ¬ g.Has id)
    (isRange : (h.node id).isRange = true) : ∃ sub ∈ level id, (h.node sub).isSubquery = true :=
  hidden_of_sheltered glued.sheltered mem new isRange

/-- What adds no such node to a zone shelters those it adds. -/
theorem sheltered_of_not_isBinding (none : ∀ {id}, id ∈ zone → ¬ g.Has id →
    (h.node id).isBinding = false) : Sheltered g h zone level := by
  intro id mem new binding
  rw [none mem new] at binding
  cases binding

/-- A change of a zone that takes nothing out of it and adds ranges and identifiers in new subqueries
only. -/
def Widens (g h : Graph) (roots zone : Set NodeId) (level : NodeId → List NodeId) : Prop :=
  ∃ zone' level', Reshaped g h roots zone level zone' level' ∧ Sheltered g h zone' level' ∧
    zone ⊆ zone'

theorem Enlarges.widens (e : Enlarges g h roots zone level) : Widens g h roots zone level := by
  obtain ⟨zone', level', reshaped, glued, larger⟩ := e
  exact ⟨zone', level', reshaped, glued.sheltered, larger⟩

theorem Extends.widens (e : Extends g h) (z : g.Zone roots ∅ zone level) :
    Widens g h roots zone level :=
  ⟨zone, level, ⟨e.zone z, fun mem _ => ⟨mem, rfl⟩⟩, fun mem new _ => absurd (z.has mem) new,
    subset_rfl⟩

theorem Same.isSubquery (same : Same Node.stamp g h) {id : NodeId}
    (subquery : (g.node id).isSubquery = true) : (h.node id).isSubquery = true := by
  obtain ⟨s, node⟩ := Node.exists_of_isSubquery subquery
  have has : g.Has id := has_of_node node (by simp)
  rw [← Node.isSubquery_stamp, same.node has, Node.isSubquery_stamp, subquery]

theorem Same.isBinding (same : Same Node.stamp g h) {id : NodeId} (has : g.Has id) :
    (h.node id).isBinding = (g.node id).isBinding := by
  rw [← Node.isBinding_stamp, same.node has, Node.isBinding_stamp]

theorem Widens.trans (a : Widens g h roots zone level) (size : g.size ≤ h.size)
    (same : Same Node.stamp h k)
    (b : ∀ {zone' level'}, h.Zone roots ∅ zone' level' → zone ⊆ zone' →
      Widens h k roots zone' level') : Widens g k roots zone level := by
  obtain ⟨zone', level', reshaped, sheltered, larger⟩ := a
  obtain ⟨zone'', level'', reshaped', sheltered', larger'⟩ := b reshaped.inOrder larger
  refine ⟨zone'', level'', reshaped.trans reshaped' size, fun {id} mem new binding => ?_,
    larger.trans larger'⟩
  by_cases has : h.Has id
  · obtain ⟨was, on⟩ := reshaped'.old mem has
    obtain ⟨sub, around, fresh, subquery⟩ :=
      sheltered was new ((same.isBinding has).symm.trans binding)
    exact ⟨sub, on ▸ around, fresh, same.isSubquery subquery⟩
  · obtain ⟨sub, around, fresh, subquery⟩ := sheltered' mem has binding
    exact ⟨sub, around, fun had => fresh (Nat.lt_of_lt_of_le had size), subquery⟩

/-- The zone around an aggregate, reshaped where a subquery takes its place. -/
theorem Zone.reshapedBySubquery (z : g.Zone roots ∅ zone level) (e : Extends g h)
    (z' : h.Zone ∅ ∅ zone' level') (fresh : ∀ id ∈ zone', ¬ g.Has id) {old : NodeId}
    {a : Aggregate} (node : g.node old = .aggregate a) (kind : SubqueryKind)
    {expression : Option NodeId} {sub : CorrelatedScope}
    (ready : ∀ id ∈ sub.ranges ++ expression.toList ++ sub.condition.toList,
      h.Ready ∅ ∅ zone' level' [] id)
    (nodup : (sub.ranges ++ expression.toList ++ sub.condition.toList).Nodup) :
    Reshaped g (h.replaceBySubquery old kind expression sub) roots zone level
      (insert h.next (zone ∪ zone')) (g.levelAround h level level' old) := by
  have has := has_of_aggregate node
  refine ⟨z.replaceBySubquery e z' fresh has (by rw [node]; rfl) ready nodup, ?_⟩
  rintro id (rfl | mem | mem) had
  · exact absurd (e.has had) h.not_has_next
  · exact ⟨mem, levelAround_of_has had⟩
  · exact absurd had (fresh id mem)

/-- A subquery over new nodes that takes the place of a node outside a query leaves the query. -/
theorem Linked.reshapedOutside {root : NodeId} (l : g.Linked root) {old : NodeId}
    (outside : ¬ g.Below root old) (has : g.Has old) (e : Extends g h) (kind : SubqueryKind)
    {expression : Option NodeId} {sub : CorrelatedScope}
    (fresh : ∀ id ∈ sub.ranges ++ expression.toList ++ sub.condition.toList, ¬ g.Has id) :
    Reshaped g (h.replaceBySubquery old kind expression sub) {root} {id | g.Below root id}
      (g.levelFrom {root}) {id | g.Below root id} (g.levelFrom {root}) := by
  have beside := e.add (.subquery { kind, ranges := sub.ranges, expression,
                                    condition := sub.condition }) fresh
  have new : ¬ g.Has h.next := fun had => h.not_has_next (e.has had)
  exact ⟨(beside.zone l.zone).replaceOutside (fun same : old = h.next => new (same ▸ has)) outside
    fun below => new (l.has_of_below below), fun mem _ => ⟨mem, rfl⟩⟩

/-- The new node in the place of an old one is a subquery. -/
theorem isSubquery_next (h : Graph) (old : NodeId) (kind : SubqueryKind)
    (expression : Option NodeId) (sub : CorrelatedScope) :
    ((h.replaceBySubquery old kind expression sub).node h.next).isSubquery = true := by
  let subquery : Node := .subquery { kind, ranges := sub.ranges, expression, condition := sub.condition }
  refine (Node.formal_stamp.toSeated.replace (h.add subquery).1 old h.next).isSubquery ?_
  rw [node_add_next]
  rfl

/-- A zone around an aggregate widens where a subquery takes its place. -/
theorem Zone.widensBySubquery (z : g.Zone roots ∅ zone level) (e : Extends g h)
    (z' : h.Zone ∅ ∅ zone' level') (fresh : ∀ id ∈ zone', ¬ g.Has id) {old : NodeId}
    {a : Aggregate} (node : g.node old = .aggregate a) {kind : SubqueryKind}
    {expression : Option NodeId} {sub : CorrelatedScope}
    (ready : ∀ id ∈ sub.ranges ++ expression.toList ++ sub.condition.toList,
      h.Ready ∅ ∅ zone' level' [] id)
    (nodup : (sub.ranges ++ expression.toList ++ sub.condition.toList).Nodup) :
    Widens g (h.replaceBySubquery old kind expression sub) roots zone level := by
  have subquery := h.isSubquery_next old kind expression sub
  refine ⟨_, _, z.reshapedBySubquery e z' fresh node kind ready nodup, ?_,
    Set.subset_union_left.trans (Set.subset_insert _ _)⟩
  rintro id (rfl | mem | mem) new binding
  · cases kind' : (h.replaceBySubquery old kind expression sub).node h.next <;>
      simp_all [Node.isSubquery, Node.isBinding]
  · exact absurd (z.has mem) new
  · refine ⟨h.next, ?_, fun had => h.not_has_next (e.has had), subquery⟩
    rw [levelAround_of_new new (z'.has mem)]
    simp

theorem Zone.reshapedInline (z : g.Zone roots ∅ zone level) (scope : NodeId) {any : NodeId}
    {a : Aggregate} (node : g.node any = .aggregate a) :
    Reshaped g (g.inlineAny scope any) roots zone level (insert g.next zone)
      (g.levelWith level (level any)) := by
  have has := has_of_aggregate node
  have swapped := (z.levelWith (level any)).replaceByNew (.number "1")
    (by simp [Node.children]) (by simp [Node.children]) has (by rw [node]; rfl) (by
      rw [levelWith_of_not_has g.not_has_next, levelWith_of_has has]
      rfl)
  have windowed : (g.inlineAny scope any).Zone roots ∅ (insert g.next zone)
      (g.levelWith level (level any)) := by
    unfold Graph.inlineAny
    dsimp only
    split
    · exact (Relabels.setWindow ..).zone swapped
    · exact swapped
  refine ⟨windowed, ?_⟩
  rintro id (rfl | mem) had
  · exact absurd had g.not_has_next
  · exact ⟨mem, levelWith_of_has had _⟩

/-- The node in the place of an inlined ANY. -/
theorem label_inlineAny_next (g : Graph) (scope any : NodeId) :
    ((g.inlineAny scope any).node g.next).label = .number "1" := by
  have swapped := (Node.slotless_label.replace (g.add (.number "1")).1 any g.next).node
    (g.has_add_next _)
  rw [node_add_next] at swapped
  unfold Graph.inlineAny
  dsimp only
  split
  · refine Eq.trans ((Node.slotless_label.setWindow _ scope _).node ?_) swapped
    exact (Node.slotless_label.replace _ any g.next).has (g.has_add_next _)
  · exact swapped

theorem Zone.inlineAny (z : g.Zone roots ∅ zone level) (scope : NodeId) {any : NodeId}
    {a : Aggregate} (node : g.node any = .aggregate a) :
    Widens g (g.inlineAny scope any) roots zone level := by
  refine ⟨_, _, z.reshapedInline scope node, ?_, Set.subset_insert _ _⟩
  refine sheltered_of_not_isBinding fun {id} mem new => ?_
  obtain rfl := mem.resolve_right fun was => new (z.has was)
  have label := g.label_inlineAny_next scope any
  cases kind : (g.inlineAny scope any).node g.next <;> simp_all [Node.label, Node.isBinding]

/-- What may become of an ANY: it stays, with at most some work beside the query; it is inlined; or
a subquery takes its place. -/
inductive Resolved (g : Graph) (metadata : Metadata) (scope any : NodeId) : Graph → Prop
  | left {h : Graph} : Extends g h → Resolved g metadata scope any h
  | inlined {h : Graph} {a : Aggregate} : g.node any = .aggregate a → Extends g h →
      Resolved g metadata scope any (h.inlineAny scope any)
  | replaced {h : Graph} {a : Aggregate} {sub : CorrelatedScope} {zone : Set NodeId}
      {level : NodeId → List NodeId} (kind : SubqueryKind) : g.node any = .aggregate a →
      Correlated g metadata (g.includedRanges scope) a.operand a.condition h sub zone level →
      Resolved g metadata scope any (h.replaceBySubquery any kind none sub)

theorem resolved_resolveAny (g : Graph) (metadata : Metadata) (scope any : NodeId)
    (site : AnySite) : Resolved g metadata scope any (g.resolveAny metadata scope any site).1 := by
  unfold Graph.resolveAny
  split
  · exact .left (.refl g)
  · next a found =>
    have node := node_of_aggregate? found
    obtain ⟨beside, found⟩ := g.correlate_cases metadata (g.isRange_includedRanges scope)
      a.operand a.condition
    split
    · next correlated =>
      rw [correlated] at beside
      exact .left beside
    · next h sub correlated =>
      rw [correlated] at beside found
      obtain ⟨zone, level, c⟩ := found sub rfl
      dsimp only
      split
      · exact .inlined node beside
      · exact .replaced _ node c

theorem resolved_resolveAnyAt (g : Graph) (metadata : Metadata) (scope any : NodeId) :
    Resolved g metadata scope any (g.resolveAnyAt metadata scope any).1 := by
  unfold Graph.resolveAnyAt
  split
  · split
    · exact .left (.refl g)
    · exact g.resolved_resolveAny metadata scope any _
  · exact .left (.refl g)

end Graph

open RangeQuery.Graph

namespace Placed

variable {α : Type} {view : Node → α} (placed : Placed view)

include placed

theorem replaceBySubquery (g : Graph) (old : NodeId) (kind : SubqueryKind)
    (expression : Option NodeId) (sub : CorrelatedScope) :
    Same view g (g.replaceBySubquery old kind expression sub) :=
  (Same.add view g _).trans (placed.replace _ old _)

theorem inlineAny (g : Graph) (scope any : NodeId) : Same view g (g.inlineAny scope any) := by
  have swapped := (Same.add view g (.number "1")).trans (placed.replace _ any g.next)
  unfold Graph.inlineAny
  dsimp only
  split
  · exact swapped.trans (placed.setWindow _ scope _)
  · exact swapped

theorem resolved {g h : Graph} {metadata : Metadata} {scope any : NodeId}
    (r : Resolved g metadata scope any h) : Same view g h := by
  cases r with
  | left beside => exact beside.same
  | inlined _ beside => exact beside.same.trans (placed.inlineAny _ scope any)
  | replaced kind _ c => exact c.beside.same.trans (placed.replaceBySubquery _ any _ _ _)

theorem resolveAnys (g : Graph) (metadata : Metadata) (scope : NodeId) :
    Same view g (g.resolveAnys metadata scope).1 :=
  .changeEach (fun g any => placed.resolved (g.resolved_resolveAnyAt metadata scope any)) g _

end Placed

namespace Graph

variable {g h : Graph} {roots zone : Set NodeId} {level : NodeId → List NodeId}

/-- What becomes of an ANY widens a zone. -/
theorem Zone.resolved (z : g.Zone roots ∅ zone level) {metadata : Metadata} {scope any : NodeId}
    (r : Resolved g metadata scope any h) : Widens g h roots zone level := by
  cases r with
  | left beside => exact beside.widens z
  | @inlined h a node beside =>
    refine (beside.widens z).trans beside.size (Node.formal_stamp.toPlaced.inlineAny h scope any)
      fun z' _ => z'.inlineAny scope (a := a) ?_
    rw [beside.node (has_of_aggregate node), node]
  | replaced kind node c =>
    exact z.widensBySubquery c.beside c.inOrder (fun _ => c.fresh) node
      (by simpa using fun id => c.ready) (by simpa using c.nodup)

theorem Zone.widensEach {change : Graph → NodeId → Graph × Bool}
    (same : ∀ g id, Same Node.stamp g (change g id).1)
    (each : ∀ {g : Graph} {zone level} id, g.Zone roots ∅ zone level →
      Widens g (change g id).1 roots zone level) (z : g.Zone roots ∅ zone level)
    (ids : List NodeId) : Widens g (Graph.changeEach change g ids).1 roots zone level := by
  induction ids generalizing g zone level with
  | nil => exact (Enlarges.refl z).widens
  | cons id rest ih =>
    exact (each id z).trans (same g id).size (.changeEach same _ rest) fun z' _ => ih z'

/-- Resolving the ANYs of a scope widens a zone. -/
theorem Zone.resolveAnys (z : g.Zone roots ∅ zone level) (metadata : Metadata)
    (scope : NodeId) : Widens g (g.resolveAnys metadata scope).1 roots zone level :=
  z.widensEach
    (fun g any => Node.formal_stamp.toPlaced.resolved (g.resolved_resolveAnyAt metadata scope any))
    (fun any z => z.resolved (resolved_resolveAnyAt _ metadata scope any)) _

/-! ## The nesting of scopes -/

namespace Keeps

theorem of_extends (e : Extends g h) : Keeps g h := .of_unbound fun _ => e.same

theorem replaceBySubquery {old : NodeId} {a : Aggregate} (node : g.node old = .aggregate a)
    (kind : SubqueryKind) (expression : Option NodeId) (sub : CorrelatedScope) :
    Keeps g (g.replaceBySubquery old kind expression sub) := by
  have has := has_of_aggregate node
  refine (Keeps.of_unbound fun _ => Same.add _ g _).trans (.replace ?_ ?_ (g.has_add_next _) ?_)
  · rw [node_add has, node]; rfl
  · rw [node_add has, node]; rfl
  · exact (congrArg Node.isRange (node_add_next g _)).trans rfl

theorem inlineAny (scope : NodeId) {any : NodeId} {a : Aggregate}
    (node : g.node any = .aggregate a) : Keeps g (g.inlineAny scope any) := by
  have has := has_of_aggregate node
  have swapped : Keeps g ((g.add (.number "1")).1.replace any g.next).1 := by
    refine (Keeps.of_unbound fun _ => Same.add _ g _).trans (.replace ?_ ?_ (g.has_add_next _) ?_)
    · rw [node_add has, node]; rfl
    · rw [node_add has, node]; rfl
    · rw [node_add_next]; rfl
  unfold Graph.inlineAny
  dsimp only
  split
  · exact swapped.trans (.of_rigid fun rigid => rigid.setWindow _ scope _)
  · exact swapped

theorem resolved {metadata : Metadata} {scope any : NodeId}
    (r : Resolved g metadata scope any h) : Keeps g h := by
  cases r with
  | left beside => exact of_extends beside
  | @inlined h a node beside =>
    refine (of_extends beside).trans (inlineAny scope (a := a) ?_)
    rw [beside.node (has_of_aggregate node), node]
  | @replaced h a sub zone level kind node c =>
    refine (of_extends c.beside).trans (replaceBySubquery (a := a) ?_ kind none sub)
    rw [c.beside.node (has_of_aggregate node), node]

theorem resolveAnys (g : Graph) (metadata : Metadata) (scope : NodeId) :
    Keeps g (g.resolveAnys metadata scope).1 :=
  .changeEach (fun g any => .resolved (g.resolved_resolveAnyAt metadata scope any)) g _

end Keeps

end Graph

end RangeQuery
