import RangeQuery.Proofs.Scope.AggregateCondition
import RangeQuery.Proofs.Scope.Anchor
import RangeQuery.Proofs.Scope.ExistenceMarker
import RangeQuery.Proofs.Scope.Requiredness
import RangeQuery.Proofs.Scope.SelfJoin

/-!
What identifiers are bound to while no range in use is dropped. Every reached identifier reads an
included range, and whatever reads a range of one of the given scopes lies within that scope. The
second part is what lets a scope rebind or drop its ranges by looking below itself only.
-/

namespace RangeQuery

/-- A range that takes part in the join. -/
def Node.isIncluded : Node → Bool
  | .range r => r.included
  | _ => false

theorem Node.isIncluded_label (node : Node) : node.label.isIncluded = node.isIncluded := by
  cases node <;> rfl

theorem Node.isRange_of_isIncluded {node : Node} (h : node.isIncluded = true) :
    node.isRange = true := by
  cases node <;> simp_all [isIncluded, isRange]

namespace Graph

variable {g h : Graph} {root : NodeId} {scopes : List NodeId}

theorem has_of_isIncluded {id : NodeId} (h : (g.node id).isIncluded = true) : g.Has id := by
  by_contra absent
  rw [node_of_not_has absent] at h
  cases h

theorem Same.isIncluded (same : Same Node.label g h) {id : NodeId}
    (included : (g.node id).isIncluded = true) : (h.node id).isIncluded = true := by
  rw [← Node.isIncluded_label, same.node (has_of_isIncluded included), Node.isIncluded_label,
    included]

/-! ## Levels from one root -/

/-- The scopes on the level of a node are those that it lies in. -/
theorem Linked.mem_levelFrom (l : g.Linked root) {id scope : NodeId} (below : g.Below root id) :
    scope ∈ g.levelFrom {root} id ↔
      (g.node scope).opensScope = true ∧ g.Below root scope ∧ g.Below scope id := by
  obtain ⟨trail, way⟩ := below
  rw [l.level_of_trail way, scopesAmong, List.mem_filter]
  constructor
  · rintro ⟨on, opens⟩
    refine ⟨opens, ?_⟩
    rcases List.mem_cons.mp on with rfl | on
    · exact ⟨⟨trail, way⟩, Below.refl g scope⟩
    · exact way.below_of_mem on
  · rintro ⟨opens, above, inside⟩
    exact ⟨l.tree.mem_trail above inside way, opens⟩

/-- A zone around a root tells the level of all that is reached. -/
theorem Zone.level_eq {roots zone : Set NodeId} {level : NodeId → List NodeId}
    (z : g.Zone roots ∅ zone level) (mem : root ∈ roots) (on : level root = g.enter root [])
    {id : NodeId} (below : g.Below root id) : level id = g.levelFrom {root} id := by
  obtain ⟨trail, way⟩ := below
  rw [z.level_of_trail (z.root mem).1 on way, (z.linked mem).level_of_trail way, List.append_nil]

/-- A reshaped zone holds what is still reached, on the level where it is reached. -/
theorem Reshaped.level_eq {zone : Set NodeId} {level : NodeId → List NodeId} (l : g.Linked root)
    (stamp : Same Node.stamp g h)
    (r : Reshaped g h {root} {id | g.Below root id} (g.levelFrom {root}) zone level) {id : NodeId}
    (below : h.Below root id) : id ∈ zone ∧ level id = h.levelFrom {root} id := by
  have isRoot : root ∈ ({root} : Set NodeId) := rfl
  refine ⟨r.inOrder.mem_of_below (r.inOrder.root isRoot).1 below,
    r.inOrder.level_eq isRoot ?_ below⟩
  have opens : Same Node.opensScope g h := stamp.coarser Node.opensScope fun node => by
    cases node <;> rfl
  have scope := opens.node l.has
  rw [(r.old (r.inOrder.root isRoot).1 l.has).2,
    levelFrom_root (fun top mem => Set.mem_singleton_iff.mp mem ▸ l) isRoot, enter, enter, scope]

/-! ## Bound identifiers -/

/-- Every reached identifier reads an included range, and one that reads a range of a given scope
lies within it. The scopes lead down from a well-linked root. -/
structure Bound (g : Graph) (root : NodeId) (scopes : List NodeId) : Prop where
  linked : g.Linked root
  isScope : ∀ scope ∈ scopes, g.ScopeIn root scope
  included : ∀ {id i}, g.Below root id → g.node id = .identifier i →
    (g.node i.range).isIncluded = true
  within : ∀ {id i}, g.Below root id → g.node id = .identifier i → ∀ scope ∈ scopes,
    i.range ∈ (g.node scope).declared → g.Below scope id

theorem opensScope_of_isRetrieve {node : Node} (h : node.isRetrieve = true) :
    node.opensScope = true := by
  cases node <;> simp_all [Node.isRetrieve, Node.opensScope, Node.ranges?]

namespace Bound

variable (b : Bound g root scopes)

include b

/-- An identifier that reads a range of a given scope has it on its level. -/
theorem mem_level {id scope : NodeId} {i : Identifier} (below : g.Below root id)
    (node : g.node id = .identifier i) (mem : scope ∈ scopes)
    (declared : i.range ∈ (g.node scope).declared) : scope ∈ g.levelFrom {root} id := by
  have isScope := b.isScope scope mem
  exact (b.linked.mem_levelFrom below).mpr ⟨opensScope_of_isRetrieve isScope.isRetrieve,
    isScope.reached, b.within below node scope mem declared⟩

/-- A change that keeps labels and scopes keeps the bindings, if those of new identifiers are as
they should be. -/
theorem reshaped {zone : Set NodeId} {level : NodeId → List NodeId} (keeps : Keeps g h)
    (label : Same Node.label g h)
    (r : Reshaped g h {root} {id | g.Below root id} (g.levelFrom {root}) zone level)
    (new : ∀ {id i}, id ∈ zone → ¬ g.Has id → h.node id = .identifier i →
      (h.node i.range).isIncluded = true ∧
        ∀ scope ∈ scopes, i.range ∈ (h.node scope).declared → scope ∈ level id) :
    Bound h root scopes := by
  have linked := r.inOrder.linked (Set.mem_singleton root)
  have inside : ∀ {id}, h.Below root id → id ∈ zone ∧ level id = h.levelFrom {root} id :=
    fun below => r.level_eq b.linked keeps.stamp below
  -- Old identifiers are what they were, new ones are given.
  have each : ∀ {id i}, h.Below root id → h.node id = .identifier i →
      (h.node i.range).isIncluded = true ∧
        ∀ scope ∈ scopes, i.range ∈ (h.node scope).declared → scope ∈ level id := by
    intro id i below node
    by_cases had : g.Has id
    · obtain ⟨was, same⟩ := r.old (inside below).1 had
      have kept := label.node had
      rw [node] at kept
      have node' := Node.label_eq_identifier kept.symm
      have included := b.included was node'
      refine ⟨label.isIncluded included, fun scope mem declared => ?_⟩
      have isScope := b.isScope scope mem
      have declared' := (keeps.declared (b.linked.has_of_below isScope.reached)
        (has_of_isIncluded included) (Node.isRange_of_isIncluded included)).mp declared
      rw [same]
      exact b.mem_level was node' mem declared'
    · exact new (inside below).1 had node
  refine ⟨linked, fun scope mem => keeps.scopeIn b.linked (b.isScope scope mem),
    fun below node => (each below node).1, fun {id i} below node scope mem declared => ?_⟩
  have on := (each below node).2 scope mem declared
  rw [(inside below).2] at on
  exact ((linked.mem_levelFrom below).mp on).2.2

/-- A rearrangement of the nodes keeps the bindings. -/
theorem rearranged (keeps : Keeps g h) (label : Same Node.label g h)
    (r : Rearranges g h {root} {id | g.Below root id} (g.levelFrom {root})) :
    Bound h root scopes := by
  obtain ⟨zone, level, reshaped, glued⟩ := r
  refine b.reshaped keeps label reshaped fun mem new node => ?_
  have glue := glued mem new
  rw [node] at glue
  cases glue

/-! ## Passes that copy nothing -/

theorem extractMarkers {scope : NodeId} (mem : scope ∈ scopes) :
    Bound (g.extractMarkers scope).1 root scopes := by
  have reached := (b.isScope scope mem).reached
  exact b.rearranged (.of_rigid fun rigid => rigid.extractMarkers g scope)
    (Node.slotless_label.toRigid.extractMarkers g scope)
    (b.linked.zone.extractMarkers b.linked reached reached)

theorem normalizeAnchor (metadata : Metadata) {scope : NodeId} (mem : scope ∈ scopes) :
    Bound (g.normalizeAnchor metadata scope).1 root scopes :=
  b.rearranged (.normalizeAnchor g metadata scope)
    (Node.slotless_label.normalizeAnchor g metadata scope)
    (b.linked.zone.normalizeAnchor metadata (b.isScope scope mem).reached).rearranges

/-- What changes labels only, and those by what a label leaves out, keeps the bindings. -/
theorem relabeled (rigid : ∀ {α : Type} {view : Node → α}, Rigid view → Same view g h)
    (r : Relabels g h) : Bound h root scopes :=
  b.rearranged (.of_rigid rigid) (rigid Node.slotless_label.toRigid)
    (b.linked.zone.enlarges (r.zone b.linked.zone)).rearranges

theorem decideRequired (metadata : Metadata) (pinned : List NodeId) (scope : NodeId) :
    Bound (g.decideRequired metadata pinned scope).1 root scopes :=
  b.relabeled (fun rigid => rigid.decideRequired g metadata pinned scope)
    (.decideRequired g metadata pinned scope)

theorem freeAggregatesOfOne {scope : NodeId} (mem : scope ∈ scopes) :
    Bound (g.freeAggregatesOfOne scope).1 root scopes :=
  b.rearranged (.freeAggregatesOfOne g scope) (Node.slotless_label.freeAggregatesOfOne g scope)
    (b.linked.zone.freeAggregatesOfOne (b.isScope scope mem).reached).rearranges

end Bound

/-! ## Merged ranges -/

end Graph

/-- The node, taken out of the join if it is a range. -/
def Node.excluded : Node → Node
  | .range r => .range { r with included := false }
  | node => node

theorem Node.isIncluded_excluded (node : Node) : node.excluded.isIncluded = false := by
  cases node <;> rfl

theorem Node.excluded_eq_identifier {node : Node} {i : Identifier} :
    node.excluded = .identifier i ↔ node = .identifier i := by
  cases node <;> simp [excluded]

namespace Graph

variable {g h : Graph} {root : NodeId} {scopes : List NodeId}

theorem node_exclude (g : Graph) (dead id : NodeId) :
    (g.exclude dead).node id = if id = dead then (g.node id).excluded else g.node id := by
  split
  · next same =>
    subst same
    cases node : g.node id with
    | range r =>
      have has : g.Has id := has_of_node node (by simp)
      simp only [exclude, updateRange, node, node_setNode_self g has, Node.excluded]
    | _ => simp only [exclude, updateRange, node, Node.excluded]
  · next other => exact node_updateRange_of_ne g other _

theorem identifier_exclude {dead id : NodeId} {i : Identifier} :
    (g.exclude dead).node id = .identifier i ↔ g.node id = .identifier i := by
  rw [node_exclude]
  split
  · exact Node.excluded_eq_identifier
  · rfl

theorem isIncluded_of_mem {scope id : NodeId} (mem : id ∈ g.includedRanges scope) :
    id ∈ (g.node scope).declared ∧ (g.node id).isIncluded = true := by
  obtain ⟨declared, r, node, included⟩ := mem_includedRanges mem
  exact ⟨declared, by rw [node]; exact included⟩

/-- A range is declared by one node only. -/
theorem Linked.declared_unique (l : g.Linked root) {one other range : NodeId}
    (above : g.Below root one) (above' : g.Below root other)
    (declared : range ∈ (g.node one).declared) (declared' : range ∈ (g.node other).declared) :
    one = other :=
  l.owner_unique above above' (declared_subset_children _ declared)
    (declared_subset_children _ declared')

namespace Bound

variable (b : Bound g root scopes)

include b

/-- Pointing what reads one range of a scope at another one, below the scope, and excluding the
first keeps the bindings: nothing outside the scope reads it. -/
theorem merged {scope kept removed : NodeId} (mem : scope ∈ scopes) (ne : kept ≠ removed)
    (declared : kept ∈ (g.node scope).declared ∧ (g.node kept).isIncluded = true)
    (declared' : removed ∈ (g.node scope).declared) :
    Bound (((g.rebind scope (Renaming.empty.insert removed kept)).1).exclude removed) root
      scopes := by
  classical
  have reached := (b.isScope scope mem).reached
  have r := (Relabels.rebind g scope (Renaming.empty.insert removed kept)).trans
    (.exclude _ removed)
  have same : ∀ {α : Type} {view : Node → α}, Unbound view → Same view g
      (((g.rebind scope (Renaming.empty.insert removed kept)).1).exclude removed) :=
    fun unbound => (unbound.rebind g scope _).trans (unbound.exclude _ removed)
  have keeps : Keeps g _ := .of_unbound same
  have still : ∀ {id}, id ≠ removed → (g.node id).isIncluded = true →
      (((g.rebind scope (Renaming.empty.insert removed kept)).1.exclude removed).node id).isIncluded
        = true := by
    intro id other included
    rw [node_exclude, if_neg other,
      node_rebind_of_isRange _ _ _ (Node.isRange_of_isIncluded included), included]
  -- The kept range stands for the removed one, and only below the scope.
  have each : ∀ {id i}, g.Below root id →
      ((g.rebind scope (Renaming.empty.insert removed kept)).1.exclude removed).node id =
        .identifier i →
      i.range ≠ removed ∧ (i.range = kept ∧ g.Below scope id ∨ g.node id = .identifier i) := by
    intro id i below node
    rw [identifier_exclude, b.linked.node_rebind reached] at node
    split at node
    · next inside =>
      cases was : g.node id with
      | identifier i' =>
        rw [was, Node.renamed] at node
        obtain rfl := Node.identifier.inj node
        by_cases hit : removed = i'.range
        · rw [← hit, Renaming.get?_insert_same]
          exact ⟨ne, .inl ⟨rfl, inside⟩⟩
        · rw [Renaming.get?_insert_other _ hit, Renaming.get?_empty]
          exact ⟨Ne.symm hit, .inr rfl⟩
      | _ => rw [was] at node; cases node
    · next outside =>
      refine ⟨fun hit => outside ?_, .inr node⟩
      exact b.within below node scope mem (hit ▸ declared')
  refine ⟨r.linked b.linked, fun other mem' => keeps.scopeIn b.linked (b.isScope other mem'),
    fun {id i} below node => ?_, fun {id i} below node other mem' read => ?_⟩
  · obtain ⟨apart, ⟨is, -⟩ | node'⟩ := each (r.below.mp below) node
    · rw [is]
      exact still ne declared.2
    · exact still apart (b.included (r.below.mp below) node')
  · have above := (b.isScope other mem').reached
    rw [(same Node.unbound_declared).node (b.linked.has_of_below above)] at read
    obtain ⟨-, ⟨is, inside⟩ | node'⟩ := each (r.below.mp below) node
    · rw [is] at read
      rw [b.linked.declared_unique above reached read declared.1]
      exact r.below.mpr inside
    · exact r.below.mpr (b.within (r.below.mp below) node' other mem' read)

theorem mergePair {scope : NodeId} {pair : IdentityPair} (mem : scope ∈ scopes)
    (p : g.IsPair (g.includedRanges scope) pair) :
    Bound (g.mergePair scope pair) root scopes := by
  have reached := (b.isScope scope mem).reached
  have rigid : ∀ {α : Type} {view : Node → α}, Rigid view → Same view g (g.rejoined pair) :=
    fun rigid => rigid.rejoined g pair
  have rejoined := b.rearranged (.of_rigid rigid) (rigid Node.slotless_label.toRigid)
    (b.linked.zone.enlarges (b.linked.zone.rejoined reached p)).rearranges
  have still : ∀ {id}, id ∈ g.includedRanges scope →
      id ∈ ((g.rejoined pair).node scope).declared ∧
        ((g.rejoined pair).node id).isIncluded = true := by
    intro id within
    obtain ⟨declared, included⟩ := isIncluded_of_mem within
    rw [(rigid Node.unbound_declared.toRigid).node (b.linked.has_of_below reached)]
    exact ⟨declared, (rigid Node.slotless_label.toRigid).isIncluded included⟩
  rw [mergePair_eq]
  exact rejoined.merged mem p.ne (still p.kept) (still p.removed).1

theorem mergeSelfJoins {scope : NodeId} (mem : scope ∈ scopes) :
    Bound (g.mergeSelfJoins scope).1 root scopes :=
  mergeSelfJoins_induction (motive := fun g => Bound g root scopes)
    (fun found b => b.mergePair mem (isPair_of_findIdentity? found)) b

end Bound

end Graph

end RangeQuery
