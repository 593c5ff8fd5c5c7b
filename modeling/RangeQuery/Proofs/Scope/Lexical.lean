import RangeQuery.Proofs.Scope.Binding
import RangeQuery.Proofs.Scope.SameScopes

/-!
Ranges by their names. Where the ranges of each scope differ in their names, a search for a name from
an identifier outwards finds one range at most, and the identifier should read that one. A change that
adds no identifiers keeps this, as long as the scopes keep their ranges and the ranges their names.
-/

namespace RangeQuery

/-- What an identifier reads. -/
def Node.identified? : Node → Option Identifier
  | .identifier i => some i
  | _ => none

theorem Node.identified?_eq_some {node : Node} {i : Identifier} :
    node.identified? = some i ↔ node = .identifier i := by
  cases node <;> simp [identified?]

/-- Neither an identifier nor a range, and nothing that declares ranges. -/
def Node.isSilent : Node → Bool
  | .retrieve _ | .subquery _ | .range _ | .identifier _ => false
  | _ => true

theorem Node.isSilent_stamp (node : Node) : node.stamp.isSilent = node.isSilent := by
  cases node <;> rfl

theorem Node.isSilent_of_isGlue {node : Node} (glue : node.isGlue = true) : node.isSilent = true := by
  cases node <;> simp_all [isGlue, isSilent]

theorem Node.identified?_label (node : Node) : node.label.identified? = node.identified? := by
  cases node <;> rfl

namespace Graph

variable {g h k : Graph} {root range scope id : NodeId} {scopes inner outer : List NodeId}
  {name : String}

/-! ## Searching for a name -/

/-- A search for a name goes on beyond a scope: it is a subquery without a range of that name. -/
def Misses (g : Graph) (name : String) (scope : NodeId) : Prop :=
  (g.node scope).isRetrieve = false ∧
    ∀ range ∈ (g.node scope).declared, (g.node range).isRange = true → g.rangeName range ≠ name

/-- In some scopes, the innermost first, the name of a range leads to this range: the first scope
with a range of that name declares it. The search does not leave the query that it starts in. -/
inductive Finds (g : Graph) (range : NodeId) : List NodeId → Prop
  | here {scope : NodeId} {outer : List NodeId} :
      range ∈ (g.node scope).declared → Finds g range (scope :: outer)
  | further {scope : NodeId} {outer : List NodeId} :
      g.Misses (g.rangeName range) scope → Finds g range outer → Finds g range (scope :: outer)

namespace Finds

/-- What is found in inner scopes is found, whatever is around them. -/
theorem within (finds : g.Finds range inner) (outer : List NodeId) :
    g.Finds range (inner ++ outer) := by
  induction finds with
  | here declared => exact .here declared
  | further misses _ ih => exact .further misses ih

/-- What is found in outer scopes is found from inner ones that have no range of the name. -/
theorem beyond (misses : ∀ scope ∈ inner, g.Misses (g.rangeName range) scope)
    (finds : g.Finds range outer) : g.Finds range (inner ++ outer) := by
  induction inner with
  | nil => exact finds
  | cons scope inner ih =>
    exact .further (misses scope (by simp)) (ih fun other mem => misses other (by simp [mem]))

/-- A range is found in the inner scopes, or beyond all of them. -/
theorem within_or_beyond (finds : g.Finds range (inner ++ outer)) :
    g.Finds range inner ∨
      (∀ scope ∈ inner, g.Misses (g.rangeName range) scope) ∧ g.Finds range outer := by
  induction inner with
  | nil => exact .inr ⟨by simp, finds⟩
  | cons scope inner ih =>
    cases finds with
    | here declared => exact .inl (.here declared)
    | further misses finds =>
      rcases ih finds with finds | ⟨all, finds⟩
      · exact .inl (.further misses finds)
      · exact .inr ⟨by simpa using ⟨misses, all⟩, finds⟩

theorem exists_scope (finds : g.Finds range scopes) :
    ∃ scope ∈ scopes, range ∈ (g.node scope).declared := by
  induction finds with
  | here declared => exact ⟨_, by simp, declared⟩
  | further _ _ ih =>
    obtain ⟨scope, mem, declared⟩ := ih
    exact ⟨scope, by simp [mem], declared⟩

/-- What is found from a query is declared there. -/
theorem declared_of_query (finds : g.Finds range (scope :: outer))
    (isRetrieve : (g.node scope).isRetrieve = true) : range ∈ (g.node scope).declared := by
  cases finds with
  | here declared => exact declared
  | further misses _ =>
    have other := misses.1
    rw [isRetrieve] at other
    cases other

end Finds

/-! ## Nodes in their scopes -/

/-- A node is understood by names in some scopes: the ranges that it declares differ in their names,
an identifier reads the range to which its name leads, and a range reads from a query, if it reads from
anything. -/
structure WellNamed (g : Graph) (scopes : List NodeId) (id : NodeId) : Prop where
  distinct : ∀ one ∈ (g.node id).declared, ∀ other ∈ (g.node id).declared,
    (g.node one).isRange = true → (g.node other).isRange = true →
      g.rangeName one = g.rangeName other → one = other
  found : ∀ i, g.node id = .identifier i → (g.node i.range).isRange = true ∧ g.Finds i.range scopes
  query : ∀ inner ∈ (g.node id).nested?, (g.node inner).isRetrieve = true

/-- Every reached node is understood by names in the scopes around it, and none but the root holds
templates. -/
structure Lexical (g : Graph) (root : NodeId) : Prop where
  named : ∀ {trail id}, g.Trail root trail id → g.WellNamed (g.scopesAmong (id :: trail)) id
  plain : ∀ {id}, g.Below root id → id ≠ root → (g.node id).templateBodies = []

/-- What reads and declares nothing is understood anywhere. -/
theorem wellNamed_of_silent (silent : (g.node id).isSilent = true) (scopes : List NodeId) :
    g.WellNamed scopes id ∧ (g.node id).templateBodies = [] := by
  refine ⟨⟨?_, ?_, ?_⟩, ?_⟩ <;>
    cases node : g.node id <;>
      simp_all [Node.isSilent, Node.declared, Node.ranges?, Node.nested?, Node.templateBodies]

/-- An identifier declares nothing; it is understood where its name leads to what it reads. -/
theorem wellNamed_of_identifier {i : Identifier} (node : g.node id = .identifier i)
    (isRange : (g.node i.range).isRange = true) (finds : g.Finds i.range scopes) :
    g.WellNamed scopes id where
  distinct := by simp [node, Node.declared, Node.ranges?]
  found i' node' := by
    obtain rfl := Node.identifier.inj (node.symm.trans node')
    exact ⟨isRange, finds⟩
  query := by simp [node, Node.nested?]

/-! ## Kept names -/

section

variable (keeps : Keeps g h) (grounded : g.Grounded scope)

include keeps grounded

/-- The ranges that an old node declares are those that it declared. -/
theorem Keeps.declared_before (has : g.Has scope) {range : NodeId}
    (declared : range ∈ (h.node scope).declared) (isRange : (h.node range).isRange = true) :
    range ∈ (g.node scope).declared ∧ (g.node range).isRange = true ∧
      h.rangeName range = g.rangeName range := by
  have before := (keeps.foreign has declared).resolve_right fun ⟨_, _, other⟩ => by
    rw [isRange] at other
    cases other
  have had := grounded range (below_of_child (declared_subset_children _ before))
  exact ⟨before, (keeps.stamp.isRange had).symm.trans isRange, keeps.stamp.rangeName had⟩

theorem Misses.keep (misses : g.Misses name scope) : h.Misses name scope := by
  have has := grounded scope (.refl g scope)
  refine ⟨(keeps.stamp.isRetrieve has).trans misses.1, fun range declared isRange => ?_⟩
  obtain ⟨before, isRange', same⟩ := keeps.declared_before grounded has declared isRange
  rw [same]
  exact misses.2 range before isRange'

end

/-- A search finds what it found. -/
theorem Finds.keep (finds : g.Finds range scopes) (keeps : Keeps g h)
    (isRange : (g.node range).isRange = true) (grounded : ∀ scope ∈ scopes, g.Grounded scope) :
    h.Finds range scopes := by
  have had := has_of_isRange isRange
  induction finds with
  | @here scope _ declared =>
    have has := grounded scope (by simp) scope (.refl g scope)
    exact .here ((keeps.declared has had isRange).mpr declared)
  | @further scope _ misses _ ih =>
    refine .further ?_ (ih fun other mem => grounded other (by simp [mem]))
    rw [keeps.stamp.rangeName had]
    exact misses.keep keeps (grounded scope (by simp))

/-- Ranges that differ in their names go on doing so. -/
theorem Keeps.distinct (keeps : Keeps g h) (grounded : g.Grounded id)
    (distinct : ∀ one ∈ (g.node id).declared, ∀ other ∈ (g.node id).declared,
      (g.node one).isRange = true → (g.node other).isRange = true →
        g.rangeName one = g.rangeName other → one = other) :
    ∀ one ∈ (h.node id).declared, ∀ other ∈ (h.node id).declared,
      (h.node one).isRange = true → (h.node other).isRange = true →
        h.rangeName one = h.rangeName other → one = other := by
  intro one mem other mem' isRange isRange' same
  have has := grounded id (.refl g id)
  obtain ⟨before, was, name⟩ := keeps.declared_before grounded has mem isRange
  obtain ⟨before', was', name'⟩ := keeps.declared_before grounded has mem' isRange'
  exact distinct one before other before' was was' (name.symm.trans (same.trans name'))

/-- A range that reads from a query goes on doing so. -/
theorem Keeps.query (keeps : Keeps g h) (reads : Same Node.readsQuery g h) (has : g.Has id)
    (query : ∀ inner ∈ (g.node id).nested?, (g.node inner).isRetrieve = true) :
    ∀ inner ∈ (h.node id).nested?, (h.node inner).isRetrieve = true := by
  intro inner nested
  cases before : (g.node id).nested? with
  | none =>
    rw [reads.nested?_eq_none has before] at nested
    cases nested
  | some old =>
    have isRetrieve := query old before
    have has' := has_of_isRetrieve isRetrieve
    rw [keeps.nested has has' before isRetrieve] at nested
    obtain rfl := Option.some.inj nested
    exact (keeps.stamp.isRetrieve has').trans isRetrieve

/-- What is understood by names in old nodes stays so: the scopes, what identifiers and ranges read,
and the templates. -/
structure KeepsNames (g h : Graph) : Prop where
  keeps : Keeps g h
  identified : Same Node.identified? g h
  reads : Same Node.readsQuery g h
  bodies : Same Node.templateBodies g h

namespace KeepsNames

theorem of_slotless (keeps : Keeps g h)
    (same : ∀ {α : Type} {view : Node → α}, Slotless view → Same view g h) : KeepsNames g h where
  keeps := keeps
  identified := (same Node.slotless_label).coarser Node.identified? fun node =>
    node.identified?_label.symm
  reads := same Node.formal_readsQuery.toSlotless
  bodies := same Node.formal_templateBodies.toSlotless

theorem of_rigid (same : ∀ {α : Type} {view : Node → α}, Rigid view → Same view g h) :
    KeepsNames g h :=
  of_slotless (.of_rigid same) fun slotless => same slotless.toRigid

theorem of_extends (e : Extends g h) : KeepsNames g h := of_rigid fun _ => e.same

theorem trans (a : KeepsNames g h) (b : KeepsNames h k) : KeepsNames g k :=
  ⟨a.keeps.trans b.keeps, a.identified.trans b.identified, a.reads.trans b.reads,
    a.bodies.trans b.bodies⟩

/-- An identifier is kept with what it reads. -/
theorem node_eq_identifier (n : KeepsNames g h) (has : g.Has id) {i : Identifier} :
    h.node id = .identifier i ↔ g.node id = .identifier i := by
  rw [← Node.identified?_eq_some, n.identified.node has, Node.identified?_eq_some]

end KeepsNames

/-- A node that reads what it read is understood as it was. -/
theorem WellNamed.keep (named : g.WellNamed scopes id) (n : KeepsNames g h) (grounded : g.Grounded id)
    (around : ∀ scope ∈ scopes, g.Grounded scope) : h.WellNamed scopes id where
  distinct := n.keeps.distinct grounded named.distinct
  found i node := by
    obtain ⟨isRange, finds⟩ :=
      named.found i ((n.node_eq_identifier (grounded id (.refl g id))).mp node)
    exact ⟨n.keeps.stamp.isRange_mono isRange, finds.keep n.keeps isRange around⟩
  query := n.keeps.query n.reads (grounded id (.refl g id)) named.query

namespace Lexical

variable (x : Lexical g root) (l : g.Linked root)

include x l

theorem named_level (below : g.Below root id) : g.WellNamed (g.levelFrom {root} id) id := by
  obtain ⟨trail, way⟩ := below
  rw [l.level_of_trail way]
  exact x.named way

/-- A change of old nodes that keeps the names keeps them altogether, if new nodes are understood
where they are. -/
theorem reshaped {zone : Set NodeId} {level : NodeId → List NodeId} (n : KeepsNames g h)
    (r : Reshaped g h {root} {id | g.Below root id} (g.levelFrom {root}) zone level)
    (new : ∀ {id}, id ∈ zone → ¬ g.Has id →
      h.WellNamed (level id) id ∧ (h.node id).templateBodies = []) : Lexical h root := by
  have linked := r.inOrder.linked (Set.mem_singleton root)
  have inside : ∀ {id}, h.Below root id → id ∈ zone ∧ level id = h.levelFrom {root} id :=
    fun below => r.level_eq l n.keeps.stamp below
  refine ⟨fun {trail id} way => ?_, fun {id} below ne => ?_⟩
  · obtain ⟨mem, on⟩ := inside ⟨trail, way⟩
    rw [← linked.level_of_trail way, ← on]
    by_cases had : g.Has id
    · obtain ⟨was, same⟩ := r.old mem had
      rw [same]
      exact (x.named_level l was).keep n (l.grounded was) fun scope around =>
        l.grounded ((l.mem_levelFrom was).mp around).2.1
    · exact (new mem had).1
  · obtain ⟨mem, -⟩ := inside below
    by_cases had : g.Has id
    · rw [n.bodies.node had]
      exact x.plain (r.old mem had).1 ne
    · exact (new mem had).2

/-- A rearrangement of the nodes keeps the names. -/
theorem rearranged (n : KeepsNames g h)
    (r : Rearranges g h {root} {id | g.Below root id} (g.levelFrom {root})) : Lexical h root := by
  obtain ⟨zone, level, reshaped, glued⟩ := r
  exact x.reshaped l n reshaped fun mem new => wellNamed_of_silent (Node.isSilent_of_isGlue (glued mem new)) _

/-! ## Passes that copy nothing -/

theorem extractMarkers (isScope : g.ScopeIn root scope) :
    Lexical (g.extractMarkers scope).1 root :=
  x.rearranged l (.of_rigid fun rigid => rigid.extractMarkers g scope)
    (l.zone.extractMarkers l isScope.reached isScope.reached)

theorem normalizeAnchor (metadata : Metadata) (isScope : g.ScopeIn root scope) :
    Lexical (g.normalizeAnchor metadata scope).1 root :=
  x.rearranged l (.of_slotless (.normalizeAnchor g metadata scope) fun slotless =>
    slotless.normalizeAnchor g metadata scope)
    (l.zone.normalizeAnchor metadata isScope.reached).rearranges

theorem decideRequired (metadata : Metadata) (pinned : List NodeId) (scope : NodeId) :
    Lexical (g.decideRequired metadata pinned scope).1 root :=
  x.rearranged l (.of_rigid fun rigid => rigid.decideRequired g metadata pinned scope)
    (l.zone.enlarges ((Relabels.decideRequired g metadata pinned scope).zone l.zone)).rearranges

theorem freeAggregatesOfOne (isScope : g.ScopeIn root scope) :
    Lexical (g.freeAggregatesOfOne scope).1 root :=
  x.rearranged l (.of_slotless (.freeAggregatesOfOne g scope) fun slotless =>
    slotless.freeAggregatesOfOne g scope)
    (l.zone.freeAggregatesOfOne isScope.reached).rearranges

theorem dropDeadJoins (scope : NodeId) : Lexical (g.dropDeadJoins scope).1 root := by
  have unbound : ∀ {α : Type} {view : Node → α}, Unbound view →
      Same view g (g.dropDeadJoins scope).1 := fun unbound => unbound.dropDeadJoins g scope
  have identified : Same Node.identified? g (g.dropDeadJoins scope).1 :=
    dropDeadJoins_induction (motive := Same Node.identified? g)
      (fun _ _ same => same.trans (.updateRange _ fun _ => rfl)) (.refl _ g)
  exact x.rearranged l ⟨.of_unbound unbound, identified, unbound Node.formal_readsQuery.toUnbound,
    unbound Node.formal_templateBodies.toUnbound⟩
    (l.zone.enlarges ((Relabels.dropDeadJoins g scope).zone l.zone)).rearranges

end Lexical

end Graph

end RangeQuery
