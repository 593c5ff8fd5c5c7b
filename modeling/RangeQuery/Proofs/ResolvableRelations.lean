import RangeQuery.Proofs.Scope.BrokenRules
import RangeQuery.Proofs.WellLinked

/-!
Relations that join the ranges of the root. Where each of them is declared, writing them out
succeeds and leaves no bare relation at the root, so the checks can refuse one in a nested query
only.
-/

namespace RangeQuery

namespace Graph

variable {g h : Graph} {metadata : Metadata} {scope range id : NodeId}

/-- A relation that joins a range of a scope is a property of another range of the scope, and the
entity of that range declares it as leading to the entity of the joined one. -/
def Resolvable (g : Graph) (metadata : Metadata) (scope range : NodeId) : Prop :=
  ∀ join i, g.join? range = some join → g.node join = .identifier i →
    i.range ≠ range ∧ i.range ∈ (g.node scope).declared ∧ i.isDirect = true ∧
      ∃ owner target, g.entity? i.range = some owner ∧ g.entity? range = some target ∧
        ∃ r ∈ metadata.relations owner, r.property = i.field ∧ r.targetEntity = target

/-- A range is joined by a bare relation. -/
def JoinsByRelation (g : Graph) (range : NodeId) : Prop :=
  ∃ join i, g.join? range = some join ∧ g.node join = .identifier i

/-- The relation that joins a range, if one does, can be written out. -/
structure Expandable (g : Graph) (metadata : Metadata) (range : NodeId) : Prop where
  has : ∀ {join}, g.join? range = some join → g.Has join
  declared : ∀ {join i}, g.join? range = some join → g.node join = .identifier i →
    g.joinRelation? range = some i ∧ (g.declaredRelation? metadata range i).isSome = true

theorem Resolvable.expandable (resolvable : g.Resolvable metadata scope range)
    (has : ∀ {join}, g.join? range = some join → g.Has join) : g.Expandable metadata range where
  has := has
  declared {join i} held node := by
    obtain ⟨other, -, direct, owner, target, ofOwner, ofTarget, r, mem, property, leads⟩ :=
      resolvable join i held node
    constructor
    · simp [joinRelation?, held, identifier?_eq node, other, direct]
    · simp only [declaredRelation?, ofOwner, ofTarget, List.find?_isSome]
      exact ⟨r, mem, by simp [property, leads]⟩

/-- What a range is joined by is no bare relation. -/
structure Written (g : Graph) (range : NodeId) : Prop where
  has : ∀ {join}, g.join? range = some join → g.Has join
  other : ∀ {join}, g.join? range = some join → g.identifier? join = none

theorem Written.expandable (written : g.Written range) : g.Expandable metadata range where
  has := written.has
  declared held node := by
    have none := written.other held
    rw [identifier?_eq node] at none
    cases none

/-- An old node is an identifier exactly if it was that one. -/
theorem Same.identifier?_eq (label : Same Node.label g h) (has : g.Has id) :
    h.identifier? id = g.identifier? id := by
  have same := label.node has
  cases node : g.node id <;> cases node' : h.node id <;>
    simp_all [Node.label, identifier?]

section

variable {owner : NodeId} {relation : Relation}

theorem join?_joinByColumns_self (owner : NodeId) (relation : Relation)
    (isRange : (g.node range).isRange = true) :
    (g.joinByColumns range owner relation).join? range =
        some (g.bothColumns range owner relation).next ∧
      (g.joinByColumns range owner relation).node (g.bothColumns range owner relation).next =
        .binary .eq g.next (g.ownColumn range relation).next := by
  obtain ⟨r, node⟩ := Node.exists_of_isRange isRange
  have has := has_of_isRange isRange
  have has' : (g.ownColumn range relation).Has range := has_add has _
  have has'' : (g.bothColumns range owner relation).Has range := has_add has' _
  let k := ((g.bothColumns range owner relation).add
    (.binary .eq g.next (g.ownColumn range relation).next)).1
  have node' : k.node range = .range r := by
    rw [node_add has'', bothColumns, node_add has', ownColumn, node_add has, node]
  rw [joinByColumns_eq]
  constructor
  · rw [join?_eq (node_setJoin_self (has_add has'' _) node' _)]
  · rw [node_setJoin_of_ne _ (ne_next_of_has has'').symm, node_add_next]

theorem node_joinByColumns_of_ne (has : g.Has id) (ne : id ≠ range) :
    (g.joinByColumns range owner relation).node id = g.node id := by
  have has' : (g.ownColumn range relation).Has id := has_add has _
  have has'' : (g.bothColumns range owner relation).Has id := has_add has' _
  rw [joinByColumns_eq, node_setJoin_of_ne _ ne, node_add has'', bothColumns, node_add has',
    ownColumn, node_add has]

theorem join?_joinByColumns_of_ne (isRange : (g.node id).isRange = true) (ne : id ≠ range) :
    (g.joinByColumns range owner relation).join? id = g.join? id := by
  rw [join?, range?, node_joinByColumns_of_ne (has_of_isRange isRange) ne, join?, range?]

theorem written_joinByColumns (isRange : (g.node range).isRange = true) :
    (g.joinByColumns range owner relation).Written range := by
  obtain ⟨held, node⟩ := join?_joinByColumns_self owner relation isRange
  constructor
  · intro join held'
    obtain rfl := Option.some.inj (held.symm.trans held')
    exact has_of_node node (by simp)
  · intro join held'
    obtain rfl := Option.some.inj (held.symm.trans held')
    simp only [identifier?, node]

/-- Writing out one relation leaves the written ranges written. -/
theorem Written.joinByColumns (written : g.Written id) (isRange : (g.node id).isRange = true) :
    (g.joinByColumns range owner relation).Written id := by
  by_cases same : id = range
  · subst same
    exact written_joinByColumns isRange
  · have label := same_joinByColumns Node.slotless_label.toUnjoined g range owner relation
    constructor <;> intro join held <;> rw [join?_joinByColumns_of_ne isRange same] at held
    · exact label.has (written.has held)
    · rw [label.identifier?_eq (written.has held), written.other held]

/-- Writing out one relation leaves the others expandable. -/
theorem Expandable.joinByColumns (expandable : g.Expandable metadata id)
    (isRange : (g.node id).isRange = true) :
    (g.joinByColumns range owner relation).Expandable metadata id := by
  by_cases same : id = range
  · subst same
    exact (written_joinByColumns isRange).expandable
  · have label := same_joinByColumns Node.slotless_label.toUnjoined g range owner relation
    have entity : ∀ {other}, g.Has other →
        (g.joinByColumns range owner relation).entity? other = g.entity? other := fun has => by
      rw [entity?_eq, entity?_eq]
      exact (same_joinByColumns Node.formal_entity?.toUnjoined g range owner relation).node has
    constructor <;> intro join <;> rw [join?_joinByColumns_of_ne isRange same]
    · exact fun held => label.has (expandable.has held)
    · intro i held node
      have found := identifier?_eq node
      rw [label.identifier?_eq (expandable.has held)] at found
      obtain ⟨joins, declared⟩ := expandable.declared held (node_of_identifier? found)
      constructor
      · rw [← joins, joinRelation?, joinRelation?, join?_joinByColumns_of_ne isRange same, held,
          Option.bind_some, Option.bind_some, label.identifier?_eq (expandable.has held)]
      · have has : g.Has i.range := by
          by_contra absent
          simp [declaredRelation?, entity?, range?, node_of_not_has absent] at declared
        rwa [declaredRelation?, entity has, entity (has_of_isRange isRange), ← declaredRelation?]

end

/-- Writing out relations leaves the written ranges written. -/
theorem Written.expandJoins {ranges : List NodeId} (written : g.Written id)
    (isRange : (g.node id).isRange = true) (expanded : Bool) :
    (Graph.expandJoins metadata g ranges expanded).1.Written id := by
  induction ranges generalizing g expanded with
  | nil => exact written
  | cons range rest ih =>
    unfold Graph.expandJoins
    split
    · exact ih written isRange expanded
    · split
      · exact written
      · refine ih (written.joinByColumns isRange) ?_ true
        rwa [(same_joinByColumns Node.formal_stamp.toUnjoined ..).isRange (has_of_isRange isRange)]

/-- Writing out relations changes none of the other nodes. -/
theorem node_expandJoins_of_not_mem {ranges : List NodeId} (has : g.Has id) (out : id ∉ ranges)
    (expanded : Bool) : (expandJoins metadata g ranges expanded).1.node id = g.node id := by
  induction ranges generalizing g expanded with
  | nil => rfl
  | cons range rest ih =>
    simp only [List.mem_cons, not_or] at out
    unfold expandJoins
    split
    · exact ih has out.2 expanded
    · split
      · rfl
      · next declared _ =>
        rw [ih ((same_joinByColumns Node.slotless_label.toUnjoined ..).has has) out.2 true,
          node_joinByColumns_of_ne has out.1]

/-- Where all relations can be written out they are, and no bare one is left. -/
theorem written_expandJoins {ranges : List NodeId} (has : ∀ range ∈ ranges, g.Has range)
    (expandable : ∀ range ∈ ranges, (g.node range).isRange = true → g.Expandable metadata range)
    (expanded : Bool) :
    (∃ outcome, (expandJoins metadata g ranges expanded).2 = .ok outcome) ∧
      ∀ range ∈ ranges, (g.node range).isRange = true →
        (expandJoins metadata g ranges expanded).1.Written range := by
  induction ranges generalizing g expanded with
  | nil => exact ⟨⟨expanded, rfl⟩, by simp⟩
  | cons range rest ih =>
    have has' : ∀ other ∈ rest, g.Has other := fun other mem => has other (by simp [mem])
    have later : ∀ other ∈ rest, (g.node other).isRange = true → g.Expandable metadata other :=
      fun other mem => expandable other (by simp [mem])
    unfold expandJoins
    split
    · next none =>
      obtain ⟨done, written⟩ := ih has' later expanded
      refine ⟨done, fun other mem isRange => ?_⟩
      rcases List.mem_cons.mp mem with rfl | mem
      · have e := expandable other (by simp) isRange
        refine Written.expandJoins ⟨e.has, fun {join} held => ?_⟩ isRange expanded
        cases found : g.identifier? join with
        | none => rfl
        | some i =>
          rw [(e.declared held (node_of_identifier? found)).1] at none
          cases none
      · exact written other mem isRange
    · next relation joins =>
      obtain ⟨join, held, node⟩ := node_of_joinRelation? joins
      have isRange := isRange_of_join? held
      have e := expandable range (by simp) isRange
      obtain ⟨joins', some⟩ := e.declared held node
      split
      · next none =>
        rw [none] at some
        cases some
      · next declared _ =>
        have stamp := same_joinByColumns Node.formal_stamp.toUnjoined g range relation.range declared
        have later' : ∀ other ∈ rest,
            ((g.joinByColumns range relation.range declared).node other).isRange = true →
              (g.joinByColumns range relation.range declared).Expandable metadata other := by
          intro other mem isRange'
          rw [stamp.isRange (has' other mem)] at isRange'
          exact (later other mem isRange').joinByColumns isRange'
        obtain ⟨done, written⟩ := ih (fun other mem => stamp.has (has' other mem)) later' true
        refine ⟨done, fun other mem isRange' => ?_⟩
        have still := (stamp.isRange (has_of_isRange isRange')).trans isRange'
        rcases List.mem_cons.mp mem with rfl | mem
        · exact (written_joinByColumns isRange').expandJoins still true
        · exact written other mem still

section

variable {root : NodeId} (l : g.Linked root)
  (resolvable : ∀ range ∈ (g.node root).declared, g.Resolvable metadata root range)

include l

theorem Linked.has_join {join : NodeId} (below : g.Below root range)
    (held : g.join? range = some join) : g.Has join :=
  l.has_of_below (below.child (mem_children_of_join? held))

include resolvable

/-- Where the relations at the root are declared they are written out. -/
theorem Linked.written_of_resolvable :
    (∃ outcome, (expandJoins metadata g (g.node root).declared false).2 = .ok outcome) ∧
      ∀ range ∈ (g.node root).declared, (g.node range).isRange = true →
        (expandJoins metadata g (g.node root).declared false).1.Written range := by
  have below : ∀ range ∈ (g.node root).declared, g.Below root range := fun range mem =>
    below_of_child (declared_subset_children _ mem)
  refine written_expandJoins (fun range mem => l.has_of_below (below range mem)) ?_ false
  exact fun range mem _ => (resolvable range mem).expandable (l.has_join (below range mem))

/-- A bare relation that is left joins a range of another scope than the root, as it did. -/
theorem Linked.joinsByRelation_of_expandJoins
    (isScope : (expandJoins metadata g (g.node root).declared false).1.ScopeIn root scope)
    (mem : range ∈ ((expandJoins metadata g (g.node root).declared false).1.node scope).declared)
    (joins : (expandJoins metadata g (g.node root).declared false).1.JoinsByRelation range) :
    g.ScopeIn root scope ∧ scope ≠ root ∧ range ∈ (g.node scope).declared ∧
      g.JoinsByRelation range := by
  obtain ⟨join, i, held, node⟩ := joins
  have settled := (l.written_of_resolvable resolvable).2
  have others : g.Has range → range ∉ (g.node root).declared →
      (expandJoins metadata g (g.node root).declared false).1.node range = g.node range :=
    fun has out => node_expandJoins_of_not_mem has out false
  have label := same_expandJoins Node.slotless_label.toUnjoined g metadata (g.node root).declared false
  have same := SameScopes.of_unbound l fun view =>
    same_expandJoins view.toUnjoined g metadata (g.node root).declared false
  generalize (expandJoins metadata g (g.node root).declared false).1 = h at *
  have isScope' := (same.scopeIn_iff l).mp isScope
  have isRange := isRange_of_join? held
  have mem' := (same.declared isScope' isRange).mp mem
  have below := isScope'.reached.child (declared_subset_children _ mem')
  have has := l.has_of_below below
  have isRange' := (same.stamp.isRange has).symm.trans isRange
  have out : range ∉ (g.node root).declared := by
    intro atRoot
    have none := (settled range atRoot isRange').other held
    rw [identifier?_eq node] at none
    cases none
  have held' : g.join? range = some join := by
    rwa [join?, range?, others has out, ← range?, ← join?] at held
  refine ⟨isScope', ?_, mem', join, i, held', ?_⟩
  · rintro rfl
    exact out mem'
  · have found := identifier?_eq node
    rw [label.identifier?_eq (l.has_join below held')] at found
    exact node_of_identifier? found

end

/-- A graph without placeholders has no template to write out. -/
theorem Acyclic.expandRounds_of_plain {root : NodeId} (a : g.Acyclic root)
    (plain : ∀ id, g.Below root id → g.placeholder? id = none) (rounds : Nat) :
    expandRounds root rounds g false = (g, .ok false) := by
  have none : g.placeholders root = [] := by
    refine List.filterMap_eq_nil_iff.mpr fun id mem => ?_
    rw [descendants_eq, a.mem_preorder] at mem
    obtain ⟨trail, way, -⟩ := mem
    rw [plain id ⟨trail, way⟩, Option.map_none]
  cases rounds <;> simp only [expandRounds, none]

end Graph

open RangeQuery.Graph

theorem Query.fault?_of_validate {q : Query} {fault : QueryError}
    (checked : q.validate = .error fault) : q.fault? = some fault := by
  unfold validate at checked
  split at checked <;> simp_all

namespace Compiler

open Query

variable (c : Compiler) {q : Query}

/-- The passes refuse a query only for an ANY that is left. -/
theorem optimize_ne_unknownRelation (q : Query) (range relation : String) :
    (c.optimize q).2 ≠ .error (.unknownRelation range relation) := by
  unfold optimize Query.checkNoAny
  dsimp only
  split
  · split
    · simp
    · next refused =>
      intro same
      split at refused <;> cases refused
      cases same
  · simp

/-- If the relations that join ranges of the root are declared, and no range of another scope is
joined by a bare relation, a query without placeholders is not refused for a relation. -/
theorem compile_ne_unknownRelation (w : q.WellLinked)
    (plain : ∀ id, q.graph.Below q.root id → q.graph.placeholder? id = none)
    (resolvable : ∀ range ∈ (q.graph.node q.root).declared,
      q.graph.Resolvable c.metadata q.root range)
    (written : ∀ scope ∈ q.scopes, scope ≠ q.root →
      ∀ range ∈ (q.graph.node scope).declared, ¬ q.graph.JoinsByRelation range)
    (range relation : String) :
    (c.compile q).2 ≠ .error (.unknownRelation range relation) := by
  have l := w.tree
  intro refused
  have templates := (l.acyclic (.refl _ _)).expandRounds_of_plain plain maxTemplateRounds
  by_cases isRetrieve : (q.graph.node q.root).isRetrieve = true
  · have ranges : q.clauses.ranges = (q.graph.node q.root).declared := ranges_scope isRetrieve
    obtain ⟨outcome, done⟩ := (l.written_of_resolvable resolvable).1
    simp only [compile, Query.expandTemplates, templates, Query.expandRelations, ranges, done,
      checkAndOptimize] at refused
    split at refused
    · exact c.optimize_ne_unknownRelation _ _ _ refused
    · next fault checked =>
      obtain rfl := Except.error.inj refused
      have stamp := same_expandJoins Node.formal_stamp.toUnjoined q.graph c.metadata
        (q.graph.node q.root).declared false
      have isRoot := ScopeIn.root ((stamp.isRetrieve l.has).trans isRetrieve)
      obtain ⟨scope, isScope, broken⟩ := exists_breaks_of_faultWithin? isRoot (by simp)
        (fault?_of_validate checked)
      cases broken with
      | unknownRelation mem source held node =>
        obtain ⟨isScope', ne, mem', joins⟩ := l.joinsByRelation_of_expandJoins resolvable isScope mem
          ⟨_, _, (join?_eq source).trans held, node⟩
        exact written scope ((mem_scopes_iff l).mpr isScope') ne _ mem' joins
  · have ranges : q.clauses.ranges = [] := by
      cases node : q.graph.node q.root <;>
        simp_all [Query.clauses, Graph.scope, Retrieve.empty, Node.isRetrieve]
    simp only [compile, Query.expandTemplates, templates, Query.expandRelations, ranges,
      expandJoins, checkAndOptimize] at refused
    split at refused
    · exact c.optimize_ne_unknownRelation _ _ _ refused
    · next fault checked =>
      obtain rfl := Except.error.inj refused
      cases noScope_of_faultWithin? (by simpa using isRetrieve) (fault?_of_validate checked)

end Compiler

/-- The names of products, beside the customers of orders: `range o = Order; range c = Customer via
o.customer; range t = (range p = Product; retrieve (p.name)); retrieve (c.name)`. -/
def customersOfOrders : Query where
  graph := ⟨#[
    ⟨.range { name := "o", entity := some "Order", join := none, required := false
              included := true, nested := none }, some ⟨10⟩⟩,
    ⟨.range { name := "c", entity := some "Customer", join := some ⟨2⟩, required := false
              included := true, nested := none }, some ⟨10⟩⟩,
    ⟨.identifier { range := ⟨0⟩, path := ["customer"] }, some ⟨1⟩⟩,
    ⟨.range { name := "p", entity := some "Product", join := none, required := false
              included := true, nested := none }, some ⟨6⟩⟩,
    ⟨.identifier { range := ⟨3⟩, path := ["name"] }, some ⟨5⟩⟩,
    ⟨.projection { name := "name", expression := ⟨4⟩, visible := true }, some ⟨6⟩⟩,
    ⟨.retrieve { Retrieve.empty with ranges := [⟨3⟩], values := [⟨5⟩] }, some ⟨7⟩⟩,
    ⟨.range { name := "t", entity := none, join := none, required := false
              included := true, nested := some ⟨6⟩ }, some ⟨10⟩⟩,
    ⟨.identifier { range := ⟨1⟩, path := ["name"] }, some ⟨9⟩⟩,
    ⟨.projection { name := "name", expression := ⟨8⟩, visible := true }, some ⟨10⟩⟩,
    ⟨.retrieve { Retrieve.empty with ranges := [⟨0⟩, ⟨1⟩, ⟨7⟩], values := [⟨9⟩] }, none⟩]⟩
  root := ⟨10⟩

theorem wellLinked_customersOfOrders : customersOfOrders.WellLinked := by
  have order : InOrder customersOfOrders.root [] [] customersOfOrders.graph := by
    refine ⟨fun top mem => ?_, by decide, by simp⟩
    obtain rfl := List.mem_singleton.mp mem
    exact .of_closed [⟨0⟩, ⟨1⟩, ⟨2⟩, ⟨3⟩, ⟨4⟩, ⟨5⟩, ⟨6⟩, ⟨7⟩, ⟨8⟩, ⟨9⟩, ⟨10⟩] (by decide)
      (by decide) (by decide) (by decide) (by decide)
  exact Query.wellLinked_of_inOrder order (by decide)

/-- A compiler that knows the customer of an order. -/
def orderCompiler : Compiler where
  metadata := {
    relations := fun entity => if entity = "Order" then
      [{ kind := .manyToOne, property := "customer", targetEntity := "Customer"
         relationColumn := "customerId", inversedBy := "id", required := false }] else []
    nullable := fun _ _ => true }
  settings := .defaults
  strategy := keepInScope

theorem compile_ne_unknownRelation_customersOfOrders :
    (customersOfOrders.WellLinked ∧
      (∀ id, customersOfOrders.graph.Below customersOfOrders.root id →
        customersOfOrders.graph.placeholder? id = none) ∧
      (∀ range ∈ (customersOfOrders.graph.node customersOfOrders.root).declared,
        customersOfOrders.graph.Resolvable orderCompiler.metadata customersOfOrders.root range) ∧
      ∀ scope ∈ customersOfOrders.scopes, scope ≠ customersOfOrders.root →
        ∀ range ∈ (customersOfOrders.graph.node scope).declared,
          ¬ customersOfOrders.graph.JoinsByRelation range) ∧
    customersOfOrders.graph.JoinsByRelation ⟨1⟩ ∧
    (orderCompiler.compile customersOfOrders).2 ≠ .error (.unknownRelation "c" "o.customer") := by
  have plain : ∀ id, customersOfOrders.graph.Below customersOfOrders.root id →
      customersOfOrders.graph.placeholder? id = none := by
    intro id below
    have each : ∀ index < customersOfOrders.graph.size,
        customersOfOrders.graph.placeholder? ⟨index⟩ = none := by decide
    exact each id.index (wellLinked_customersOfOrders.tree.has_of_below below)
  have resolvable : ∀ range ∈ (customersOfOrders.graph.node customersOfOrders.root).declared,
      customersOfOrders.graph.Resolvable orderCompiler.metadata customersOfOrders.root range := by
    have declared : (customersOfOrders.graph.node customersOfOrders.root).declared =
        [⟨0⟩, ⟨1⟩, ⟨7⟩] := rfl
    intro range mem join i held node
    rw [declared] at mem
    rcases List.mem_cons.mp mem with rfl | mem
    · cases held
    rcases List.mem_cons.mp mem with rfl | mem
    · obtain rfl := Option.some.inj held
      obtain rfl := Node.identifier.inj node
      exact ⟨by decide, by decide, rfl, "Order", "Customer", rfl, rfl, _, List.mem_singleton_self _,
        rfl, rfl⟩
    · obtain rfl := List.mem_singleton.mp mem
      cases held
  have written : ∀ scope ∈ customersOfOrders.scopes, scope ≠ customersOfOrders.root →
      ∀ range ∈ (customersOfOrders.graph.node scope).declared,
        ¬ customersOfOrders.graph.JoinsByRelation range := by
    have scopes : customersOfOrders.scopes = [⟨6⟩, ⟨10⟩] := by decide
    intro scope mem ne range declared
    rw [scopes] at mem
    have inner : scope = ⟨6⟩ := by
      rcases List.mem_cons.mp mem with rfl | mem
      · rfl
      · exact absurd (List.mem_singleton.mp mem) ne
    subst inner
    obtain rfl : range = ⟨3⟩ := List.mem_singleton.mp declared
    rintro ⟨join, i, held, -⟩
    cases held
  exact ⟨⟨wellLinked_customersOfOrders, plain, resolvable, written⟩, ⟨⟨2⟩, _, rfl, rfl⟩,
    orderCompiler.compile_ne_unknownRelation wellLinked_customersOfOrders plain resolvable written _ _⟩

end RangeQuery
