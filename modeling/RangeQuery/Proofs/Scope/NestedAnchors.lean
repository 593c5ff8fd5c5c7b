import RangeQuery.Proofs.Scope.AnchorCount
import RangeQuery.Proofs.Scope.BoundCopies

/-!
Scopes that start with an anchor at every depth: queries, and the subqueries in expressions. A copy
of one starts with an anchor, too; and what is done to the copies for a subquery changes the join
predicates of the outermost ones only, which nothing declares yet.
-/

namespace RangeQuery

/-- The two kinds of scopes: a query, and a subquery in an expression. -/
inductive ScopeKind where
  | query | subquery
deriving DecidableEq

/-- The range that a scope of a kind declares first, if it declares any; other nodes have no lead.
-/
def ScopeKind.lead : ScopeKind → Node → Option (Option NodeId)
  | .query, .retrieve r => some r.ranges.head?
  | .subquery, .subquery s => some s.ranges.head?
  | _, _ => none

namespace ScopeKind

variable {kind : ScopeKind}

theorem unbound_lead : Unbound kind.lead where
  join _ _ := by cases kind <;> rfl
  required _ _ := by cases kind <;> rfl
  window _ _ := by cases kind <;> rfl
  condition {node _ _} h := by
    cases node <;> simp only [Node.withCondition?, Option.some.injEq, reduceCtorEq] at h <;>
      subst h <;> cases kind <;> rfl
  range _ _ := by cases kind <;> rfl
  included _ _ := by cases kind <;> rfl

theorem lead_aggregate (a : Aggregate) : kind.lead (.aggregate a) = none := by
  cases kind <;> rfl

theorem lead_of_not_opensScope {node : Node} (closed : node.opensScope = false) :
    kind.lead node = none := by
  cases node <;> cases kind <;> simp_all [lead, Node.opensScope, Node.ranges?]

theorem lead_withTemplateBodies (node : Node) (bodies : List NodeId) :
    kind.lead (node.withTemplateBodies bodies) = kind.lead node := by
  cases node <;> cases kind <;> rfl

theorem declared_of_lead {node : Node} {head : Option NodeId} (leads : head ∈ kind.lead node) :
    head = node.declared.head? := by
  cases kind <;> cases node <;> simp_all [lead, Node.declared, Node.ranges?]

theorem mem_children_of_lead {node : Node} {first : NodeId} (leads : some first ∈ kind.lead node) :
    first ∈ node.children :=
  Graph.declared_subset_children _ (List.mem_of_mem_head? (declared_of_lead leads).symm)

theorem eq_query_of_isRetrieve {node : Node} {head : Option NodeId}
    (isRetrieve : node.isRetrieve = true) (leads : head ∈ kind.lead node) : kind = .query := by
  cases kind <;> cases node <;> simp_all [lead, Node.isRetrieve]

/-- What a scope with other children declares first hangs where its first range hung. -/
theorem lead_withChildren {node : Node} {handles : List NodeId} {head : Option NodeId}
    (leads : head ∈ kind.lead (node.withChildren handles))
    (length : handles.length = node.children.length) :
    (head = none ∧ none ∈ kind.lead node) ∨ ∃ first rest,
      some first ∈ kind.lead node ∧ node.children = first :: rest ∧ head = handles.head? := by
  cases node with
  | retrieve r =>
    obtain ⟨ranges, _⟩ := r
    cases kind <;> cases ranges <;> cases handles <;>
      simp_all [lead, Node.withChildren, Retrieve.withChildren, Node.children]
  | subquery s =>
    obtain ⟨_, ranges, _⟩ := s
    cases kind <;> cases ranges <;> cases handles <;>
      simp_all [lead, Node.withChildren, Subquery.withChildren, Node.children]
  | _ => cases kind <;> cases leads

/-- What is declared first after a swap of children was so before, unless it was swapped in. -/
theorem lead_replace {node : Node} {old new : NodeId} {head : Option NodeId}
    (leads : head ∈ kind.lead (node.withChildren (node.children.replace old new))) :
    head ∈ kind.lead node ∨ some old ∈ kind.lead node := by
  rcases lead_withChildren leads (by simp) with ⟨rfl, none⟩ | ⟨first, rest, before, slots, rfl⟩
  · exact .inl none
  · by_cases same : old = first
    · exact .inr (same ▸ before)
    · left
      have apart : (old == first) = false := by simpa using same
      rw [slots, List.replace_cons, apart]
      exact before

end ScopeKind

namespace Graph

variable {g h : Graph} {kind : ScopeKind} {root top id : NodeId}

theorem has_of_startsJoin (starts : (g.node id).startsJoin = true) : g.Has id :=
  has_of_isRange (Node.isRange_of_startsJoin starts)

theorem Same.startsJoin (same : Same Node.startsJoin g h) {id : NodeId}
    (starts : (g.node id).startsJoin = true) : (h.node id).startsJoin = true :=
  (same.node (has_of_startsJoin starts)).trans starts

/-- A node, if it is a scope of a kind, starts with an anchor; only a query may declare nothing. -/
def Begins (g : Graph) (kind : ScopeKind) (id : NodeId) : Prop :=
  ∀ head ∈ kind.lead (g.node id),
    (head = none → kind = .query) ∧ ∀ first ∈ head, (g.node first).startsJoin = true

instance : Decidable (g.Begins kind id) :=
  inferInstanceAs <| Decidable <| ∀ head ∈ kind.lead (g.node id),
    (head = none → kind = .query) ∧ ∀ first ∈ head, (g.node first).startsJoin = true

theorem startsWithAnchor_iff_begins : g.StartsWithAnchor id ↔ g.Begins .query id := by
  by_cases isRetrieve : (g.node id).isRetrieve = true
  · rw [startsWithAnchor_iff isRetrieve]
    cases node : g.node id <;>
      simp_all [Node.isRetrieve, Node.declared, Node.ranges?, Begins, ScopeKind.lead]
  · have none : (g.scope id).ranges = [] := by
      cases node : g.node id <;> simp_all [Node.isRetrieve, Graph.scope, Retrieve.empty]
    rw [StartsWithAnchor, none]
    cases node : g.node id <;> simp_all [Node.isRetrieve, Begins, ScopeKind.lead]

theorem begins_of_lead_eq_none (other : kind.lead (g.node id) = none) : g.Begins kind id := by
  simp [Begins, other]

theorem begins_of_not_opensScope (closed : (g.node id).opensScope = false) : g.Begins kind id :=
  begins_of_lead_eq_none (ScopeKind.lead_of_not_opensScope closed)

namespace Begins

/-- A scope goes on starting with an anchor where it goes on declaring it first. -/
theorem kept (begins : g.Begins kind id) (lead : kind.lead (h.node id) = kind.lead (g.node id))
    (same : ∀ first, some first ∈ kind.lead (g.node id) → (g.node first).startsJoin = true →
      (h.node first).startsJoin = true) : h.Begins kind id := by
  intro head leads
  rw [lead] at leads
  obtain ⟨bare, starts⟩ := begins head leads
  exact ⟨bare, fun first is => same first (is ▸ leads) (starts first is)⟩

theorem after (begins : g.Begins kind id) (has : g.Has id) (leads : Same kind.lead g h)
    (joins : Same Node.startsJoin g h) : h.Begins kind id :=
  begins.kept (leads.node has) fun _ _ => joins.startsJoin

/-- A swap for what is no anchor leaves a scope starting with one. -/
theorem replace (begins : g.Begins kind id) (has : g.Has id) {old : NodeId}
    (none : (g.node old).startsJoin = false) (new : NodeId) :
    (g.replace old new).1.Begins kind id := by
  intro head leads
  have before : head ∈ kind.lead (g.node id) := by
    rcases node_replace_or has old new with same | same
    · rwa [same] at leads
    · rw [same] at leads
      refine (ScopeKind.lead_replace leads).resolve_right fun isOld => ?_
      rw [(begins _ isOld).2 old rfl] at none
      cases none
  obtain ⟨bare, starts⟩ := begins head before
  refine ⟨bare, fun first is => ?_⟩
  rw [(Node.seated_startsJoin.replace g old new).node (has_of_startsJoin (starts first is)),
    starts first is]

end Begins

/-- Every scope of a kind below a node starts with an anchor. -/
def Led (g : Graph) (kind : ScopeKind) (top : NodeId) : Prop :=
  ∀ id, g.Below top id → g.Begins kind id

theorem Led.lower (led : g.Led kind top) (below : g.Below top id) : g.Led kind id :=
  fun other further => led other (below.trans further)

theorem Led.beside (led : g.Led kind top) (e : Extends g h) (grounded : g.Grounded top) :
    h.Led kind top := by
  intro id below
  have below' := (e.below_iff grounded).mp below
  exact (led id below').after (grounded id below') e.same e.same

/-- Every query below a node that declares ranges starts with an anchor. -/
def Headed (g : Graph) (top : NodeId) : Prop := ∀ id, g.Below top id → g.StartsWithAnchor id

theorem headed_iff_led : g.Headed top ↔ g.Led .query top :=
  forall₂_congr fun _ _ => startsWithAnchor_iff_begins

/-! ## Copies -/

namespace Copies

variable {depth : Nat} {copy : NodeId}

theorem startsJoin (c : Copies g h (depth + 1) id copy) :
    (h.node copy).startsJoin = (g.node id).startsJoin := by
  obtain ⟨⟨bodies, node⟩, -⟩ := c
  have same : ∀ node : Node, (node.withTemplateBodies bodies).startsJoin = node.startsJoin :=
    fun node => by cases node <;> rfl
  rw [node, same, Node.seated_startsJoin.children]

/-- What a copy declares first is a copy of what the copied scope declares first. -/
theorem lead (c : Copies g h (depth + 1) id copy) {head : Option NodeId}
    (leads : head ∈ kind.lead (h.node copy)) :
    (head = none ∧ none ∈ kind.lead (g.node id)) ∨ ∃ before first,
      some before ∈ kind.lead (g.node id) ∧ head = some first ∧ Copies g h depth before first := by
  obtain ⟨⟨bodies, node⟩, each⟩ := c
  rw [node, ScopeKind.lead_withTemplateBodies] at leads
  rcases ScopeKind.lead_withChildren leads each.length_eq.symm with
    none | ⟨before, rest, isBefore, slots, rfl⟩
  · exact .inl none
  · rw [children, slots] at each
    generalize h.children copy = handles at each
    cases each with
    | cons same _ => exact .inr ⟨before, _, isBefore, rfl, same⟩

end Copies

/-- Every scope in a copy starts with an anchor, if those below the copied node do. -/
theorem Led.copyWith (led : g.Led kind root) (l : g.Linked top) (above : g.Below top root)
    (names : Renaming) : (g.copyWith root names).1.Led kind (g.copyWith root names).2 := by
  obtain ⟨draft, names', drafted, same⟩ := g.copyWith_eq root names
  rw [same]
  intro id below
  obtain ⟨trail, way⟩ := (Relabels.rebind ..).below.mp below
  obtain ⟨origin, trail', way', -, copies, each⟩ := (drafted.copies (l.grounded above)).source way
  obtain ⟨front, start⟩ := above
  intro head leads
  rw [(ScopeKind.unbound_lead.rebind draft _ names').node (drafted.linked.has_of_below ⟨trail, way⟩)]
    at leads
  -- The copy goes deep enough to hold what the scope declares.
  have deep : ∀ {trail id}, g.Trail root trail id → trail.length < g.size := fun way => by
    have short := l.length_trail_lt (start.append way)
    rw [List.length_append] at short
    omega
  have length := each.length_eq
  obtain ⟨rest, left⟩ : ∃ rest, g.size - trail.length = rest + 1 :=
    Nat.exists_eq_add_one_of_ne_zero (by have := deep way'; omega)
  rw [left] at copies
  have begins := led origin ⟨trail', way'⟩
  rcases copies.lead leads with ⟨rfl, none⟩ | ⟨before, first, isBefore, rfl, copied⟩
  · exact ⟨(begins _ none).1, by simp⟩
  · refine ⟨by simp, fun other is => ?_⟩
    obtain rfl := Option.some.inj is
    have way'' := way'.down (ScopeKind.mem_children_of_lead isBefore)
    obtain ⟨rest, rfl⟩ : ∃ deeper, rest = deeper + 1 :=
      Nat.exists_eq_add_one_of_ne_zero (by
        have := deep way''
        rw [List.length_cons] at this
        omega)
    have starts := copied.startsJoin.trans ((begins _ isBefore).2 before rfl)
    exact ((Same.rebind_of_ranges Node.isRange_of_startsJoin draft _ names').node
      (has_of_startsJoin starts)).trans starts

/-- Every scope in the copies of some ranges starts with an anchor, if those below the ranges do. -/
theorem Led.copyRanges (led : g.Led kind top) (l : g.Linked top) {ids : List NodeId}
    (above : ∀ id ∈ ids, g.Below top id) :
    ∀ copy ∈ (g.copyRanges ids).2.map (·.2), (g.copyRanges ids).1.Led kind copy := by
  induction ids generalizing g with
  | nil => simp [Graph.copyRanges]
  | cons first rest ih =>
    have forest := g.forest_copyWith first .empty
    have others := (g.copyWith first .empty).1.forest_copyRanges rest
    have tree := forest.linked _ (List.mem_singleton_self _)
    have below := above first (by simp)
    intro copy mem
    rcases List.mem_cons.mp mem with rfl | mem
    · exact ((led.lower below).copyWith l below .empty).beside others.beside
        (tree.grounded (Below.refl _ _))
    · have grounded := l.grounded (Below.refl g top)
      exact ih (led.beside forest.beside grounded) (forest.beside.linked l)
        (fun other later => (forest.beside.below_iff grounded).mpr (above other (by simp [later])))
        copy mem

/-! ## The copies for a subquery -/

theorem node_splitJoins_of_not_mem (live : List String) {copies : List NodeId} (has : g.Has id)
    (other : id ∉ copies) : (splitJoins live g copies).1.node id = g.node id := by
  induction copies generalizing g with
  | nil => rfl
  | cons copy rest ih =>
    obtain ⟨ne, later⟩ := not_or.mp (mt List.mem_cons.mpr other)
    have split := Same.split? (fun node : Node => node) g live (g.join? copy)
    refine (ih ?_ later).trans ((node_setJoin_of_ne _ ne _).trans (split.node has))
    rw [Has, size_setJoin]
    exact split.has has

theorem node_withAnchor_of_not_mem {ranges : List NodeId} (has : g.Has id) (other : id ∉ ranges)
    (condition : Option NodeId) (usage : RangeUsage) :
    (g.withAnchor ranges condition usage).1.node id = g.node id := by
  rcases g.withAnchor_cases ranges condition usage with same | ⟨anchor, mem, same⟩
  · rw [same]
  · rw [same]
    exact node_promote_of_ne has (fun is => other (is ▸ mem)) condition

section

variable {live : List NodeId} {condition : Option NodeId} {usage : RangeUsage} {zone : Set NodeId}
  {level : NodeId → List NodeId}

/-- Splitting the join predicates of the copied ranges leaves all other ranges. -/
theorem node_splitCopies_of_not_mem (isRange : ((g.copyRanges live).1.node id).isRange = true)
    (other : id ∉ g.liveCopies live) :
    (g.splitCopies live).1.node id = (g.copyRanges live).1.node id := by
  have r := Relabels.rebindJoins (g.copyRanges live).1 (g.copyOf live) (g.liveCopies live)
  rw [splitCopies, node_splitJoins_of_not_mem _ (r.has.mpr (has_of_isRange isRange)) other,
    node_rebindJoins_of_isRange _ _ isRange]

/-- What follows the copied condition leaves all but the copied ranges. -/
theorem node_built_of_not_mem (has : (g.ownCopied live condition).1.Has id)
    (other : id ∉ g.liveCopies live) :
    (g.built live condition usage).1.node id = (g.ownCopied live condition).1.node id := by
  have joined := Same.conjoin (fun node : Node => node) (g.ownCopied live condition).1
    ((g.ownCopied live condition).2.toList ++ (g.splitCopies live).2)
  exact (node_withAnchor_of_not_mem (joined.has has) other _ usage).trans (joined.node has)

/-- The scopes in a copied condition start with anchors, if those in the condition do. -/
theorem Led.ownCopied (led : g.Led kind top) (l : g.Linked top) {filter own : NodeId}
    (above : g.Below top filter) (is : (g.ownCopied live (some filter)).2 = some own) :
    (g.ownCopied live (some filter)).1.Led kind own := by
  obtain rfl := Option.some.inj is
  have beside := (Sealed.splitCopies g live).1.toExtends
  have grounded := l.grounded (Below.refl g top)
  have within := (beside.below_iff grounded).mpr above
  exact ((led.beside beside grounded).lower within).copyWith (beside.linked l) within _

/-- The scopes within what is built from copies start with anchors, if those that the copies are
made of do. -/
theorem Built.begins (b : Built g live condition usage zone level) (l : g.Linked top)
    (led : g.Led kind top) (above : ∀ id ∈ live ++ condition.toList, g.Below top id)
    (mem : id ∈ zone) : (g.built live condition usage).1.Begins kind id := by
  have forest := g.forest_copyRanges live
  have beside := g.beside_ownCopied live condition
  by_cases has : (g.copyRanges live).1.Has id
  · obtain ⟨copy, isCopy, trail, way, -⟩ := b.ofRange mem has
    have starts := led.copyRanges l (fun id mem => above id (by simp [mem])) copy isCopy id
      ⟨trail, way⟩
    have leads : Same kind.lead (g.copyRanges live).1 (g.built live condition usage).1 :=
      (same_splitCopies ScopeKind.unbound_lead g live).trans
        (beside.same.trans (same_built ScopeKind.unbound_lead.toRigid g live condition usage))
    refine starts.kept (leads.node has) fun first leads starts => ?_
    -- What a query declares has an owner, which a copied range has not.
    have other : first ∉ g.liveCopies live := fun isCopy' => by
      have owned := (forest.linked copy isCopy).parent_child ⟨trail, way⟩
        (ScopeKind.mem_children_of_lead leads)
      rw [(forest.linked first isCopy').parent_root] at owned
      cases owned
    have split := node_splitCopies_of_not_mem (Node.isRange_of_startsJoin starts) other
    have has' := has_of_startsJoin (split ▸ starts)
    rw [node_built_of_not_mem (beside.has has') other, beside.node has', split, starts]
  · rcases b.ofCondition mem has with glue | ⟨own, is, trail, way, -, -⟩
    · refine begins_of_not_opensScope ?_
      cases node : (g.built live condition usage).1.node id <;>
        simp_all [Node.isGlue, Node.opensScope, Node.ranges?]
    · cases condition with
      | none => cases is
      | some filter =>
        have tree := forest_ownCopied is
        have starts := led.ownCopied l (above filter (by simp)) is id ⟨trail, way⟩
        have has' := (tree.linked own (List.mem_singleton_self _)).has_of_below ⟨trail, way⟩
        have leads : Same kind.lead _ _ :=
          same_built ScopeKind.unbound_lead.toRigid g live (some filter) usage
        refine starts.kept (leads.node has') fun first leads starts => ?_
        have other : first ∉ g.liveCopies live := fun isCopy => by
          have below := Below.child ⟨trail, way⟩ (ScopeKind.mem_children_of_lead leads)
          refine tree.fresh own (List.mem_singleton_self _) below ?_
          exact (same_splitCopies Node.unbound_declared g live).has (forest.linked first isCopy).has
        rw [node_built_of_not_mem (has_of_startsJoin starts) other]
        exact starts

theorem Correlated.begins {metadata : Metadata} {ranges : List NodeId}
    {expression : NodeId} {sub : CorrelatedScope}
    (c : Correlated g metadata ranges expression condition h sub zone level) (l : g.Linked top)
    (led : g.Led kind top) (above : ∀ id ∈ ranges ++ condition.toList, g.Below top id)
    (mem : id ∈ zone) : h.Begins kind id := by
  have among : ∀ id ∈ g.liveFor metadata ranges expression condition, id ∈ ranges :=
    fun _ mem => mem_of_mem_liveFor mem
  rw [c.graph_eq]
  refine c.built.begins l led (fun id mem => above id ?_) mem
  exact (List.mem_append.mp mem).elim (fun mem => List.mem_append_left _ (among id mem))
    (List.mem_append_right _)

/-- A correlated scope over included ranges starts with an anchor. -/
theorem Correlated.exists_first {metadata : Metadata} {ranges : List NodeId}
    {expression : NodeId} {sub : CorrelatedScope}
    (c : Correlated g metadata ranges expression condition h sub zone level)
    (included : ∀ id ∈ ranges, (g.node id).isIncluded = true) :
    ∃ first rest, sub.ranges = first :: rest ∧ (h.node first).startsJoin = true := by
  obtain ⟨first, rest, declared, anchor⟩ := c.anchored
  have among : ∀ id ∈ g.liveFor metadata ranges expression condition, id ∈ ranges :=
    fun _ mem => mem_of_mem_liveFor mem
  have isRange : ∀ id ∈ g.liveFor metadata ranges expression condition,
      (g.node id).isRange = true := fun id mem =>
    Node.isRange_of_isIncluded (included id (among id mem))
  have copied : first ∈ g.liveCopies (g.liveFor metadata ranges expression condition) :=
    ((c.ranges_perm.trans
      (perm_fst_withAnchor (g.forest_copyRanges _).nodup _ _)).mem_iff).mp (by simp [declared])
  obtain ⟨⟨old, first⟩, pair, rfl⟩ := List.mem_map.mp copied
  obtain ⟨live, -, label⟩ := copyRanges_pairs isRange _ pair
  have marked : (h.node first).isIncluded = true := by
    have copy : ((g.copyRanges (g.liveFor metadata ranges expression condition)).1.node
        first).isRange = true := by
      rw [← Node.isRange_label, label, Node.isRange_label, isRange old live]
    rw [c.graph_eq, ← Node.isIncluded_label]
    refine (congrArg Node.isIncluded (label_built_of_isRange condition _ copy)).trans ?_
    rw [label, Node.isIncluded_label, included old (among old live)]
  refine ⟨first, rest, declared, ?_⟩
  cases node : h.node first <;>
    simp_all [Graph.isAnchor, range?, Node.isIncluded, Node.startsJoin]

theorem Valued.begins {metadata : Metadata} {ranges : List NodeId} {a : Aggregate}
    {sub : CorrelatedScope} {k : Graph} {value : NodeId}
    (v : Valued g metadata ranges a h sub zone level k value) (l : g.Linked top)
    (led : g.Led kind top) (above : ∀ id ∈ ranges ++ a.condition.toList, g.Below top id) (operand : g.Below top a.operand)
    (mem : id ∈ insert value (zone ∪
      {id | (h.copyWith a.operand sub.copies).1.Below (h.copyWith a.operand sub.copies).2 id})) :
    k.Begins kind id := by
  have beside := v.correlated.beside
  have tree := h.forest_copyWith a.operand sub.copies
  rw [v.graph_eq]
  rcases mem with rfl | mem | below
  · refine begins_of_not_opensScope ?_
    rw [v.value_eq, node_add_next]
    rfl
  · have starts := v.correlated.begins l led above mem
    have has := v.correlated.inOrder.has mem
    exact (starts.after has tree.beside.same tree.beside.same).after (tree.beside.has has)
      (.add _ _ _) (.add _ _ _)
  · have grounded := l.grounded (Below.refl g top)
    have within := (beside.below_iff grounded).mpr operand
    have starts := ((led.beside beside grounded).lower within).copyWith (beside.linked l) within
      sub.copies id below
    exact starts.after ((tree.linked _ (List.mem_singleton_self _)).has_of_below below)
      (.add _ _ _) (.add _ _ _)

theorem Valued.exists_first {metadata : Metadata} {ranges : List NodeId} {a : Aggregate}
    {sub : CorrelatedScope} {k : Graph} {value : NodeId}
    (v : Valued g metadata ranges a h sub zone level k value)
    (included : ∀ id ∈ ranges, (g.node id).isIncluded = true) :
    ∃ first rest, sub.ranges = first :: rest ∧ (k.node first).startsJoin = true := by
  obtain ⟨first, rest, declared, starts⟩ := v.correlated.exists_first included
  refine ⟨first, rest, declared, ?_⟩
  rw [v.graph_eq]
  have copied := (h.forest_copyWith a.operand sub.copies).beside
  exact (Same.add _ _ _).startsJoin (copied.same.startsJoin starts)

end

end Graph

end RangeQuery
