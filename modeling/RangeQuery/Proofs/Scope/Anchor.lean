import RangeQuery.Pass.Basic
import RangeQuery.Proofs.Scope.Reshaping

/-!
Giving a scope an anchor. The join predicate of the new anchor moves into the filter of the same
scope, and the declared ranges are put into another order.
-/

namespace RangeQuery

namespace Graph

variable {g : Graph}

theorem mem_of_anchorCandidate? {usage : RangeUsage} {ranges : List NodeId} {anchor : NodeId}
    (h : g.anchorCandidate? usage ranges = some anchor) : anchor ∈ ranges := by
  simp only [anchorCandidate?, Option.or_eq_some_iff] at h
  rcases h with found | ⟨-, found | ⟨-, found⟩⟩ <;> exact List.mem_of_find?_eq_some found

/-- Either nothing changes, or a range of the list is promoted and put in front. -/
theorem withAnchor_cases (g : Graph) (ranges : List NodeId) (condition : Option NodeId)
    (usage : RangeUsage) :
    g.withAnchor ranges condition usage = (g, ranges, condition) ∨
      ∃ anchor ∈ ranges, g.withAnchor ranges condition usage =
        ((g.promote anchor condition).1, anchorFirst ranges anchor,
          (g.promote anchor condition).2) := by
  unfold withAnchor
  split
  · exact .inl rfl
  · split
    · exact .inl rfl
    · next anchor found => exact .inr ⟨anchor, mem_of_anchorCandidate? found, rfl⟩

theorem mem_anchorFirst {ranges : List NodeId} {anchor id : NodeId} (mem : anchor ∈ ranges) :
    id ∈ anchorFirst ranges anchor ↔ id ∈ ranges := by
  simp only [anchorFirst, List.mem_cons, List.mem_filter, decide_eq_true_eq]
  constructor
  · rintro (rfl | ⟨within, -⟩)
    · exact mem
    · exact within
  · intro within
    by_cases same : id = anchor
    · exact .inl same
    · exact .inr ⟨within, same⟩

theorem anchorFirst_eq_erase {ranges : List NodeId} (nodup : ranges.Nodup) (anchor : NodeId) :
    anchorFirst ranges anchor = anchor :: ranges.erase anchor := by
  rw [anchorFirst, nodup.erase_eq_filter]
  congr 1
  exact List.filter_congr fun id _ => by by_cases same : id = anchor <;> simp [same]

theorem perm_anchorFirst {ranges : List NodeId} {anchor : NodeId} (nodup : ranges.Nodup)
    (mem : anchor ∈ ranges) : (anchorFirst ranges anchor).Perm ranges := by
  rw [anchorFirst_eq_erase nodup]
  exact (List.perm_cons_erase mem).symm

end Graph

open RangeQuery.Graph

namespace Rigid

variable {α : Type} {view : Node → α} (rigid : Rigid view)

include rigid

theorem promote (g : Graph) (anchor : NodeId) (condition : Option NodeId) :
    Same view g (g.promote anchor condition).1 := by
  unfold Graph.promote
  split
  · exact ((rigid.setJoin g _ _).trans (.conjoinWith view _ _ _)).trans (rigid.setRequired _ _ _)
  · exact rigid.setRequired g anchor true

theorem withAnchor (g : Graph) (ranges : List NodeId) (condition : Option NodeId)
    (usage : RangeUsage) : Same view g (g.withAnchor ranges condition usage).1 := by
  rcases g.withAnchor_cases ranges condition usage with same | ⟨anchor, -, same⟩
  · rw [same]
    exact .refl view g
  · rw [same]
    exact rigid.promote g anchor condition

theorem addAnchor (g : Graph) (metadata : Metadata) (scope : NodeId) :
    Same view g (g.addAnchor metadata scope).1 := by
  unfold Graph.addAnchor
  dsimp only
  split
  · exact .refl view g
  · split
    · exact rigid.withAnchor ..
    · exact (rigid.withAnchor ..).trans (rigid.setCondition _ _ _)

end Rigid

theorem Placed.putAnchorFirst {α : Type} {view : Node → α} (placed : Placed view) (g : Graph)
    (scope : NodeId) : Same view g (g.putAnchorFirst scope).1 := by
  unfold Graph.putAnchorFirst
  split
  · exact .refl view g
  · dsimp only
    split
    · exact .refl view g
    · exact placed.setRanges g scope _

theorem Slotless.normalizeAnchor {α : Type} {view : Node → α} (slotless : Slotless view) (g : Graph)
    (metadata : Metadata) (scope : NodeId) :
    Same view g (g.normalizeAnchor metadata scope).1 := by
  unfold Graph.normalizeAnchor
  split
  · exact .refl view g
  · exact (slotless.toRigid.addAnchor g metadata scope).trans (slotless.putAnchorFirst _ scope)

namespace Graph

variable {g : Graph} {roots zone : Set NodeId} {loose : Set (NodeId × NodeId)}
  {level : NodeId → List NodeId} {scopes : List NodeId}

/-- Promoting a range joins its join predicate to a condition. -/
theorem Zone.promote (z : g.Zone roots loose zone level) (scopes : List NodeId)
    (fresh : ∀ id, ¬ g.Has id → level id = scopes) {anchor : NodeId} {r : Range} (mem : anchor ∈ zone)
    (node : g.node anchor = .range r) (on : level anchor = scopes)
    (tight : ∀ link ∈ loose, link.1 ≠ anchor) (condition : Option NodeId)
    (ready : ∀ id ∈ condition, g.Ready roots loose zone level scopes id) :
    Joined g (g.promote anchor condition).1 roots loose zone level scopes
      (condition.toList ++ r.join.toList) (g.promote anchor condition).2 := by
  unfold Graph.promote
  rw [join?_eq node]
  cases held : r.join with
  | none =>
    refine (z.joined_self ready (by simp)).relabel (.setRequired ..)
      (Node.formal_stamp.toRigid.setRequired ..)
  | some join =>
    obtain ⟨released, freed, others⟩ := z.releaseJoin mem node tight
    have join' := freed join held
    rw [on] at join'
    have size := size_setJoin g anchor none
    have fresh' : ∀ id, ¬ (g.setJoin anchor none).Has id → level id = scopes := fun id new =>
      fresh id fun had => new (by rwa [Has, size])
    have joined := released.conjoinWith fresh' condition join ?_ ?_
    · exact (joined.after size others).relabel (.setRequired ..)
        (Node.formal_stamp.toRigid.setRequired ..)
    · intro id mem
      rcases List.mem_append.mp mem with mem | mem
      · exact others (ready id (by simpa using mem))
      · rw [List.mem_singleton.mp mem]
        exact join'
    · rintro rfl
      have slot : join ∈ g.children anchor := by simp [children, node, Node.children, held]
      exact tight _ ((ready join rfl).free anchor mem slot) rfl

/-- Making sure of an anchor joins what is promoted to a condition. -/
theorem Zone.withAnchor (z : g.Zone roots loose zone level)
    (fresh : ∀ id, ¬ g.Has id → level id = scopes) {ranges : List NodeId}
    (declared : ∀ id ∈ ranges, id ∈ zone ∧ level id = scopes ∧ (g.node id).isRange = true)
    (tight : ∀ link ∈ loose, link.1 ∉ ranges) {condition : Option NodeId}
    (ready : ∀ id ∈ condition, g.Ready roots loose zone level scopes id) (usage : RangeUsage) :
    Joined g (g.withAnchor ranges condition usage).1 roots loose zone level scopes
      (condition.toList ++ ranges.flatMap fun id => (g.join? id).toList)
      (g.withAnchor ranges condition usage).2.2 := by
  rcases g.withAnchor_cases ranges condition usage with same | ⟨anchor, mem, same⟩
  · rw [same]
    exact z.joined_self ready (by simp +contextual)
  · rw [same]
    obtain ⟨within, on, isRange⟩ := declared anchor mem
    obtain ⟨r, node⟩ := Node.exists_of_isRange isRange
    refine (z.promote scopes fresh within node on (fun link is same => tight link is (same ▸ mem))
      condition ready).mono ?_
    refine List.append_subset.mpr ⟨List.subset_append_left _ _, fun id held => ?_⟩
    refine List.mem_append_right _ (List.mem_flatMap.mpr ⟨anchor, mem, ?_⟩)
    rwa [join?_eq node]

/-- Promoting a range leaves the other old nodes. -/
theorem node_promote_of_ne {anchor id : NodeId} (has : g.Has id) (ne : id ≠ anchor)
    (condition : Option NodeId) : (g.promote anchor condition).1.node id = g.node id := by
  unfold Graph.promote
  split
  · have has' : (g.setJoin anchor none).Has id := by rwa [Has, size_setJoin]
    refine (node_updateRange_of_ne _ ne _).trans ?_
    exact ((Same.conjoinWith (fun node => node) _ condition _).node has').trans
      (node_setJoin_of_ne g ne none)
  · exact node_updateRange_of_ne g ne _

/-- A promoted join predicate makes another condition. -/
theorem snd_promote_ne {anchor join : NodeId} (condition : Option NodeId)
    (held : g.join? anchor = some join) (has : ∀ id ∈ condition, g.Has id) :
    (g.promote anchor condition).2 ≠ condition := by
  simp only [promote, held]
  cases condition with
  | none => simp
  | some existing =>
    intro same
    have next : (g.setJoin anchor none).next = existing := Option.some.inj same
    refine ne_next_of_has (g := g.setJoin anchor none) ?_ next.symm
    rw [Has, size_setJoin]
    exact has existing rfl

/-- A joined range of a scope is made an anchor: its join predicate gets into the filter. -/
theorem Zone.promoteInto (z : g.Zone roots ∅ zone level) {scope anchor join : NodeId} {r : Range}
    {clauses : Retrieve} (mem : scope ∈ zone) (retrieve : g.node scope = .retrieve clauses)
    (declared : anchor ∈ (g.node scope).declared) (node : g.node anchor = .range r)
    (held : r.join = some join) :
    (g.promote anchor clauses.condition).2 ≠ clauses.condition ∧
      Enlarges g ((g.promote anchor clauses.condition).1.setCondition scope
        (g.promote anchor clauses.condition).2) roots zone level := by
  have ofAnchor := z.link mem (declared_subset_children _ declared) (Set.notMem_empty _)
  have ne : scope ≠ anchor := by
    rintro rfl
    rw [node] at declared
    simp [Node.declared, Node.ranges?] at declared
  have slots : ∀ id ∈ clauses.condition, id ∈ g.children scope := by
    intro id slot
    simp [children, retrieve, Node.children, Option.mem_def.mp slot]
  have other : (g.promote anchor clauses.condition).2 ≠ clauses.condition :=
    snd_promote_ne clauses.condition ((join?_eq node).trans held) fun id slot =>
      z.has (z.closed mem (slots id slot) (Set.notMem_empty _))
  have on : level anchor = level scope := by
    rw [ofAnchor.level, enter_of_false (by rw [node]; rfl)]
  -- The link to the old condition is loose until the new one takes its place.
  have joined := ((z.levelWith (level scope)).looser
    (Set.empty_subset {link | link.1 = scope ∧ clauses.condition = some link.2})).promote (level scope)
      (fun id new => levelWith_of_not_has new _) ofAnchor.mem node
      (by rw [levelWith_of_has (z.has ofAnchor.mem), on])
      (fun link is same => ne (is.1.symm.trans same)) clauses.condition fun id slot => by
        refine (z.looser (Set.empty_subset _)).readyWith _
          (z.ready_of_loose mem (slots id slot) (Set.notMem_empty _) ?_)
        rintro link (rfl | none)
        · exact ⟨rfl, slot⟩
        · exact absurd none (Set.notMem_empty _)
  have node' := node_promote_of_ne (z.has mem) ne clauses.condition
  rw [retrieve] at node'
  have changed : ((g.promote anchor clauses.condition).1.node scope).withCondition?
      (g.promote anchor clauses.condition).2 =
        some (.retrieve { clauses with condition := (g.promote anchor clauses.condition).2 }) := by
    rw [node']
    rfl
  have final := joined.inOrder.refillCondition ∅ (.inl mem) changed ?_ ?_ ?_ ?_
  · obtain ⟨reshaped, glued⟩ := z.reshapedByGrowth (fun _ within => within) joined.glue
      (Node.formal_stamp.toRigid.setCondition _ scope _) final
    exact ⟨other, _, _, reshaped, glued, fun _ within => .inl within⟩
  · rw [condition?, node']
    exact Ne.symm other
  · rintro child - apart ⟨-, is⟩
    rw [condition?, node'] at apart
    exact apart is
  · exact fun link is apart => absurd is.1 apart
  · rw [levelWith_of_has (z.has mem)]
    exact joined.ready

/-- Adding an anchor enlarges a zone. -/
theorem Zone.addAnchor (z : g.Zone roots ∅ zone level) (metadata : Metadata) {scope : NodeId}
    (mem : scope ∈ zone) : Enlarges g (g.addAnchor metadata scope).1 roots zone level := by
  unfold Graph.addAnchor
  dsimp only
  split
  · exact .refl z
  generalize g.usage metadata _ _ _ = usage
  rcases g.withAnchor_cases (g.includedRanges scope) (g.scope scope).condition usage with
    same | ⟨anchor, included, same⟩
  · rw [same]
    simp only [if_true]
    exact .refl z
  rw [same]
  obtain ⟨declared, r, node, -⟩ := mem_includedRanges included
  cases held : r.join with
  | none =>
    simp only [Graph.promote, join?_eq node, held, if_true]
    exact z.enlarges ((Relabels.setRequired ..).zone z)
  | some join =>
    obtain ⟨clauses, retrieve⟩ : ∃ clauses, g.node scope = .retrieve clauses := by
      cases kind : g.node scope with
      | retrieve clauses => exact ⟨clauses, rfl⟩
      | _ => simp [includedRanges, Graph.scope, kind, Retrieve.empty] at included
    have condition : (g.scope scope).condition = clauses.condition := by
      simp [Graph.scope, retrieve]
    obtain ⟨other, enlarged⟩ := z.promoteInto mem retrieve declared node held
    rw [condition]
    simp only [if_neg other]
    exact enlarged

/-! ## The order of ranges -/

theorem ranges_scope {scope : NodeId} (isRetrieve : (g.node scope).isRetrieve = true) :
    (g.scope scope).ranges = (g.node scope).declared := by
  cases kind : g.node scope <;>
    simp_all [Graph.scope, Node.isRetrieve, Node.declared, Node.ranges?]

theorem isRetrieve_of_mem_ranges {scope id : NodeId} (mem : id ∈ (g.scope scope).ranges) :
    (g.node scope).isRetrieve = true := by
  cases kind : g.node scope <;> simp_all [Graph.scope, Retrieve.empty, Node.isRetrieve]

/-- Putting the anchor in front only reorders the declared ranges. -/
theorem putAnchorFirst_cases (g : Graph) (scope : NodeId) :
    (g.putAnchorFirst scope).1 = g ∨ ∃ anchor ∈ (g.node scope).declared,
      (g.putAnchorFirst scope).1 = g.setRanges scope (anchorFirst (g.node scope).declared anchor) := by
  unfold putAnchorFirst
  split
  · exact .inl rfl
  · next anchor found =>
    have mem := (List.mem_filter.mp (List.mem_of_find?_eq_some found)).1
    rw [← ranges_scope (isRetrieve_of_mem_ranges mem)]
    dsimp only
    split
    · exact .inl rfl
    · exact .inr ⟨anchor, mem, rfl⟩

theorem children_withRanges {node : Node} {old : List NodeId} (held : node.ranges? = some old)
    (ranges : List NodeId) : ∃ rest, node.children = old ++ rest ∧
      (node.withRanges ranges).children = ranges ++ rest := by
  cases node with
  | retrieve r =>
    cases held
    exact ⟨r.values ++ r.condition.toList ++ r.sort.map (·.expression), by simp [Node.children],
      by simp [Node.children, Node.withRanges]⟩
  | subquery s =>
    cases held
    exact ⟨s.expression.toList ++ s.condition.toList, by simp [Node.children],
      by simp [Node.children, Node.withRanges]⟩
  | _ => cases held

theorem nodup_declared {id : NodeId} (nodup : (g.children id).Nodup) :
    (g.node id).declared.Nodup := by
  cases held : (g.node id).ranges? with
  | none => simp [Node.declared, held]
  | some old =>
    obtain ⟨rest, before, -⟩ := children_withRanges held []
    rw [children, before] at nodup
    simpa [Node.declared, held] using nodup.sublist (List.sublist_append_left old rest)

theorem size_setRanges (g : Graph) (scope : NodeId) (ranges : List NodeId) :
    (g.setRanges scope ranges).size = g.size := by
  unfold Graph.setRanges
  split
  · rw [size_adopt, size_release, size_setNode]
  · rfl

/-- Setting the declared ranges of a scope writes the scope only. -/
theorem node_setRanges {scope id : NodeId} {old ranges : List NodeId}
    (held : (g.node scope).ranges? = some old) (has : g.Has id) :
    (g.setRanges scope ranges).node id =
      if id = scope then (g.node scope).withRanges ranges else g.node id := by
  simp only [Graph.setRanges, held]
  rw [node_adopt, node_release]
  by_cases here : id = scope
  · subst here
    rw [if_pos rfl, node_setNode_self g has]
  · rw [if_neg here, node_setNode_of_ne g (Ne.symm here)]

/-- Writing the declared ranges that a scope owns in another order leaves every recorded owner. -/
theorem parent_setRanges {scope : NodeId} {ranges : List NodeId}
    (members : ∀ id, id ∈ ranges ↔ id ∈ (g.node scope).declared)
    (owned : ∀ id ∈ (g.node scope).declared, g.parent id = some scope) (id : NodeId) :
    (g.setRanges scope ranges).parent id = g.parent id := by
  unfold Graph.setRanges
  split
  · next old held =>
    have same : (g.node scope).declared = old := by simp [Node.declared, held]
    rw [same] at members owned
    have nothing : (old.filter fun range => !ranges.contains range) = [] := by
      simpa [List.filter_eq_nil_iff] using fun id within => (members id).mpr within
    rw [nothing]
    by_cases declared : id ∈ ranges
    · have recorded := owned id ((members id).mp declared)
      have has : ((g.setNode scope ((g.node scope).withRanges ranges)).release scope []).Has id := by
        rw [Has, size_release, size_setNode]
        exact has_of_parent recorded
      rw [parent_adopt_of_mem scope has declared, recorded]
    · rw [parent_adopt_of_not_mem _ _ declared, parent_release_of_not_mem _ _ (by simp),
        parent_setNode]
  · rfl

/-- Writing the declared ranges of a scope in another order leaves a zone. -/
theorem Zone.setRanges (z : g.Zone roots ∅ zone level) {scope : NodeId} {ranges : List NodeId}
    (mem : scope ∈ zone) (perm : ranges.Perm (g.node scope).declared) :
    (g.setRanges scope ranges).Zone roots ∅ zone level := by
  cases held : (g.node scope).ranges? with
  | none => simpa only [Graph.setRanges, held] using z
  | some old =>
    obtain ⟨rest, before, after⟩ := children_withRanges held ranges
    have same : (g.node scope).declared = old := by simp [Node.declared, held]
    refine z.reorder (fun id within => ?_) (fun id within => ?_) (fun id within => ?_) fun id _ =>
      parent_setRanges (fun id => perm.mem_iff) (fun id declared => ?_) id
    · rw [Has, size_setRanges]
      exact z.has within
    · rw [children, node_setRanges held (z.has within)]
      split
      · next here =>
        rw [here, after, children, before]
        exact (same ▸ perm).append_right rest
      · exact .refl _
    · rw [node_setRanges held (z.has within)]
      split
      · next here => rw [here, Node.formal_opensScope.ranges]
      · rfl
    · exact z.owned mem (declared_subset_children _ declared) (Set.notMem_empty _)

theorem Zone.putAnchorFirst (z : g.Zone roots ∅ zone level) {scope : NodeId} (mem : scope ∈ zone) :
    (g.putAnchorFirst scope).1.Zone roots ∅ zone level := by
  rcases g.putAnchorFirst_cases scope with same | ⟨anchor, declared, same⟩
  · rw [same]
    exact z
  · rw [same]
    exact z.setRanges mem (perm_anchorFirst (nodup_declared (z.nodup mem)) declared)

/-- Normalising the anchor of a scope enlarges a zone. -/
theorem Zone.normalizeAnchor (z : g.Zone roots ∅ zone level) (metadata : Metadata)
    {scope : NodeId} (mem : scope ∈ zone) :
    Enlarges g (g.normalizeAnchor metadata scope).1 roots zone level := by
  unfold Graph.normalizeAnchor
  split
  · exact .refl z
  · refine (z.addAnchor metadata mem).trans
      (Node.formal_stamp.toRigid.addAnchor g metadata scope).size
      (Node.formal_stamp.toSlotless.putAnchorFirst _ scope) fun z' larger => ?_
    exact z'.enlarges (z'.putAnchorFirst (larger mem))

namespace Keeps

theorem setRanges {scope : NodeId} {ranges : List NodeId}
    (members : ∀ id, id ∈ ranges ↔ id ∈ (g.node scope).declared) :
    Keeps g (g.setRanges scope ranges) := by
  have stamp := Node.formal_stamp.toSlotless.setRanges g scope ranges
  cases held : (g.node scope).ranges? with
  | none => simpa only [Graph.setRanges, held] using refl g
  | some old =>
    have declared : ∀ {scope' id}, g.Has scope' →
        (id ∈ ((g.setRanges scope ranges).node scope').declared ↔
          id ∈ (g.node scope').declared) := by
      intro scope' id has
      rw [node_setRanges held has]
      split
      · next here =>
        subst here
        rw [← members]
        cases kind : g.node scope' <;>
          simp_all [Node.ranges?, Node.declared, Node.withRanges]
      · exact Iff.rfl
    refine ⟨stamp, fun has _ _ => declared has, fun has mem => .inl ((declared has).mp mem),
      fun {id inner} has _ nested _ => ?_⟩
    rw [node_setRanges held has]
    split
    · next here =>
      subst here
      cases kind : g.node id <;> simp_all [Node.ranges?, Node.nested?]
    · exact nested

theorem putAnchorFirst (g : Graph) (scope : NodeId) : Keeps g (g.putAnchorFirst scope).1 := by
  rcases g.putAnchorFirst_cases scope with same | ⟨anchor, mem, same⟩
  · rw [same]
    exact refl _
  · rw [same]
    exact setRanges fun id => mem_anchorFirst mem

theorem normalizeAnchor (g : Graph) (metadata : Metadata) (scope : NodeId) :
    Keeps g (g.normalizeAnchor metadata scope).1 := by
  unfold Graph.normalizeAnchor
  split
  · exact refl g
  · exact (of_rigid fun rigid => rigid.addAnchor g metadata scope).trans (putAnchorFirst _ scope)

end Keeps

end Graph

end RangeQuery
