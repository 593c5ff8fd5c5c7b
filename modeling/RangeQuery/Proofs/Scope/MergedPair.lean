import RangeQuery.Proofs.Scope.RequiredRanges

/-!
One merge, node by node. It takes one range out of its scope and lets what read it read the other one
of the pair; of the join predicates of the scope, it drops the one that the pair carries. Whatever is
still reached was reached before.
-/

namespace RangeQuery

/-- The node with its range put where it went, if it is an identifier. -/
def Node.retargeted (target : NodeId → NodeId) : Node → Node
  | .identifier i => .identifier { i with range := target i.range }
  | node => node

theorem Node.children_retargeted (target : NodeId → NodeId) (node : Node) :
    (node.retargeted target).children = node.children := by
  cases node <;> rfl

theorem Node.retargeted_retargeted (target target' : NodeId → NodeId) (node : Node) :
    (node.retargeted target).retargeted target' = node.retargeted fun id => target' (target id) := by
  cases node <;> rfl

theorem Node.retargeted_id (node : Node) : (node.retargeted fun id => id) = node := by
  cases node <;> rfl

namespace IdentityPair

/-- The range that is read in the place of another after the merge of a pair. -/
def target (pair : IdentityPair) (range : NodeId) : NodeId :=
  if range = pair.removed then pair.kept else range

@[simp] theorem target_removed (pair : IdentityPair) : pair.target pair.removed = pair.kept := by
  simp [target]

theorem target_of_ne (pair : IdentityPair) {range : NodeId} (ne : range ≠ pair.removed) :
    pair.target range = range := by
  simp [target, ne]

/-- What a merge renames. -/
theorem renamed_eq (pair : IdentityPair) (node : Node) :
    node.renamed (Renaming.empty.insert pair.removed pair.kept) = node.retargeted pair.target := by
  cases node with
  | identifier i =>
    by_cases reads : i.range = pair.removed
    · simp [Node.renamed, Node.retargeted, reads, Renaming.get?_insert_same]
    · simp [Node.renamed, Node.retargeted, pair.target_of_ne reads, Renaming.get?_empty,
        Renaming.get?_insert_other _ (Ne.symm reads)]
  | _ => rfl

end IdentityPair

namespace Graph

variable {g h : Graph} {root scope id : NodeId} {pair : IdentityPair}

/-- The join predicates of the ranges that a scope includes. -/
def joinPredicates (g : Graph) (scope : NodeId) : List NodeId :=
  (g.includedRanges scope).filterMap g.join?

theorem Linked.nodup_includedRanges (l : g.Linked root) (above : g.Below root scope)
    (isRetrieve : (g.node scope).isRetrieve = true) : (g.includedRanges scope).Nodup := by
  rw [includedRanges, ranges_scope isRetrieve]
  exact (l.nodup_declared above).filter _

theorem isRetrieve_of_mem_includedRanges (mem : id ∈ g.includedRanges scope) :
    (g.node scope).isRetrieve = true :=
  isRetrieve_of_mem_ranges (List.mem_filter.mp mem).1

/-- Once its predicates are in place, a merge changes labels only. -/
theorem Relabels.mergePair (g : Graph) (scope : NodeId) (pair : IdentityPair) :
    Relabels (g.rejoined pair) (g.mergePair scope pair) :=
  (Relabels.rebind ..).trans (.exclude ..)

theorem size_rejoined (g : Graph) (pair : IdentityPair) : (g.rejoined pair).size = g.size := by
  unfold rejoined inheritJoin
  split
  · split
    · rw [(Relabels.setRequired ..).size, size_setJoin, size_setJoin]
    · rfl
  · rfl

/-- A merge takes one range out of its scope and leaves the others in their order. -/
theorem includedRanges_mergePair (isRetrieve : (g.node scope).isRetrieve = true) :
    (g.mergePair scope pair).includedRanges scope =
      (g.includedRanges scope).filter (· ≠ pair.removed) := by
  have hasScope : g.Has scope := has_of_node rfl fun none => by
    rw [none] at isRetrieve
    cases isRetrieve
  have stamp := Node.formal_stamp.toUnbound.mergePair g scope pair
  rw [includedRanges, includedRanges, ranges_scope ((stamp.isRetrieve hasScope).trans isRetrieve),
    ranges_scope isRetrieve, (Node.unbound_declared.mergePair g scope pair).node hasScope,
    List.filter_filter]
  refine List.filter_congr fun id _ => ?_
  rw [any_included, any_included, mergePair_eq, node_exclude]
  by_cases removed : id = pair.removed
  · simp [removed, Node.isIncluded_excluded]
  · have marks := (Same.isIncluded_of_label (Node.slotless_label.toRigid.rejoined g pair)).trans
      (Same.rebind_of_ranges Node.isRange_of_isIncluded _ scope
        (Renaming.empty.insert pair.removed pair.kept))
    have size := (Relabels.rebind (g.rejoined pair) scope
      (Renaming.empty.insert pair.removed pair.kept)).size.trans (size_rejoined g pair)
    rw [if_neg removed]
    by_cases has : g.Has id
    · simp [marks.node has, removed]
    · have absent : ∀ {f : Graph}, ¬ f.Has id → (f.node id).isIncluded = false := fun has => by
        simp [node_of_not_has has, Node.isIncluded]
      rw [absent has, absent (by rwa [Has, size]), Bool.and_false]

section

variable (p : g.IsPair (g.includedRanges scope) pair)

include p

/-- The kept range takes the place of the removed one if it carries the predicate of the pair. -/
theorem node_mergePair_kept {k r : Range} (kept : g.node pair.kept = .range k)
    (removed : g.node pair.removed = .range r) :
    (g.mergePair scope pair).node pair.kept = match pair.holder with
      | .kept => .range { k with join := r.join, required := r.required }
      | .removed => .range k := by
  have written := node_rejoined_kept kept removed p.ne
  rw [node_mergePair_of_isRange (by rw [kept]; rfl), if_neg p.ne]
  cases holder : pair.holder <;> rw [holder] at written <;> exact written

theorem node_mergePair_removed {k r : Range} (kept : g.node pair.kept = .range k)
    (removed : g.node pair.removed = .range r) :
    (g.mergePair scope pair).node pair.removed = match pair.holder with
      | .kept => .range { r with join := none, included := false }
      | .removed => .range { r with included := false } := by
  rw [node_mergePair_of_isRange (by rw [removed]; rfl), if_pos rfl,
    node_rejoined_removed kept removed p.ne]
  cases pair.holder <;> rfl

omit p in
theorem node_mergePair_of_ne (isRange : (g.node id).isRange = true) (kept : id ≠ pair.kept)
    (removed : id ≠ pair.removed) : (g.mergePair scope pair).node id = g.node id := by
  rw [node_mergePair_of_isRange isRange, if_neg removed, node_rejoined_of_ne kept removed]

omit p in
theorem children_mergePair_of_ne (kept : id ≠ pair.kept) (removed : id ≠ pair.removed) :
    (g.mergePair scope pair).children id = g.children id := by
  rw [(Relabels.mergePair g scope pair).children, children, node_rejoined_of_ne kept removed,
    children]

/-- A range stays one, over the same entity and with the same query behind it. -/
theorem exists_range_mergePair {r : Range} (node : g.node id = .range r) :
    ∃ join required included,
      (g.mergePair scope pair).node id = .range { r with join, required, included } := by
  obtain ⟨-, k, kept, -⟩ := mem_includedRanges p.kept
  obtain ⟨-, r', removed, -⟩ := mem_includedRanges p.removed
  by_cases isKept : id = pair.kept
  · subst isKept
    obtain rfl := Node.range.inj (node.symm.trans kept)
    rw [node_mergePair_kept p kept removed]
    cases pair.holder <;> exact ⟨_, _, _, rfl⟩
  · by_cases isRemoved : id = pair.removed
    · subst isRemoved
      obtain rfl := Node.range.inj (node.symm.trans removed)
      rw [node_mergePair_removed p kept removed]
      cases pair.holder <;> exact ⟨_, _, _, rfl⟩
    · rw [node_mergePair_of_ne (by rw [node]; rfl) isKept isRemoved, node]
      exact ⟨_, _, _, rfl⟩

/-- The join predicates of the pair are shared out anew, and one of them is dropped: the one that the
pair carries. -/
theorem join?_mergePair : (g.mergePair scope pair).join? pair.kept = match pair.holder with
    | .kept => g.join? pair.removed
    | .removed => g.join? pair.kept := by
  obtain ⟨-, k, kept, -⟩ := mem_includedRanges p.kept
  obtain ⟨-, r, removed, -⟩ := mem_includedRanges p.removed
  have written := node_mergePair_kept p kept removed
  cases holder : pair.holder <;> rw [holder] at written <;>
    simp [join?_eq written, join?_eq kept, join?_eq removed]

/-- Whatever is reached from the scope after a merge was reached before. -/
theorem below_of_mergePair (below : (g.mergePair scope pair).Below scope id) : g.Below scope id := by
  obtain ⟨declared, k, kept, -⟩ := mem_includedRanges p.kept
  obtain ⟨declared', r, removed, -⟩ := mem_includedRanges p.removed
  have ofKept := below_of_child (declared_subset_children _ declared)
  have ofRemoved := below_of_child (declared_subset_children _ declared')
  refine below.induction (.refl g scope) fun owner child _ ih slot => ?_
  by_cases isKept : owner = pair.kept
  · subst isKept
    rw [children, node_mergePair_kept p kept removed] at slot
    cases holder : pair.holder <;>
      simp only [holder, Node.children, List.mem_append, Option.mem_toList] at slot <;>
      rcases slot with slot | slot
    · exact ofRemoved.child (by simp [children, removed, Node.children, slot])
    all_goals exact ofKept.child (by simp [children, kept, Node.children, slot])
  · by_cases isRemoved : owner = pair.removed
    · subst isRemoved
      rw [children, node_mergePair_removed p kept removed] at slot
      refine ofRemoved.child ?_
      cases holder : pair.holder <;> simp_all [children, Node.children]
    · exact ih.child (children_mergePair_of_ne isKept isRemoved ▸ slot)

variable (l : g.Linked root) (above : g.Below root scope)

include l above

theorem Linked.mergePair : (g.mergePair scope pair).Linked root :=
  (l.zone.mergePair above p).linked rfl

/-- A merge leaves the way to its scope. -/
theorem Linked.below_mergePair : (g.mergePair scope pair).Below root scope := by
  obtain ⟨trail, way⟩ := above
  have apart : ∀ {owner range}, owner ∈ trail → range ∈ g.includedRanges scope → owner ≠ range := by
    rintro owner _ on mem rfl
    exact l.not_below_of_child ⟨trail, way⟩
      (declared_subset_children _ (mem_includedRanges mem).1) (way.below_of_mem on).2
  exact ⟨trail, way.along fun owner on =>
    children_mergePair_of_ne (apart on p.kept) (apart on p.removed)⟩

/-- What is reached from the scope reads the kept range where it read the removed one, and is left
otherwise, unless it is a range of the pair. -/
theorem Linked.node_mergePair (below : (g.mergePair scope pair).Below scope id)
    (kept : id ≠ pair.kept) (removed : id ≠ pair.removed) :
    (g.mergePair scope pair).node id = (g.node id).retargeted pair.target := by
  classical
  have l' : (g.rejoined pair).Linked root := (l.zone.rejoined above p).linked rfl
  have r := Relabels.mergePair g scope pair
  have above' := r.below.mp (l.below_mergePair p above)
  rw [r.below] at below
  rw [mergePair_eq, node_exclude, if_neg removed, l'.node_rebind above', if_pos below,
    node_rejoined_of_ne kept removed, pair.renamed_eq]

variable (isRetrieve : (g.node scope).isRetrieve = true)

include isRetrieve

omit p in
theorem Linked.includedRanges_mergePair :
    (g.mergePair scope pair).includedRanges scope =
      (g.includedRanges scope).erase pair.removed := by
  rw [Graph.includedRanges_mergePair isRetrieve,
    (l.nodup_includedRanges above isRetrieve).erase_eq_filter]
  exact List.filter_congr fun id _ => by rw [decide_not]; rfl

/-- Of the join predicates of the scope, a merge drops the one that the pair carries. -/
theorem Linked.perm_joinPredicates_mergePair {link : NodeId} (held : g.join? pair.carrier = some link) :
    (g.joinPredicates scope).Perm (link :: (g.mergePair scope pair).joinPredicates scope) := by
  let others := ((g.includedRanges scope).erase pair.removed).erase pair.kept
  have nodup := l.nodup_includedRanges above isRetrieve
  have inside : pair.kept ∈ (g.includedRanges scope).erase pair.removed :=
    (List.mem_erase_of_ne p.ne).mpr p.kept
  have after : ((g.mergePair scope pair).includedRanges scope).Perm (pair.kept :: others) := by
    rw [l.includedRanges_mergePair above isRetrieve]
    exact List.perm_cons_erase inside
  have before : (g.includedRanges scope).Perm (pair.removed :: pair.kept :: others) :=
    (List.perm_cons_erase p.removed).trans ((List.perm_cons_erase inside).cons _)
  have same : others.filterMap (g.mergePair scope pair).join? = others.filterMap g.join? := by
    refine List.filterMap_congr fun id mem => ?_
    obtain ⟨notKept, mem⟩ := (nodup.erase _).mem_erase_iff.mp mem
    obtain ⟨notRemoved, mem⟩ := nodup.mem_erase_iff.mp mem
    have isRange := isRange_includedRanges g scope id mem
    rw [join?, join?, range?, range?, node_mergePair_of_ne isRange notKept notRemoved]
  have written := join?_mergePair p
  calc List.Perm (g.joinPredicates scope)
        ((pair.removed :: pair.kept :: others).filterMap g.join?) := before.filterMap _
    List.Perm _ (link :: (pair.kept :: others).filterMap (g.mergePair scope pair).join?) := by
      simp only [List.filterMap_cons, same, written]
      obtain ⟨kept, removed, holder⟩ := pair
      cases holder with
      | removed =>
        have held : g.join? removed = some link := held
        simp only [held]
        exact .refl _
      | kept =>
        have held : g.join? kept = some link := held
        cases inherited : g.join? removed with
        | none => simp only [held]; exact .refl _
        | some join => simp only [held]; exact .swap link join _
    List.Perm _ (link :: (g.mergePair scope pair).joinPredicates scope) :=
      (after.symm.filterMap _).cons link

end

end Graph

end RangeQuery
