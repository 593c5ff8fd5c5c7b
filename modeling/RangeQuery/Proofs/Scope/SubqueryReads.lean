import RangeQuery.Proofs.Scope.CarriedNodes
import RangeQuery.Proofs.Scope.LiveRanges

/-!
What a subquery in the place of an ANY reads. Its ranges are fresh copies of the live ones, its sources.
It reads new nodes, or what the sources and the condition of the ANY read; and its predicates, which are
pointed at the copies, read no source.
-/

namespace RangeQuery

namespace Graph

variable {g h k : Graph} {root scope top old owner new id : NodeId} {live ranges : List NodeId}
  {condition : Option NodeId} {usage : RangeUsage}

/-! ## What lies below a node after a swap -/

/-- After a swap, what lies below a node lay there, or lies below the new node. -/
theorem TakesPlace.below_cases (t : TakesPlace g h scope old owner new) (l : g.Linked root)
    (above : g.Below root top) (ne : top ≠ old) (above' : g.Below root owner)
    (below : h.Below top id) :
    (g.Below top id ∧ id ≠ old) ∨ (g.Below top old ∧ h.Below new id) := by
  refine below.induction (.inl ⟨.refl g top, ne⟩) fun upper child _ ih slot => ?_
  rcases ih with ⟨within, -⟩ | ⟨within, further⟩
  · have reached := above.trans within
    rw [t.children (l.has_of_below reached)] at slot
    split at slot
    · next isOwner =>
      subst isOwner
      rcases mem_replace_of_nodup (l.nodup reached) slot with rfl | ⟨held, other⟩
      · exact .inr ⟨within.child t.slot, .refl h _⟩
      · exact .inl ⟨within.child held, other⟩
    · next elsewhere =>
      refine .inl ⟨within.child slot, ?_⟩
      rintro rfl
      exact elsewhere (l.owner_unique reached above' slot t.slot)
  · exact .inr ⟨within, further.child slot⟩

theorem windowless_eq_identifier {node : Node} {i : Identifier} :
    node.windowless = .identifier i ↔ node = .identifier i := by
  cases node <;> simp [Node.windowless]

/-- A swap leaves the identifiers what they are, and makes none of an old node. -/
theorem TakesPlace.node_eq_identifier (t : TakesPlace g h scope old owner new) (has : g.Has id)
    {i : Identifier} : h.node id = .identifier i ↔ g.node id = .identifier i := by
  rw [← windowless_eq_identifier, t.windowless has, windowless_eq_identifier, swapped]
  split
  · cases g.node id <;> simp [Node.withChildren]
  · rfl

/-- After a swap a node reads what it read, or what the new node reads. -/
theorem TakesPlace.reads_cases (t : TakesPlace g h scope old owner new) (l : g.Linked root)
    (above : g.Below root top) (ne : top ≠ old) (above' : g.Below root owner) {range : NodeId}
    (reads : h.Reads top range) : g.Reads top range ∨ (g.Below top old ∧ h.Reads new range) := by
  obtain ⟨id, i, below, node, same⟩ := reads
  rcases t.below_cases l above ne above' below with ⟨within, -⟩ | ⟨within, further⟩
  · have has := l.has_of_below (above.trans within)
    exact .inl ⟨id, i, within, (t.node_eq_identifier has).mp node, same⟩
  · exact .inr ⟨within, id, i, further, node, same⟩

theorem node_inlineAny_next (g : Graph) (scope any : NodeId) :
    (g.inlineAny scope any).node g.next = .number "1" := by
  have label := g.label_inlineAny_next scope any
  cases node : (g.inlineAny scope any).node g.next <;> simp_all [Node.label]

/-! ## What a correlated scope reads -/

/-- A predicate of some ranges, or beside them, lies below one of them or is beside them. -/
theorem exists_part_of_predicate {predicates : List NodeId} {predicate : NodeId}
    (mem : predicate ∈ g.predicatesOf ranges predicates) :
    ∃ part ∈ ranges ++ predicates, g.Below part predicate := by
  rcases mem_predicatesOf.mp mem with ⟨range, among, held⟩ | beside
  · exact ⟨range, List.mem_append_left _ among, below_of_child (mem_children_of_join? held)⟩
  · exact ⟨predicate, List.mem_append_right _ beside, .refl g predicate⟩

/-- No identifier of a copy reads what the copy has another node for. -/
theorem range_copyWith_ne {names : Renaming} (had : g.Has old) (named : (names.get? old).isSome)
    (values : ∀ {id new}, names.get? id = some new → new ≠ old)
    (below : (g.copyWith root names).1.Below (g.copyWith root names).2 id) {i : Identifier}
    (node : (g.copyWith root names).1.node id = .identifier i) : i.range ≠ old := by
  classical
  obtain ⟨draft, names', drafted, same⟩ := g.copyWith_eq root names
  rw [same] at below node
  have below' := (Relabels.rebind ..).below.mp below
  rw [drafted.linked.node_rebind (Below.refl draft _), if_pos below'] at node
  obtain ⟨i', was⟩ : ∃ i', draft.node id = .identifier i' := by
    cases kind : draft.node id <;> simp_all [Node.renamed]
  rw [was] at node
  obtain rfl := Node.identifier.inj node
  rintro rfl
  cases found : names'.get? i'.range with
  | none =>
    have kept := drafted.copying.renames.kept named
    simp only [found, Option.getD_none, Option.isSome_none, Bool.false_eq_true] at kept
  | some range =>
    simp only [found, Option.getD_some] at had values
    rcases drafted.copying.renames.new found with given | ⟨new, -, -⟩
    · exact values given rfl
    · exact new had

section

variable (isRange : ∀ id ∈ live, (g.node id).isRange = true)

include isRange

/-- The copies that stand for the live ranges are none of these. -/
theorem apply_copyOf_not_mem (nodup : live.Nodup) (id : NodeId) :
    (g.copyOf live).apply id ∉ live := by
  intro mem
  cases found : (g.copyOf live).get? id with
  | none =>
    rw [Renaming.apply_of_none found] at mem
    obtain ⟨copy, -, found'⟩ := exists_of_forall₂ (get?_copyOf (g := g) nodup).flip mem
    rw [found] at found'
    cases found'
  | some copy =>
    rw [Renaming.apply_of_get? found] at mem
    exact (copyOf_spec isRange found).2.1 (has_of_isRange (isRange copy mem))

/-- The copies are new to the end, and keep the labels of the live ranges. -/
theorem forall₂_liveCopies (condition : Option NodeId) (usage : RangeUsage) :
    List.Forall₂ (fun source copy => ¬ g.Has copy ∧
        ((g.built live condition usage).1.node copy).label = (g.node source).label)
      live (g.liveCopies live) := by
  refine forall₂_copyRanges fun pair mem => ?_
  obtain ⟨among, new, label⟩ := copyRanges_pairs isRange pair mem
  refine ⟨new, (label_built_of_isRange condition usage ?_).trans label⟩
  rw [← Node.isRange_label, label, Node.isRange_label, isRange pair.1 among]

/-- The predicates that are built consist of what was copied: below them lies what lies below a join
predicate that was pointed at the copies, or below the copied condition. -/
theorem exists_origin_of_predicate {predicate : NodeId}
    (mem : predicate ∈ (g.built live condition usage).1.predicatesOf (g.liveCopies live)
      (g.built live condition usage).2.2.toList)
    (below : (g.built live condition usage).1.Below predicate id)
    (leaf : ((g.built live condition usage).1.node id).isAnd = false) :
    (∃ copy ∈ g.liveCopies live, ∃ join, (g.rebound live).join? copy = some join ∧
        (g.rebound live).Below join id ∧
          (g.built live condition usage).1.node id = (g.rebound live).node id) ∨
      ∃ own, (g.ownCopied live condition).2 = some own ∧ (g.ownCopied live condition).1.Below own id ∧
        (g.built live condition usage).1.node id = (g.ownCopied live condition).1.node id := by
  have regroups := regroups_built isRange condition usage
  obtain ⟨conjunct, listed, further⟩ :=
    (regroups.gathered.apart predicate mem).acyclic.exists_conjunct below leaf
  have origin := (perm_built isRange condition usage).mem_iff.mp
    (List.mem_flatMap.mpr ⟨predicate, mem, listed⟩)
  rcases List.mem_append.mp origin with inJoin | inCondition
  · obtain ⟨join, mem, listed⟩ := List.mem_flatMap.mp inJoin
    have apart := (gathered_rebound isRange).apart join mem
    have above := apart.acyclic.below_of_mem_conjuncts listed
    have writes := writes_built isRange condition usage
    have further' := ((apart.below above).below_iff writes).mp further
    obtain ⟨copy, among, held⟩ := (mem_predicatesOf.mp mem).resolve_right (by simp)
    exact .inl ⟨copy, among, join, held, above.trans further', (apart.below above).nodes writes id further'⟩
  · obtain ⟨own, held, listed⟩ := List.mem_flatMap.mp inCondition
    have apart := (gathered_ownCopied isRange condition).1.apart own
      (mem_predicatesOf.mpr (.inr (List.mem_append_left _ held)))
    have above := apart.acyclic.below_of_mem_conjuncts listed
    have further' := ((apart.below above).below_iff regroups.writes).mp further
    exact .inr ⟨own, Option.mem_toList.mp held, above.trans further',
      (apart.below above).nodes regroups.writes id further'⟩

/-- A predicate that is built reads no live range. -/
theorem not_reads_live (nodup : live.Nodup) (acyclic : ∀ id ∈ live, g.Acyclic id)
    {predicate source : NodeId}
    (mem : predicate ∈ (g.built live condition usage).1.predicatesOf (g.liveCopies live)
      (g.built live condition usage).2.2.toList)
    (isLive : source ∈ live) : ¬ (g.built live condition usage).1.Reads predicate source := by
  rintro ⟨id, i, below, node, rfl⟩
  rcases exists_origin_of_predicate isRange mem below (by rw [node]; rfl) with
    ⟨copy, among, join, held, further, same⟩ | ⟨own, is, further, same⟩
  · obtain ⟨⟨range, _⟩, pair, rfl⟩ := List.mem_map.mp among
    have mem' : range ∈ live := by
      rw [← g.fst_copyRanges live]
      exact List.mem_map.mpr ⟨_, pair, rfl⟩
    obtain ⟨r, was⟩ := Node.exists_of_isRange (isRange range mem')
    obtain ⟨target, mirrors⟩ := mirrors_copyRanges acyclic pair
    have forest := g.forest_copyRanges live
    obtain ⟨joins, -⟩ := mirrors.rebindJoins forest.linked (isRange_copyRanges isRange) (g.copyOf live)
      forest.nodup among was
    obtain ⟨old, -, mirror⟩ := exists_of_forall₂ joins (Option.mem_toList.mpr held)
    obtain ⟨origin, -, mirror⟩ := mirror.source further
    obtain ⟨i', -, rfl⟩ := mirror.identifier (same ▸ node)
    exact apply_copyOf_not_mem isRange nodup _ isLive
  · cases condition with
    | none => cases is
    | some filter =>
      obtain rfl := Option.some.inj is
      have beside := (Sealed.splitCopies g live).1.toExtends
      have had := has_of_isRange (isRange i.range isLive)
      obtain ⟨copy, -, named⟩ := exists_of_forall₂ (get?_copyOf (g := g) nodup).flip isLive
      refine range_copyWith_ne (beside.has had)
        (Option.isSome_iff_exists.mpr ⟨copy, named⟩) (fun found is => ?_) further (same ▸ node) rfl
      exact (copyOf_spec isRange found).2.1 (is ▸ had)

end

/-! ## What the subquery reads -/

/-- A subquery over copies of some ranges, its sources. It reads new nodes, or what the sources and a
condition read; its predicates read no source. -/
structure DrawsOn (g h : Graph) (sources : List NodeId) (condition : Option NodeId) (new : NodeId)
    (s : Subquery) : Prop where
  node : h.node new = .subquery s
  copies : ∃ copies, List.Forall₂ (fun source copy => ¬ g.Has copy ∧
    (h.node copy).label = (g.node source).label) sources copies ∧ s.ranges.Perm copies
  reads : ∀ range, h.Reads new range →
    ¬ g.Has range ∨ ∃ top ∈ sources ++ condition.toList, g.Reads top range
  correlated : ∀ predicate ∈ h.predicatesOf s.ranges s.condition.toList, ∀ source ∈ sources,
    ¬ h.Reads predicate source

section

variable {metadata : Metadata} {expression : NodeId} {sub : CorrelatedScope} {zone : Set NodeId}
  {level : NodeId → List NodeId}
  (c : Correlated g metadata ranges expression condition h sub zone level)

include c

/-- The ranges of a correlated scope are the copies of the live ones. -/
theorem Correlated.ranges_perm_copies :
    sub.ranges.Perm (g.liveCopies (g.liveFor metadata ranges expression condition)) :=
  c.ranges_perm.trans (perm_fst_withAnchor (g.forest_copyRanges _).nodup _ _)

theorem Correlated.predicates_perm :
    (h.predicatesOf sub.ranges sub.condition.toList).Perm
      (h.predicatesOf (g.liveCopies (g.liveFor metadata ranges expression condition))
        (g.builtFor metadata ranges expression condition).2.2.toList) := by
  rw [c.condition_eq]
  exact (c.ranges_perm_copies.flatMap_right _).append_right _

/-- What a correlated scope reads is new, or is read by a live range or the condition. -/
theorem Correlated.reads_cases (l : g.Linked root)
    (isRange : ∀ id ∈ ranges, (g.node id).isRange = true)
    (above : ∀ id ∈ ranges ++ condition.toList, g.Below root id) (mem : id ∈ zone) {i : Identifier}
    (node : h.node id = .identifier i) :
    ¬ g.Has i.range ∨ ∃ top ∈ g.liveFor metadata ranges expression condition ++ condition.toList,
      g.Reads top i.range := by
  have among : ∀ id ∈ g.liveFor metadata ranges expression condition, id ∈ ranges :=
    fun _ mem => mem_of_mem_liveFor mem
  rw [c.graph_eq] at node
  have like := c.built.readsLike l (fun id mem => isRange id (among id mem)) (fun id mem => ?_) mem node
  · cases like with
    | kept mem below node same _ => exact .inr ⟨_, mem, _, _, below, node, same⟩
    | fresh _ _ _ new _ => exact .inl new
  · refine above id ?_
    rcases List.mem_append.mp mem with mem | mem
    · exact List.mem_append_left _ (among id mem)
    · exact List.mem_append_right _ mem

/-- The subquery over a correlated scope draws on the live ranges. -/
theorem Correlated.drawsOn (l : g.Linked root) (isRange : ∀ id ∈ ranges, (g.node id).isRange = true)
    (above : ∀ id ∈ ranges ++ condition.toList, g.Below root id)
    (nodup : (g.liveFor metadata ranges expression condition).Nodup)
    (slot : old ∈ g.children owner) (owned : g.parent old = some owner) (kind : SubqueryKind) :
    DrawsOn g (h.replaceBySubquery old kind none sub)
      (g.liveFor metadata ranges expression condition) condition h.next
      { kind, ranges := sub.ranges, expression := none, condition := sub.condition } := by
  have isLive : ∀ id ∈ g.liveFor metadata ranges expression condition, (g.node id).isRange = true :=
    fun id mem => isRange id (mem_of_mem_liveFor mem)
  have parts : sub.ranges ++ (none : Option NodeId).toList ++ sub.condition.toList =
      sub.ranges ++ sub.condition.toList := by simp
  have fresh : ∀ part ∈ sub.ranges ++ (none : Option NodeId).toList ++ sub.condition.toList,
      ∀ id, h.Below part id → id ∈ zone ∧ h.Has id ∧ ¬ g.Has id := fun part mem id below =>
    have within := c.inOrder.mem_of_below (c.ready (parts ▸ mem)).mem below
    ⟨within, c.inOrder.has within, c.fresh within⟩
  have new := fun part mem => (fresh part mem part (.refl h part)).2.2
  have placed : (h.replaceBySubquery old kind none sub).node h.next = _ :=
    node_next_replaceBySubquery c.beside new slot owned
  have nodes : ∀ part ∈ sub.ranges ++ sub.condition.toList, ∀ id, h.Below part id →
      (h.replaceBySubquery old kind none sub).node id = h.node id := fun part mem id below =>
    have ⟨_, has, new'⟩ := fresh part (parts ▸ mem) id below
    node_replaceBySubquery_of_part c.beside new slot owned new' has
  have lower : ∀ part ∈ sub.ranges ++ sub.condition.toList, ∀ id,
      (h.replaceBySubquery old kind none sub).Below part id ↔ h.Below part id := fun part mem id =>
    below_iff_of_children fun id below => congrArg Node.children (nodes part mem id below)
  have joins : (h.replaceBySubquery old kind none sub).predicatesOf sub.ranges sub.condition.toList =
      h.predicatesOf sub.ranges sub.condition.toList := by
    refine predicatesOf_congr (fun range mem => ?_) _
    exact join?_congr (nodes range (List.mem_append_left _ mem) range (.refl h range))
  refine ⟨placed, ⟨_, ?_, c.ranges_perm_copies⟩, fun range reads => ?_,
    fun predicate mem source isSource reads => ?_⟩
  · have copies := forall₂_liveCopies isLive condition (g.usage metadata [expression] condition ranges)
    refine forall₂_imp_of_mem copies fun source _ copy mem both => ?_
    have inside := List.mem_append_left sub.condition.toList (c.ranges_perm_copies.mem_iff.mpr mem)
    rw [nodes copy inside copy (.refl h copy), c.graph_eq]
    exact both
  · obtain ⟨id, i, below, node, rfl⟩ := reads
    rcases below.eq_or_child with rfl | ⟨part, mem, below⟩
    · rw [placed] at node
      cases node
    · rw [children, placed] at mem
      have mem : part ∈ sub.ranges ++ sub.condition.toList := parts ▸ mem
      have below := (lower part mem id).mp below
      exact c.reads_cases l isRange above (fresh part (parts ▸ mem) id below).1
        (nodes part mem id below ▸ node)
  · rw [joins] at mem
    obtain ⟨part, inside, above'⟩ := exists_part_of_predicate mem
    have same := fun id (below : h.Below predicate id) => nodes part inside id (above'.trans below)
    have mem' := c.predicates_perm.mem_iff.mp mem
    have reads' := (reads_congr same).mp reads
    rw [c.graph_eq] at mem' reads'
    exact not_reads_live isLive nodup (fun id mem => l.acyclic
      (above id (List.mem_append_left _ (mem_of_mem_liveFor mem)))) mem' isSource reads'

end

end Graph

end RangeQuery
