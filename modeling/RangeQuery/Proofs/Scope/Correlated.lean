import RangeQuery.Proofs.Scope.SealedCopies

/-!
Building the scope of a subquery. Ranges and conditions are copied, and only the copies are changed
afterwards: the query and its links stay as they were, and the parts of the new scope are ready to
be hung below a new node.
-/

namespace RangeQuery

namespace Graph

variable {g h k : Graph}

theorem Relabels.rebindJoins (g : Graph) (names : Renaming) (copies : List NodeId) :
    Relabels g (g.rebindJoins names copies) := by
  refine .foldl (fun g copy => ?_) g copies
  split
  · exact .rebind g _ names
  · exact .refl g

/-! ## Copied ranges -/

theorem forest_copyRanges (g : Graph) (ids : List NodeId) :
    Forest g (g.copyRanges ids).1 ((g.copyRanges ids).2.map (·.2)) := by
  induction ids generalizing g with
  | nil => exact .nil g
  | cons id rest ih => exact (g.forest_copyWith id .empty).append (ih _)

theorem isRange_copyRanges {g : Graph} {ids : List NodeId}
    (isRange : ∀ id ∈ ids, (g.node id).isRange = true) :
    ∀ copy ∈ (g.copyRanges ids).2.map (·.2),
      ((g.copyRanges ids).1.node copy).isRange = true := by
  induction ids generalizing g with
  | nil => simp [copyRanges]
  | cons id rest ih =>
    have has : ∀ other ∈ id :: rest, g.Has other := fun other mem =>
      has_of_isRange (isRange other mem)
    have first := g.forest_copyWith id .empty
    have others := (g.copyWith id .empty).1.forest_copyRanges rest
    intro copy mem
    rcases List.mem_cons.mp mem with rfl | mem
    · have kept := others.beside.node (first.linked _ (List.mem_singleton_self _)).has
      refine (congrArg Node.isRange kept).trans ?_
      rw [← Node.isRange_stamp, stamp_copyWith (has id (by simp)), Node.isRange_stamp]
      exact isRange id (by simp)
    · refine ih (fun other later => ?_) copy mem
      exact (congrArg Node.isRange (first.beside.node (has other (by simp [later])))).trans
        (isRange other (by simp [later]))

/-! ## The correlated scope -/

section

variable (g : Graph) (live : List NodeId) (condition : Option NodeId) (usage : RangeUsage)

/-- The copies of the live ranges, in order. -/
def liveCopies : List NodeId := (g.copyRanges live).2.map (·.2)

/-- Which copy stands for which live range. -/
def copyOf : Renaming := .ofList (g.copyRanges live).2

/-- The graph whose copies have the inner parts of their join predicates, and the outer parts. -/
def splitCopies : Graph × List NodeId :=
  splitJoins (live.map g.rangeName)
    ((g.copyRanges live).1.rebindJoins (g.copyOf live) (g.liveCopies live)) (g.liveCopies live)

/-- The graph with the copied condition. -/
def ownCopied : Graph × Option NodeId :=
  (g.splitCopies live).1.copyCondition (g.copyOf live) condition

/-- The graph with the condition joined to the outer parts. -/
def filterJoined : Graph × Option NodeId :=
  (g.ownCopied live condition).1.conjoin
    ((g.ownCopied live condition).2.toList ++ (g.splitCopies live).2)

/-- The copies of the live ranges and the filter over them, with an anchor if there can be one. -/
def built : Graph × List NodeId × Option NodeId :=
  (g.filterJoined live condition).1.withAnchor (g.liveCopies live)
    (g.filterJoined live condition).2 usage

end

section

variable (g : Graph) (live : List NodeId) (condition : Option NodeId)

theorem Sealed.splitCopies : Sealed g (g.splitCopies live).1 ∧
    (∀ copy ∈ g.liveCopies live, ¬ g.Has copy) ∧ ∀ id ∈ (g.splitCopies live).2, ¬ g.Has id := by
  obtain ⟨ranges, copies⟩ := (Sealed.refl g).copyRanges live
  obtain ⟨split, outer⟩ :=
    (ranges.rebindJoins (g.copyOf live) copies).splitJoins (live.map g.rangeName) copies
  exact ⟨split, copies, outer⟩

theorem Sealed.ownCopied : Sealed g (g.ownCopied live condition).1 ∧
    ∀ id ∈ (g.ownCopied live condition).2.toList ++ (g.splitCopies live).2, ¬ g.Has id := by
  obtain ⟨split, -, outer⟩ := Sealed.splitCopies g live
  obtain ⟨own, copied⟩ := split.copyCondition (g.copyOf live) condition
  exact ⟨own, List.forall_mem_append.mpr
    ⟨fun id mem => copied id (Option.mem_toList.mp mem), outer⟩⟩

/-- What is built for a correlated scope stands beside the graph. -/
theorem Extends.built (usage : RangeUsage) : Extends g (g.built live condition usage).1 := by
  obtain ⟨-, copies, -⟩ := Sealed.splitCopies g live
  obtain ⟨own, parts⟩ := Sealed.ownCopied g live condition
  exact ((own.conjoin parts).withAnchor copies (snd_conjoin_new own.size parts) usage).toExtends

end

/-- The ranges that an expression and a condition read, of some ranges. -/
def liveFor (g : Graph) (metadata : Metadata) (ranges : List NodeId) (expression : NodeId)
    (condition : Option NodeId) : List NodeId :=
  g.liveRanges (g.usage metadata [expression] condition ranges) ranges expression

theorem correlate_eq (g : Graph) (metadata : Metadata) {ranges : List NodeId} (expression : NodeId)
    (condition : Option NodeId) (some : ranges.isEmpty = false) :
    let live := g.liveFor metadata ranges expression condition
    let built := g.built live condition (g.usage metadata [expression] condition ranges)
    g.correlate metadata ranges expression condition =
      match built.1.anchor? built.2.1 with
      | .some anchor =>
        (built.1, .some {
          ranges := anchorFirst built.2.1 anchor, condition := built.2.2
          copies := g.copyOf live })
      | none => (built.1, none) := by
  simp only [correlate, some, Bool.false_eq_true, if_false]
  rfl

/-- A search for a correlated scope works beside the graph. -/
theorem Extends.correlate (g : Graph) (metadata : Metadata) (ranges : List NodeId)
    (expression : NodeId) (condition : Option NodeId) :
    Extends g (g.correlate metadata ranges expression condition).1 := by
  cases empty : ranges.isEmpty with
  | true => simp [Graph.correlate, empty, Extends.refl]
  | false =>
    have same := g.correlate_eq metadata expression condition empty
    dsimp only at same
    split at same
    · rw [same]
      exact .built ..
    · rw [same]
      exact .built ..

/-- Whether or not a correlated scope is found, the slots of the graph are the first ones of the
graph that is answered, node by node and owner by owner. A search that gives up has nothing to
undo. -/
theorem prefix_slots_correlate (g : Graph) (metadata : Metadata) (ranges : List NodeId)
    (expression : NodeId) (condition : Option NodeId) :
    g.slots.toList <+: (g.correlate metadata ranges expression condition).1.slots.toList :=
  (Extends.correlate g metadata ranges expression condition).prefix_slots

theorem liveFor_sublist (g : Graph) (metadata : Metadata) (ranges : List NodeId) (expression : NodeId)
    (condition : Option NodeId) :
    (g.liveFor metadata ranges expression condition).Sublist ranges := by
  unfold liveFor liveRanges
  dsimp only
  split
  · split
    · exact List.take_sublist 1 ranges
    · exact List.filter_sublist
  · exact List.filter_sublist

theorem mem_of_mem_liveFor {metadata : Metadata} {ranges : List NodeId} {expression id : NodeId}
    {condition : Option NodeId} (mem : id ∈ g.liveFor metadata ranges expression condition) :
    id ∈ ranges :=
  (g.liveFor_sublist metadata ranges expression condition).mem mem

/-- A zone of the new nodes that were built for a correlated scope. What was copied keeps its place
below the copied range or condition; all else holds predicates together. -/
structure Built (g : Graph) (live : List NodeId) (condition : Option NodeId) (usage : RangeUsage)
    (zone : Set NodeId) (level : NodeId → List NodeId) : Prop where
  inOrder : (g.built live condition usage).1.Zone ∅ ∅ zone level
  fresh : ∀ {id}, id ∈ zone → ¬ g.Has id
  nodup : ((g.built live condition usage).2.1 ++ (g.built live condition usage).2.2.toList).Nodup
  ready : ∀ {id}, id ∈ (g.built live condition usage).2.1 ++
    (g.built live condition usage).2.2.toList →
      (g.built live condition usage).1.Ready ∅ ∅ zone level [] id
  ofRange : ∀ {id}, id ∈ zone → (g.copyRanges live).1.Has id →
    ∃ copy ∈ g.liveCopies live, ∃ trail, (g.copyRanges live).1.Trail copy trail id ∧
      level id = (g.copyRanges live).1.scopesAmong (id :: trail)
  ofCondition : ∀ {id}, id ∈ zone → ¬ (g.copyRanges live).1.Has id →
    ((g.built live condition usage).1.node id).isGlue = true ∨
      ∃ own ∈ (g.ownCopied live condition).2, ∃ trail,
        (g.ownCopied live condition).1.Trail own trail id ∧
          ¬ (g.splitCopies live).1.Has id ∧
          level id = (g.ownCopied live condition).1.scopesAmong (id :: trail)

/-- The zone of the copies once their join predicates are split. -/
structure SplitZone (g : Graph) (live : List NodeId) (zone : Set NodeId)
    (level : NodeId → List NodeId) : Prop where
  inOrder : (g.splitCopies live).1.Zone {copy | copy ∈ g.liveCopies live} ∅ zone level
  fresh : ∀ {id}, id ∈ zone → ¬ g.Has id
  nodup : (g.splitCopies live).2.Nodup
  ready : ∀ {id}, id ∈ (g.splitCopies live).2 →
    (g.splitCopies live).1.Ready {copy | copy ∈ g.liveCopies live} ∅ zone level [] id
  copies : ∀ {copy}, copy ∈ g.liveCopies live →
    level copy = [] ∧ ((g.splitCopies live).1.node copy).isRange = true
  ofRange : ∀ {id}, id ∈ zone → (g.copyRanges live).1.Has id →
    ∃ copy ∈ g.liveCopies live, ∃ trail, (g.copyRanges live).1.Trail copy trail id ∧
      level id = (g.copyRanges live).1.scopesAmong (id :: trail)
  glued : Glued (g.copyRanges live).1 (g.splitCopies live).1 zone
  larger : (g.copyRanges live).1.size ≤ (g.splitCopies live).1.size

theorem exists_splitZone {live : List NodeId} (isRange : ∀ id ∈ live, (g.node id).isRange = true) :
    ∃ zone level, SplitZone g live zone level := by
  have forest := g.forest_copyRanges live
  have ranges := isRange_copyRanges isRange
  have rebound := Relabels.rebindJoins (g.copyRanges live).1 (g.copyOf live) (g.liveCopies live)
  have linked : ∀ root ∈ {copy | copy ∈ g.liveCopies live}, (g.copyRanges live).1.Linked root :=
    forest.linked
  have z := Zone.of_linked linked
  have z' := rebound.zone z
  have unbound : Same Node.stamp (g.copyRanges live).1
      ((g.copyRanges live).1.rebindJoins (g.copyOf live) (g.liveCopies live)) := by
    refine .foldl (fun g copy => ?_) _ _
    split
    · exact Node.formal_stamp.toUnbound.rebind g _ _
    · exact .refl _ g
  have isRoot : ∀ copy ∈ g.liveCopies live, copy ∈ {copy | copy ∈ g.liveCopies live} ∧
      (g.copyRanges live).1.levelFrom {copy | copy ∈ g.liveCopies live} copy = [] ∧
      (((g.copyRanges live).1.rebindJoins (g.copyOf live) (g.liveCopies live)).node copy).isRange =
        true := by
    intro copy mem
    have range := ranges copy mem
    refine ⟨mem, ?_, (unbound.isRange (forest.linked copy mem).has).trans range⟩
    rw [levelFrom_root linked mem, enter_of_false (Node.opensScope_of_isRange range)]
  obtain ⟨zone, level, reshaped, glued, nodup, ready, -⟩ :=
    z'.splitJoins (live.map g.rangeName) forest.nodup isRoot
  have old : ∀ {id}, id ∈ zone → (g.copyRanges live).1.Has id →
      ∃ copy ∈ g.liveCopies live, ∃ trail, (g.copyRanges live).1.Trail copy trail id ∧
        level id = (g.copyRanges live).1.scopesAmong (id :: trail) := by
    intro id within has
    obtain ⟨⟨copy, mem, trail, way⟩, on⟩ := reshaped.old within (rebound.has.mpr has)
    exact ⟨copy, mem, trail, way, on.trans (levelFrom_of_trail forest.linked mem way)⟩
  refine ⟨zone, level, reshaped.inOrder, fun {id} within had => ?_, nodup, ready _,
    fun {copy} mem => ?_, old,
    fun {id} within new => glued within fun had => new (rebound.has.mp had), ?_⟩
  · obtain ⟨copy, mem, trail, way, -⟩ := old within (forest.beside.has had)
    exact forest.fresh copy mem ⟨trail, way⟩ had
  · obtain ⟨root, on, range⟩ := isRoot copy mem
    have has := z'.has (z'.root root).1
    exact ⟨((reshaped.old (reshaped.inOrder.root root).1 has).2).trans on,
      ((Node.formal_stamp.toRigid.splitJoins (live.map g.rangeName) _ _).isRange has).trans range⟩
  · rw [← rebound.size]
    exact (Node.formal_stamp.toRigid.splitJoins (live.map g.rangeName) _ _).size

/-- The zone of the copies with the copied condition. -/
structure OwnZone (g : Graph) (live : List NodeId) (condition : Option NodeId) (zone : Set NodeId)
    (level : NodeId → List NodeId) : Prop where
  inOrder : (g.ownCopied live condition).1.Zone {copy | copy ∈ g.liveCopies live} ∅ zone level
  fresh : ∀ {id}, id ∈ zone → ¬ g.Has id
  nodup : ((g.ownCopied live condition).2.toList ++ (g.splitCopies live).2).Nodup
  ready : ∀ {id}, id ∈ (g.ownCopied live condition).2.toList ++ (g.splitCopies live).2 →
    (g.ownCopied live condition).1.Ready {copy | copy ∈ g.liveCopies live} ∅ zone level [] id
  copies : ∀ {copy}, copy ∈ g.liveCopies live →
    level copy = [] ∧ ((g.ownCopied live condition).1.node copy).isRange = true
  ofRange : ∀ {id}, id ∈ zone → (g.copyRanges live).1.Has id →
    ∃ copy ∈ g.liveCopies live, ∃ trail, (g.copyRanges live).1.Trail copy trail id ∧
      level id = (g.copyRanges live).1.scopesAmong (id :: trail)
  ofCondition : ∀ {id}, id ∈ zone → ¬ (g.copyRanges live).1.Has id →
    ((g.ownCopied live condition).1.node id).isGlue = true ∨
      ∃ own ∈ (g.ownCopied live condition).2, ∃ trail,
        (g.ownCopied live condition).1.Trail own trail id ∧
          ¬ (g.splitCopies live).1.Has id ∧
          level id = (g.ownCopied live condition).1.scopesAmong (id :: trail)
  larger : (g.copyRanges live).1.size ≤ (g.ownCopied live condition).1.size

theorem exists_ownZone {live : List NodeId} (isRange : ∀ id ∈ live, (g.node id).isRange = true)
    (condition : Option NodeId) :
    ∃ zone level, OwnZone g live condition zone level := by
  have beside := (Sealed.splitCopies g live).1
  obtain ⟨zone, level, s⟩ := g.exists_splitZone isRange
  cases condition with
  | none =>
    have parts : (g.ownCopied live none).2.toList ++ (g.splitCopies live).2 =
        (g.splitCopies live).2 := rfl
    exact ⟨zone, level, s.inOrder, s.fresh, parts ▸ s.nodup, parts ▸ s.ready, s.copies,
      s.ofRange, fun within new => .inl (s.glued within new), s.larger⟩
  | some condition =>
    have tree := (g.splitCopies live).1.forest_copyWith condition (g.copyOf live)
    generalize copied : (g.splitCopies live).1.copyWith condition (g.copyOf live) = result at tree
    obtain ⟨h, own⟩ := result
    have is : g.ownCopied live (some condition) = (h, some own) := by
      simp only [ownCopied, copyCondition, copied]
    obtain ⟨z, top⟩ := tree.inOrder
    have fresh : ∀ id ∈ {id | h.Below own id}, ¬ (g.splitCopies live).1.Has id := fun _ below =>
      tree.fresh own (by simp) below
    have joint := s.inOrder.beside tree.beside z fresh
    have others : ∀ id ∈ (g.splitCopies live).2, _ := fun id mem =>
      (s.ready mem).beside s.inOrder tree.beside z fresh
    refine ⟨_, _, by rw [is]; exact joint, ?_, ?_, ?_, ?_, ?_, ?_,
      is ▸ Nat.le_trans s.larger tree.beside.size⟩
    · rintro id (mem | mem) had
      · exact s.fresh mem had
      · exact fresh id mem (beside.has had)
    · rw [is]
      refine List.nodup_cons.mpr ⟨fun mem => ?_, s.nodup⟩
      exact fresh own top.mem (s.inOrder.has (s.ready mem).mem)
    · rw [is]
      intro id mem
      rcases List.mem_cons.mp mem with rfl | mem
      · exact top.besideNew s.inOrder tree.beside fresh
      · exact others id mem
    · intro copy mem
      have has := s.inOrder.has (s.inOrder.root mem).1
      rw [is, levelBeside_of_has has, tree.beside.node has]
      exact s.copies mem
    · rintro id (mem | mem) had
      · rw [levelBeside_of_has (s.inOrder.has mem)]
        exact s.ofRange mem had
      · exact absurd (Nat.lt_of_lt_of_le had s.larger) (fresh id mem)
    · rw [is]
      rintro id (mem | mem) new
      · left
        rw [tree.beside.node (s.inOrder.has mem)]
        exact s.glued mem new
      · obtain ⟨trail, way⟩ := mem
        refine .inr ⟨own, rfl, trail, way, fresh id ⟨trail, way⟩, ?_⟩
        rw [levelBeside_of_not_has (fresh id ⟨trail, way⟩)]
        exact (tree.linked own (by simp)).level_of_trail way

theorem not_has_of_grown {zone : Set NodeId} (fresh : ∀ {id}, id ∈ zone → ¬ g.Has id)
    (size : g.size ≤ h.size) {id : NodeId} (mem : id ∈ h.grown k zone) : ¬ g.Has id := by
  rcases mem with mem | ⟨new, -⟩
  · exact fresh mem
  · exact fun had => new (Nat.lt_of_lt_of_le had size)

theorem mem_of_grown {zone : Set NodeId} {id : NodeId} (mem : id ∈ g.grown h zone)
    (had : g.Has id) : id ∈ zone :=
  mem.resolve_right fun both => both.1 had

theorem OwnZone.joined {live : List NodeId} {condition : Option NodeId} {zone : Set NodeId}
    {level : NodeId → List NodeId} (s : OwnZone g live condition zone level) :
    Joined (g.ownCopied live condition).1 (g.filterJoined live condition).1
      {copy | copy ∈ g.liveCopies live} ∅ zone ((g.ownCopied live condition).1.levelWith level [])
      [] ((g.ownCopied live condition).2.toList ++ (g.splitCopies live).2)
      (g.filterJoined live condition).2 :=
  (s.inOrder.levelWith []).conjoin [] (fun _ new => levelWith_of_not_has new [])
    (fun _ mem => s.inOrder.readyWith [] (s.ready mem)) s.nodup

theorem OwnZone.anchored {live : List NodeId} {condition : Option NodeId} {zone : Set NodeId}
    {level : NodeId → List NodeId} (s : OwnZone g live condition zone level) (usage : RangeUsage) :
    Joined (g.filterJoined live condition).1 (g.built live condition usage).1
      {copy | copy ∈ g.liveCopies live} ∅
      ((g.ownCopied live condition).1.grown (g.filterJoined live condition).1 zone)
      ((g.ownCopied live condition).1.levelWith level []) []
      ((g.filterJoined live condition).2.toList ++
        (g.liveCopies live).flatMap fun id =>
          ((g.filterJoined live condition).1.join? id).toList)
      (g.built live condition usage).2.2 := by
  have grows := Same.conjoin Node.isRange (g.ownCopied live condition).1
    ((g.ownCopied live condition).2.toList ++ (g.splitCopies live).2)
  refine s.joined.inOrder.withAnchor (fun id new => ?_) (fun copy mem => ?_) (by simp)
    s.joined.ready usage
  · exact levelWith_of_not_has (fun had => new (grows.has had)) []
  · have has := s.inOrder.has (s.inOrder.root mem).1
    exact ⟨(s.joined.inOrder.root mem).1, (levelWith_of_has has []).trans (s.copies mem).1,
      (grows.node has).trans (s.copies mem).2⟩

theorem perm_fst_withAnchor {ranges : List NodeId} (nodup : ranges.Nodup)
    (condition : Option NodeId) (usage : RangeUsage) :
    (g.withAnchor ranges condition usage).2.1.Perm ranges := by
  rcases g.withAnchor_cases ranges condition usage with same | ⟨anchor, mem, same⟩
  · rw [same]
  · rw [same]
    exact perm_anchorFirst nodup mem

theorem exists_built {live : List NodeId} (isRange : ∀ id ∈ live, (g.node id).isRange = true)
    (condition : Option NodeId) (usage : RangeUsage) :
    ∃ zone level, Built g live condition usage zone level := by
  obtain ⟨beside, parts⟩ := Sealed.ownCopied g live condition
  obtain ⟨zone, level, s⟩ := g.exists_ownZone isRange condition
  have joined := s.joined
  have anchored := s.anchored usage
  have copies := perm_fst_withAnchor (g := (g.filterJoined live condition).1)
    (g.forest_copyRanges live).nodup (g.filterJoined live condition).2 usage
  have grows : Same Node.stamp (g.ownCopied live condition).1 (g.filterJoined live condition).1 :=
    Same.conjoin Node.stamp _ _
  have grows' : Same Node.stamp (g.filterJoined live condition).1
      (g.built live condition usage).1 := Node.formal_stamp.toRigid.withAnchor _ _ _ usage
  have fresh : ∀ {id}, id ∈ (g.ownCopied live condition).1.grown
      (g.filterJoined live condition).1 zone → ¬ g.Has id := not_has_of_grown s.fresh beside.size
  refine ⟨_, _, anchored.inOrder.fewerRoots (Set.empty_subset _),
    not_has_of_grown fresh (beside.conjoin parts).size, ?_, ?_, ?_, ?_⟩
  · refine (copies.append_right _).nodup_iff.mpr ?_
    refine List.nodup_append.mpr ⟨(g.forest_copyRanges live).nodup, ?_, ?_⟩
    · cases (g.built live condition usage).2.2 <;> simp
    · rintro copy mem _ filter rfl
      exact (anchored.ready copy (Option.mem_toList.mp filter)).nonroot mem
  · intro id mem
    rcases List.mem_append.mp mem with mem | mem
    · have root := copies.mem_iff.mp mem
      obtain ⟨within, top⟩ := anchored.inOrder.root root
      have has := s.inOrder.has (s.inOrder.root root).1
      have range := ((grows.trans grows').isRange has).trans (s.copies root).2
      refine ⟨within, anchored.inOrder.free_of_root top, Set.notMem_empty _, ?_⟩
      rw [levelWith_of_has has, (s.copies root).1, enter_of_false (Node.opensScope_of_isRange range)]
    · have ready := anchored.ready id (Option.mem_toList.mp mem)
      exact ⟨ready.mem, ready.free, Set.notMem_empty _, ready.level⟩
  · intro id mem had
    have had' : (g.ownCopied live condition).1.Has id := Nat.lt_of_lt_of_le had s.larger
    have within := mem_of_grown (mem_of_grown mem (grows.has had')) had'
    rw [levelWith_of_has had']
    exact s.ofRange within had
  · intro id mem new
    by_cases old : (g.ownCopied live condition).1.Has id
    · have within := mem_of_grown (mem_of_grown mem (grows.has old)) old
      rw [levelWith_of_has old]
      refine (s.ofCondition within new).imp_left fun glue => ?_
      rwa [← Node.isGlue_stamp, (grows.trans grows').node old, Node.isGlue_stamp]
    · left
      by_cases older : (g.filterJoined live condition).1.Has id
      · rw [← Node.isGlue_stamp, grows'.node older, Node.isGlue_stamp]
        exact Node.isGlue_of_isAnd (joined.glue old older)
      · exact Node.isGlue_of_isAnd (anchored.glue older (anchored.inOrder.has mem))

/-- What is built for the ranges that an expression and a condition read. -/
def builtFor (g : Graph) (metadata : Metadata) (ranges : List NodeId) (expression : NodeId)
    (condition : Option NodeId) : Graph × List NodeId × Option NodeId :=
  g.built (g.liveFor metadata ranges expression condition) condition
    (g.usage metadata [expression] condition ranges)

/-- A correlated scope has the parts that were built for it, the anchor in front. -/
structure Correlated (g : Graph) (metadata : Metadata) (ranges : List NodeId) (expression : NodeId)
    (condition : Option NodeId) (h : Graph) (sub : CorrelatedScope) (zone : Set NodeId)
    (level : NodeId → List NodeId) : Prop where
  beside : Extends g h
  built : Built g (g.liveFor metadata ranges expression condition) condition
    (g.usage metadata [expression] condition ranges) zone level
  graph_eq : h = (g.builtFor metadata ranges expression condition).1
  ranges_perm : sub.ranges.Perm (g.builtFor metadata ranges expression condition).2.1
  condition_eq : sub.condition = (g.builtFor metadata ranges expression condition).2.2
  copies_eq : sub.copies = g.copyOf (g.liveFor metadata ranges expression condition)
  anchored : ∃ anchor rest, sub.ranges = anchor :: rest ∧ h.isAnchor anchor = true

/-- A search for a correlated scope works beside the graph, and what it finds is one. -/
theorem correlate_cases (g : Graph) (metadata : Metadata) {ranges : List NodeId}
    (isRange : ∀ id ∈ ranges, (g.node id).isRange = true) (expression : NodeId)
    (condition : Option NodeId) :
    Extends g (g.correlate metadata ranges expression condition).1 ∧
      ∀ sub ∈ (g.correlate metadata ranges expression condition).2, ∃ zone level,
        Correlated g metadata ranges expression condition
          (g.correlate metadata ranges expression condition).1 sub zone level := by
  refine ⟨.correlate .., ?_⟩
  cases empty : ranges.isEmpty with
  | true => simp [correlate, empty]
  | false =>
    have live : ∀ id ∈ g.liveFor metadata ranges expression condition,
        (g.node id).isRange = true := fun id mem => isRange id (mem_of_mem_liveFor mem)
    obtain ⟨zone, level, built⟩ := g.exists_built live condition
      (g.usage metadata [expression] condition ranges)
    have same := g.correlate_eq metadata expression condition empty
    dsimp only at same
    split at same
    · next anchor found =>
      rw [same]
      intro sub is
      obtain rfl := Option.some.inj is
      exact ⟨zone, level, .built .., built, rfl,
        perm_anchorFirst (List.nodup_append.mp built.nodup).1 (List.mem_of_find?_eq_some found),
        rfl, rfl, anchor, _, rfl, List.find?_some found⟩
    · simp [same]

namespace Correlated

variable {metadata : Metadata} {ranges : List NodeId} {expression : NodeId}
  {condition : Option NodeId} {sub : CorrelatedScope} {zone : Set NodeId}
  {level : NodeId → List NodeId} (c : Correlated g metadata ranges expression condition h sub zone level)

include c

theorem inOrder : h.Zone ∅ ∅ zone level := by
  rw [c.graph_eq]
  exact c.built.inOrder

theorem fresh {id : NodeId} (mem : id ∈ zone) : ¬ g.Has id := c.built.fresh mem

theorem parts : (sub.ranges ++ sub.condition.toList).Perm
    ((g.builtFor metadata ranges expression condition).2.1 ++
      (g.builtFor metadata ranges expression condition).2.2.toList) := by
  rw [c.condition_eq]
  exact c.ranges_perm.append_right _

theorem nodup : (sub.ranges ++ sub.condition.toList).Nodup :=
  c.parts.nodup_iff.mpr c.built.nodup

theorem ready {id : NodeId} (mem : id ∈ sub.ranges ++ sub.condition.toList) :
    h.Ready ∅ ∅ zone level [] id := by
  rw [c.graph_eq]
  exact c.built.ready (c.parts.mem_iff.mp mem)

end Correlated

end Graph

end RangeQuery
