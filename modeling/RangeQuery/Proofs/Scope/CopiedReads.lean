import RangeQuery.Proofs.Scope.AggregateCondition

/-!
What the identifiers of a correlated scope read. Each of them stands for an identifier below a
range or a condition that was copied: it reads the same range, if that was not copied with it, or
a new range like it.
-/

namespace RangeQuery

namespace Renaming

theorem mem_of_get?_foldl_insert {pairs : List (NodeId × NodeId)} {names : Renaming}
    {old new : NodeId}
    (found : (pairs.foldl (fun names pair => names.insert pair.1 pair.2) names).get? old = some new) :
    names.get? old = some new ∨ (old, new) ∈ pairs := by
  induction pairs generalizing names with
  | nil => exact .inl found
  | cons pair rest ih =>
    rcases ih found with before | later
    · by_cases same : pair.1 = old
      · subst same
        rw [get?_insert_same] at before
        exact .inr (by simp [← Option.some.inj before])
      · rw [get?_insert_other _ same] at before
        exact .inl before
    · exact .inr (List.mem_cons_of_mem _ later)

/-- What a renaming from a list of pairs tells is one of the pairs. -/
theorem mem_of_get?_ofList {pairs : List (NodeId × NodeId)} {old new : NodeId}
    (found : (ofList pairs).get? old = some new) : (old, new) ∈ pairs := by
  refine (mem_of_get?_foldl_insert found).resolve_left fun none => ?_
  rw [get?_empty] at none
  cases none

end Renaming

namespace Graph

variable {g h k : Graph} {root top id : NodeId} {names : Renaming} {tops : Set NodeId}

/-- What stands for the range of an identifier below one of some copied nodes: that range, if it
hangs below none of the copied node, or a new one of its label. -/
inductive ReadsLike (g h : Graph) (tops : Set NodeId) (range : NodeId) : Prop
  | kept {top origin : NodeId} {i : Identifier} : top ∈ tops → g.Below top origin →
      g.node origin = .identifier i → i.range = range →
      (∀ owner, g.Below top owner → range ∉ g.children owner) → ReadsLike g h tops range
  | fresh {top origin : NodeId} {i : Identifier} : top ∈ tops → g.Below top origin →
      g.node origin = .identifier i → ¬ g.Has range →
      ((g.node i.range).isRange = true → (h.node range).label = (g.node i.range).label) →
      ReadsLike g h tops range

namespace ReadsLike

variable {range : NodeId}

theorem mono {tops' : Set NodeId} (r : ReadsLike g h tops range) (more : tops ⊆ tops') :
    ReadsLike g h tops' range := by
  cases r with
  | kept mem below node same apart => exact .kept (more mem) below node same apart
  | fresh mem below node new label => exact .fresh (more mem) below node new label

/-- Later changes leave the labels of ranges. -/
theorem after (r : ReadsLike g h tops range)
    (same : ∀ id, (h.node id).isRange = true → (k.node id).label = (h.node id).label) :
    ReadsLike g k tops range := by
  cases r with
  | kept mem below node is apart => exact .kept mem below node is apart
  | fresh mem below node new label =>
    refine .fresh mem below node new fun isRange => ?_
    have kept := label isRange
    rw [same range, kept]
    rw [← Node.isRange_label, kept, Node.isRange_label, isRange]

/-- What was copied from a grown graph was copied from the old one, if it was there. -/
theorem shrink (r : ReadsLike h k tops range) (e : Extends g h)
    (grounded : ∀ top ∈ tops, g.Grounded top) : ReadsLike g k tops range := by
  cases r with
  | kept mem below node same apart =>
    have below' := (e.below_iff (grounded _ mem)).mp below
    refine .kept mem below' (e.node (grounded _ mem _ below') ▸ node) same fun owner above => ?_
    rw [← e.children (grounded _ mem _ above)]
    exact apart owner ((e.below_iff (grounded _ mem)).mpr above)
  | @fresh top origin i mem below node new label =>
    have below' := (e.below_iff (grounded _ mem)).mp below
    refine .fresh mem below' (e.node (grounded _ mem _ below') ▸ node)
      (fun had => new (e.has had)) fun isRange => ?_
    have had : g.Has i.range := has_of_isRange isRange
    rw [← e.node had] at isRange ⊢
    exact label isRange

end ReadsLike

/-- What a copy reads follows what was copied; what the given renaming tells is to be like it. -/
theorem Follows.readsLike {old new origin : NodeId} {i : Identifier}
    (f : Follows g h names root old new) (mem : root ∈ tops) (below : g.Below root origin)
    (node : g.node origin = .identifier i) (same : i.range = old)
    (given : names.get? old = some new → ReadsLike g h tops new) : ReadsLike g h tops new := by
  subst same
  cases f with
  | outside apart is => exact .kept mem below node is.symm (is ▸ apart)
  | given found => exact given found
  | copied fresh label => exact .fresh mem below node fresh label

/-- A copied range keeps its label. -/
theorem label_copyWith (isRange : (g.node root).isRange = true) (names : Renaming) :
    ((g.copyWith root names).1.node (g.copyWith root names).2).label = (g.node root).label := by
  have has : g.Has root := has_of_isRange isRange
  obtain ⟨draft, names', drafted, same⟩ := g.copyWith_eq root names
  have label := drafted.label has
  have isRange' : (draft.node (g.copyWith root names).2).isRange = true := by
    rw [← Node.isRange_label, label, Node.isRange_label, isRange]
  rw [same, node_rebind_of_isRange _ _ _ isRange', label]

/-! ## Copied ranges -/

/-- The copies of some ranges are new and have their labels. -/
theorem copyRanges_pairs {ids : List NodeId} (isRange : ∀ id ∈ ids, (g.node id).isRange = true) :
    ∀ pair ∈ (g.copyRanges ids).2, pair.1 ∈ ids ∧ ¬ g.Has pair.2 ∧
      ((g.copyRanges ids).1.node pair.2).label = (g.node pair.1).label := by
  induction ids generalizing g with
  | nil => simp [copyRanges]
  | cons id rest ih =>
    have forest := g.forest_copyWith id .empty
    have others := (g.copyWith id .empty).1.forest_copyRanges rest
    have copy : (g.copyWith id .empty).2 ∈ [(g.copyWith id .empty).2] := List.mem_singleton_self _
    have had : ∀ other ∈ id :: rest, g.Has other := fun other mem => has_of_isRange (isRange other mem)
    rintro pair mem
    rcases List.mem_cons.mp mem with rfl | mem
    · refine ⟨by simp, forest.fresh _ copy (Below.refl _ _), ?_⟩
      exact (congrArg Node.label (others.beside.node (forest.linked _ copy).has)).trans
        (label_copyWith (isRange id (by simp)) .empty)
    · have kept : ∀ other ∈ rest, (g.copyWith id .empty).1.node other = g.node other :=
        fun other later => forest.beside.node (had other (by simp [later]))
      obtain ⟨among, new, label⟩ := ih (fun other later =>
        (congrArg Node.isRange (kept other later)).trans (isRange other (by simp [later]))) pair mem
      exact ⟨by simp [among], fun was => new (forest.beside.has was),
        label.trans (congrArg Node.label (kept pair.1 among))⟩

theorem readsLike_copyRanges (l : g.Linked top) {ids : List NodeId}
    (above : ∀ id ∈ ids, g.Below top id) {copy : NodeId}
    (mem : copy ∈ (g.copyRanges ids).2.map (·.2)) {i : Identifier}
    (below : (g.copyRanges ids).1.Below copy id)
    (node : (g.copyRanges ids).1.node id = .identifier i) :
    ReadsLike g (g.copyRanges ids).1 {id | id ∈ ids} i.range := by
  induction ids generalizing g with
  | nil => simp [copyRanges] at mem
  | cons first rest ih =>
    have forest := g.forest_copyWith first .empty
    have others := (g.copyWith first .empty).1.forest_copyRanges rest
    have tree := forest.linked _ (List.mem_singleton_self _)
    rcases List.mem_cons.mp mem with rfl | mem
    · have below' := (others.beside.below_iff (tree.grounded (Below.refl _ _))).mp below
      have node' := (others.beside.node (tree.has_of_below below')).symm.trans node
      obtain ⟨origin, i', within, was, -, follows⟩ :=
        follows_copyWith l (above first (by simp)) .empty below' node'
      have among : first ∈ {id | id ∈ first :: rest} := by simp
      refine (follows.readsLike among within was rfl fun found => ?_).after fun other isRange => ?_
      · rw [Renaming.get?_empty] at found
        cases found
      · exact congrArg Node.label (others.beside.node (has_of_isRange isRange))
    · have later := ih (forest.beside.linked l) (fun other later =>
        (forest.beside.below_iff (l.grounded (Below.refl g top))).mpr (above other (by simp [later])))
        mem below node
      refine (later.shrink forest.beside fun other among => ?_).mono fun other among => ?_
      · exact l.grounded (above other (by simp [show other ∈ rest from among]))
      · exact List.mem_cons_of_mem _ among

/-- What the identifiers of a copy read that is made beside a graph, under a renaming to new nodes
like the old ones. -/
theorem readsLike_copyWith (l : g.Linked top) (beside : Extends g k)
    (given : ∀ {old new}, names.get? old = some new → ¬ g.Has new ∧
      ((g.node old).isRange = true → (k.node new).label = (g.node old).label))
    (above : g.Below top root)
    (below : (k.copyWith root names).1.Below (k.copyWith root names).2 id) {i : Identifier}
    (node : (k.copyWith root names).1.node id = .identifier i) :
    ReadsLike g (k.copyWith root names).1 {root} i.range := by
  obtain ⟨origin, i', within, was, -, follows⟩ :=
    follows_copyWith (beside.linked l) ((beside.below_iff (l.grounded (Below.refl g top))).mpr above)
      names below node
  have within' := (beside.below_iff (l.grounded above)).mp within
  have was' := (beside.node (l.has_of_below (above.trans within'))).symm.trans was
  by_cases found : names.get? i'.range = some i.range
  · obtain ⟨new, label⟩ := given found
    refine .fresh rfl within' was' new fun isRange => ?_
    have isRange' : (k.node i.range).isRange = true := by
      rw [← Node.isRange_label, label isRange, Node.isRange_label, isRange]
    rw [(k.forest_copyWith root names).beside.node (has_of_isRange isRange'), label isRange]
  · have reads := follows.readsLike (Set.mem_singleton root) within was rfl fun given =>
      absurd given found
    exact reads.shrink beside fun other same => Set.mem_singleton_iff.mp same ▸ l.grounded above

/-! ## Rebound join predicates -/

/-- What an identifier reads after a rebinding, for a property that the renaming keeps. -/
theorem range_rebind {P : NodeId → Prop} (closed : ∀ {old new}, P old → names.get? old = some new →
    P new) (before : ∀ i, g.node id = .identifier i → P i.range) (root : NodeId) {i : Identifier}
    (node : (g.rebind root names).1.node id = .identifier i) : P i.range := by
  rw [fst_rebind] at node
  generalize g.descendants root = ids at node
  induction ids generalizing g with
  | nil => exact before i node
  | cons first rest ih =>
    refine ih (fun i node => ?_) node
    by_cases here : first = id ∧ g.Has id
    · obtain ⟨rfl, has⟩ := here
      rw [node_setNode_self g has] at node
      cases was : g.node first with
      | identifier i' =>
        rw [was, Node.renamed] at node
        obtain rfl := Node.identifier.inj node
        cases found : names.get? i'.range with
        | none => simpa [found] using before i' was
        | some range => simpa [found] using closed (before i' was) found
      | _ => rw [was] at node; cases node
    · refine before i (Eq.trans ?_ node)
      by_cases same : first = id
      · subst same
        have absent : ¬ g.Has first := fun has => here ⟨rfl, has⟩
        rw [node_of_not_has absent, node_of_not_has]
        rwa [Has, size_setNode]
      · exact (node_setNode_of_ne g same _).symm

/-- What every rebinding keeps, pointing copies at each other keeps. -/
theorem rebindJoins_induction {motive : Graph → Prop} (names : Renaming) (copies : List NodeId)
    (step : ∀ g join, motive g → motive (g.rebind join names).1) (start : motive g) :
    motive (g.rebindJoins names copies) := by
  unfold rebindJoins
  induction copies generalizing g with
  | nil => exact start
  | cons copy rest ih =>
    refine ih ?_
    dsimp only
    split
    · exact step g _ start
    · exact start

theorem range_rebindJoins {P : NodeId → Prop}
    (closed : ∀ {old new}, P old → names.get? old = some new → P new)
    (before : ∀ i, g.node id = .identifier i → P i.range) (copies : List NodeId) :
    ∀ i, (g.rebindJoins names copies).node id = .identifier i → P i.range :=
  rebindJoins_induction names copies (motive := fun k => ∀ i, k.node id = .identifier i → P i.range)
    (fun _ join all _ node => range_rebind closed all join node) before

theorem node_rebindJoins_of_isRange (names : Renaming) (copies : List NodeId)
    (isRange : (g.node id).isRange = true) : (g.rebindJoins names copies).node id = g.node id := by
  refine rebindJoins_induction names copies (motive := fun k => k.node id = g.node id)
    (fun k join same => ?_) rfl
  rw [node_rebind_of_isRange k join names (same ▸ isRange), same]

/-! ## The whole scope -/

section

variable {live : List NodeId} {condition : Option NodeId} {usage : RangeUsage} {zone : Set NodeId}
  {level : NodeId → List NodeId}

/-- The copy of a live range is new and has its label. -/
theorem copyOf_spec (isRange : ∀ id ∈ live, (g.node id).isRange = true) {old new : NodeId}
    (found : (g.copyOf live).get? old = some new) : old ∈ live ∧ ¬ g.Has new ∧
      ((g.copyRanges live).1.node new).label = (g.node old).label :=
  copyRanges_pairs isRange _ (Renaming.mem_of_get?_ofList found)

/-- The copy that stands for a range reads like what read the range. -/
theorem ReadsLike.copyOf (isRange : ∀ id ∈ live, (g.node id).isRange = true) {old new : NodeId}
    (r : ReadsLike g (g.copyRanges live).1 tops old)
    (found : (g.copyOf live).get? old = some new) :
    ReadsLike g (g.copyRanges live).1 tops new := by
  obtain ⟨mem, new', label⟩ := copyOf_spec isRange found
  cases r with
  | kept mem' below node same _ => exact .fresh mem' below node new' fun _ => by rw [label, same]
  | fresh _ _ _ absent _ => exact absurd (has_of_isRange (isRange old mem)) absent

theorem readsLike_splitCopies (l : g.Linked top) (isRange : ∀ id ∈ live, (g.node id).isRange = true)
    (above : ∀ id ∈ live, g.Below top id) {copy : NodeId} (mem : copy ∈ g.liveCopies live)
    (below : (g.copyRanges live).1.Below copy id) {i : Identifier}
    (node : (g.splitCopies live).1.node id = .identifier i) :
    ReadsLike g (g.copyRanges live).1 {id | id ∈ live} i.range := by
  have has := (g.forest_copyRanges live).linked copy mem |>.has_of_below below
  have r := Relabels.rebindJoins (g.copyRanges live).1 (g.copyOf live) (g.liveCopies live)
  have split : Same Node.label _ (g.splitCopies live).1 :=
    Node.slotless_label.toRigid.splitJoins (live.map g.rangeName) _ (g.liveCopies live)
  have label := split.node (r.has.mpr has)
  rw [node] at label
  refine range_rebindJoins (fun read found => read.copyOf isRange found) (fun i node => ?_)
    (g.liveCopies live) i (Node.label_eq_identifier label.symm)
  exact readsLike_copyRanges l above mem below node

theorem label_splitCopies {copied : NodeId}
    (isRange : ((g.copyRanges live).1.node copied).isRange = true) :
    ((g.splitCopies live).1.node copied).label = ((g.copyRanges live).1.node copied).label := by
  have r := Relabels.rebindJoins (g.copyRanges live).1 (g.copyOf live) (g.liveCopies live)
  have split : Same Node.label _ (g.splitCopies live).1 :=
    Node.slotless_label.toRigid.splitJoins (live.map g.rangeName) _ (g.liveCopies live)
  rw [split.node (r.has.mpr (has_of_isRange isRange)), node_rebindJoins_of_isRange _ _ isRange]

/-- The copies stay beside the graph while a condition is copied. -/
theorem beside_ownCopied (g : Graph) (live : List NodeId) (condition : Option NodeId) :
    Extends (g.splitCopies live).1 (g.ownCopied live condition).1 := by
  cases condition with
  | none => exact .refl _
  | some condition => exact ((g.splitCopies live).1.forest_copyWith condition _).beside

theorem same_splitCopies {α : Type} {view : Node → α} (unbound : Unbound view) (g : Graph)
    (live : List NodeId) : Same view (g.copyRanges live).1 (g.splitCopies live).1 :=
  (rebindJoins_induction (g.copyOf live) (g.liveCopies live)
    (motive := Same view (g.copyRanges live).1)
    (fun k join same => same.trans (unbound.rebind k join _)) (.refl view _)).trans
      (unbound.toRigid.splitJoins _ _ _)

theorem same_built {α : Type} {view : Node → α} (rigid : Rigid view) (g : Graph)
    (live : List NodeId) (condition : Option NodeId) (usage : RangeUsage) :
    Same view (g.ownCopied live condition).1 (g.built live condition usage).1 :=
  (Same.conjoin view _ _).trans (rigid.withAnchor _ _ _ usage)

theorem forest_ownCopied {filter own : NodeId} (is : (g.ownCopied live (some filter)).2 = some own) :
    Forest (g.splitCopies live).1 (g.ownCopied live (some filter)).1 [own] := by
  obtain rfl := Option.some.inj is
  exact (g.splitCopies live).1.forest_copyWith filter (g.copyOf live)

/-- The labels of the copied ranges stay what they are to the end. -/
theorem label_built (g : Graph) (live : List NodeId) (condition : Option NodeId)
    (usage : RangeUsage) : Same Node.label (g.splitCopies live).1
      (g.built live condition usage).1 :=
  (beside_ownCopied g live condition).same.trans
    (same_built Node.slotless_label.toRigid g live condition usage)

theorem label_built_of_isRange {copied : NodeId} (condition : Option NodeId) (usage : RangeUsage)
    (isRange : ((g.copyRanges live).1.node copied).isRange = true) :
    ((g.built live condition usage).1.node copied).label =
      ((g.copyRanges live).1.node copied).label := by
  have label := label_splitCopies isRange
  have isRange' : ((g.splitCopies live).1.node copied).isRange = true := by
    rw [← Node.isRange_label, label, Node.isRange_label, isRange]
  rw [(g.label_built live condition usage).node (has_of_isRange isRange'), label]

/-- What the identifiers of a copied condition read. -/
theorem readsLike_ownCopied (l : g.Linked top) (isRange : ∀ id ∈ live, (g.node id).isRange = true)
    {filter own : NodeId} (above : g.Below top filter)
    (is : (g.ownCopied live (some filter)).2 = some own)
    (below : (g.ownCopied live (some filter)).1.Below own id) {i : Identifier}
    (node : (g.ownCopied live (some filter)).1.node id = .identifier i) :
    ReadsLike g (g.ownCopied live (some filter)).1 {filter} i.range := by
  obtain rfl := Option.some.inj is
  refine readsLike_copyWith l (Sealed.splitCopies g live).1.toExtends (fun found => ?_) above below node
  obtain ⟨mem, new, label⟩ := copyOf_spec isRange found
  refine ⟨new, fun was => (label_splitCopies ?_).trans label⟩
  rw [← Node.isRange_label, label, Node.isRange_label, was]

/-- What the identifiers of a correlated scope read. -/
theorem Built.readsLike (b : Built g live condition usage zone level) (l : g.Linked top)
    (isRange : ∀ id ∈ live, (g.node id).isRange = true)
    (above : ∀ id ∈ live ++ condition.toList, g.Below top id) (mem : id ∈ zone) {i : Identifier}
    (node : (g.built live condition usage).1.node id = .identifier i) :
    ReadsLike g (g.built live condition usage).1 {id | id ∈ live ++ condition.toList} i.range := by
  have label := g.label_built live condition usage
  by_cases has : (g.copyRanges live).1.Has id
  · obtain ⟨copy, isCopy, trail, way, -⟩ := b.ofRange mem has
    have grown : (g.splitCopies live).1.Has id := by
      obtain ⟨_, _, split⟩ := g.exists_splitZone isRange
      exact Nat.lt_of_lt_of_le has split.larger
    have same := label.node grown
    rw [node] at same
    have reads := readsLike_splitCopies l isRange (fun id mem => above id (by simp [mem])) isCopy
      ⟨trail, way⟩ (Node.label_eq_identifier same.symm)
    exact (reads.after fun other isRange => label_built_of_isRange condition usage isRange).mono
      fun other among => List.mem_append_left _ among
  · rcases b.ofCondition mem has with glue | ⟨own, is, trail, way, -, -⟩
    · rw [node] at glue
      cases glue
    · cases condition with
      | none => cases is
      | some filter =>
        have later : Same Node.label (g.ownCopied live (some filter)).1
            (g.built live (some filter) usage).1 :=
          same_built Node.slotless_label.toRigid g live (some filter) usage
        have grown : (g.ownCopied live (some filter)).1.Has id :=
          ((forest_ownCopied is).linked own (by simp)).has_of_below ⟨trail, way⟩
        have same := later.node grown
        rw [node] at same
        have reads := readsLike_ownCopied l isRange (above filter (by simp)) is ⟨trail, way⟩
          (Node.label_eq_identifier same.symm)
        refine (reads.after fun other isRange => later.node (has_of_isRange isRange)).mono ?_
        rintro other rfl
        simp

/-- What the identifiers of a correlated scope read, by the ranges and the condition that may be
copied for it. -/
theorem Correlated.readsLike {metadata : Metadata} {ranges : List NodeId} {expression : NodeId}
    {sub : CorrelatedScope} (c : Correlated g metadata ranges expression condition h sub zone level)
    (l : g.Linked top) (isRange : ∀ id ∈ ranges, (g.node id).isRange = true)
    (above : ∀ id ∈ ranges ++ condition.toList, g.Below top id) (mem : id ∈ zone) {i : Identifier}
    (node : h.node id = .identifier i) :
    ReadsLike g h {id | id ∈ ranges ++ condition.toList} i.range := by
  have among : ∀ id ∈ g.liveFor metadata ranges expression condition, id ∈ ranges :=
    fun _ mem => mem_of_mem_liveFor mem
  rw [c.graph_eq] at node ⊢
  refine (c.built.readsLike l (fun id mem => isRange id (among id mem)) (fun id mem => ?_) mem
    node).mono fun id mem => ?_
  · rcases List.mem_append.mp mem with mem | mem
    · exact above id (List.mem_append_left _ (among id mem))
    · exact above id (List.mem_append_right _ mem)
  · rcases List.mem_append.mp mem with mem | mem
    · exact List.mem_append_left _ (among id mem)
    · exact List.mem_append_right _ mem

/-- The identifiers of a copied operand read like those of the operand, too. -/
theorem readsLike_operand {metadata : Metadata} {ranges : List NodeId} {expression : NodeId}
    {sub : CorrelatedScope} (c : Correlated g metadata ranges expression condition h sub zone level)
    (l : g.Linked top) (isRange : ∀ id ∈ ranges, (g.node id).isRange = true) {operand : NodeId}
    (above : g.Below top operand)
    (below : (h.copyWith operand sub.copies).1.Below (h.copyWith operand sub.copies).2 id)
    {i : Identifier} (node : (h.copyWith operand sub.copies).1.node id = .identifier i) :
    ReadsLike g (h.copyWith operand sub.copies).1 {operand} i.range := by
  refine readsLike_copyWith l c.beside (fun found => ?_) above below node
  rw [c.copies_eq] at found
  obtain ⟨mem, new, label⟩ :=
    copyOf_spec (fun id mem => isRange id (mem_of_mem_liveFor mem)) found
  refine ⟨new, fun was => ?_⟩
  rw [c.graph_eq]
  refine (label_built_of_isRange condition _ ?_).trans label
  rw [← Node.isRange_label, label, Node.isRange_label, was]

end

end Graph

end RangeQuery
