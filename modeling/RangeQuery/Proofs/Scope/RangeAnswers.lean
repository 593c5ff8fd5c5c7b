import RangeQuery.Proofs.Scope.Intact
import RangeQuery.Proofs.Scope.NullTests

/-!
The answers of the passes over the ranges of a scope. The flags of a range go one way only during
a pass: an excluded range stays out, and a range that became required because of a relation is none
that the filter tests for NULL, so the same pass does not free it again.
-/

namespace RangeQuery

namespace Graph

variable {g h : Graph} {root scope id range : NodeId}

/-! ## Excluded ranges -/

theorem isExcluded_exclude {dead : NodeId} (excluded : (g.node id).isExcluded = true) :
    ((g.exclude dead).node id).isExcluded = true := by
  rw [node_exclude]
  split
  · cases node : g.node id <;> simp_all [Node.isExcluded, Node.excluded]
  · exact excluded

theorem isExcluded_mergePair {pair : IdentityPair} (excluded : (g.node id).isExcluded = true) :
    ((g.mergePair scope pair).node id).isExcluded = true := by
  have isRange := isRange_of_isExcluded excluded
  have rejoined : ((g.rejoined pair).node id).isExcluded = true := by
    rw [← Node.isExcluded_label,
      (Node.slotless_label.toRigid.rejoined g pair).node (has_of_isRange isRange),
      Node.isExcluded_label, excluded]
  rw [node_mergePair_of_isRange isRange]
  split
  · cases node : (g.rejoined pair).node id <;> simp_all [Node.isExcluded, Node.excluded]
  · exact rejoined

theorem isExcluded_removed {pair : IdentityPair} (p : g.IsPair (g.includedRanges scope) pair) :
    ((g.mergePair scope pair).node pair.removed).isExcluded = true := by
  have isRange := isRange_includedRanges g scope _ p.removed
  have isRange' := (Node.formal_stamp.toRigid.rejoined g pair).isRange_mono isRange
  rw [node_mergePair_of_isRange isRange, if_pos rfl]
  cases node : (g.rejoined pair).node pair.removed <;>
    simp_all [Node.isRange, Node.excluded, Node.isExcluded]

/-- A range that a scope includes, and that is excluded later, is another node. -/
theorem ScopeIn.altered_of_isExcluded (isScope : g.ScopeIn root scope)
    (mem : range ∈ g.includedRanges scope) (excluded : (h.node range).isExcluded = true) :
    Altered root g h := by
  obtain ⟨declared, r, node, included⟩ := mem_includedRanges mem
  refine ⟨range, isScope.reached.child (declared_subset_children _ declared), fun same => ?_⟩
  rw [same, node] at excluded
  simp [Node.isExcluded, included] at excluded

theorem ScopeIn.answers_mergeSelfJoins (isScope : g.ScopeIn root scope) :
    Answers g (Altered root g) (g.mergeSelfJoins scope).1 (g.mergeSelfJoins scope).2 := by
  unfold mergeSelfJoins
  cases (g.includedRanges scope).length with
  | zero => exact .no (.refl g)
  | succ rounds =>
    unfold mergeRounds
    split
    · next pair found =>
      have p := isPair_of_findIdentity? found
      exact .yes (isScope.altered_of_isExcluded p.removed
        (mergeRounds_induction (motive := fun h => (h.node pair.removed).isExcluded = true)
          (fun _ excluded => isExcluded_mergePair excluded) rounds (isExcluded_removed p)))
    · exact .no (.refl g)

theorem ScopeIn.answers_dropDeadJoins (isScope : g.ScopeIn root scope) :
    Answers g (Altered root g) (g.dropDeadJoins scope).1 (g.dropDeadJoins scope).2 := by
  unfold dropDeadJoins
  cases (g.includedRanges scope).length with
  | zero => exact .no (.refl g)
  | succ rounds =>
    unfold dropRounds
    split
    · next dead found =>
      have mem := List.mem_of_find?_eq_some found
      have excluded : ((g.exclude dead).node dead).isExcluded = true := by
        have isRange := isRange_includedRanges g scope dead mem
        rw [node_exclude, if_pos rfl]
        cases node : g.node dead <;> simp_all [Node.isRange, Node.excluded, Node.isExcluded]
      exact .yes (isScope.altered_of_isExcluded mem
        (dropRounds_induction (motive := fun h => (h.node dead).isExcluded = true)
          (fun _ _ excluded => isExcluded_exclude excluded) rounds excluded))
    · exact .no (.refl g)

/-! ## Required ranges -/

/-- A walk sees of a graph what the nodes own, apart from what its visitor looks at. -/
theorem walk_congr {σ : Type} (size : h.size = g.size)
    (children : ∀ id, h.children id = g.children id) (root : NodeId)
    (visit : σ → NodeId → Visit × σ) (state : σ) : h.walk root visit state = g.walk root visit state := by
  have opened : ∀ depth id, h.opened depth id = g.opened depth id := by
    intro depth id
    cases depth with
    | zero => rfl
    | succ depth => rw [Graph.opened, Graph.opened, children]
  have drain : ∀ stack state, h.drain visit stack state = g.drain visit stack state := by
    intro stack state
    induction stack, state using drain.induct g visit with
    | case1 state => rw [Graph.drain, Graph.drain]
    | case2 state depth id rest state' found => rw [Graph.drain, found, Graph.drain, found]
    | case3 state depth id rest state' found ih =>
      rw [Graph.drain, found, Graph.drain, found]
      exact ih
    | case4 state depth id rest state' found ih =>
      rw [Graph.drain, found, Graph.drain, found, opened]
      exact ih
  rw [walk, walk, size, drain]

namespace Retouches

variable (r : Retouches g h ∅)

include r

/-- Where only flags change, a node is the one it was, or a range as before. -/
theorem node_or (id : NodeId) : h.node id = g.node id ∨
    ∃ before after, g.node id = .range before ∧ h.node id = .range after := by
  by_cases has : g.Has id
  · by_cases isRange : (g.node id).isRange = true
    · obtain ⟨before, node⟩ := Node.exists_of_isRange isRange
      obtain ⟨after, node'⟩ := Node.exists_of_isRange ((r.stamp.isRange has).trans isRange)
      exact .inr ⟨before, after, node, node'⟩
    · exact .inl (r.node has (by simp) (Bool.eq_false_iff.mpr isRange))
  · have has' : ¬ h.Has id := by rwa [Has, r.slots]
    exact .inl (by rw [node_of_not_has has, node_of_not_has has'])

theorem identifier? (id : NodeId) : h.identifier? id = g.identifier? id := by
  unfold Graph.identifier?
  rcases r.node_or id with same | ⟨_, _, before, after⟩
  · rw [same]
  · rw [before, after]

theorem identifierEquality? (predicate : NodeId) :
    h.identifierEquality? predicate = g.identifierEquality? predicate := by
  unfold Graph.identifierEquality?
  rcases r.node_or predicate with same | ⟨_, _, before, after⟩
  · simp only [same, r.identifier?]
  · rw [before, after]

theorem referencedRanges (top : NodeId) : h.referencedRanges top = g.referencedRanges top := by
  have children : ∀ id, h.children id = g.children id := fun id => r.children id (by simp)
  have under : h.identifiersUnder top true = g.identifiersUnder top true := by
    unfold identifiersUnder
    rw [← walk_congr r.slots children]
    congr 3
    funext out id
    rcases r.node_or id with same | ⟨_, _, before, after⟩
    · rw [same]
    · rw [before, after]
  rw [Graph.referencedRanges, Graph.referencedRanges, under, rangesOf, rangesOf,
    funext r.identifier?]

theorem nullTested (condition : NodeId) : h.nullTested condition = g.nullTested condition := by
  unfold Graph.nullTested
  rw [← walk_congr r.slots fun id => r.children id (by simp)]
  congr 3
  funext out id
  rw [funext r.referencedRanges]
  rcases r.node_or id with same | ⟨_, _, before, after⟩
  · rw [same]
  · rw [before, after]

theorem scope_eq (id : NodeId) : h.scope id = g.scope id := by
  unfold Graph.scope
  rcases r.node_or id with same | ⟨_, _, before, after⟩
  · rw [same]
  · rw [before, after]

end Retouches

theorem retouches_foldl_setRequired (g : Graph) (ids : List NodeId) (required : Bool) :
    Retouches g (ids.foldl (fun g id => g.setRequired id required) g) ∅ :=
  foldl_setRequired_induction (motive := fun h => Retouches g h ∅)
    (fun r => r.trans (.setRequired ..)) (.refl g) ids

/-- The demand for a partner row after it was set for some ranges. -/
theorem node_foldl_setRequired {r : Range} (node : g.node id = .range r) (ids : List NodeId)
    (required : Bool) : (ids.foldl (fun g id => g.setRequired id required) g).node id =
      .range { r with required := if id ∈ ids then required else r.required } := by
  induction ids generalizing g r with
  | nil => exact node
  | cons first rest ih =>
    by_cases same : id = first
    · subst same
      have written : (g.setRequired id required).node id = .range { r with required } := by
        simp only [setRequired, updateRange, node]
        exact node_setNode_self g (has_of_isRange (by rw [node]; rfl)) _
      rw [List.foldl_cons, ih written]
      simp
    · have kept : (g.setRequired first required).node id = .range r :=
        (node_updateRange_of_ne g same _).trans node
      rw [List.foldl_cons, ih kept]
      simp [same]

theorem range?_foldl_setRequired (g : Graph) (ids : List NodeId) (required : Bool) (id : NodeId) :
    (ids.foldl (fun g id => g.setRequired id required) g).range? id = (g.range? id).map fun r =>
      { r with required := if id ∈ ids then required else r.required } := by
  rcases (retouches_foldl_setRequired g ids required).node_or id with same | ⟨r, _, node, -⟩
  · cases node : g.node id with
    | range r =>
      rw [range?, node_foldl_setRequired node, range?, node]
      rfl
    | _ => simp [range?, same, node]
  · rw [range?, node_foldl_setRequired node, range?, node]
    rfl

theorem includedRanges_foldl_setRequired (g : Graph) (ids : List NodeId) (required : Bool)
    (scope : NodeId) : (ids.foldl (fun g id => g.setRequired id required) g).includedRanges scope =
      g.includedRanges scope := by
  rw [includedRanges, (retouches_foldl_setRequired g ids required).scope_eq, includedRanges]
  simp only [range?_foldl_setRequired, Option.any_map]

/-- A range that a scope includes has changed its demand for a partner row. -/
theorem ScopeIn.altered_of_required (isScope : g.ScopeIn root scope)
    (mem : range ∈ g.includedRanges scope) {r : Range} (node : g.node range = .range r)
    {required : Bool} (after : h.node range = .range { r with required })
    (other : required ≠ r.required) : Altered root g h := by
  obtain ⟨declared, -⟩ := mem_includedRanges mem
  refine ⟨range, isScope.reached.child (declared_subset_children _ declared), fun same => other ?_⟩
  rw [after, node] at same
  exact congrArg Range.required (Node.range.inj same)

theorem ScopeIn.answers_requireByFilter (isScope : g.ScopeIn root scope) (pinned : List NodeId) :
    Answers g (Altered root g) (g.requireByFilter pinned scope).1
      (g.requireByFilter pinned scope).2 := by
  unfold requireByFilter
  split
  · exact .no (.refl g)
  next condition is =>
  dsimp only
  generalize before : (g.includedRanges scope).filter
    (g.isPromoted (g.nullTested condition) (g.rejectingRanges condition)) = promoted
  generalize before' : (g.includedRanges scope).filter
    (g.isDemoted pinned (g.nullTested condition) condition) = demoted
  by_cases quiet : promoted = [] ∧ demoted = []
  · rw [quiet.1, quiet.2]
    exact .no (.refl g)
  have told : (!promoted.isEmpty || !demoted.isEmpty) = true := by
    cases promoted <;> cases demoted <;> simp_all
  rw [told]
  refine .yes ?_
  have flips : ∀ id ∈ promoted ++ demoted, ∃ r, g.node id = .range r ∧
      id ∈ g.includedRanges scope ∧ (id ∈ demoted ↔ r.required = true) := by
    intro id mem
    subst before before'
    have included : id ∈ g.includedRanges scope :=
      (List.mem_append.mp mem).elim (fun mem => (List.mem_filter.mp mem).1)
        fun mem => (List.mem_filter.mp mem).1
    obtain ⟨-, r, node, -⟩ := mem_includedRanges included
    refine ⟨r, node, included, ?_⟩
    simp only [List.mem_append, List.mem_filter, isPromoted, isDemoted, range?, node,
      Option.any_some, Bool.and_eq_true, Bool.not_eq_true'] at mem ⊢
    grind
  obtain ⟨id, mem⟩ := List.exists_mem_of_ne_nil (promoted ++ demoted) (by simpa using quiet)
  obtain ⟨r, node, included, freed⟩ := flips id mem
  refine isScope.altered_of_required included node
    (node_foldl_setRequired (node_foldl_setRequired node promoted true) demoted false) ?_
  by_cases down : id ∈ demoted
  · simp [down, freed.mp down]
  · have up : id ∈ promoted := (List.mem_append.mp mem).resolve_right down
    simp [down, up, Bool.eq_false_iff.mpr fun firm => down (freed.mpr firm)]

theorem ScopeIn.answers_decideRequired (isScope : g.ScopeIn root scope) (metadata : Metadata)
    (pinned : List NodeId) :
    Answers g (Altered root g) (g.decideRequired metadata pinned scope).1
      (g.decideRequired metadata pinned scope).2 := by
  unfold decideRequired requireByRelation
  dsimp only
  generalize before : (g.includedRanges scope).filter (fun id =>
    !((g.scope scope).condition.toList.flatMap g.nullTested).contains id &&
      g.requiredByRelation metadata id) = promised
  cases promised with
  | nil => exact isScope.answers_requireByFilter pinned
  | cons first rest =>
    -- The first promised range is not tested for NULL, so the filter does not free it.
    obtain ⟨included, promise⟩ := List.mem_filter.mp (before ▸ List.mem_cons_self : first ∈ _)
    simp only [Bool.and_eq_true, Bool.not_eq_true', List.contains_eq_mem,
      decide_eq_false_iff_not] at promise
    obtain ⟨untested, promise⟩ := promise
    obtain ⟨-, r, node, -⟩ := mem_includedRanges included
    have loose : r.required = false := by
      obtain ⟨name, entity, join, required, included, nested⟩ := r
      cases required with
      | false => rfl
      | true => cases entity <;> cases join <;> simp [requiredByRelation, range?, node] at promise
    have retouched := retouches_foldl_setRequired g (first :: rest) true
    have raised := node_foldl_setRequired node (first :: rest) true
    generalize List.foldl _ g (first :: rest) = h at retouched raised ⊢
    have raised : h.node first = .range { r with required := true } := by simpa using raised
    have firm : (h.requireByFilter pinned scope).1.node first = .range { r with required := true } := by
      unfold requireByFilter
      rw [retouched.scope_eq]
      split
      · exact raised
      next condition is =>
      have other : first ∉ (h.includedRanges scope).filter
          (h.isDemoted pinned (h.nullTested condition) condition) := by
        intro mem
        have tested := (List.mem_filter.mp mem).2
        simp only [isDemoted, Bool.and_eq_true, List.contains_eq_mem, decide_eq_true_eq,
          retouched.nullTested] at tested
        exact untested (by simpa [is] using tested.1.1.1.2)
      dsimp only
      rw [node_foldl_setRequired (node_foldl_setRequired raised _ true), if_neg other]
      simp
    refine .yes (isScope.altered_of_required included node firm ?_)
    rw [loose]
    simp

/-! ## Markers -/

/-- A conjunction is one of its parts or a new node. -/
theorem snd_conjoinOnto (g : Graph) (first : NodeId) (rest : List NodeId) :
    (g.conjoinOnto first rest).2 = first ∨ ¬ g.Has (g.conjoinOnto first rest).2 := by
  induction rest generalizing g first with
  | nil => exact .inl rfl
  | cons next rest ih =>
    refine .inr fun had => ?_
    rcases ih (g.addBinary .and first next).1 g.next with same | new
    · exact g.not_has_next (same ▸ had)
    · exact new (has_add had _)

theorem mem_snd_conjoin {ids : List NodeId} (is : (g.conjoin ids).2 = some id) (has : g.Has id) :
    id ∈ ids := by
  cases ids with
  | nil => cases is
  | cons first rest =>
    have is' : (g.conjoinOnto first rest).2 = id := Option.some.inj is
    rcases g.snd_conjoinOnto first rest with same | new
    · rw [← is', same]
      exact List.mem_cons_self
    · exact absurd (is' ▸ has) new

theorem Linked.answers_extractMarkers (l : g.Linked root) (isScope : g.ScopeIn root scope) :
    Answers g (Altered root g) (g.extractMarkers scope).1 (!(g.extractMarkers scope).2.isEmpty) := by
  unfold extractMarkers
  split
  case h_2 => exact .no (.refl g)
  next condition is =>
  unfold extractMarkersOf
  dsimp only
  generalize marks : (g.conjuncts condition).filterMap (g.markedRange? (g.scope scope).ranges) = found
  split
  · exact .no (.refl g)
  next some =>
  have told : (!found.eraseDups.isEmpty) = true := by simpa using some
  rw [told]
  refine .yes ⟨scope, isScope.reached, fun same => ?_⟩
  have above := isScope.reached.child (l.filter_apart isScope is).1
  have out : condition ∉ (g.conjuncts condition).filter fun id =>
      (g.markedRange? (g.scope scope).ranges id).isNone := by
    refine not_mem_remaining l above fun none => some ?_
    rw [← marks, none]
    rfl
  cases node : g.node scope with
  | retrieve r =>
    have is' : r.condition = .some condition := by simpa [Graph.scope, node] using is
    have labels := Relabels.requireAll g found.eraseDups
    generalize joined : (g.requireAll found.eraseDups).conjoin ((g.conjuncts condition).filter fun id =>
      (g.markedRange? (g.scope scope).ranges id).isNone) = result at same
    have kept : result.1.node scope = .retrieve r := by
      rw [← joined, (Same.conjoin (fun node => node) _ _).node
        (labels.has.mpr (l.has_of_below isScope.reached)),
        node_requireAll_of_not_range (by rw [node]; rfl), node]
    have has : result.1.Has scope := has_of_node kept (by simp)
    rw [node_setCondition_self has (by rw [kept]; rfl), node] at same
    have filter : result.2 = .some condition :=
      (congrArg Node.condition? same).trans is'
    rw [← joined] at filter
    exact out (mem_snd_conjoin filter (labels.has.mpr (l.has_of_below above)))
  | _ => cases isScope.isRetrieve_of_node node

/-! ## Anchors -/

theorem startsJoin_eq_isAnchor (mem : range ∈ g.includedRanges scope) :
    (g.node range).startsJoin = g.isAnchor range := by
  obtain ⟨-, r, node, included⟩ := mem_includedRanges mem
  simp [node, Node.startsJoin, isAnchor, range?, included]

/-- A promoted range starts a join, if it takes part in one. -/
theorem startsJoin_promote {r : Range} (node : g.node range = .range r) (included : r.included = true)
    (condition : Option NodeId) : ((g.promote range condition).1.node range).startsJoin = true := by
  have view := Node.seated_startsJoin.toSteady
  have has : g.Has range := has_of_isRange (by rw [node]; rfl)
  unfold promote
  rw [join?_eq node]
  split
  · next join held =>
    have released : ((g.setJoin range none).node range).startsJoin = true := by
      rw [node_setJoin_self has node]
      simp [Node.startsJoin, included, Range.isAnchor]
    have has' : (g.setJoin range none).Has range := by rwa [Has, size_setJoin]
    have joined := Same.conjoinWith Node.startsJoin (g.setJoin range none) condition join
    rw [(view.setRequired _ range true).node (joined.has has'), joined.node has', released]
  · next none =>
    rw [(view.setRequired g range true).node has, node]
    simp [Node.startsJoin, included, Range.isAnchor, none]

/-- Either a scope has an anchor already or can have none, and nothing changes, or one of its ranges
becomes an anchor. -/
theorem addAnchor_cases (g : Graph) (metadata : Metadata) (scope : NodeId) :
    g.addAnchor metadata scope = (g, false) ∨
      (g.addAnchor metadata scope).2 = true ∧ ∃ range ∈ g.includedRanges scope,
        (g.node range).startsJoin = false ∧
        ((g.addAnchor metadata scope).1.node range).startsJoin = true := by
  unfold addAnchor
  dsimp only
  split
  · exact .inl rfl
  next none =>
  have noAnchor : ∀ range ∈ g.includedRanges scope, g.isAnchor range = false := by
    simpa [anchor?] using none
  generalize g.usage metadata _ _ _ = usage
  rcases g.withAnchor_cases (g.includedRanges scope) (g.scope scope).condition usage with
    same | ⟨anchor, mem, same⟩
  · rw [same]
    simp only [if_true]
    refine .inl (Prod.ext rfl ?_)
    simpa using none
  · rw [same]
    obtain ⟨-, r, node, included⟩ := mem_includedRanges mem
    have has : g.Has anchor := has_of_isRange (by rw [node]; rfl)
    have promoted := startsJoin_promote node included (g.scope scope).condition
    have has' := (Node.formal_stamp.toRigid.promote g anchor (g.scope scope).condition).has has
    generalize g.promote anchor (g.scope scope).condition = result at promoted has' ⊢
    obtain ⟨h, condition⟩ := result
    have starts : ((if condition = (g.scope scope).condition then h
        else h.setCondition scope condition).node anchor).startsJoin = true := by
      split
      · exact promoted
      · rw [(Node.seated_startsJoin.toSteady.setCondition h scope condition).node has', promoted]
    refine .inr ⟨?_, anchor, mem, by rw [startsJoin_eq_isAnchor mem, noAnchor anchor mem], starts⟩
    refine List.find?_isSome.mpr ⟨anchor, mem, ?_⟩
    generalize (if condition = (g.scope scope).condition then h
        else h.setCondition scope condition) = k at starts ⊢
    cases kind : k.node anchor <;> simp_all [Node.startsJoin, isAnchor, range?]

theorem ScopeIn.answers_normalizeAnchor (isScope : g.ScopeIn root scope) (metadata : Metadata) :
    Answers g (Altered root g) (g.normalizeAnchor metadata scope).1
      (g.normalizeAnchor metadata scope).2 := by
  unfold normalizeAnchor
  split
  · exact .no (.refl g)
  dsimp only
  rcases g.addAnchor_cases metadata scope with same | ⟨told, range, mem, joined, starts⟩
  · rw [same]
    unfold putAnchorFirst
    split
    · exact .no (.refl g)
    · next anchor found =>
      dsimp only
      split
      · exact .no (.refl g)
      · next other =>
        refine .yes ⟨scope, isScope.reached, fun same => other ?_⟩
        have isRetrieve := isScope.isRetrieve
        cases node : g.node scope with
        | retrieve r =>
          have has : g.Has scope := has_of_node node (by simp)
          have held : (g.node scope).ranges? = some r.ranges := by rw [node]; rfl
          rw [node_setRanges held has, if_pos rfl, node] at same
          have ranges : (g.scope scope).ranges = r.ranges := by simp [Graph.scope, node]
          rw [ranges] at same ⊢
          exact congrArg Node.declared same
        | _ =>
          rw [node] at isRetrieve
          cases isRetrieve
  · rw [told, Bool.true_or]
    obtain ⟨declared, r, node, -⟩ := mem_includedRanges mem
    refine .yes ⟨range, isScope.reached.child (declared_subset_children _ declared), fun same => ?_⟩
    have has := (Node.formal_stamp.toRigid.addAnchor g metadata scope).has
      (has_of_isRange (g.isRange_includedRanges scope range mem))
    have kept := (Node.seated_startsJoin.toPlaced.putAnchorFirst (g.addAnchor metadata scope).1
      scope).node has
    rw [same, joined, starts] at kept
    cases kept

end Graph

end RangeQuery
