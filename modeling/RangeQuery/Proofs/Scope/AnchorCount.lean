import Mathlib.Logic.Equiv.Basic
import RangeQuery.Proofs.Scope.Binding
import RangeQuery.Proofs.Scope.SameScopes
import RangeQuery.Proofs.WellLinked

/-!
The anchors of a scope, from which its join starts. Every pass leaves a scope as many as it had: a
merge may take one away, but then the kept range starts the join in its stead.
-/

namespace RangeQuery

/-- An included range without a join predicate. -/
def Node.startsJoin : Node → Bool
  | .range r => r.included && r.isAnchor
  | _ => false

theorem Node.isRange_of_startsJoin {node : Node} (h : node.startsJoin = true) :
    node.isRange = true := by
  cases node <;> simp_all [startsJoin, isRange]

theorem Node.startsJoin_excluded (node : Node) : node.excluded.startsJoin = false := by
  cases node <;> rfl

theorem Node.seated_startsJoin : Seated Node.startsJoin where
  required _ _ := rfl
  window _ _ := rfl
  ranges node _ := by cases node <;> rfl
  children node handles := by
    cases node with
    | range r => cases join : r.join <;> simp [withChildren, Range.withChildren, startsJoin,
        Range.isAnchor, join]
    | _ => rfl
  condition {node _ _} h := by
    cases node <;> simp only [withCondition?, Option.some.injEq, reduceCtorEq] at h <;> subst h <;>
      rfl

namespace Graph

/-- The included ranges of a scope without a join predicate, as they were declared. -/
def anchors (g : Graph) (scope : NodeId) : List NodeId := (g.includedRanges scope).filter g.isAnchor

/-- The first range that a scope declares, if it declares any, is one of its anchors. -/
def StartsWithAnchor (g : Graph) (scope : NodeId) : Prop :=
  ∀ first ∈ (g.scope scope).ranges.head?, first ∈ g.anchors scope

variable {g h : Graph} {root scope : NodeId}

theorem anchors_eq (isRetrieve : (g.node scope).isRetrieve = true) :
    g.anchors scope = (g.node scope).declared.filter fun id => (g.node id).startsJoin := by
  rw [anchors, includedRanges, List.filter_filter, ranges_scope isRetrieve]
  refine List.filter_congr fun id _ => ?_
  cases node : g.node id <;>
    simp [isAnchor, range?, node, Node.startsJoin, Bool.and_comm]

theorem mem_anchors (isRetrieve : (g.node scope).isRetrieve = true) {id : NodeId} :
    id ∈ g.anchors scope ↔ id ∈ (g.node scope).declared ∧ (g.node id).startsJoin = true := by
  rw [anchors_eq isRetrieve, List.mem_filter]

theorem Linked.nodup_declared (l : g.Linked root) (above : g.Below root scope) :
    (g.node scope).declared.Nodup := Graph.nodup_declared (l.nodup above)

theorem Linked.nodup_anchors (l : g.Linked root) (isScope : g.ScopeIn root scope) :
    (g.anchors scope).Nodup := by
  rw [anchors_eq isScope.isRetrieve]
  exact (l.nodup_declared isScope.reached).filter _

/-- A scope keeps its anchors if it goes on declaring its ranges and none becomes an anchor or ceases
to be one. -/
theorem perm_anchors (l : g.Linked root) (l' : h.Linked root) (isScope : g.ScopeIn root scope)
    (isScope' : h.ScopeIn root scope) (same : Same Node.startsJoin g h)
    (declared : ∀ {id}, (h.node id).isRange = true →
      (id ∈ (h.node scope).declared ↔ id ∈ (g.node scope).declared)) :
    (h.anchors scope).Perm (g.anchors scope) := by
  refine (List.perm_ext_iff_of_nodup (l'.nodup_anchors isScope') (l.nodup_anchors isScope)).mpr
    fun id => ?_
  rw [mem_anchors isScope'.isRetrieve, mem_anchors isScope.isRetrieve]
  have has : id ∈ (g.node scope).declared → g.Has id := fun mem =>
    l.has_of_below (isScope.reached.child (declared_subset_children _ mem))
  constructor
  · rintro ⟨mem, starts⟩
    have mem' := (declared (Node.isRange_of_startsJoin starts)).mp mem
    exact ⟨mem', same.node (has mem') ▸ starts⟩
  · rintro ⟨mem, starts⟩
    have starts' := (same.node (has mem)).trans starts
    exact ⟨(declared (Node.isRange_of_startsJoin starts')).mpr mem, starts'⟩

theorem Keeps.perm_anchors (keeps : Keeps g h) (l : g.Linked root) (l' : h.Linked root)
    (same : Same Node.startsJoin g h) (isScope : g.ScopeIn root scope) :
    (h.anchors scope).Perm (g.anchors scope) :=
  Graph.perm_anchors l l' isScope (keeps.scopeIn l isScope) same (keeps.mem_declared_iff l isScope)

/-- A scope that declares nothing goes on to declare nothing. -/
theorem Keeps.declared_eq_nil (keeps : Keeps g h) (has : g.Has scope)
    (none : (g.node scope).declared = []) : (h.node scope).declared = [] := by
  refine List.eq_nil_iff_forall_not_mem.mpr fun id mem => ?_
  rcases keeps.foreign has mem with before | ⟨some, -⟩
  · rw [none] at before
    cases before
  · exact some none

/-! ## Dead joins -/

theorem startsJoin_eq_false {id : NodeId} (joined : (g.join? id).isSome = true) :
    (g.node id).startsJoin = false := by
  cases node : g.node id with
  | range r =>
    rw [join?_eq node] at joined
    simp [Node.startsJoin, Range.isAnchor, joined]
  | _ => rfl

theorem Same.startsJoin_exclude {dead : NodeId} (joined : (g.node dead).startsJoin = false) :
    Same Node.startsJoin g (g.exclude dead) := by
  refine ⟨(Node.formal_stamp.toUnbound.exclude g dead).size, fun {id} _ => ?_⟩
  rw [node_exclude]
  split
  · next here => rw [here, joined, Node.startsJoin_excluded]
  · rfl

/-- No anchor is dropped. -/
theorem Same.startsJoin_dropDeadJoins (g : Graph) (scope : NodeId) :
    Same Node.startsJoin g (g.dropDeadJoins scope).1 := by
  refine dropDeadJoins_induction (motive := Same Node.startsJoin g) (fun {h dead} _ isDead same => ?_)
    (.refl _ g)
  refine same.trans (Same.startsJoin_exclude ?_)
  cases kind : h.node dead <;>
    simp_all [Graph.isDead, range?, Node.startsJoin]

end Graph

/-! ## Merged ranges -/

/-- Whose place in the join a range has after a merge. -/
def IdentityPair.heir (pair : IdentityPair) : Equiv.Perm NodeId :=
  match pair.holder with
  | .kept => Equiv.swap pair.kept pair.removed
  | .removed => Equiv.refl NodeId

theorem IdentityPair.heir_of_ne (pair : IdentityPair) {id : NodeId} (kept : id ≠ pair.kept)
    (removed : id ≠ pair.removed) : pair.heir id = id := by
  unfold heir
  split
  · exact Equiv.swap_apply_of_ne_of_ne kept removed
  · rfl

theorem IdentityPair.perm_map_heir (pair : IdentityPair) {ids : List NodeId} (nodup : ids.Nodup)
    (both : pair.kept ∈ ids ↔ pair.removed ∈ ids) : (ids.map pair.heir).Perm ids := by
  obtain ⟨kept, removed, holder⟩ := pair
  cases holder with
  | removed => exact .of_eq (List.map_id ids)
  | kept =>
    refine (List.perm_ext_iff_of_nodup (nodup.map (Equiv.injective _)) nodup).mpr fun id => ?_
    have moved := List.mem_map_of_injective (Equiv.swap kept removed).injective
      (a := Equiv.swap kept removed id) (l := ids)
    rw [Equiv.swap_apply_self] at moved
    refine moved.trans ?_
    rw [Equiv.swap_apply_def]
    split
    · next same => rw [same]; exact both.symm
    · split
      · next same => rw [same]; exact both
      · exact Iff.rfl

namespace Graph

variable {g h : Graph} {root scope : NodeId} {pair : IdentityPair}

/-- What holds of ranges only goes on to hold where identifiers are bound anew. -/
theorem Same.rebind_of_ranges {view : Node → Bool}
    (ranges : ∀ {node}, view node = true → node.isRange = true) (g : Graph) (root : NodeId)
    (names : Renaming) : Same view g (g.rebind root names).1 := by
  have stamp := Node.formal_stamp.toUnbound.rebind g root names
  refine ⟨stamp.size, fun {id} has => ?_⟩
  by_cases isRange : (g.node id).isRange = true
  · rw [node_rebind_of_isRange g root names isRange]
  · rw [Bool.eq_false_iff.mpr fun holds => isRange (ranges holds),
      Bool.eq_false_iff.mpr fun holds => isRange (stamp.isRange has ▸ ranges holds)]

/-- A merge changes a range as it rejoins it, and excludes the removed one. -/
theorem node_mergePair_of_isRange {id : NodeId} (isRange : (g.node id).isRange = true) :
    (g.mergePair scope pair).node id =
      if id = pair.removed then ((g.rejoined pair).node id).excluded
      else (g.rejoined pair).node id := by
  have isRange' := (Node.formal_stamp.toRigid.rejoined g pair).isRange_mono isRange
  rw [mergePair_eq, node_exclude, node_rebind_of_isRange _ _ _ isRange']

/-- A view of included ranges that goes by the join predicate and the demand for a partner row tells
of a range that is not removed what it told of the one whose place it has. -/
theorem view_rejoined {α : Type} {view : Node → α} (p : g.IsPair (g.includedRanges scope) pair)
    (takes : ∀ k r : Range, k.included = true → r.included = true →
      view (.range { k with join := r.join, required := r.required }) = view (.range r))
    {id : NodeId} (other : id ≠ pair.removed) :
    view ((g.rejoined pair).node id) = view (g.node (pair.heir id)) := by
  obtain ⟨-, k, kept, included⟩ := mem_includedRanges p.kept
  obtain ⟨-, r, removed, included'⟩ := mem_includedRanges p.removed
  by_cases same : id = pair.kept
  · rw [same, node_rejoined_kept kept removed p.ne, IdentityPair.heir]
    cases pair.holder with
    | removed => exact (congrArg view kept).symm
    | kept =>
      rw [Equiv.swap_apply_left, removed]
      exact takes k r included included'
  · rw [node_rejoined_of_ne same other, pair.heir_of_ne same other]

/-- After a merge a range starts the join where the one whose place it has did. -/
theorem startsJoin_mergePair (p : g.IsPair (g.includedRanges scope) pair) {id : NodeId}
    (has : g.Has id) :
    ((g.mergePair scope pair).node id).startsJoin = (g.node (pair.heir id)).startsJoin := by
  rw [mergePair_eq, node_exclude]
  split
  · next same =>
    subst same
    rw [Node.startsJoin_excluded]
    obtain ⟨kept, removed, holder⟩ := pair
    have joined := startsJoin_eq_false p.joined
    cases holder with
    | removed => exact joined.symm
    | kept =>
      rw [IdentityPair.heir, Equiv.swap_apply_right]
      exact joined.symm
  · next other =>
    have same := Node.formal_stamp.toRigid.rejoined g pair
    rw [(Same.rebind_of_ranges Node.isRange_of_startsJoin _ scope _).node (same.has has)]
    exact view_rejoined p (fun k r included included' => by
      simp [Node.startsJoin, Range.isAnchor, included, included']) other

/-- A scope declares both ranges of a pair of another scope, or neither. -/
theorem Linked.declared_pair (l : g.Linked root) {other : NodeId} (above : g.Below root scope)
    (above' : g.Below root other) (p : g.IsPair (g.includedRanges scope) pair) :
    pair.kept ∈ (g.node other).declared ↔ pair.removed ∈ (g.node other).declared := by
  obtain ⟨kept, -⟩ := mem_includedRanges p.kept
  obtain ⟨removed, -⟩ := mem_includedRanges p.removed
  constructor <;> intro declared
  · exact l.declared_unique above above' kept declared ▸ removed
  · exact l.declared_unique above above' removed declared ▸ kept

/-- A merge leaves every scope as many anchors as it had. -/
theorem Linked.length_anchors_mergePair (l : g.Linked root) {other : NodeId}
    (above : g.Below root scope) (isScope : g.ScopeIn root other)
    (p : g.IsPair (g.includedRanges scope) pair) :
    ((g.mergePair scope pair).anchors other).length = (g.anchors other).length := by
  have keeps : Keeps g (g.mergePair scope pair) := .of_unbound fun unbound =>
    unbound.mergePair g scope pair
  have has := l.has_of_below isScope.reached
  have declared := (Node.unbound_declared.mergePair g scope pair).node has
  have place : ∀ id ∈ (g.node other).declared,
      ((g.mergePair scope pair).node id).startsJoin = (g.node (pair.heir id)).startsJoin :=
    fun id mem => startsJoin_mergePair p <|
      l.has_of_below (isScope.reached.child (declared_subset_children _ mem))
  rw [anchors_eq (keeps.scopeIn l isScope).isRetrieve, anchors_eq isScope.isRetrieve, declared,
    ← List.countP_eq_length_filter, ← List.countP_eq_length_filter]
  calc (g.node other).declared.countP (fun id => ((g.mergePair scope pair).node id).startsJoin)
      = (g.node other).declared.countP ((fun id => (g.node id).startsJoin) ∘ pair.heir) :=
        List.countP_congr fun id mem => by rw [place id mem]; rfl
    _ = ((g.node other).declared.map pair.heir).countP fun id => (g.node id).startsJoin :=
        List.countP_map.symm
    _ = (g.node other).declared.countP fun id => (g.node id).startsJoin :=
        (pair.perm_map_heir (l.nodup_declared isScope.reached)
          (l.declared_pair above isScope.reached p)).countP_eq _

/-- Merging the ranges of a scope leaves every scope as many anchors as it had. -/
theorem Linked.length_anchors_mergeSelfJoins (l : g.Linked root) {other : NodeId}
    (merged : g.ScopeIn root scope) (isScope : g.ScopeIn root other) :
    ((g.mergeSelfJoins scope).1.anchors other).length = (g.anchors other).length := by
  refine l.mergeSelfJoins_induction merged
    (motive := fun h => (h.anchors other).length = (g.anchors other).length)
    (fun l' unbound found same => ?_) rfl
  have keeps := Keeps.of_unbound unbound
  exact (l'.length_anchors_mergePair (keeps.scopeIn l merged).reached (keeps.scopeIn l isScope)
    (isPair_of_findIdentity? found)).trans same

/-! ## The anchor in front -/

/-- A scope that declares anything has an anchor. -/
def Anchored (g : Graph) (scope : NodeId) : Prop :=
  (g.node scope).declared ≠ [] → g.anchors scope ≠ []

theorem startsWithAnchor_iff (isRetrieve : (g.node scope).isRetrieve = true) :
    g.StartsWithAnchor scope ↔
      ∀ first ∈ (g.node scope).declared.head?, (g.node first).startsJoin = true := by
  rw [StartsWithAnchor, ranges_scope isRetrieve]
  refine forall₂_congr fun first isFirst => ?_
  rw [mem_anchors isRetrieve]
  exact and_iff_right (List.mem_of_mem_head? isFirst)

/-- The anchor to be put in front is the first one that was declared. -/
theorem anchor?_includedRanges (g : Graph) (scope : NodeId) :
    g.anchor? (g.includedRanges scope) = (g.anchors scope).head? := by
  rw [anchor?, anchors, List.head?_filter]

/-- In a scope that has an anchor wherever it needs one, the pass only moves it to the front. -/
theorem Anchored.normalizeAnchor (anchored : g.Anchored scope) (metadata : Metadata) :
    (g.normalizeAnchor metadata scope).1 = (g.putAnchorFirst scope).1 := by
  cases included : g.includedRanges scope with
  | nil =>
    simp [Graph.normalizeAnchor, Graph.putAnchorFirst, included, anchor?]
  | cons range rest =>
    have declared := (mem_includedRanges (included ▸ List.mem_cons_self)).1
    have some : (g.anchor? (g.includedRanges scope)).isSome = true := by
      rw [anchor?_includedRanges, List.isSome_head?]
      simpa using anchored (List.ne_nil_of_mem declared)
    have same : g.addAnchor metadata scope = (g, false) := if_pos some
    have notEmpty : (g.includedRanges scope).isEmpty = false := by rw [included]; rfl
    simp [Graph.normalizeAnchor, notEmpty, same]

/-- What a scope declares once its first anchor is in front. -/
theorem declared_putAnchorFirst (isRetrieve : (g.node scope).isRetrieve = true) :
    ((g.putAnchorFirst scope).1.node scope).declared =
      ((g.anchors scope).head?.map (anchorFirst (g.node scope).declared)).getD
        (g.node scope).declared := by
  have has : g.Has scope := has_of_isRetrieve isRetrieve
  unfold Graph.putAnchorFirst
  rw [anchor?_includedRanges, ranges_scope isRetrieve]
  cases (g.anchors scope).head? with
  | none => rfl
  | some anchor =>
    dsimp only [Option.map_some, Option.getD_some]
    split
    · next same => exact same.symm
    · cases kind : g.node scope with
      | retrieve r =>
        rw [node_setRanges (by rw [kind]; rfl) has, if_pos rfl, kind]
        rfl
      | _ => simp [kind, Node.isRetrieve] at isRetrieve

/-- Putting its anchor in front lets a scope start with it. -/
theorem Anchored.startsWithAnchor_putAnchorFirst (anchored : g.Anchored scope)
    (l : g.Linked root) (isScope : g.ScopeIn root scope) :
    (g.putAnchorFirst scope).1.StartsWithAnchor scope := by
  have same := Node.seated_startsJoin.putAnchorFirst g scope
  have stamp := Node.formal_stamp.toSeated.putAnchorFirst g scope
  have isRetrieve := isScope.isRetrieve
  rw [startsWithAnchor_iff ((stamp.isRetrieve (l.has_of_below isScope.reached)).trans isRetrieve),
    declared_putAnchorFirst isRetrieve]
  cases found : (g.anchors scope).head? with
  | none =>
    have none : (g.node scope).declared = [] := by
      by_contra some
      exact anchored some (List.head?_eq_none_iff.mp found)
    simp [none]
  | some anchor =>
    obtain ⟨declared, starts⟩ := (mem_anchors isRetrieve).mp (List.mem_of_mem_head? found)
    have has := l.has_of_below (isScope.reached.child (declared_subset_children _ declared))
    simpa [anchorFirst, same.node has] using starts

/-- A scope goes on starting with an anchor if it goes on declaring its ranges in their order. -/
theorem StartsWithAnchor.same (starts : g.StartsWithAnchor scope) (l : g.Linked root)
    (isScope : g.ScopeIn root scope) (isScope' : h.ScopeIn root scope)
    (same : Same Node.startsJoin g h)
    (declared : (h.node scope).declared = (g.node scope).declared) : h.StartsWithAnchor scope := by
  rw [startsWithAnchor_iff isScope.isRetrieve] at starts
  rw [startsWithAnchor_iff isScope'.isRetrieve, declared]
  intro first isFirst
  have mem := List.mem_of_mem_head? isFirst
  rw [same.node (l.has_of_below (isScope.reached.child (declared_subset_children _ mem)))]
  exact starts first isFirst

/-- Putting the anchor of one scope in front leaves what another one declares. -/
theorem declared_putAnchorFirst_of_ne {other : NodeId} (has : g.Has other) (ne : other ≠ scope) :
    ((g.putAnchorFirst scope).1.node other).declared = (g.node other).declared := by
  rcases g.putAnchorFirst_cases scope with same | ⟨anchor, -, same⟩
  · rw [same]
  · rw [same]
    cases held : (g.node scope).ranges? with
    | none => simp only [setRanges, held]
    | some old => rw [node_setRanges held has, if_neg ne]

end Graph

end RangeQuery
