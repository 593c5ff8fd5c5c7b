import RangeQuery.Proofs.Scope.ExcludedRanges
import RangeQuery.Proofs.Scope.RequiredRanges

/-!
Which range stands for another. What reads a range of a scope goes on reading it until a merge removes
the range; from then on it reads the kept one.
-/

namespace RangeQuery

namespace Graph

variable {start g h : Graph} {root scope other range heir id : NodeId}

/-- Below a scope, what still stands there of all that read a range reads its heir, which the scope
includes. A range that is included is its own heir. -/
structure Succeeds (start g : Graph) (scope range heir : NodeId) : Prop where
  included : heir ∈ g.includedRanges scope
  self : range ∈ g.includedRanges scope → heir = range
  reads : ∀ {id i}, start.node id = .identifier i → i.range = range → g.Below scope id →
    g.node id = .identifier { i with range := heir }

theorem Succeeds.refl (mem : range ∈ g.includedRanges scope) : Succeeds g g scope range range where
  included := mem
  self _ := rfl
  reads node reads _ := by rw [node, ← reads]

/-- In a set of ranges, one stands for a range. -/
def HasHeir (start g : Graph) (scope : NodeId) (kin : Set NodeId) (range : NodeId) : Prop :=
  ∃ heir ∈ kin, Succeeds start g scope range heir

theorem has_of_identifier {i : Identifier} (node : g.node id = .identifier i) : g.Has id :=
  has_of_node node (by simp)

/-- What is reached from a scope after a reshaping, and was there before, was reached from it. -/
theorem Reshaped.below_scope {zone : Set NodeId} {level : NodeId → List NodeId}
    (r : Reshaped g h {root} {id | g.Below root id} (g.levelFrom {root}) zone level)
    (l : g.Linked root) (keeps : Keeps g h) (isScope : g.ScopeIn root scope) (has : g.Has id)
    (below : h.Below scope id) : g.Below scope id := by
  have isScope' := keeps.scopeIn l isScope
  have reached := isScope'.reached.trans below
  obtain ⟨mem, on⟩ := r.level_eq l keeps.stamp reached
  obtain ⟨was, same⟩ := r.old mem has
  have around := ((r.inOrder.linked (Set.mem_singleton root)).mem_levelFrom reached).mpr
    ⟨opensScope_of_isRetrieve isScope'.isRetrieve, isScope'.reached, below⟩
  rw [← on, same] at around
  exact ((l.mem_levelFrom was).mp around).2.2

/-- Heirs stay where labels and included ranges do. -/
theorem Succeeds.keep (s : Succeeds start g scope range heir) (size : start.size ≤ g.size)
    (label : Same Node.label g h)
    (same : ∀ id, id ∈ h.includedRanges scope ↔ id ∈ g.includedRanges scope)
    (narrows : ∀ {id}, g.Has id → h.Below scope id → g.Below scope id) :
    Succeeds start h scope range heir where
  included := (same heir).mpr s.included
  self mem := s.self ((same range).mp mem)
  reads node reads below := by
    have has : g.Has _ := Nat.lt_of_lt_of_le (has_of_identifier node) size
    have kept := label.node has
    rw [s.reads node reads (narrows has below)] at kept
    exact Node.label_eq_identifier kept

/-! ## Merges -/

section

variable {pair : IdentityPair} {i : Identifier}

/-- A merge leaves what does not read the removed range. -/
theorem identifier_mergePair_of_ne (node : g.node id = .identifier i) (ne : i.range ≠ pair.removed) :
    (g.mergePair scope pair).node id = .identifier i := by
  have rejoined := (Node.slotless_label.toRigid.rejoined g pair).node (has_of_identifier node)
  rw [node] at rejoined
  have node' := Node.label_eq_identifier rejoined
  rw [mergePair_eq, identifier_exclude, node_rebind_of_renamed, node']
  rw [node', Node.renamed, Renaming.get?_insert_other _ (Ne.symm ne), Renaming.get?_empty]
  rfl

/-- A merge lets what reads the removed range, below the scope, read the kept one. -/
theorem identifier_mergePair (l : g.Linked root) (merged : g.ScopeIn root scope)
    (p : g.IsPair (g.includedRanges scope) pair)
    (node : g.node id = .identifier { i with range := pair.removed })
    (below : (g.mergePair scope pair).Below scope id) :
    (g.mergePair scope pair).node id = .identifier { i with range := pair.kept } := by
  classical
  have rejoined := (Node.slotless_label.toRigid.rejoined g pair).node (has_of_identifier node)
  rw [node] at rejoined
  have node' := Node.label_eq_identifier rejoined
  have l' := (l.zone.rejoined merged.reached p).linked (Set.mem_singleton root)
  have reached : (g.rejoined pair).Below root scope :=
    ((Keeps.of_rigid fun rigid => rigid.rejoined g pair).scopeIn l merged).reached
  rw [mergePair_eq] at below ⊢
  rw [((Relabels.rebind ..).trans (.exclude ..)).below] at below
  rw [identifier_exclude, l'.node_rebind reached, if_pos below, node', Node.renamed,
    Renaming.get?_insert_same]
  rfl

end

variable {kin : Set NodeId}

/-- Heirs stay where labels and included ranges do. -/
theorem HasHeir.keep (heirs : HasHeir start g scope kin range) (size : start.size ≤ g.size)
    (label : Same Node.label g h)
    (same : ∀ id, id ∈ h.includedRanges scope ↔ id ∈ g.includedRanges scope)
    (narrows : ∀ {id}, g.Has id → h.Below scope id → g.Below scope id) :
    HasHeir start h scope kin range := by
  obtain ⟨heir, akin, s⟩ := heirs
  exact ⟨heir, akin, s.keep size label same narrows⟩

/-- After a merge the kept range stands for the removed one, and for all that this one stood for. -/
theorem HasHeir.mergePair {pair : IdentityPair} (heirs : HasHeir start g other kin range)
    (akin : pair.kept ∈ kin ↔ pair.removed ∈ kin) (size : start.size ≤ g.size) (l : g.Linked root)
    (p : g.IsPair (g.includedRanges scope) pair) (merged : g.ScopeIn root scope)
    (isScope : g.ScopeIn root other) : HasHeir start (g.mergePair scope pair) other kin range := by
  obtain ⟨heir, mem, s⟩ := heirs
  have keeps : Keeps g (g.mergePair scope pair) := .of_unbound fun unbound =>
    unbound.mergePair g scope pair
  obtain ⟨zone, level, reshaped, -⟩ := l.zone.enlarges (l.zone.mergePair merged.reached p)
  have was : ∀ {id i}, start.node id = .identifier i → i.range = range →
      (g.mergePair scope pair).Below other id → g.node id = .identifier { i with range := heir } :=
    fun node reads below => s.reads node reads <| reshaped.below_scope l keeps isScope
      (Nat.lt_of_lt_of_le (has_of_identifier node) size) below
  by_cases same : heir = pair.removed
  · subst same
    have declared := (mem_includedRanges s.included).1
    obtain rfl := l.declared_unique merged.reached isScope.reached (mem_includedRanges p.removed).1
      declared
    refine ⟨pair.kept, akin.mpr mem, (l.mem_includedRanges_mergePair isScope).mpr ⟨p.kept, p.ne⟩,
      fun still => ?_, fun node reads below => ?_⟩
    · obtain ⟨still, ne⟩ := (l.mem_includedRanges_mergePair isScope).mp still
      exact absurd (s.self still).symm ne
    · exact identifier_mergePair l isScope p (was node reads below) below
  · refine ⟨heir, mem, (l.mem_includedRanges_mergePair isScope).mpr ⟨s.included, same⟩,
      fun still => s.self ((l.mem_includedRanges_mergePair isScope).mp still).1,
      fun node reads below => ?_⟩
    exact identifier_mergePair_of_ne (was node reads below) same

/-- Merging the ranges of a scope leaves the heirs in a saturated set. -/
theorem HasHeir.mergeSelfJoins (heirs : HasHeir start g other kin range)
    (size : start.size ≤ g.size) (l : g.Linked root) (merged : g.ScopeIn root scope)
    (isScope : g.ScopeIn root other) (closed : g.Saturated scope kin) :
    HasHeir start (g.mergeSelfJoins scope).1 other kin range := by
  refine l.mergeSelfJoins_induction merged (motive := fun h => HasHeir start h other kin range)
    (fun l' unbound found heirs => ?_) heirs
  have keeps := Keeps.of_unbound unbound
  have p := isPair_of_findIdentity? found
  exact heirs.mergePair (l.kin_pair merged closed unbound p)
    (size.trans (unbound Node.formal_stamp.toUnbound).size) l' p (keeps.scopeIn l merged)
    (keeps.scopeIn l isScope)

/-! ## Dead joins -/

/-- Excluding another range leaves an heir. -/
theorem Succeeds.exclude {dead : NodeId} (s : Succeeds start g scope range heir) (ne : heir ≠ dead) :
    Succeeds start (g.exclude dead) scope range heir where
  included := mem_includedRanges_exclude.mpr ⟨s.included, ne⟩
  self mem := s.self (mem_includedRanges_exclude.mp mem).1
  reads node reads below :=
    identifier_exclude.mpr (s.reads node reads ((Relabels.exclude g dead).below.mp below))

end Graph

end RangeQuery
