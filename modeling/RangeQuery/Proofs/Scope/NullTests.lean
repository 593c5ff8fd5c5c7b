import RangeQuery.Proofs.Scope.Succession

/-!
Ranges that a filter only tests for NULL. From the pass that decides on the demand for partner rows
on, the passes touch no filter: they change the flags of ranges and the order in which a scope
declares them. So a range that such a test makes optional goes on being read there, and none of
these passes drops it.
-/

namespace RangeQuery

/-- A test for NULL. -/
def Node.testsNull : Node → Bool
  | .nullCheck _ negated => !negated
  | _ => false

theorem Node.testsNull_stamp (node : Node) : node.stamp.testsNull = node.testsNull := by
  cases node <;> rfl

namespace Graph

variable {g h k : Graph} {root scope other range id : NodeId} {scopes : Set NodeId}

/-- One step up in search of a test for NULL. -/
theorem underNullTest_succ (g : Graph) (top : NodeId) (steps : Nat) (id : NodeId) :
    g.underNullTest top (steps + 1) id =
      if (g.node id).testsNull then true
      else if id = top then false else (g.parent id).any (g.underNullTest top steps) := by
  rw [Graph.underNullTest]
  cases kind : g.node id with
  | nullCheck _ negated => cases negated <;> cases g.parent id <;> simp [Node.testsNull]
  | _ => cases g.parent id <;> simp [Node.testsNull]

/-! ## Retouched graphs -/

/-- A change of the flags of ranges and of the order in which some scopes declare them. -/
structure Retouches (g h : Graph) (scopes : Set NodeId) : Prop extends Spares g h scopes where
  slots : h.size = g.size
  stamp : Same Node.stamp g h
  parent : ∀ id, h.parent id = g.parent id
  children : ∀ id ∉ scopes, h.children id = g.children id
  condition : ∀ id ∈ scopes, (h.scope id).condition = (g.scope id).condition

namespace Retouches

theorem refl (g : Graph) : Retouches g g scopes :=
  ⟨.refl g, rfl, .refl _ g, fun _ => rfl, fun _ _ => rfl, fun _ _ => rfl⟩

theorem trans (a : Retouches g h scopes) (b : Retouches h k scopes) : Retouches g k scopes :=
  ⟨a.toSpares.trans b.toSpares, b.slots.trans a.slots, a.stamp.trans b.stamp,
    fun id => (b.parent id).trans (a.parent id),
    fun id out => (b.children id out).trans (a.children id out),
    fun id mem => (b.condition id mem).trans (a.condition id mem)⟩

theorem of_relabels (r : Relabels g h) (spares : Spares g h ∅) (stamp : Same Node.stamp g h) :
    Retouches g h ∅ :=
  ⟨spares, r.size, stamp, r.parent, fun id _ => r.children id, fun _ mem => absurd mem (by simp)⟩

theorem setRequired (g : Graph) (id : NodeId) (required : Bool) :
    Retouches g (g.setRequired id required) ∅ :=
  .of_relabels (.setRequired g id required) (.setRequired g id required)
    (Node.formal_stamp.toRigid.setRequired g id required)

theorem exclude (g : Graph) (dead : NodeId) : Retouches g (g.exclude dead) ∅ :=
  .of_relabels (.exclude g dead) (.exclude g dead) (Node.formal_stamp.toUnbound.exclude g dead)

theorem setRanges {ranges : List NodeId}
    (members : ∀ id, id ∈ ranges ↔ id ∈ (g.node scope).declared)
    (owned : ∀ id ∈ (g.node scope).declared, g.parent id = some scope) :
    Retouches g (g.setRanges scope ranges) {scope} := by
  have stamp := Node.formal_stamp.toPlaced.setRanges g scope ranges
  have size := size_setRanges g scope ranges
  cases held : (g.node scope).ranges? with
  | none => simpa only [Graph.setRanges, held] using refl g
  | some old =>
    refine ⟨⟨stamp.size, fun has out _ => ?_⟩, size, stamp, parent_setRanges members owned,
      fun id out => ?_, fun id mem => ?_⟩
    · exact (node_setRanges held has).trans (if_neg out)
    · by_cases has : g.Has id
      · rw [Graph.children, (node_setRanges held has).trans (if_neg out), Graph.children]
      · have has' : ¬ (g.setRanges scope ranges).Has id := by rwa [Has, size]
        rw [Graph.children, Graph.children, node_of_not_has has, node_of_not_has has']
    · obtain rfl := Set.mem_singleton_iff.mp mem
      have has : g.Has id := by
        by_contra absent
        rw [node_of_not_has absent] at held
        cases held
      rw [Graph.scope, node_setRanges held has, if_pos rfl, Graph.scope]
      cases g.node id <;> rfl

theorem putAnchorFirst (l : g.Linked root) (above : g.Below root scope) :
    Retouches g (g.putAnchorFirst scope).1 {scope} := by
  rcases g.putAnchorFirst_cases scope with same | ⟨anchor, declared, same⟩
  · rw [same]
    exact refl g
  · rw [same]
    exact setRanges (fun _ => mem_anchorFirst declared) fun _ mem =>
      l.parent_child above (declared_subset_children _ mem)

variable (r : Retouches g h scopes) (l : g.Linked root)

include r

theorem testsNull (id : NodeId) : (h.node id).testsNull = (g.node id).testsNull := by
  by_cases has : g.Has id
  · rw [← Node.testsNull_stamp, r.stamp.node has, Node.testsNull_stamp]
  · have has' : ¬ h.Has id := by rwa [Has, r.slots]
    rw [node_of_not_has has, node_of_not_has has']

/-- A test for NULL goes on standing between two nodes, or not. -/
theorem underNullTest (top : NodeId) (steps : Nat) (id : NodeId) :
    h.underNullTest top steps id = g.underNullTest top steps id := by
  induction steps generalizing id with
  | zero => rfl
  | succ steps ih => rw [underNullTest_succ, underNullTest_succ, r.testsNull, r.parent, funext ih]

include l

/-- Apart from the scopes, a change of flags leaves what a node owns and which identifier it is. -/
theorem identifier?_eq (below : g.Below root id) (out : id ∉ scopes) :
    h.identifier? id = g.identifier? id ∧
      ∀ top, h.opensReads top false id = g.opensReads top false id := by
  have has := l.has_of_below below
  by_cases isRange : (g.node id).isRange = true
  · obtain ⟨_, node⟩ := Node.exists_of_isRange isRange
    obtain ⟨_, node'⟩ := Node.exists_of_isRange ((r.stamp.isRange has).trans isRange)
    simp [identifier?, opensReads, node, node']
  · simp [identifier?, opensReads, r.node has out (Bool.not_eq_true _ ▸ isRange)]

/-- A filter away from the scopes goes on testing what it tested. -/
theorem onlyNullTested {condition : NodeId} (above : g.Below root condition)
    (apart : ∀ id, g.Below condition id → id ∉ scopes) (range : NodeId) :
    h.onlyNullTested condition range = g.onlyNullTested condition range := by
  have same : ∀ id, g.Below condition id → h.identifier? id = g.identifier? id ∧
      ∀ top, h.opensReads top false id = g.opensReads top false id := fun id below =>
    r.identifier?_eq l (above.trans below) (apart id below)
  have met : h.preorder (h.opensReads condition false) h.size condition =
      g.preorder (g.opensReads condition false) g.size condition := by
    rw [r.slots]
    exact preorder_congr fun id below => ⟨r.children id (apart id below), (same id below).2 condition⟩
  have below : ∀ id ∈ g.preorder (g.opensReads condition false) g.size condition,
      h.identifier? id = g.identifier? id := fun id mem => by
    obtain ⟨trail, way, -⟩ := mem_preorder.mp mem
    exact (same id ⟨trail, way⟩).1
  have reads : ((h.identifiersUnder condition false).filter fun id =>
      (h.identifier? id).any fun i => i.range == range) =
        (g.identifiersUnder condition false).filter fun id =>
          (g.identifier? id).any fun i => i.range == range := by
    rw [identifiersUnder_eq, identifiersUnder_eq, met, List.filter_filter, List.filter_filter]
    exact List.filter_congr fun id mem => by rw [below id mem]
  rw [Graph.onlyNullTested, reads, r.slots, funext (r.underNullTest condition g.size),
    Graph.onlyNullTested]

end Retouches

/-! ## Tested ranges -/

/-- The filter of a scope reads a range, outside subqueries in tests for NULL only. -/
def TestedOnly (g : Graph) (scope range : NodeId) : Prop :=
  ∃ condition ∈ (g.scope scope).condition, g.onlyNullTested condition range = true

theorem TestedOnly.retouched (tested : g.TestedOnly scope range) (r : Retouches g h scopes)
    (l : g.Linked root) (isScope : g.ScopeIn root scope)
    (isScopes : ∀ other ∈ scopes, g.ScopeIn root other) : h.TestedOnly scope range := by
  obtain ⟨condition, is, only⟩ := tested
  obtain ⟨slot, apart⟩ := l.filter_apart isScope is
  refine ⟨condition, ?_, ?_⟩
  · by_cases mem : scope ∈ scopes
    · rwa [r.condition scope mem]
    · have isRetrieve := isScope.isRetrieve
      have same := r.node (l.has_of_below isScope.reached) mem <| by
        cases node : g.node scope <;> simp_all [Node.isRetrieve, Node.isRange]
      rwa [Graph.scope, same, ← Graph.scope]
  · rw [r.onlyNullTested l (isScope.reached.child slot) (fun id below mem => ?_) range, only]
    exact l.not_below_slot (isScopes id mem) isScope slot apart below

/-- A tested range that the scope declares is read. -/
theorem TestedOnly.readCount_ne_zero {scopes : List NodeId} (tested : g.TestedOnly scope range)
    (e : g.ExcludedDeclared root scopes) (l : g.Linked root)
    (isScope : ∀ scope ∈ scopes, g.ScopeIn root scope) (mem : scope ∈ scopes)
    (declared : range ∈ (g.node scope).declared) : g.readCount scope range ≠ 0 := by
  obtain ⟨condition, is, only⟩ := tested
  simp only [onlyNullTested, Bool.and_eq_true, Bool.not_eq_true', List.isEmpty_eq_false_iff] at only
  obtain ⟨id, reads⟩ := List.exists_mem_of_ne_nil _ only.1
  obtain ⟨found, reads⟩ := List.mem_filter.mp reads
  cases kind : g.identifier? id with
  | none => simp [kind] at reads
  | some i =>
    rw [kind] at reads
    exact e.readCount_ne_zero l isScope mem is declared found (node_of_identifier? kind)
      (by simpa using reads)

/-! ## Later passes -/

/-- A scope insists on some ranges, apart from those that no marker demands and the filter only tests
for NULL. -/
def InsistsUntested (g : Graph) (scope : NodeId) (kin : Set NodeId) (marked : NodeId → Prop) : Prop :=
  g.Insists scope kin fun range => ¬ marked range ∧ g.TestedOnly scope range

/-- A range that the filter of a scope makes optional is declared there, not pinned, and only tested
for NULL. -/
theorem demoted_of_requireByFilter {pinned : List NodeId}
    (firm : (g.node range).isOptional = false)
    (optional : ((g.requireByFilter pinned scope).1.node range).isOptional = true) :
    range ∈ g.includedRanges scope ∧ range ∉ pinned ∧ g.TestedOnly scope range := by
  unfold requireByFilter at optional
  split at optional
  · rw [firm] at optional
    cases optional
  · next condition is =>
    have demoted : range ∈ (g.includedRanges scope).filter
        (g.isDemoted pinned (g.nullTested condition) condition) := by
      by_contra out
      have optional' := (congrArg Node.isOptional (node_foldl_setRequired_of_not_mem out false)).symm.trans
        optional
      rw [(isOptional_of_foldl_setRequired optional').1] at firm
      cases firm
    obtain ⟨mem, is'⟩ := List.mem_filter.mp demoted
    simp only [isDemoted, Bool.and_eq_true, Bool.not_eq_true', List.contains_eq_mem,
      decide_eq_false_iff_not] at is'
    exact ⟨mem, is'.1.2, condition, is, is'.2⟩

section

variable {kin : Set NodeId} {marked : NodeId → Prop} (i : g.InsistsUntested other kin marked)
  (l : g.Linked root) (isScope : g.ScopeIn root other)

include i l isScope

/-- A scope goes on insisting if flags change only, it includes the same ranges, and none becomes
optional that is not excused. -/
theorem InsistsUntested.retouched {scopes : Set NodeId} (r : Retouches g h scopes)
    (isScopes : ∀ scope ∈ scopes, g.ScopeIn root scope)
    (same : ∀ range, range ∈ h.includedRanges other ↔ range ∈ g.includedRanges other)
    (firm : ∀ range ∈ g.includedRanges other, (g.node range).isOptional = false →
      (h.node range).isOptional = false ∨ ¬ marked range ∧ h.TestedOnly other range) :
    h.InsistsUntested other kin marked :=
  i.map same fun range mem was => was.elim (firm range mem) fun ⟨unmarked, tested⟩ =>
    .inr ⟨unmarked, tested.retouched r l isScope isScopes⟩

/-- Deciding on the demand for partner rows pins the ranges that a marker demands. -/
theorem InsistsUntested.decideRequired {metadata : Metadata} {pinned : List NodeId}
    (isScope' : g.ScopeIn root scope) (pins : ∀ range, marked range → range ∈ pinned) :
    (g.decideRequired metadata pinned scope).1.InsistsUntested other kin marked := by
  have keeps : Keeps g (g.decideRequired metadata pinned scope).1 := .of_unbound fun unbound =>
    unbound.toSteady.decideRequired g metadata pinned scope
  have label := Node.slotless_label.toRigid.decideRequired g metadata pinned scope
  refine i.retouched l isScope (decideRequired_induction (motive := fun h => Retouches g h ∅)
    (fun r => r.trans (.setRequired ..)) (.refl g)) (by simp)
    (keeps.mem_includedRanges_iff (.isIncluded_of_label label) l isScope) fun range mem firm => ?_
  rw [or_iff_not_imp_left, Bool.not_eq_false]
  intro optional
  let k := (g.requireByRelation metadata scope).1
  have steady : ∀ {α : Type} {view : Node → α}, Steady view → Same view g k := fun steady =>
    .foldl (fun g id => steady.setRequired g id true) g _
  have keeps' : Keeps g k := .of_unbound fun unbound => steady unbound.toSteady
  have l' : k.Linked root := (Relabels.foldl (fun g id => .setRequired g id true) g _).linked l
  have firm' : (k.node range).isOptional = false := by
    by_contra optional
    rw [Bool.not_eq_false] at optional
    rw [(isOptional_of_foldl_setRequired optional).1] at firm
    cases firm
  obtain ⟨mem', free, tested⟩ := demoted_of_requireByFilter firm' optional
  have declared := (mem_includedRanges mem').1
  rw [(steady Node.unbound_declared.toSteady).node (l.has_of_below isScope'.reached)] at declared
  obtain rfl := l.declared_unique isScope'.reached isScope.reached declared (mem_includedRanges mem).1
  have r : Retouches k (g.decideRequired metadata pinned scope).1 ∅ :=
    requireByFilter_induction (motive := fun h => Retouches k h ∅)
      (fun r => r.trans (.setRequired ..)) (.refl k)
  exact ⟨fun is => free (pins range is),
    tested.retouched r l' (keeps'.scopeIn l isScope) (by simp)⟩

theorem InsistsUntested.putAnchorFirst (isScope' : g.ScopeIn root scope) :
    (g.putAnchorFirst scope).1.InsistsUntested other kin marked := by
  have label := Node.slotless_label.toPlaced.putAnchorFirst g scope
  have optional := Node.placed_isOptional.putAnchorFirst g scope
  refine i.retouched l isScope (.putAnchorFirst l isScope'.reached) (by simpa using isScope')
    ((Keeps.putAnchorFirst g scope).mem_includedRanges_iff (.isIncluded_of_label label) l isScope) fun range mem firm => ?_
  rw [optional.node (has_of_mem_includedRanges mem)]
  exact .inl firm

section

variable {scopes : List NodeId} (e : g.ExcludedDeclared root scopes)
  (isScopes : ∀ scope ∈ scopes, g.ScopeIn root scope) (mem : scope ∈ scopes) {dead : NodeId}
  (among : dead ∈ g.includedRanges scope) (isDead : g.isDead scope dead = true)

include e isScopes mem among isDead

/-- No range that a scope insists on is dead: one that the filter tests for NULL is read there. -/
theorem InsistsUntested.not_mem_of_isDead (akin : dead ∈ kin) : dead ∉ g.includedRanges other := by
  obtain ⟨declared, r, node, -⟩ := mem_includedRanges among
  simp only [Graph.isDead, range?, node, Option.any_some, Bool.and_eq_true, beq_iff_eq] at isDead
  intro included
  rcases i dead akin included with firm | ⟨-, tested⟩
  · rw [node] at firm
    simp [Node.isOptional, isDead.1] at firm
  · obtain rfl := l.declared_unique (isScopes scope mem).reached isScope.reached declared
      (mem_includedRanges included).1
    exact tested.readCount_ne_zero e l isScopes mem declared isDead.2

/-- Excluding a dead range leaves an heir among the ranges that a scope insists on. -/
theorem InsistsUntested.hasHeir_exclude {start : Graph} (heirs : HasHeir start g other kin range) :
    HasHeir start (g.exclude dead) other kin range := by
  obtain ⟨heir, akin, s⟩ := heirs
  refine ⟨heir, akin, s.exclude ?_⟩
  rintro rfl
  exact i.not_mem_of_isDead l isScope e isScopes mem among isDead akin s.included

end

theorem InsistsUntested.exclude (dead : NodeId) : (g.exclude dead).InsistsUntested other kin marked := by
  intro range akin mem
  obtain ⟨was, ne⟩ := mem_includedRanges_exclude.mp mem
  rw [node_exclude, if_neg ne]
  exact (i range akin was).imp_right fun ⟨unmarked, tested⟩ =>
    ⟨unmarked, tested.retouched (.exclude g dead) l isScope (by simp)⟩

end

/-- Dropping the dead joins of a scope leaves the scopes insisting and the heirs among the ranges that
they insist on. -/
theorem InsistsUntested.dropDeadJoins {start : Graph} {kin : Set NodeId} {marked : NodeId → Prop}
    {scopes : List NodeId} (i : g.InsistsUntested other kin marked)
    (heirs : HasHeir start g other kin range) (l : g.Linked root) (isScope : g.ScopeIn root other)
    (e : g.ExcludedDeclared root scopes) (isScopes : ∀ scope ∈ scopes, g.ScopeIn root scope)
    (mem : scope ∈ scopes) :
    (g.dropDeadJoins scope).1.InsistsUntested other kin marked ∧
      HasHeir start (g.dropDeadJoins scope).1 other kin range := by
  refine (l.dropDeadJoins_induction (motive := fun h => (h.InsistsUntested other kin marked ∧
    HasHeir start h other kin range) ∧ h.ExcludedDeclared root scopes)
    (fun l' unbound among isDead => ?_) ⟨⟨i, heirs⟩, e⟩).1
  rintro ⟨⟨i, heirs⟩, e⟩
  have keeps := Keeps.of_unbound unbound
  have isScope' := keeps.scopeIn l isScope
  have isScopes' := fun scope mem => keeps.scopeIn l (isScopes scope mem)
  exact ⟨⟨i.exclude l' isScope' _, i.hasHeir_exclude l' isScope' e isScopes' mem among isDead heirs⟩,
    e.exclude l' isScopes' mem (mem_includedRanges among).1⟩

end Graph

end RangeQuery
