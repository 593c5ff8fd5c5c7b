import RangeQuery.Proofs.Predicate.Conjunctions
import RangeQuery.Proofs.Scope.AnchorCount

/-!
Which ranges of a scope a row may lack. A scope insists on some ranges if a row may lack none of them
that it includes, those apart that are excused; a marker excuses a range until it makes it required.
A merge leaves a scope insisting that insists on both ranges of the pair.
-/

namespace RangeQuery

/-- A joined range that need not have a partner row. -/
def Node.isOptional : Node → Bool
  | .range r => !r.required && !r.isAnchor
  | _ => false

theorem Node.placed_isOptional : Placed Node.isOptional where
  window _ _ := rfl
  ranges node _ := by cases node <;> rfl
  children node _ := by
    cases node with
    | range r => cases join : r.join <;> simp [withChildren, Range.withChildren, isOptional,
        Range.isAnchor, join]
    | _ => rfl
  condition {node _ _} h := by
    cases node <;> simp only [withCondition?, Option.some.injEq, reduceCtorEq] at h <;> subst h <;>
      rfl

/-- The entity that a range reads from. -/
def Node.entity? : Node → Option String
  | .range r => r.entity
  | _ => none

theorem Node.formal_entity? : Formal Node.entity? where
  join _ _ := rfl
  required _ _ := rfl
  window _ _ := rfl
  ranges node _ := by cases node <;> rfl
  children node _ := by cases node <;> rfl
  condition {node _ _} h := by
    cases node <;> simp only [withCondition?, Option.some.injEq, reduceCtorEq] at h <;> subst h <;>
      rfl
  range _ _ := rfl
  included _ _ := rfl

namespace Graph

variable {g h k : Graph} {root scope other range id : NodeId}

theorem entity?_eq (g : Graph) (id : NodeId) : g.entity? id = (g.node id).entity? := by
  cases node : g.node id <;> simp [entity?, range?, node, Node.entity?]

theorem any_included (g : Graph) (id : NodeId) :
    (g.range? id).any (·.included) = (g.node id).isIncluded := by
  cases node : g.node id <;> simp [range?, node, Node.isIncluded]

theorem mem_includedRanges_iff (isRetrieve : (g.node scope).isRetrieve = true) :
    id ∈ g.includedRanges scope ↔ id ∈ (g.node scope).declared ∧ (g.node id).isIncluded = true := by
  rw [includedRanges, List.mem_filter, ranges_scope isRetrieve, any_included]

theorem has_of_mem_includedRanges (mem : id ∈ g.includedRanges scope) : g.Has id :=
  has_of_isRange (isRange_includedRanges g scope id mem)

/-- What keeps the nesting and the marks of excluded ranges keeps the ranges that a scope includes. -/
theorem Keeps.mem_includedRanges_iff (keeps : Keeps g h) (marks : Same Node.isIncluded g h)
    (l : g.Linked root) (isScope : g.ScopeIn root scope) (id : NodeId) :
    id ∈ h.includedRanges scope ↔ id ∈ g.includedRanges scope := by
  rw [Graph.mem_includedRanges_iff (keeps.scopeIn l isScope).isRetrieve,
    Graph.mem_includedRanges_iff isScope.isRetrieve]
  constructor
  · rintro ⟨declared, included⟩
    have declared' := (keeps.mem_declared_iff l isScope (Node.isRange_of_isIncluded included)).mp
      declared
    have has := l.has_of_below (isScope.reached.child (declared_subset_children _ declared'))
    exact ⟨declared', marks.node has ▸ included⟩
  · rintro ⟨declared, included⟩
    have included' := (marks.node (has_of_isIncluded included)).trans included
    exact ⟨(keeps.mem_declared_iff l isScope (Node.isRange_of_isIncluded included')).mpr declared,
      included'⟩

theorem Same.isIncluded_of_label (label : Same Node.label g h) : Same Node.isIncluded g h :=
  label.coarser Node.isIncluded fun node => node.isIncluded_label.symm

/-- Excluding a range takes it out of its scope and leaves the others in their order. -/
theorem includedRanges_exclude (g : Graph) (dead scope : NodeId) :
    (g.exclude dead).includedRanges scope = (g.includedRanges scope).filter (· ≠ dead) := by
  have clauses : (g.exclude dead).scope scope = g.scope scope := by
    rw [Graph.scope, node_exclude, Graph.scope]
    by_cases same : scope = dead
    · rw [if_pos same]
      cases g.node scope <;> rfl
    · rw [if_neg same]
  rw [includedRanges, includedRanges, clauses, List.filter_filter]
  refine List.filter_congr fun id _ => ?_
  rw [any_included, any_included, node_exclude]
  by_cases same : id = dead
  · simp [same, Node.isIncluded_excluded]
  · simp [same]

theorem mem_includedRanges_exclude {dead : NodeId} :
    id ∈ (g.exclude dead).includedRanges scope ↔ id ∈ g.includedRanges scope ∧ id ≠ dead := by
  simp [includedRanges_exclude, List.mem_filter]

/-! ## Ranges over one entity -/

/-- A range and all ranges over its entity. -/
def kin (g : Graph) (range : NodeId) : Set NodeId :=
  {other | other = range ∨ g.sameEntity range other = true}

theorem sameEntity_iff {one other : NodeId} : g.sameEntity one other = true ↔
    ∃ entity, g.entity? one = some entity ∧ g.entity? other = some entity := by
  cases left : g.entity? one with
  | none => simp [sameEntity, left]
  | some entity => simpa [sameEntity, left] using eq_comm

/-- Of two ranges over one entity, both are akin to a range or neither is. -/
theorem mem_kin_congr {one other : NodeId} (same : g.sameEntity one other = true) :
    one ∈ g.kin range ↔ other ∈ g.kin range := by
  obtain ⟨entity, left, right⟩ := sameEntity_iff.mp same
  have swap : ∀ {a b}, g.entity? a = some entity → g.entity? b = some entity →
      a ∈ g.kin range → b ∈ g.kin range := by
    rintro a b ofA ofB (rfl | akin)
    · exact .inr (sameEntity_iff.mpr ⟨entity, ofA, ofB⟩)
    · obtain ⟨entity', ofRange, ofA'⟩ := sameEntity_iff.mp akin
      rw [ofA] at ofA'
      exact .inr (sameEntity_iff.mpr ⟨entity', ofRange, ofA' ▸ ofB⟩)
  exact ⟨swap left right, swap right left⟩

/-- A set holds both of two ranges over one entity that a scope declares, or neither. -/
def Saturated (g : Graph) (scope : NodeId) (kin : Set NodeId) : Prop :=
  ∀ one ∈ (g.node scope).declared, ∀ two ∈ (g.node scope).declared,
    g.sameEntity one two = true → (one ∈ kin ↔ two ∈ kin)

theorem saturated_kin (g : Graph) (scope range : NodeId) : g.Saturated scope (g.kin range) :=
  fun _ _ _ _ same => mem_kin_congr same

/-- What keeps the nesting and the entities of ranges leaves a set saturated. -/
theorem Saturated.keep {kin : Set NodeId} (saturated : g.Saturated scope kin) (keeps : Keeps g h)
    (entity : Same Node.entity? g h) (l : g.Linked root) (isScope : g.ScopeIn root scope) :
    h.Saturated scope kin := by
  have declared : ∀ {id name}, id ∈ (h.node scope).declared → h.entity? id = some name →
      id ∈ (g.node scope).declared ∧ g.entity? id = some name := by
    intro id name declared found
    rw [entity?_eq] at found
    have isRange : (h.node id).isRange = true := by
      cases node : h.node id <;> simp_all [Node.entity?, Node.isRange]
    have was := (keeps.mem_declared_iff l isScope isRange).mp declared
    have has := l.has_of_below (isScope.reached.child (declared_subset_children _ was))
    exact ⟨was, by rw [entity?_eq, ← entity.node has, found]⟩
  intro one mem₁ two mem₂ same
  obtain ⟨name, first, second⟩ := sameEntity_iff.mp same
  obtain ⟨mem₁, first⟩ := declared mem₁ first
  obtain ⟨mem₂, second⟩ := declared mem₂ second
  exact saturated one mem₁ two mem₂ (sameEntity_iff.mpr ⟨name, first, second⟩)

/-! ## Insisting on ranges -/

/-- Of some ranges, a scope includes none that is optional, apart from the excused ones. -/
def Insists (g : Graph) (scope : NodeId) (kin : Set NodeId) (excused : NodeId → Prop) : Prop :=
  ∀ range ∈ kin, range ∈ g.includedRanges scope → (g.node range).isOptional = false ∨ excused range

variable {kin : Set NodeId} {excused excused' : NodeId → Prop}

/-- A scope goes on insisting if it includes no other ranges and what makes one of them optional
excuses it. -/
theorem Insists.map (i : g.Insists scope kin excused)
    (same : ∀ range, range ∈ h.includedRanges scope ↔ range ∈ g.includedRanges scope)
    (firm : ∀ range ∈ g.includedRanges scope, (g.node range).isOptional = false ∨ excused range →
      (h.node range).isOptional = false ∨ excused' range) : h.Insists scope kin excused' :=
  fun range akin mem =>
    firm range ((same range).mp mem) (i range akin ((same range).mp mem))

theorem Insists.mono (i : g.Insists scope kin excused)
    (still : ∀ range ∈ g.includedRanges scope, excused range → excused' range) :
    g.Insists scope kin excused' :=
  i.map (fun _ => Iff.rfl) fun range mem => Or.imp_right (still range mem)

/-- What keeps the nesting and the labels, and makes no range optional, leaves the scopes insisting. -/
theorem Insists.keep (i : g.Insists scope kin excused) (keeps : Keeps g h)
    (label : Same Node.label g h) (optional : Same Node.isOptional g h) (l : g.Linked root)
    (isScope : g.ScopeIn root scope) : h.Insists scope kin excused :=
  i.map (keeps.mem_includedRanges_iff (.isIncluded_of_label label) l isScope) fun range mem firm => by
    rwa [optional.node (has_of_mem_includedRanges mem)]

/-! ## Setting the demand -/

theorem node_foldl_setRequired_of_not_mem {ids : List NodeId} (out : id ∉ ids) (required : Bool) :
    (ids.foldl (fun g id => g.setRequired id required) g).node id = g.node id := by
  induction ids generalizing g with
  | nil => rfl
  | cons first rest ih =>
    simp only [List.mem_cons, not_or] at out
    rw [List.foldl_cons, ih out.2, setRequired, node_updateRange_of_ne g out.1]

/-- A range that is optional after it was required is none of those that were. -/
theorem isOptional_of_setRequired
    (optional : ((g.setRequired range true).node id).isOptional = true) :
    (g.node id).isOptional = true ∧ id ≠ range := by
  by_cases same : id = range
  · subst same
    cases node : g.node id with
    | range r =>
      have has := has_of_isRange (by rw [node]; rfl)
      simp [setRequired, updateRange, node, node_setNode_self g has, Node.isOptional] at optional
    | _ => simp [setRequired, updateRange, node, Node.isOptional] at optional
  · rw [setRequired, node_updateRange_of_ne g same] at optional
    exact ⟨optional, same⟩

theorem isOptional_of_foldl_setRequired {ids : List NodeId}
    (optional : ((ids.foldl (fun g id => g.setRequired id true) g).node id).isOptional = true) :
    (g.node id).isOptional = true ∧ id ∉ ids := by
  induction ids generalizing g with
  | nil => exact ⟨optional, by simp⟩
  | cons first rest ih =>
    obtain ⟨optional', out⟩ := ih optional
    obtain ⟨optional'', ne⟩ := isOptional_of_setRequired optional'
    exact ⟨optional'', by simp [ne, out]⟩

/-! ## Markers -/

/-- The filter of a scope demands a row of a declared range. -/
def Marked (g : Graph) (scope range : NodeId) : Prop :=
  ∃ condition ∈ (g.scope scope).condition, ∃ conjunct ∈ g.conjuncts condition,
    g.markedRange? (g.scope scope).ranges conjunct = some range

/-- The pass answers what the conjuncts of the filter mark, each range once. -/
theorem snd_extractMarkers (g : Graph) (scope : NodeId) :
    (g.extractMarkers scope).2 = ((g.conjunctsOf (g.scope scope).condition).filterMap
      (g.markedRange? (g.scope scope).ranges)).eraseDups := by
  unfold extractMarkers
  cases slot : (g.scope scope).condition with
  | none => rfl
  | some condition =>
    rw [conjunctsOf_some]
    dsimp only
    unfold extractMarkersOf
    dsimp only
    split
    · next none => exact (List.isEmpty_iff.mp none).symm
    · rfl

theorem mem_snd_extractMarkers : range ∈ (g.extractMarkers scope).2 ↔ g.Marked scope range := by
  rw [snd_extractMarkers, List.mem_eraseDups, List.mem_filterMap, Marked]
  cases (g.scope scope).condition <;> simp

/-- Apart from the demand for partner rows, taking markers out of a filter makes no range optional. -/
theorem Same.isOptional_extractMarkers (g : Graph) (scope : NodeId) :
    Same Node.isOptional (g.requireAll (g.extractMarkers scope).2) (g.extractMarkers scope).1 := by
  unfold extractMarkers
  split
  · unfold extractMarkersOf
    dsimp only
    split
    · exact .refl _ g
    · exact (Same.conjoin _ _ _).trans (Node.placed_isOptional.setCondition _ _ _)
  · exact .refl _ g

theorem isOptional_of_extractMarkers (has : g.Has id)
    (optional : ((g.extractMarkers scope).1.node id).isOptional = true) :
    (g.node id).isOptional = true ∧ ¬ g.Marked scope id := by
  rw [(Same.isOptional_extractMarkers g scope).node ((Relabels.requireAll g _).has.mpr has)]
    at optional
  rw [← mem_snd_extractMarkers]
  exact isOptional_of_foldl_setRequired optional

theorem Spares.extractMarkers (g : Graph) (scope : NodeId) :
    Spares g (g.extractMarkers scope).1 {scope} := by
  unfold Graph.extractMarkers
  split
  · unfold extractMarkersOf
    dsimp only
    split
    · exact .refl g
    · exact ((Spares.foldl (fun g id => .setRequired g id true) g _).trans
        (.of_same (.conjoin _ _ _))).trans (.setCondition _ scope _)
  · exact .refl g

/-- A marker holds an identifier of the range. -/
theorem markedRange?_eq_some {declared : List NodeId}
    (marks : g.markedRange? declared id = some range) :
    ∃ target i, g.node id = .rowExists target ∧ g.node target = .identifier i ∧
      (if declared.contains i.range then some i.range else none) = some range := by
  unfold markedRange? at marks
  split at marks
  · next target node =>
    split at marks
    · next i found => exact ⟨target, i, node, node_of_identifier? found, marks⟩
    · cases marks
  · cases marks

/-- The markers of a scope stay where ranges change and other scopes do. -/
theorem Marked.spared {others : Set NodeId} (marked : g.Marked scope range)
    (spares : Spares g h others) (l : g.Linked root) (l' : h.Linked root)
    (isScope : g.ScopeIn root scope) (isScope' : h.ScopeIn root scope) (out : scope ∉ others)
    (scopes : ∀ other ∈ others, (g.node other).isRetrieve = true) : h.Marked scope range := by
  obtain ⟨condition, is, conjunct, mem, marks⟩ := marked
  have clauses : h.scope scope = g.scope scope := by
    have isRetrieve := isScope.isRetrieve
    have same := spares.node (l.has_of_below isScope.reached) out <| by
      cases node : g.node scope <;> simp_all [Node.isRetrieve, Node.isRange]
    rw [Graph.scope, same, Graph.scope]
  have slot : ∀ {k : Graph}, condition ∈ (k.scope scope).condition →
      condition ∈ k.children scope := fun {k} is =>
    k.children_scope_subset scope (by simp_all [Node.children])
  have above := isScope.reached.child (slot is)
  -- Neither a conjunction nor a marker is a range or a scope.
  have kept : ∀ {id}, g.Below root id → (g.node id).isRange = false →
      (g.node id).isRetrieve = false → h.node id = g.node id := fun below noRange noScope =>
    spares.node (l.has_of_below below) (fun mem => by simp [scopes _ mem] at noScope) noRange
  obtain ⟨leaf, trail, way, spine⟩ := (mem_conjuncts l above).mp mem
  have same : ∀ owner ∈ trail, h.node owner = g.node owner := fun owner on => by
    obtain ⟨left, right, node⟩ := Node.exists_of_isAnd (spine owner on)
    exact kept (above.trans (way.below_of_mem on).1) (by rw [node]; rfl) (by rw [node]; rfl)
  obtain ⟨target, i, node, found, held⟩ := markedRange?_eq_some marks
  have below := above.trans ⟨trail, way⟩
  have node' := (kept below (by rw [node]; rfl) (by rw [node]; rfl)).trans node
  have operand : target ∈ g.children conjunct := by simp [children, node, Node.children]
  have target' := kept (below.child operand) (by rw [found]; rfl) (by rw [found]; rfl)
  refine ⟨condition, clauses ▸ is, conjunct, (mem_conjuncts l' (isScope'.reached.child ?_)).mpr
    ⟨?_, trail, way.along fun owner on => by rw [children, same owner on, children], ?_⟩, ?_⟩
  · exact slot (clauses ▸ is)
  · rw [node']
    rfl
  · intro owner on
    rw [same owner on, spine owner on]
  · rw [clauses]
    simp only [markedRange?, node', identifier?, target'.trans found]
    exact held

/-! ## Merges -/

section

variable {pair : IdentityPair} (p : g.IsPair (g.includedRanges scope) pair)

include p

/-- After a merge a range is optional where the one whose place it has was. -/
theorem isOptional_mergePair (isRange : (g.node id).isRange = true) (ne : id ≠ pair.removed) :
    ((g.mergePair scope pair).node id).isOptional = (g.node (pair.heir id)).isOptional := by
  rw [node_mergePair_of_isRange isRange, if_neg ne]
  exact view_rejoined p (fun _ _ _ _ => rfl) ne

variable (l : g.Linked root) (merged : g.ScopeIn root scope) (isScope : g.ScopeIn root other)

include l isScope

omit p in
/-- A merge takes the removed range out of its scope and leaves the others in theirs. -/
theorem Linked.mem_includedRanges_mergePair :
    id ∈ (g.mergePair scope pair).includedRanges other ↔
      id ∈ g.includedRanges other ∧ id ≠ pair.removed := by
  let names := Renaming.empty.insert pair.removed pair.kept
  have keeps : Keeps g ((g.rejoined pair).rebind scope names).1 := .of_unbound fun unbound =>
    (unbound.toRigid.rejoined g pair).trans (unbound.rebind _ scope names)
  have marks := (Same.isIncluded_of_label (Node.slotless_label.toRigid.rejoined g pair)).trans
    (Same.rebind_of_ranges Node.isRange_of_isIncluded _ scope names)
  rw [mergePair_eq, mem_includedRanges_exclude, keeps.mem_includedRanges_iff marks l isScope]

include merged

/-- A scope includes both ranges of a pair of another scope, or neither. -/
theorem Linked.includedRanges_pair :
    pair.kept ∈ g.includedRanges other ↔ pair.removed ∈ g.includedRanges other := by
  have kept := ((mem_includedRanges_iff merged.isRetrieve).mp p.kept).2
  have removed := ((mem_includedRanges_iff merged.isRetrieve).mp p.removed).2
  rw [mem_includedRanges_iff isScope.isRetrieve, mem_includedRanges_iff isScope.isRetrieve,
    l.declared_pair merged.reached isScope.reached p, kept, removed]

/-- A merge of two ranges on which a scope insists, or of two on which it does not, leaves it
insisting. -/
theorem Insists.mergePair {kin : Set NodeId} (i : g.Insists other kin fun _ => False)
    (akin : pair.kept ∈ kin ↔ pair.removed ∈ kin) :
    (g.mergePair scope pair).Insists other kin fun _ => False := by
  intro range inKin mem
  obtain ⟨was, ne⟩ := (l.mem_includedRanges_mergePair isScope).mp mem
  rw [isOptional_mergePair p (isRange_includedRanges g other range was) ne]
  by_cases same : range = pair.kept
  · subst same
    rw [IdentityPair.heir]
    cases pair.holder with
    | removed => exact i _ inKin was
    | kept =>
      rw [Equiv.swap_apply_left]
      exact i _ (akin.mp inKin) ((l.includedRanges_pair p merged isScope).mp was)
  · rw [pair.heir_of_ne same ne]
    exact i range inKin was

end

/-- A saturated set holds both ranges of a pair, or neither. -/
theorem Linked.kin_pair {kin : Set NodeId} {pair : IdentityPair} (l : g.Linked root)
    (merged : g.ScopeIn root scope)
    (closed : g.Saturated scope kin)
    (unbound : ∀ {α : Type} {view : Node → α}, Unbound view → Same view g h)
    (p : h.IsPair (h.includedRanges scope) pair) : pair.kept ∈ kin ↔ pair.removed ∈ kin := by
  have closed' : h.Saturated scope kin :=
    closed.keep (.of_unbound unbound) (unbound Node.formal_entity?.toUnbound) l merged
  exact closed' _ (mem_includedRanges p.kept).1 _ (mem_includedRanges p.removed).1 p.entity

/-- Merging the ranges of a scope leaves the scopes insisting on a saturated set. -/
theorem Insists.mergeSelfJoins {kin : Set NodeId} (i : g.Insists other kin fun _ => False)
    (l : g.Linked root) (merged : g.ScopeIn root scope) (isScope : g.ScopeIn root other)
    (closed : g.Saturated scope kin) :
    (g.mergeSelfJoins scope).1.Insists other kin fun _ => False := by
  refine l.mergeSelfJoins_induction merged (motive := fun h => h.Insists other kin fun _ => False)
    (fun l' unbound found i => ?_) i
  have keeps := Keeps.of_unbound unbound
  have p := isPair_of_findIdentity? found
  exact i.mergePair p l' (keeps.scopeIn l merged) (keeps.scopeIn l isScope)
    (l.kin_pair merged closed unbound p)

end Graph

end RangeQuery
