import RangeQuery.Proofs.Scope.RangeAnswers

/-!
The demand for partner rows, decided once. Relations and the filter raise the demand for ranges that
the filter does not test for NULL, and the filter lifts it from ranges that it tests. So no range is
touched twice, and the flags after a run of the pass follow from the graph before it.
-/

namespace RangeQuery

namespace Graph

variable {g h k : Graph} {root scope condition range id : NodeId} {metadata : Metadata}
  {pinned : List NodeId}

/-! ## Changes of the demand -/

/-- A change that leaves of each range all but the demand for a partner row, and any other node. -/
structure ChangesDemand (g h : Graph) : Prop extends Retouches g h ∅ where
  range? : ∀ id, h.range? id = (g.range? id).map fun r => { r with required := h.isRequired id }

namespace ChangesDemand

theorem refl (g : Graph) : ChangesDemand g g where
  toRetouches := .refl g
  range? id := by cases found : g.range? id <;> simp [isRequired, found]

theorem trans (a : ChangesDemand g h) (b : ChangesDemand h k) : ChangesDemand g k where
  toRetouches := a.toRetouches.trans b.toRetouches
  range? id := by
    rw [b.range?, a.range?, Option.map_map]
    rfl

theorem foldl_setRequired (g : Graph) (ids : List NodeId) (required : Bool) :
    ChangesDemand g (ids.foldl (fun g id => g.setRequired id required) g) where
  toRetouches := retouches_foldl_setRequired g ids required
  range? id := by
    have after := range?_foldl_setRequired g ids required id
    rw [isRequired, after]
    cases g.range? id <;> rfl

variable (c : ChangesDemand g h)

include c

/-- A node is the one it was, or a range as before, apart from the demand. -/
theorem node_or (id : NodeId) : h.node id = g.node id ∨
    ∃ r, g.node id = .range r ∧ h.node id = .range { r with required := h.isRequired id } := by
  rcases c.toRetouches.node_or id with same | ⟨before, after, node, node'⟩
  · exact .inl same
  · have found := c.range? id
    simp only [Graph.range?, node, node', Option.map_some, Option.some.injEq] at found
    exact .inr ⟨before, node, by rw [node', found]⟩

/-- A range with the demand it had is the node it was. -/
theorem node_of_isRequired (same : h.isRequired id = g.isRequired id) : h.node id = g.node id := by
  rcases c.node_or id with same' | ⟨r, node, node'⟩
  · exact same'
  · rw [node', node, same]
    simp [isRequired, Graph.range?, node]

theorem isJoined (id : NodeId) : h.isJoined id = g.isJoined id := by
  rw [Graph.isJoined, c.range?, Option.any_map]
  rfl

theorem entity? (id : NodeId) : h.entity? id = g.entity? id := by
  rw [Graph.entity?, c.range?, Graph.entity?, Option.bind_map]
  rfl

theorem includedRanges (scope : NodeId) : h.includedRanges scope = g.includedRanges scope := by
  rw [Graph.includedRanges, c.scope_eq, Graph.includedRanges]
  refine List.filter_congr fun id _ => ?_
  rw [c.range?, Option.any_map]

/-- Whether a relation promises a row of a range depends on its own demand and on no other. -/
theorem requiredByRelation (same : h.isRequired id = g.isRequired id) :
    h.requiredByRelation metadata id = g.requiredByRelation metadata id := by
  have range : h.range? id = g.range? id := by
    rw [Graph.range?, c.node_of_isRequired same, Graph.range?]
  unfold Graph.requiredByRelation isPromised
  simp only [range, c.identifierEquality?, c.entity?]

/-- A filter rejects the rows it rejected. -/
theorem rejectingRanges (condition : NodeId) :
    h.rejectingRanges condition = g.rejectingRanges condition := by
  have walk : ∀ {σ : Type} (top : NodeId) (visit visit' : σ → NodeId → Visit × σ) (state : σ),
      (∀ out id, visit' out id = visit out id) →
        h.walk top visit' state = g.walk top visit state := by
    intro σ top visit visit' state same
    rw [funext fun out => funext (same out), walk_congr c.slots fun id => c.children id (by simp)]
  have conjuncts : h.conjuncts condition = g.conjuncts condition := by
    unfold Graph.conjuncts
    rw [walk]
    intro out id
    rcases c.node_or id with same | ⟨_, before, after⟩
    · rw [same]
    · rw [before, after]
      rfl
  have contains : ∀ top, h.contains top toleratesMissing = g.contains top toleratesMissing := by
    intro top
    unfold Graph.contains find?
    rw [walk]
    intro out id
    rcases c.node_or id with same | ⟨_, before, after⟩
    · rw [same]
    · rw [before, after]
      rfl
  have identifiers : ∀ top, h.identifiersUnder top false = g.identifiersUnder top false := by
    intro top
    unfold identifiersUnder
    rw [walk]
    intro out id
    rcases c.node_or id with same | ⟨_, before, after⟩
    · rw [same]
    · rw [before, after]
  simp only [Graph.rejectingRanges, rangesOf, conjuncts, contains, identifiers, c.identifier?]

end ChangesDemand

/-! ## Raised and lifted demands -/

/-- The filter of a scope tests a range for NULL. -/
def FilterTests (g : Graph) (scope range : NodeId) : Prop :=
  ∃ condition ∈ (g.scope scope).condition, range ∈ g.nullTested condition

/-- A relation or the filter demands a row of an optional range, and the filter has no test for the
lack of one. -/
structure Raised (g : Graph) (metadata : Metadata) (scope range : NodeId) : Prop where
  included : range ∈ g.includedRanges scope
  joined : g.isJoined range = true
  optional : g.isRequired range = false
  untested : ¬ g.FilterTests scope range
  demanded : g.requiredByRelation metadata range = true ∨
    ∃ condition ∈ (g.scope scope).condition, range ∈ g.rejectingRanges condition

/-- The filter tests a required range that nothing pins, and reads it in tests for NULL only. -/
structure Lifted (g : Graph) (pinned : List NodeId) (scope range : NodeId) : Prop where
  included : range ∈ g.includedRanges scope
  joined : g.isJoined range = true
  required : g.isRequired range = true
  free : range ∉ pinned
  tested : ∃ condition ∈ (g.scope scope).condition,
    range ∈ g.nullTested condition ∧ g.onlyNullTested condition range = true

theorem Lifted.filterTests (lifted : g.Lifted pinned scope range) : g.FilterTests scope range := by
  obtain ⟨condition, is, tested, -⟩ := lifted.tested
  exact ⟨condition, is, tested⟩

theorem mem_flatMap_nullTested :
    range ∈ (g.scope scope).condition.toList.flatMap g.nullTested ↔ g.FilterTests scope range := by
  simp [FilterTests, List.mem_flatMap]

/-- A range with a promised partner is joined and optional. -/
theorem joined_of_requiredByRelation (promised : g.requiredByRelation metadata range = true) :
    g.isJoined range = true ∧ g.isRequired range = false := by
  unfold requiredByRelation at promised
  split at promised
  · next found => simp [isJoined, isRequired, found, Range.isAnchor]
  · cases promised

namespace ChangesDemand

variable (c : ChangesDemand g h)

include c

theorem filterTests : h.FilterTests scope range ↔ g.FilterTests scope range := by
  simp only [FilterTests, c.scope_eq, c.nullTested]

theorem raised (same : h.isRequired range = g.isRequired range) :
    h.Raised metadata scope range ↔ g.Raised metadata scope range := by
  have demands : h.requiredByRelation metadata range = g.requiredByRelation metadata range :=
    c.requiredByRelation same
  constructor
  · rintro ⟨included, joined, optional, untested, demanded⟩
    rw [demands, c.scope_eq] at demanded
    simp only [c.rejectingRanges] at demanded
    exact ⟨c.includedRanges scope ▸ included, c.isJoined range ▸ joined, same ▸ optional,
      fun tests => untested (c.filterTests.mpr tests), demanded⟩
  · rintro ⟨included, joined, optional, untested, demanded⟩
    refine ⟨(c.includedRanges scope).symm ▸ included, (c.isJoined range).symm ▸ joined,
      same.symm ▸ optional, fun tests => untested (c.filterTests.mp tests), ?_⟩
    rw [demands, c.scope_eq]
    simpa only [c.rejectingRanges] using demanded

theorem lifted (l : g.Linked root) (above : g.Below root scope)
    (same : h.isRequired range = g.isRequired range) :
    h.Lifted pinned scope range ↔ g.Lifted pinned scope range := by
  have only : ∀ condition ∈ (g.scope scope).condition,
      h.onlyNullTested condition range = g.onlyNullTested condition range := fun condition is =>
    c.onlyNullTested l (above.child (g.children_scope_subset scope (by
      simp [Node.children, Option.mem_def.mp is]))) (by simp) range
  constructor
  · rintro ⟨included, joined, required, free, condition, is, tested, reads⟩
    rw [c.scope_eq] at is
    exact ⟨c.includedRanges scope ▸ included, c.isJoined range ▸ joined, same ▸ required, free,
      condition, is, c.nullTested condition ▸ tested, only condition is ▸ reads⟩
  · rintro ⟨included, joined, required, free, condition, is, tested, reads⟩
    exact ⟨(c.includedRanges scope).symm ▸ included, (c.isJoined range).symm ▸ joined,
      same.symm ▸ required, free, condition, (c.scope_eq scope).symm ▸ is,
      (c.nullTested condition).symm ▸ tested, (only condition is).symm ▸ reads⟩

end ChangesDemand

/-! ## One run -/

theorem isRequired_foldl_false {ids : List NodeId} :
    (ids.foldl (fun g id => g.setRequired id false) g).isRequired id = true ↔
      g.isRequired id = true ∧ id ∉ ids := by
  rw [isRequired, range?_foldl_setRequired, isRequired]
  cases g.range? id <;> simp [and_comm]

theorem isRequired_foldl_true {ids : List NodeId} (among : ids ⊆ g.includedRanges scope) :
    (ids.foldl (fun g id => g.setRequired id true) g).isRequired id = true ↔
      g.isRequired id = true ∨ id ∈ ids := by
  rw [isRequired, range?_foldl_setRequired, isRequired]
  cases found : g.range? id with
  | none =>
    have out : id ∉ ids := fun mem => by
      obtain ⟨-, r, node, -⟩ := mem_includedRanges (among mem)
      simp [range?, node] at found
    simp [out]
  | some r => simp [or_comm]

/-- The demands after the relations have raised some. -/
theorem isRequired_requireByRelation : (g.requireByRelation metadata scope).1.isRequired id = true ↔
    g.isRequired id = true ∨ id ∈ g.includedRanges scope ∧ ¬ g.FilterTests scope id ∧
      g.requiredByRelation metadata id = true := by
  rw [requireByRelation, isRequired_foldl_true (List.filter_subset_self _), List.mem_filter]
  simp only [Bool.and_eq_true, Bool.not_eq_true', List.contains_eq_mem, decide_eq_false_iff_not,
    mem_flatMap_nullTested]

section

variable (is : (g.scope scope).condition = some condition)

include is

theorem filterTests_iff : g.FilterTests scope id ↔ id ∈ g.nullTested condition := by
  simp [FilterTests, is]

theorem mem_promoted : id ∈ (g.includedRanges scope).filter
    (g.isPromoted (g.nullTested condition) (g.rejectingRanges condition)) ↔
      id ∈ g.includedRanges scope ∧ g.isJoined id = true ∧ g.isRequired id = false ∧
        ¬ g.FilterTests scope id ∧ id ∈ g.rejectingRanges condition := by
  rw [List.mem_filter, filterTests_iff is]
  refine and_congr_right fun included => ?_
  obtain ⟨-, r, node, -⟩ := mem_includedRanges included
  simp only [isPromoted, isJoined, isRequired, range?, node, Option.any_some, Bool.and_eq_true,
    Bool.not_eq_true', List.contains_eq_mem, decide_eq_true_eq, decide_eq_false_iff_not]
  tauto

theorem mem_demoted : id ∈ (g.includedRanges scope).filter
    (g.isDemoted pinned (g.nullTested condition) condition) ↔ g.Lifted pinned scope id := by
  rw [List.mem_filter, isDemoted]
  simp only [Bool.and_eq_true, Bool.not_eq_true', List.contains_eq_mem, decide_eq_true_eq,
    decide_eq_false_iff_not]
  constructor
  · rintro ⟨included, ⟨⟨⟨joined, tested⟩, required⟩, free⟩, only⟩
    exact ⟨included, joined, required, free, condition, is, tested, only⟩
  · rintro ⟨included, joined, required, free, condition', is', tested, only⟩
    obtain rfl := Option.some.inj (is.symm.trans is')
    exact ⟨included, ⟨⟨⟨joined, tested⟩, required⟩, free⟩, only⟩

end

/-- The demands after the filter has raised and lifted some. -/
theorem isRequired_requireByFilter : (g.requireByFilter pinned scope).1.isRequired id = true ↔
    (g.isRequired id = true ∨ id ∈ g.includedRanges scope ∧ g.isJoined id = true ∧
      g.isRequired id = false ∧ ¬ g.FilterTests scope id ∧
        ∃ condition ∈ (g.scope scope).condition, id ∈ g.rejectingRanges condition) ∧
    ¬ g.Lifted pinned scope id := by
  unfold requireByFilter
  split
  · next none =>
    have quiet : ¬ g.Lifted pinned scope id := fun lifted => by simpa [none] using lifted.tested
    simp [none, quiet]
  · next condition is =>
    rw [isRequired_foldl_false, isRequired_foldl_true (List.filter_subset_self _), mem_promoted is,
      mem_demoted is]
    simp [is]

/-- Deciding on the demands changes nothing else. -/
theorem changesDemand_decideRequired (g : Graph) (metadata : Metadata) (pinned : List NodeId)
    (scope : NodeId) : ChangesDemand g (g.decideRequired metadata pinned scope).1 := by
  have byRelation : ChangesDemand g (g.requireByRelation metadata scope).1 :=
    .foldl_setRequired g _ true
  refine byRelation.trans ?_
  show ChangesDemand _ (requireByFilter _ pinned scope).1
  unfold requireByFilter
  split
  · exact .refl _
  · exact (ChangesDemand.foldl_setRequired _ _ true).trans (.foldl_setRequired _ _ false)

section

variable (l : g.Linked root) (above : g.Below root scope)

include l above

/-- The demands after a run of the pass follow from the graph before it. -/
theorem isRequired_decideRequired : (g.decideRequired metadata pinned scope).1.isRequired id = true ↔
    g.Raised metadata scope id ∨ g.isRequired id = true ∧ ¬ g.Lifted pinned scope id := by
  let k := (g.requireByRelation metadata scope).1
  have c : ChangesDemand g k := .foldl_setRequired g _ true
  have after : k.isRequired id = true ↔ g.isRequired id = true ∨ id ∈ g.includedRanges scope ∧
      ¬ g.FilterTests scope id ∧ g.requiredByRelation metadata id = true :=
    isRequired_requireByRelation
  -- What the relations raise, the filter does not test, so it does not lift it again.
  have lifted : k.Lifted pinned scope id ↔ g.Lifted pinned scope id := by
    by_cases tests : g.FilterTests scope id
    · exact c.lifted l above (Bool.eq_iff_iff.mpr (after.trans (by simp [tests])))
    · exact iff_of_false (fun lifted => tests (c.filterTests.mp lifted.filterTests))
        fun lifted => tests lifted.filterTests
  show (k.requireByFilter pinned scope).1.isRequired id = true ↔ _
  rw [isRequired_requireByFilter, lifted, c.includedRanges, c.isJoined, c.filterTests, c.scope_eq]
  simp only [c.rejectingRanges]
  constructor
  · rintro ⟨required | ⟨included, joined, optional, untested, rejected⟩, kept⟩
    · rcases after.mp required with required | ⟨included, untested, promised⟩
      · exact .inr ⟨required, kept⟩
      · obtain ⟨joined, optional⟩ := joined_of_requiredByRelation promised
        exact .inl ⟨included, joined, optional, untested, .inl promised⟩
    · refine .inl ⟨included, joined, ?_, untested, .inr rejected⟩
      by_contra required
      rw [Bool.not_eq_false] at required
      simp [after.mpr (.inl required)] at optional
  · rintro (⟨included, joined, optional, untested, demanded⟩ | ⟨required, kept⟩)
    · refine ⟨?_, fun lifted => untested lifted.filterTests⟩
      by_cases required : k.isRequired id = true
      · exact .inl required
      · rw [Bool.not_eq_true] at required
        rcases demanded with promised | rejected
        · exact .inl (after.mpr (.inr ⟨included, untested, promised⟩))
        · exact .inr ⟨included, joined, required, untested, rejected⟩
    · exact ⟨.inl (after.mpr (.inl required)), kept⟩

end

/-! ## Further runs -/

/-- A run of the pass changes nothing where no demand is to be raised and none to be lifted. -/
theorem decideRequired_eq_self (noneRaised : ∀ id, ¬ g.Raised metadata scope id)
    (noneLifted : ∀ id, ¬ g.Lifted pinned scope id) :
    g.decideRequired metadata pinned scope = (g, false) := by
  have byRelation : g.requireByRelation metadata scope = (g, false) := by
    have none : (g.includedRanges scope).filter (fun id =>
        !((g.scope scope).condition.toList.flatMap g.nullTested).contains id &&
          g.requiredByRelation metadata id) = [] := by
      refine List.filter_eq_nil_iff.mpr fun id included promised => noneRaised id ?_
      simp only [Bool.and_eq_true, Bool.not_eq_true', List.contains_eq_mem, decide_eq_false_iff_not,
        mem_flatMap_nullTested] at promised
      obtain ⟨joined, optional⟩ := joined_of_requiredByRelation promised.2
      exact ⟨included, joined, optional, promised.1, .inl promised.2⟩
    simp only [requireByRelation, none]
    rfl
  have byFilter : g.requireByFilter pinned scope = (g, false) := by
    unfold requireByFilter
    split
    · rfl
    next condition is =>
    have none : (g.includedRanges scope).filter
        (g.isPromoted (g.nullTested condition) (g.rejectingRanges condition)) = [] := by
      refine List.filter_eq_nil_iff.mpr fun id included promoted => noneRaised id ?_
      obtain ⟨-, joined, optional, untested, rejected⟩ :=
        (mem_promoted is).mp (List.mem_filter.mpr ⟨included, promoted⟩)
      exact ⟨included, joined, optional, untested, .inr ⟨condition, is, rejected⟩⟩
    have none' : (g.includedRanges scope).filter
        (g.isDemoted pinned (g.nullTested condition) condition) = [] := by
      refine List.filter_eq_nil_iff.mpr fun id included demoted => noneLifted id ?_
      exact (mem_demoted is).mp (List.mem_filter.mpr ⟨included, demoted⟩)
    simp only [none, none']
    rfl
  simp [decideRequired, byRelation, byFilter]

end Graph

end RangeQuery
