import RangeQuery.Proofs.Scope.NullTests

/-!
Tests for NULL in a condition. The ranges listed as tested are those that an operand of a test reads,
where the test stands behind conjunctions and disjunctions only. On the way up from a node to the
condition a test is met if the node is below one.
-/

namespace RangeQuery

namespace Graph

variable {g : Graph} {root condition range id : NodeId}

/-! ## Under the skeleton -/

/-- A conjunction or a disjunction. -/
def IsConnective (g : Graph) (id : NodeId) : Prop :=
  ∃ op left right, g.node id = .binary op left right ∧ op.isConnective = true

/-- Behind conjunctions and disjunctions only, a condition tests an operand for NULL that reads a
range. -/
def TestsForNull (g : Graph) (condition range : NodeId) : Prop :=
  ∃ trail test operand, g.Trail condition trail test ∧ (∀ owner ∈ trail, g.IsConnective owner) ∧
    g.node test = .nullCheck operand false ∧ g.Reads operand range

/-- The ranges that a node tests for NULL itself. -/
def nullTestedAt (g : Graph) (id : NodeId) : List NodeId :=
  match g.node id with
  | .nullCheck operand false => g.referencedRanges operand
  | _ => []

/-- Whether tests below a node belong to the skeleton it is in. -/
def opensTests (g : Graph) (id : NodeId) : Bool :=
  match g.node id with
  | .binary op _ _ => op.isConnective
  | _ => false

theorem opensTests_iff : g.opensTests id = true ↔ g.IsConnective id := by
  unfold opensTests IsConnective
  cases node : g.node id <;> simp

theorem mem_foldl_append {ids start : List NodeId} {found : NodeId → List NodeId} :
    range ∈ ids.foldl (fun out id => found id ++ out) start ↔
      range ∈ start ∨ ∃ id ∈ ids, range ∈ found id := by
  induction ids generalizing start with
  | nil => simp
  | cons id rest ih =>
    rw [List.foldl_cons, ih, List.mem_append, List.exists_mem_cons_iff]
    tauto

/-- A range is listed as tested if it is read by an operand of a test in the skeleton. -/
theorem Acyclic.mem_nullTested (a : g.Acyclic condition) :
    range ∈ g.nullTested condition ↔ g.TestsForNull condition range := by
  unfold nullTested
  rw [List.mem_eraseDups, walk_eq_foldl (fun out id => g.nullTestedAt id ++ out) fun out id =>
    show _ = (if g.opensTests id then Visit.descend else Visit.skip, _) by
      cases node : g.node id with
      | nullCheck _ negated => cases negated <;> simp [opensTests, nullTestedAt, node]
      | _ => simp [opensTests, nullTestedAt, node]]
  simp only [mem_foldl_append, List.not_mem_nil, false_or, a.mem_preorder, opensTests_iff]
  constructor
  · rintro ⟨test, ⟨trail, way, skeleton⟩, found⟩
    unfold nullTestedAt at found
    split at found
    · next operand node =>
      have below : g.Acyclic operand := (a.below ⟨trail, way⟩).child (by
        simp [children, node, Node.children])
      exact ⟨trail, test, operand, way, skeleton, node, below.mem_referencedRanges.mp found⟩
    · simp at found
  · rintro ⟨trail, test, operand, way, skeleton, node, reads⟩
    have below : g.Acyclic operand := (a.below ⟨trail, way⟩).child (by
      simp [children, node, Node.children])
    refine ⟨test, ⟨trail, way, skeleton⟩, ?_⟩
    simpa only [nullTestedAt, node] using below.mem_referencedRanges.mpr reads

/-! ## On the way up -/

/-- The recorded owners lead from a node up to the condition, past what is on its trail. -/
theorem Linked.underNullTest_iff (l : g.Linked root) (above : g.Below root condition)
    {trail : List NodeId} (way : g.Trail condition trail id) {steps : Nat}
    (enough : trail.length < steps) :
    g.underNullTest condition steps id = true ↔
      ∃ test ∈ id :: trail, (g.node test).testsNull = true := by
  induction way generalizing steps with
  | here =>
    obtain ⟨steps, rfl⟩ := Nat.exists_eq_add_of_lt enough
    simp [underNullTest_succ]
  | @down trail owner child way slot ih =>
    obtain ⟨steps, rfl⟩ : ∃ more, steps = more + 1 := ⟨steps - 1, by omega⟩
    have above' := above.trans ⟨trail, way⟩
    have other : child ≠ condition := by
      rintro rfl
      exact l.not_below_of_child above' slot ⟨trail, way⟩
    rw [underNullTest_succ, l.parent_child above' slot, if_neg other, List.exists_mem_cons_iff,
      Option.any_some]
    have up := @ih steps (by simpa using enough)
    cases (g.node child).testsNull <;> simp [up]

/-- Going up from a node to the condition meets a test for NULL if the node is below one. -/
theorem Linked.underNullTest_size (l : g.Linked root) (above : g.Below root condition)
    (below : g.Below condition id) : g.underNullTest condition g.size id = true ↔
      ∃ test, g.Below condition test ∧ g.Below test id ∧ (g.node test).testsNull = true := by
  obtain ⟨trail, way⟩ := below
  rw [l.underNullTest_iff above way ((l.acyclic above).length_trail_lt way)]
  constructor
  · rintro ⟨test, on, tests⟩
    rcases List.mem_cons.mp on with rfl | on
    · exact ⟨test, ⟨trail, way⟩, .refl g test, tests⟩
    · obtain ⟨upper, lower⟩ := way.below_of_mem on
      exact ⟨test, upper, lower, tests⟩
  · rintro ⟨test, ⟨upper, first⟩, ⟨lower, second⟩, tests⟩
    refine ⟨test, ?_, tests⟩
    obtain ⟨top, start⟩ := above
    have same : trail = lower ++ upper :=
      List.append_cancel_right (l.trail_unique (start.append way)
        (List.append_assoc .. ▸ start.append (first.append second)))
    have on : test ∈ id :: lower := second.getLast ▸ List.getLast_mem (by simp)
    rw [same, ← List.cons_append]
    exact List.mem_append_left upper on

/-- A condition reads a range outside its subqueries, and each time below a test for NULL. -/
def ReadsInTests (g : Graph) (condition range : NodeId) : Prop :=
  range ∈ g.rangesOf (g.identifiersUnder condition false) ∧
  ∀ id ∈ g.identifiersUnder condition false, ∀ i, g.node id = .identifier i → i.range = range →
    ∃ test, g.Below condition test ∧ g.Below test id ∧ (g.node test).testsNull = true

theorem Linked.onlyNullTested_iff (l : g.Linked root) (above : g.Below root condition) :
    g.onlyNullTested condition range = true ↔ g.ReadsInTests condition range := by
  have reads : ∀ id, id ∈ (g.identifiersUnder condition false).filter (fun id =>
      (g.identifier? id).any fun i => i.range == range) ↔
      id ∈ g.identifiersUnder condition false ∧ ∃ i, g.node id = .identifier i ∧ i.range = range := by
    intro id
    rw [List.mem_filter]
    refine and_congr_right fun _ => ?_
    cases node : g.node id <;> simp [identifier?, node]
  have below : ∀ id ∈ g.identifiersUnder condition false, g.Below condition id := by
    intro id mem
    rw [identifiersUnder_eq, List.mem_filter, Graph.mem_preorder] at mem
    obtain ⟨⟨trail, way, -⟩, -⟩ := mem
    exact ⟨trail, way⟩
  rw [onlyNullTested, Bool.and_eq_true, Bool.not_eq_true', List.isEmpty_eq_false_iff_exists_mem,
    List.all_eq_true, ReadsInTests, mem_rangesOf]
  simp only [reads]
  refine and_congr (by simp) ?_
  constructor
  · intro all id mem i node same
    exact (l.underNullTest_size above (below id mem)).mp (all id ⟨mem, i, node, same⟩)
  · rintro all id ⟨mem, i, node, same⟩
    exact (l.underNullTest_size above (below id mem)).mpr (all id mem i node same)

end Graph

end RangeQuery
