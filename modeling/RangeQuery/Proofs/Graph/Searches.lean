import RangeQuery.Proofs.Graph.Walks

/-!
Searches. A walk that asks each node alone whether to go on, skip or end finds what it looks for
below an acyclic node exactly if it is there.
-/

namespace RangeQuery

namespace Graph

variable {g : Graph} {root top id : NodeId}

/-- A walk that asks each node alone whether to go on ends early if it comes to a node that says no.
-/
theorem drain_eq_none {kind : NodeId → Visit} {opens : NodeId → Bool}
    (opens_iff : ∀ id, opens id = true ↔ kind id = .descend) (stack : List (Nat × NodeId)) :
    (g.drain (fun _ id => (kind id, ())) stack ()).1 = none ↔
      ∀ met ∈ stack.flatMap fun entry => g.preorder opens entry.1 entry.2, kind met ≠ .stop := by
  induction stack, () using drain.induct g (fun _ id => (kind id, ())) with
  | case1 => simp [drain]
  | case2 state depth id rest state' found =>
    have stops : kind id = .stop := congrArg Prod.fst found
    rw [drain, found, List.flatMap_cons, ← g.flatMap_preorder_opened opens depth id]
    simp [stops]
  | case3 state depth id rest state' found ih =>
    have skips : kind id = .skip := congrArg Prod.fst found
    have closed : opens id = false := by
      rw [← Bool.not_eq_true, opens_iff, skips]
      simp
    rw [drain, found, List.flatMap_cons, ← g.flatMap_preorder_opened opens depth id]
    simp only [ih, closed, Bool.false_eq_true, if_false, List.cons_append, List.nil_append,
      List.forall_mem_cons, skips, ne_eq, reduceCtorEq, not_false_eq_true, true_and]
  | case4 state depth id rest state' found ih =>
    have descends : kind id = .descend := congrArg Prod.fst found
    rw [drain, found, List.flatMap_cons, ← g.flatMap_preorder_opened opens depth id]
    simp only [ih, (opens_iff id).mpr descends, if_true, List.cons_append, List.flatMap_append,
      List.forall_mem_cons, descends, ne_eq, reduceCtorEq, not_false_eq_true, true_and]

/-- A walk that ended early ended at a node that said so. -/
theorem drain_eq_some {kind : NodeId → Visit} {stack : List (Nat × NodeId)}
    (found : (g.drain (fun _ id => (kind id, ())) stack ()).1 = some id) : kind id = .stop := by
  induction stack, () using drain.induct g (fun _ id => (kind id, ())) with
  | case1 => simp [drain] at found
  | case2 state depth first rest state' visited =>
    rw [drain, visited] at found
    exact Option.some.inj found ▸ congrArg Prod.fst visited
  | case3 state depth first rest state' visited ih =>
    rw [drain, visited] at found
    exact ih found
  | case4 state depth first rest state' visited ih =>
    rw [drain, visited] at found
    exact ih found

/-- Below an acyclic node a walk that asks each node alone comes to what lies behind nodes that let
it go on, and ends early if one of these nodes says so. -/
theorem Acyclic.walk_eq_none (a : g.Acyclic top) (kind : NodeId → Visit) :
    (g.walk top (fun _ id => (kind id, ())) ()).1 = none ↔
      ∀ id trail, g.Trail top trail id → (∀ owner ∈ trail, kind owner = .descend) →
        kind id ≠ .stop := by
  rw [walk, drain_eq_none (fun id => decide_eq_true_iff)]
  simp only [List.flatMap_cons, List.flatMap_nil, List.append_nil, a.mem_preorder,
    forall_exists_index, and_imp, decide_eq_true_iff]

theorem Linked.walk_eq_none (l : g.Linked root) (above : g.Below root top) (kind : NodeId → Visit) :
    (g.walk top (fun _ id => (kind id, ())) ()).1 = none ↔
      ∀ id trail, g.Trail top trail id → (∀ owner ∈ trail, kind owner = .descend) →
        kind id ≠ .stop := (l.acyclic above).walk_eq_none kind

/-- A node of a kind is found from an acyclic node if there is one. -/
theorem Acyclic.find?_eq_none (a : g.Acyclic top) (p : Node → Bool) :
    g.find? top p = none ↔ ∀ id, g.Below top id → p (g.node id) = false := by
  rw [find?, a.walk_eq_none]
  have stops : ∀ id, (if p (g.node id) = true then Visit.stop else .descend) ≠ .stop ↔
      p (g.node id) = false := by
    intro id
    cases p (g.node id) <;> simp
  simp only [stops]
  refine ⟨fun none id below => ?_, fun none id trail way _ => none id ⟨trail, way⟩⟩
  have clear : ∀ {trail id}, g.Trail top trail id →
      ∀ owner ∈ id :: trail, p (g.node owner) = false := by
    intro trail id way
    induction way with
    | here => simpa using none top [] .here (by simp)
    | down way slot ih =>
      refine List.forall_mem_cons.mpr ⟨none _ _ (way.down slot) fun owner on => ?_, ih⟩
      simp [ih owner on]
  obtain ⟨trail, way⟩ := below
  exact clear way id (by simp)

theorem Linked.find?_eq_none (l : g.Linked root) (above : g.Below root top) (p : Node → Bool) :
    g.find? top p = none ↔ ∀ id, g.Below top id → p (g.node id) = false :=
  (l.acyclic above).find?_eq_none p

theorem Acyclic.contains_eq_false (a : g.Acyclic top) (p : Node → Bool) :
    g.contains top p = false ↔ ∀ id, g.Below top id → p (g.node id) = false := by
  rw [contains, Option.isSome_eq_false_iff, Option.isNone_iff_eq_none, a.find?_eq_none]

end Graph

end RangeQuery
