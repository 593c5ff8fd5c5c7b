import RangeQuery.Proofs.Graph.References
import RangeQuery.Proofs.Scope.AnyTest
import RangeQuery.Scope.Expansion

/-!
Writing out templates and relations. A copy of a template takes the place of a placeholder, and new
predicates over columns that of a relation; the templates themselves stay as they are.
-/

namespace RangeQuery

theorem NameTable.mem_values_of_get? {α : Type} {table : NameTable α} {name : String} {value : α}
    (found : table.get? name = some value) : value ∈ table.values := by
  unfold get? at found
  unfold values
  generalize table.entries = entries at found
  induction entries with
  | nil => simp [lookupEntry] at found
  | cons entry rest ih =>
    simp only [lookupEntry] at found
    split at found
    · obtain rfl := Option.some.inj found
      simp
    · exact List.mem_cons_of_mem _ (ih found)

namespace Graph

variable {g h : Graph} {roots zone : Set NodeId} {level : NodeId → List NodeId}

/-- A tree of new nodes takes the place of a node that opens no scope. -/
theorem Zone.replaceByTree (z : g.Zone roots ∅ zone level) {tree : NodeId}
    (forest : Forest g h [tree]) {old : NodeId} (has : g.Has old)
    (closed : (g.node old).opensScope = false) :
    (h.replace old tree).1.Zone roots ∅ (zone ∪ {id | h.Below tree id})
      (g.levelBeside level fun id => h.levelFrom {tree} id ++ level old) := by
  obtain ⟨z', top⟩ := forest.inOrder
  have fresh : ∀ id ∈ {id | h.Below tree id}, ¬ g.Has id := fun _ below =>
    forest.fresh tree (by simp) below
  have both := z.beside forest.beside (z'.within (level old)) fresh
  have ready : h.Ready ∅ ∅ {id | h.Below tree id} (fun id => h.levelFrom {tree} id ++ level old)
      (level old) tree :=
    ⟨top.mem, top.free, top.nonroot, by rw [top.level, ← enter_append]; rfl⟩
  have ready' := ready.besideNew z forest.beside fresh
  refine both.replace (fun same => fresh tree top.mem (same ▸ has)) ready'.mem ready'.free
    ready'.nonroot fun owner mem slot => ?_
  have around := (both.link mem slot (Set.notMem_empty _)).level
  rw [levelBeside_of_has has, enter_of_false (by rw [forest.beside.node has, closed])] at around
  rw [ready'.level]
  exact congrArg (h.enter tree) around

/-! ## Templates -/

theorem node_of_placeholder? {id : NodeId} {name : String} (found : g.placeholder? id = some name) :
    g.node id = .placeholder name := by
  unfold placeholder? at found
  split at found
  · next is => rw [is, Option.some.inj found]
  · cases found

theorem has_of_placeholder? {id : NodeId} (found : (g.placeholder? id).isSome = true) :
    g.Has id := by
  by_contra absent
  simp [placeholder?, node_of_not_has absent] at found

theorem opensScope_of_placeholder? {id : NodeId} (found : (g.placeholder? id).isSome = true) :
    (g.node id).opensScope = false := by
  obtain ⟨name, found⟩ := Option.isSome_iff_exists.mp found
  rw [node_of_placeholder? found]
  rfl

theorem placeholder?_of_mem {root : NodeId} {entry : NodeId × String}
    (mem : entry ∈ g.placeholders root) : (g.placeholder? entry.1).isSome = true := by
  obtain ⟨id, -, found⟩ := List.mem_filterMap.mp mem
  obtain ⟨name, kind, rfl⟩ := Option.map_eq_some_iff.mp found
  rw [kind]
  rfl

/-- A placeholder stays one where only slots change. -/
theorem Same.placeholder? (same : Same Node.label g h) {id : NodeId}
    (found : (g.placeholder? id).isSome = true) : (h.placeholder? id).isSome = true := by
  have label := same.node (has_of_placeholder? found)
  obtain ⟨name, found⟩ := Option.isSome_iff_exists.mp found
  rw [node_of_placeholder? found] at label
  cases node : h.node id <;> simp_all [Node.label, Graph.placeholder?]

theorem mem_templateBodies_of_get? {root body : NodeId} {name : String}
    (found : (g.scope root).templates.get? name = some body) :
    body ∈ (g.node root).templateBodies := by
  cases node : g.node root with
  | retrieve r =>
    simp only [Graph.scope, node] at found
    exact NameTable.mem_values_of_get? found
  | _ => simp [Graph.scope, node, Retrieve.empty, NameTable.empty, NameTable.get?, NameTable.lookupEntry] at found

/-- What one filled placeholder keeps, a round of templates keeps. -/
theorem fillPlaceholders_induction {motive : Graph → Prop} {root : NodeId}
    (step : ∀ {g id body}, motive g → (g.placeholder? id).isSome = true →
      body ∈ (g.node root).templateBodies → motive ((g.copy body).1.replace id (g.copy body).2).1)
    {pending : List (NodeId × String)}
    (open' : ∀ entry ∈ pending, (g.placeholder? entry.1).isSome = true)
    (start : motive g) : motive (fillPlaceholders root g pending).1 := by
  induction pending generalizing g with
  | nil => exact start
  | cons entry rest ih =>
    obtain ⟨id, name⟩ := entry
    unfold fillPlaceholders
    split
    · exact start
    · next body found =>
      refine ih (fun entry later => ?_)
        (step start (open' (id, name) (by simp)) (mem_templateBodies_of_get? found))
      have labels := (g.forest_copyWith body .empty).beside.same.trans
        (Node.slotless_label.replace _ id (g.copyWith body .empty).2)
      exact labels.placeholder? (open' entry (by simp [later]))

/-- What one filled placeholder keeps, writing out all templates keeps. -/
theorem expandRounds_induction {motive : Graph → Prop} {root : NodeId}
    (step : ∀ {g id body}, motive g → (g.placeholder? id).isSome = true →
      body ∈ (g.node root).templateBodies → motive ((g.copy body).1.replace id (g.copy body).2).1)
    (rounds : Nat) (expanded : Bool) (start : motive g) :
    motive (expandRounds root rounds g expanded).1 := by
  induction rounds generalizing g expanded with
  | zero =>
    unfold expandRounds
    split <;> exact start
  | succ rounds ih =>
    unfold expandRounds
    split
    · exact start
    · next first rest found =>
      have filled := fillPlaceholders_induction step (fun entry (mem : entry ∈ first :: rest) =>
        placeholder?_of_mem (found ▸ mem)) start
      split
      · next fault same =>
        rw [same] at filled
        exact filled
      · next same =>
        rw [same] at filled
        exact ih true filled

/-- Filling a placeholder keeps the roots well linked. -/
theorem linked_fill (linked : ∀ top ∈ roots, g.Linked top) {id : NodeId}
    (found : (g.placeholder? id).isSome = true) (body : NodeId) :
    ∀ top ∈ roots, ((g.copy body).1.replace id (g.copy body).2).1.Linked top :=
  fun _ mem => ((Zone.of_linked linked).replaceByTree (g.forest_copyWith body .empty)
    (has_of_placeholder? found) (opensScope_of_placeholder? found)).linked mem

theorem same_fill {α : Type} {view : Node → α} (placed : Placed view) (g : Graph)
    (id body : NodeId) : Same view g ((g.copy body).1.replace id (g.copy body).2).1 :=
  (g.forest_copyWith body .empty).beside.same.trans (placed.replace _ id _)

/-- Writing out templates keeps the roots well linked, and the templates as they are. -/
theorem expandRounds_cases (linked : ∀ top ∈ roots, g.Linked top) (root : NodeId) (rounds : Nat)
    (expanded : Bool) :
    (∀ top ∈ roots, (expandRounds root rounds g expanded).1.Linked top) ∧
      ∀ {α : Type} {view : Node → α}, Slotless view →
        Same view g (expandRounds root rounds g expanded).1 :=
  expandRounds_induction
    (motive := fun h => (∀ top ∈ roots, h.Linked top) ∧
      ∀ {α : Type} {view : Node → α}, Slotless view → Same view g h)
    (fun {h id body} kept found _ => ⟨linked_fill kept.1 found body,
      fun slotless => (kept.2 slotless).trans (same_fill slotless.toPlaced h id body)⟩)
    rounds expanded ⟨linked, fun _ => .refl _ g⟩

/-! ## Relations -/

theorem node_of_joinRelation? {range : NodeId} {i : Identifier}
    (h : g.joinRelation? range = some i) :
    ∃ join, g.join? range = some join ∧ g.node join = .identifier i := by
  unfold joinRelation? at h
  cases held : g.join? range with
  | none => simp [held] at h
  | some join =>
    cases found : g.identifier? join with
    | none => simp [held, found] at h
    | some i' =>
      simp only [held, found, Option.bind_some] at h
      split at h
      · obtain rfl := Option.some.inj h
        exact ⟨join, rfl, node_of_identifier? found⟩
      · cases h

/-- A node without children joins a zone and is ready there. -/
theorem Zone.addLeaf {loose : Set (NodeId × NodeId)} (z : g.Zone roots loose zone level)
    (node : Node) (leaf : node.children = []) (closed : node.opensScope = false) :
    (g.add node).1.Zone roots loose (insert g.next zone) level ∧
      (g.add node).1.Ready roots loose (insert g.next zone) level (level g.next) g.next :=
  ⟨z.add node (by simp [leaf]) (by simp [leaf]),
    z.ready_next node _ (by simp [leaf]) (by simp [closed])⟩

section

variable (g : Graph) (range owner : NodeId) (relation : Relation)

/-- The graph with the first operand of the predicate over the columns of a relation. -/
def ownColumn : Graph := (g.add (.identifier { range, path := [relation.inversedBy] })).1

/-- The graph with both operands. -/
def bothColumns : Graph :=
  ((g.ownColumn range relation).add
    (.identifier { range := owner, path := [relation.relationColumn] })).1

theorem joinByColumns_eq : g.joinByColumns range owner relation =
    ((g.bothColumns range owner relation).add
      (.binary .eq g.next (g.ownColumn range relation).next)).1.setJoin range
        (some (g.bothColumns range owner relation).next) := rfl

end

/-- The predicate over the columns of a relation, with its operands, joins a zone. -/
theorem Zone.joinByColumns (z : g.Zone roots ∅ zone level) {range : NodeId} (mem : range ∈ zone)
    (owner : NodeId) (relation : Relation) :
    (g.joinByColumns range owner relation).Zone roots ∅
      (insert (g.bothColumns range owner relation).next
        (insert (g.ownColumn range relation).next (insert g.next zone)))
      (g.levelWith level (level range)) := by
  have size : (g.ownColumn range relation).size = g.size + 1 := size_add g _
  have size' : (g.bothColumns range owner relation).size = g.size + 2 :=
    (size_add _ _).trans (by omega)
  have new : ∀ {h : Graph}, g.size ≤ h.size →
      g.levelWith level (level range) h.next = level range := fun size =>
    levelWith_of_not_has (not_has_next_of_le size) _
  have on : g.levelWith level (level range) range = level range := levelWith_of_has (z.has mem) _
  obtain ⟨z₁, left⟩ := (z.levelWith (level range)).addLeaf
    (.identifier { range, path := [relation.inversedBy] }) rfl rfl
  have second := z₁.addLeaf
    (.identifier { range := owner, path := [relation.relationColumn] }) rfl rfl
  have left' := z₁.ready_add (.identifier { range := owner, path := [relation.relationColumn] })
    left (by simp [Node.children])
  rw [new (Nat.le_refl _)] at left'
  have z₂ : (g.bothColumns range owner relation).Zone roots ∅
      (insert (g.ownColumn range relation).next (insert g.next zone))
      (g.levelWith level (level range)) := second.1
  have operands : ∀ child ∈ (Node.binary .eq g.next (g.ownColumn range relation).next).children,
      (g.bothColumns range owner relation).Ready roots ∅
        (insert (g.ownColumn range relation).next (insert g.next zone))
        (g.levelWith level (level range)) (level range) child := by
    intro child slot
    simp only [Node.children, List.mem_cons, List.not_mem_nil, or_false] at slot
    rcases slot with rfl | rfl
    · exact left'
    · have right := second.2
      rw [new (by rw [size_add]; omega)] at right
      exact right
  have apart : g.next ≠ (g.ownColumn range relation).next := fun same => by
    have index := congrArg NodeId.index same
    simp only [next] at index
    omega
  have onPredicate := new (h := g.bothColumns range owner relation) (by omega)
  have z₃ := z₂.add (.binary .eq g.next (g.ownColumn range relation).next)
    (by rw [onPredicate]; exact operands) (by simpa [Node.children] using apart)
  have predicate := z₂.ready_next (.binary .eq g.next (g.ownColumn range relation).next)
    (level range) (fun child slot => (operands child slot).mem) onPredicate
  rw [joinByColumns_eq]
  refine z₃.setJoin (by simp [mem]) fun child is => ?_
  obtain rfl := Option.some.inj is
  rw [on]
  exact predicate

theorem same_joinByColumns {α : Type} {view : Node → α} (unjoined : Unjoined view) (g : Graph)
    (range owner : NodeId) (relation : Relation) :
    Same view g (g.joinByColumns range owner relation) :=
  (((Same.add view g _).trans (.add view _ _)).trans (.add view _ _)).trans
    (unjoined.setJoin _ range _)

/-- The zone around a range, reshaped by the predicate over the columns of a relation. -/
theorem Zone.reshapedByColumns (z : g.Zone roots ∅ zone level) {range : NodeId}
    (mem : range ∈ zone) (owner : NodeId) (relation : Relation) :
    Reshaped g (g.joinByColumns range owner relation) roots zone level
      (insert (g.bothColumns range owner relation).next
        (insert (g.ownColumn range relation).next (insert g.next zone)))
      (g.levelWith level (level range)) := by
  have size : (g.ownColumn range relation).size = g.size + 1 := size_add g _
  have size' : (g.bothColumns range owner relation).size = g.size + 2 :=
    (size_add _ _).trans (by omega)
  refine ⟨z.joinByColumns mem owner relation, ?_⟩
  rintro id (rfl | rfl | rfl | mem) had
  · simp only [Has, next] at had
    omega
  · simp only [Has, next] at had
    omega
  · exact absurd had g.not_has_next
  · exact ⟨mem, levelWith_of_has had _⟩

/-- The new nodes are the two operands and the predicate over them. -/
theorem label_joinByColumns {range owner id : NodeId} {relation : Relation} (new : ¬ g.Has id)
    (has : (g.joinByColumns range owner relation).Has id) :
    ((g.joinByColumns range owner relation).node id).label ∈
      [.identifier { range, path := [relation.inversedBy] },
        .identifier { range := owner, path := [relation.relationColumn] },
        .binary .eq default default] := by
  let k := ((g.bothColumns range owner relation).add
    (.binary .eq g.next (g.ownColumn range relation).next)).1
  have label : Same Node.label k (g.joinByColumns range owner relation) :=
    Node.slotless_label.toRigid.setJoin k range _
  have has' : k.Has id := by rwa [joinByColumns_eq, Has, size_setJoin] at has
  rw [label.node has']
  by_cases third : (g.bothColumns range owner relation).Has id
  · rw [node_add third]
    by_cases second : (g.ownColumn range relation).Has id
    · have isNext : id = g.next := (has_add_iff.mp second).resolve_left new
      rw [bothColumns, node_add second, isNext, ownColumn, node_add_next]
      simp [Node.label]
    · have isNext : id = (g.ownColumn range relation).next := (has_add_iff.mp third).resolve_left second
      rw [isNext, bothColumns, node_add_next]
      simp [Node.label]
  · have isNext : id = (g.bothColumns range owner relation).next :=
      (has_add_iff.mp has').resolve_left third
    rw [isNext, node_add_next]
    simp [Node.label]

/-- The new identifiers read the range itself and the owner of the relation. -/
theorem range_joinByColumns {range owner id : NodeId} {relation : Relation} (new : ¬ g.Has id)
    {i : Identifier} (node : (g.joinByColumns range owner relation).node id = .identifier i) :
    i.range = range ∨ i.range = owner := by
  have has : (g.joinByColumns range owner relation).Has id := has_of_node node (by simp)
  have label := label_joinByColumns new has
  rw [node] at label
  simp only [Node.label, List.mem_cons, Node.identifier.injEq, List.not_mem_nil, reduceCtorEq,
    or_false] at label
  rcases label with rfl | rfl
  · exact .inl rfl
  · exact .inr rfl

theorem same_expandJoins {α : Type} {view : Node → α} (unjoined : Unjoined view) (g : Graph)
    (metadata : Metadata) (ranges : List NodeId) (expanded : Bool) :
    Same view g (expandJoins metadata g ranges expanded).1 := by
  induction ranges generalizing g expanded with
  | nil => exact .refl view g
  | cons range rest ih =>
    unfold expandJoins
    split
    · exact ih g expanded
    · split
      · exact .refl view g
      · exact (same_joinByColumns unjoined g _ _ _).trans (ih _ true)

theorem Spares.expandJoins (g : Graph) (metadata : Metadata) (ranges : List NodeId)
    (expanded : Bool) : Spares g (Graph.expandJoins metadata g ranges expanded).1 ∅ := by
  induction ranges generalizing g expanded with
  | nil => exact .refl g
  | cons range rest ih =>
    unfold Graph.expandJoins
    split
    · exact ih g expanded
    · split
      · exact .refl g
      · exact ((Spares.of_same (((Same.add _ g _).trans (.add _ _ _)).trans (.add _ _ _))).trans
          (.setJoin _ range _)).trans (ih _ true)

section

variable {α : Type} {view : Node → α} (placed : Placed view)

include placed

/-- A joined range goes on being joined by another predicate. -/
theorem Same.setJoin_of_joined {range : NodeId} (joined : (g.join? range).isSome = true)
    (join : NodeId) : Same view g (g.setJoin range (some join)) := by
  cases node : g.node range with
  | range r =>
    obtain ⟨old, held⟩ := Option.isSome_iff_exists.mp ((join?_eq node) ▸ joined)
    rw [setJoin_eq node]
    refine (Same.setNode ?_).relink ..
    have swapped := placed.children (.range r) (join :: r.nested.toList)
    rw [node, ← swapped]
    congr 1
    obtain ⟨_, _, _, _, _, nested⟩ := r
    cases nested <;> simp_all [Node.withChildren, Range.withChildren]
  | _ => simp [join?, range?, node] at joined

theorem Same.joinByColumns_of_joined {range : NodeId} {relation : Identifier}
    (joined : g.joinRelation? range = some relation) (declared : Relation) :
    Same view g (g.joinByColumns range relation.range declared) := by
  obtain ⟨join, held, -⟩ := node_of_joinRelation? joined
  have has : g.Has range := by
    by_contra absent
    simp [join?, range?, node_of_not_has absent] at held
  have added : Same (fun node : Node => node) g _ :=
    ((Same.add _ g (.identifier { range, path := [declared.inversedBy] })).trans
      (.add _ _ (.identifier { range := relation.range, path := [declared.relationColumn] }))).trans
        (.add _ _ (.binary .eq g.next (g.ownColumn range declared).next))
  refine (added.coarser view fun _ => rfl).trans (Same.setJoin_of_joined placed ?_ _)
  rw [join?, range?, added.node has, ← range?, ← join?, held]
  rfl

/-- Writing out relations joins joined ranges only. -/
theorem Same.expandJoins (g : Graph) (metadata : Metadata) (ranges : List NodeId)
    (expanded : Bool) : Same view g (Graph.expandJoins metadata g ranges expanded).1 := by
  induction ranges generalizing g expanded with
  | nil => exact .refl _ g
  | cons range rest ih =>
    unfold Graph.expandJoins
    split
    · exact ih g expanded
    · next relation joined =>
      split
      · exact .refl _ g
      · exact (Same.joinByColumns_of_joined placed joined _).trans (ih _ true)

end

/-- A change of a zone that takes nothing out of it and adds no range. -/
def Enriches (g h : Graph) (roots zone : Set NodeId) (level : NodeId → List NodeId) : Prop :=
  ∃ zone' level', Reshaped g h roots zone level zone' level' ∧
    (∀ {id}, id ∈ zone' → ¬ g.Has id → (h.node id).isRange = false) ∧ zone ⊆ zone'

theorem Enriches.refl (z : g.Zone roots ∅ zone level) : Enriches g g roots zone level :=
  ⟨zone, level, .refl z, fun mem new => absurd (z.has mem) new, subset_rfl⟩

theorem Enriches.trans (a : Enriches g h roots zone level) (same : Same Node.stamp g h)
    (same' : Same Node.stamp h k)
    (b : ∀ {zone' level'}, h.Zone roots ∅ zone' level' → zone ⊆ zone' →
      Enriches h k roots zone' level') : Enriches g k roots zone level := by
  obtain ⟨zone', level', reshaped, none, larger⟩ := a
  obtain ⟨zone'', level'', reshaped', none', larger'⟩ := b reshaped.inOrder larger
  refine ⟨zone'', level'', reshaped.trans reshaped' same.size, fun {id} mem new => ?_,
    larger.trans larger'⟩
  by_cases has : h.Has id
  · rw [same'.isRange has, none (reshaped'.old mem has).1 new]
  · exact none' mem has

theorem Zone.enrichesByColumns (z : g.Zone roots ∅ zone level) {range : NodeId} (mem : range ∈ zone)
    (owner : NodeId) (relation : Relation) :
    Enriches g (g.joinByColumns range owner relation) roots zone level := by
  have reshaped := z.reshapedByColumns mem owner relation
  refine ⟨_, _, reshaped, fun {id} mem new => ?_, fun id mem => by simp [mem]⟩
  have label := label_joinByColumns new (reshaped.inOrder.has mem)
  cases node : (g.joinByColumns range owner relation).node id <;>
    simp_all [Node.label, Node.isRange]

/-- Writing out relations enriches a zone. -/
theorem Zone.expandJoins (z : g.Zone roots ∅ zone level) (metadata : Metadata)
    {ranges : List NodeId} (mem : ∀ range ∈ ranges, range ∈ zone) (expanded : Bool) :
    Enriches g (Graph.expandJoins metadata g ranges expanded).1 roots zone level := by
  induction ranges generalizing g zone level expanded with
  | nil => exact .refl z
  | cons range rest ih =>
    unfold Graph.expandJoins
    split
    · exact ih z (fun other later => mem other (by simp [later])) expanded
    · next relation _ =>
      split
      · exact .refl z
      · next declared _ =>
        refine (z.enrichesByColumns (mem range (by simp)) relation.range declared).trans
          (same_joinByColumns Node.formal_stamp.toUnjoined ..)
          (same_expandJoins Node.formal_stamp.toUnjoined _ metadata rest true) fun z' larger => ?_
        exact ih z' (fun other later => larger (mem other (by simp [later]))) true

end Graph

end RangeQuery
