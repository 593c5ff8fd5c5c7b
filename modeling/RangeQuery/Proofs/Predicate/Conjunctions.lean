import RangeQuery.Proofs.Graph.Conjoining
import RangeQuery.Proofs.Graph.Copying
import RangeQuery.Proofs.Predicate.Truth

/-!
Predicates over acyclic nodes as lists of conjuncts. Joining predicates anew lists the conjuncts of
each in turn, and a predicate has the value that all its conjuncts have together.
-/

namespace RangeQuery

namespace Graph

variable {g h : Graph} {root : NodeId}

/-! ## Graphs with the same nodes -/

namespace Acyclic

theorem children_of_same (a : g.Acyclic root) (same : Same id g h) (id : NodeId)
    (below : g.Below root id) : h.children id = g.children id :=
  congrArg Node.children (same.node (a.grounded id below))

/-- Nodes that stay as they were stay free of circles. -/
theorem of_same (a : g.Acyclic root) (same : Same id g h) : h.Acyclic root :=
  a.congr (a.children_of_same same) fun id below => same.has (a.grounded id below)

theorem trail_of_same (a : g.Acyclic root) (same : Same id g h) {id : NodeId}
    {trail : List NodeId} : h.Trail root trail id ↔ g.Trail root trail id := by
  constructor
  · intro way
    induction way with
    | here => exact .here
    | down _ slot ih => exact ih.down (a.children_of_same same _ ⟨_, ih⟩ ▸ slot)
  · intro way
    induction way with
    | here => exact .here
    | down way slot ih => exact ih.down (a.children_of_same same _ ⟨_, way⟩ ▸ slot)

theorem below_of_same (a : g.Acyclic root) (same : Same id g h) {id : NodeId} :
    h.Below root id ↔ g.Below root id :=
  exists_congr fun _ => a.trail_of_same same

/-- A new node over acyclic ones is acyclic. -/
theorem add {node : Node} (parts : ∀ child ∈ node.children, g.Acyclic child) :
    (g.add node).1.Acyclic g.next := by
  have grounded : ∀ child ∈ node.children, g.Grounded child := fun child slot =>
    (parts child slot).grounded
  have keeps := Same.add id g node
  have new : (g.add node).1.children g.next = node.children := by rw [children, node_add_next]
  constructor
  · intro id below
    rcases below_add_next grounded below with rfl | ⟨child, slot, below⟩
    · exact g.has_add_next node
    · exact has_add (grounded child slot id below) node
  · intro owner child below slot again
    rcases below_add_next grounded below with rfl | ⟨top, mem, above⟩
    · rw [new] at slot
      have old := ((parts child slot).below_of_same keeps).mp again
      exact g.not_has_next (grounded child slot _ old)
    · exact ((parts top mem).of_same keeps).no_return
        (((parts top mem).below_of_same keeps).mpr above) slot again

end Acyclic

/-! ## Conjuncts -/

/-- The conjuncts of a predicate hang on the nodes below it only. -/
theorem Acyclic.conjuncts_congr {predicate : NodeId} (a : g.Acyclic predicate)
    (size : g.size ≤ h.size) (nodes : ∀ id, g.Below predicate id → h.node id = g.node id) :
    h.conjuncts predicate = g.conjuncts predicate := by
  have a'' : h.Acyclic predicate := by
    refine a.congr (fun id below => congrArg Node.children (nodes id below)) fun id below => ?_
    exact Nat.lt_of_lt_of_le (a.grounded id below) size
  refine a.induction fun id below ih => ?_
  have a' := a.below below
  have kept : h.node id = g.node id := nodes id below
  cases isAnd : (g.node id).isAnd with
  | false => rw [conjuncts_of_not_and isAnd, conjuncts_of_not_and (by rw [kept, isAnd])]
  | true =>
    obtain ⟨left, right, node⟩ := Node.exists_of_isAnd isAnd
    have slots : g.children id = [left, right] := by rw [children, node]; rfl
    have below' : h.Below predicate id := (below_iff_of_children fun other above =>
      congrArg Node.children (nodes other above)).mpr below
    rw [a'.conjuncts_and node, (a''.below below').conjuncts_and (kept.trans node),
      ih left (by simp [slots]), ih right (by simp [slots])]

theorem Acyclic.conjuncts_of_same {predicate : NodeId} (a : g.Acyclic predicate)
    (same : Same id g h) : h.conjuncts predicate = g.conjuncts predicate :=
  a.conjuncts_congr same.size fun id below => same.node (a.grounded id below)

theorem Acyclic.below_of_mem_conjuncts {predicate id : NodeId} (a : g.Acyclic predicate)
    (mem : id ∈ g.conjuncts predicate) : g.Below predicate id := by
  obtain ⟨-, trail, way, -⟩ := a.mem_conjuncts.mp mem
  exact ⟨trail, way⟩

/-- What is no conjunction is reached from a predicate through one of its conjuncts. -/
theorem Acyclic.exists_conjunct {predicate id : NodeId} (a : g.Acyclic predicate)
    (below : g.Below predicate id) (leaf : (g.node id).isAnd = false) :
    ∃ conjunct ∈ g.conjuncts predicate, g.Below conjunct id := by
  refine a.induction (motive := fun start => g.Below start id →
    ∃ conjunct ∈ g.conjuncts start, g.Below conjunct id) (fun start above ih below => ?_) below
  cases isAnd : (g.node start).isAnd with
  | false => exact ⟨start, by simp [conjuncts_of_not_and isAnd], below⟩
  | true =>
    obtain ⟨left, right, node⟩ := Node.exists_of_isAnd isAnd
    have slots : g.children start = [left, right] := by rw [children, node]; rfl
    rcases below.eq_or_child with rfl | ⟨child, slot, further⟩
    · rw [isAnd] at leaf
      cases leaf
    · obtain ⟨conjunct, mem, reached⟩ := ih child slot further
      refine ⟨conjunct, ?_, reached⟩
      rw [(a.below above).conjuncts_and node]
      rw [slots, List.mem_cons, List.mem_singleton] at slot
      rcases slot with rfl | rfl
      · exact List.mem_append_left _ mem
      · exact List.mem_append_right _ mem

/-- Joining predicates onto a first one lists the conjuncts of each in turn. -/
theorem conjuncts_conjoinOnto {first : NodeId} {rest : List NodeId}
    (parts : ∀ id ∈ first :: rest, g.Acyclic id) :
    (g.conjoinOnto first rest).1.Acyclic (g.conjoinOnto first rest).2 ∧
      (g.conjoinOnto first rest).1.conjuncts (g.conjoinOnto first rest).2 =
        (first :: rest).flatMap g.conjuncts := by
  induction rest generalizing g first with
  | nil => simpa [conjoinOnto] using parts first (by simp)
  | cons next rest ih =>
    have keeps := Same.add id g (.binary .and first next)
    have both : (g.add (.binary .and first next)).1.Acyclic g.next :=
      .add fun child slot => by
        have taken : child = first ∨ child = next := by simpa [Node.children] using slot
        rcases taken with rfl | rfl <;> exact parts _ (by simp)
    obtain ⟨acyclic, lists⟩ := @ih (g.add (.binary .and first next)).1 g.next fun id mem => by
      rcases List.mem_cons.mp mem with rfl | mem
      · exact both
      · exact (parts id (by simp [mem])).of_same keeps
    refine ⟨acyclic, lists.trans ?_⟩
    have kept : ∀ id ∈ rest, (g.add (.binary .and first next)).1.conjuncts id = g.conjuncts id :=
      fun id mem => (parts id (by simp [mem])).conjuncts_of_same keeps
    rw [List.flatMap_cons, both.conjuncts_and (g.node_add_next _),
      (parts first (by simp)).conjuncts_of_same keeps,
      (parts next (by simp)).conjuncts_of_same keeps, List.flatMap_congr kept]
    simp

/-- The conjuncts of a predicate that may be missing; what is missing has none. -/
def conjunctsOf (g : Graph) (predicate : Option NodeId) : List NodeId :=
  predicate.toList.flatMap g.conjuncts

@[simp] theorem conjunctsOf_none (g : Graph) : g.conjunctsOf none = [] := rfl

@[simp] theorem conjunctsOf_some (g : Graph) (predicate : NodeId) :
    g.conjunctsOf (some predicate) = g.conjuncts predicate := by simp [conjunctsOf]

theorem conjunctsOf_of_same {predicate : Option NodeId} (acyclic : ∀ id ∈ predicate, g.Acyclic id)
    (same : Same id g h) : h.conjunctsOf predicate = g.conjunctsOf predicate :=
  List.flatMap_congr fun id mem =>
    (acyclic id (Option.mem_toList.mp mem)).conjuncts_of_same same

/-- The conjunction of some predicates lists the conjuncts of each in turn. -/
theorem conjunctsOf_conjoin {ids : List NodeId} (parts : ∀ id ∈ ids, g.Acyclic id) :
    (∀ all ∈ (g.conjoin ids).2, (g.conjoin ids).1.Acyclic all) ∧
      (g.conjoin ids).1.conjunctsOf (g.conjoin ids).2 = ids.flatMap g.conjuncts := by
  cases ids with
  | nil => simp [conjoin]
  | cons first rest =>
    obtain ⟨acyclic, lists⟩ := conjuncts_conjoinOnto parts
    exact ⟨by simpa [conjoin] using acyclic, by simpa [conjoin] using lists⟩

/-- Joining some conjuncts anew lists just them. -/
theorem conjunctsOf_conjoin_of_conjuncts {predicate : NodeId} (a : g.Acyclic predicate)
    {ids : List NodeId} (among : ids ⊆ g.conjuncts predicate) :
    (∀ all ∈ (g.conjoin ids).2, (g.conjoin ids).1.Acyclic all) ∧
      (g.conjoin ids).1.conjunctsOf (g.conjoin ids).2 = ids := by
  have leaf : ∀ id ∈ ids, (g.node id).isAnd = false ∧ g.Acyclic id := by
    intro id mem
    obtain ⟨isLeaf, trail, way, -⟩ := a.mem_conjuncts.mp (among mem)
    exact ⟨isLeaf, a.below ⟨trail, way⟩⟩
  obtain ⟨acyclic, lists⟩ := conjunctsOf_conjoin fun id mem => (leaf id mem).2
  refine ⟨acyclic, lists.trans ?_⟩
  have single : ∀ id ∈ ids, g.conjuncts id = [id] := fun id mem =>
    conjuncts_of_not_and (leaf id mem).1
  rw [List.flatMap_congr single, List.flatMap_singleton']

/-! ## Values -/

/-- The value of a predicate, as far as some levels of its AND-tree, by the values of the nodes
under the tree. -/
def valueWithin (g : Graph) (leaf : NodeId → Truth) : Nat → NodeId → Truth
  | 0, id => leaf id
  | depth + 1, id =>
    match g.node id with
    | .binary .and left right =>
      (g.valueWithin leaf depth left).and (g.valueWithin leaf depth right)
    | _ => leaf id

/-- The value of a predicate by the values of its conjuncts. -/
def value (g : Graph) (leaf : NodeId → Truth) (predicate : NodeId) : Truth :=
  g.valueWithin leaf g.size predicate

theorem valueWithin_of_not_and {leaf : NodeId → Truth} {id : NodeId}
    (h : (g.node id).isAnd = false) (depth : Nat) : g.valueWithin leaf depth id = leaf id := by
  cases depth with
  | zero => rfl
  | succ depth =>
    rw [valueWithin]
    split
    · next node =>
      rw [node] at h
      cases h
    · rfl

theorem value_of_not_and {leaf : NodeId → Truth} {predicate : NodeId}
    (h : (g.node predicate).isAnd = false) : g.value leaf predicate = leaf predicate :=
  valueWithin_of_not_and h g.size

/-- One more level changes no value once the levels reach as far as the trails. -/
theorem valueWithin_succ {leaf : NodeId → Truth} {depth : Nat} {start : NodeId}
    (deep : ∀ {trail id}, g.Trail start trail id → trail.length ≤ depth) :
    g.valueWithin leaf (depth + 1) start = g.valueWithin leaf depth start := by
  induction depth generalizing start with
  | zero =>
    refine (valueWithin_of_not_and ?_ 1).trans rfl
    by_contra isAnd
    obtain ⟨left, right, node⟩ := Node.exists_of_isAnd (Bool.not_eq_false _ ▸ isAnd)
    have slot : left ∈ g.children start := by simp [children, node, Node.children]
    have short := deep (Trail.here.down slot)
    simp at short
  | succ depth ih =>
    cases isAnd : (g.node start).isAnd with
    | false => rw [valueWithin_of_not_and isAnd, valueWithin_of_not_and isAnd]
    | true =>
      obtain ⟨left, right, node⟩ := Node.exists_of_isAnd isAnd
      have side : ∀ child ∈ g.children start,
          g.valueWithin leaf (depth + 1) child = g.valueWithin leaf depth child :=
        fun child slot => ih fun {trail id} way => by
          have short := deep ((Trail.here.down slot).append way)
          simpa using short
      rw [valueWithin, node, valueWithin, node]
      show Truth.and _ _ = Truth.and _ _
      rw [side left (by simp [children, node, Node.children]),
        side right (by simp [children, node, Node.children])]

/-- A conjunction has the value of its sides together. -/
theorem Acyclic.value_and {leaf : NodeId → Truth} {predicate left right : NodeId}
    (a : g.Acyclic predicate) (node : g.node predicate = .binary .and left right) :
    g.value leaf predicate = (g.value leaf left).and (g.value leaf right) := by
  rw [value, ← valueWithin_succ fun way => Nat.le_of_lt (a.length_trail_lt way), valueWithin, node]
  rfl

/-- A predicate has the value that its conjuncts have together. -/
theorem Acyclic.value_eq (leaf : NodeId → Truth) {predicate : NodeId} (a : g.Acyclic predicate) :
    g.value leaf predicate = Truth.all ((g.conjuncts predicate).map leaf) := by
  refine a.induction fun id below ih => ?_
  have a' := a.below below
  cases isAnd : (g.node id).isAnd with
  | false =>
    rw [value_of_not_and isAnd, conjuncts_of_not_and isAnd]
    simp [Truth.all]
  | true =>
    obtain ⟨left, right, node⟩ := Node.exists_of_isAnd isAnd
    have slots : g.children id = [left, right] := by rw [children, node]; rfl
    rw [a'.value_and node, a'.conjuncts_and node, List.map_append, Truth.all_append,
      ih left (by simp [slots]), ih right (by simp [slots])]

/-- The value of a predicate that may be missing; what is missing demands nothing. -/
def valueOf (g : Graph) (leaf : NodeId → Truth) (predicate : Option NodeId) : Truth :=
  predicate.elim .yes (g.value leaf)

theorem valueOf_eq (leaf : NodeId → Truth) {predicate : Option NodeId}
    (acyclic : ∀ id ∈ predicate, g.Acyclic id) :
    g.valueOf leaf predicate = Truth.all ((g.conjunctsOf predicate).map leaf) := by
  cases predicate with
  | none => rfl
  | some predicate => rw [valueOf, Option.elim, (acyclic predicate rfl).value_eq, conjunctsOf_some]

end Graph

end RangeQuery
