import RangeQuery.Proofs.Scope.Reshaping
import RangeQuery.Scope.Correlated

/-!
Splitting the join predicates of ranges. The part that stays is joined anew in the slot of the
range; the other part leaves the range and is ready to be hung elsewhere on the same level.
-/

namespace RangeQuery

namespace Graph

variable {g h k : Graph} {roots zone : Set NodeId} {level : NodeId → List NodeId}
  {scopes : List NodeId}

/-- The two sides that a predicate is split into, and how they come about. -/
inductive SplitInto (g : Graph) (live : List String) (predicate : NodeId) :
    Graph × SplitPredicate → Prop
  | inside : SplitInto g live predicate (g, { inner := some predicate, correlation := none })
  | outside : SplitInto g live predicate (g, { inner := none, correlation := some predicate })
  | both {inner outer : List NodeId} : inner ≠ [] → outer ≠ [] →
      inner = (g.conjuncts predicate).filter (fun id => g.classify live id = .inner) →
      outer = (g.conjuncts predicate).filter (fun id => g.classify live id = .correlation) →
      SplitInto g live predicate (((g.conjoin inner).1.conjoin outer).1,
        { inner := (g.conjoin inner).2
          correlation := ((g.conjoin inner).1.conjoin outer).2 })

theorem split_into (g : Graph) (live : List String) (predicate : NodeId) :
    SplitInto g live predicate (g.split live predicate) := by
  unfold split
  dsimp only
  split
  · exact .inside
  · unfold splitConjuncts
    split
    · exact .inside
    · split
      · exact .outside
      · next outer inner => exact .both (by simpa using inner) (by simpa using outer) rfl rfl

end Graph

open RangeQuery.Graph

namespace Graph.Same

variable {α : Type} (view : Node → α)

theorem split? (g : Graph) (live : List String) (predicate : Option NodeId) :
    Same view g (g.split? live predicate).1 := by
  cases predicate with
  | none => exact .refl view g
  | some predicate =>
    have into := g.split_into live predicate
    change Same view g (g.split live predicate).1
    generalize g.split live predicate = result at into
    cases into with
    | inside => exact .refl view g
    | outside => exact .refl view g
    | both => exact (Same.conjoin view g _).trans (.conjoin view _ _)

end Graph.Same

theorem Rigid.splitJoins {α : Type} {view : Node → α} (rigid : Rigid view) (live : List String)
    (g : Graph) (copies : List NodeId) : Same view g (splitJoins live g copies).1 := by
  induction copies generalizing g with
  | nil => exact .refl view g
  | cons copy rest ih =>
    exact ((Same.split? view g live _).trans (rigid.setJoin _ _ _)).trans (ih _)

namespace Graph

variable {g h k : Graph} {roots zone : Set NodeId} {level : NodeId → List NodeId}
  {scopes : List NodeId}

/-- A change takes predicates out of a zone that is reshaped; they are ready to be hung elsewhere,
like all that was ready before. -/
def Detaches (g h : Graph) (roots zone : Set NodeId) (level : NodeId → List NodeId)
    (scopes parts : List NodeId) : Prop :=
  ∃ zone' level', Reshaped g h roots zone level zone' level' ∧ Glued g h zone' ∧
    parts.Nodup ∧ (∀ id ∈ parts, h.Ready roots ∅ zone' level' scopes id) ∧
    ∀ {around id}, g.Ready roots ∅ zone level around id →
      h.Ready roots ∅ zone' level' around id ∧ id ∉ parts

theorem Detaches.trans {first second : List NodeId}
    (a : Detaches g h roots zone level scopes first) (size : g.size ≤ h.size)
    (same : Same Node.stamp h k)
    (b : ∀ {zone' level'}, Reshaped g h roots zone level zone' level' →
      Detaches h k roots zone' level' scopes second) :
    Detaches g k roots zone level scopes (first ++ second) := by
  obtain ⟨zone', level', reshaped, glued, nodup, ready, others⟩ := a
  obtain ⟨zone'', level'', reshaped', glued', nodup', ready', others'⟩ := b reshaped
  refine ⟨zone'', level'', reshaped.trans reshaped' size, glued.trans reshaped' glued' same, ?_,
    fun id mem => ?_, fun {around id} was => ?_⟩
  · refine List.nodup_append.mpr ⟨nodup, nodup', ?_⟩
    rintro one mem other mem' rfl
    exact (others' (ready one mem)).2 mem'
  · rcases List.mem_append.mp mem with mem | mem
    · exact (others' (ready id mem)).1
    · exact ready' id mem
  · obtain ⟨still, apart⟩ := others was
    obtain ⟨still', apart'⟩ := others' still
    exact ⟨still', fun mem => (List.mem_append.mp mem).elim apart apart'⟩

theorem Detaches.nothing (z : g.Zone roots ∅ zone level) :
    Detaches g g roots zone level scopes [] :=
  ⟨zone, level, .refl z, fun mem new => absurd (z.has mem) new, by simp, by simp,
    fun ready => ⟨ready, by simp⟩⟩

/-- Some conjuncts of a predicate on one side, and some on the other. -/
structure TwoSided (g : Graph) (predicate : NodeId) (inner outer : List NodeId) : Prop where
  conjunct : ∀ id, id ∈ inner ∨ id ∈ outer → id ∈ g.conjuncts predicate
  nodup : inner.Nodup
  nodup' : outer.Nodup
  disjoint : ∀ id ∈ outer, id ∉ inner
  someInner : inner ≠ []
  someOuter : outer ≠ []

theorem twoSided_of_classify {root predicate : NodeId} (l : g.Linked root)
    (above : g.Below root predicate) {live : List String} {inner outer : List NodeId}
    (someInner : inner ≠ []) (someOuter : outer ≠ [])
    (isInner : inner = (g.conjuncts predicate).filter fun id => g.classify live id = .inner)
    (isOuter : outer = (g.conjuncts predicate).filter fun id => g.classify live id = .correlation) :
    g.TwoSided predicate inner outer where
  conjunct id side := by
    rw [isInner, isOuter] at side
    exact side.elim List.mem_of_mem_filter List.mem_of_mem_filter
  nodup := isInner ▸ (nodup_conjuncts l above).filter _
  nodup' := isOuter ▸ (nodup_conjuncts l above).filter _
  disjoint id within within' := by
    rw [isOuter] at within
    rw [isInner] at within'
    have class' : g.classify live id = .correlation := by simpa using (List.mem_filter.mp within).2
    have class'' : g.classify live id = .inner := by simpa using (List.mem_filter.mp within').2
    rw [class'] at class''
    cases class''
  someInner := someInner
  someOuter := someOuter

/-- A predicate with two sides is a conjunction, so it is none of its own conjuncts. -/
theorem TwoSided.not_own {root predicate : NodeId} {inner outer : List NodeId}
    (p : g.TwoSided predicate inner outer) (l : g.Linked root) (above : g.Below root predicate) :
    predicate ∉ g.conjuncts predicate := by
  intro conjunct
  have leaf := conjuncts_of_not_and ((mem_conjuncts l above).mp conjunct).1
  obtain ⟨one, within⟩ := List.exists_mem_of_ne_nil inner p.someInner
  obtain ⟨other, within'⟩ := List.exists_mem_of_ne_nil outer p.someOuter
  have first := p.conjunct one (.inl within)
  have second := p.conjunct other (.inr within')
  rw [leaf, List.mem_singleton] at first second
  exact p.disjoint other within' (by rw [second, ← first]; exact within)

/-- The case of two sides: one is joined anew in the slot, the other beside it. -/
theorem Zone.splitBoth (z : g.Zone roots ∅ zone level) {copy predicate : NodeId} {r : Range}
    (root : copy ∈ roots) (node : g.node copy = .range r) (on : level copy = scopes)
    (held : r.join = some predicate) {inner outer : List NodeId}
    (sides : g.TwoSided predicate inner outer) :
    Detaches g (((g.conjoin inner).1.conjoin outer).1.setJoin copy (g.conjoin inner).2) roots zone
      level scopes ((g.conjoin inner).1.conjoin outer).2.toList := by
  have mem := (z.root root).1
  have slot : predicate ∈ g.children copy := by simp [children, node, Node.children, held]
  have l := z.linked root
  have above := below_of_child slot
  obtain ⟨apart, ready⟩ := z.dismantle l above mem slot
  rw [on] at ready
  have j := (apart.levelWith scopes).conjoinBoth scopes (fun id new => levelWith_of_not_has new _)
    (fun id side => apart.readyWith _ (ready id (sides.conjunct id side))) sides.nodup
    sides.nodup' sides.disjoint
  have kept : ((g.conjoin inner).1.conjoin outer).1.node copy = .range r :=
    (((Same.conjoin (fun node => node) g inner).trans (.conjoin _ _ outer)).node (z.has mem)).trans
      node
  have mem' : copy ∈ g.grown ((g.conjoin inner).1.conjoin outer).1 (zone \ g.spine predicate) := by
    refine .inl ⟨mem, ?_⟩
    rintro ⟨trail, way, spine⟩
    have isAnd := spine copy (by simp)
    rw [node] at isAnd
    cases isAnd
  have nested : ∀ child ∈ r.nested, (copy, child) ∉ ({(copy, predicate)} : Set _) := by
    rintro child inside same
    have nodup := z.nodup mem
    rw [children, node, Node.children, held] at nodup
    obtain rfl : child = predicate := congrArg Prod.snd (Set.mem_singleton_iff.mp same)
    exact (List.nodup_cons.mp nodup).1 (Option.mem_toList.mpr inside)
  have rest : ∀ link ∈ ({(copy, predicate)} : Set (NodeId × NodeId)), link.1 ≠ copy →
      link ∈ (∅ : Set (NodeId × NodeId)) := fun link same other =>
    absurd (congrArg Prod.fst same) other
  -- An old node is in the slot only if it is a conjunct of the inner side.
  have taken : ∀ {id}, g.Has id → id ∉ inner → (g.conjoin inner).2 ≠ some id := by
    intro id had apart same
    rcases j.newFirst id same with within | new
    · exact apart within
    · exact new had
  have changed : r.join ≠ (g.conjoin inner).2 := fun same =>
    taken (z.has (z.closed mem slot (Set.notMem_empty _))) (fun within =>
      sides.not_own l above (sides.conjunct _ (.inl within))) (same.symm.trans held)
  have final := j.inOrder.refillJoin ∅ mem' kept changed nested rest fun id is => by
    rw [levelWith_of_has (z.has mem), on]
    exact j.ready id (.inl is)
  obtain ⟨reshaped, glued⟩ := z.reshapedByGrowth (fun _ within => within.1) j.glue
    (Node.formal_stamp.toRigid.setJoin _ copy _) final
  refine ⟨_, _, reshaped, glued, Option.toList_nodup _, fun id is => ?_, fun {around id} was => ?_⟩
  · have found := Option.mem_toList.mp is
    exact j.inOrder.ready_setJoin mem' kept nested rest (j.ready id (.inr found))
      (j.apart id found)
  · obtain ⟨ready', notConjunct⟩ := z.ready_dismantle l above mem slot was
    have notInner : id ∉ inner := fun within => notConjunct (sides.conjunct id (.inl within))
    have notOuter : id ∉ outer := fun within => notConjunct (sides.conjunct id (.inr within))
    refine ⟨j.inOrder.ready_setJoin mem' kept nested rest
      (j.others (apart.readyWith _ ready') notInner notOuter) (taken (z.has was.mem) notInner),
      fun is => ?_⟩
    rcases j.newSecond id (Option.mem_toList.mp is) with within | new
    · exact notOuter within
    · exact new (z.has was.mem)

/-- Splitting the join predicate of a range that is a root detaches the part that leaves it. -/
theorem Zone.splitJoin (z : g.Zone roots ∅ zone level) {copy : NodeId} {r : Range}
    (root : copy ∈ roots) (node : g.node copy = .range r) (on : level copy = scopes)
    (live : List String) :
    Detaches g ((g.split? live r.join).1.setJoin copy (g.split? live r.join).2.inner) roots zone
      level scopes (g.split? live r.join).2.correlation.toList := by
  have mem := (z.root root).1
  cases held : r.join with
  | none =>
    have same := setJoin_self node
    rw [held] at same
    simp only [split?, same]
    exact .nothing z
  | some predicate =>
    have slot : predicate ∈ g.children copy := by simp [children, node, Node.children, held]
    have into := g.split_into live predicate
    simp only [split?]
    generalize g.split live predicate = result at into
    cases into with
    | inside =>
      have same := setJoin_self node
      rw [held] at same
      simp only [same]
      exact .nothing z
    | outside =>
      obtain ⟨released, freed, others⟩ := z.releaseJoin mem node (by simp)
      refine ⟨zone, level, ⟨released, fun mem _ => ⟨mem, rfl⟩⟩,
        fun mem new => absurd (z.has mem) new, by simp, fun id is => ?_, fun ready =>
          ⟨others ready, ?_⟩⟩
      · rw [← on]
        exact freed id (by simpa [held, eq_comm] using is)
      · intro is
        obtain rfl : predicate = _ := by simpa [eq_comm] using is
        exact ready.free copy mem slot
    | @both inner outer someInner someOuter isInner isOuter =>
      exact z.splitBoth root node on held (twoSided_of_classify (z.linked root) (below_of_child slot)
        someInner someOuter isInner isOuter)

/-- Splitting the join predicates of some roots detaches the parts that leave them. -/
theorem Zone.splitJoins (z : g.Zone roots ∅ zone level) (live : List String)
    {copies : List NodeId} (nodup : copies.Nodup)
    (isRoot : ∀ copy ∈ copies, copy ∈ roots ∧ level copy = scopes ∧
      (g.node copy).isRange = true) :
    Detaches g (splitJoins live g copies).1 roots zone level scopes
      (splitJoins live g copies).2 := by
  induction copies generalizing g zone level with
  | nil => exact .nothing z
  | cons copy rest ih =>
    obtain ⟨root, on, isRange⟩ := isRoot copy (by simp)
    obtain ⟨r, node⟩ := Node.exists_of_isRange isRange
    have first := z.splitJoin root node on live
    have stamp := (Same.split? Node.stamp g live r.join).trans
      (Node.formal_stamp.toRigid.setJoin _ copy (g.split? live r.join).2.inner)
    rw [← join?_eq node] at first stamp
    refine first.trans stamp.size (Node.formal_stamp.toRigid.splitJoins live _ rest) fun after => ?_
    refine ih after.inOrder (List.nodup_cons.mp nodup).2 fun other mem => ?_
    obtain ⟨root', on', isRange'⟩ := isRoot other (by simp [mem])
    have has := z.has (z.root root').1
    exact ⟨root', ((after.old (after.inOrder.root root').1 has).2).trans on',
      (stamp.isRange has).trans isRange'⟩

end Graph

end RangeQuery
