import RangeQuery.Proofs.Scope.Reshaping
import RangeQuery.Scope.ExistenceMarker

/-!
Turning markers into required ranges. The conjuncts that remain are joined anew and take the place
of the old condition.
-/

namespace RangeQuery

open RangeQuery.Graph

theorem Graph.Relabels.requireAll (g : Graph) (ranges : List NodeId) :
    Relabels g (g.requireAll ranges) :=
  .foldl (fun g id => .setRequired g id true) g ranges

namespace Steady

variable {α : Type} {view : Node → α} (steady : Steady view)

include steady

theorem requireAll (g : Graph) (ranges : List NodeId) : Same view g (g.requireAll ranges) :=
  .foldl (fun g id => steady.setRequired g id true) g ranges

theorem extractMarkersOf (g : Graph) (scope condition : NodeId) :
    Same view g (g.extractMarkersOf scope condition).1 := by
  unfold Graph.extractMarkersOf
  dsimp only
  split
  · exact .refl view g
  · exact ((steady.requireAll g _).trans (.conjoin view _ _)).trans (steady.setCondition _ _ _)

theorem extractMarkers (g : Graph) (scope : NodeId) :
    Same view g (g.extractMarkers scope).1 := by
  unfold Graph.extractMarkers
  split
  · exact steady.extractMarkersOf g scope _
  · exact .refl view g

end Steady

namespace Graph

variable {g h : Graph} {roots zone : Set NodeId} {level : NodeId → List NodeId}

theorem exists_withCondition? {node : Node} {condition : NodeId}
    (slot : node.condition? = some condition) (other : Option NodeId) :
    ∃ changed, node.withCondition? other = some changed := by
  cases node <;> simp_all [Node.condition?, Node.withCondition?]

theorem condition?_mem_children {node : Node} {condition : NodeId}
    (slot : node.condition? = some condition) : condition ∈ node.children := by
  cases node <;> simp_all [Node.condition?, Node.children]

theorem isAnd_of_condition? {node : Node} {condition : NodeId}
    (slot : node.condition? = some condition) : node.isAnd = false := by
  cases node <;> simp_all [Node.condition?, Node.isAnd]

/-- Some conjuncts of a condition, but not the condition itself, are joined anew and take its
place. -/
theorem Zone.refilter (z : g.Zone roots ∅ zone level) {root scope condition : NodeId}
    (l : g.Linked root) (above : g.Below root scope) (mem : scope ∈ zone) (r : Relabels g h)
    (slot : g.condition? scope = some condition) (unchanged : h.node scope = g.node scope)
    {remaining : List NodeId} (conjuncts : ∀ id ∈ remaining, id ∈ g.conjuncts condition)
    (nodup : remaining.Nodup) (out : condition ∉ remaining) :
    Rearranges g ((h.conjoin remaining).1.setCondition scope (h.conjoin remaining).2) roots zone
      level := by
  have child : condition ∈ g.children scope := condition?_mem_children slot
  obtain ⟨apart, ready⟩ := z.dismantle l (above.child child) mem child
  have joined := ((r.zone (apart.levelWith (level scope))).conjoin (level scope)
    (fun id new => levelWith_of_not_has (fun has => new (r.has.mpr has)) _)
    (fun id mem => r.ready (apart.readyWith _ (ready id (conjuncts id mem)))) nodup).after r.size
      r.ready
  have node : (h.conjoin remaining).1.node scope = g.node scope :=
    ((Same.conjoin id h remaining).node (r.has.mpr (z.has mem))).trans unchanged
  have slot' : (h.conjoin remaining).1.condition? scope = some condition := by
    rw [condition?, node]
    exact slot
  have notSpine : ∀ {id}, (g.node id).isAnd = false → id ∉ g.spine condition := by
    rintro id notAnd ⟨trail, way, spine⟩
    rw [spine id (by simp)] at notAnd
    cases notAnd
  obtain ⟨changed, held⟩ := exists_withCondition? slot' (h.conjoin remaining).2
  have final := joined.inOrder.refillCondition ∅
    (.inl ⟨mem, notSpine (isAnd_of_condition? slot)⟩) held ?_ ?_ ?_ ?_
  · exact ⟨_, _, z.reshapedByGrowth (fun _ within => within.1) joined.glue
      (Node.formal_stamp.toRigid.setCondition _ scope _) final⟩
  · rw [slot']
    intro same
    rcases joined.new condition same.symm with again | new
    · exact out again
    · exact new (z.has (z.closed mem child (Set.notMem_empty _)))
  · rw [slot']
    rintro other _ apart same
    exact apart (congrArg (fun link : NodeId × NodeId => some link.2) same).symm
  · rintro link same other
    exact absurd (congrArg Prod.fst same) other
  · rw [levelWith_of_has (z.has mem)]
    exact joined.ready

/-- A condition with a marker among its conjuncts is none of those that remain. -/
theorem not_mem_remaining {root condition : NodeId} {declared : List NodeId} (l : g.Linked root)
    (above : g.Below root condition)
    (marked : (g.conjuncts condition).filterMap (g.markedRange? declared) ≠ []) :
    condition ∉ (g.conjuncts condition).filter fun id => (g.markedRange? declared id).isNone := by
  intro mem
  obtain ⟨conjunct, unmarked⟩ := List.mem_filter.mp mem
  have leaf := ((mem_conjuncts l above).mp conjunct).1
  rw [conjuncts_of_not_and leaf] at marked
  cases found : g.markedRange? declared condition with
  | none => simp [found] at marked
  | some range => simp [found] at unmarked

theorem node_requireAll_of_not_range {id : NodeId} (h : (g.node id).isRange = false)
    (ranges : List NodeId) : (g.requireAll ranges).node id = g.node id := by
  induction ranges generalizing g with
  | nil => rfl
  | cons first rest ih =>
    have one : (g.setRequired first true).node id = g.node id := by
      cases node : g.node first with
      | range r =>
        have ne : first ≠ id := by rintro rfl; simp [node, Node.isRange] at h
        simp only [setRequired, updateRange, node]
        exact node_setNode_of_ne g ne _
      | _ => simp only [setRequired, updateRange, node]
    exact (ih (one ▸ h)).trans one

/-- Extracting markers rearranges a zone. -/
theorem Zone.extractMarkers (z : g.Zone roots ∅ zone level) {root scope : NodeId}
    (l : g.Linked root) (above : g.Below root scope) (mem : scope ∈ zone) :
    Rearranges g (g.extractMarkers scope).1 roots zone level := by
  unfold Graph.extractMarkers
  cases found : (g.scope scope).condition with
  | none => exact .refl z
  | some condition =>
    have slot : g.condition? scope = some condition ∧ (g.node scope).isRange = false := by
      cases node : g.node scope <;>
        simp_all [Graph.scope, condition?, Node.condition?, Retrieve.empty, Node.isRange]
    dsimp only
    unfold Graph.extractMarkersOf
    dsimp only
    split
    · exact .refl z
    · next marked =>
      have inside := above.child (condition?_mem_children slot.1)
      refine z.refilter l above mem (.requireAll g _) slot.1
        (node_requireAll_of_not_range slot.2 _) (fun id mem => (List.mem_filter.mp mem).1)
        ((nodup_conjuncts l inside).filter _) (not_mem_remaining l inside fun none => marked ?_)
      rw [none]
      rfl

end Graph

end RangeQuery
