import RangeQuery.Proofs.Graph.Places
import RangeQuery.Proofs.Predicate.Conjunctions
import RangeQuery.Proofs.Scope.ConditionalAggregates

/-!
What is met from a node. The way down comes past the queries that ranges read, and does not enter
the subqueries of some set. In a copy the same is met in the same places.
-/

namespace RangeQuery

namespace Node

/-- What hangs in a node, but for the query that a range reads. -/
def entered : Node → List NodeId
  | .range r => r.join.toList
  | node => node.children

theorem entered_of_not_range {node : Node} (other : node.isRange = false) :
    node.entered = node.children := by
  cases node <;> simp_all [isRange, entered]

theorem entered_subset_children (node : Node) : node.entered ⊆ node.children := by
  cases node with
  | range r => exact List.subset_append_left _ _
  | _ => exact List.Subset.refl _

theorem isRange_withChildren (node : Node) (handles : List NodeId) :
    (node.withChildren handles).isRange = node.isRange := by
  cases node <;> rfl

/-- What is entered after a swap was entered before, or took the place of what was. -/
theorem mem_entered_replace {node : Node} {old new id : NodeId}
    (mem : id ∈ (node.withChildren (node.children.replace old new)).entered) :
    id ∈ node.entered ∨ id = new ∧ old ∈ node.entered := by
  cases isRange : node.isRange with
  | false =>
    rw [entered_of_not_range (by rw [isRange_withChildren, isRange]),
      children_withChildren _ (by simp)] at mem
    rw [entered_of_not_range isRange]
    by_cases held : old ∈ node.children
    · have swap := forall₂_replace node.children old new
      exact (mem_of_forall₂_swap swap mem).symm.imp_right fun is => ⟨is, held⟩
    · rw [List.replace_of_not_mem held] at mem
      exact .inl mem
  | true =>
    cases node with
    | range r =>
      obtain ⟨_, _, join, _, _, nested⟩ := r
      cases join with
      | none => cases mem
      | some join =>
        by_cases same : old = join
        · simp_all [withChildren, Range.withChildren, entered, children]
        · have apart : (old == join) = false := by simpa using same
          simp_all [withChildren, Range.withChildren, entered, children, List.replace_cons]
    | _ => cases isRange

section

variable (target : NodeId → NodeId) (node : Node) (kids bodies : List NodeId)

theorem isSubquery_filled :
    (((node.reading target).withChildren kids).withTemplateBodies bodies).isSubquery =
      node.isSubquery := by
  cases node <;> rfl

theorem isConditional_filled :
    (((node.reading target).withChildren kids).withTemplateBodies bodies).isConditional =
      node.isConditional := by
  cases node with
  | aggregate a => exact isConditional_withChildren (.aggregate a) kids
  | _ => rfl

variable {node kids}

/-- What is entered in a filled node stands in the place of what is entered in the node. -/
theorem exists_entered_of_filled (length : kids.length = node.children.length) {child : NodeId}
    (mem : child ∈ (((node.reading target).withChildren kids).withTemplateBodies bodies).entered) :
    ∃ origin ∈ node.entered, (origin, child) ∈ node.children.zip kids := by
  have paired : List.Forall₂ (fun origin child => (origin, child) ∈ node.children.zip kids)
      node.children kids := List.forall₂_iff_zip.mpr ⟨length.symm, fun mem => mem⟩
  cases isRange : node.isRange with
  | false =>
    have isRange' :
        (((node.reading target).withChildren kids).withTemplateBodies bodies).isRange = false := by
      rw [← isRange]
      cases node <;> rfl
    rw [entered_of_not_range isRange', children_withTemplateBodies,
      children_withChildren _ (by rw [children_reading, length])] at mem
    rw [entered_of_not_range isRange]
    exact Graph.exists_of_forall₂ paired mem
  | true =>
    cases node with
    | range r =>
      obtain ⟨_, _, join, _, _, nested⟩ := r
      cases join with
      | none => cases mem
      | some join =>
        cases paired with
        | cons first _ =>
          obtain rfl := List.mem_singleton.mp mem
          exact ⟨join, by simp [entered], first⟩
    | _ => cases isRange

end

end Node

namespace Graph

variable {g h k : Graph} {root top middle old new id : NodeId} {closed closed' : Set NodeId}
  {target : NodeId → NodeId}

/-! ## Ways down -/

/-- A node is met from another one: the way down comes past the queries that ranges read, and enters
none of some subqueries. -/
inductive Meets (g : Graph) (closed : Set NodeId) (top : NodeId) : NodeId → Prop
  | here : Meets g closed top top
  | down {owner child : NodeId} : Meets g closed top owner →
      ((g.node owner).isSubquery = true → owner ∉ closed) → child ∈ (g.node owner).entered →
      Meets g closed top child

namespace Meets

theorem reached (met : g.Meets closed top id) : g.Below top id := by
  induction met with
  | here => exact .refl g top
  | down _ _ slot ih => exact ih.child (Node.entered_subset_children _ slot)

theorem trans (met : g.Meets closed top middle) (further : g.Meets closed middle id) :
    g.Meets closed top id := by
  induction further with
  | here => exact met
  | down _ enters slot ih => exact ih.down enters slot

theorem of_child {owner child : NodeId} (enters : (g.node owner).isSubquery = false)
    (slot : child ∈ (g.node owner).entered) (met : g.Meets closed child id) :
    g.Meets closed owner id :=
  (Meets.here.down (by simp [enters]) slot).trans met

theorem eq_or_child (met : g.Meets closed top id) :
    id = top ∨ ∃ child ∈ (g.node top).entered, g.Meets closed child id := by
  induction met with
  | here => exact .inl rfl
  | down _ enters slot ih =>
    rcases ih with rfl | ⟨child, first, met⟩
    · exact .inr ⟨_, slot, .here⟩
    · exact .inr ⟨child, first, met.down enters slot⟩

/-- Where the nodes stay and no more subqueries are entered, there is nothing else to be met. -/
theorem of_nodes (met : h.Meets closed' top id)
    (same : ∀ id, g.Below top id → h.node id = g.node id) (sub : closed ⊆ closed') :
    g.Meets closed top id := by
  induction met with
  | here => exact .here
  | @down owner child _ enters slot ih =>
    rw [same owner ih.reached] at enters slot
    exact ih.down (fun subquery mem => enters subquery (sub mem)) slot

/-- Outside subqueries nothing is met when none of them is entered. -/
theorem outside (met : g.Meets {sub | (g.node sub).isSubquery = true} top id) :
    g.Outside top id := by
  induction met with
  | here => exact .refl g top
  | @down owner child _ enters slot ih =>
    refine ih.child ?_ (Node.entered_subset_children _ slot)
    cases isSubquery : (g.node owner).isSubquery with
    | false => rfl
    | true => exact absurd isSubquery (enters isSubquery)

end Meets

/-! ## Conjuncts -/

/-- The conjuncts of a predicate are met from it. -/
theorem Acyclic.meets_conjunct (a : g.Acyclic top) (listed : id ∈ g.conjuncts top) :
    g.Meets closed top id := by
  obtain ⟨-, trail, way, ands⟩ := a.mem_conjuncts.mp listed
  clear listed
  induction way with
  | here => exact .here
  | @down trail owner child way slot ih =>
    obtain ⟨left, right, node⟩ := Node.exists_of_isAnd (ands owner (by simp))
    refine (ih fun other on => ands other (by simp [on])).down (by simp [node, Node.isSubquery]) ?_
    rw [children] at slot
    rwa [Node.entered_of_not_range (by rw [node]; rfl)]

/-- What is met from a predicate and is no conjunction is met from a conjunct. -/
theorem Acyclic.exists_meeting_conjunct (a : g.Acyclic top) (met : g.Meets closed top id)
    (leaf : (g.node id).isAnd = false) :
    ∃ conjunct ∈ g.conjuncts top, g.Meets closed conjunct id := by
  -- On the way down, as long as it leads through conjunctions, and from the first other node on.
  have step : (∃ trail, g.Trail top trail id ∧ ∀ owner ∈ id :: trail, (g.node owner).isAnd = true) ∨
      ∃ conjunct ∈ g.conjuncts top, g.Meets closed conjunct id := by
    have onTree : ∀ {trail id}, g.Trail top trail id →
        (∀ owner ∈ trail, (g.node owner).isAnd = true) →
          (∃ trail, g.Trail top trail id ∧ ∀ owner ∈ id :: trail, (g.node owner).isAnd = true) ∨
            ∃ conjunct ∈ g.conjuncts top, g.Meets closed conjunct id := by
      intro trail id way ands
      cases isAnd : (g.node id).isAnd with
      | true => exact .inl ⟨trail, way, by simpa [isAnd] using ands⟩
      | false => exact .inr ⟨id, a.mem_conjuncts.mpr ⟨isAnd, trail, way, ands⟩, .here⟩
    clear leaf
    induction met with
    | here => exact onTree .here (by simp)
    | down _ enters slot ih =>
      rcases ih with ⟨trail, way, ands⟩ | ⟨conjunct, listed, met⟩
      · exact onTree (way.down (Node.entered_subset_children _ slot)) ands
      · exact .inr ⟨conjunct, listed, met.down enters slot⟩
  refine step.resolve_left ?_
  rintro ⟨trail, -, ands⟩
  rw [ands id (by simp)] at leaf
  cases leaf

/-! ## Copies -/

/-- What is met from a mirror is met, in the same place, from the old node, where the subqueries in
the places of closed ones are closed. -/
theorem Mirrors.exists_met (m : Mirrors g h target old new) (met : h.Meets closed' new id)
    (carry : ∀ origin image, SamePlace g h old new origin image → origin ∈ closed →
      image ∈ closed') :
    ∃ origin, g.Meets closed old origin ∧ (h.node id).isConditional = (g.node origin).isConditional := by
  suffices place : ∃ origin, g.Meets closed old origin ∧ Mirrors g h target origin id ∧
      SamePlace g h old new origin id by
    obtain ⟨origin, met, mirror, -⟩ := place
    cases mirror with
    | intro kids bodies node _ _ => exact ⟨origin, met, by rw [node, Node.isConditional_filled]⟩
  induction met with
  | here => exact ⟨old, .here, m, .top⟩
  | @down owner child _ enters slot ih =>
    obtain ⟨origin, met, mirror, place⟩ := ih
    have slots := mirror.each
    cases mirror with
    | intro kids bodies node length each =>
      rw [children_of_node node length] at slots
      rw [node, Node.isSubquery_filled] at enters
      rw [node] at slot
      obtain ⟨below, among, pair⟩ := Node.exists_entered_of_filled target bodies length slot
      refine ⟨below, met.down (fun subquery mem => ?_) among, each below child pair, place.down ?_⟩
      · exact enters subquery (carry origin owner place mem)
      · rwa [children_of_node node length]

end Graph

end RangeQuery
