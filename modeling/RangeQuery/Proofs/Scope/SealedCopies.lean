import RangeQuery.Proofs.Graph.Sealed
import RangeQuery.Proofs.Scope.Anchor
import RangeQuery.Proofs.Scope.Splitting

/-!
The steps that build the scope of a subquery, taken beside a graph. Ranges and conditions are copied,
and only the copies and what joins them are written afterwards.
-/

namespace RangeQuery

namespace Graph

variable {g h : Graph}

/-! ## Writing new nodes -/

namespace Extends

/-- Writing new nodes and their owners leaves the old ones. -/
theorem relink (e : Extends g h) {owner : NodeId} {old new : Option NodeId}
    (isNew : ∀ id ∈ old.toList ++ new.toList, ¬ g.Has id) :
    Extends g (h.relink owner old new) where
  size := by rw [size_relink]; exact e.size
  node has := by rw [node_relink, e.node has]
  parent {id} has := by
    rw [parent_relink_of_ne, e.parent has]
    · rintro rfl
      exact isNew id (by simp) has
    · rintro rfl
      exact isNew id (by simp) has

theorem setNode (e : Extends g h) {id : NodeId} (new : ¬ g.Has id) (node : Node) :
    Extends g (h.setNode id node) where
  size := by rw [size_setNode]; exact e.size
  node {other} has := by
    have ne : id ≠ other := fun same => new (same ▸ has)
    rw [node_setNode_of_ne h ne, e.node has]
  parent has := by rw [parent_setNode, e.parent has]

theorem setJoin (e : Extends g h) {id : NodeId} {join : Option NodeId} (new : ¬ g.Has id)
    (isNew : ∀ other ∈ (h.join? id).toList ++ join.toList, ¬ g.Has other) :
    Extends g (h.setJoin id join) := by
  cases node : h.node id with
  | range r =>
    rw [setJoin_eq node]
    rw [join?_eq node] at isNew
    exact (e.setNode new _).relink isNew
  | _ => simpa only [Graph.setJoin, node] using e

theorem setRequired (e : Extends g h) {id : NodeId} (new : ¬ g.Has id) (required : Bool) :
    Extends g (h.setRequired id required) := by
  cases node : h.node id with
  | range r =>
    simp only [Graph.setRequired, updateRange, node]
    exact e.setNode new _
  | _ => simpa only [Graph.setRequired, updateRange, node] using e

end Extends

/-- What new predicates are joined to is new. -/
theorem snd_conjoinOnto_new (size : g.size ≤ h.size) {first : NodeId} {rest : List NodeId}
    (new : ¬ g.Has first) : ¬ g.Has (h.conjoinOnto first rest).2 := by
  induction rest generalizing h first with
  | nil => exact new
  | cons next rest ih =>
    refine ih (h := (h.add (.binary .and first next)).1) ?_ (Nat.not_lt.mpr size)
    rw [size_add]
    exact Nat.le_succ_of_le size

theorem snd_conjoin_new (size : g.size ≤ h.size) {ids : List NodeId}
    (new : ∀ id ∈ ids, ¬ g.Has id) : ∀ id ∈ (h.conjoin ids).2, ¬ g.Has id := by
  cases ids with
  | nil => simp [conjoin]
  | cons first rest =>
    intro id found
    obtain rfl : (h.conjoinOnto first rest).2 = id := Option.some.inj found
    exact snd_conjoinOnto_new size (new first (by simp))

/-! ## Owners of new nodes -/

/-- A slot of a graph whose range was given a join predicate was there before, or holds it. -/
theorem mem_children_of_setJoin {id owner child : NodeId} {join : Option NodeId}
    (slot : child ∈ (h.setJoin id join).children owner) :
    child ∈ h.children owner ∨ child ∈ join := by
  by_cases here : owner = id
  · subst here
    by_cases has : h.Has owner
    · cases node : h.node owner with
      | range r =>
        rw [children, node_setJoin_self has node, Node.children] at slot
        rw [children, node, Node.children]
        rcases List.mem_append.mp slot with new | nested
        · exact .inr (Option.mem_toList.mp new)
        · exact .inl (List.mem_append_right _ nested)
      | _ => exact .inl (by simpa only [setJoin, node] using slot)
    · rw [children_of_not_has (by rwa [Has, size_setJoin])] at slot
      cases slot
  · exact .inl (by rwa [children_setJoin_of_ne h here] at slot)

namespace Sealed

variable (s : Sealed g h)

include s

theorem conjoinOnto {first : NodeId} {rest : List NodeId}
    (new : ∀ id ∈ first :: rest, ¬ g.Has id) : Sealed g (h.conjoinOnto first rest).1 := by
  induction rest generalizing h first with
  | nil => exact s
  | cons next rest ih =>
    rw [List.forall_mem_cons, List.forall_mem_cons] at new
    obtain ⟨one, other, others⟩ := new
    have operands : ∀ child ∈ (Node.binary .and first next).children, ¬ g.Has child := by
      simpa [Node.children] using ⟨one, other⟩
    exact ih (s.add operands) (List.forall_mem_cons.mpr ⟨s.not_has_next, others⟩)

theorem conjoin {ids : List NodeId} (new : ∀ id ∈ ids, ¬ g.Has id) :
    Sealed g (h.conjoin ids).1 := by
  cases ids with
  | nil => exact s
  | cons first rest => exact s.conjoinOnto new

theorem conjoinWith {condition : Option NodeId} {extra : NodeId}
    (isNew : ∀ id ∈ condition, ¬ g.Has id) (new : ¬ g.Has extra) :
    Sealed g (h.conjoinWith condition extra).1 := by
  cases condition with
  | none => exact s
  | some existing =>
    have both : ∀ id ∈ [existing, extra], ¬ g.Has id := by simpa using ⟨isNew existing rfl, new⟩
    exact s.conjoinOnto both

theorem join_new {copy join : NodeId} (new : ¬ g.Has copy) (held : h.join? copy = some join) :
    ¬ g.Has join := s.closed new (mem_children_of_join? held)

theorem setJoin {copy : NodeId} {join : Option NodeId} (new : ¬ g.Has copy)
    (isNew : ∀ id ∈ join, ¬ g.Has id) : Sealed g (h.setJoin copy join) where
  toExtends := s.toExtends.setJoin new fun id mem => by
    rcases List.mem_append.mp mem with held | mem
    · exact s.join_new new (Option.mem_toList.mp held)
    · exact isNew id (Option.mem_toList.mp mem)
  closed absent slot := by
    rcases mem_children_of_setJoin slot with slot | mem
    · exact s.closed absent slot
    · exact isNew _ mem

theorem copyRanges (ids : List NodeId) :
    Sealed g (h.copyRanges ids).1 ∧ ∀ copy ∈ (h.copyRanges ids).2.map (·.2), ¬ g.Has copy := by
  induction ids generalizing h with
  | nil => exact ⟨s, by simp [Graph.copyRanges]⟩
  | cons id rest ih =>
    obtain ⟨first, new⟩ := s.copyWith id .empty
    obtain ⟨others, news⟩ := ih first
    exact ⟨others, List.forall_mem_cons.mpr ⟨new, news⟩⟩

theorem rebindJoins (names : Renaming) {copies : List NodeId}
    (new : ∀ copy ∈ copies, ¬ g.Has copy) : Sealed g (h.rebindJoins names copies) := by
  induction copies generalizing h with
  | nil => exact s
  | cons copy rest ih =>
    rw [List.forall_mem_cons] at new
    rw [Graph.rebindJoins, List.foldl_cons]
    cases held : h.join? copy with
    | none => exact ih s new.2
    | some join => exact ih (s.rebind (s.join_new new.1 held) names) new.2

/-- The sides of a new predicate are new, and made of new nodes. -/
theorem split {predicate : NodeId} (new : ¬ g.Has predicate) (live : List String) :
    Sealed g (h.split live predicate).1 ∧
      (∀ id ∈ (h.split live predicate).2.inner, ¬ g.Has id) ∧
      ∀ id ∈ (h.split live predicate).2.correlation, ¬ g.Has id := by
  have into := h.split_into live predicate
  generalize h.split live predicate = result at into
  cases into with
  | inside => exact ⟨s, by simpa using new, by simp⟩
  | outside => exact ⟨s, by simp, by simpa using new⟩
  | @both inner outer _ _ isInner isOuter =>
    have conjuncts : ∀ id ∈ h.conjuncts predicate, ¬ g.Has id := by
      intro id conjunct
      rw [conjuncts_eq] at conjunct
      obtain ⟨trail, way, -, -⟩ := mem_preorder.mp (List.mem_filter.mp conjunct).1
      exact s.below new ⟨trail, way⟩
    have ofInner : ∀ id ∈ inner, ¬ g.Has id := fun id within =>
      conjuncts id (List.mem_filter.mp (isInner ▸ within)).1
    have ofOuter : ∀ id ∈ outer, ¬ g.Has id := fun id within =>
      conjuncts id (List.mem_filter.mp (isOuter ▸ within)).1
    have first := s.conjoin ofInner
    exact ⟨first.conjoin ofOuter, snd_conjoin_new s.size ofInner,
      snd_conjoin_new first.size ofOuter⟩

theorem split? {predicate : Option NodeId} (new : ∀ id ∈ predicate, ¬ g.Has id)
    (live : List String) :
    Sealed g (h.split? live predicate).1 ∧
      (∀ id ∈ (h.split? live predicate).2.inner, ¬ g.Has id) ∧
      ∀ id ∈ (h.split? live predicate).2.correlation, ¬ g.Has id := by
  cases predicate with
  | none => exact ⟨s, by simp [Graph.split?], by simp [Graph.split?]⟩
  | some predicate => exact s.split (new predicate rfl) live

theorem splitJoins (live : List String) {copies : List NodeId}
    (new : ∀ copy ∈ copies, ¬ g.Has copy) :
    Sealed g (Graph.splitJoins live h copies).1 ∧
      ∀ id ∈ (Graph.splitJoins live h copies).2, ¬ g.Has id := by
  induction copies generalizing h with
  | nil => exact ⟨s, by simp [Graph.splitJoins]⟩
  | cons copy rest ih =>
    rw [List.forall_mem_cons] at new
    obtain ⟨both, inner, outer⟩ := s.split? (fun _ held => s.join_new new.1 held) live
    obtain ⟨others, parts⟩ := ih (both.setJoin new.1 inner) new.2
    refine ⟨others, fun id mem => ?_⟩
    rcases List.mem_append.mp mem with mem | mem
    · exact outer id (Option.mem_toList.mp mem)
    · exact parts id mem

theorem copyCondition (names : Renaming) (condition : Option NodeId) :
    Sealed g (h.copyCondition names condition).1 ∧
      ∀ id ∈ (h.copyCondition names condition).2, ¬ g.Has id := by
  cases condition with
  | none => exact ⟨s, by simp [Graph.copyCondition]⟩
  | some condition =>
    obtain ⟨copied, new⟩ := s.copyWith condition names
    exact ⟨copied, by simpa [Graph.copyCondition] using new⟩

theorem setRequired {copy : NodeId} (new : ¬ g.Has copy) (required : Bool) :
    Sealed g (h.setRequired copy required) where
  toExtends := s.toExtends.setRequired new required
  closed absent slot := by
    rw [(Relabels.setRequired h copy required).children] at slot
    exact s.closed absent slot

theorem promote {anchor : NodeId} {condition : Option NodeId} (new : ¬ g.Has anchor)
    (isNew : ∀ id ∈ condition, ¬ g.Has id) : Sealed g (h.promote anchor condition).1 := by
  unfold Graph.promote
  cases held : h.join? anchor with
  | none => exact s.setRequired new true
  | some join =>
    have freed : Sealed g (h.setJoin anchor none) := s.setJoin new (by simp)
    exact (freed.conjoinWith isNew (s.join_new new held)).setRequired new true

theorem withAnchor {ranges : List NodeId} {condition : Option NodeId}
    (new : ∀ id ∈ ranges, ¬ g.Has id) (isNew : ∀ id ∈ condition, ¬ g.Has id)
    (usage : RangeUsage) : Sealed g (h.withAnchor ranges condition usage).1 := by
  rcases h.withAnchor_cases ranges condition usage with same | ⟨anchor, mem, same⟩
  · rw [same]
    exact s
  · rw [same]
    exact s.promote (new anchor mem) isNew

end Sealed

end Graph

end RangeQuery
