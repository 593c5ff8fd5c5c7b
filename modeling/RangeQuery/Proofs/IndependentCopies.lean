import Mathlib.Data.Set.Function
import RangeQuery.Proofs.Graph.Doubles
import RangeQuery.Proofs.Graph.Sealed

/-!
The copy of a tree. It is a well-linked tree of new nodes, place by place like the old one, beside a
graph of which every slot stays. An identifier in it reads the copy of its range where the range was
copied as well, and else what the given renaming tells, or its own range.
-/

namespace RangeQuery

namespace Graph

variable {g h : Graph} {root copy : NodeId} {names : Renaming} {place target : NodeId → NodeId}

/-- The copy of a tree has one node in each place of it, with the same label over the copies of the
children and over as many templates; `target` tells what its identifiers read in place of a range. -/
structure Isomorphic (g h : Graph) (names : Renaming) (root copy : NodeId)
    (place target : NodeId → NodeId) : Prop where
  top : place root = copy
  bijective : Set.BijOn place {id | g.Below root id} {id | h.Below copy id}
  node : ∀ id, g.Below root id →
    ∃ bodies : List NodeId, bodies.length = (g.node id).templateBodies.length ∧
      h.node (place id) = (((g.node id).reading target).withChildren
        ((g.children id).map place)).withTemplateBodies bodies
  /-- What was copied, in a slot or in a template, is read where it was copied to. -/
  inside : ∀ id, g.Within root id → ¬ g.Has (target id) ∧ Counterpart g h root copy id (target id)
  own : ∀ id, g.Below root id → (∀ owner body, g.Within root owner →
    body ∈ (g.node owner).templateBodies → ¬ g.Within body id) → target id = place id
  outside : ∀ id, ¬ g.Within root id → target id = names.apply id

/-- A mirror of a tree that is a tree itself, with counterparts for what its identifiers read, is a
copy place by place. -/
theorem Tree.exists_place (t : g.Tree root) (m : Mirrors g h target root copy)
    (linked : h.Linked copy)
    (node : ∀ {id new}, SamePlace g h root copy id new →
      ∃ bodies : List NodeId, bodies.length = (g.node id).templateBodies.length ∧
        h.node new = (((g.node id).reading target).withChildren
          (h.children new)).withTemplateBodies bodies)
    (slots : ∀ {old new}, Counterpart g h root copy old new →
      h.held new = [] ∨ (h.children new).length = (g.children old).length)
    (inside : ∀ id, g.Within root id →
      ¬ g.Has (target id) ∧ Counterpart g h root copy id (target id))
    (outside : ∀ id, ¬ g.Within root id → target id = names.apply id) :
    ∃ place, Isomorphic g h names root copy place target := by
  classical
  have images (id : NodeId) : ∃ new, g.Below root id → SamePlace g h root copy id new := by
    by_cases below : g.Below root id
    · exact (m.exists_image below).imp fun _ place _ => place
    · exact ⟨id, fun below' => absurd below' below⟩
  choose place places using images
  have unique {id new : NodeId} (shown : SamePlace g h root copy id new) : place id = new :=
    (places id shown.reached.1).unique t shown
  refine ⟨place, unique .top, ⟨?_, ?_, ?_⟩, ?_, inside, ?_, outside⟩
  · exact fun id below => (places id below).reached.2
  · intro a below b below' same
    have shown := (places a below).swap
    rw [same] at shown
    exact shown.unique linked.tree (places b below').swap
  · intro new below
    obtain ⟨old, shown⟩ := m.exists_origin below
    exact ⟨old, shown.reached.1, unique shown⟩
  · intro id below
    obtain ⟨bodies, length, written⟩ := node (places id below)
    have pairs := ((places id below).mirrors m).each
    have kids : h.children (place id) = (g.children id).map place := by
      rw [← List.forall₂_eq_eq_eq, List.forall₂_map_right_iff, List.forall₂_iff_zip]
      refine ⟨pairs.length_eq.symm, fun pair => ?_⟩
      exact (unique ((places id below).down (mem_zip_swap pair))).symm
    exact ⟨bodies, length, kids ▸ written⟩
  · intro id below apart
    rcases (inside id below.within).2.samePlace_or_within slots with shown |
      ⟨owner, body, above, mem, within⟩
    · exact (unique shown).symm
    · exact absurd within (apart owner body above mem)

/-- The copy of a tree leaves every slot there was, and is a well-linked tree of new nodes which is
isomorphic to the old one. As the slots of a tree lead in no circle, none of its nodes is cut off, and no
part of a template is unless the templates lead in one (`Founded.copyLevels_eq`). -/
theorem Tree.copyWith_isomorphic (t : g.Tree root) (whole : g.Whole root) (names : Renaming) :
    let h := (g.copyWith root names).1
    let copy := (g.copyWith root names).2
    g.slots.toList <+: h.slots.toList ∧ h.Linked copy ∧ (∀ id, h.Below copy id → ¬ g.Has id) ∧
      ∃ place target, Isomorphic g h names root copy place target := by
  classical
  have forest := g.forest_copyWith root names
  have linked := forest.linked _ (List.mem_singleton_self _)
  have mirrors := mirrors_copyWith t.acyclic names
  refine ⟨forest.beside.prefix_slots, linked, fun id below => forest.fresh _ (by simp) below,
    (t.exists_place mirrors linked ?_ whole.slots_copyWith
      (fun id within => whole.inside_copyWith names within)
      fun id outside => whole.outside_copyWith names outside).imp fun place iso => ⟨_, iso⟩⟩
  intro id new shown
  have written := g.node_copyWith root names new
  rw [if_pos shown.reached.2] at written
  exact (whole.refills_copyWith shown.counterpart).node_eq (shown.mirrors mirrors) written

/-- Two ranges over customers, one over limits, and a test for an order of the first customer above
the limit. -/
def ordersAboveLimit : Graph := ⟨#[
  ⟨.range { name := "c", entity := some "Customer", join := none, required := false
            included := true, nested := none }, none⟩,
  ⟨.range { name := "d", entity := some "Customer", join := none, required := false
            included := true, nested := none }, none⟩,
  ⟨.range { name := "l", entity := some "Limit", join := none, required := false
            included := true, nested := none }, none⟩,
  ⟨.range { name := "o", entity := some "Order", join := some ⟨6⟩, required := false
            included := true, nested := none }, some ⟨10⟩⟩,
  ⟨.identifier { range := ⟨3⟩, path := ["customerId"] }, some ⟨6⟩⟩,
  ⟨.identifier { range := ⟨0⟩, path := ["id"] }, some ⟨6⟩⟩,
  ⟨.binary .eq ⟨4⟩ ⟨5⟩, some ⟨3⟩⟩,
  ⟨.identifier { range := ⟨3⟩, path := ["total"] }, some ⟨9⟩⟩,
  ⟨.identifier { range := ⟨2⟩, path := ["amount"] }, some ⟨9⟩⟩,
  ⟨.binary .gt ⟨7⟩ ⟨8⟩, some ⟨10⟩⟩,
  ⟨.subquery { kind := .existence, ranges := [⟨3⟩], expression := none, condition := some ⟨9⟩ },
    none⟩]⟩

/-- Copied for the second customer, the test reads the copied order, although the renaming tells the
second customer for the order as well, and the limit as before. -/
theorem Tree.copyWith_isomorphic_ordersAboveLimit :
    ordersAboveLimit.Tree ⟨10⟩ ∧ ordersAboveLimit.Whole ⟨10⟩ ∧
    ∀ h copy, ordersAboveLimit.copyWith ⟨10⟩ (.ofList [(⟨0⟩, ⟨1⟩), (⟨3⟩, ⟨1⟩)]) = (h, copy) →
      ordersAboveLimit.slots.toList <+: h.slots.toList ∧ h.Linked copy ∧
      ∃ place : NodeId → NodeId, place ⟨10⟩ = copy ∧ ¬ ordersAboveLimit.Has (place ⟨3⟩) ∧
        h.node (place ⟨5⟩) = .identifier { range := ⟨1⟩, path := ["id"] } ∧
        h.node (place ⟨7⟩) = .identifier { range := place ⟨3⟩, path := ["total"] } ∧
        h.node (place ⟨8⟩) = .identifier { range := ⟨2⟩, path := ["amount"] } ∧
        h.node (place ⟨9⟩) = .binary .gt (place ⟨7⟩) (place ⟨8⟩) := by
  let parts : List NodeId := [⟨10⟩, ⟨3⟩, ⟨6⟩, ⟨4⟩, ⟨5⟩, ⟨9⟩, ⟨7⟩, ⟨8⟩]
  have tree : ordersAboveLimit.Tree ⟨10⟩ :=
    .of_closed parts (by decide) (by decide) (by decide) (by decide) (by decide)
  have inside {id : NodeId} (within : ordersAboveLimit.Within ⟨10⟩ id) : id ∈ parts :=
    within.mem_of_closed (by decide) (by decide)
  have whole : ordersAboveLimit.Whole ⟨10⟩ := fun id within =>
    (by decide : ∀ id ∈ parts, ordersAboveLimit.Has id) id (inside within)
  have plain : ∀ owner ∈ parts, (ordersAboveLimit.node owner).templateBodies = [] := by decide
  have order : ordersAboveLimit.Below ⟨10⟩ ⟨3⟩ := below_of_child (by decide)
  have condition : ordersAboveLimit.Below ⟨10⟩ ⟨9⟩ := below_of_child (by decide)
  have join : ordersAboveLimit.Below ⟨10⟩ ⟨6⟩ := order.child (by decide)
  refine ⟨tree, whole, fun h copy copied => ?_⟩
  obtain ⟨kept, linked, -, place, target, iso⟩ :=
    tree.copyWith_isomorphic whole (.ofList [(⟨0⟩, ⟨1⟩), (⟨3⟩, ⟨1⟩)])
  rw [copied] at kept linked iso
  have own : target ⟨3⟩ = place ⟨3⟩ := iso.own ⟨3⟩ order fun owner body within mem => by
    rw [plain owner (inside within)] at mem
    cases mem
  have customer : target ⟨0⟩ = ⟨1⟩ :=
    (iso.outside ⟨0⟩ fun within => absurd (inside within) (by decide)).trans (by decide)
  have limit : target ⟨2⟩ = ⟨2⟩ :=
    (iso.outside ⟨2⟩ fun within => absurd (inside within) (by decide)).trans (by decide)
  have fresh := (iso.inside ⟨3⟩ order.within).1
  obtain ⟨_, -, first⟩ := iso.node ⟨5⟩ (join.child (by decide))
  obtain ⟨_, -, second⟩ := iso.node ⟨7⟩ (condition.child (by decide))
  obtain ⟨_, -, third⟩ := iso.node ⟨8⟩ (condition.child (by decide))
  obtain ⟨_, -, fourth⟩ := iso.node ⟨9⟩ condition
  refine ⟨kept, linked, place, iso.top, own ▸ fresh, first.trans ?_, second.trans ?_,
    third.trans ?_, fourth⟩
  · exact congrArg (fun range => Node.identifier { range, path := ["id"] }) customer
  · exact congrArg (fun range => Node.identifier { range, path := ["total"] }) own
  · exact congrArg (fun range => Node.identifier { range, path := ["amount"] }) limit

end Graph

end RangeQuery
