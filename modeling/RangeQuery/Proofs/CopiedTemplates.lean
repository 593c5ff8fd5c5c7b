import RangeQuery.Proofs.Graph.Founded

/-!
The templates of a copied scope. They are copied as well, node by node, but the identifiers in them
are not among those that are pointed at copied ranges: a template of the copy reads the ranges that
the template itself reads, also where these were copied.
-/

namespace RangeQuery

namespace Graph

variable {g h : Graph} {root : NodeId}

/-- All within a node has a counterpart within another one, and each counterpart is the same as the old
node, over as many children and templates. -/
structure Repeats (g h : Graph) (old new : NodeId) : Prop where
  image : ∀ id, g.Within old id → ∃ id', Counterpart g h old new id id'
  refilled : ∀ id id', Counterpart g h old new id id' → Refilled g h id id'

/-- Where counterparts hold as much as the old nodes do, everything has a counterpart. -/
theorem repeats_of_refilled {old new : NodeId}
    (refilled : ∀ id id', Counterpart g h old new id id' → Refilled g h id id') :
    Repeats g h old new := by
  refine ⟨fun id within => ?_, refilled⟩
  induction within with
  | here => exact ⟨new, .top⟩
  | @down owner child _ mem ih =>
    obtain ⟨owner', part⟩ := ih
    obtain ⟨length, length', -⟩ := refilled owner owner' part
    have same : (g.held owner).length = (h.held owner').length := by simp [held, length, length']
    obtain ⟨child', pair⟩ := exists_zip_partner same mem
    exact ⟨child', part.down pair⟩

/-- A copied scope has a copy of each template, made of new nodes, and every identifier in that copy
reads the same range as the identifier it was copied from. Where slots and templates lead in no circle,
the copy repeats the template node by node. -/
theorem Acyclic.templates_copyWith (a : g.Acyclic root) (whole : g.Whole root) (names : Renaming) :
    let h := (g.copyWith root names).1
    let copy := (g.copyWith root names).2
    ∀ owner owner', SamePlace g h root copy owner owner' →
      (h.node owner').templateBodies.length = (g.node owner).templateBodies.length ∧
      ∀ body body', (body, body') ∈
          (g.node owner).templateBodies.zip (h.node owner').templateBodies →
        (∀ new, h.Within body' new → ¬ g.Has new) ∧
          (∀ new i, h.Within body' new → h.node new = .identifier i →
            ∃ old, Counterpart g h body body' old new ∧ g.node old = .identifier i) ∧
          (g.Founded root → Repeats g h body body') := by
  classical
  intro h copy owner owner' place
  have mirrors := mirrors_copyWith a names
  have grove := g.grove_copyWith root names
  have clear := grove.clear _ (List.mem_singleton_self _)
  have part := place.counterpart
  have written := g.node_copyWith root names owner'
  rw [if_pos place.reached.2] at written
  obtain ⟨bodies, length, node⟩ :=
    (whole.refills_copyWith part).node_eq (place.mirrors mirrors) written
  have templates : (h.node owner').templateBodies = bodies := by
    refine (congrArg Node.templateBodies node).trans (Node.templateBodies_filled _ _ ?_)
    rw [length]
    cases g.node owner <;> rfl
  refine ⟨templates ▸ length, fun body body' pair => ?_⟩
  obtain ⟨-, mem'⟩ := List.of_mem_zip pair
  have held : (body, body') ∈ (g.held owner).zip (h.held owner') := by
    rw [Graph.held, Graph.held, List.zip_append (place.mirrors mirrors).each.length_eq]
    exact List.mem_append_right _ pair
  have copied := part.down held
  -- No part of a template is below the copy, so rebinding does not come to the identifiers in it.
  have kept {new : NodeId} (within : h.Within body' new) :
      h.node new = (copyLevels g.size g names root).1.node new := by
    have apart := clear.apart part.within.2 mem' within
    exact (g.node_copyWith root names new).trans (if_neg apart)
  refine ⟨fun new within =>
    grove.new _ (List.mem_singleton_self _) (copied.within.2.trans within), ?_, fun founded => ?_⟩
  · intro new i within identifier
    obtain ⟨old, part'⟩ := exists_counterpart
      (fun further => whole.refills_copyWith (copied.trans (counterpart_rebind.mpr further)))
      (within_rebind.mp within)
    have lower : Counterpart g h body body' old new := counterpart_rebind.mpr part'
    exact ⟨old, lower, (whole.refills_copyWith (copied.trans lower)).identifier
      ((kept within).symm.trans identifier)⟩
  · exact repeats_of_refilled fun old new lower =>
      (founded.refilled_copyWith (copied.trans lower)).congr rfl (kept lower.within.2)

/-- Orders, with a template that reads whether an order is big. -/
def ordersWithTemplate : Graph := ⟨#[
  ⟨.range { name := "o", entity := some "Order", join := none, required := false
            included := true, nested := none }, some ⟨5⟩⟩,
  ⟨.identifier { range := ⟨0⟩, path := ["total"] }, some ⟨3⟩⟩,
  ⟨.number "100", some ⟨3⟩⟩,
  ⟨.binary .gt ⟨1⟩ ⟨2⟩, none⟩,
  ⟨.identifier { range := ⟨0⟩, path := ["id"] }, some ⟨5⟩⟩,
  ⟨.retrieve { Retrieve.empty with
    ranges := [⟨0⟩], values := [⟨4⟩], templates := ⟨[("big", ⟨3⟩)]⟩ }, none⟩]⟩

/-- The value of the copy reads the copied orders, the template of the copy the old ones. -/
theorem Acyclic.templates_copyWith_ordersWithTemplate :
    ordersWithTemplate.Acyclic ⟨5⟩ ∧ ordersWithTemplate.Whole ⟨5⟩ ∧ ordersWithTemplate.Founded ⟨5⟩ ∧
    ∀ h copy, ordersWithTemplate.copyWith ⟨5⟩ .empty = (h, copy) →
      (∃ range, (h.node copy).children = [range, ⟨7⟩] ∧ ¬ ordersWithTemplate.Has range ∧
        h.node ⟨7⟩ = .identifier { range, path := ["id"] }) ∧
      ∃ body total limit, (h.node copy).templateBodies = [body] ∧ ¬ ordersWithTemplate.Has body ∧
        h.node body = .binary .gt total limit ∧
        h.node total = .identifier { range := ⟨0⟩, path := ["total"] } ∧
        h.node limit = .number "100" ∧
        ∀ new i, h.Within body new → h.node new = .identifier i → i.range = ⟨0⟩ := by
  have founded : ordersWithTemplate.Founded ⟨5⟩ := founded_of_ordered (by decide) (by decide)
  refine ⟨founded.acyclic, founded.whole, founded, fun h copy copied => ⟨⟨⟨6⟩, ?_⟩, ?_⟩⟩
  · obtain ⟨rfl, rfl⟩ := Prod.mk.inj copied.symm
    decide +kernel
  · obtain ⟨length, each⟩ := founded.acyclic.templates_copyWith founded.whole .empty ⟨5⟩ _ .top
    rw [copied] at length each
    obtain ⟨body, bodies⟩ := List.length_eq_one_iff.mp length
    rw [bodies] at each
    obtain ⟨fresh, reads, repeats⟩ := each ⟨3⟩ body (.head _)
    have made := (repeats founded).refilled
    obtain ⟨two, -, top⟩ := made ⟨3⟩ body .top
    obtain ⟨total, limit, kids⟩ := List.length_eq_two.mp two
    rw [kids] at top
    have parts {old new : NodeId} (pair : (old, new) ∈ [((⟨1⟩ : NodeId), total), (⟨2⟩, limit)]) :
        Counterpart ordersWithTemplate h ⟨3⟩ body old new := by
      refine Counterpart.top.down (mem_zip_append ?_)
      rw [kids]
      exact pair
    obtain ⟨-, -, left⟩ := made ⟨1⟩ total (parts (.head _))
    obtain ⟨-, -, right⟩ := made ⟨2⟩ limit (parts (.tail _ (.head _)))
    refine ⟨body, total, limit, bodies, fresh body .here, top, left, right, fun new i within node => ?_⟩
    obtain ⟨old, part, was⟩ := reads new i within node
    have among : old ∈ ([⟨3⟩, ⟨1⟩, ⟨2⟩] : List NodeId) :=
      part.within.1.mem_of_closed (by decide) (by decide)
    have same : ∀ id ∈ ([⟨3⟩, ⟨1⟩, ⟨2⟩] : List NodeId), ∀ i,
        ordersWithTemplate.identifier? id = some i → i.range = ⟨0⟩ := by decide
    exact same old among i (by rw [identifier?, was])

end Graph

end RangeQuery
