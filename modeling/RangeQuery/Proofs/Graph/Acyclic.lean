import Mathlib.Data.List.Perm.Subperm
import RangeQuery.Proofs.Graph.Linked

/-!
Graphs without circles. Below an acyclic node no trail is longer than the graph, whoever shares or
owns the nodes on it; a well-linked node is acyclic.
-/

namespace RangeQuery

namespace Graph

variable {g : Graph} {root : NodeId}

/-- Of different nodes there are no more than the graph has slots. -/
theorem length_le_of_nodup {ids : List NodeId} (distinct : ids.Nodup) (has : ∀ id ∈ ids, g.Has id) :
    ids.length ≤ g.size := by
  have distinct : (ids.map NodeId.index).Nodup := distinct.map fun _ _ => NodeId.ext_index
  have inside : ids.map NodeId.index ⊆ List.range g.size := by
    intro index mem
    obtain ⟨member, on, rfl⟩ := List.mem_map.mp mem
    exact List.mem_range.mpr (has member on)
  have short := (List.Nodup.subperm distinct inside).length_le
  rwa [List.length_map, List.length_range] at short

/-- Everything reached from a node has a slot. -/
def Grounded (g : Graph) (root : NodeId) : Prop := ∀ id, g.Below root id → g.Has id

theorem Grounded.below {id : NodeId} (grounded : g.Grounded root) (below : g.Below root id) :
    g.Grounded id := fun _ further => grounded _ (below.trans further)

theorem Linked.grounded {root id : NodeId} (l : g.Linked root) (below : g.Below root id) :
    g.Grounded id := fun _ further => l.has_of_below (below.trans further)

/-- Everything reached from a node has a slot, and no way leads back. Nodes may be shared, and
nothing is asked of the recorded owners. -/
structure Acyclic (g : Graph) (root : NodeId) : Prop where
  grounded : g.Grounded root
  no_return : ∀ {owner child : NodeId}, g.Below root owner → child ∈ g.children owner →
    ¬ g.Below child owner

namespace Acyclic

theorem below {id : NodeId} (a : g.Acyclic root) (below : g.Below root id) : g.Acyclic id where
  grounded := a.grounded.below below
  no_return above slot := a.no_return (below.trans above) slot

theorem child {child : NodeId} (a : g.Acyclic root) (slot : child ∈ g.children root) :
    g.Acyclic child := a.below (below_of_child slot)

theorem has (a : g.Acyclic root) : g.Has root := a.grounded root (Below.refl g root)

/-- Two nodes below each other are one. -/
theorem below_antisymm {id : NodeId} (a : g.Acyclic root) (down : g.Below root id)
    (up : g.Below id root) : id = root := by
  rcases down.eq_or_child with same | ⟨child, slot, further⟩
  · exact same
  · exact absurd (further.trans up) (a.no_return (Below.refl g root) slot)

/-- No trail comes through a node twice. -/
theorem nodup_trail (a : g.Acyclic root) {id : NodeId} {trail : List NodeId}
    (way : g.Trail root trail id) : (id :: trail).Nodup := by
  induction way with
  | here => simp
  | down way slot ih =>
    refine List.nodup_cons.mpr ⟨fun again => ?_, ih⟩
    rcases List.mem_cons.mp again with same | further
    · exact a.no_return ⟨_, way⟩ slot (same ▸ Below.refl g _)
    · exact a.no_return ⟨_, way⟩ slot (way.below_of_mem further).2

/-- No trail is longer than the graph. -/
theorem length_trail_lt (a : g.Acyclic root) {id : NodeId} {trail : List NodeId}
    (way : g.Trail root trail id) : trail.length < g.size := by
  refine length_le_of_nodup (a.nodup_trail way) fun member on => a.grounded member ?_
  rcases List.mem_cons.mp on with rfl | above
  · exact ⟨_, way⟩
  · exact (way.below_of_mem above).1

/-- What holds of a node as soon as it holds of its children holds of an acyclic root. -/
@[elab_as_elim]
theorem induction {motive : NodeId → Prop} (a : g.Acyclic root)
    (step : ∀ id, g.Below root id → (∀ child ∈ g.children id, motive child) → motive id) :
    motive root := by
  -- On the number of nodes that a trail may still go through.
  have along : ∀ (left : Nat) {id : NodeId} {trail : List NodeId}, g.Trail root trail id →
      g.size ≤ trail.length + left → motive id := by
    intro left
    induction left with
    | zero =>
      intro id trail way full
      have short := a.length_trail_lt way
      omega
    | succ left ih =>
      intro id trail way full
      refine step id ⟨_, way⟩ fun child slot => ih (way.down slot) ?_
      rw [List.length_cons]
      omega
  exact along g.size .here (by simp)

/-- What is reached is the same in a graph that shows the same children there. -/
theorem congr {h : Graph} (a : g.Acyclic root)
    (children : ∀ id, g.Below root id → h.children id = g.children id)
    (has : ∀ id, g.Below root id → h.Has id) : h.Acyclic root := by
  have back : ∀ {start id}, g.Below root start → h.Below start id → g.Below start id :=
    fun above => (below_iff_of_children fun id below => children id (above.trans below)).mp
  refine ⟨fun id below => has id (back (.refl g root) below), fun {owner child} below slot => ?_⟩
  intro again
  have above := back (.refl g root) below
  rw [children owner above] at slot
  exact a.no_return above slot (back (above.child slot) again)

end Acyclic

/-- Where every slot holds handles of slots only, everything reached from a slot has one. -/
theorem grounded_of_closed (has : g.Has root)
    (closed : ∀ index < g.size, ∀ child ∈ g.children ⟨index⟩, g.Has child) : g.Grounded root :=
  fun _ below => below.induction has fun owner child _ ih slot => closed owner.index ih child slot

/-- Where every node comes after its children, there are no circles. -/
theorem acyclic_of_lt (has : g.Has root)
    (ordered : ∀ owner child, child ∈ g.children owner → child.index < owner.index) :
    g.Acyclic root := by
  have lower : ∀ {start id : NodeId}, g.Below start id → id.index ≤ start.index := by
    intro start id below
    refine below.induction (Nat.le_refl _) fun owner child _ ih slot => ?_
    exact Nat.le_of_lt (Nat.lt_of_lt_of_le (ordered owner child slot) ih)
  refine ⟨fun id below => Nat.lt_of_le_of_lt (lower below) has, ?_⟩
  intro owner child _ slot again
  exact Nat.not_lt_of_le (lower again) (ordered owner child slot)

/-- A graph that lists the children of each slot before it has no circles. -/
theorem acyclic_of_ordered (has : g.Has root)
    (ordered : ∀ index < g.size, ∀ child ∈ g.children ⟨index⟩, child.index < index) :
    g.Acyclic root := by
  refine acyclic_of_lt has fun owner child slot => ordered owner.index ?_ child slot
  by_contra absent
  have none : g.slots[owner.index]? = .none := Array.getElem?_eq_none (Nat.le_of_not_lt absent)
  simp [children, node, none, Node.children] at slot

theorem Tree.acyclic (t : g.Tree root) : g.Acyclic root :=
  ⟨fun _ below => t.has below, fun above slot => t.not_below_of_child above slot⟩

theorem Linked.acyclic (l : g.Linked root) {id : NodeId} (below : g.Below root id) :
    g.Acyclic id := l.tree.acyclic.below below

/-- No trail below a well-linked node is longer than the graph. -/
theorem Linked.length_trail_lt (l : g.Linked root) {id : NodeId} {trail : List NodeId}
    (h : g.Trail root trail id) : trail.length < g.size :=
  (l.acyclic (.refl g root)).length_trail_lt h

end Graph

end RangeQuery
