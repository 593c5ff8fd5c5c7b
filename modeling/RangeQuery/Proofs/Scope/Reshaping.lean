import RangeQuery.Proofs.Graph.Conjoining
import RangeQuery.Proofs.Graph.Copying
import RangeQuery.Proofs.Scope.Nesting
import RangeQuery.Scope.AnyTest

/-!
What a pass may do to a zone. It keeps the old nodes in the scopes where they are; what it adds,
while no part of the query is copied, holds predicates together and reads nothing.
-/

namespace RangeQuery

/-- A node that only holds others together. -/
def Node.isGlue : Node → Bool
  | .binary .and _ _ | .null | .caseWhen _ => true
  | _ => false

theorem Node.isGlue_stamp (node : Node) : node.stamp.isGlue = node.isGlue := by
  cases node with
  | binary op _ _ => cases op <;> rfl
  | _ => rfl

theorem Node.isGlue_of_isAnd {node : Node} (h : node.isAnd = true) : node.isGlue = true := by
  cases node with
  | binary op _ _ => cases op <;> simp_all [isAnd, isGlue]
  | _ => simp [isAnd] at h

namespace Graph

variable {g h k : Graph} {roots zone zone' zone'' : Set NodeId}
  {level level' level'' : NodeId → List NodeId}

/-- A zone after a change: its old nodes were in it, on the same level. -/
structure Reshaped (g h : Graph) (roots zone : Set NodeId) (level : NodeId → List NodeId)
    (zone' : Set NodeId) (level' : NodeId → List NodeId) : Prop where
  inOrder : h.Zone roots ∅ zone' level'
  old : ∀ {id}, id ∈ zone' → g.Has id → id ∈ zone ∧ level' id = level id

/-- The new nodes of a zone hold others together. -/
def Glued (g h : Graph) (zone : Set NodeId) : Prop :=
  ∀ {id}, id ∈ zone → ¬ g.Has id → (h.node id).isGlue = true

/-- A change reshapes a zone and adds only what holds others together. -/
def Rearranges (g h : Graph) (roots zone : Set NodeId) (level : NodeId → List NodeId) : Prop :=
  ∃ zone' level', Reshaped g h roots zone level zone' level' ∧ Glued g h zone'

/-- A rearrangement that takes nothing out of the zone. -/
def Enlarges (g h : Graph) (roots zone : Set NodeId) (level : NodeId → List NodeId) : Prop :=
  ∃ zone' level', Reshaped g h roots zone level zone' level' ∧ Glued g h zone' ∧ zone ⊆ zone'

theorem Reshaped.refl (z : g.Zone roots ∅ zone level) : Reshaped g g roots zone level zone level :=
  ⟨z, fun mem _ => ⟨mem, rfl⟩⟩

theorem Reshaped.trans (a : Reshaped g h roots zone level zone' level')
    (b : Reshaped h k roots zone' level' zone'' level'') (size : g.size ≤ h.size) :
    Reshaped g k roots zone level zone'' level'' where
  inOrder := b.inOrder
  old mem had := by
    obtain ⟨within, on⟩ := b.old mem (Nat.lt_of_lt_of_le had size)
    obtain ⟨within', on'⟩ := a.old within had
    exact ⟨within', on.trans on'⟩

theorem Glued.trans (a : Glued g h zone') (b : Reshaped h k roots zone' level' zone'' level'')
    (c : Glued h k zone'') (same : Same Node.stamp h k) : Glued g k zone'' := by
  intro id mem new
  by_cases has : h.Has id
  · rw [← Node.isGlue_stamp, same.node has, Node.isGlue_stamp]
    exact a (b.old mem has).1 new
  · exact c mem has

theorem Enlarges.rearranges (e : Enlarges g h roots zone level) :
    Rearranges g h roots zone level := by
  obtain ⟨zone', level', reshaped, glued, -⟩ := e
  exact ⟨zone', level', reshaped, glued⟩

theorem Enlarges.refl (z : g.Zone roots ∅ zone level) : Enlarges g g roots zone level :=
  ⟨zone, level, .refl z, fun mem new => absurd (z.has mem) new, subset_rfl⟩

theorem Rearranges.refl (z : g.Zone roots ∅ zone level) : Rearranges g g roots zone level :=
  (Enlarges.refl z).rearranges

/-- One enlargement after the other. -/
theorem Enlarges.trans (a : Enlarges g h roots zone level) (size : g.size ≤ h.size)
    (same : Same Node.stamp h k)
    (b : ∀ {zone' level'}, h.Zone roots ∅ zone' level' → zone ⊆ zone' →
      Enlarges h k roots zone' level') : Enlarges g k roots zone level := by
  obtain ⟨zone', level', reshaped, glued, larger⟩ := a
  obtain ⟨zone'', level'', reshaped', glued', larger'⟩ := b reshaped.inOrder larger
  exact ⟨zone'', level'', reshaped.trans reshaped' size, glued.trans reshaped' glued' same,
    larger.trans larger'⟩

/-- What only changes labels in a zone enlarges it by nothing. -/
theorem Zone.enlarges (z : g.Zone roots ∅ zone level) (z' : h.Zone roots ∅ zone level) :
    Enlarges g h roots zone level :=
  ⟨zone, level, ⟨z', fun mem _ => ⟨mem, rfl⟩⟩, fun mem new => absurd (z.has mem) new, subset_rfl⟩

theorem Same.changeEach {α : Type} {view : Node → α} {change : Graph → NodeId → Graph × Bool}
    (same : ∀ g id, Same view g (change g id).1) (g : Graph) (ids : List NodeId) :
    Same view g (changeEach change g ids).1 := by
  induction ids generalizing g with
  | nil => exact .refl view g
  | cons id rest ih => exact (same g id).trans (ih (change g id).1)

theorem Keeps.changeEach {change : Graph → NodeId → Graph × Bool}
    (keeps : ∀ g id, Keeps g (change g id).1) (g : Graph) (ids : List NodeId) :
    Keeps g (Graph.changeEach change g ids).1 := by
  induction ids generalizing g with
  | nil => exact .refl g
  | cons id rest ih => exact (keeps g id).trans (ih (change g id).1)

/-- The nodes of a list are changed one after the other; each change enlarges a zone with the node
in it. -/
theorem Zone.changeEach {change : Graph → NodeId → Graph × Bool}
    (same : ∀ g id, Same Node.stamp g (change g id).1)
    (each : ∀ {g : Graph} {zone level id}, g.Zone roots ∅ zone level → id ∈ zone →
      Enlarges g (change g id).1 roots zone level) {ids : List NodeId}
    (z : g.Zone roots ∅ zone level) (mem : ∀ id ∈ ids, id ∈ zone) :
    Enlarges g (changeEach change g ids).1 roots zone level := by
  induction ids generalizing g zone level with
  | nil => exact .refl z
  | cons id rest ih =>
    refine (each z (mem id (by simp))).trans (same g id).size ?_ fun z' larger =>
      ih z' fun other later => larger (mem other (by simp [later]))
    exact Same.changeEach same _ rest

/-- The levels of a zone, with one for all nodes to come. -/
noncomputable def levelWith (g : Graph) (level : NodeId → List NodeId) (scopes : List NodeId) :
    NodeId → List NodeId :=
  g.levelBeside level fun _ => scopes

theorem levelWith_of_has {id : NodeId} (has : g.Has id) (scopes : List NodeId) :
    g.levelWith level scopes id = level id := levelBeside_of_has has

theorem levelWith_of_not_has {id : NodeId} (new : ¬ g.Has id) (scopes : List NodeId) :
    g.levelWith level scopes id = scopes := levelBeside_of_not_has new

theorem Zone.levelWith {loose : Set (NodeId × NodeId)} (z : g.Zone roots loose zone level)
    (scopes : List NodeId) : g.Zone roots loose zone (g.levelWith level scopes) :=
  z.relevel fun _ mem => levelWith_of_has (z.has mem) scopes

theorem Zone.readyWith {loose : Set (NodeId × NodeId)} (z : g.Zone roots loose zone level)
    (scopes : List NodeId) {around : List NodeId} {id : NodeId}
    (ready : g.Ready roots loose zone level around id) :
    g.Ready roots loose zone (g.levelWith level scopes) around id :=
  ⟨ready.mem, ready.free, ready.nonroot, by
    rw [levelWith_of_has (z.has ready.mem), ready.level]⟩

/-- A part of a zone grows by AND nodes, and a change that keeps the kinds of the nodes puts the
rest in order. -/
theorem Zone.reshapedByGrowth (z : g.Zone roots ∅ zone level) {part : Set NodeId}
    {scopes : List NodeId} (less : part ⊆ zone)
    (glue : ∀ {id}, ¬ g.Has id → h.Has id → (h.node id).isAnd = true) (stamp : Same Node.stamp h k)
    (final : k.Zone roots ∅ (g.grown h part) (g.levelWith level scopes)) :
    Reshaped g k roots zone level (g.grown h part) (g.levelWith level scopes) ∧
      Glued g k (g.grown h part) := by
  refine ⟨⟨final, ?_⟩, ?_⟩
  · rintro id (within | new) had
    · exact ⟨less within, levelWith_of_has had _⟩
    · exact absurd had new.1
  · rintro id (within | new) fresh
    · exact absurd (z.has (less within)) fresh
    · rw [← Node.isGlue_stamp, stamp.node new.2, Node.isGlue_stamp]
      exact Node.isGlue_of_isAnd (glue new.1 new.2)

end Graph

end RangeQuery
