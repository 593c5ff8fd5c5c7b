import Mathlib.Data.List.Nodup
import RangeQuery.Proofs.Graph.Setters

/-!
Well-linked graphs. A trail leads from a node down through slots; below a linked node every node
is reached on one trail only and records the node above it as its owner.
-/

namespace RangeQuery

namespace Graph

/-- The way from a root down to a node, as the nodes above it, the nearest first. -/
inductive Trail (g : Graph) (root : NodeId) : List NodeId → NodeId → Prop
  | here : Trail g root [] root
  | down {trail : List NodeId} {owner child : NodeId} :
      Trail g root trail owner → child ∈ g.children owner → Trail g root (owner :: trail) child

/-- A node is reached from a root, or is the root. -/
def Below (g : Graph) (root id : NodeId) : Prop := ∃ trail, g.Trail root trail id

/-- A node without an owner from which every node is reached through exactly one slot, and
records the node it is reached from. Being reached means a finite trail. -/
structure Linked (g : Graph) (root : NodeId) : Prop where
  has : g.Has root
  parent_root : g.parent root = none
  parent_child : ∀ {owner child : NodeId}, g.Below root owner → child ∈ g.children owner →
    g.parent child = some owner
  nodup : ∀ {owner : NodeId}, g.Below root owner → (g.children owner).Nodup

variable {g : Graph} {root : NodeId}

/-! ## Trails -/

theorem Below.refl (g : Graph) (root : NodeId) : g.Below root root := ⟨[], .here⟩

theorem Below.child {owner child : NodeId} (h : g.Below root owner)
    (mem : child ∈ g.children owner) : g.Below root child := by
  obtain ⟨trail, way⟩ := h
  exact ⟨owner :: trail, way.down mem⟩

@[elab_as_elim]
theorem Below.induction {motive : NodeId → Prop} {id : NodeId} (h : g.Below root id)
    (here : motive root)
    (down : ∀ owner child, g.Below root owner → motive owner → child ∈ g.children owner →
      motive child) : motive id := by
  obtain ⟨trail, way⟩ := h
  induction way with
  | here => exact here
  | down way mem ih => exact down _ _ ⟨_, way⟩ ih mem

theorem Below.mem_of_closed {ids : List NodeId} {id : NodeId} (h : g.Below root id)
    (mem : root ∈ ids) (closed : ∀ owner ∈ ids, ∀ child ∈ g.children owner, child ∈ ids) :
    id ∈ ids :=
  h.induction mem fun owner child _ ih slot => closed owner ih child slot

theorem Trail.append {middle id : NodeId} {upper lower : List NodeId}
    (first : g.Trail root upper middle) (second : g.Trail middle lower id) :
    g.Trail root (lower ++ upper) id := by
  induction second with
  | here => exact first
  | down _ mem ih => exact ih.down mem

theorem Below.trans {middle id : NodeId} (first : g.Below root middle)
    (second : g.Below middle id) : g.Below root id := by
  obtain ⟨_, upper⟩ := first
  obtain ⟨_, lower⟩ := second
  exact ⟨_, upper.append lower⟩

theorem below_of_child {owner id : NodeId} (h : id ∈ g.children owner) : g.Below owner id :=
  (Below.refl g owner).child h

/-- A node on a trail cuts it into a trail down to the node and one from there. -/
theorem Trail.cut {id middle : NodeId} {trail : List NodeId} (way : g.Trail root trail id)
    (mem : middle ∈ trail) :
    ∃ lower upper, trail = lower ++ upper ∧ g.Trail root upper middle ∧
      g.Trail middle lower id ∧ lower ≠ [] := by
  induction way with
  | here => simp at mem
  | @down rest owner child way slot ih =>
    rcases List.mem_cons.mp mem with same | further
    · subst same
      exact ⟨[middle], rest, rfl, way, Trail.here.down slot, by simp⟩
    · obtain ⟨lower, upper, split, above, below, _⟩ := ih further
      refine ⟨owner :: lower, upper, ?_, above, below.down slot, by simp⟩
      rw [split, List.cons_append]

theorem Trail.below_of_mem {id middle : NodeId} {trail : List NodeId}
    (way : g.Trail root trail id) (mem : middle ∈ trail) :
    g.Below root middle ∧ g.Below middle id := by
  obtain ⟨_, _, _, above, below, _⟩ := way.cut mem
  exact ⟨⟨_, above⟩, ⟨_, below⟩⟩

/-- The first step of a trail that is not empty. -/
theorem Below.eq_or_child {id : NodeId} (h : g.Below root id) :
    id = root ∨ ∃ child ∈ g.children root, g.Below child id := by
  refine Below.induction h (.inl rfl) ?_
  intro owner child _ ih mem
  rcases ih with rfl | ⟨top, slot, below⟩
  · exact .inr ⟨child, mem, Below.refl g child⟩
  · exact .inr ⟨top, slot, below.child mem⟩

/-- The last step of a trail that is not empty. -/
theorem Below.eq_or_owner {id : NodeId} (h : g.Below root id) :
    id = root ∨ ∃ owner, g.Below root owner ∧ id ∈ g.children owner := by
  obtain ⟨trail, way⟩ := h
  cases way with
  | here => exact .inl rfl
  | down way mem => exact .inr ⟨_, ⟨_, way⟩, mem⟩

theorem Trail.along {h : Graph} {id : NodeId} {trail : List NodeId} (way : g.Trail root trail id)
    (children : ∀ owner ∈ trail, h.children owner = g.children owner) : h.Trail root trail id := by
  induction way with
  | here => exact .here
  | @down trail owner child _ slot ih =>
    refine (ih fun owner on => children owner (by simp [on])).down ?_
    rwa [children owner (by simp)]

theorem Trail.congr {h : Graph} {id : NodeId} {trail : List NodeId}
    (way : g.Trail root trail id) (children : ∀ owner, h.children owner = g.children owner) :
    h.Trail root trail id := way.along fun owner _ => children owner

theorem trail_congr {h : Graph} (children : ∀ owner, h.children owner = g.children owner)
    {id : NodeId} {trail : List NodeId} : h.Trail root trail id ↔ g.Trail root trail id :=
  ⟨fun way => way.congr fun owner => (children owner).symm, fun way => way.congr children⟩

theorem below_congr {h : Graph} (children : ∀ owner, h.children owner = g.children owner)
    {id : NodeId} : h.Below root id ↔ g.Below root id :=
  exists_congr fun _ => trail_congr children

/-- The same is reached where the reached nodes have the same children. -/
theorem below_iff_of_children {h : Graph}
    (children : ∀ id, g.Below root id → h.children id = g.children id) {id : NodeId} :
    h.Below root id ↔ g.Below root id := by
  constructor
  · intro below
    refine below.induction (.refl g root) fun owner child _ ih slot => ?_
    rw [children owner ih] at slot
    exact ih.child slot
  · intro below
    refine below.induction (.refl h root) fun owner child above ih slot => ih.child ?_
    rwa [children owner above]

/-! ## Trees -/

/-- Everything reached from a root has a slot and is reached on one trail: nothing down there owns
the root, and no node has two owners or stands in two slots. Nothing is asked of the recorded
owners. -/
structure Tree (g : Graph) (root : NodeId) : Prop where
  has : ∀ {id : NodeId}, g.Below root id → g.Has id
  child_ne_root : ∀ {owner child : NodeId}, g.Below root owner → child ∈ g.children owner →
    child ≠ root
  owner_unique : ∀ {a b child : NodeId}, g.Below root a → g.Below root b →
    child ∈ g.children a → child ∈ g.children b → a = b
  nodup : ∀ {owner : NodeId}, g.Below root owner → (g.children owner).Nodup

namespace Tree

/-- Every node is reached on one trail. -/
theorem trail_unique (t : g.Tree root) {id : NodeId} {one other : List NodeId}
    (h : g.Trail root one id) (h' : g.Trail root other id) : one = other := by
  induction h generalizing other with
  | here =>
    cases h' with
    | here => rfl
    | down way mem => exact absurd rfl (t.child_ne_root ⟨_, way⟩ mem)
  | down way mem ih =>
    cases h' with
    | here => exact absurd rfl (t.child_ne_root ⟨_, way⟩ mem)
    | down way' mem' =>
      have same := t.owner_unique ⟨_, way⟩ ⟨_, way'⟩ mem mem'
      subst same
      rw [ih way']

/-- No trail comes through a node twice. -/
theorem nodup_trail (t : g.Tree root) {id : NodeId} {trail : List NodeId}
    (h : g.Trail root trail id) : (id :: trail).Nodup := by
  induction h with
  | here => simp
  | down way mem ih =>
    refine List.nodup_cons.mpr ⟨fun again => ?_, ih⟩
    obtain ⟨lower, upper, split, above, _, nonempty⟩ := (way.down mem).cut again
    have same := t.trail_unique (way.down mem) above
    rw [split] at same
    have lengths := congrArg List.length same
    rw [List.length_append] at lengths
    exact nonempty (List.length_eq_zero_iff.mp (by omega))

/-- Nothing owned leads back to its owner. -/
theorem not_below_of_child (t : g.Tree root) {owner child : NodeId} (above : g.Below root owner)
    (slot : child ∈ g.children owner) : ¬ g.Below child owner := by
  rintro ⟨lower, back⟩
  obtain ⟨upper, way⟩ := above
  have once := t.nodup_trail ((way.down slot).append back)
  simp at once

/-- What is below a node of a tree is a tree. -/
theorem below (t : g.Tree root) {top : NodeId} (above : g.Below root top) : g.Tree top where
  has inside := t.has (above.trans inside)
  child_ne_root {owner child} inside slot is := by
    subst is
    exact t.not_below_of_child (above.trans inside) slot inside
  owner_unique inside inside' := t.owner_unique (above.trans inside) (above.trans inside')
  nodup inside := t.nodup (above.trans inside)

/-- A root is one of a tree if a list with it is closed under children and in order throughout. -/
theorem of_closed (ids : List NodeId) (mem : root ∈ ids) (has : ∀ id ∈ ids, g.Has id)
    (closed : ∀ owner ∈ ids, ∀ child ∈ g.children owner, child ∈ ids ∧ child ≠ root)
    (unique : ∀ a ∈ ids, ∀ b ∈ ids, ∀ child ∈ g.children a, child ∈ g.children b → a = b)
    (nodup : ∀ owner ∈ ids, (g.children owner).Nodup) : g.Tree root := by
  have inside : ∀ {id}, g.Below root id → id ∈ ids := fun below =>
    below.mem_of_closed mem fun owner mem child slot => (closed owner mem child slot).1
  exact ⟨fun below => has _ (inside below), fun above slot => (closed _ (inside above) _ slot).2,
    fun above above' => unique _ (inside above) _ (inside above') _, fun above =>
      nodup _ (inside above)⟩

end Tree

/-! ## Linked nodes -/

namespace Linked

theorem has_of_below (l : g.Linked root) {id : NodeId} (h : g.Below root id) : g.Has id := by
  rcases h.eq_or_owner with rfl | ⟨owner, above, mem⟩
  · exact l.has
  · exact has_of_parent (l.parent_child above mem)

theorem child_ne_root (l : g.Linked root) {owner child : NodeId} (h : g.Below root owner)
    (mem : child ∈ g.children owner) : child ≠ root := by
  rintro rfl
  have recorded := l.parent_child h mem
  rw [l.parent_root] at recorded
  cases recorded

theorem owner_unique (l : g.Linked root) {a b child : NodeId} (ha : g.Below root a)
    (hb : g.Below root b) (ma : child ∈ g.children a) (mb : child ∈ g.children b) : a = b := by
  have first := l.parent_child ha ma
  rw [l.parent_child hb mb] at first
  exact (Option.some.inj first).symm

/-- The recorded owners make a tree. -/
theorem tree (l : g.Linked root) : g.Tree root :=
  ⟨l.has_of_below, l.child_ne_root, l.owner_unique, l.nodup⟩

theorem trail_unique (l : g.Linked root) {id : NodeId} {one other : List NodeId}
    (h : g.Trail root one id) (h' : g.Trail root other id) : one = other :=
  l.tree.trail_unique h h'

theorem nodup_trail (l : g.Linked root) {id : NodeId} {trail : List NodeId}
    (h : g.Trail root trail id) : (id :: trail).Nodup := l.tree.nodup_trail h

theorem not_below_of_child (l : g.Linked root) {owner child : NodeId} (above : g.Below root owner)
    (slot : child ∈ g.children owner) : ¬ g.Below child owner :=
  l.tree.not_below_of_child above slot

/-- What is reached from two linked nodes makes them one. -/
theorem eq_of_below {a b id : NodeId} (la : g.Linked a) (lb : g.Linked b)
    (ha : g.Below a id) (hb : g.Below b id) : a = b := by
  refine Below.induction ha (motive := fun id => g.Below b id → a = b) ?_ ?_ hb
  · intro hb
    rcases hb.eq_or_owner with same | ⟨owner, above, mem⟩
    · exact same
    · have recorded := lb.parent_child above mem
      rw [la.parent_root] at recorded
      cases recorded
  · intro owner child above ih mem hb
    have recorded := la.parent_child above mem
    rcases hb.eq_or_owner with same | ⟨owner', above', mem'⟩
    · rw [same, lb.parent_root] at recorded
      cases recorded
    · rw [lb.parent_child above' mem'] at recorded
      exact ih (Option.some.inj recorded ▸ above')

/-- A root is well linked if a list with it is closed under children and in order throughout. -/
theorem of_closed (ids : List NodeId) (mem : root ∈ ids) (has : g.Has root)
    (parent_root : g.parent root = none)
    (closed : ∀ owner ∈ ids, ∀ child ∈ g.children owner,
      child ∈ ids ∧ g.parent child = some owner)
    (nodup : ∀ owner ∈ ids, (g.children owner).Nodup) : g.Linked root := by
  have inside : ∀ {id}, g.Below root id → id ∈ ids := fun below =>
    below.mem_of_closed mem fun owner mem child slot => (closed owner mem child slot).1
  exact ⟨has, parent_root, fun above slot => (closed _ (inside above) _ slot).2,
    fun above => nodup _ (inside above)⟩

/-- What only changes labels leaves a node well linked. -/
theorem congr (l : g.Linked root) {h : Graph} (size : g.size ≤ h.size)
    (children : ∀ owner, h.children owner = g.children owner)
    (parent : ∀ id, h.parent id = g.parent id) : h.Linked root where
  has := Nat.lt_of_lt_of_le l.has size
  parent_root := (parent root).trans l.parent_root
  parent_child below slot := by
    rw [children] at slot
    rw [parent, l.parent_child ((below_congr children).mp below) slot]
  nodup below := by
    rw [children]
    exact l.nodup ((below_congr children).mp below)

end Linked

end Graph

end RangeQuery
