import RangeQuery.Proofs.Scope.RequiredRanges

/-!
What the answer of a change tells about the nodes from a root. A change that answers "no" has at
most worked beside the old nodes; one that answers "yes" has left a mark on one of those from the
root, and the marks are such that later steps of the same change do not take them back.
-/

namespace RangeQuery

namespace Graph

variable {g h k : Graph} {root scope id : NodeId}

/-- The nodes from a root and their recorded owners are as they were. -/
def Intact (root : NodeId) (g h : Graph) : Prop :=
  ∀ id, g.Below root id → h.node id = g.node id ∧ h.parent id = g.parent id

/-- A node from a root is another one than before. -/
def Altered (root : NodeId) (g h : Graph) : Prop := ∃ id, g.Below root id ∧ h.node id ≠ g.node id

/-- Where the nodes from a root are as they were, no other node is reached. -/
theorem Intact.below_iff (intact : Intact root g h) : h.Below root id ↔ g.Below root id := by
  have children : ∀ {owner}, g.Below root owner → h.children owner = g.children owner :=
    fun above => congrArg Node.children (intact _ above).1
  constructor <;> intro below
  · refine below.induction (Below.refl g root) fun owner child _ above slot => ?_
    exact above.child (children above ▸ slot)
  · obtain ⟨trail, way⟩ := below
    exact ⟨trail, way.along fun owner on => children (way.below_of_mem on).1⟩

theorem Extends.intact (e : Extends g h) (l : g.Linked root) : Intact root g h :=
  fun _ below => ⟨e.node (l.has_of_below below), e.parent (l.has_of_below below)⟩

theorem Altered.not_intact (altered : Altered root g h) : ¬ Intact root g h := by
  obtain ⟨id, below, other⟩ := altered
  exact fun intact => other (intact id below).1

/-! ## Answers -/

/-- A change that answers "no" leaves the old nodes, and one that answers "yes" leaves a mark. -/
structure Answers (g : Graph) (mark : Graph → Prop) (h : Graph) (changed : Bool) : Prop where
  silent : changed = false → Extends g h
  told : changed = true → mark h

namespace Answers

variable {mark mark' : Graph → Prop} {first second : Bool}

theorem no (e : Extends g h) : Answers g mark h false := ⟨fun _ => e, fun yes => by cases yes⟩

theorem yes (marked : mark h) : Answers g mark h true := ⟨fun no => (by cases no), fun _ => marked⟩

theorem map (a : Answers g mark h first) (weaker : mark h → mark' h) : Answers g mark' h first :=
  ⟨a.silent, fun told => weaker (a.told told)⟩

/-- One change after another, which keeps the mark of the first. -/
theorem or (a : Answers g mark h first) (next : Extends g h → Answers g mark k second)
    (kept : mark h → mark k) : Answers g mark k (first || second) where
  silent none := by
    obtain ⟨quiet, quiet'⟩ := Bool.or_eq_false_iff.mp none
    exact (next (a.silent quiet)).silent quiet'
  told some := by
    cases first with
    | true => exact kept (a.told rfl)
    | false => exact (next (a.silent rfl)).told (by simpa using some)

/-- A list of nodes is changed one after the other. -/
theorem changeEach {change : Graph → NodeId → Graph × Bool} {ids : List NodeId}
    (step : ∀ {h}, Extends g h → ∀ id ∈ ids, Answers g mark (change h id).1 (change h id).2)
    (kept : ∀ {h id}, mark h → mark (change h id).1) (e : Extends g h) :
    Answers g mark (Graph.changeEach change h ids).1 (Graph.changeEach change h ids).2 := by
  have still : ∀ {rest h}, mark h → mark (Graph.changeEach change h rest).1 := by
    intro rest
    induction rest with
    | nil => exact fun marked => marked
    | cons id rest ih => exact fun marked => ih (kept marked)
  induction ids generalizing h with
  | nil => exact .no e
  | cons id rest ih =>
    exact (step e id (by simp)).or
      (fun e' => ih (fun e'' other mem => step e'' other (by simp [mem])) e') still

/-- The answer tells exactly whether the nodes from a root are as they were. -/
theorem intact_iff {changed : Bool} (a : Answers g (Altered root g) h changed) (l : g.Linked root) :
    changed = false ↔ Intact root g h := by
  refine ⟨fun none => (a.silent none).intact l, fun intact => ?_⟩
  by_contra some
  exact (a.told (Bool.eq_true_of_not_eq_false some)).not_intact intact

end Answers

/-! ## New children -/

theorem mem_replace_or {ids : List NodeId} (old new : NodeId) (mem : id ∈ ids) :
    id ∈ ids.replace old new ∨ new ∈ ids.replace old new := by
  induction ids with
  | nil => cases mem
  | cons first rest ih =>
    rw [List.replace_cons]
    split
    · exact .inr (by simp)
    · rcases List.mem_cons.mp mem with rfl | later
      · exact .inl (by simp)
      · exact (ih later).imp (List.mem_cons_of_mem _) (List.mem_cons_of_mem _)

/-- A node from a root owns a node that is new. -/
def Regrown (root : NodeId) (g h : Graph) : Prop :=
  g.size ≤ h.size ∧ ∃ owner, g.Below root owner ∧ ∃ child ∈ h.children owner, ¬ g.Has child

namespace Regrown

theorem altered (regrown : Regrown root g h) (l : g.Linked root) : Altered root g h := by
  obtain ⟨-, owner, above, child, slot, new⟩ := regrown
  refine ⟨owner, above, fun same => new (l.has_of_below (above.child ?_))⟩
  rwa [children, same] at slot

variable (regrown : Regrown root g h) (l : g.Linked root)

include regrown

theorem relabels (r : Relabels h k) : Regrown root g k := by
  obtain ⟨size, owner, above, child, slot, new⟩ := regrown
  exact ⟨size.trans (Nat.le_of_eq r.size.symm), owner, above, child, r.children owner ▸ slot, new⟩

include l

/-- What is only added beside the old nodes leaves the new child where it is. -/
theorem beside (e : Extends h k) : Regrown root g k := by
  obtain ⟨size, owner, above, child, slot, new⟩ := regrown
  refine ⟨size.trans e.size, owner, above, child, ?_, new⟩
  rwa [children, e.node (Nat.lt_of_lt_of_le (l.has_of_below above) size)]

theorem add (node : Node) : Regrown root g (h.add node).1 := by
  obtain ⟨size, owner, above, child, slot, new⟩ := regrown
  refine ⟨size.trans (by rw [size_add]; omega), owner, above, child, ?_, new⟩
  rwa [children, node_add (Nat.lt_of_lt_of_le (l.has_of_below above) size)]

/-- A new node may be swapped out, but only for another new one. -/
theorem replace (old : NodeId) {new : NodeId} (fresh : ¬ g.Has new) :
    Regrown root g (h.replace old new).1 := by
  obtain ⟨size, owner, above, child, slot, new'⟩ := regrown
  have same := Node.formal_stamp.toPlaced.replace h old new
  refine ⟨size.trans same.size, owner, above, ?_⟩
  have has := Nat.lt_of_lt_of_le (l.has_of_below above) size
  rcases node_replace_or has old new with kept | swapped
  · exact ⟨child, by rwa [children, kept], new'⟩
  · have slots : (h.replace old new).1.children owner = (h.children owner).replace old new := by
      rw [children, swapped, Node.children_withChildren _ (by simp), children]
    rw [slots]
    rcases mem_replace_or old new slot with still | taken
    · exact ⟨child, still, new'⟩
    · exact ⟨new, taken, fresh⟩

end Regrown

/-- A node below a root that is swapped for a new one leaves a new child in its place. -/
theorem Extends.regrown_replace (e : Extends g h) (l : g.Linked root) {owner old new : NodeId}
    (above : g.Below root owner) (slot : old ∈ g.children owner) (fresh : ¬ g.Has new) :
    Regrown root g (h.replace old new).1 := by
  have has := l.has_of_below above
  have recorded : h.parent old = some owner :=
    (e.parent (l.has_of_below (above.child slot))).trans (l.parent_child above slot)
  have slot' : old ∈ h.children owner := by rwa [e.children has]
  refine ⟨e.size.trans (Node.formal_stamp.toPlaced.replace h old new).size, owner, above, new, ?_,
    fresh⟩
  simp only [Graph.replace, recorded]
  rw [Graph.children, node_replaceChild (e.has has), if_pos rfl,
    Node.children_withChildren _ (by simp)]
  obtain ⟨front, back, -, after⟩ := replace_eq_append new slot'
  exact after ▸ by simp

end Graph

end RangeQuery
