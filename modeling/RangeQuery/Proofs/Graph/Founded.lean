import RangeQuery.Proofs.Graph.Doubles

/-!
Copies that are nowhere cut off. Where slots and templates lead in no circle, no way within a node is
as long as the graph is large. A copy then has the levels it needs: it is the one that the recursion
without a bound makes, and each node in it is the same as the node it was made from.
-/

namespace RangeQuery

namespace Graph

variable {g h : Graph} {root id old new : NodeId} {way : List NodeId} {depth : Nat}

/-- Everything within a node has a slot, and no way through slots and templates leads back. -/
structure Founded (g : Graph) (root : NodeId) : Prop where
  whole : g.Whole root
  no_return : ∀ {owner child : NodeId}, g.Within root owner → child ∈ g.held owner →
    ¬ g.Within child owner

namespace Founded

theorem acyclic (f : g.Founded root) : g.Acyclic root where
  grounded := f.whole.grounded
  no_return below slot again :=
    f.no_return below.within (List.mem_append_left _ slot) again.within

theorem within (f : g.Founded root) (within : g.Within root id) : g.Founded id where
  whole := f.whole.within within
  no_return above mem := f.no_return (within.trans above) mem

/-- No way comes through a node twice. -/
theorem nodup_way (f : g.Founded root) (w : g.Way root way id) : (id :: way).Nodup := by
  induction w with
  | here => simp
  | down w mem ih =>
    exact List.nodup_cons.mpr ⟨fun again => f.no_return w.within mem (w.within_of_mem again), ih⟩

/-- No way is as long as the graph is large. -/
theorem not_deep (f : g.Founded root) : ¬ g.Deep root g.size := by
  rintro ⟨way, id, w, long⟩
  refine Nat.not_lt_of_le long (length_le_of_nodup (f.nodup_way w) fun member on => ?_)
  obtain ⟨_, above, -⟩ := w.exists_suffix on
  exact f.whole member above.within

end Founded

/-- Where every node comes after what it holds, nothing leads in a circle. -/
theorem founded_of_ordered (has : g.Has root)
    (ordered : ∀ index < g.size, ∀ child ∈ g.held ⟨index⟩, child.index < index) :
    g.Founded root := by
  have step {owner child : NodeId} (mem : child ∈ g.held owner) : child.index < owner.index :=
    ordered owner.index (has_of_held mem) child mem
  have lower {start id : NodeId} (within : g.Within start id) : id.index ≤ start.index := by
    induction within with
    | here => exact Nat.le_refl _
    | down _ mem ih => exact Nat.le_trans (Nat.le_of_lt (step mem)) ih
  refine ⟨fun id within => Nat.lt_of_le_of_lt (lower within) has, fun _ mem again => ?_⟩
  exact Nat.not_lt_of_le (lower again) (step mem)

/-! ## Levels -/

/-- A node copied over copies of what it holds: its children and then its templates. -/
def copyOver (copy : Graph → Renaming → NodeId → Graph × Renaming × NodeId) (g : Graph)
    (names : Renaming) (id : NodeId) : Graph × Renaming × NodeId :=
  let node := g.node id
  let (g, names, children) := copyEach copy g names node.children
  let (g, names, bodies) := copyEach copy g names node.templateBodies
  let (g, new) := g.add ((node.withChildren children).withTemplateBodies bodies)
  (g, names.insert id new, new)

theorem copyLevels_succ (depth : Nat) : copyLevels (depth + 1) = copyOver (copyLevels depth) := rfl

section

variable {copy copy' : Graph → Renaming → NodeId → Graph × Renaming × NodeId}
  (one : ∀ g names id, Grove g (copy g names id).1 [(copy g names id).2.2])

include one

theorem copyEach_congr {ids : List NodeId} (names : Renaming)
    (same : ∀ {h} names, Extends g h → ∀ id ∈ ids, copy' h names id = copy h names id)
    (e : Extends g h) : copyEach copy' h names ids = copyEach copy h names ids := by
  induction ids generalizing h names with
  | nil => rfl
  | cons id rest ih =>
    have others := ih (copy h names id).2.1
      (fun names e other mem => same names e other (List.mem_cons_of_mem _ mem))
      (e.trans (one h names id).beside)
    simp only [copyEach, same names e id List.mem_cons_self, others]

/-- What a node is copied to depends on the copies of what it holds in the graph as it grows. -/
theorem copyOver_congr (names : Renaming)
    (same : ∀ {h} names, Extends g h → ∀ other ∈ g.held id, copy' h names other = copy h names other) :
    copyOver copy' g names id = copyOver copy g names id := by
  have children := copyEach_congr one names
    (fun names e child slot => same names e child (List.mem_append_left _ slot)) (.refl g)
  have grown := (grove_copyEach one g names (g.children id)).beside
  have bodies := copyEach_congr one (copyEach copy g names (g.children id)).2.1
    (fun names e body held => same names e body (List.mem_append_right _ held)) grown
  simp only [Graph.children] at children bodies
  simp only [copyOver, children, bodies]

end

/-- Where no way is as long as there are levels, more levels make the same copy. -/
theorem copyLevels_add (whole : g.Whole id) (short : ¬ g.Deep id depth) (names : Renaming)
    (more : Nat) : copyLevels (depth + more) g names id = copyLevels depth g names id := by
  induction depth generalizing g names id with
  | zero => exact absurd (g.deep_zero id) short
  | succ depth ih =>
    rw [Nat.add_right_comm, copyLevels_succ, copyLevels_succ]
    refine copyOver_congr (grove_copyLevels depth) names fun names e other mem => ?_
    have part := whole.within (within_of_held mem)
    exact ih (e.whole part) (fun deep => short ((e.deep part deep).under mem)) names

namespace Founded

/-- Where slots and templates lead in no circle, a copy is never cut off: it is made over copies, made
without a bound, of what the node holds. -/
theorem copyLevels_eq (f : g.Founded root) (names : Renaming) :
    copyLevels g.size g names root =
      copyOver (fun h names id => copyLevels h.size h names id) g names root := by
  rw [← copyLevels_add f.whole f.not_deep names 1, copyLevels_succ]
  refine (copyOver_congr (grove_copyLevels g.size) names fun {h} names e other mem => ?_).symm
  have part := f.within (within_of_held mem)
  obtain ⟨more, size⟩ := Nat.exists_eq_add_of_le e.size
  rw [size]
  exact copyLevels_add (e.whole part.whole) (fun deep => part.not_deep (e.deep part.whole deep)) names
    more

/-- Where slots and templates lead in no circle, each counterpart in a copy is the same as the node it
was made from, over as many children and templates. -/
theorem refilled_copyWith (f : g.Founded root) {names : Renaming}
    (part : Counterpart g (g.copyWith root names).1 root (g.copyWith root names).2 old new) :
    Refilled g (copyLevels g.size g names root).1 old new :=
  ((doubles_copyLevels g.size g names f.whole).refilled_or_cut (.head _)
    (counterpart_rebind.mp part)).resolve_right fun cut => f.not_deep cut.2

end Founded

end Graph

end RangeQuery
