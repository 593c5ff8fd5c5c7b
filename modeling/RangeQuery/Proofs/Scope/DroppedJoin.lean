import RangeQuery.Proofs.Scope.ReadersInUse

/-!
Excluding dead ranges. A range is dead if the search of its scope finds no reader: what reads it all
the same lies below the range itself or below a range that is excluded already.
-/

namespace RangeQuery

namespace Graph

variable {g h : Graph} {root scope range : NodeId} {scopes : List NodeId}

/-! ## Unread ranges -/

/-- What reads a range that the search finds no reader of lies below the range or below an
excluded one. -/
theorem Linked.below_of_readCount (l : g.Linked root) (above : g.Below root scope)
    (isRetrieve : (g.node scope).isRetrieve = true) (declared : range ∈ (g.node scope).declared)
    (none : g.readCount scope range = 0) {id : NodeId} {i : Identifier} (below : g.Below scope id)
    (node : g.node id = .identifier i) (reads : i.range = range) :
    ∃ other, g.Below root other ∧ g.Below other id ∧
      (other = range ∨ (g.node other).isExcluded = true) := by
  have uncounted := (l.readCount_eq_zero above isRetrieve declared).mp none id
  have owned := above.trans (below_of_child (declared_subset_children _ declared))
  rcases below.regards_or with regarded | ⟨other, reached, lower, excluded⟩
  · by_cases apart : ∀ join ∈ g.join? range, ¬ g.Below join id
    · exact absurd ⟨regarded, ⟨i, node, reads⟩, apart⟩ uncounted
    · simp only [not_forall, not_not] at apart
      obtain ⟨join, held, lower⟩ := apart
      exact ⟨range, owned, (below_of_child (mem_children_of_join? held)).trans lower, .inl rfl⟩
  · exact ⟨other, above.trans reached, lower, .inr excluded⟩

/-- Dropping dead joins keeps what excluding a dead range from a well-linked graph with the scopes as
they were keeps. -/
theorem Linked.dropDeadJoins_induction {motive : Graph → Prop} (l : g.Linked root)
    (step : ∀ {h dead}, h.Linked root →
      (∀ {α : Type} {view : Node → α}, Unbound view → Same view g h) →
      dead ∈ h.includedRanges scope → h.isDead scope dead = true → motive h →
        motive (h.exclude dead)) (start : motive g) : motive (g.dropDeadJoins scope).1 := by
  refine (Graph.dropDeadJoins_induction (motive := fun h => h.Linked root ∧
      (∀ {α : Type} {view : Node → α}, Unbound view → Same view g h) ∧ motive h)
    (fun {h dead} among isDead => ?_) ⟨l, fun _ => .refl _ g, start⟩).2.2
  rintro ⟨l', unbound, kept⟩
  exact ⟨(Relabels.exclude h dead).linked l', fun view => (unbound view).trans (view.exclude h dead),
    step l' unbound among isDead kept⟩

/-! ## Bindings under excluded ranges -/

/-- Every reached identifier that does not lie below an excluded range reads an included one, and
one that reads a range of a given scope lies within it. -/
structure Served (g : Graph) (root : NodeId) (scopes : List NodeId) : Prop where
  linked : g.Linked root
  isScope : ∀ scope ∈ scopes, g.ScopeIn root scope
  included : ∀ {id i}, g.Below root id → g.node id = .identifier i →
    (∀ range, g.Below root range → g.Below range id → (g.node range).isExcluded = false) →
      (g.node i.range).isIncluded = true
  within : ∀ {id i}, g.Below root id → g.node id = .identifier i → ∀ scope ∈ scopes,
    i.range ∈ (g.node scope).declared → g.Below scope id

theorem Bound.served (b : Bound g root scopes) : Served g root scopes :=
  ⟨b.linked, b.isScope, fun below node _ => b.included below node, b.within⟩

namespace Served

variable (s : Served g root scopes)

include s

/-- Excluding a range of a scope that the search finds no reader of leaves nothing that reads it. -/
theorem exclude {dead : NodeId} (mem : scope ∈ scopes) (among : dead ∈ g.includedRanges scope)
    (none : g.readCount scope dead = 0) : Served (g.exclude dead) root scopes := by
  have r := Relabels.exclude g dead
  have keeps : Keeps g (g.exclude dead) := .of_unbound fun unbound => unbound.exclude g dead
  have isScope := s.isScope scope mem
  obtain ⟨declared, includedDead⟩ := isIncluded_of_mem among
  have isRange := Node.isRange_of_isIncluded includedDead
  refine ⟨r.linked s.linked, fun other mem => keeps.scopeIn s.linked (s.isScope other mem),
    fun {id i} below node apart => ?_, fun {id i} below node other mem read => ?_⟩
  · rw [identifier_exclude] at node
    have below' := r.below.mp below
    have gone : ((g.exclude dead).node dead).isExcluded = true := by
      obtain ⟨found, kind⟩ := Node.exists_of_isRange isRange
      rw [node_exclude, if_pos rfl, kind]
      rfl
    have mono : ∀ {range}, (g.node range).isExcluded = true →
        ((g.exclude dead).node range).isExcluded = true := by
      intro range excluded
      by_cases same : range = dead
      · exact same ▸ gone
      · rwa [node_exclude, if_neg same]
    have apart' : ∀ {range}, g.Below root range → g.Below range id →
        ((g.exclude dead).node range).isExcluded = false := fun above lower =>
      apart _ (r.below.mpr above) (r.below.mpr lower)
    have included := s.included below' node fun range above lower => by
      by_contra excluded
      have contra := mono (Bool.not_eq_false _ ▸ excluded)
      rw [apart' above lower] at contra
      cases contra
    have other : i.range ≠ dead := by
      intro reads
      have inside := s.within below' node scope mem (reads ▸ declared)
      obtain ⟨range, above, lower, same | excluded⟩ := s.linked.below_of_readCount isScope.reached
        isScope.isRetrieve declared none inside node reads
      · have contra := apart' above lower
        rw [same, gone] at contra
        cases contra
      · have contra := mono excluded
        rw [apart' above lower] at contra
        cases contra
    rwa [node_exclude, if_neg other]
  · rw [identifier_exclude] at node
    have above := (s.isScope other mem).reached
    rw [(Node.unbound_declared.exclude g dead).node (s.linked.has_of_below above)] at read
    exact r.below.mpr (s.within (r.below.mp below) node other mem read)

/-- Dropping the dead joins of a scope leaves nothing in use that reads a dropped range. -/
theorem dropDeadJoins (mem : scope ∈ scopes) : Served (g.dropDeadJoins scope).1 root scopes := by
  refine dropDeadJoins_induction (motive := fun g => Served g root scopes)
    (fun among isDead s => s.exclude mem among ?_) s
  simp only [Graph.isDead, Bool.and_eq_true, beq_iff_eq] at isDead
  exact isDead.2

end Served

end Graph

end RangeQuery
