import RangeQuery.Proofs.ClosedSubqueries
import RangeQuery.Proofs.Predicate.TestedForNull
import RangeQuery.Proofs.Scope.DemandChanges

/-!
The demands for partner rows settle at once. Relations and the filter move the same flags in opposite
directions, but never the flag of the same range: what is tested for NULL can only become optional,
the rest can only become required. So a second run of the pass has nothing left to do.
-/

namespace RangeQuery

namespace Graph

variable {g : Graph} {root scope id : NodeId} {metadata : Metadata} {pinned : List NodeId}

/-- A required range becomes optional if the filter tests it, nothing pins it and all that the filter
reads of it outside subqueries is below tests for NULL. -/
theorem Linked.lifted_iff (l : g.Linked root) (above : g.Below root scope)
    (required : g.isRequired id = true) : g.Lifted pinned scope id ↔
      id ∈ g.includedRanges scope ∧ g.isJoined id = true ∧ id ∉ pinned ∧
        ∃ condition ∈ (g.scope scope).condition,
          id ∈ g.nullTested condition ∧ g.ReadsInTests condition id := by
  have slot : ∀ condition ∈ (g.scope scope).condition, g.Below root condition := fun condition is =>
    above.child (g.children_scope_subset scope (by simp [Node.children, Option.mem_def.mp is]))
  constructor
  · rintro ⟨included, joined, -, free, condition, is, tested, reads⟩
    exact ⟨included, joined, free, condition, is, tested,
      (l.onlyNullTested_iff (slot condition is)).mp reads⟩
  · rintro ⟨included, joined, free, condition, is, tested, reads⟩
    exact ⟨included, joined, required, free, condition, is, tested,
      (l.onlyNullTested_iff (slot condition is)).mpr reads⟩

/-- A run of the pass changes nothing but the demand of joined ranges that the scope includes. It
demands no range that the filter tests for NULL. It gives up the demand of just those ranges that the
filter tests and otherwise does not read, apart from the pinned ones. Another run changes nothing. -/
theorem Linked.decideRequired_settles (l : g.Linked root) (above : g.Below root scope)
    (metadata : Metadata) (pinned : List NodeId) :
    let h := (g.decideRequired metadata pinned scope).1
    (h.size = g.size ∧ ∀ id, h.parent id = g.parent id ∧ (h.node id = g.node id ∨
      id ∈ g.includedRanges scope ∧ g.isJoined id = true ∧
        ∃ r, g.node id = .range r ∧ h.node id = .range { r with required := !r.required })) ∧
    (∀ id, g.FilterTests scope id → g.isRequired id = false → h.isRequired id = false) ∧
    (∀ id, g.isRequired id = true → (h.isRequired id = false ↔
      id ∈ g.includedRanges scope ∧ g.isJoined id = true ∧ id ∉ pinned ∧
        ∃ condition ∈ (g.scope scope).condition,
          id ∈ g.nullTested condition ∧ g.ReadsInTests condition id)) ∧
    h.decideRequired metadata pinned scope = (h, false) := by
  intro h
  have c : ChangesDemand g h := g.changesDemand_decideRequired metadata pinned scope
  have after : ∀ id, h.isRequired id = true ↔
      g.Raised metadata scope id ∨ g.isRequired id = true ∧ ¬ g.Lifted pinned scope id :=
    fun id => isRequired_decideRequired l above
  have moved : ∀ id, h.isRequired id = g.isRequired id ∨
      g.Raised metadata scope id ∨ g.Lifted pinned scope id := by
    intro id
    by_cases raised : g.Raised metadata scope id
    · exact .inr (.inl raised)
    · by_cases lifted : g.Lifted pinned scope id
      · exact .inr (.inr lifted)
      · exact .inl (Bool.eq_iff_iff.mpr (by simp [after, raised, lifted]))
  refine ⟨⟨c.slots, fun id => ⟨c.parent id, ?_⟩⟩, fun id tests optional => ?_,
    fun id required => ?_, ?_⟩
  · rcases c.node_or id with same | ⟨r, node, node'⟩
    · exact .inl same
    · have before : g.isRequired id = r.required := by simp [isRequired, range?, node]
      rcases moved id with same | raised | lifted
      · exact .inl (c.node_of_isRequired same)
      · refine .inr ⟨raised.included, raised.joined, r, node, ?_⟩
        rw [node', (after id).mpr (.inl raised), ← before, raised.optional, Bool.not_false]
      · refine .inr ⟨lifted.included, lifted.joined, r, node, ?_⟩
        have freed : ¬ h.isRequired id = true := fun still => by
          rcases (after id).mp still with raised | ⟨-, kept⟩
          · exact raised.untested lifted.filterTests
          · exact kept lifted
        rw [node', Bool.eq_false_of_not_eq_true freed, ← before, lifted.required, Bool.not_true]
  · rw [← Bool.not_eq_true, after]
    rintro (raised | ⟨required, -⟩)
    · exact raised.untested tests
    · simp [optional] at required
  · rw [← Bool.not_eq_true, after, ← l.lifted_iff above required]
    have unraised : ¬ g.Raised metadata scope id := fun raised => by
      simp [raised.optional] at required
    simp [unraised, required]
  · -- What would be raised or lifted again had its flag as it is, so the first run would have done it.
    refine decideRequired_eq_self (fun id raised => ?_) fun id lifted => ?_
    · have optional := raised.optional
      have untested := c.filterTests.not.mp raised.untested
      rcases moved id with same | raised' | lifted
      · rw [(after id).mpr (.inl ((c.raised same).mp raised))] at optional
        cases optional
      · rw [(after id).mpr (.inl raised')] at optional
        cases optional
      · exact untested lifted.filterTests
    · have tests := c.filterTests.mp lifted.filterTests
      rcases (after id).mp lifted.required with raised | ⟨required, kept⟩
      · exact raised.untested tests
      · exact kept ((c.lifted l above (lifted.required.trans required.symm)).mp lifted)

/-- Users with a required profile and an optional order, filtered by
`p.bio IS NULL AND o.total = 3`. -/
def usersWithNullBio : Graph := ⟨#[
  ⟨.range { name := "u", entity := some "User", join := none, required := false
            included := true, nested := none }, some ⟨16⟩⟩,
  ⟨.range { name := "p", entity := some "Profile", join := some ⟨4⟩, required := true
            included := true, nested := none }, some ⟨16⟩⟩,
  ⟨.identifier { range := ⟨1⟩, path := ["userId"] }, some ⟨4⟩⟩,
  ⟨.identifier { range := ⟨0⟩, path := ["id"] }, some ⟨4⟩⟩,
  ⟨.binary .eq ⟨2⟩ ⟨3⟩, some ⟨1⟩⟩,
  ⟨.range { name := "o", entity := some "Order", join := some ⟨8⟩, required := false
            included := true, nested := none }, some ⟨16⟩⟩,
  ⟨.identifier { range := ⟨5⟩, path := ["userId"] }, some ⟨8⟩⟩,
  ⟨.identifier { range := ⟨0⟩, path := ["id"] }, some ⟨8⟩⟩,
  ⟨.binary .eq ⟨6⟩ ⟨7⟩, some ⟨5⟩⟩,
  ⟨.identifier { range := ⟨1⟩, path := ["bio"] }, some ⟨10⟩⟩,
  ⟨.nullCheck ⟨9⟩ false, some ⟨14⟩⟩,
  ⟨.identifier { range := ⟨5⟩, path := ["total"] }, some ⟨13⟩⟩,
  ⟨.number "3", some ⟨13⟩⟩,
  ⟨.binary .eq ⟨11⟩ ⟨12⟩, some ⟨14⟩⟩,
  ⟨.binary .and ⟨10⟩ ⟨13⟩, some ⟨16⟩⟩,
  ⟨.identifier { range := ⟨0⟩, path := ["id"] }, some ⟨16⟩⟩,
  ⟨.retrieve { Retrieve.empty with
    ranges := [⟨0⟩, ⟨1⟩, ⟨5⟩], values := [⟨15⟩], condition := some ⟨14⟩ }, none⟩]⟩

/-- The profile becomes optional and the order required, and there it ends. -/
theorem decideRequired_settles_usersWithNullBio :
    let h := (usersWithNullBio.decideRequired noMetadata [] ⟨16⟩).1
    (usersWithNullBio.Linked ⟨16⟩ ∧ usersWithNullBio.Below ⟨16⟩ ⟨16⟩) ∧
    (usersWithNullBio.ReadsInTests ⟨14⟩ ⟨1⟩ ∧ h.isRequired ⟨1⟩ = false) ∧
    h.isRequired ⟨5⟩ = true ∧ h.decideRequired noMetadata [] ⟨16⟩ = (h, false) := by
  have linked : usersWithNullBio.Linked ⟨16⟩ :=
    .of_closed [⟨16⟩, ⟨0⟩, ⟨1⟩, ⟨2⟩, ⟨3⟩, ⟨4⟩, ⟨5⟩, ⟨6⟩, ⟨7⟩, ⟨8⟩, ⟨9⟩, ⟨10⟩, ⟨11⟩, ⟨12⟩, ⟨13⟩, ⟨14⟩,
      ⟨15⟩] (by decide) (by decide) (by decide) (by decide) (by decide)
  obtain ⟨-, -, lifts, again⟩ := linked.decideRequired_settles (.refl _ _) noMetadata []
  have freed : (usersWithNullBio.decideRequired noMetadata [] ⟨16⟩).1.isRequired ⟨1⟩ = false := by
    decide +kernel
  obtain ⟨-, -, -, condition, is, -, reads⟩ := (lifts ⟨1⟩ (by decide)).mp freed
  obtain rfl : (⟨14⟩ : NodeId) = condition := Option.some.inj is
  exact ⟨⟨linked, .refl _ _⟩, ⟨reads, freed⟩, by decide +kernel, again⟩

end Graph

end RangeQuery
