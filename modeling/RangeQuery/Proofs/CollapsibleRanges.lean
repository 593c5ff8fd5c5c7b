import RangeQuery.Proofs.BlockedAnys
import RangeQuery.Proofs.NullRejection

/-!
Ranges that may be forced without losing a row. A range is collapsible as soon as no test for NULL on
the skeleton of the condition reads it. No row that misses the range passes the condition then, if the
condition insists on the range: a disjunction has to do so on both sides, and what reads the range must
be NULL without it.
-/

namespace RangeQuery

namespace Truth

theorem or_eq_yes {a b : Truth} : a.or b = .yes ↔ a = .yes ∨ b = .yes := by
  cases a <;> cases b <;> decide

end Truth

theorem Term.truth_or {α : Type} (reading : Reading α) (row : Identifier → Value α)
    (left right : Term) : (Term.binary .or left right).truth reading row =
      (left.truth reading row).or (right.truth reading row) := by
  simp only [truth, eval, Value.truth_ofTruth]

namespace Graph

variable {g : Graph} {α : Type} {reading : Reading α} {row : Identifier → Value α}
  {range id condition : NodeId} {term : Term} {ranges : List NodeId}

/-- A condition insists on a range: on one side of a conjunction, on both sides of a disjunction, and
elsewhere by reading the range where no operand can have a known value over one that is NULL. -/
inductive InsistsOn (g : Graph) (range : NodeId) : NodeId → Prop
  | left {id left right : NodeId} :
      g.node id = .binary .and left right → InsistsOn g range left → InsistsOn g range id
  | right {id left right : NodeId} :
      g.node id = .binary .and left right → InsistsOn g range right → InsistsOn g range id
  | both {id left right : NodeId} :
      g.node id = .binary .or left right → InsistsOn g range left → InsistsOn g range right →
      InsistsOn g range id
  | leaf {id : NodeId} :
      g.opensTests id = false → (∀ c, g.node id ≠ .caseWhen c) → g.Reads id range →
      (∀ child ∈ g.children id, ∀ lower, g.Below child lower →
        (g.node lower).answersNull = false) →
      InsistsOn g range id

/-- A conjunction or a disjunction that does not test a range for NULL does so on neither side. -/
theorem untested_sides {left right : NodeId} {op : BinaryOp}
    (node : g.node id = .binary op left right) (skeleton : op.isConnective = true)
    (untested : ¬ g.TestsForNull id range) :
    ¬ g.TestsForNull left range ∧ ¬ g.TestsForNull right range := by
  have side : ∀ child ∈ g.children id, ¬ g.TestsForNull child range := by
    rintro child slot ⟨trail, test, operand, way, owners, is, reads⟩
    refine untested ⟨trail ++ [id], test, operand, (Trail.here.down slot).append way, ?_, is, reads⟩
    exact List.forall_mem_append.mpr ⟨owners, by simpa using ⟨op, left, right, node, skeleton⟩⟩
  exact ⟨side left (by simp [children, node, Node.children]),
    side right (by simp [children, node, Node.children])⟩

/-- The sides of a binary node spell the sides of its term. -/
theorem Spells.sides {left right : NodeId} {op : BinaryOp} (s : g.Spells id term)
    (node : g.node id = .binary op left right) :
    ∃ l r, g.Spells left l ∧ g.Spells right r ∧ term = .binary op l r := by
  cases s with
  | binary node' spellsLeft spellsRight =>
    obtain ⟨rfl, rfl, rfl⟩ := Node.binary.inj (node.symm.trans node')
    exact ⟨_, _, spellsLeft, spellsRight, rfl⟩
  | _ node' => cases node.symm.trans node'

/-- Outside the skeleton, what reads a missing range without a node that answers NULL below it is not
true, unless it tests the range for NULL. -/
theorem Spells.leaf_ne_yes (s : g.Spells id term) (leaf : g.opensTests id = false)
    (noChoice : ∀ c, g.node id ≠ .caseWhen c) (reads : g.Reads id range)
    (strict : ∀ child ∈ g.children id, ∀ lower, g.Below child lower →
      (g.node lower).answersNull = false)
    (untested : ¬ g.TestsForNull id range)
    (missing : ∀ i : Identifier, i.range = range → row i = .null) :
    term.truth reading row ≠ .yes := by
  by_cases whole : (g.node id).answersNull = false
  · have null := s.eval_eq_null reading (fun lower below => ?_) missing reads
    · rw [Term.truth, null]
      exact fun same => by cases same
    · rcases below.eq_or_child with rfl | ⟨child, slot, below⟩
      · exact whole
      · exact strict child slot lower below
  · cases s with
    | @nullCheck _ operand negated t node s =>
      have slot : operand ∈ g.children id := by simp [children, node, Node.children]
      obtain ⟨child, slot', reads'⟩ := reads.child (by simp [node])
      obtain rfl : child = operand := by simpa [children, node, Node.children] using slot'
      cases negated with
      | false => exact absurd ⟨[], id, child, .here, by simp, node, reads'⟩ untested
      | true =>
        have null := s.eval_eq_null reading (strict child slot) missing reads'
        simp [Term.truth, Term.eval, null, Value.isNull, Value.truth]
    | @binary _ _ _ op _ _ node =>
      simp only [opensTests, node] at leaf
      simp [node, Node.answersNull, leaf] at whole
    | choose node | chooseOr node => exact absurd node (noChoice _)
    | _ node => simp [node, Node.answersNull] at whole

/-- A row that misses a range does not pass a condition that insists on the range and does not test it
for NULL. -/
theorem InsistsOn.truth_ne_yes (insists : g.InsistsOn range id) (s : g.Spells id term)
    (untested : ¬ g.TestsForNull id range)
    (missing : ∀ i : Identifier, i.range = range → row i = .null) :
    term.truth reading row ≠ .yes := by
  induction insists generalizing term with
  | left node _ ih =>
    obtain ⟨l, r, spells, -, rfl⟩ := s.sides node
    rw [Ne, Term.truth_and, Truth.and_eq_yes]
    exact fun holds => ih spells (untested_sides node rfl untested).1 holds.1
  | right node _ ih =>
    obtain ⟨l, r, -, spells, rfl⟩ := s.sides node
    rw [Ne, Term.truth_and, Truth.and_eq_yes]
    exact fun holds => ih spells (untested_sides node rfl untested).2 holds.2
  | both node _ _ ihLeft ihRight =>
    obtain ⟨l, r, spells, spells', rfl⟩ := s.sides node
    obtain ⟨untestedLeft, untestedRight⟩ := untested_sides node rfl untested
    rw [Ne, Term.truth_or, Truth.or_eq_yes]
    exact fun holds => holds.elim (ihLeft spells untestedLeft) (ihRight spells' untestedRight)
  | leaf leaf noChoice reads strict =>
    exact s.leaf_ne_yes leaf noChoice reads strict untested missing

/-- What a collapsible range is for: no row that misses it passes a condition that insists on it. -/
theorem truth_ne_yes_of_isCollapsible (metadata : Metadata) (expressions : List NodeId)
    (names : (ranges.map g.rangeName).Nodup) (mem : range ∈ ranges)
    (spells : g.Spells condition term) (insists : g.InsistsOn range condition)
    (collapsible : (g.usage metadata expressions (some condition) ranges).isCollapsible
      (g.rangeName range) false = true)
    (missing : ∀ i : Identifier, i.range = range → row i = .null) :
    term.truth reading row ≠ .yes := by
  refine insists.truth_ne_yes spells (fun tests => ?_) missing
  have acyclic : ∀ filter ∈ some condition, g.Acyclic filter := fun filter is =>
    Option.some.inj is ▸ spells.acyclic
  have flagged := (nullTested_usage metadata expressions names acyclic mem).mpr
    ⟨condition, rfl, tests⟩
  rw [RangeUsage.isCollapsible_eq, flagged] at collapsible
  cases collapsible

/-- Users and their profiles, with the conditions `p.bio = 1 OR p.age IS NOT NULL` and
`p.bio = 1 OR u.active = 1`. -/
def usersOrProfiles : Graph := ⟨#[
  ⟨.range { name := "u", entity := some "User", join := none, required := false
            included := true, nested := none }, none⟩,
  ⟨.range { name := "p", entity := some "Profile", join := some ⟨4⟩, required := false
            included := true, nested := none }, none⟩,
  ⟨.identifier { range := ⟨1⟩, path := ["userId"] }, some ⟨4⟩⟩,
  ⟨.identifier { range := ⟨0⟩, path := ["id"] }, some ⟨4⟩⟩,
  ⟨.binary .eq ⟨2⟩ ⟨3⟩, some ⟨1⟩⟩,
  ⟨.identifier { range := ⟨1⟩, path := ["bio"] }, some ⟨7⟩⟩,
  ⟨.number "1", some ⟨7⟩⟩,
  ⟨.binary .eq ⟨5⟩ ⟨6⟩, some ⟨10⟩⟩,
  ⟨.identifier { range := ⟨1⟩, path := ["age"] }, some ⟨9⟩⟩,
  ⟨.nullCheck ⟨8⟩ true, some ⟨10⟩⟩,
  ⟨.binary .or ⟨7⟩ ⟨9⟩, none⟩,
  ⟨.identifier { range := ⟨1⟩, path := ["bio"] }, some ⟨13⟩⟩,
  ⟨.number "1", some ⟨13⟩⟩,
  ⟨.binary .eq ⟨11⟩ ⟨12⟩, some ⟨17⟩⟩,
  ⟨.identifier { range := ⟨0⟩, path := ["active"] }, some ⟨16⟩⟩,
  ⟨.number "1", some ⟨16⟩⟩,
  ⟨.binary .eq ⟨14⟩ ⟨15⟩, some ⟨17⟩⟩,
  ⟨.binary .or ⟨13⟩ ⟨16⟩, none⟩]⟩

/-- A leaf whose nodes below can be listed insists on a range that one of them reads. -/
theorem insistsOn_of_listed (ids : List NodeId) {lower : NodeId} {i : Identifier}
    (leaf : g.opensTests id = false) (noChoice : ∀ c, g.node id ≠ .caseWhen c)
    (below : g.Below id lower) (node : g.node lower = .identifier i) (read : i.range = range)
    (top : ∀ child ∈ g.children id, child ∈ ids)
    (closed : ∀ owner ∈ ids, ∀ child ∈ g.children owner, child ∈ ids)
    (strict : ∀ id ∈ ids, (g.node id).answersNull = false) : g.InsistsOn range id :=
  .leaf leaf noChoice ⟨lower, i, below, node, read⟩ fun child slot lower below =>
    strict lower (below.mem_of_closed (top child slot) closed)

/-- Both sides of the first condition need a profile, so a user without one does not pass it. Such a
user passes the second one, for which the profile is collapsible all the same. -/
theorem truth_ne_yes_of_isCollapsible_usersOrProfiles :
    (([⟨0⟩, ⟨1⟩] : List NodeId).map usersOrProfiles.rangeName).Nodup ∧
    (∃ term, usersOrProfiles.Spells ⟨10⟩ term ∧ usersOrProfiles.InsistsOn ⟨1⟩ ⟨10⟩ ∧
      (usersOrProfiles.usage noMetadata [] (some ⟨10⟩) [⟨0⟩, ⟨1⟩]).isCollapsible
        (usersOrProfiles.rangeName ⟨1⟩) false = true ∧
      term.truth equalityReading (fun i => if i.range = ⟨1⟩ then .null else .datum 1) ≠ .yes) ∧
    ∃ term, usersOrProfiles.Spells ⟨17⟩ term ∧
      (usersOrProfiles.usage noMetadata [] (some ⟨17⟩) [⟨0⟩, ⟨1⟩]).isCollapsible
        (usersOrProfiles.rangeName ⟨1⟩) false = true ∧
      term.truth equalityReading (fun i => if i.range = ⟨1⟩ then .null else .datum 1) = .yes := by
  have names : (([⟨0⟩, ⟨1⟩] : List NodeId).map usersOrProfiles.rangeName).Nodup := by decide
  have spells : usersOrProfiles.Spells ⟨10⟩ _ :=
    .binary rfl (.binary rfl (.column rfl) (.number rfl)) (.nullCheck rfl (.column rfl))
  have spells' : usersOrProfiles.Spells ⟨17⟩ _ :=
    .binary rfl (.binary rfl (.column rfl) (.number rfl)) (.binary rfl (.column rfl) (.number rfl))
  have first : usersOrProfiles.InsistsOn ⟨1⟩ ⟨7⟩ :=
    insistsOn_of_listed [⟨5⟩, ⟨6⟩] (by decide) (by simp [usersOrProfiles, node])
      (below_of_child (by decide : (⟨5⟩ : NodeId) ∈ usersOrProfiles.children ⟨7⟩)) rfl rfl (by decide)
      (by decide) (by decide)
  have second : usersOrProfiles.InsistsOn ⟨1⟩ ⟨9⟩ :=
    insistsOn_of_listed [⟨8⟩] (by decide) (by simp [usersOrProfiles, node])
      (below_of_child (by decide : (⟨8⟩ : NodeId) ∈ usersOrProfiles.children ⟨9⟩)) rfl rfl (by decide)
      (by decide) (by decide)
  have insists : usersOrProfiles.InsistsOn ⟨1⟩ ⟨10⟩ := .both rfl first second
  have collapsible : (usersOrProfiles.usage noMetadata [] (some ⟨10⟩) [⟨0⟩, ⟨1⟩]).isCollapsible
      (usersOrProfiles.rangeName ⟨1⟩) false = true := by decide +kernel
  exact ⟨names, ⟨_, spells, insists, collapsible, truth_ne_yes_of_isCollapsible noMetadata [] names
    (by decide) spells insists collapsible fun _ same => if_pos same⟩,
    _, spells', by decide +kernel, by decide⟩

end Graph

end RangeQuery
