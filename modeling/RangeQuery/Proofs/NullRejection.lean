import RangeQuery.Proofs.Graph.Searches
import RangeQuery.Proofs.Predicate.Terms
import RangeQuery.Proofs.Scope.RequiredRanges

/-!
Filters that require a range. A conjunct of strict operators is NULL in a row that misses a range it
reads, so no such row passes it; a conjunction or a test against NULL among its operands can turn
that NULL into a known value again.
-/

namespace RangeQuery

/-- A node that can have a known value over an operand that is NULL, though it is no disjunction,
negation, choice or test for NULL. -/
def Node.settlesNull : Node → Bool
  | .binary .and _ _ | .nullCheck _ true => true
  | _ => false

/-- A node that can have a known value over an operand that is NULL. -/
def Node.answersNull : Node → Bool
  | .binary op _ _ => op.isConnective
  | .nullCheck _ _ | .caseWhen _ => true
  | _ => false

theorem Node.answersNull_eq_false {node : Node} (strict : Graph.toleratesMissing node = false)
    (plain : node.settlesNull = false) : node.answersNull = false := by
  cases node with
  | binary op _ _ => cases op <;> first | rfl | simp [Graph.toleratesMissing, settlesNull] at strict plain
  | nullCheck _ negated => cases negated <;> simp [Graph.toleratesMissing, settlesNull] at strict plain
  | caseWhen _ => cases strict
  | _ => rfl

namespace Graph

variable {g : Graph} {α : Type} {reading : Reading α} {row : Identifier → Value α}
  {scope range id : NodeId} {term : Term}

/-! ## Reads -/

theorem reads_of_mem_rangesOf {enterSubqueries : Bool}
    (mem : range ∈ g.rangesOf (g.identifiersUnder id enterSubqueries)) : g.Reads id range := by
  obtain ⟨lower, found, i, node, same⟩ := mem_rangesOf.mp mem
  rw [identifiersUnder_eq, List.mem_filter, mem_preorder] at found
  obtain ⟨⟨trail, way, -⟩, -⟩ := found
  exact ⟨lower, i, ⟨trail, way⟩, node, same⟩

/-! ## Strict expressions -/

/-- An expression of strict operators that reads a range is NULL in a row that misses the range. -/
theorem Spells.eval_eq_null (reading : Reading α) (s : g.Spells id term)
    (strict : ∀ lower, g.Below id lower → (g.node lower).answersNull = false)
    (missing : ∀ i : Identifier, i.range = range → row i = .null) (reads : g.Reads id range) :
    term.eval reading row = .null := by
  have inner : ∀ {id}, (∀ lower, g.Below id lower → (g.node lower).answersNull = false) →
      ∀ child ∈ g.children id, ∀ lower, g.Below child lower →
        (g.node lower).answersNull = false :=
    fun strict child slot lower below => strict lower ((below_of_child slot).trans below)
  induction s with
  | @column id i node =>
    obtain ⟨lower, i', below, node', same⟩ := reads
    rcases below.eq_or_child with rfl | ⟨child, slot, -⟩
    · obtain rfl := Node.identifier.inj (node.symm.trans node')
      exact missing i same
    · simp [children, node, Node.children] at slot
  | @binary id left right op l r node _ _ ihLeft ihRight =>
    have slots : g.children id = [left, right] := by rw [children, node]; rfl
    have plain : op.isConnective = false := by simpa [node, Node.answersNull] using strict id (.refl g id)
    rw [Term.eval_binary reading row plain]
    obtain ⟨child, slot, reads'⟩ := reads.child (by simp [node])
    have taken : child = left ∨ child = right := by simpa [slots] using slot
    rcases taken with rfl | rfl
    · rw [ihLeft (inner strict child slot) reads', Value.combine_null_left]
    · rw [ihRight (inner strict child slot) reads', Value.combine_null_right]
  | @not id operand _ node _ ih =>
    obtain ⟨child, slot, reads'⟩ := reads.child (by simp [node])
    obtain rfl : child = operand := by simpa [children, node, Node.children] using slot
    rw [Term.eval, ih (inner strict child slot) reads']
    rfl
  | @nullCheck id _ _ _ node | @choose id _ _ _ _ node | @chooseOr id _ _ _ _ _ _ node =>
    have top := strict id (.refl g id)
    simp [node, Node.answersNull] at top
  | @number id _ node | @string id _ node | @bool id _ node | @null id node =>
    obtain ⟨child, slot, -⟩ := reads.child (by simp [node])
    simp [children, node, Node.children] at slot

/-- No row that misses a range passes a conjunct that reads it, unless a node that settles NULL is
among the operands. -/
theorem Spells.truth_ne_yes (s : g.Spells id term) (leaf : (g.node id).isAnd = false)
    (strict : ∀ lower, g.Below id lower → toleratesMissing (g.node lower) = false)
    (plain : ∀ owner child, g.Below id owner → child ∈ g.children owner →
      (g.node child).settlesNull = false)
    (missing : ∀ i : Identifier, i.range = range → row i = .null) (reads : g.Reads id range) :
    term.truth reading row ≠ .yes := by
  have operands : ∀ child ∈ g.children id, ∀ lower, g.Below child lower →
      (g.node lower).answersNull = false := by
    intro child slot lower below
    refine Node.answersNull_eq_false (strict lower ((below_of_child slot).trans below)) ?_
    rcases below.eq_or_owner with rfl | ⟨owner, above, slot'⟩
    · exact plain id lower (.refl g id) slot
    · exact plain owner lower ((below_of_child slot).trans above) slot'
  by_cases settles : (g.node id).settlesNull = false
  · -- The conjunct itself is strict, so its value is NULL.
    have null := s.eval_eq_null reading (fun lower below => ?_) missing reads
    · rw [Term.truth, null]
      exact fun same => by cases same
    · rcases below.eq_or_child with rfl | ⟨child, slot, below⟩
      · exact Node.answersNull_eq_false (strict lower (.refl g lower)) settles
      · exact operands child slot lower below
  · -- The conjunct is a test against NULL over a strict operand.
    cases s with
    | @nullCheck _ operand negated t node s =>
      have slot : operand ∈ g.children id := by simp [children, node, Node.children]
      obtain ⟨child, slot', reads'⟩ := reads.child (by simp [node])
      obtain rfl : child = operand := by simpa [children, node, Node.children] using slot'
      have null := s.eval_eq_null reading (operands child slot) missing reads'
      cases negated with
      | false => simp [node, Node.settlesNull] at settles
      | true => simp [Term.truth, Term.eval, null, Value.isNull, Value.truth]
    | @binary _ _ _ op _ _ node =>
      cases op <;> simp [node, Node.settlesNull, Node.isAnd] at settles leaf
    | _ node => simp [node, Node.settlesNull] at settles

/-! ## Filters -/

/-- A row that passes a filter passes each of its conjuncts. -/
theorem Spells.conjunct (s : g.Spells id term) (holds : term.truth reading row = .yes)
    {conjunct : NodeId} (mem : conjunct ∈ g.conjuncts id) :
    ∃ part, g.Spells conjunct part ∧ part.truth reading row = .yes := by
  induction s with
  | @binary id left right op l r node spellsLeft spellsRight ihLeft ihRight =>
    by_cases isAnd : op = .and
    · subst isAnd
      have a := (Spells.binary node spellsLeft spellsRight).acyclic
      rw [Term.truth_and, Truth.and_eq_yes] at holds
      rw [a.conjuncts_and node, List.mem_append] at mem
      exact mem.elim (ihLeft holds.1) (ihRight holds.2)
    · have leaf : (g.node id).isAnd = false := by
        rw [node]
        cases op <;> first | rfl | exact absurd rfl isAnd
      rw [conjuncts_of_not_and leaf, List.mem_singleton] at mem
      exact ⟨_, mem ▸ .binary node spellsLeft spellsRight, holds⟩
  | _ node =>
    rw [conjuncts_of_not_and (by rw [node]; rfl), List.mem_singleton] at mem
    subst mem
    exact ⟨_, by constructor <;> assumption, holds⟩

theorem isRequired_of_setRequired_false {other : NodeId}
    (required : (g.setRequired other false).isRequired id = true) : g.isRequired id = true := by
  by_cases same : other = id
  · subst same
    cases node : g.node other with
    | range r =>
      have has : g.Has other := has_of_isRange (by rw [node]; rfl)
      simp [isRequired, range?, setRequired, updateRange, node, node_setNode_self g has] at required
    | _ => simp [isRequired, range?, setRequired, updateRange, node] at required
  · rwa [isRequired, range?, setRequired, node_updateRange_of_ne g (Ne.symm same)] at required

/-- A range that a filter makes required is read by one of its conjuncts that tolerate no missing
row. -/
theorem rejected_of_requireByFilter {pinned : List NodeId} (optional : g.isRequired range = false)
    (required : (g.requireByFilter pinned scope).1.isRequired range = true) :
    ∃ condition, (g.scope scope).condition = some condition ∧
      ∃ conjunct ∈ g.conjuncts condition, g.contains conjunct toleratesMissing = false ∧
        g.Reads conjunct range := by
  unfold requireByFilter at required
  split at required
  · rw [optional] at required
    cases required
  · next condition is =>
    refine ⟨condition, is, ?_⟩
    have firm : ∀ {ids : List NodeId} {h : Graph},
        (ids.foldl (fun g id => g.setRequired id false) h).isRequired range = true →
          h.isRequired range = true := by
      intro ids
      induction ids with
      | nil => exact id
      | cons first rest ih => exact fun still => isRequired_of_setRequired_false (ih still)
    have promoted : range ∈ (g.includedRanges scope).filter
        (g.isPromoted (g.nullTested condition) (g.rejectingRanges condition)) := by
      by_contra out
      have before := firm required
      rw [isRequired, range?, node_foldl_setRequired_of_not_mem out true] at before
      rw [isRequired, range?, before] at optional
      cases optional
    obtain ⟨-, is'⟩ := List.mem_filter.mp promoted
    simp only [isPromoted, Bool.and_eq_true, List.contains_iff_mem] at is'
    obtain ⟨conjunct, rejects, mem⟩ := List.mem_flatMap.mp is'.2
    obtain ⟨among, strict⟩ := List.mem_filter.mp rejects
    exact ⟨conjunct, among, by simpa using strict, reads_of_mem_rangesOf mem⟩

/-- If a filter makes a range required, a row that misses the range passes the filter only through
a conjunction or a test against NULL that is an operand in a conjunct that reads the range. -/
theorem settled_of_requireByFilter {pinned : List NodeId} {condition : NodeId}
    (filter : (g.scope scope).condition = some condition) (spells : g.Spells condition term)
    (optional : g.isRequired range = false)
    (required : (g.requireByFilter pinned scope).1.isRequired range = true)
    (missing : ∀ i : Identifier, i.range = range → row i = .null)
    (passes : term.truth reading row = .yes) :
    ∃ conjunct ∈ g.conjuncts condition, g.Reads conjunct range ∧
      g.contains conjunct toleratesMissing = false ∧
      ∃ owner child, g.Below conjunct owner ∧ child ∈ g.children owner ∧
        (g.node child).settlesNull = true := by
  obtain ⟨condition', is, conjunct, mem, strict, reads⟩ :=
    rejected_of_requireByFilter optional required
  obtain rfl := Option.some.inj (filter.symm.trans is)
  obtain ⟨part, spells', passes'⟩ := spells.conjunct passes mem
  refine ⟨conjunct, mem, reads, strict, ?_⟩
  by_contra none
  refine spells'.truth_ne_yes (spells.acyclic.mem_conjuncts.mp mem).1
    ((spells'.acyclic.contains_eq_false _).mp strict) (fun owner child above slot => ?_) missing
    reads passes'
  by_contra settles
  exact none ⟨owner, child, above, slot, by simpa using settles⟩

/-- Users with their profiles, filtered by `(p.bio IS NOT NULL) = false`. -/
def usersWithoutBio : Graph := ⟨#[
  ⟨.range { name := "u", entity := some "User", join := none, required := false
            included := true, nested := none }, some ⟨10⟩⟩,
  ⟨.range { name := "p", entity := some "Profile", join := some ⟨4⟩, required := false
            included := true, nested := none }, some ⟨10⟩⟩,
  ⟨.identifier { range := ⟨1⟩, path := ["userId"] }, some ⟨4⟩⟩,
  ⟨.identifier { range := ⟨0⟩, path := ["id"] }, some ⟨4⟩⟩,
  ⟨.binary .eq ⟨2⟩ ⟨3⟩, some ⟨1⟩⟩,
  ⟨.identifier { range := ⟨1⟩, path := ["bio"] }, some ⟨6⟩⟩,
  ⟨.nullCheck ⟨5⟩ true, some ⟨8⟩⟩,
  ⟨.bool false, some ⟨8⟩⟩,
  ⟨.binary .eq ⟨6⟩ ⟨7⟩, some ⟨10⟩⟩,
  ⟨.identifier { range := ⟨0⟩, path := ["id"] }, some ⟨10⟩⟩,
  ⟨.retrieve { Retrieve.empty with
    ranges := [⟨0⟩, ⟨1⟩], values := [⟨9⟩], condition := some ⟨8⟩ }, none⟩]⟩

/-- Numbers for all literals, and operators that compare for equality only. -/
def equalityReading : Reading Nat where
  number text := text.length
  string text := text.length
  holds value := value != 0
  apply _ left right := .bool (left == right)

/-- A user with no profile passes, as `FALSE = FALSE`, and the profile is required all the same. -/
theorem settled_of_requireByFilter_usersWithoutBio :
    (usersWithoutBio.isRequired ⟨1⟩ = false ∧
      (usersWithoutBio.requireByFilter [] ⟨10⟩).1.isRequired ⟨1⟩ = true) ∧
    ∃ term, usersWithoutBio.Spells ⟨8⟩ term ∧
      term.truth equalityReading (fun i => if i.range = ⟨1⟩ then .null else .datum 1) = .yes ∧
      ∃ conjunct ∈ usersWithoutBio.conjuncts ⟨8⟩, usersWithoutBio.Reads conjunct ⟨1⟩ ∧
        usersWithoutBio.contains conjunct toleratesMissing = false ∧
        ∃ owner child, usersWithoutBio.Below conjunct owner ∧
          child ∈ usersWithoutBio.children owner ∧
          (usersWithoutBio.node child).settlesNull = true := by
  have optional : usersWithoutBio.isRequired ⟨1⟩ = false := by decide
  have required : (usersWithoutBio.requireByFilter [] ⟨10⟩).1.isRequired ⟨1⟩ = true := by decide
  have spells : usersWithoutBio.Spells ⟨8⟩ (.binary .eq
      (.nullCheck (.column { range := ⟨1⟩, path := ["bio"] }) true) (.bool false)) :=
    .binary rfl (.nullCheck rfl (.column rfl)) (.bool rfl)
  have passes : Term.truth equalityReading
      (fun i => if i.range = ⟨1⟩ then .null else .datum 1) (.binary .eq
        (.nullCheck (.column { range := ⟨1⟩, path := ["bio"] }) true) (.bool false)) = .yes := by
    decide
  exact ⟨⟨optional, required⟩, _, spells, passes,
    settled_of_requireByFilter rfl spells optional required (fun _ same => if_pos same) passes⟩

end Graph

end RangeQuery
