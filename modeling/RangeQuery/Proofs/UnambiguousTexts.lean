import RangeQuery.Render
import RangeQuery.Proofs.Text.Spelling

/-!
When two expressions have the same text. A test for NULL is written behind its operand whatever the
operand is, so `u.bio = u.age IS NULL` is the text of two different filters; where no test is made
of two operands with an operator between them, the text tells all but the grouping of chains.
-/

namespace RangeQuery

namespace Graph

variable {g : Graph} {id : NodeId} {p : Phrase}

/-- The operator of a phrase is the one of its node. -/
theorem Phrases.needsParens_eq (phrases : g.Phrases id p) (outer : BinaryOp) :
    needsParens outer (g.node id) = p.inParens outer := by
  cases phrases with
  | column node | number node | not node | nullCheck node | binary node =>
    simp only [node, needsParens, Phrase.inParens, Phrase.operator?]

/-- The levels of a node that has room for all trails below it, and those of its children. -/
theorem exists_succ_of_deep {depth : Nat}
    (deep : ∀ trail other, g.Trail id trail other → trail.length < depth) :
    ∃ left, depth = left + 1 ∧ ∀ child ∈ g.children id, ∀ trail other,
      g.Trail child trail other → trail.length < left := by
  obtain ⟨left, rfl⟩ := Nat.exists_eq_add_one_of_ne_zero (Nat.ne_of_gt (deep [] id .here))
  refine ⟨left, rfl, fun child slot trail other way => ?_⟩
  have longer := deep _ other ((Trail.here.down slot).append way)
  simp only [List.length_append, List.length_cons, List.length_nil] at longer
  omega

/-- The text of an operand, given the text of the node itself. -/
theorem Phrases.toList_renderOperand (phrases : g.Phrases id p) {inner : NodeId → String}
    (text : (inner id).toList = p.line.chars) (outer : BinaryOp) :
    (g.renderOperand inner outer id).toList = (Line.within (p.inParens outer) p.line).chars := by
  rw [renderOperand, phrases.needsParens_eq, Line.chars_within]
  split <;> simp [text]

/-- The text of a phrase, as far as its levels reach, is its line. -/
theorem Phrases.toList_renderLevels (phrases : g.Phrases id p) {depth : Nat}
    (deep : ∀ trail other, g.Trail id trail other → trail.length < depth) :
    (g.renderLevels depth id).toList = p.line.chars := by
  induction phrases generalizing depth with
  | column node =>
    obtain ⟨left, rfl, -⟩ := exists_succ_of_deep deep
    simp [renderLevels, node, renderNode, Phrase.line, Line.chars, Operand.chars, Atom.chars,
      pathChars, List.flatMap_map]
  | number node =>
    obtain ⟨left, rfl, -⟩ := exists_succ_of_deep deep
    simp [renderLevels, node, renderNode, Phrase.line, Line.chars, Operand.chars, Atom.chars]
  | not node operand ih =>
    obtain ⟨left, rfl, below⟩ := exists_succ_of_deep deep
    have text := ih (below _ (by simp [children, node, Node.children]))
    simp [renderLevels, node, renderNode, Phrase.line, Line.chars, Operand.chars, text]
  | nullCheck node operand ih =>
    obtain ⟨left, rfl, below⟩ := exists_succ_of_deep deep
    have text := ih (below _ (by simp [children, node, Node.children]))
    simp [renderLevels, node, renderNode, Phrase.line, Line.chars_withTest, testChars, text]
  | binary node left right ihLeft ihRight =>
    obtain ⟨depth, rfl, below⟩ := exists_succ_of_deep deep
    have textLeft := ihLeft (below _ (by simp [children, node, Node.children]))
    have textRight := ihRight (below _ (by simp [children, node, Node.children]))
    simp [renderLevels, node, renderNode, Phrase.line, Line.chars_join,
      left.toList_renderOperand textLeft, right.toList_renderOperand textRight]

theorem Phrases.toList_render (phrases : g.Phrases id p) : (g.render id).toList = p.line.chars :=
  phrases.toList_renderLevels fun _ _ way => phrases.acyclic.length_trail_lt way

/-- Two expressions over plain columns and numbers in which no test for NULL is made of two operands
have the same text exactly if they differ in the grouping of chains of one connective only. -/
theorem render_eq_iff_regrouped {g h : Graph} {a b : NodeId} {p q : Phrase}
    (first : g.Phrases a p) (second : h.Phrases b q)
    (plain : p.isPlain = true) (plain' : q.isPlain = true)
    (tests : p.testsSingly = true) (tests' : q.testsSingly = true) :
    g.render a = h.render b ↔ p.Regrouped q := by
  calc g.render a = h.render b
    _ ↔ p.line.chars = q.line.chars := by
      rw [← String.toList_inj, first.toList_render, second.toList_render]
    _ ↔ p.line = q.line := by
      apply Line.chars_inj
      · rw [Phrase.isPlain_line, plain]
      · rw [Phrase.isPlain_line, plain']
    _ ↔ p.Regrouped q := Phrase.line_eq_iff_regrouped tests tests'

/-- Filters over one range: two groupings of the chain
`u.active = 1 AND NOT (u.age > 30) AND u.bio IS NULL`, and the two readings of
`u.bio = u.age IS NULL`. -/
def filtersOfUsers : Graph := ⟨#[
  ⟨.range { name := "u", entity := some "User", join := none, required := false
            included := true, nested := none }, none⟩,
  ⟨.identifier { range := ⟨0⟩, path := ["active"] }, some ⟨3⟩⟩,
  ⟨.number "1", some ⟨3⟩⟩,
  ⟨.binary .eq ⟨1⟩ ⟨2⟩, none⟩,
  ⟨.identifier { range := ⟨0⟩, path := ["age"] }, some ⟨6⟩⟩,
  ⟨.number "30", some ⟨6⟩⟩,
  ⟨.binary .gt ⟨4⟩ ⟨5⟩, some ⟨7⟩⟩,
  ⟨.not ⟨6⟩, none⟩,
  ⟨.identifier { range := ⟨0⟩, path := ["bio"] }, some ⟨9⟩⟩,
  ⟨.nullCheck ⟨8⟩ false, none⟩,
  ⟨.binary .and ⟨3⟩ ⟨7⟩, none⟩,
  ⟨.binary .and ⟨10⟩ ⟨9⟩, none⟩,
  ⟨.binary .and ⟨7⟩ ⟨9⟩, none⟩,
  ⟨.binary .and ⟨3⟩ ⟨12⟩, none⟩,
  ⟨.binary .eq ⟨8⟩ ⟨4⟩, none⟩,
  ⟨.nullCheck ⟨14⟩ false, none⟩,
  ⟨.nullCheck ⟨4⟩ false, none⟩,
  ⟨.binary .eq ⟨8⟩ ⟨16⟩, none⟩]⟩

/-- Both groupings of the chain have one text, which the negated comparison alone does not have. The
other two filters have one text as well, although one is a test for NULL and one a comparison. -/
theorem render_eq_iff_regrouped_filtersOfUsers :
    (∃ p q r : Phrase, filtersOfUsers.Phrases ⟨11⟩ p ∧ filtersOfUsers.Phrases ⟨13⟩ q ∧
      filtersOfUsers.Phrases ⟨7⟩ r ∧
      (p.isPlain ∧ q.isPlain ∧ r.isPlain) ∧ (p.testsSingly ∧ q.testsSingly ∧ r.testsSingly) ∧
      p ≠ q ∧ filtersOfUsers.render ⟨11⟩ = filtersOfUsers.render ⟨13⟩ ∧
      filtersOfUsers.render ⟨11⟩ ≠ filtersOfUsers.render ⟨7⟩) ∧
    ∃ p q : Phrase, filtersOfUsers.Phrases ⟨15⟩ p ∧ filtersOfUsers.Phrases ⟨17⟩ q ∧
      filtersOfUsers.render ⟨15⟩ = "u.bio = u.age IS NULL" ∧
      filtersOfUsers.render ⟨17⟩ = "u.bio = u.age IS NULL" ∧ ¬ p.Regrouped q := by
  have active : filtersOfUsers.Phrases ⟨3⟩ _ := .binary rfl (.column rfl) (.number rfl)
  have young : filtersOfUsers.Phrases ⟨7⟩ _ := .not rfl (.binary rfl (.column rfl) (.number rfl))
  have silent : filtersOfUsers.Phrases ⟨9⟩ _ := .nullCheck rfl (.column rfl)
  have left : filtersOfUsers.Phrases ⟨11⟩ _ := .binary rfl (.binary rfl active young) silent
  have right : filtersOfUsers.Phrases ⟨13⟩ _ := .binary rfl active (.binary rfl young silent)
  have test : filtersOfUsers.Phrases ⟨15⟩ _ :=
    .nullCheck rfl (.binary rfl (.column rfl) (.column rfl))
  have comparison : filtersOfUsers.Phrases ⟨17⟩ _ :=
    .binary rfl (.column rfl) (.nullCheck rfl (.column rfl))
  have together := (render_eq_iff_regrouped left right (by decide) (by decide) (by decide)
    (by decide)).mpr (.chain rfl _ _ _)
  have apart := mt (render_eq_iff_regrouped left young (by decide) (by decide) (by decide)
    (by decide)).mp fun same => by cases same.operator?_eq
  refine ⟨⟨_, _, _, left, right, young, by decide, by decide, by decide, together, apart⟩,
    _, _, test, comparison, by decide +kernel, by decide +kernel, fun same => ?_⟩
  cases same.operator?_eq

end Graph

end RangeQuery
