import RangeQuery.Proofs.Text.Phrases

/-!
What is written of a phrase: a line of operands with operators between them, in which a part in
parentheses is a line again. Two phrases make the same line exactly if they differ in grouping only.
-/

namespace RangeQuery

mutual

/-- An operand as it is written, with the tests for NULL behind it. -/
inductive Operand where
  | bare (atom : Atom) (tests : List Bool)
  | enclosed (negated : Bool) (line : Line) (tests : List Bool)

/-- Operands with an operator between each and the next. -/
inductive Line where
  | last (operand : Operand)
  | more (operand : Operand) (op : BinaryOp) (rest : Line)

end

/-- One more test for NULL behind an operand. -/
def Operand.withTest (negated : Bool) : Operand → Operand
  | .bare atom tests => .bare atom (tests ++ [negated])
  | .enclosed not line tests => .enclosed not line (tests ++ [negated])

namespace Line

/-- One more test for NULL at the end of a line, so behind its last operand. -/
def withTest (negated : Bool) : Line → Line
  | last operand => last (operand.withTest negated)
  | more operand op rest => more operand op (rest.withTest negated)

/-- Two lines with an operator between them. -/
def join (op : BinaryOp) : Line → Line → Line
  | last operand, line => more operand op line
  | more operand inner rest, line => more operand inner (rest.join op line)

/-- A line within parentheses, where there are any. -/
def within : Bool → Line → Line
  | true, line => last (.enclosed false line [])
  | false, line => line

@[simp] theorem within_true (line : Line) : within true line = last (.enclosed false line []) := rfl

@[simp] theorem within_false (line : Line) : within false line = line := rfl

theorem join_join (op op' : BinaryOp) (a b c : Line) :
    (a.join op b).join op' c = a.join op (b.join op' c) := by
  induction a using Line.rec (motive_1 := fun _ => True) with
  | bare | enclosed => trivial
  | last operand => rfl
  | more operand inner rest _ ih => exact congrArg (more operand inner) ih

end Line

namespace Phrase

/-- Whether a phrase stands in parentheses below an operator. -/
def inParens (outer : BinaryOp) (p : Phrase) : Bool :=
  match p.operator? with
  | some op => if outer.isConnective then op.isConnective && op != outer else true
  | none => false

/-- A phrase as it is written. -/
def line : Phrase → Line
  | leaf atom => .last (.bare atom [])
  | not operand => .last (.enclosed true operand.line [])
  | nullCheck operand negated => operand.line.withTest negated
  | binary op left right =>
    (Line.within (left.inParens op) left.line).join op (Line.within (right.inParens op) right.line)

theorem Regrouped.inParens_eq {p q : Phrase} (same : Regrouped p q) (op : BinaryOp) :
    p.inParens op = q.inParens op := by
  simp only [inParens, same.operator?_eq]

/-- Grouping is not written. -/
theorem Regrouped.line_eq {p q : Phrase} (same : Regrouped p q) : p.line = q.line := by
  induction same with
  | refl => rfl
  | symm _ ih => exact ih.symm
  | trans _ _ ih ih' => exact ih.trans ih'
  | not _ ih => simp only [line, ih]
  | nullCheck _ _ ih => simp only [line, ih]
  | binary op sameLeft sameRight ihLeft ihRight =>
    simp only [line, sameLeft.inParens_eq, sameRight.inParens_eq, ihLeft, ihRight]
  | @chain op connective a b c =>
    have bare (l r : Phrase) : (Phrase.binary op l r).inParens op = false := by
      simp [inParens, operator?, connective]
    simp only [line, bare, Line.within_false, Line.join_join]

/-- A phrase tested for NULL, once for each of some tests. -/
def tested (p : Phrase) (tests : List Bool) : Phrase := tests.foldl nullCheck p

end Phrase

mutual

/-- What an operand says. -/
def Operand.phrase : Operand → Phrase
  | .bare atom tests => (Phrase.leaf atom).tested tests
  | .enclosed true line tests => (Phrase.not line.phrase).tested tests
  | .enclosed false line tests => line.phrase.tested tests

/-- What a line says: the connectives bind weaker than the other operators and group to the
right. -/
def Line.phrase : Line → Phrase
  | .last operand => operand.phrase
  | .more operand op (.last last) => .binary op operand.phrase last.phrase
  | .more operand op (.more next op' rest) =>
    if op.isConnective then .binary op operand.phrase (Line.phrase (.more next op' rest))
    else .binary op' (.binary op operand.phrase next.phrase) rest.phrase

end

namespace Line

/-- Links of one connective, each a single operand or two with another operator between them. -/
inductive Chain (op : BinaryOp) : Line → Prop
  | single (operand : Operand) : Chain op (last operand)
  | pair {inner : BinaryOp} (weak : inner.isConnective = false) (left right : Operand) :
      Chain op (more left inner (last right))
  | singleThen (operand : Operand) {rest : Line} : Chain op rest → Chain op (more operand op rest)
  | pairThen {inner : BinaryOp} (weak : inner.isConnective = false) (left right : Operand)
      {rest : Line} : Chain op rest → Chain op (more left inner (more right op rest))

variable {op : BinaryOp} {a b : Line}

theorem Chain.join (chain : Chain op a) (chain' : Chain op b) : Chain op (a.join op b) := by
  induction chain with
  | single operand => exact .singleThen operand chain'
  | pair weak left right => exact .pairThen weak left right chain'
  | singleThen operand _ ih => exact .singleThen operand ih
  | pairThen weak left right _ ih => exact .pairThen weak left right ih

theorem phrase_more (connective : op.isConnective = true) (operand : Operand) (line : Line) :
    (more operand op line).phrase = .binary op operand.phrase line.phrase := by
  cases line with
  | last => simp only [phrase]
  | more => rw [phrase, if_pos connective]

theorem phrase_more_more {inner : BinaryOp} (weak : inner.isConnective = false)
    (left right : Operand) (op : BinaryOp) (line : Line) :
    (more left inner (more right op line)).phrase =
      .binary op (.binary inner left.phrase right.phrase) line.phrase := by
  rw [phrase, if_neg (by simp [weak])]

open Phrase in
/-- Joining a chain with a line says the connective between the two, up to grouping. -/
theorem Chain.phrase_join (connective : op.isConnective = true) (chain : Chain op a) (b : Line) :
    Regrouped (a.join op b).phrase (.binary op a.phrase b.phrase) := by
  induction chain with
  | single operand =>
    rw [Line.join, phrase_more connective, phrase]
    exact .refl _
  | pair weak left right =>
    simp only [Line.join, phrase_more_more weak, phrase]
    exact .refl _
  | singleThen operand _ ih =>
    simp only [Line.join, phrase_more connective]
    exact (Regrouped.binary op (.refl _) ih).trans (.symm (.chain connective _ _ _))
  | pairThen weak left right _ ih =>
    simp only [Line.join, phrase_more_more weak]
    exact (Regrouped.binary op (.refl _) ih).trans (.symm (.chain connective _ _ _))

@[simp] theorem phrase_within (parens : Bool) (line : Line) :
    (within parens line).phrase = line.phrase := by
  cases parens with
  | true => simp [phrase, Operand.phrase, Phrase.tested]
  | false => rfl

end Line

@[simp] theorem Operand.phrase_withTest (operand : Operand) (negated : Bool) :
    (operand.withTest negated).phrase = .nullCheck operand.phrase negated := by
  cases operand with
  | bare => simp [withTest, phrase, Phrase.tested]
  | enclosed not => cases not <;> simp [withTest, phrase, Phrase.tested]

namespace Phrase

variable {p q : Phrase} {op : BinaryOp}

/-- What has no operator of its own is written as one operand. -/
theorem exists_line_eq_last (single : p.operator? = none) (tests : p.testsSingly = true) :
    ∃ operand, p.line = .last operand := by
  induction p with
  | leaf | not => exact ⟨_, rfl⟩
  | nullCheck operand negated ih =>
    simp only [testsSingly, Bool.and_eq_true, Option.isNone_iff_eq_none] at tests
    obtain ⟨inner, line⟩ := ih tests.1 tests.2
    exact ⟨inner.withTest negated, by rw [Phrase.line, line, Line.withTest]⟩
  | binary => cases single

/-- Below an operator that is no connective each side is one operand. -/
theorem exists_within_eq_last (weak : op.isConnective = false) (tests : p.testsSingly = true) :
    ∃ operand, Line.within (p.inParens op) p.line = .last operand := by
  cases operator : p.operator? with
  | some inner => exact ⟨.enclosed false p.line [], by simp [inParens, operator, weak]⟩
  | none =>
    obtain ⟨operand, line⟩ := exists_line_eq_last operator tests
    exact ⟨operand, by simp [inParens, operator, line]⟩

/-- Below a connective each side is a chain of it. -/
theorem chain_within (connective : op.isConnective = true) (tests : p.testsSingly = true) :
    Line.Chain op (Line.within (p.inParens op) p.line) := by
  have chain_single {p : Phrase} (single : p.operator? = none) (tests : p.testsSingly = true) :
      Line.Chain op (Line.within (p.inParens op) p.line) := by
    obtain ⟨operand, line⟩ := exists_line_eq_last single tests
    simp only [inParens, single, line, Line.within_false]
    exact .single operand
  induction p with
  | leaf | not | nullCheck => exact chain_single rfl tests
  | binary inner left right ihLeft ihRight =>
    simp only [testsSingly, Bool.and_eq_true] at tests
    by_cases strong : inner.isConnective
    · by_cases same : inner = op
      · subst same
        simp only [inParens, operator?, connective, if_true, bne_self_eq_false, Bool.and_false,
          Line.within_false]
        exact (ihLeft tests.1).join (ihRight tests.2)
      · simp only [inParens, operator?, connective, strong, if_true, Bool.true_and,
          bne_iff_ne.mpr same, Line.within_true]
        exact .single _
    · have weak : inner.isConnective = false := by simpa using strong
      obtain ⟨l, leftLine⟩ := exists_within_eq_last weak tests.1
      obtain ⟨r, rightLine⟩ := exists_within_eq_last weak tests.2
      have bare : (binary inner left right).inParens op = false := by
        simp [inParens, operator?, connective, weak]
      simp only [bare, Line.within_false, Phrase.line, leftLine, rightLine, Line.join]
      exact .pair weak l r

/-- What is written of a phrase says the phrase, up to grouping. -/
theorem regrouped_line (tests : p.testsSingly = true) : Regrouped p p.line.phrase := by
  induction p with
  | leaf => simp only [line, Line.phrase, Operand.phrase]; exact .refl _
  | not operand ih =>
    simp only [line, Line.phrase, Operand.phrase]
    exact .not (ih tests)
  | nullCheck operand negated ih =>
    simp only [testsSingly, Bool.and_eq_true, Option.isNone_iff_eq_none] at tests
    obtain ⟨inner, single⟩ := exists_line_eq_last tests.1 tests.2
    have said := ih tests.2
    simp only [line, single, Line.withTest, Line.phrase, Operand.phrase_withTest] at said ⊢
    exact .nullCheck negated said
  | binary op left right ihLeft ihRight =>
    simp only [testsSingly, Bool.and_eq_true] at tests
    have sides : Regrouped (.binary op left right) (.binary op
        (Line.within (left.inParens op) left.line).phrase
        (Line.within (right.inParens op) right.line).phrase) := by
      simp only [Line.phrase_within]
      exact .binary op (ihLeft tests.1) (ihRight tests.2)
    refine sides.trans ?_
    by_cases connective : op.isConnective
    · exact ((chain_within connective tests.1).phrase_join connective _).symm
    · have weak : op.isConnective = false := by simpa using connective
      obtain ⟨l, leftLine⟩ := exists_within_eq_last weak tests.1
      obtain ⟨r, rightLine⟩ := exists_within_eq_last weak tests.2
      simp only [line, leftLine, rightLine, Line.join, Line.phrase]
      exact .refl _

/-- Two phrases make the same line exactly if they differ in grouping only. -/
theorem line_eq_iff_regrouped (tests : p.testsSingly = true) (tests' : q.testsSingly = true) :
    p.line = q.line ↔ Regrouped p q := by
  constructor
  · intro same
    have said := regrouped_line tests
    rw [same] at said
    exact said.trans (regrouped_line tests').symm
  · exact Regrouped.line_eq

end Phrase

end RangeQuery
