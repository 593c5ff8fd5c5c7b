import RangeQuery.Proofs.Predicate.Terms

/-!
Expressions over columns and numbers. A phrase is such an expression, in which a range counts by its
name; two phrases that differ in the grouping of a chain of one connective only are written alike.
-/

namespace RangeQuery

/-- What is written without operators: a column of a named range, or a number. -/
inductive Atom where
  | column (range : String) (path : List String)
  | number (digits : String)
deriving DecidableEq

/-- An expression over columns and numbers. -/
inductive Phrase where
  | leaf (atom : Atom)
  | not (operand : Phrase)
  | nullCheck (operand : Phrase) (negated : Bool)
  | binary (op : BinaryOp) (left right : Phrase)
deriving DecidableEq

/-- A word can be read to its end: it has none of the marks that stand around words. -/
def isWord (text : String) : Bool :=
  !text.toList.isEmpty && text.toList.all fun c => !(c == ' ' || c == '.' || c == '(' || c == ')')

/-- A number written as digits. -/
def isNumeral (text : String) : Bool := !text.toList.isEmpty && text.toList.all Char.isDigit

/-- A column is named by words, of which the first is no number; a number is written as digits. -/
def Atom.isPlain : Atom → Bool
  | .column range path => isWord range && !isNumeral range && path.all isWord
  | .number digits => isNumeral digits

namespace Phrase

/-- All columns and numbers are plain. -/
def isPlain : Phrase → Bool
  | .leaf atom => atom.isPlain
  | .not operand | .nullCheck operand _ => operand.isPlain
  | .binary _ left right => left.isPlain && right.isPlain

/-- The operator that joins the whole phrase. -/
def operator? : Phrase → Option BinaryOp
  | .binary op _ _ => some op
  | _ => none

/-- No test for NULL is made of two operands with an operator between them. -/
def testsSingly : Phrase → Bool
  | .leaf _ => true
  | .not operand => operand.testsSingly
  | .nullCheck operand _ => operand.operator?.isNone && operand.testsSingly
  | .binary _ left right => left.testsSingly && right.testsSingly

/-- The same phrase but for the grouping of chains of one connective. -/
inductive Regrouped : Phrase → Phrase → Prop
  | refl (p : Phrase) : Regrouped p p
  | symm {p q : Phrase} : Regrouped p q → Regrouped q p
  | trans {p q r : Phrase} : Regrouped p q → Regrouped q r → Regrouped p r
  | not {p q : Phrase} : Regrouped p q → Regrouped (.not p) (.not q)
  | nullCheck {p q : Phrase} (negated : Bool) :
      Regrouped p q → Regrouped (.nullCheck p negated) (.nullCheck q negated)
  | binary {left left' right right' : Phrase} (op : BinaryOp) :
      Regrouped left left' → Regrouped right right' →
      Regrouped (.binary op left right) (.binary op left' right')
  | chain {op : BinaryOp} (connective : op.isConnective = true) (a b c : Phrase) :
      Regrouped (.binary op (.binary op a b) c) (.binary op a (.binary op b c))

/-- Regrouping keeps the operator of the whole. -/
theorem Regrouped.operator?_eq {p q : Phrase} (same : Regrouped p q) :
    p.operator? = q.operator? := by
  induction same with
  | refl | not | nullCheck | binary | chain => rfl
  | symm _ ih => exact ih.symm
  | trans _ _ ih ih' => exact ih.trans ih'

end Phrase

namespace Graph

variable {g : Graph} {id : NodeId} {p : Phrase}

/-- A node and all below it are a phrase; the ranges of its columns stand under their names. -/
inductive Phrases (g : Graph) : NodeId → Phrase → Prop
  | column {id : NodeId} {i : Identifier} :
      g.node id = .identifier i → Phrases g id (.leaf (.column (g.rangeName i.range) i.path))
  | number {id : NodeId} {digits : String} :
      g.node id = .number digits → Phrases g id (.leaf (.number digits))
  | not {id operand : NodeId} {p : Phrase} :
      g.node id = .not operand → Phrases g operand p → Phrases g id (.not p)
  | nullCheck {id operand : NodeId} {negated : Bool} {p : Phrase} :
      g.node id = .nullCheck operand negated → Phrases g operand p →
      Phrases g id (.nullCheck p negated)
  | binary {id left right : NodeId} {op : BinaryOp} {l r : Phrase} :
      g.node id = .binary op left right → Phrases g left l → Phrases g right r →
      Phrases g id (.binary op l r)

/-- A phrase spells a term, so there are no circles below it. -/
theorem Phrases.acyclic (phrases : g.Phrases id p) : g.Acyclic id := by
  have spells : ∃ term, g.Spells id term := by
    induction phrases with
    | column node => exact ⟨_, .column node⟩
    | number node => exact ⟨_, .number node⟩
    | not node _ ih =>
      obtain ⟨term, spells⟩ := ih
      exact ⟨_, .not node spells⟩
    | nullCheck node _ ih =>
      obtain ⟨term, spells⟩ := ih
      exact ⟨_, .nullCheck node spells⟩
    | binary node _ _ ihLeft ihRight =>
      obtain ⟨left, spellsLeft⟩ := ihLeft
      obtain ⟨right, spellsRight⟩ := ihRight
      exact ⟨_, .binary node spellsLeft spellsRight⟩
  obtain ⟨term, spells⟩ := spells
  exact spells.acyclic

end Graph

end RangeQuery
