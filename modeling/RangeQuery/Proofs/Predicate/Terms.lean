import RangeQuery.Proofs.Graph.References
import RangeQuery.Proofs.Predicate.Conjunctions

/-!
What the expressions of a filter mean. A term is an expression over columns, literals, operators,
tests for NULL and choices, without a function over rows; it has a value in each row, and a filter
that spells a term lets the rows pass for which the value is true.
-/

namespace RangeQuery

/-! ## Values -/

/-- What an expression can be in a row: NULL, a truth value, or some other datum. -/
inductive Value (α : Type) where
  | null
  | bool (value : Bool)
  | datum (value : α)
deriving DecidableEq

/-- How literals are read, which data count as true, and what an operator makes of two values that
are not NULL. -/
structure Reading (α : Type) where
  number : String → α
  string : String → α
  holds : α → Bool
  apply : BinaryOp → Value α → Value α → Value α

namespace Value

variable {α : Type}

/-- Whether a value is NULL. -/
def isNull : Value α → Bool
  | .null => true
  | _ => false

/-- The value of a truth; what is not known is NULL. -/
def ofTruth : Truth → Value α
  | .yes => .bool true
  | .no => .bool false
  | .unknown => .null

/-- The truth of a value; of NULL it is not known. -/
def truth (reading : Reading α) : Value α → Truth
  | .null => .unknown
  | .bool value => if value then .yes else .no
  | .datum value => if reading.holds value then .yes else .no

@[simp] theorem truth_ofTruth (reading : Reading α) (t : Truth) :
    (ofTruth t).truth reading = t := by cases t <;> rfl

/-- An operator over two values, NULL if one of them is. -/
def combine (reading : Reading α) (op : BinaryOp) : Value α → Value α → Value α
  | .null, _ | _, .null => .null
  | left, right => reading.apply op left right

@[simp] theorem combine_null_left (reading : Reading α) (op : BinaryOp) (right : Value α) :
    combine reading op .null right = .null := rfl

@[simp] theorem combine_null_right (reading : Reading α) (op : BinaryOp) (left : Value α) :
    combine reading op left .null = .null := by cases left <;> rfl

end Value

/-! ## Terms -/

/-- An expression without a function over rows. A choice without an alternative has NULL for one. -/
inductive Term where
  | column (i : Identifier)
  | number (text : String)
  | string (text : String)
  | bool (value : Bool)
  | null
  | binary (op : BinaryOp) (left right : Term)
  | not (operand : Term)
  | nullCheck (operand : Term) (negated : Bool)
  | choose (condition result otherwise : Term)
deriving DecidableEq

namespace Term

variable {α : Type}

/-- The value of a term in a row. The connectives follow three-valued logic, the other operators
are NULL over NULL, and a test for NULL always has an answer. -/
def eval (reading : Reading α) (row : Identifier → Value α) : Term → Value α
  | .column i => row i
  | .number text => .datum (reading.number text)
  | .string text => .datum (reading.string text)
  | .bool value => .bool value
  | .null => .null
  | .binary .and left right =>
    .ofTruth (((left.eval reading row).truth reading).and ((right.eval reading row).truth reading))
  | .binary .or left right =>
    .ofTruth (((left.eval reading row).truth reading).or ((right.eval reading row).truth reading))
  | .binary op left right =>
    .combine reading op (left.eval reading row) (right.eval reading row)
  | .not operand => .ofTruth ((operand.eval reading row).truth reading).not
  | .nullCheck operand negated => .bool ((operand.eval reading row).isNull != negated)
  | .choose condition result otherwise =>
    if (condition.eval reading row).truth reading = .yes then result.eval reading row
    else otherwise.eval reading row

/-- The truth of a term in a row. -/
def truth (reading : Reading α) (row : Identifier → Value α) (term : Term) : Truth :=
  (term.eval reading row).truth reading

variable (reading : Reading α) (row : Identifier → Value α)

theorem truth_and (left right : Term) : (Term.binary .and left right).truth reading row =
    (left.truth reading row).and (right.truth reading row) := by
  simp only [truth, eval, Value.truth_ofTruth]

theorem eval_binary {op : BinaryOp} (plain : op.isConnective = false) (left right : Term) :
    (Term.binary op left right).eval reading row =
      .combine reading op (left.eval reading row) (right.eval reading row) := by
  cases op <;> first | rfl | cases plain

end Term

namespace Graph

variable {g : Graph}

/-- A node and all below it spell a term. -/
inductive Spells (g : Graph) : NodeId → Term → Prop
  | column {id : NodeId} {i : Identifier} : g.node id = .identifier i → Spells g id (.column i)
  | number {id : NodeId} {text : String} : g.node id = .number text → Spells g id (.number text)
  | string {id : NodeId} {text : String} : g.node id = .string text → Spells g id (.string text)
  | bool {id : NodeId} {value : Bool} : g.node id = .bool value → Spells g id (.bool value)
  | null {id : NodeId} : g.node id = .null → g.Has id → Spells g id .null
  | binary {id left right : NodeId} {op : BinaryOp} {l r : Term} :
      g.node id = .binary op left right → Spells g left l → Spells g right r →
      Spells g id (.binary op l r)
  | not {id operand : NodeId} {t : Term} :
      g.node id = .not operand → Spells g operand t → Spells g id (.not t)
  | nullCheck {id operand : NodeId} {negated : Bool} {t : Term} :
      g.node id = .nullCheck operand negated → Spells g operand t →
      Spells g id (.nullCheck t negated)
  | choose {id condition result : NodeId} {c r : Term} :
      g.node id = .caseWhen { condition, result, otherwise := none } →
      Spells g condition c → Spells g result r → Spells g id (.choose c r .null)
  | chooseOr {id condition result otherwise : NodeId} {c r o : Term} :
      g.node id = .caseWhen { condition, result, otherwise := some otherwise } →
      Spells g condition c → Spells g result r → Spells g otherwise o →
      Spells g id (.choose c r o)

namespace Spells

variable {id : NodeId} {term other : Term}

theorem has (s : g.Spells id term) : g.Has id := by
  cases s <;> first | assumption | exact has_of_node (by assumption) (by simp)

/-- What a node owns spells a part of its term. -/
theorem child (s : g.Spells id term) {child : NodeId} (slot : child ∈ g.children id) :
    ∃ part, g.Spells child part ∧ sizeOf part < sizeOf term := by
  cases s with
  | @binary _ first second _ _ _ node left right =>
    have taken : child = first ∨ child = second := by
      simpa [children, node, Node.children] using slot
    rcases taken with rfl | rfl
    · exact ⟨_, left, by simp only [Term.binary.sizeOf_spec]; omega⟩
    · exact ⟨_, right, by simp only [Term.binary.sizeOf_spec]; omega⟩
  | @not _ first _ node operand =>
    obtain rfl : child = first := by simpa [children, node, Node.children] using slot
    exact ⟨_, operand, by simp only [Term.not.sizeOf_spec]; omega⟩
  | @nullCheck _ first _ _ node operand =>
    obtain rfl : child = first := by simpa [children, node, Node.children] using slot
    exact ⟨_, operand, by simp only [Term.nullCheck.sizeOf_spec]; omega⟩
  | @choose _ first second _ _ node condition result =>
    have taken : child = first ∨ child = second := by
      simpa [children, node, Node.children] using slot
    rcases taken with rfl | rfl
    · exact ⟨_, condition, by simp only [Term.choose.sizeOf_spec]; omega⟩
    · exact ⟨_, result, by simp only [Term.choose.sizeOf_spec]; omega⟩
  | @chooseOr _ first second third _ _ _ node condition result otherwise =>
    have taken : child = first ∨ child = second ∨ child = third := by
      simpa [children, node, Node.children] using slot
    rcases taken with rfl | rfl | rfl
    · exact ⟨_, condition, by simp only [Term.choose.sizeOf_spec]; omega⟩
    · exact ⟨_, result, by simp only [Term.choose.sizeOf_spec]; omega⟩
    · exact ⟨_, otherwise, by simp only [Term.choose.sizeOf_spec]; omega⟩
  | _ node => simp [children, node, Node.children] at slot

/-- What is reached from a node spells no larger term. -/
theorem lower (s : g.Spells id term) {other : NodeId} (below : g.Below id other) :
    ∃ part, g.Spells other part ∧ sizeOf part ≤ sizeOf term := by
  refine below.induction ⟨term, s, Nat.le_refl _⟩ fun owner child _ ih slot => ?_
  obtain ⟨part, spells, small⟩ := ih
  obtain ⟨part', spells', small'⟩ := spells.child slot
  exact ⟨part', spells', Nat.le_of_lt (Nat.lt_of_lt_of_le small' small)⟩

/-- A node spells one term. -/
theorem unique (s : g.Spells id term) (s' : g.Spells id other) : term = other := by
  induction s generalizing other with
  | binary node _ _ left right =>
    cases s' with
    | binary node' l r =>
      obtain ⟨rfl, rfl, rfl⟩ := Node.binary.inj (node.symm.trans node')
      rw [left l, right r]
    | _ node' => cases node.symm.trans node'
  | not node _ operand =>
    cases s' with
    | not node' t =>
      obtain rfl := Node.not.inj (node.symm.trans node')
      rw [operand t]
    | _ node' => cases node.symm.trans node'
  | nullCheck node _ operand =>
    cases s' with
    | nullCheck node' t =>
      obtain ⟨rfl, rfl⟩ := Node.nullCheck.inj (node.symm.trans node')
      rw [operand t]
    | _ node' => cases node.symm.trans node'
  | choose node _ _ condition result =>
    cases s' with
    | choose node' c r =>
      cases node.symm.trans node'
      rw [condition c, result r]
    | _ node' => cases node.symm.trans node'
  | chooseOr node _ _ _ condition result otherwise =>
    cases s' with
    | chooseOr node' c r o =>
      cases node.symm.trans node'
      rw [condition c, result r, otherwise o]
    | _ node' => cases node.symm.trans node'
  | _ node =>
    cases s' with
    | _ node' => cases node.symm.trans node' <;> rfl

/-- A node that spells a term is free of circles. -/
theorem acyclic (s : g.Spells id term) : g.Acyclic id where
  grounded lower below := by
    obtain ⟨part, spells, -⟩ := s.lower below
    exact spells.has
  no_return {owner child} above slot again := by
    obtain ⟨whole, spells, -⟩ := s.lower above
    obtain ⟨part, spells', small⟩ := spells.child slot
    obtain ⟨whole', spells'', small'⟩ := spells'.lower again
    rw [spells.unique spells''] at small
    omega

end Spells

end Graph

/-- A node that a term can have: no function over rows, no subquery, no part of a scope. -/
def Node.isPlain : Node → Bool
  | .identifier _ | .number _ | .string _ | .bool _ | .null | .binary _ _ _ | .not _
  | .nullCheck _ _ | .caseWhen _ => true
  | _ => false

namespace Graph

variable {g : Graph}

/-- Where all nodes are plain and there are no circles, a term is spelled. -/
theorem Acyclic.exists_spells {root : NodeId} (a : g.Acyclic root)
    (plain : ∀ id, g.Below root id → (g.node id).isPlain = true) : ∃ term, g.Spells root term := by
  refine a.induction fun id below ih => ?_
  have kind := plain id below
  cases node : g.node id with
  | identifier i => exact ⟨_, .column node⟩
  | number text => exact ⟨_, .number node⟩
  | string text => exact ⟨_, .string node⟩
  | bool value => exact ⟨_, .bool node⟩
  | null => exact ⟨_, .null node (a.below below).has⟩
  | binary op left right =>
    obtain ⟨l, spellsLeft⟩ := ih left (by simp [children, node, Node.children])
    obtain ⟨r, spellsRight⟩ := ih right (by simp [children, node, Node.children])
    exact ⟨_, .binary node spellsLeft spellsRight⟩
  | not operand =>
    obtain ⟨t, spells⟩ := ih operand (by simp [children, node, Node.children])
    exact ⟨_, .not node spells⟩
  | nullCheck operand negated =>
    obtain ⟨t, spells⟩ := ih operand (by simp [children, node, Node.children])
    exact ⟨_, .nullCheck node spells⟩
  | caseWhen c =>
    obtain ⟨condition, result, otherwise⟩ := c
    obtain ⟨first, spellsFirst⟩ := ih condition (by simp [children, node, Node.children])
    obtain ⟨second, spellsSecond⟩ := ih result (by simp [children, node, Node.children])
    cases otherwise with
    | none => exact ⟨_, .choose node spellsFirst spellsSecond⟩
    | some otherwise =>
      obtain ⟨third, spellsThird⟩ := ih otherwise (by simp [children, node, Node.children])
      exact ⟨_, .chooseOr node spellsFirst spellsSecond spellsThird⟩
  | _ => simp [node, Node.isPlain] at kind

end Graph

end RangeQuery
