import Mathlib.Data.Option.Basic
import RangeQuery.Proofs.Predicate.Terms
import RangeQuery.Proofs.Scope.ConditionalAggregates

/-!
What the retrieved values of a scope mean over some rows. A formula is an expression over leaves, which
are nodes of other kinds and can mean anything. Of an aggregate, the operand and the condition are
formulas over one row; a value is a formula over many rows, with aggregates among its leaves.
-/

namespace RangeQuery

variable {α ρ : Type}

/-- An operator over two values. The connectives follow three-valued logic, the other operators are
NULL over NULL. -/
def Value.operate (reading : Reading α) : BinaryOp → Value α → Value α → Value α
  | .and, left, right => .ofTruth ((left.truth reading).and (right.truth reading))
  | .or, left, right => .ofTruth ((left.truth reading).or (right.truth reading))
  | op, left, right => .combine reading op left right

/-- An expression over leaves. A choice without an alternative has NULL for one. -/
inductive Formula where
  | leaf (id : NodeId)
  | null
  | binary (op : BinaryOp) (left right : Formula)
  | not (operand : Formula)
  | nullCheck (operand : Formula) (negated : Bool)
  | choose (condition result otherwise : Formula)
deriving DecidableEq

namespace Formula

/-- The value of a formula, given those of the leaves. -/
def eval (reading : Reading α) (leaf : NodeId → Value α) : Formula → Value α
  | .leaf id => leaf id
  | .null => .null
  | .binary op left right => .operate reading op (left.eval reading leaf) (right.eval reading leaf)
  | .not operand => .ofTruth ((operand.eval reading leaf).truth reading).not
  | .nullCheck operand negated => .bool ((operand.eval reading leaf).isNull != negated)
  | .choose condition result otherwise =>
    if (condition.eval reading leaf).truth reading = .yes then result.eval reading leaf
    else otherwise.eval reading leaf

/-- The leaves of a formula, from left to right. -/
def leaves : Formula → List NodeId
  | .leaf id => [id]
  | .null => []
  | .binary _ left right => left.leaves ++ right.leaves
  | .not operand | .nullCheck operand _ => operand.leaves
  | .choose condition result otherwise => condition.leaves ++ result.leaves ++ otherwise.leaves

/-- The value of a formula depends on its leaves only. -/
theorem eval_congr {reading : Reading α} {leaf leaf' : NodeId → Value α} {f : Formula}
    (same : ∀ id ∈ f.leaves, leaf' id = leaf id) : f.eval reading leaf' = f.eval reading leaf := by
  induction f with
  | leaf id => exact same id (by simp [leaves])
  | null => rfl
  | binary op left right ihLeft ihRight =>
    simp only [leaves, List.mem_append] at same
    simp only [eval, ihLeft fun id mem => same id (.inl mem), ihRight fun id mem => same id (.inr mem)]
  | not operand ih => simp only [eval, ih same]
  | nullCheck operand negated ih => simp only [eval, ih same]
  | choose condition result otherwise ihCondition ihResult ihOtherwise =>
    simp only [leaves, List.mem_append] at same
    simp only [eval, ihCondition fun id mem => same id (.inl (.inl mem)),
      ihResult fun id mem => same id (.inl (.inr mem)), ihOtherwise fun id mem => same id (.inr mem)]

end Formula

/-- A node that a formula is composed of; any other node is a leaf. The name of a value adds nothing
to it. -/
def Node.isComposite : Node → Bool
  | .binary _ _ _ | .not _ | .nullCheck _ _ | .caseWhen _ | .projection _ | .null => true
  | _ => false

/-- An aggregate. -/
def Node.isAggregate : Node → Bool
  | .aggregate _ => true
  | _ => false

theorem Node.exists_of_isAggregate {node : Node} (h : node.isAggregate = true) :
    ∃ a, node = .aggregate a := by
  cases node <;> first | exact ⟨_, rfl⟩ | cases h

namespace Graph

variable {g h : Graph} {root scope id value : NodeId} {f f' : Formula}

/-- A node composes a formula from leaves below it. -/
inductive Composes (g : Graph) : NodeId → Formula → Prop
  | leaf {id : NodeId} : (g.node id).isComposite = false → Composes g id (.leaf id)
  | null {id : NodeId} : g.node id = .null → g.Has id → Composes g id .null
  | binary {id left right : NodeId} {op : BinaryOp} {l r : Formula} :
      g.node id = .binary op left right → Composes g left l → Composes g right r →
      Composes g id (.binary op l r)
  | not {id operand : NodeId} {f : Formula} :
      g.node id = .not operand → Composes g operand f → Composes g id (.not f)
  | nullCheck {id operand : NodeId} {negated : Bool} {f : Formula} :
      g.node id = .nullCheck operand negated → Composes g operand f →
      Composes g id (.nullCheck f negated)
  | choose {id condition result : NodeId} {c r : Formula} :
      g.node id = .caseWhen { condition, result, otherwise := none } →
      Composes g condition c → Composes g result r → Composes g id (.choose c r .null)
  | chooseOr {id condition result otherwise : NodeId} {c r o : Formula} :
      g.node id = .caseWhen { condition, result, otherwise := some otherwise } →
      Composes g condition c → Composes g result r → Composes g otherwise o →
      Composes g id (.choose c r o)
  | projection {id : NodeId} {p : Projection} {f : Formula} :
      g.node id = .projection p → Composes g p.expression f → Composes g id f

namespace Composes

/-- A leaf is no node that composes formulas. -/
theorem isComposite_of_mem_leaves (c : g.Composes root f) (mem : id ∈ f.leaves) :
    (g.node id).isComposite = false := by
  induction c with
  | leaf other => exact List.mem_singleton.mp mem ▸ other
  | null => simp [Formula.leaves] at mem
  | binary _ _ _ ihLeft ihRight => exact (List.mem_append.mp mem).elim ihLeft ihRight
  | not _ _ ih | nullCheck _ _ ih => exact ih mem
  | choose _ _ _ ihCondition ihResult =>
    simp only [Formula.leaves, List.append_nil, List.mem_append] at mem
    exact mem.elim ihCondition ihResult
  | chooseOr _ _ _ _ ihCondition ihResult ihOtherwise =>
    simp only [Formula.leaves, List.mem_append] at mem
    exact mem.elim (Or.elim · ihCondition ihResult) ihOtherwise
  | projection _ _ ih => exact ih mem

theorem has_of_mem_leaves (c : g.Composes root f) (mem : id ∈ f.leaves) : g.Has id := by
  have other := c.isComposite_of_mem_leaves mem
  by_contra absent
  rw [node_of_not_has absent] at other
  cases other

/-- A node composes one formula. -/
theorem unique (c : g.Composes id f) (c' : g.Composes id f') : f = f' := by
  induction c generalizing f' with
  | leaf other =>
    cases c' with
    | leaf => rfl
    | _ node => simp [node, Node.isComposite] at other
  | null node _ =>
    cases c' with
    | null => rfl
    | leaf other => simp [node, Node.isComposite] at other
    | _ node' => cases node.symm.trans node'
  | binary node _ _ ihLeft ihRight =>
    cases c' with
    | binary node' l r =>
      obtain ⟨rfl, rfl, rfl⟩ := Node.binary.inj (node.symm.trans node')
      rw [ihLeft l, ihRight r]
    | leaf other => simp [node, Node.isComposite] at other
    | _ node' => cases node.symm.trans node'
  | not node _ ih =>
    cases c' with
    | not node' c =>
      obtain rfl := Node.not.inj (node.symm.trans node')
      rw [ih c]
    | leaf other => simp [node, Node.isComposite] at other
    | _ node' => cases node.symm.trans node'
  | nullCheck node _ ih =>
    cases c' with
    | nullCheck node' c =>
      obtain ⟨rfl, rfl⟩ := Node.nullCheck.inj (node.symm.trans node')
      rw [ih c]
    | leaf other => simp [node, Node.isComposite] at other
    | _ node' => cases node.symm.trans node'
  | choose node _ _ ihCondition ihResult =>
    cases c' with
    | choose node' c r =>
      cases node.symm.trans node'
      rw [ihCondition c, ihResult r]
    | leaf other => simp [node, Node.isComposite] at other
    | _ node' => cases node.symm.trans node'
  | chooseOr node _ _ _ ihCondition ihResult ihOtherwise =>
    cases c' with
    | chooseOr node' c r o =>
      cases node.symm.trans node'
      rw [ihCondition c, ihResult r, ihOtherwise o]
    | leaf other => simp [node, Node.isComposite] at other
    | _ node' => cases node.symm.trans node'
  | projection node _ ih =>
    cases c' with
    | projection node' c =>
      obtain rfl := Node.projection.inj (node.symm.trans node')
      exact ih c
    | leaf other => simp [node, Node.isComposite] at other
    | _ node' => cases node.symm.trans node'

end Composes

/-- A node without circles below composes a formula. -/
theorem Acyclic.exists_composes (a : g.Acyclic root) : ∃ f, g.Composes root f := by
  refine a.induction fun id below ih => ?_
  cases node : g.node id with
  | binary op left right =>
    obtain ⟨l, ofLeft⟩ := ih left (by simp [children, node, Node.children])
    obtain ⟨r, ofRight⟩ := ih right (by simp [children, node, Node.children])
    exact ⟨_, .binary node ofLeft ofRight⟩
  | not operand =>
    obtain ⟨f, inner⟩ := ih operand (by simp [children, node, Node.children])
    exact ⟨_, .not node inner⟩
  | nullCheck operand negated =>
    obtain ⟨f, inner⟩ := ih operand (by simp [children, node, Node.children])
    exact ⟨_, .nullCheck node inner⟩
  | caseWhen c =>
    obtain ⟨condition, result, otherwise⟩ := c
    obtain ⟨c, ofCondition⟩ := ih condition (by simp [children, node, Node.children])
    obtain ⟨r, ofResult⟩ := ih result (by simp [children, node, Node.children])
    cases otherwise with
    | none => exact ⟨_, .choose node ofCondition ofResult⟩
    | some otherwise =>
      obtain ⟨o, ofOtherwise⟩ := ih otherwise (by simp [children, node, Node.children])
      exact ⟨_, .chooseOr node ofCondition ofResult ofOtherwise⟩
  | projection p =>
    obtain ⟨f, inner⟩ := ih p.expression (by simp [children, node, Node.children])
    exact ⟨_, .projection node inner⟩
  | null => exact ⟨_, .null node (a.below below).has⟩
  | _ => exact ⟨_, .leaf (by rw [node]; rfl)⟩

end Graph

/-! ## Optional nodes -/

section

variable {β γ : Type} {rel rel' : β → γ → Prop} {slot : Option β} {c c' : Option γ}

theorem optionRel_unique (unique : ∀ b c c', rel b c → rel b c' → c = c')
    (first : Option.Rel rel slot c) (second : Option.Rel rel slot c') : c = c' := by
  cases first with
  | none => cases second; rfl
  | some held => cases second with | some held' => rw [unique _ _ _ held held']

theorem optionRel_map (map : ∀ b c, rel b c → rel' b c) (held : Option.Rel rel slot c) :
    Option.Rel rel' slot c := by
  cases held with
  | none => exact .none
  | some held => exact .some (map _ _ held)

theorem exists_optionRel (each : ∀ b ∈ slot, ∃ c, rel b c) : ∃ c, Option.Rel rel slot c := by
  cases slot with
  | none => exact ⟨none, .none⟩
  | some b =>
    obtain ⟨c, held⟩ := each b rfl
    exact ⟨some c, .some held⟩

end

/-! ## Values over rows -/

/-- What leaves and functions mean: a leaf has a value in each row, and one over some rows where it is
no part of an aggregate; a function has one for values that are not NULL. -/
structure Meaning (ρ α : Type) where
  reading : Reading α
  cell : NodeId → ρ → Value α
  common : NodeId → List ρ → Value α
  total : AggregateFn → List (Value α) → Value α

namespace Meaning

variable (m : Meaning ρ α)

/-- The value of a formula in a row. -/
def inRow (f : Formula) (row : ρ) : Value α := f.eval m.reading (m.cell · row)

/-- Whether a condition is true in a row; where there is none, every row passes. -/
def passes (condition : Option Formula) (row : ρ) : Bool :=
  condition.all fun f => decide ((m.inRow f row).truth m.reading = .yes)

/-- A function of the values of an operand in some rows, where they are not NULL. -/
def totalOf (function : AggregateFn) (operand : Formula) (rows : List ρ) : Value α :=
  m.total function ((rows.map (m.inRow operand)).filter fun value => !value.isNull)

@[simp] theorem filter_passes_none (rows : List ρ) : rows.filter (m.passes none) = rows :=
  List.filter_eq_self.mpr fun _ _ => rfl

/-- To choose NULL where a condition is not true is to leave these rows out. -/
theorem totalOf_choose (function : AggregateFn) (condition operand : Formula) (rows : List ρ) :
    m.totalOf function (.choose condition operand .null) rows =
      m.totalOf function operand (rows.filter (m.passes (some condition))) := by
  have chosen : ∀ row, m.inRow (.choose condition operand .null) row =
      if m.passes (some condition) row then m.inRow operand row else .null := by
    intro row
    by_cases holds : (m.inRow condition row).truth m.reading = .yes <;>
      simp_all [inRow, passes, Formula.eval]
  unfold totalOf
  congr 1
  induction rows with
  | nil => rfl
  | cons row rest ih =>
    rw [List.map_cons, List.filter_cons, ih, chosen, List.filter_cons]
    cases m.passes (some condition) row <;> simp [Value.isNull, List.filter_cons]

end Meaning

namespace Graph

variable {g h k : Graph} {m : Meaning ρ α} {rows : List ρ} {scope id value : NodeId} {f : Formula}
  {v v' : Value α}

/-- A formula over one row, with no aggregate and no subquery among its leaves. -/
def RowFormula (g : Graph) (id : NodeId) (f : Formula) : Prop :=
  g.Composes id f ∧
    ∀ leaf ∈ f.leaves, (g.node leaf).isAggregate = false ∧ (g.node leaf).isSubquery = false

/-- The value of a leaf over some rows. Of an aggregate it is the function of the operand over the rows
where the condition is true. -/
inductive LeafValue (g : Graph) (m : Meaning ρ α) (rows : List ρ) : NodeId → Value α → Prop
  | plain {id : NodeId} : (g.node id).isAggregate = false → LeafValue g m rows id (m.common id rows)
  | aggregate {id : NodeId} {a : Aggregate} {operand : Formula} {condition : Option Formula} :
      g.node id = .aggregate a → a.function ≠ .any → g.RowFormula a.operand operand →
      Option.Rel g.RowFormula a.condition condition →
      LeafValue g m rows id (m.totalOf a.function operand (rows.filter (m.passes condition)))

/-- The value of a node over some rows. -/
def ValueOver (g : Graph) (m : Meaning ρ α) (rows : List ρ) (id : NodeId) (v : Value α) : Prop :=
  ∃ f leaf, g.Composes id f ∧ (∀ part ∈ f.leaves, g.LeafValue m rows part (leaf part)) ∧
    f.eval m.reading leaf = v

/-- The value of a node over those of some rows that pass the filter of a scope. -/
def Retrieves (g : Graph) (m : Meaning ρ α) (rows : List ρ) (scope id : NodeId) (v : Value α) : Prop :=
  ∃ filter, Option.Rel g.Composes (g.scope scope).condition filter ∧
    g.ValueOver m (rows.filter (m.passes filter)) id v

/-- Without a condition the value of an aggregate is over all rows. -/
theorem LeafValue.unconditional {function : AggregateFn} {operand : NodeId}
    (node : g.node id = .aggregate { function, operand, condition := none })
    (notAny : function ≠ .any) (formula : g.RowFormula operand f) :
    g.LeafValue m rows id (m.totalOf function f rows) := by
  have value := @LeafValue.aggregate _ _ g m rows id _ f none node notAny formula .none
  rwa [m.filter_passes_none] at value

theorem LeafValue.unique (first : g.LeafValue m rows id v) (second : g.LeafValue m rows id v') :
    v = v' := by
  cases first with
  | plain other =>
    cases second with
    | plain => rfl
    | aggregate node => simp [node, Node.isAggregate] at other
  | aggregate node _ operand condition =>
    cases second with
    | plain other => simp [node, Node.isAggregate] at other
    | aggregate node' _ operand' condition' =>
      obtain rfl := Node.aggregate.inj (node.symm.trans node')
      rw [operand.1.unique operand'.1,
        optionRel_unique (fun _ _ _ c c' => c.1.unique c'.1) condition condition']

theorem ValueOver.unique (first : g.ValueOver m rows id v) (second : g.ValueOver m rows id v') :
    v = v' := by
  obtain ⟨f, leaf, c, leaves, rfl⟩ := first
  obtain ⟨f', leaf', c', leaves', rfl⟩ := second
  obtain rfl := c.unique c'
  exact Formula.eval_congr fun part mem => (leaves part mem).unique (leaves' part mem)

theorem Retrieves.unique (first : g.Retrieves m rows scope id v)
    (second : g.Retrieves m rows scope id v') : v = v' := by
  obtain ⟨filter, holds, value⟩ := first
  obtain ⟨filter', holds', value'⟩ := second
  obtain rfl := optionRel_unique (fun _ _ _ c c' => c.unique c') holds holds'
  exact value.unique value'

/-! ## Aggregates that have a value -/

/-- The aggregates that a node reaches outside subqueries are no ANY, and there is neither an aggregate
nor a subquery within them. -/
def PlainAggregates (g : Graph) (top : NodeId) : Prop :=
  ∀ id a, g.Outside top id → g.node id = .aggregate a → a.function ≠ .any ∧
    ∀ part ∈ g.children id, ∀ lower, g.Below part lower →
      (g.node lower).isAggregate = false ∧ (g.node lower).isSubquery = false

theorem Composes.outside_of_mem_leaves (c : g.Composes id f) {leaf : NodeId} (mem : leaf ∈ f.leaves) :
    g.Outside id leaf := by
  have step : ∀ {owner child}, child ∈ g.children owner → (g.node owner).isSubquery = false →
      g.Outside child leaf → g.Outside owner leaf := by
    rintro owner child slot enters ⟨trail, way, outside⟩
    refine ⟨trail ++ [owner], (Trail.here.down slot).append way, ?_⟩
    simpa [or_imp, forall_and, enters] using outside
  induction c with
  | leaf other => exact List.mem_singleton.mp mem ▸ .refl g _
  | null => simp [Formula.leaves] at mem
  | @binary owner _ _ _ _ _ node _ _ ihLeft ihRight =>
    have enters : (g.node owner).isSubquery = false := by rw [node]; rfl
    rcases List.mem_append.mp mem with mem | mem
    · exact step (by simp [children, node, Node.children]) enters (ihLeft mem)
    · exact step (by simp [children, node, Node.children]) enters (ihRight mem)
  | not node _ ih | nullCheck node _ ih =>
    exact step (by simp [children, node, Node.children]) (by rw [node]; rfl) (ih mem)
  | @choose owner _ _ _ _ node _ _ ihCondition ihResult =>
    have enters : (g.node owner).isSubquery = false := by rw [node]; rfl
    simp only [Formula.leaves, List.append_nil, List.mem_append] at mem
    rcases mem with mem | mem
    · exact step (by simp [children, node, Node.children]) enters (ihCondition mem)
    · exact step (by simp [children, node, Node.children]) enters (ihResult mem)
  | @chooseOr owner _ _ _ _ _ _ node _ _ _ ihCondition ihResult ihOtherwise =>
    have enters : (g.node owner).isSubquery = false := by rw [node]; rfl
    simp only [Formula.leaves, List.mem_append] at mem
    rcases mem with (mem | mem) | mem
    · exact step (by simp [children, node, Node.children]) enters (ihCondition mem)
    · exact step (by simp [children, node, Node.children]) enters (ihResult mem)
    · exact step (by simp [children, node, Node.children]) enters (ihOtherwise mem)
  | projection node _ ih =>
    exact step (by simp [children, node, Node.children]) (by rw [node]; rfl) (ih mem)

/-- A node without circles has a value if each aggregate that it reaches has one. -/
theorem Acyclic.exists_valueOver (a : g.Acyclic id) (plain : g.PlainAggregates id)
    (m : Meaning ρ α) (rows : List ρ) : ∃ v, g.ValueOver m rows id v := by
  obtain ⟨f, c⟩ := a.exists_composes
  have leaves : ∀ part ∈ f.leaves, ∃ v, g.LeafValue m rows part v := by
    intro part mem
    have reached := c.outside_of_mem_leaves mem
    cases node : g.node part with
    | aggregate aggregate =>
      obtain ⟨function, within⟩ := plain part aggregate reached node
      have formula : ∀ child ∈ g.children part, ∃ f, g.RowFormula child f := by
        intro child slot
        obtain ⟨f, c⟩ := ((a.below reached.below).child slot).exists_composes
        exact ⟨f, c, fun leaf mem => within child slot leaf (c.outside_of_mem_leaves mem).below⟩
      obtain ⟨operand, ofOperand⟩ := formula aggregate.operand (by simp [children, node, Node.children])
      obtain ⟨condition, ofCondition⟩ : ∃ c, Option.Rel g.RowFormula aggregate.condition c :=
        exists_optionRel fun condition held => formula condition (by
          simp [children, node, Node.children, Option.mem_def.mp held])
      exact ⟨_, .aggregate node function ofOperand ofCondition⟩
    | _ => exact ⟨_, .plain (by rw [node]; rfl)⟩
  have : Nonempty (Value α) := ⟨.null⟩
  choose! leaf values using leaves
  exact ⟨_, f, leaf, c, values, rfl⟩

/-- A scope without circles retrieves each value. -/
theorem Acyclic.exists_retrieves (a : g.Acyclic scope) (mem : value ∈ (g.scope scope).values)
    (plain : g.PlainAggregates value) (m : Meaning ρ α) (rows : List ρ) :
    ∃ v, g.Retrieves m rows scope value v := by
  have slot : ∀ {id}, id ∈ (Node.retrieve (g.scope scope)).children → g.Acyclic id := fun mem =>
    a.child (g.children_scope_subset scope mem)
  have ofValue : g.Acyclic value := slot (by simp [Node.children, mem])
  obtain ⟨filter, ofFilter⟩ : ∃ c, Option.Rel g.Composes (g.scope scope).condition c :=
    exists_optionRel fun condition held =>
      (slot (by simp [Node.children, Option.mem_def.mp held])).exists_composes
  obtain ⟨v, value⟩ := ofValue.exists_valueOver plain m (rows.filter (m.passes filter))
  exact ⟨v, filter, ofFilter, value⟩

/-! ## Changes that keep formulas -/

/-- A change that leaves the old nodes apart from aggregates and scopes, which stay such. -/
structure KeepsFormulas (g h : Graph) : Prop where
  size : g.size ≤ h.size
  node : ∀ {id}, g.Has id → h.node id = g.node id ∨
    (g.node id).isAggregate = true ∧ (h.node id).isAggregate = true ∨
    (g.node id).isRetrieve = true ∧ (h.node id).isRetrieve = true

namespace KeepsFormulas

variable (keeps : KeepsFormulas g h)

include keeps

theorem node_eq (has : g.Has id) (composite : (g.node id).isComposite = true) :
    h.node id = g.node id := by
  rcases keeps.node has with same | ⟨kind, -⟩ | ⟨kind, -⟩
  · exact same
  · obtain ⟨a, node⟩ := Node.exists_of_isAggregate kind
    simp [node, Node.isComposite] at composite
  · obtain ⟨r, node⟩ := Node.exists_of_isRetrieve kind
    simp [node, Node.isComposite] at composite

theorem kind (has : g.Has id) : (h.node id).isComposite = (g.node id).isComposite ∧
    (h.node id).isAggregate = (g.node id).isAggregate ∧
    (h.node id).isSubquery = (g.node id).isSubquery := by
  rcases keeps.node has with same | ⟨kind, kind'⟩ | ⟨kind, kind'⟩
  · rw [same]
    exact ⟨rfl, rfl, rfl⟩
  · obtain ⟨a, node⟩ := Node.exists_of_isAggregate kind
    obtain ⟨a', node'⟩ := Node.exists_of_isAggregate kind'
    rw [node, node']
    exact ⟨rfl, rfl, rfl⟩
  · obtain ⟨r, node⟩ := Node.exists_of_isRetrieve kind
    obtain ⟨r', node'⟩ := Node.exists_of_isRetrieve kind'
    rw [node, node']
    exact ⟨rfl, rfl, rfl⟩

theorem composes (c : g.Composes id f) : h.Composes id f := by
  have kept : ∀ {id node}, g.node id = node → node ≠ .null → node.isComposite = true →
      h.node id = node := by
    rintro id node is other composite
    exact (keeps.node_eq (has_of_node is other) (by rwa [is])).trans is
  induction c with
  | @leaf id other =>
    have has : g.Has id := by
      by_contra absent
      rw [node_of_not_has absent] at other
      cases other
    exact .leaf ((keeps.kind has).1.trans other)
  | null node has =>
    exact .null ((keeps.node_eq has (by rw [node]; rfl)).trans node)
      (Nat.lt_of_lt_of_le has keeps.size)
  | binary node _ _ left right => exact .binary (kept node (by simp) rfl) left right
  | not node _ inner => exact .not (kept node (by simp) rfl) inner
  | nullCheck node _ inner => exact .nullCheck (kept node (by simp) rfl) inner
  | choose node _ _ condition result => exact .choose (kept node (by simp) rfl) condition result
  | chooseOr node _ _ _ condition result otherwise =>
    exact .chooseOr (kept node (by simp) rfl) condition result otherwise
  | projection node _ inner => exact .projection (kept node (by simp) rfl) inner

theorem rowFormula (r : g.RowFormula id f) : h.RowFormula id f := by
  refine ⟨keeps.composes r.1, fun leaf mem => ?_⟩
  have has := r.1.has_of_mem_leaves mem
  rw [(keeps.kind has).2.1, (keeps.kind has).2.2]
  exact r.2 leaf mem

/-- A value over some rows stays if the leaves have theirs. -/
theorem valueOver {rows' : List ρ} (ofValue : g.ValueOver m rows id v)
    (leaves : ∀ part v, g.Has part → g.LeafValue m rows part v → h.LeafValue m rows' part v) :
    h.ValueOver m rows' id v := by
  obtain ⟨f, leaf, c, values, rfl⟩ := ofValue
  exact ⟨f, leaf, keeps.composes c,
    fun part mem => leaves part _ (c.has_of_mem_leaves mem) (values part mem), rfl⟩

end KeepsFormulas

end Graph

end RangeQuery
