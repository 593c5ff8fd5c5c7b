import RangeQuery.Metadata
import RangeQuery.Proofs.Predicate.Terms

/-!
Databases. A database lists the rows of each entity; a row has a value in each column, and its
relations lead on to other rows. What is declared about entities is a promise about their rows.
-/

namespace RangeQuery

namespace Value

variable {α : Type} [DecidableEq α]

/-- Whether two values are equal; of NULL it is not known. -/
def equal : Value α → Value α → Truth
  | .null, _ | _, .null => .unknown
  | left, right => if left = right then .yes else .no

@[simp] theorem equal_null (left : Value α) : left.equal .null = .unknown := by
  cases left <;> rfl

theorem equal_eq_yes {left right : Value α} :
    left.equal right = .yes ↔ left = right ∧ left ≠ .null := by
  cases left <;> cases right <;> simp [equal]

theorem equal_comm (left right : Value α) : left.equal right = right.equal left := by
  cases left <;> cases right <;> simp [equal, eq_comm]

end Value

/-- Whether a column of an entity is declared as its key. -/
def EntityStore.isKey (s : EntityStore) (entity field : String) : Bool :=
  ((s.columns? entity).bind (·.get? field)).any (·.primaryKey)

/-- A local identifier leads to no other row before it names a column. -/
def Identifier.isLocal (i : Identifier) : Bool := i.path.dropLast.isEmpty

/-- The rows of the entities, with their columns and relations. -/
structure Database (ρ α : Type) where
  rows : String → List ρ
  column : ρ → String → Value α
  /-- The row that a relation of a row leads to. -/
  related : ρ → String → Option ρ

namespace Database

variable {ρ α : Type} (d : Database ρ α)

/-- The row at the end of some relations. -/
def follow (row : ρ) (path : List String) : Option ρ := path.foldlM d.related row

/-- The value of an identifier, given the row of its range. The last name of the path is a column,
those before it are relations; where a row is missing on the way, there is NULL. -/
def read (row : Option ρ) (i : Identifier) : Value α :=
  match row.bind (d.follow · i.path.dropLast) with
  | some last => d.column last i.field
  | none => .null

@[simp] theorem read_none (i : Identifier) : d.read none i = .null := rfl

/-- A local identifier is a column of the row. -/
theorem read_of_isLocal {i : Identifier} (own : i.isLocal = true) (row : ρ) :
    d.read (some row) i = d.column row i.field := by
  rw [read, List.isEmpty_iff.mp own]
  rfl

theorem read_of_isDirect {i : Identifier} (direct : i.isDirect = true) (row : ρ) :
    d.read (some row) i = d.column row i.field := by
  refine d.read_of_isLocal ?_ row
  obtain ⟨name, path⟩ : ∃ name, i.path = [name] :=
    List.length_eq_one_iff.mp (by simpa [Identifier.isDirect] using direct)
  rw [Identifier.isLocal, path]
  rfl

/-- Where an entity declares a required relation to one, each of its rows has a partner. -/
def KeepsPromises [DecidableEq α] (metadata : Metadata) : Prop :=
  ∀ entity, ∀ r ∈ metadata.relations entity, r.required = true → r.isToOne = true →
    ∀ row ∈ d.rows entity, ∃ partner ∈ d.rows r.targetEntity,
      (d.column partner r.inversedBy).equal (d.column row r.relationColumn) = .yes

/-- A declared key never holds NULL, and no two rows of the entity share it. -/
def RespectsKeys (s : EntityStore) : Prop :=
  ∀ entity field, s.isKey entity field = true →
    (∀ row ∈ d.rows entity, d.column row field ≠ .null) ∧
      ∀ x ∈ d.rows entity, ∀ y ∈ d.rows entity, d.column x field = d.column y field → x = y

end Database

end RangeQuery
