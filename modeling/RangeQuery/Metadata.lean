import RangeQuery.NameTable

/-!
What is known about entities: their columns and the relations they declare. The optimiser asks
two questions only, which `Metadata` holds; a store answers them from tables.
-/

namespace RangeQuery

/-- How many rows stand on the two sides of a relation. -/
inductive RelationKind where
  | manyToOne | oneToOne | oneToMany | manyToMany
deriving DecidableEq

/-- A column of an entity. -/
structure Column where
  nullable : Bool
  type : String
  primaryKey : Bool
deriving DecidableEq

/-- A relation that an entity declares: its column `relationColumn` holds what the field
`inversedBy` of the target entity holds. -/
structure Relation where
  kind : RelationKind
  property : String
  targetEntity : String
  relationColumn : String
  inversedBy : String
  /-- Whether every row has a partner. -/
  required : Bool
deriving DecidableEq

/-- A relation to one leads from each row to a single row. -/
def Relation.isToOne (r : Relation) : Bool :=
  match r.kind with
  | .manyToOne | .oneToOne => true
  | .oneToMany | .manyToMany => false

/-- The two questions asked about entities. -/
structure Metadata where
  /-- The relations an entity declares. -/
  relations : String → List Relation
  /-- Whether a column of an entity may hold NULL. -/
  nullable : String → String → Bool

/-- The columns and relations of one entity. -/
structure Entity where
  columns : NameTable Column
  relations : List Relation
deriving DecidableEq, Inhabited

/-- The entity without columns and relations. -/
def Entity.empty : Entity := { columns := .empty, relations := [] }

/-- Entities by name. -/
structure EntityStore where
  entities : NameTable Entity
deriving DecidableEq, Inhabited

namespace EntityStore

/-- The store without entities. -/
def empty : EntityStore := ⟨.empty⟩

/-- Change an entity, which is empty before if the store does not know it. -/
def update (s : EntityStore) (entity : String) (change : Entity → Entity) : EntityStore :=
  ⟨s.entities.insert entity (change ((s.entities.get? entity).getD .empty))⟩

/-- Declare a column by whether it may hold NULL. -/
def column (s : EntityStore) (entity field : String) (nullable : Bool) : EntityStore :=
  s.update entity fun e =>
    { e with columns := e.columns.insert field { nullable, type := "", primaryKey := false } }

/-- Declare the column that identifies a row. -/
def primaryKey (s : EntityStore) (entity field : String) : EntityStore :=
  s.update entity fun e =>
    { e with columns :=
        e.columns.insert field { nullable := false, type := "integer", primaryKey := true } }

/-- Declare one more relation. -/
def relation (s : EntityStore) (entity : String) (relation : Relation) : EntityStore :=
  s.update entity fun e => { e with relations := e.relations ++ [relation] }

/-- The columns of a known entity. -/
def columns? (s : EntityStore) (entity : String) : Option (NameTable Column) :=
  (s.entities.get? entity).map (·.columns)

/-- The relations of an entity, none for an unknown one. -/
def relations (s : EntityStore) (entity : String) : List Relation :=
  match s.entities.get? entity with
  | some e => e.relations
  | none => []

/-- Whether a column may hold NULL; what is unknown may. -/
def nullable (s : EntityStore) (entity field : String) : Bool :=
  match (s.columns? entity).bind (·.get? field) with
  | some column => column.nullable
  | none => true

/-- The answers of a store. -/
def metadata (s : EntityStore) : Metadata := { relations := s.relations, nullable := s.nullable }

end EntityStore

end RangeQuery
