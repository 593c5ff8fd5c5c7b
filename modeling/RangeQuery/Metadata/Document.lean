import RangeQuery.Json.Record
import RangeQuery.Metadata

/-!
Entity metadata as a JSON document: an object with the entities by name. Of several entities or
columns of one name the last one counts.
-/

namespace RangeQuery

/-- The name of a kind of relation. -/
def RelationKind.name : RelationKind → String
  | .manyToOne => "ManyToOne"
  | .oneToOne => "OneToOne"
  | .oneToMany => "OneToMany"
  | .manyToMany => "ManyToMany"

/-- The kind of relation with a name. -/
def RelationKind.ofName? (name : String) : Option RelationKind :=
  [.manyToOne, .oneToOne, .oneToMany, .manyToMany].find? fun kind => kind.name == name

/-- A kind of relation, as its name or as an object that gives nothing under it. -/
def RelationKind.ofJson? : Json → Option RelationKind
  | .string (some name) => RelationKind.ofName? name
  | .object [(some name, .null)] => RelationKind.ofName? name
  | _ => none

namespace Relation

/-- The fields of a relation, in order. -/
def fieldNames : List String :=
  ["kind", "property", "target_entity", "relation_column", "inversed_by", "required"]

/-- A relation; only whether it promises a partner may be left out. -/
def ofJson? (json : Json) : Option Relation :=
  match json.fields? fieldNames with
  | some [kind, property, target, column, inverse, required] => do
    return {
      kind := ← Json.readField RelationKind.ofJson? kind
      property := ← Json.readField Json.string? property
      targetEntity := ← Json.readField Json.string? target
      relationColumn := ← Json.readField Json.string? column
      inversedBy := ← Json.readField Json.string? inverse
      required := ← Json.readOr false Json.bool? required }
  | _ => none

end Relation

namespace Column

/-- The fields of a column, in order. -/
def fieldNames : List String := ["nullable", "type", "primary_key"]

/-- A column; a field that is left out says nothing against NULL. -/
def ofJson? (json : Json) : Option Column :=
  match json.fields? fieldNames with
  | some [nullable, type, primaryKey] => do
    return {
      nullable := ← Json.readOr true Json.bool? nullable
      type := ← Json.readOr "" Json.string? type
      primaryKey := ← Json.readOr false Json.bool? primaryKey }
  | _ => none

end Column

/-- The values of an object, read one by one and filed under the names of the members. -/
def NameTable.ofJson? {α : Type} (read : Json → Option α) (json : Json) : Option (NameTable α) := do
  let members ← json.members?
  let entries ← members.mapM fun member => (read member.2).map fun value => (member.1, value)
  return NameTable.ofList entries

namespace Entity

/-- The fields of an entity, in order. -/
def fieldNames : List String := ["columns", "relations"]

/-- The relations of an entity. -/
def relationsOfJson? (json : Json) : Option (List Relation) :=
  json.array?.bind fun items => items.mapM Relation.ofJson?

/-- An entity; what is left out is empty. -/
def ofJson? (json : Json) : Option Entity :=
  match json.fields? fieldNames with
  | some [columns, relations] => do
    return {
      columns := ← Json.readOr .empty (NameTable.ofJson? Column.ofJson?) columns
      relations := ← Json.readOr [] relationsOfJson? relations }
  | _ => none

end Entity

namespace EntityStore

/-- A store: an object with the entities by name. -/
def ofJson? (json : Json) : Option EntityStore :=
  (NameTable.ofJson? Entity.ofJson? json).map EntityStore.mk

/-- The store that a document holds. -/
def ofDocument (document : Option String) : Except DocumentError EntityStore :=
  Json.readDocument ofJson? document

end EntityStore

end RangeQuery
