import RangeQuery.Proofs.Rows.JoinChain
import RangeQuery.Proofs.Scope.SelfJoin

/-!
Merged ranges and their rows. Two ranges are merged over an equality of two identifiers that end in
the same name. Both sides are then one column of one row exactly if neither leads to another row
first, and a key is what tells the rows apart by that column.
-/

namespace RangeQuery

namespace Graph

variable {g : Graph} {pair : IdentityPair} {entity : String} {predicate : NodeId}
  {left right : Identifier}

/-! ## The predicates of merged ranges -/

/-- Two ranges over one entity of which one is joined by the equality of two identifiers, of one
range each, that end in the same name. -/
structure Identity (g : Graph) (pair : IdentityPair) (entity : String) (predicate : NodeId)
    (left right : Identifier) : Prop where
  ne : pair.kept ≠ pair.removed
  entity : g.entity? pair.kept = some entity ∧ g.entity? pair.removed = some entity
  held : g.join? pair.carrier = some predicate
  equality : g.identifierEquality? predicate = some (left, right)
  sides : left.range = pair.kept ∧ right.range = pair.removed ∨
    left.range = pair.removed ∧ right.range = pair.kept
  field : left.field = right.field

theorem exists_identity_of_findIdentity? {ranges : List NodeId}
    (found : g.findIdentity? ranges = some pair) :
    ∃ entity predicate left right, g.Identity pair entity predicate left right := by
  induction ranges with
  | nil => cases found
  | cons a rest ih =>
    rw [findIdentity?, Option.or_eq_some_iff] at found
    rcases found with found | ⟨-, found⟩
    · obtain ⟨b, -, found⟩ := List.exists_of_findSome?_eq_some found
      obtain ⟨rfl, rfl, same, holds⟩ := of_identityPair? found
      obtain ⟨ne, predicate, left, right, held, equality, sides, field⟩ :=
        exists_of_holdsIdentity holds
      obtain ⟨entity, ofKept, ofRemoved⟩ := sameEntity_iff.mp same
      exact ⟨entity, predicate, left, right, ne, ⟨ofKept, ofRemoved⟩, held, equality, sides, field⟩
    · exact ih found

/-- The pairs that some rounds merge in a scope, each with the graph in which it is found. -/
def mergesWithin : Nat → Graph → NodeId → List (Graph × IdentityPair)
  | 0, _, _ => []
  | rounds + 1, g, scope =>
    match g.findIdentity? (g.includedRanges scope) with
    | some pair => (g, pair) :: mergesWithin rounds (g.mergePair scope pair) scope
    | none => []

/-- The pairs that are merged in a scope. -/
def merges (g : Graph) (scope : NodeId) : List (Graph × IdentityPair) :=
  mergesWithin (g.includedRanges scope).length g scope

theorem fst_mergeRounds (rounds : Nat) (g : Graph) (scope : NodeId) :
    (mergeRounds rounds g scope).1 =
      (mergesWithin rounds g scope).foldl (fun g merge => g.mergePair scope merge.2) g := by
  induction rounds generalizing g with
  | zero => rfl
  | succ rounds ih =>
    cases found : g.findIdentity? (g.includedRanges scope) with
    | none => simp only [mergeRounds, mergesWithin, found, List.foldl_nil]
    | some pair => simp only [mergeRounds, mergesWithin, found, List.foldl_cons, ih]

theorem findIdentity?_of_mem_mergesWithin {rounds : Nat} {g : Graph} {scope : NodeId}
    {merge : Graph × IdentityPair} (mem : merge ∈ mergesWithin rounds g scope) :
    merge.1.findIdentity? (merge.1.includedRanges scope) = some merge.2 := by
  induction rounds generalizing g with
  | zero => cases mem
  | succ rounds ih =>
    unfold mergesWithin at mem
    split at mem
    · next pair found =>
      rcases List.mem_cons.mp mem with rfl | mem
      · exact found
      · exact ih mem
    · cases mem

/-! ## The rows of merged ranges -/

/-- Whatever the database, if only the declared keys are respected, the predicate of a pair holds of
two rows of the entity only if they are the same row. -/
def JoinsSameRow (s : EntityStore) (g : Graph) (pair : IdentityPair) (entity : String)
    (predicate : NodeId) : Prop :=
  ∀ (ρ α : Type) [DecidableEq α] (w : World ρ α), w.RespectsKeys s →
    ∀ x ∈ w.rows entity, ∀ y ∈ w.rows entity,
      w.truth g predicate [(pair.removed, some y), (pair.kept, some x)] = .yes → x = y

/-- Which of the two ranges a side belongs to does not matter, as both range over all rows. -/
theorem Identity.joinsSameRow_iff_sides (i : g.Identity pair entity predicate left right)
    (s : EntityStore) : JoinsSameRow s g pair entity predicate ↔
      ∀ (ρ α : Type) [DecidableEq α] (w : World ρ α), w.RespectsKeys s →
        ∀ x ∈ w.rows entity, ∀ y ∈ w.rows entity,
          (w.read (some x) left).equal (w.read (some y) right) = .yes → x = y := by
  unfold JoinsSameRow
  simp only [World.truth, i.equality]
  rcases i.sides with ⟨ofKept, ofRemoved⟩ | ⟨ofRemoved, ofKept⟩
  · simp only [ofKept, ofRemoved, Combination.rowOf_cons_self, Combination.rowOf_cons_of_ne i.ne]
  · simp only [ofKept, ofRemoved, Combination.rowOf_cons_self, Combination.rowOf_cons_of_ne i.ne]
    constructor <;> intro same ρ α _ w keys x ofX y ofY equal <;>
      exact (same ρ α w keys y ofY x ofX equal).symm

end Graph

/-- Two rows of one entity that only its keys tell apart; every relation leads to the first one. -/
def World.alike (s : EntityStore) (entity : String) : World Bool Bool where
  rows name := if name = entity then [false, true] else []
  column row field := .datum (s.isKey entity field && row)
  related _ _ := some false
  results _ := []
  judge _ _ := .unknown

theorem World.respectsKeys_alike (s : EntityStore) (entity : String) :
    (World.alike s entity).RespectsKeys s := by
  intro name field key
  by_cases same : name = entity
  · subst same
    simp [World.alike, key]
  · simp [World.alike, same]

theorem World.follow_alike (s : EntityStore) (entity : String) (row : Bool) (path : List String) :
    (World.alike s entity).follow row path = some (path.isEmpty && row) := by
  induction path generalizing row with
  | nil => simp [Database.follow]
  | cons name rest ih =>
    have step : (World.alike s entity).follow row (name :: rest) =
        (World.alike s entity).follow false rest := rfl
    simp [step, ih]

theorem World.read_alike (s : EntityStore) (entity : String) (row : Bool) (i : Identifier) :
    (World.alike s entity).read (some row) i =
      .datum (s.isKey entity i.field && (i.isLocal && row)) := by
  rw [Database.read, Option.bind_some, World.follow_alike]
  rfl

namespace Graph

variable {g : Graph} {pair : IdentityPair} {entity : String} {predicate : NodeId}
  {left right : Identifier}

/-- The predicate of a pair joins each row to itself only if both sides are columns of the row and
the name that they share is a key. -/
theorem Identity.joinsSameRow_iff (i : g.Identity pair entity predicate left right)
    (s : EntityStore) : JoinsSameRow s g pair entity predicate ↔
      left.isLocal = true ∧ right.isLocal = true ∧ s.isKey entity left.field = true := by
  rw [i.joinsSameRow_iff_sides]
  constructor
  · intro same
    have apart : ∀ x y : Bool,
        (s.isKey entity left.field && (left.isLocal && x)) =
          (s.isKey entity left.field && (right.isLocal && y)) → x = y := by
      intro x y equal
      refine same Bool Bool (World.alike s entity) (World.respectsKeys_alike s entity) x
        (by cases x <;> simp [World.alike]) y (by cases y <;> simp [World.alike]) ?_
      rw [World.read_alike, World.read_alike, ← i.field, equal, Value.equal_eq_yes]
      simp
    have told : ∀ key own own' : Bool,
        (∀ x y : Bool, (key && (own && x)) = (key && (own' && y)) → x = y) →
          own = true ∧ own' = true ∧ key = true := by decide
    exact told _ _ _ apart
  · rintro ⟨own, own', key⟩ ρ α _ w keys x ofX y ofY equal
    rw [w.read_of_isLocal own, w.read_of_isLocal own', Value.equal_eq_yes, ← i.field] at equal
    exact (keys entity left.field key).2 x ofX y ofY equal.1

/-- Merging ranges of a scope goes through its merges one after the other. Each is made over the
equality of two identifiers of the two ranges, and joins every row to itself only, whatever the
database, exactly if both are columns of the entity itself and name a declared key. -/
theorem merges_joinSameRow_iff (s : EntityStore) (g : Graph) (scope : NodeId) :
    (g.mergeSelfJoins scope).1 =
        (g.merges scope).foldl (fun g merge => g.mergePair scope merge.2) g ∧
      ∀ merge ∈ g.merges scope, ∃ entity predicate left right,
        merge.1.Identity merge.2 entity predicate left right ∧
        (JoinsSameRow s merge.1 merge.2 entity predicate ↔
          left.isLocal = true ∧ right.isLocal = true ∧
            s.isKey entity left.field = true) := by
  refine ⟨fst_mergeRounds .., fun merge mem => ?_⟩
  obtain ⟨entity, predicate, left, right, identity⟩ :=
    exists_identity_of_findIdentity? (findIdentity?_of_mem_mergesWithin mem)
  exact ⟨entity, predicate, left, right, identity, identity.joinsSameRow_iff s⟩

/-- Employees with their managers. -/
def managersOfEmployees : Graph := ⟨#[
  ⟨.range { name := "e", entity := some "Employee", join := none, required := false
            included := true, nested := none }, some ⟨5⟩⟩,
  ⟨.identifier { range := ⟨4⟩, path := ["id"] }, some ⟨3⟩⟩,
  ⟨.identifier { range := ⟨0⟩, path := ["manager", "id"] }, some ⟨3⟩⟩,
  ⟨.binary .eq ⟨1⟩ ⟨2⟩, some ⟨4⟩⟩,
  ⟨.range { name := "m", entity := some "Employee", join := some ⟨3⟩, required := false
            included := true, nested := none }, some ⟨5⟩⟩,
  ⟨.retrieve { Retrieve.empty with ranges := [⟨0⟩, ⟨4⟩] }, none⟩]⟩

/-- A manager is merged into the employee, although the keys that are compared are those of two
rows. -/
theorem merges_joinSameRow_iff_managersOfEmployees :
    let pair : IdentityPair := { kept := ⟨0⟩, removed := ⟨4⟩, holder := .removed }
    (managersOfEmployees, pair) ∈ managersOfEmployees.merges ⟨5⟩ ∧
      ∀ s, ¬ JoinsSameRow s managersOfEmployees pair "Employee" ⟨3⟩ := by
  intro pair
  have merge : (managersOfEmployees, pair) ∈ managersOfEmployees.merges ⟨5⟩ := by decide
  refine ⟨merge, fun s same => ?_⟩
  obtain ⟨entity, predicate, left, right, identity, exact⟩ :=
    (merges_joinSameRow_iff s managersOfEmployees ⟨5⟩).2 _ merge
  obtain rfl : "Employee" = entity := Option.some.inj identity.entity.1
  obtain rfl : ⟨3⟩ = predicate := Option.some.inj identity.held
  obtain ⟨-, rfl⟩ := Prod.mk.inj (Option.some.inj identity.equality)
  obtain ⟨-, own, -⟩ := exact.mp same
  cases own

end Graph

end RangeQuery
